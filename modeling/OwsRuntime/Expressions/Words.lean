import OwsRuntime.Expressions.Paths

/-! What the parser makes of some tokens in front of a word, where it makes an expression of
them in front of the end. Either it ends before the word, or the loop over the first names of a
path takes the word, and the expression is larger. -/
namespace OwsRuntime
namespace Jq

/-- Where the parser is when it may have looked at what ends the input: there, or before a dot. -/
def Cursor.Slack (c : Cursor) : Prop := c.rest = [.eof] ∨ c.rest = [.dot, .eof]

/-- A parser that fails there. -/
def Fails {α : Type} (P : Parser α) : Prop := ∀ c, c.Slack → ∃ e, P c = .error e

/-- A parser that stays there. -/
def Stays {α : Type} (P : Parser α) : Prop :=
  ∀ c, c.Slack → ∀ a c', P c = .ok (a, c') → c'.Slack

section Slack

variable {α β : Type} {platform : Platform}

/-- A parser that has looked at the end sees the end itself, or the one dot that is left in front of
it. -/
theorem Cursor.Slack.head {c : Cursor} (slack : c.Slack) :
    ∃ t rest, c.rest = t :: rest ∧ (t = .eof ∨ t = .dot) := by
  rcases slack with hRest | hRest
  · exact ⟨_, _, hRest, Or.inl rfl⟩
  · exact ⟨_, _, hRest, Or.inr rfl⟩

/-- What fails where the input may end fails there whatever would come after it. -/
theorem Fails.bind {P : Parser α} (fails : Fails P) (f : α → Parser β) : Fails (P >>= f) := by
  intro c slack
  obtain ⟨e, hError⟩ := fails c slack
  exact ⟨e, by rw [bind_apply, hError]; rfl⟩

/-- A parser that stays where the input may end leaves what follows there too, and if that fails,
both fail. -/
theorem Stays.bind_fails {P : Parser α} {f : α → Parser β} (stays : Stays P)
    (fails : ∀ a, Fails (f a)) : Fails (P >>= f) := by
  intro c slack
  cases hFirst : P c with
  | error e => exact ⟨e, by rw [bind_apply, hFirst]; rfl⟩
  | ok r =>
      obtain ⟨e, hError⟩ := fails r.1 r.2 (stays c slack r.1 r.2 hFirst)
      exact ⟨e, by rw [bind_apply, hFirst]; exact hError⟩

/-- A parser that consumes nothing stays where it is. -/
theorem Stays.pure (a : α) : Stays (Pure.pure a : Parser α) := by
  intro c slack b c' hRun
  cases hRun
  exact slack

/-- A token that is neither the end nor a dot is not found there. -/
theorem Fails.ite {found : Token → Prop} [DecidablePred found] {f g : Parser α}
    (hEof : ¬ found .eof) (hDot : ¬ found .dot) (fails : Fails g) :
    Fails (Jq.peek >>= fun t => if found t then f else g) := by
  intro c slack
  obtain ⟨t, rest, hRest, ht⟩ := slack.head
  rw [peek_apply _ hRest]
  rcases ht with rfl | rfl
  · rw [if_neg hEof]
    exact fails c slack
  · rw [if_neg hDot]
    exact fails c slack

/-- A choice by the next token goes the other way at the end and at a dot, so it stays there when
the other way does. -/
theorem Stays.ite {found : Token → Prop} [DecidablePred found] {f g : Parser α}
    (hEof : ¬ found .eof) (hDot : ¬ found .dot) (stays : Stays g) :
    Stays (Jq.peek >>= fun t => if found t then f else g) := by
  intro c slack a c' hRun
  obtain ⟨t, rest, hRest, ht⟩ := slack.head
  rw [peek_apply _ hRest] at hRun
  rcases ht with rfl | rfl
  · rw [if_neg hEof] at hRun
    exact stays c slack a c' hRun
  · rw [if_neg hDot] at hRun
    exact stays c slack a c' hRun

/-- A token that is expected, and is neither the end nor a dot, is not there where the input may
end. -/
theorem fails_expect {token : Token} (hEof : token ≠ .eof) (hDot : token ≠ .dot) (what : String) :
    Fails (expect platform token what) := by
  intro c slack
  obtain ⟨t, rest, hRest, ht⟩ := slack.head
  have hOther : t ≠ token := by
    rcases ht with rfl | rfl
    · exact Ne.symm hEof
    · exact Ne.symm hDot
  rw [expect, peek_apply _ hRest, if_neg hOther]
  exact ⟨_, rfl⟩

/-- Nor is a keyword, which is an identifier among the tokens. -/
theorem fails_expectKeyword (keyword : String) : Fails (expectKeyword platform keyword) := by
  intro c slack
  obtain ⟨t, rest, hRest, ht⟩ := slack.head
  have hOther : t ≠ .ident keyword := by rcases ht with rfl | rfl <;> nofun
  rw [expectKeyword, peek_apply _ hRest, if_neg hOther]
  exact ⟨_, rfl⟩

/-- Where the input may end, an `if` has no further branch: its `else` is the identity, and nothing
is consumed. -/
theorem stays_parseElseTail (N : Nested) : Stays (parseElseTail N) := by
  intro c slack a c' hRun
  obtain ⟨t, rest, hRest, ht⟩ := slack.head
  have hNone (name : String) : t ≠ .ident name := by rcases ht with rfl | rfl <;> nofun
  rw [parseElseTail, peek_apply _ hRest, if_neg (hNone _), peek_apply _ hRest,
    if_neg (hNone _)] at hRun
  cases hRun
  exact slack

/-- So an `if` whose last branch ran into the end of the input fails, for want of the `end` that
closes it. -/
theorem fails_ifEnd (N : Nested) {f : Expr → Expr} : Fails
    (parseElseTail N >>= fun e => expectKeyword platform "end" >>= fun _ => pure (f e)) :=
  (stays_parseElseTail N).bind_fails fun _ => (fails_expectKeyword _).bind _

end Slack

section Rules

variable (word : String) (more : List Token)

/-- A successful run of one parser is one of the other in front of a word, or it has looked at
the end. -/
def Tends {α : Type} (P Q : Parser α) : Prop :=
  ∀ c d, Extends (.ident word) more c d → ∀ a c', P c = .ok (a, c') →
    (∃ d', Q d = .ok (a, d') ∧ Extends (.ident word) more c' d') ∨ c'.Slack

variable {word more} {α β : Type}

/-- A parser that runs alike before any tail runs alike in front of a word. -/
theorem Sim.tends {P Q : Parser α} (sim : Sim (.ident word) more P Q) : Tends word more P Q :=
  fun c d extends_ a c' hRun => Or.inl (sim c d extends_ a c' hRun)

/-- Two parsers after one another. Either the first has the same result in front of the word and the
second goes on from it, or the first looked at the end, and the second stays there. -/
theorem Tends.bind {P Q : Parser α} {f g : α → Parser β} (first : Tends word more P Q)
    (hNext : ∀ a, Tends word more (f a) (g a)) (stays : ∀ a, Stays (f a)) :
    Tends word more (P >>= f) (Q >>= g) := by
  intro c d extends_ b c' hRun
  obtain ⟨a, middle, hFirst, hRun⟩ := run_bind hRun
  rcases first c d extends_ a middle hFirst with ⟨middle', hFirst', extends_⟩ | slack
  · rcases hNext a middle middle' extends_ b c' hRun with ⟨d', hRun', extends_⟩ | slack
    · refine Or.inl ⟨d', ?_, extends_⟩
      rw [bind_apply, hFirst']
      exact hRun'
    · exact Or.inr slack
  · exact Or.inr (stays a middle slack b c' hRun)

/-- Where the first of two parsers runs alike before any tail, only the second may look at the end.
-/
theorem Sim.bind_tends {P Q : Parser α} {f g : α → Parser β} (first : Sim (.ident word) more P Q)
    (hNext : ∀ a, Tends word more (f a) (g a)) : Tends word more (P >>= f) (Q >>= g) := by
  intro c d extends_ b c' hRun
  obtain ⟨a, middle, hFirst, hRun⟩ := run_bind hRun
  obtain ⟨middle', hFirst', extends_⟩ := first c d extends_ a middle hFirst
  rcases hNext a middle middle' extends_ b c' hRun with ⟨d', hRun', extends_⟩ | slack
  · refine Or.inl ⟨d', ?_, extends_⟩
    rw [bind_apply, hFirst']
    exact hRun'
  · exact Or.inr slack

/-- What closes an expression has not been found where its parser has looked at the end. -/
theorem Tends.close {P Q : Parser α} {f g : α → Parser β} (first : Tends word more P Q)
    (hNext : ∀ a, Sim (.ident word) more (f a) (g a)) (fails : ∀ a, Fails (f a)) :
    Sim (.ident word) more (P >>= f) (Q >>= g) := by
  intro c d extends_ b c' hRun
  obtain ⟨a, middle, hFirst, hRun⟩ := run_bind hRun
  rcases first c d extends_ a middle hFirst with ⟨middle', hFirst', extends_⟩ | slack
  · obtain ⟨d', hRun', extends_⟩ := hNext a middle middle' extends_ b c' hRun
    refine ⟨d', ?_, extends_⟩
    rw [bind_apply, hFirst']
    exact hRun'
  · obtain ⟨e, hError⟩ := fails a middle slack
    rw [hError] at hRun
    cases hRun

/-- One way is taken where some token is found. At the end it is not, and the other way is. -/
theorem Tends.ite {found : Token → Prop} [DecidablePred found] {f f' g g' : Parser α}
    (hEof : ¬ found .eof) (hFound : ∀ t tokens c d, NoEof (t :: tokens) →
      c.rest = t :: tokens ++ [.eof] → d.rest = t :: tokens ++ .ident word :: more →
        ∀ a c', f c = .ok (a, c') →
          (∃ d', g d = .ok (a, d') ∧ Extends (.ident word) more c' d') ∨ c'.Slack)
    (hOther : Tends word more f' g') (stays : Stays f') :
    Tends word more (Jq.peek >>= fun t => if found t then f else f')
      (Jq.peek >>= fun t => if found t then g else g') := by
  intro c d extends_ a c' hRun
  obtain ⟨tokens, hTokens, hc, hd⟩ := extends_
  cases tokens with
  | nil =>
      rw [peek_apply _ hc, if_neg hEof] at hRun
      exact Or.inr (stays c (Or.inl hc) a c' hRun)
  | cons t tokens =>
      rw [peek_apply _ hc] at hRun
      rw [peek_apply _ hd]
      by_cases hToken : found t
      · rw [if_pos hToken] at hRun ⊢
        exact hFound t tokens c d hTokens hc hd a c' hRun
      · rw [if_neg hToken] at hRun ⊢
        exact hOther c d ⟨t :: tokens, hTokens, hc, hd⟩ a c' hRun

/-- The first of some tokens is consumed, and the ones after it are left in front of the same tail.
-/
theorem advance_front {c : Cursor} {t last : Token} {tokens rest : List Token}
    (hRest : c.rest = t :: tokens ++ last :: rest) :
    Jq.advance c = .ok (t, ⟨c.pos + 1, tokens ++ last :: rest⟩) := by
  rw [Jq.advance, hRest]
  cases tokens <;> rfl

/-- A token is consumed where it is found. -/
theorem Tends.ite_advance {found : Token → Prop} [DecidablePred found] {f f' g g' : Parser α}
    (hEof : ¬ found .eof) (hFound : Tends word more f g) (hOther : Tends word more f' g')
    (stays : Stays f') :
    Tends word more (Jq.peek >>= fun t => if found t then advance >>= fun _ => f else f')
      (Jq.peek >>= fun t => if found t then advance >>= fun _ => g else g') := by
  refine Tends.ite hEof (fun t tokens c d hTokens hc hd a c' hRun => ?_) hOther stays
  rw [bind_apply, advance_front hc] at hRun
  rw [bind_apply, advance_front hd]
  have hTail : NoEof tokens := fun u hu => hTokens u (List.mem_cons_of_mem _ hu)
  exact hFound _ _ ⟨tokens, hTail, rfl, rfl⟩ a c' hRun

/-- There are at least as many tokens before another tail. -/
theorem Tends.remaining {f g : Nat → Parser α}
    (hNext : ∀ m n, m ≤ n → Tends word more (f m) (g n)) :
    Tends word more (remaining >>= f) (remaining >>= g) := by
  intro c d extends_ a c' hRun
  have hLength : c.rest.length ≤ d.rest.length := by
    obtain ⟨tokens, _, hc, hd⟩ := extends_
    rw [hc, hd, List.length_append, List.length_append]
    simp
  exact hNext _ _ hLength c d extends_ a c' hRun

end Rules

/-- One level of nesting, in front of a word. -/
structure NestedTends (word : String) (more : List Token) (N : Nested) : Prop where
  expr : Tends word more N.expr N.expr
  pipe : Tends word more N.pipe N.pipe
  exprEnd : NeedsToken N.expr
  pipeEnd : NeedsToken N.pipe

section Brackets

variable {platform : Platform} {word : String} {more : List Token} {α : Type} {N : Nested}
  (tends : NestedTends word more N)
include tends

/-- An expression up to a token that closes it. -/
theorem word_closed {token : Token} {f : Expr → Parser α} {what : String} (hEof : token ≠ .eof)
    (hDot : token ≠ .dot) (hNext : ∀ e, Sim (.ident word) more (f e) (f e)) :
    Sim (.ident word) more (N.expr >>= fun e => expect platform token what >>= fun _ => f e)
      (N.expr >>= fun e => expect platform token what >>= fun _ => f e) :=
  tends.expr.close (fun e => (sim_expect hEof what).bind fun _ => hNext e)
    fun _ => (fails_expect hEof hDot what).bind _

/-- What stands between brackets after a path is closed by a bracket, so it never depends on the
tail. The three forms are the iterator, the slice without a lower end, and the one that starts with
an expression. -/
theorem word_parseBracket (base : Expr) : SimAt (.ident word) more .lBracket
    (parseBracket platform N base) (parseBracket platform N base) := by
  apply SimAt.peek2 (by nofun)
  · intro t ht
    by_cases hClose : t = .rBracket
    · subst hClose
      exact SimAt₂.advance (by nofun) ht (SimAt.advance ht (Sim.pure _))
    · rw [if_neg hClose]
      exact (SimAt.advance (by nofun) (word_closed tends (by nofun) (by nofun) fun _ => Sim.pure _)).at_
  · exact SimLast.of_needs (f := fun _ => _) (tends.exprEnd.bind _) rfl

/-- The tail of an `if`: another branch, an `else`, or none of them, which the end of the input
decides. -/
theorem word_parseElseTail : Tends word more (parseElseTail N) (parseElseTail N) := by
  have hElif : Tends word more
      (Jq.peek >>= fun t => if t = .ident "elif" then N.expr else pure (Expr.literal .null))
      (Jq.peek >>= fun t => if t = .ident "elif" then N.expr else pure (Expr.literal .null)) :=
    Tends.ite (by nofun) (fun t tokens c d hTokens hc hd =>
      tends.expr c d ⟨t :: tokens, hTokens, hc, hd⟩) (Sim.pure _).tends (Stays.pure _)
  exact Tends.ite_advance (by nofun) tends.expr hElif
    (Stays.ite (by nofun) (by nofun) (Stays.pure _))

/-- The keyword that closes an `if`, after its last branch. -/
theorem word_ifEnd {f : Expr → Expr} : Sim (.ident word) more
    (parseElseTail N >>= fun e => expectKeyword platform "end" >>= fun _ => pure (f e))
    (parseElseTail N >>= fun e => expectKeyword platform "end" >>= fun _ => pure (f e)) :=
  (word_parseElseTail tends).close (fun _ => (sim_expectKeyword _).bind fun _ => Sim.pure _)
    fun _ => (fails_expectKeyword _).bind _

/-- An expression up to a keyword that closes it, as `then` closes a condition. -/
theorem word_keyword {f : Expr → Parser α} (keyword : String)
    (hNext : ∀ e, Sim (.ident word) more (f e) (f e)) :
    Sim (.ident word) more (N.expr >>= fun e => expectKeyword platform keyword >>= fun _ => f e)
      (N.expr >>= fun e => expectKeyword platform keyword >>= fun _ => f e) :=
  tends.expr.close (fun e => (sim_expectKeyword keyword).bind fun _ => hNext e)
    fun _ => (fails_expectKeyword keyword).bind _

/-- An `if` is closed by its `end`, so in front of a word it is read as it is in front of the end.
-/
theorem word_parseIf {token : Token} (hToken : token ≠ .eof) :
    SimAt (.ident word) more token (parseIf platform N) (parseIf platform N) := by
  apply SimAt.advance hToken
  refine word_keyword tends "then" fun cond => tends.expr.close (fun thenBranch => ?_) fun thenBranch =>
    Fails.ite (by nofun) (by nofun) (fails_ifEnd N)
  apply Sim.peek
  · intro t ht
    by_cases hElif : t = .ident "elif"
    · rw [if_pos hElif]
      exact SimAt.advance ht (word_keyword tends "then" fun _ => tends.expr.close
        (fun _ => word_ifEnd tends) fun _ => fails_ifEnd N)
    · rw [if_neg hElif]
      exact (word_ifEnd tends).at_
  · rw [if_neg (by nofun)]
    intro c d hc _ a c' hRun
    obtain ⟨e, hError⟩ := @fails_ifEnd platform N _ c (Or.inl hc)
    rw [hError] at hRun
    cases hRun

/-- The arguments of a call, with at least as many rounds for the longer input. The induction is on
the rounds; each one parses an argument and looks for a comma. -/
theorem word_argsLoop : ∀ m n, m ≤ n → Tends word more (argsLoop N m) (argsLoop N n) := by
  intro m
  induction m with
  | zero => exact fun n _ => (Sim.unfinished _).tends
  | succ m ih =>
      intro n hn
      obtain ⟨n, rfl⟩ : ∃ k, n = k + 1 := ⟨n - 1, by omega⟩
      refine tends.pipe.bind (fun arg => ?_) fun arg =>
        Stays.ite (by nofun) (by nofun) (Stays.pure _)
      exact Tends.ite_advance (by nofun) ((ih n (by omega)).bind (fun _ => (Sim.pure _).tends)
        fun _ => Stays.pure _) (Sim.pure _).tends (Stays.pure _)

/-- No argument is parsed from the end alone, whatever the number of rounds. -/
theorem needs_word_argsLoop : ∀ k, NeedsToken (argsLoop N k)
  | 0 => needs_unfinished
  | _ + 1 => tends.pipeEnd.bind _

/-- The list of arguments is bounded by the tokens that are left, of which there are more in front
of a word. -/
theorem word_parseArgs : Tends word more (parseArgs N) (parseArgs N) := by
  intro c d extends_ a c' hRun
  obtain ⟨tokens, hTokens, hc, hd⟩ := extends_
  have extends_ : Extends (.ident word) more c d := ⟨tokens, hTokens, hc, hd⟩
  cases tokens with
  | nil =>
      obtain ⟨e, hError⟩ := needs_remaining (needs_word_argsLoop tends) c hc
      rw [parseArgs, peek_apply _ hc, if_neg (by nofun), hError] at hRun
      cases hRun
  | cons t tokens =>
      rw [parseArgs, peek_apply _ hc] at hRun
      rw [parseArgs, peek_apply _ hd]
      by_cases hClose : t = .rParen
      · rw [if_pos hClose] at hRun ⊢
        exact (Sim.pure _).tends c d extends_ a c' hRun
      · rw [if_neg hClose] at hRun ⊢
        exact Tends.remaining (fun m n hn => word_argsLoop tends m n hn) c d extends_ a c' hRun

/-- The elements of an array, in the same way as the arguments of a call. -/
theorem word_arrayLoop : ∀ m n, m ≤ n → Tends word more (arrayLoop N m) (arrayLoop N n) := by
  intro m
  induction m with
  | zero => exact fun n _ => (Sim.unfinished _).tends
  | succ m ih =>
      intro n hn
      obtain ⟨n, rfl⟩ : ∃ k, n = k + 1 := ⟨n - 1, by omega⟩
      refine tends.pipe.bind (fun e => ?_) fun e => Stays.ite (by nofun) (by nofun) (Stays.pure _)
      exact Tends.ite_advance (by nofun) ((ih n (by omega)).bind (fun _ => (Sim.pure _).tends)
        fun _ => Stays.pure _) (Sim.pure _).tends (Stays.pure _)

/-- No element of an array is parsed from the end alone. -/
theorem needs_word_arrayLoop : ∀ k, NeedsToken (arrayLoop N k)
  | 0 => needs_unfinished
  | _ + 1 => tends.pipeEnd.bind _

/-- An array is closed by its bracket, and its elements are read alike. -/
theorem word_parseArray : Sim (.ident word) more (parseArray platform N) (parseArray platform N) := by
  refine (sim_expect (by nofun) _).bind fun _ => ?_
  apply Sim.peek
  · intro t ht
    by_cases hClose : t = .rBracket
    · rw [if_pos hClose]
      exact SimAt.advance ht (Sim.pure _)
    · rw [if_neg hClose]
      refine Sim.at_ (Sim.remaining fun m n hn => (word_arrayLoop tends m n hn).close (fun _ => ?_)
        fun _ => (fails_expect (by nofun) (by nofun) _).bind _)
      exact (sim_expect (by nofun) _).bind fun _ => Sim.pure _
  · rw [if_neg (by nofun)]
    exact (needs_remaining fun k => (needs_word_arrayLoop tends k).bind _).end_

/-- A key is an identifier, a string, or an expression in parentheses, each of which ends with a
token of its own. -/
theorem word_parseObjectKey :
    Sim (.ident word) more (parseObjectKey platform N) (parseObjectKey platform N) := by
  apply Sim.peek
  · intro t ht
    cases t with
    | ident name => exact SimAt.advance ht (Sim.pure _)
    | str s => exact SimAt.advance ht (Sim.pure _)
    | var name => exact SimAt.advance ht (Sim.pure _)
    | lParen =>
        refine SimAt.advance ht (tends.pipe.close (fun _ => ?_)
          fun _ => (fails_expect (by nofun) (by nofun) _).bind _)
        exact (sim_expect (by nofun) _).bind fun _ => Sim.pure _
    | _ => exact (Sim.fail _ _).at_
  · have hNeeds : NeedsToken (parseObjectKey platform N) := needs_parseObjectKey
    intro c d hc _ a c' hRun
    obtain ⟨e, hError⟩ := hNeeds c hc
    rw [parseObjectKey, peek_apply _ hc] at hError
    rw [hError] at hRun
    cases hRun

/-- The entries of an object: a key, and then a colon with its value or nothing. The induction is on
the rounds. -/
theorem word_objectLoop : ∀ m n, m ≤ n →
    Tends word more (objectLoop platform N m) (objectLoop platform N n) := by
  intro m
  induction m with
  | zero => exact fun n _ => (Sim.unfinished _).tends
  | succ m ih =>
      intro n hn
      obtain ⟨n, rfl⟩ : ∃ k, n = k + 1 := ⟨n - 1, by omega⟩
      refine (word_parseObjectKey tends).bind_tends fun key => (sim_expect (by nofun) _).bind_tends
        fun _ => tends.pipe.bind (fun value => ?_) fun value =>
          Stays.ite (by nofun) (by nofun) (Stays.pure _)
      exact Tends.ite_advance (by nofun) ((ih n (by omega)).bind (fun _ => (Sim.pure _).tends)
        fun _ => Stays.pure _) (Sim.pure _).tends (Stays.pure _)

/-- An object is closed by its brace, and its entries are read alike. -/
theorem word_parseObject : Sim (.ident word) more (parseObject platform N) (parseObject platform N) := by
  refine (sim_expect (by nofun) _).bind fun _ => ?_
  apply Sim.peek
  · intro t ht
    by_cases hClose : t = .rBrace
    · rw [if_pos hClose]
      exact SimAt.advance ht (Sim.pure _)
    · rw [if_neg hClose]
      refine Sim.at_ (Sim.remaining fun m n hn => (word_objectLoop tends m n hn).close (fun _ => ?_)
        fun _ => (fails_expect (by nofun) (by nofun) _).bind _)
      exact (sim_expect (by nofun) _).bind fun _ => Sim.pure _
  · rw [if_neg (by nofun)]
    exact (needs_remaining fun k => (needs_objectLoop k).bind _).end_

omit tends in
/-- The parts of a string with interpolations. Each interpolation is closed by its own token, so no
part looks at the tail. -/
theorem word_stringParts : ∀ m n, m ≤ n →
    Sim (.ident word) more (stringParts N m) (stringParts N n) := by
  intro m
  induction m with
  | zero => exact fun n _ => Sim.unfinished _
  | succ m ih =>
      intro n hn
      obtain ⟨n, rfl⟩ : ∃ k, n = k + 1 := ⟨n - 1, by omega⟩
      have hRest := ih n (by omega)
      apply Sim.peek
      · intro t ht
        cases t with
        | str s => exact SimAt.advance ht (hRest.bind fun _ => Sim.pure _)
        | interp source =>
            exact SimAt.advance ht ((Sim.lift fun _ h => h).bind fun inner =>
              hRest.bind fun _ => Sim.pure _)
        | _ => exact (Sim.pure _).at_
      · exact (Sim.pure _).end_

omit tends in
/-- The parts are bounded by the tokens that are left, of which there are more in front of a word.
-/
theorem word_parseStringParts :
    Sim (.ident word) more (parseStringParts N) (parseStringParts N) :=
  Sim.remaining fun m n hn => (word_stringParts m n hn).bind fun _ => Sim.pure _

/-- What an identifier starts: a literal, an `if`, or a call with or without arguments. A call
without them depends on the one token after its name, which is given. -/
theorem word_parseIdentPrimary {token : Token} (hToken : token ≠ .eof) (ident : String) :
    SimAt (.ident word) more token (parseIdentPrimary platform N ident)
      (parseIdentPrimary platform N ident) := by
  have hLiteral : ∀ e : Expr, SimAt (.ident word) more token (advance >>= fun _ => pure e)
      (advance >>= fun _ => pure e) := fun e => SimAt.advance hToken (Sim.pure e)
  rw [parseIdentPrimary]
  by_cases hTrue : ident = "true"
  · rw [if_pos hTrue]
    exact hLiteral _
  · rw [if_neg hTrue]
    by_cases hFalse : ident = "false"
    · rw [if_pos hFalse]
      exact hLiteral _
    · rw [if_neg hFalse]
      by_cases hNull : ident = "null"
      · rw [if_pos hNull]
        exact hLiteral _
      · rw [if_neg hNull]
        by_cases hIf : ident = "if"
        · rw [if_pos hIf]
          exact word_parseIf tends hToken
        · rw [if_neg hIf]
          apply SimAt.peek2 hToken
          · intro t ht
            by_cases hOpen : t = .lParen
            · subst hOpen
              refine SimAt₂.advance hToken ht (SimAt.advance ht
                ((word_parseArgs tends).close (fun _ => ?_)
                  fun _ => (fails_expect (by decide) (by decide) _).bind _))
              exact (sim_expect (by decide) _).bind fun _ => Sim.pure _
            · rw [if_neg hOpen]
              exact (hLiteral _).at_
          · rw [if_neg (by rintro ⟨⟩), if_neg (by rintro ⟨⟩)]
            exact (hLiteral _).last hToken

end Brackets

section Outcomes

variable (word : String)

/-- In front of the word the result is the same, and so are the tokens that are left before it,
whatever comes after. A parser may depend on the tokens after the word, which bound its rounds. -/
def Keeps {α : Type} (tokens : List Token) (Q : List Token → Parser α) (a : α) (c' : Cursor) : Prop :=
  ∃ left, NoEof left ∧ c'.rest = left ++ [.eof] ∧ ∀ pos more, ∃ pos',
    Q more ⟨pos, tokens ++ .ident word :: more⟩ = .ok (a, ⟨pos', left ++ .ident word :: more⟩)

/-- The word is taken, and what comes of it is larger. -/
structure Grows {α : Type} [SizeOf α] (tokens : List Token) (Q : List Token → Parser α) (a : α) :
    Prop where
  larger : ∀ pos more, more ≠ [] → ∀ a' d',
    Q more ⟨pos, tokens ++ .ident word :: more⟩ = .ok (a', d') → sizeOf a < sizeOf a'
  /-- It is accepted when nothing follows the word. -/
  accepts : ∀ pos, ∃ a' pos', Q [.eof] ⟨pos, tokens ++ [.ident word, .eof]⟩ = .ok (a', ⟨pos', [.eof]⟩)

/-- What comes of tokens in front of the word, where a result is known in front of the end. -/
inductive Outcome {α : Type} [SizeOf α] (tokens : List Token) (Q : List Token → Parser α) (a : α)
    (c' : Cursor) : Prop where
  | keeps (keeps : Keeps word tokens Q a c')
  /-- A dot is left, after which nothing is accepted. -/
  | dangles (hDot : c'.rest = [.dot, .eof])
  | grows (hEnd : c'.rest = [.eof]) (grows : Grows word tokens Q a)

def SplitsOn {α : Type} [SizeOf α] (tokens : List Token) (P : Parser α) (Q : List Token → Parser α) :
    Prop :=
  ∀ pos a c', P ⟨pos, tokens ++ [.eof]⟩ = .ok (a, c') → Outcome word tokens Q a c'

/-- The same of a parser that never looks past what it takes. -/
def KeepsOn {α : Type} (tokens : List Token) (P : Parser α) (Q : List Token → Parser α) : Prop :=
  ∀ pos a c', P ⟨pos, tokens ++ [.eof]⟩ = .ok (a, c') → Keeps word tokens Q a c'

def Splits {α : Type} [SizeOf α] (P : Parser α) : Prop :=
  ∀ tokens, NoEof tokens → SplitsOn word tokens P fun _ => P

/-- What follows a parser that has taken the word: at the end it adds nothing, and elsewhere
what it makes of something larger is larger. -/
structure Carries {β : Type} [SizeOf β] (F : Parser β) (G : List Token → Parser β) : Prop where
  ends : ∀ c, c.rest = [.eof] → ∀ b c', F c = .ok (b, c') → c'.rest = [.eof]
  larger : ∀ c, c.rest = [.eof] → ∀ b c', F c = .ok (b, c') → ∀ more d b' d',
    G more d = .ok (b', d') → sizeOf b < sizeOf b'
  accepts : ∀ pos, ∃ b' pos', G [.eof] ⟨pos, [.eof]⟩ = .ok (b', ⟨pos', [.eof]⟩)

variable {word} {α β : Type} [SizeOf α] [SizeOf β] {tokens rest : List Token} {t : Token}
  {P P' : Parser α} {Q Q' : List Token → Parser α}

/-- A parser that consumes the same tokens on both sides, and goes on as another does, splits where
that other one does. -/
theorem SplitsOn.step (splits : SplitsOn word rest P' Q') (k : Nat)
    (hP : ∀ pos, P ⟨pos, tokens ++ [.eof]⟩ = P' ⟨pos + k, rest ++ [.eof]⟩)
    (hQ : ∀ pos more, Q more ⟨pos, tokens ++ .ident word :: more⟩ =
      Q' more ⟨pos + k, rest ++ .ident word :: more⟩) : SplitsOn word tokens P Q := by
  intro pos a c' hRun
  rw [hP] at hRun
  cases splits _ a c' hRun with
  | keeps keeps =>
      obtain ⟨left, hLeft, hRest, hKeeps⟩ := keeps
      refine .keeps ⟨left, hLeft, hRest, fun pos more => ?_⟩
      rw [hQ]
      exact hKeeps _ more
  | dangles hDot => exact .dangles hDot
  | grows hEnd grows =>
      refine .grows hEnd ⟨fun pos more hMore a' d' hRun => ?_, fun pos => ?_⟩
      · rw [hQ] at hRun
        exact grows.larger _ more hMore a' d' hRun
      · rw [hQ]
        exact grows.accepts _

/-- What never succeeds in front of the end has nothing to keep. -/
theorem SplitsOn.of_fail (hFail : ∀ pos, ∃ e, P ⟨pos, tokens ++ [.eof]⟩ = .error e) :
    SplitsOn word tokens P Q := by
  intro pos a c' hRun
  obtain ⟨e, hError⟩ := hFail pos
  rw [hError] at hRun
  cases hRun

/-- A parser that never looks past what it takes has the first of the three outcomes. -/
theorem KeepsOn.splits (keeps : KeepsOn word tokens P Q) : SplitsOn word tokens P Q :=
  fun pos a c' hRun => .keeps (keeps pos a c' hRun)

omit [SizeOf α] in
/-- Nothing is consumed, so all of the tokens are left before the word. -/
theorem KeepsOn.pure (hTokens : NoEof tokens) (a : α) :
    KeepsOn word tokens (Pure.pure a) fun _ => Pure.pure a := by
  intro pos b c' hRun
  cases hRun
  exact ⟨tokens, hTokens, rfl, fun pos more => ⟨pos, rfl⟩⟩

omit [SizeOf α] in
/-- A parser that runs alike from a given token on, whatever the tail, keeps its result in front of
the word. -/
theorem KeepsOn.of_simAt (hTokens : NoEof (t :: tokens))
    (sim : ∀ more, SimAt (.ident word) more t P P) : KeepsOn word (t :: tokens) P fun _ => P := by
  intro pos a c' hRun
  obtain ⟨_, _, left, hLeft, hRest, _⟩ := sim [] _ ⟨pos, t :: tokens ++ [.ident word]⟩
    ⟨t :: tokens, hTokens, rfl, rfl⟩ ⟨_, rfl⟩ a c' hRun
  refine ⟨left, hLeft, hRest, fun pos more => ?_⟩
  obtain ⟨d', hRun', left', _, hRest', hMore⟩ := sim more _ ⟨pos, t :: tokens ++ .ident word :: more⟩
    ⟨t :: tokens, hTokens, rfl, rfl⟩ ⟨_, rfl⟩ a c' hRun
  have hSame : left' = left := List.append_cancel_right (hRest'.symm.trans hRest)
  rw [hSame] at hMore
  refine ⟨d'.pos, hRun'.trans ?_⟩
  rw [← hMore]

omit [SizeOf α] in
/-- What follows a parser whose result is the same in front of the word: the next parser decides
what becomes of the word, on the tokens that are left. -/
theorem Keeps.outcome {f : α → Parser β} {g : List Token → α → Parser β} {a : α} {b : β}
    {middle c' : Cursor} (keeps : Keeps word tokens Q a middle)
    (hNext : ∀ left, NoEof left → SplitsOn word left (f a) fun more => g more a)
    (hRun : f a middle = .ok (b, c')) :
    Outcome word tokens (fun more => Q more >>= g more) b c' := by
  obtain ⟨left, hLeft, hRest, hKeeps⟩ := keeps
  have hMiddle : middle = ⟨middle.pos, left ++ [.eof]⟩ := by rw [← hRest]
  rw [hMiddle] at hRun
  have hBind (pos : Nat) (more : List Token) : ∃ pos',
      (Q more >>= g more) ⟨pos, tokens ++ .ident word :: more⟩ =
        g more a ⟨pos', left ++ .ident word :: more⟩ := by
    obtain ⟨pos', hKept⟩ := hKeeps pos more
    exact ⟨pos', by rw [bind_apply, hKept]; rfl⟩
  cases hNext left hLeft _ b c' hRun with
  | keeps keeps =>
      obtain ⟨last, hLast, hRest, hKeeps⟩ := keeps
      refine .keeps ⟨last, hLast, hRest, fun pos more => ?_⟩
      obtain ⟨pos', hGoes⟩ := hBind pos more
      obtain ⟨last', hKept⟩ := hKeeps pos' more
      exact ⟨last', hGoes.trans hKept⟩
  | dangles hDot => exact .dangles hDot
  | grows hEnd grows =>
      refine .grows hEnd ⟨fun pos more hMore b' d' hRun => ?_, fun pos => ?_⟩
      · obtain ⟨pos', hGoes⟩ := hBind pos more
        exact grows.larger pos' more hMore b' d' (hGoes.symm.trans hRun)
      · obtain ⟨pos', hGoes⟩ := hBind pos [.eof]
        obtain ⟨b', last, hTaken⟩ := grows.accepts pos'
        exact ⟨b', last, hGoes.trans hTaken⟩

omit [SizeOf α] in
/-- After a result that is the same, it is the next parser that decides about the word. -/
theorem KeepsOn.bind {f : α → Parser β} {g : List Token → α → Parser β}
    (first : KeepsOn word tokens P Q)
    (hNext : ∀ a left, NoEof left → SplitsOn word left (f a) fun more => g more a) :
    SplitsOn word tokens (P >>= f) fun more => Q more >>= g more := by
  intro pos b c' hRun
  obtain ⟨a, middle, hFirst, hRun⟩ := run_bind hRun
  exact (first pos a middle hFirst).outcome (hNext a) hRun

/-- Two parsers after one another, where the first may have taken the word. Then the second one adds
nothing in front of the end, and in front of the word it carries on with something larger. -/
theorem SplitsOn.bind {f : α → Parser β} {g : List Token → α → Parser β}
    (first : SplitsOn word tokens P Q)
    (hNext : ∀ a left, NoEof left → SplitsOn word left (f a) fun more => g more a)
    (hDot : ∀ a c, c.rest = [.dot, .eof] → ∀ b c', f a c = .ok (b, c') → c'.rest = [.dot, .eof])
    (carries : ∀ a a', sizeOf a < sizeOf a' → Carries (f a) fun more => g more a') :
    SplitsOn word tokens (P >>= f) fun more => Q more >>= g more := by
  intro pos b c' hRun
  obtain ⟨a, middle, hFirst, hRun⟩ := run_bind hRun
  cases first pos a middle hFirst with
  | keeps keeps => exact keeps.outcome (hNext a) hRun
  | dangles hRest => exact .dangles (hDot a middle hRest b c' hRun)
  | grows hEnd grows =>
      obtain ⟨a', _, hTaken⟩ := grows.accepts pos
      have hEnds : c'.rest = [.eof] :=
        (carries a a' (grows.larger pos [.eof] (by simp) a' _ hTaken)).ends middle hEnd b c' hRun
      refine .grows hEnds ⟨fun pos more hMore b' d' hRun' => ?_, fun pos => ?_⟩
      · obtain ⟨a', middle', hTaken, hRun'⟩ := run_bind hRun'
        have hSize := grows.larger pos more hMore a' middle' hTaken
        exact (carries a a' hSize).larger middle hEnd b c' hRun more middle' b' d' hRun'
      · obtain ⟨a', pos', hTaken⟩ := grows.accepts pos
        have hSize := grows.larger pos [.eof] (by simp) a' _ hTaken
        obtain ⟨b', pos'', hRun'⟩ := (carries a a' hSize).accepts pos'
        refine ⟨b', pos'', Eq.trans ?_ hRun'⟩
        show (Q [.eof] >>= g [.eof]) _ = _
        rw [bind_apply, hTaken]
        rfl

omit [SizeOf α] in
/-- A value that is built of the larger result is larger, and nothing is consumed for it. -/
theorem Carries.pure {b b' : β} (hSize : sizeOf b < sizeOf b') :
    Carries (Pure.pure b) fun _ => Pure.pure b' where
  ends c hEnd a c' hRun := by
    cases hRun
    exact hEnd
  larger c hEnd a c' hRun more d a' d' hRun' := by
    cases hRun
    cases hRun'
    exact hSize
  accepts pos := ⟨b', pos, rfl⟩

omit [SizeOf α] in
/-- A parser that has one result at the end, and consumes nothing. -/
theorem Carries.of_done {F : Parser β} {G : List Token → Parser β} {b : β}
    (hDone : ∀ c, c.rest = [.eof] → ∀ b' c', F c = .ok (b', c') → b' = b ∧ c' = c)
    (hLarger : ∀ more d b' d', G more d = .ok (b', d') → sizeOf b < sizeOf b')
    (hAccepts : ∀ pos, ∃ b' pos', G [.eof] ⟨pos, [.eof]⟩ = .ok (b', ⟨pos', [.eof]⟩)) :
    Carries F G where
  ends c hEnd b' c' hRun := by
    rw [(hDone c hEnd b' c' hRun).2]
    exact hEnd
  larger c hEnd b' c' hRun more d b'' d' hRun' := by
    rw [(hDone c hEnd b' c' hRun).1]
    exact hLarger more d b'' d' hRun'
  accepts := hAccepts

/-- A loop that adds something to an expression, and nothing where there is none to add. -/
structure Adds (loop : Nat → Expr → Parser Expr) : Prop where
  zero : ∀ e c, ∃ err, loop 0 e c = .error err
  done : ∀ k e c, c.rest = [.eof] ∨ c.rest = [.dot, .eof] → loop (k + 1) e c = .ok (e, c)
  grows : ∀ k e c e' c', loop k e c = .ok (e', c') → sizeOf e ≤ sizeOf e'

/-- A loop that finds the end, or a dot in front of it, returns the expression it was given and
stays where it is. -/
theorem Adds.result {loop : Nat → Expr → Parser Expr} (adds : Adds loop) {k : Nat} {e b : Expr}
    {c c' : Cursor} (slack : c.rest = [.eof] ∨ c.rest = [.dot, .eof])
    (hRun : loop k e c = .ok (b, c')) : b = e ∧ c' = c := by
  cases k with
  | zero =>
      obtain ⟨err, hError⟩ := adds.zero e c
      rw [hError] at hRun
      cases hRun
  | succ k =>
      rw [adds.done k e c slack] at hRun
      cases hRun
      exact ⟨rfl, rfl⟩

/-- So such a loop carries on from a larger expression: it can only add to it. -/
theorem Adds.carries {loop : Nat → Expr → Parser Expr} (adds : Adds loop) {e e' : Expr}
    (hSize : sizeOf e < sizeOf e') {m : Nat} {n : List Token → Nat} (hFuel : 0 < n [.eof]) :
    Carries (loop m e) fun more => loop (n more) e' := by
  refine Carries.of_done (fun _ hEnd _ _ hRun => adds.result (Or.inl hEnd) hRun)
    (fun _ _ _ _ hRun => Nat.lt_of_lt_of_le hSize (adds.grows _ _ _ _ _ hRun)) fun pos => ?_
  obtain ⟨k, hk⟩ : ∃ k, n [.eof] = k + 1 := ⟨n [.eof] - 1, by omega⟩
  exact ⟨e', pos, by rw [hk]; exact adds.done k e' _ (Or.inl rfl)⟩

/-- It does not take a dot that nothing follows. -/
theorem Adds.dot {loop : Nat → Expr → Parser Expr} (adds : Adds loop) {k : Nat} {e b : Expr}
    {c c' : Cursor} (hDot : c.rest = [.dot, .eof]) (hRun : loop k e c = .ok (b, c')) :
    c'.rest = [.dot, .eof] := by
  rw [(adds.result (Or.inr hDot) hRun).2]
  exact hDot

/-- The rounds of the loop are bounded by the tokens that are left. -/
theorem Adds.carries_remaining {loop : Nat → Expr → Parser Expr} (adds : Adds loop) {e e' : Expr}
    (hSize : sizeOf e < sizeOf e') :
    Carries (remaining >>= fun m => loop m e) fun _ => remaining >>= fun n => loop n e' :=
  Carries.of_done (fun _ hEnd _ _ hRun => adds.result (Or.inl hEnd) hRun)
    (fun _ _ _ _ hRun => Nat.lt_of_lt_of_le hSize (adds.grows _ _ _ _ _ hRun))
    fun pos => ⟨e', pos, adds.done 0 e' _ (Or.inl rfl)⟩

end Outcomes

/-- The loop over suffixes only ever wraps the expression, one suffix a step, so its size does not
shrink. -/
theorem Goes.size_le {b e : Expr} {c c' : Cursor} (goes : Goes b c e c') : sizeOf b ≤ sizeOf e := by
  rcases goes with ⟨rfl, _⟩ | wraps
  · exact Nat.le_refl _
  · exact Nat.le_of_lt (sizeOf_lt_of_wraps wraps)

section Paths

variable {platform : Platform} {word : String} {N : Nested}

/-- There is a round left for the end. -/
theorem fuel_end {m : Nat} {k : List Token → Nat} (hk : ∀ more, m + more.length ≤ k more) :
    0 < k [.eof] := by
  have hEof := hk [.eof]
  rw [List.length_singleton] at hEof
  omega

/-- The rounds that are left after one. -/
theorem fuel_succ {m : Nat} {n : List Token → Nat} (hn : ∀ more, m + 1 + more.length ≤ n more) :
    ∃ k : List Token → Nat, n = (fun more => k more + 1) ∧ ∀ more, m + more.length ≤ k more := by
  refine ⟨fun more => n more - 1, funext fun more => ?_, fun more => ?_⟩
  · have hMore := hn more
    show n more = n more - 1 + 1
    omega
  · have hMore := hn more
    show m + more.length ≤ n more - 1
    omega

/-- The loop over the suffixes of a path adds to its base, and nothing at the end of the input. -/
theorem adds_postfixLoop : Adds (postfixLoop platform N) where
  zero e c := ⟨_, rfl⟩
  done k e c slack := by
    rcases slack with hRest | hRest
    · rw [postfixLoop, peek_apply _ hRest]
      rfl
    · rw [postfixLoop, peek_apply _ hRest]
      show (Jq.peek2 >>= fun u => _) c = _
      rw [peek2_apply _ hRest]
      rfl
  grows k e c e' c' hRun := (postfixLoop_goes k e c hRun).size_le

variable (tends : ∀ more, NestedTends word more N)
include tends

/-- The loop over the first names takes the word for one of them. -/
theorem splits_dotChain : ∀ (m : Nat) (n : List Token → Nat), (∀ more, m + more.length ≤ n more) →
    ∀ base tokens, NoEof tokens → SplitsOn word tokens (dotChain platform N m base)
      fun more => dotChain platform N (n more) base := by
  intro m
  induction m with
  | zero => exact fun _ _ _ _ _ => SplitsOn.of_fail fun _ => ⟨_, rfl⟩
  | succ m ih =>
      intro n hn base tokens hTokens
      obtain ⟨k, rfl, hk⟩ := fuel_succ hn
      cases tokens with
      | nil =>
          intro pos a c' hRun
          cases hRun
          have hTake (pos : Nat) (u : Token) (more : List Token) :
              dotChain platform N (k (u :: more) + 1) base ⟨pos, .ident word :: u :: more⟩ =
                dotChain platform N (k (u :: more)) (.field base word) ⟨pos + 1, u :: more⟩ := rfl
          have hField : sizeOf base < sizeOf (Expr.field base word) := (Wraps.field base word).sizeOf_lt
          refine .grows rfl ⟨fun pos more hMore a' d' hRun => ?_, fun pos => ?_⟩
          · obtain ⟨u, more, rfl⟩ := List.exists_cons_of_ne_nil hMore
            have hRun : dotChain platform N (k (u :: more)) (.field base word) ⟨pos + 1, u :: more⟩ =
              .ok (a', d') := (hTake pos u more).symm.trans hRun
            exact Nat.lt_of_lt_of_le hField (dotChain_goes _ _ _ hRun).size_le
          · have hEnd : 0 < k [.eof] := fuel_end hk
            obtain ⟨j, hj⟩ : ∃ j, k [.eof] = j + 1 := ⟨k [.eof] - 1, by omega⟩
            refine ⟨.field base word, pos + 1, (hTake pos .eof []).trans ?_⟩
            rw [hj]
            rfl
      | cons t tokens =>
          have ht : t ≠ .eof := hTokens t List.mem_cons_self
          have hTail : NoEof tokens := fun u hu => hTokens u (List.mem_cons_of_mem _ hu)
          cases hName : fieldName? t with
          | some name =>
              have hTake (k pos : Nat) (last : Token) (more : List Token) :
                  dotChain platform N (k + 1) base ⟨pos, t :: tokens ++ last :: more⟩ =
                    dotChain platform N k (.field base name) ⟨pos + 1, tokens ++ last :: more⟩ := by
                rw [dotChain, peek_apply _ rfl, hName]
                cases tokens <;> rfl
              exact (ih k hk (.field base name) tokens hTail).step 1 (fun pos => hTake m pos _ _)
                fun pos more => hTake (k more) pos _ _
          | none =>
              by_cases hOpen : t = .lBracket
              · subst hOpen
                have hBracket : KeepsOn word (.lBracket :: tokens) (parseBracket platform N base)
                    fun _ => parseBracket platform N base :=
                  KeepsOn.of_simAt hTokens fun more => word_parseBracket (tends more) base
                have hNext := hBracket.bind fun next left hLeft => ih k hk next left hLeft
                exact hNext.step 0 (fun _ => rfl) (fun _ _ => rfl)
              · have hDone (k pos : Nat) (list : List Token) :
                    dotChain platform N (k + 1) base ⟨pos, t :: list⟩ = .ok (base, ⟨pos, t :: list⟩) := by
                  rw [dotChain, peek_apply _ rfl, hName]
                  show (if t = .lBracket then _ else pure base : Parser Expr) _ = _
                  rw [if_neg hOpen]
                  rfl
                exact (KeepsOn.pure hTokens base).splits.step 0 (fun pos => hDone m pos _)
                  fun pos more => hDone (k more) pos _

/-- The suffixes of a path, in front of a word. The induction is on the rounds; a dot is followed by
a name, a string or a bracket, and only the name may be the word. -/
theorem splits_postfixLoop : ∀ (m : Nat) (n : List Token → Nat), (∀ more, m + more.length ≤ n more) →
    ∀ base tokens, NoEof tokens → SplitsOn word tokens (postfixLoop platform N m base)
      fun more => postfixLoop platform N (n more) base := by
  intro m
  induction m with
  | zero => exact fun _ _ _ _ _ => SplitsOn.of_fail fun _ => ⟨_, rfl⟩
  | succ m ih =>
      intro n hn base tokens hTokens
      obtain ⟨k, rfl, hk⟩ := fuel_succ hn
      have hPure : SplitsOn word tokens (pure base) fun _ => pure base :=
        (KeepsOn.pure hTokens base).splits
      cases tokens with
      | nil => exact hPure.step 0 (fun _ => rfl) (fun _ _ => rfl)
      | cons t tokens =>
          cases t with
          | lBracket =>
              have hBracket : KeepsOn word (.lBracket :: tokens) (parseBracket platform N base)
                  fun _ => parseBracket platform N base :=
                KeepsOn.of_simAt hTokens fun more => word_parseBracket (tends more) base
              have hNext := hBracket.bind fun next left hLeft => ih k hk next left hLeft
              exact hNext.step 0 (fun _ => rfl) (fun _ _ => rfl)
          | dot =>
              cases tokens with
              | nil =>
                  intro pos a c' hRun
                  cases hRun
                  exact .dangles rfl
              | cons u tokens =>
                  have hTail : NoEof tokens := fun v hv =>
                    hTokens v (List.mem_cons_of_mem _ (List.mem_cons_of_mem _ hv))
                  cases hName : fieldName? u with
                  | none =>
                      have hLook (k pos : Nat) (list : List Token) :
                          postfixLoop platform N (k + 1) base ⟨pos, .dot :: u :: list⟩ =
                            .ok (base, ⟨pos, .dot :: u :: list⟩) := by
                        rw [postfixLoop, peek_apply _ rfl]
                        dsimp only
                        rw [peek2_apply _ rfl, hName]
                        rfl
                      exact hPure.step 0 (fun pos => hLook m pos _)
                        fun pos more => hLook (k more) pos _
                  | some name =>
                      have hTake (k pos : Nat) (last : Token) (more : List Token) :
                          postfixLoop platform N (k + 1) base ⟨pos, .dot :: u :: tokens ++ last :: more⟩ =
                            postfixLoop platform N k (.field base name)
                              ⟨pos + 2, tokens ++ last :: more⟩ := by
                        rw [List.cons_append, List.cons_append, postfixLoop, peek_apply _ rfl]
                        dsimp only
                        rw [peek2_apply _ rfl, hName]
                        cases tokens <;> rfl
                      exact (ih k hk (.field base name) tokens hTail).step 2
                        (fun pos => hTake m pos _ _) fun pos more => hTake (k more) pos _ _
          | _ => exact hPure.step 0 (fun _ => rfl) (fun _ _ => rfl)

omit tends in
/-- The rounds of a loop are bounded by the tokens that are left. -/
theorem splits_remaining {α : Type} [SizeOf α] {loop : Nat → Parser α} {tokens : List Token}
    (splits : ∀ (m : Nat) (n : List Token → Nat), (∀ more, m + more.length ≤ n more) →
      SplitsOn word tokens (loop m) fun more => loop (n more)) :
    SplitsOn word tokens (remaining >>= loop) fun _ => remaining >>= loop := by
  have hFuel (more : List Token) :
      (tokens ++ [Token.eof]).length + more.length ≤ (tokens ++ .ident word :: more).length := by
    simp only [List.length_append, List.length_cons, List.length_nil]
    omega
  exact (splits _ (fun more => (tokens ++ .ident word :: more).length) hFuel).step 0
    (fun _ => rfl) fun _ _ => rfl

/-- The base of a path: either the identity or the first names after a dot, one of which may be the
word, or a primary that keeps its tokens. -/
theorem splits_parseBase : Splits word (parseBase platform N) := by
  intro tokens hTokens
  cases tokens with
  | nil => exact SplitsOn.of_fail fun pos => needs_parseBase ⟨pos, [.eof]⟩ rfl
  | cons t tokens =>
      have ht : t ≠ .eof := hTokens t List.mem_cons_self
      have hTail : NoEof tokens := fun u hu => hTokens u (List.mem_cons_of_mem _ hu)
      have hOne (e : Expr) : SplitsOn word (t :: tokens) (advance >>= fun _ => pure e)
          fun _ => advance >>= fun _ => pure e :=
        (KeepsOn.of_simAt hTokens fun more => SimAt.advance ht (Sim.pure e)).splits
      cases t with
      | dot =>
          have hChain : SplitsOn word tokens (remaining >>= fun m => dotChain platform N m .identity)
              fun _ => remaining >>= fun m => dotChain platform N m .identity :=
            splits_remaining fun m n hn => splits_dotChain tends m n hn .identity tokens hTail
          have hTake (pos : Nat) (last : Token) (more : List Token) :
              parseBase platform N ⟨pos, .dot :: tokens ++ last :: more⟩ =
                (remaining >>= fun m => dotChain platform N m .identity)
                  ⟨pos + 1, tokens ++ last :: more⟩ := by
            cases tokens <;> rfl
          exact hChain.step 1 (fun pos => hTake pos _ _) fun pos more => hTake pos _ _
      | recursiveDot => exact (hOne .identity).step 0 (fun _ => rfl) fun _ _ => rfl
      | var name => exact (hOne (.var name)).step 0 (fun _ => rfl) fun _ _ => rfl
      | number n => exact (hOne (.literal (jsonNum n))).step 0 (fun _ => rfl) fun _ _ => rfl
      | str _ | interp _ =>
          exact (KeepsOn.of_simAt hTokens fun more =>
            SimAt.peek ht word_parseStringParts.at_).splits
      | lBracket =>
          exact (KeepsOn.of_simAt hTokens fun more =>
            SimAt.peek ht (word_parseArray (tends more)).at_).splits
      | lBrace =>
          exact (KeepsOn.of_simAt hTokens fun more =>
            SimAt.peek ht (word_parseObject (tends more)).at_).splits
      | lParen =>
          exact (KeepsOn.of_simAt hTokens fun more => SimAt.peek ht (SimAt.advance ht
            (word_closed (tends more) (by nofun) (by nofun) fun _ => Sim.pure _))).splits
      | ident name =>
          exact (KeepsOn.of_simAt hTokens fun more =>
            SimAt.peek ht (word_parseIdentPrimary (tends more) ht name)).splits
      | eof => exact absurd rfl ht
      | _ => exact SplitsOn.of_fail fun _ => ⟨_, rfl⟩

/-- A path is its base and the loop over its suffixes, which carries on from a larger base. -/
theorem splits_parsePostfix : Splits word (parsePostfix platform N) := by
  intro tokens hTokens
  refine SplitsOn.bind (splits_parseBase tends tokens hTokens) (fun base left hLeft => ?_)
    (fun base c hDot b c' hRun => ?_) fun base base' hSize => ?_
  · exact splits_remaining fun m n hn => splits_postfixLoop tends m n hn base left hLeft
  · exact adds_postfixLoop.dot hDot hRun
  · exact adds_postfixLoop.carries_remaining hSize

/-- The signs in front of a path. The induction is on the rounds, and a sign makes something larger
of a larger operand. -/
theorem splits_unaryLoop : ∀ (m : Nat) (n : List Token → Nat), (∀ more, m + more.length ≤ n more) →
    ∀ tokens, NoEof tokens → SplitsOn word tokens (unaryLoop platform N m)
      fun more => unaryLoop platform N (n more) := by
  intro m
  induction m with
  | zero => exact fun _ _ _ _ => SplitsOn.of_fail fun _ => ⟨_, rfl⟩
  | succ m ih =>
      intro n hn tokens hTokens
      obtain ⟨k, rfl, hk⟩ := fuel_succ hn
      cases tokens with
      | nil => exact SplitsOn.of_fail fun pos => needs_unaryLoop (m + 1) ⟨pos, [.eof]⟩ rfl
      | cons t tokens =>
          have hTail : NoEof tokens := fun u hu => hTokens u (List.mem_cons_of_mem _ hu)
          have hUnary (op : UnaryOp) : SplitsOn word tokens
              (unaryLoop platform N m >>= fun inner => pure (Expr.unary op inner))
              fun more => unaryLoop platform N (k more) >>= fun inner => pure (Expr.unary op inner) := by
            refine SplitsOn.bind (ih k hk tokens hTail)
              (fun inner left hLeft => (KeepsOn.pure hLeft _).splits)
              (fun inner c hDot b c' hRun => ?_) fun inner inner' hSize => Carries.pure ?_
            · cases hRun
              exact hDot
            · simp only [Expr.unary.sizeOf_spec]
              omega
          by_cases hNot : t = .ident "not"
          · subst hNot
            have hTake (k pos : Nat) (last : Token) (more : List Token) :
                unaryLoop platform N (k + 1) ⟨pos, .ident "not" :: tokens ++ last :: more⟩ =
                  (unaryLoop platform N k >>= fun inner => pure (Expr.unary .not inner))
                    ⟨pos + 1, tokens ++ last :: more⟩ := by
              rw [unaryLoop, peek_apply _ rfl, if_pos rfl]
              cases tokens <;> rfl
            exact (hUnary .not).step 1 (fun pos => hTake m pos _ _) fun pos more => hTake (k more) pos _ _
          · by_cases hMinus : t = .minus
            · subst hMinus
              have hTake (k pos : Nat) (last : Token) (more : List Token) :
                  unaryLoop platform N (k + 1) ⟨pos, .minus :: tokens ++ last :: more⟩ =
                    (unaryLoop platform N k >>= fun inner => pure (Expr.unary .negate inner))
                      ⟨pos + 1, tokens ++ last :: more⟩ := by
                rw [unaryLoop, peek_apply _ rfl, if_neg (by decide), if_pos rfl]
                cases tokens <;> rfl
              exact (hUnary .negate).step 1 (fun pos => hTake m pos _ _)
                fun pos more => hTake (k more) pos _ _
            · have hTake (k pos : Nat) (list : List Token) :
                  unaryLoop platform N (k + 1) ⟨pos, t :: list⟩ =
                    parsePostfix platform N ⟨pos, t :: list⟩ := by
                rw [unaryLoop, peek_apply _ rfl, if_neg hNot, if_neg hMinus]
              exact (splits_parsePostfix tends (t :: tokens) hTokens).step 0 (fun pos => hTake m pos _)
                fun pos more => hTake (k more) pos _

/-- The number of signs is bounded by the tokens that are left. -/
theorem splits_parseUnary : Splits word (parseUnary platform N) :=
  fun tokens hTokens => splits_remaining fun m n hn => splits_unaryLoop tends m n hn tokens hTokens

end Paths

section Levels

variable {word : String} {operand : Parser Expr} {operator : Token → Option (Expr → Expr → Expr)}

/-- An operator of a level, which neither the end nor a dot is, makes something larger of larger
operands. -/
structure Operates (operator : Token → Option (Expr → Expr → Expr)) : Prop where
  eof : operator .eof = none
  dot : operator .dot = none
  wraps : WrapsLeft operator
  grows : ∀ t build, operator t = some build → ∀ l r r', sizeOf r < sizeOf r' →
    sizeOf (build l r) < sizeOf (build l r')

/-- A chain of operators adds to its left operand, and nothing where it finds no operator of its
level. -/
theorem Operates.adds (operates : Operates operator) : Adds (chain operand operator) where
  zero e c := ⟨_, rfl⟩
  done k e c slack := by
    rcases slack with hRest | hRest
    · rw [chain, peek_apply _ hRest, operates.eof]
      rfl
    · rw [chain, peek_apply _ hRest, operates.dot]
      rfl
  grows k e c e' c' hRun := (chain_goes operates.wraps k e c hRun).size_le

/-- A chain of operators in front of a word that is none of them. The induction is on the rounds:
the operand after an operator either keeps its tokens, and the chain goes on, or takes the word, and
what the operator builds is larger. -/
theorem splits_chain (operates : Operates operator) (hWord : operator (.ident word) = none)
    (splits : Splits word operand) :
    ∀ (m : Nat) (n : List Token → Nat), (∀ more, m + more.length ≤ n more) → ∀ left tokens,
      NoEof tokens → SplitsOn word tokens (chain operand operator m left)
        fun more => chain operand operator (n more) left := by
  intro m
  induction m with
  | zero => exact fun _ _ _ _ _ => SplitsOn.of_fail fun _ => ⟨_, rfl⟩
  | succ m ih =>
      intro n hn left tokens hTokens
      obtain ⟨k, rfl, hk⟩ := fuel_succ hn
      have hPure : SplitsOn word tokens (pure left) fun _ => pure left :=
        (KeepsOn.pure hTokens left).splits
      cases tokens with
      | nil =>
          refine hPure.step 0 (fun pos => ?_) fun pos more => ?_
          · rw [chain, peek_apply _ rfl, operates.eof]
            rfl
          · rw [chain, peek_apply _ rfl, hWord]
            rfl
      | cons t tokens =>
          have hTail : NoEof tokens := fun u hu => hTokens u (List.mem_cons_of_mem _ hu)
          cases hOperator : operator t with
          | none =>
              have hDone (k pos : Nat) (list : List Token) : chain operand operator (k + 1) left
                  ⟨pos, t :: list⟩ = .ok (left, ⟨pos, t :: list⟩) := by
                rw [chain, peek_apply _ rfl, hOperator]
                rfl
              exact hPure.step 0 (fun pos => hDone m pos _) fun pos more => hDone (k more) pos _
          | some build =>
              have hTake (k pos : Nat) (last : Token) (more : List Token) :
                  chain operand operator (k + 1) left ⟨pos, t :: tokens ++ last :: more⟩ =
                    (operand >>= fun right => chain operand operator k (build left right))
                      ⟨pos + 1, tokens ++ last :: more⟩ := by
                rw [chain, peek_apply _ rfl, hOperator]
                cases tokens <;> rfl
              have hRight : SplitsOn word tokens
                  (operand >>= fun right => chain operand operator m (build left right))
                  fun more => operand >>= fun right => chain operand operator (k more) (build left right) := by
                refine SplitsOn.bind (splits tokens hTail) (fun right last hLast => ?_)
                  (fun right c hDot b c' hRun => operates.adds.dot hDot hRun) fun right right' hSize => ?_
                · exact ih k hk (build left right) last hLast
                · have hGrows := operates.grows t build hOperator left right right' hSize
                  exact operates.adds.carries hGrows (fuel_end hk)
              exact hRight.step 1 (fun pos => hTake m pos _ _) fun pos more => hTake (k more) pos _ _

/-- A level is an operand and the chain after it, so a level splits when its operand does. -/
theorem splits_level (operates : Operates operator) (hWord : operator (.ident word) = none)
    (splits : Splits word operand) : Splits word (level operand operator) := by
  intro tokens hTokens
  refine SplitsOn.bind (splits tokens hTokens) (fun left last hLast => ?_)
    (fun left c hDot b c' hRun => ?_) fun left left' hSize => ?_
  · exact splits_remaining fun m n hn => splits_chain operates hWord splits m n hn left last hLast
  · exact operates.adds.dot hDot hRun
  · exact operates.adds.carries_remaining hSize

/-- The pipe is an operator of its level, larger with a larger right side. -/
theorem operates_pipe : Operates pipeOperator where
  eof := rfl
  dot := rfl
  wraps := wrapsLeft_pipe
  grows t build hOperator l r r' hSize := by
    cases t <;> cases hOperator
    simp only [Expr.pipe.sizeOf_spec]
    omega

/-- The operators of a level that makes binary expressions. -/
theorem Operates.of_binary (hEof : operator .eof = none) (hDot : operator .dot = none)
    (hBinary : ∀ t build, operator t = some build → ∃ op, build = Expr.binary op) :
    Operates operator where
  eof := hEof
  dot := hDot
  wraps t build hOperator l r := by
    obtain ⟨op, rfl⟩ := hBinary t build hOperator
    exact .binary op l r
  grows t build hOperator l r r' hSize := by
    obtain ⟨op, rfl⟩ := hBinary t build hOperator
    simp only [Expr.binary.sizeOf_spec]
    omega

/-- `or` makes a binary expression, and is found neither at the end nor at a dot. -/
theorem operates_or : Operates orOperator := Operates.of_binary rfl rfl fun t build hOperator => by
  rw [orOperator] at hOperator
  split_ifs at hOperator
  cases hOperator
  exact ⟨_, rfl⟩

/-- So does `and`. -/
theorem operates_and : Operates andOperator := Operates.of_binary rfl rfl fun t build hOperator => by
  rw [andOperator] at hOperator
  split_ifs at hOperator
  cases hOperator
  exact ⟨_, rfl⟩

/-- So does each of the comparisons. -/
theorem operates_compare : Operates compareOperator :=
  Operates.of_binary rfl rfl fun t build hOperator => by
    cases t <;> cases hOperator <;> exact ⟨_, rfl⟩

/-- So do plus and minus. -/
theorem operates_additive : Operates additiveOperator :=
  Operates.of_binary rfl rfl fun t build hOperator => by
    cases t <;> cases hOperator <;> exact ⟨_, rfl⟩

/-- So do the operators of the multiplicative level. -/
theorem operates_mult : Operates multOperator :=
  Operates.of_binary rfl rfl fun t build hOperator => by
    cases t <;> cases hOperator <;> exact ⟨_, rfl⟩

end Levels

section Expressions

variable {platform : Platform} {word : String} {N : Nested} (hAnd : word ≠ "and") (hOr : word ≠ "or")
  (tends : ∀ more, NestedTends word more N)
include hAnd hOr tends

/-- From the unary operand up to the pipe, level by level. The word must not be `and` or `or`, the
two operators that are identifiers. -/
theorem splits_parsePipe : Splits word (parsePipe platform N) := by
  have hNoAnd : andOperator (.ident word) = none := if_neg (by simpa using hAnd)
  have hNoOr : orOperator (.ident word) = none := if_neg (by simpa using hOr)
  have hMult : Splits word (parseMult platform N) :=
    splits_level operates_mult rfl (splits_parseUnary tends)
  have hAdditive : Splits word (parseAdditive platform N) := splits_level operates_additive rfl hMult
  have hCompare : Splits word (parseCompare platform N) := splits_level operates_compare rfl hAdditive
  have hAll : Splits word (parseAnd platform N) := splits_level operates_and hNoAnd hCompare
  have hAny : Splits word (parseOr platform N) := splits_level operates_or hNoOr hAll
  exact splits_level operates_pipe rfl hAny

omit hAnd hOr tends in
/-- Where the input may end there is no comma, and the list of parts ends there. -/
theorem commaLoop_slack {k : Nat} {c : Cursor} (slack : c.Slack) :
    commaLoop platform N (k + 1) c = .ok ([], c) := by
  obtain ⟨t, rest, hRest, ht⟩ := slack.head
  have hNot : t ≠ .comma := by rcases ht with rfl | rfl <;> nofun
  rw [commaLoop, peek_apply _ hRest, if_neg hNot]
  rfl

omit hAnd hOr tends in
/-- So that is its only result there. -/
theorem commaLoop_result {k : Nat} {c c' : Cursor} {parts : List Expr} (slack : c.Slack)
    (hRun : commaLoop platform N k c = .ok (parts, c')) : parts = [] ∧ c' = c := by
  cases k with
  | zero => cases hRun
  | succ k =>
      rw [commaLoop_slack slack] at hRun
      cases hRun
      exact ⟨rfl, rfl⟩

omit hAnd hOr tends in
/-- And what is built of the parts is built of none. -/
theorem commaLoop_then {β : Type} {h : List Expr → β} {k : Nat} {c c' : Cursor} {b : β}
    (slack : c.Slack)
    (hRun : (commaLoop platform N k >>= fun parts => pure (h parts)) c = .ok (b, c')) :
    b = h [] ∧ c' = c := by
  obtain ⟨parts, middle, hParts, hDone⟩ := run_bind hRun
  obtain ⟨rfl, rfl⟩ := commaLoop_result slack hParts
  cases hDone
  exact ⟨rfl, rfl⟩

omit hAnd hOr tends in
/-- After a longer part comes a longer list of parts. -/
theorem carries_commaLoop {part part' : Expr} (hSize : sizeOf part < sizeOf part') {m : Nat}
    {n : List Token → Nat} (hFuel : 0 < n [.eof]) :
    Carries (commaLoop platform N m >>= fun rest => pure (part :: rest))
      fun more => commaLoop platform N (n more) >>= fun rest => pure (part' :: rest) := by
  refine @Carries.of_done _ _ _ _ [part]
    (fun c hEnd b c' hRun => commaLoop_then (Or.inl hEnd) hRun) (fun more d b d' hRun => ?_) fun pos => ?_
  · obtain ⟨rest, middle, _, hRun⟩ := run_bind hRun
    cases hRun
    have hRest : 1 ≤ sizeOf rest := by
      cases rest with
      | nil => exact Nat.le_refl _
      | cons part rest =>
          simp only [List.cons.sizeOf_spec]
          omega
    simp only [List.cons.sizeOf_spec, List.nil.sizeOf_spec]
    omega
  · obtain ⟨j, hj⟩ : ∃ j, n [.eof] = j + 1 := ⟨n [.eof] - 1, by omega⟩
    refine ⟨[part'], pos, ?_⟩
    rw [hj, bind_apply, commaLoop_slack (Or.inl rfl)]
    rfl

/-- The parts after the commas of an expression, in front of a word. The induction is on the rounds,
as for a chain of operators. -/
theorem splits_commaLoop : ∀ (m : Nat) (n : List Token → Nat), (∀ more, m + more.length ≤ n more) →
    ∀ tokens, NoEof tokens → SplitsOn word tokens (commaLoop platform N m)
      fun more => commaLoop platform N (n more) := by
  intro m
  induction m with
  | zero => exact fun _ _ _ _ => SplitsOn.of_fail fun _ => ⟨_, rfl⟩
  | succ m ih =>
      intro n hn tokens hTokens
      obtain ⟨k, rfl, hk⟩ := fuel_succ hn
      have hPure : SplitsOn word tokens (pure []) fun _ => (pure [] : Parser (List Expr)) :=
        (KeepsOn.pure hTokens []).splits
      cases tokens with
      | nil => exact hPure.step 0 (fun _ => rfl) fun _ _ => rfl
      | cons t tokens =>
          have hTail : NoEof tokens := fun u hu => hTokens u (List.mem_cons_of_mem _ hu)
          by_cases hComma : t = .comma
          · subst hComma
            have hTake (k pos : Nat) (last : Token) (more : List Token) :
                commaLoop platform N (k + 1) ⟨pos, .comma :: tokens ++ last :: more⟩ =
                  (parsePipe platform N >>= fun part =>
                    commaLoop platform N k >>= fun rest => pure (part :: rest))
                    ⟨pos + 1, tokens ++ last :: more⟩ := by
              rw [commaLoop, peek_apply _ rfl, if_pos rfl]
              cases tokens <;> rfl
            have hParts : SplitsOn word tokens
                (parsePipe platform N >>= fun part =>
                  commaLoop platform N m >>= fun rest => pure (part :: rest))
                fun more => parsePipe platform N >>= fun part =>
                  commaLoop platform N (k more) >>= fun rest => pure (part :: rest) := by
              refine SplitsOn.bind (splits_parsePipe hAnd hOr tends tokens hTail)
                (fun part left hLeft => ?_) (fun part c hDot b c' hRun => ?_) fun part part' hSize => ?_
              · refine SplitsOn.bind (ih k hk left hLeft)
                  (fun rest last hLast => (KeepsOn.pure hLast _).splits)
                  (fun rest c hDot b c' hRun => ?_) fun rest rest' hSize => Carries.pure ?_
                · cases hRun
                  exact hDot
                · simp only [List.cons.sizeOf_spec]
                  omega
              · rw [(commaLoop_then (Or.inr hDot) hRun).2]
                exact hDot
              · exact carries_commaLoop hSize (fuel_end hk)
            exact hParts.step 1 (fun pos => hTake m pos _ _) fun pos more => hTake (k more) pos _ _
          · have hDone (k pos : Nat) (list : List Token) :
                commaLoop platform N (k + 1) ⟨pos, t :: list⟩ = .ok ([], ⟨pos, t :: list⟩) := by
              rw [commaLoop, peek_apply _ rfl, if_neg hComma]
              rfl
            exact hPure.step 0 (fun pos => hDone m pos _) fun pos more => hDone (k more) pos _

/-- A whole expression: its first pipe and the parts after its commas. A larger first part makes a
larger expression. -/
theorem splits_parseExpr : Splits word (parseExpr platform N) := by
  let join (first : Expr) (more : List Expr) : Expr :=
    if more.isEmpty then first else .stream (first :: more)
  have hJoin (first : Expr) (more : List Expr) : sizeOf first ≤ sizeOf (join first more) := by
    cases more with
    | nil => exact Nat.le_refl _
    | cons part more =>
        show sizeOf first ≤ sizeOf (Expr.stream (first :: part :: more))
        simp only [Expr.stream.sizeOf_spec, List.cons.sizeOf_spec]
        omega
  intro tokens hTokens
  refine SplitsOn.bind (splits_parsePipe hAnd hOr tends tokens hTokens) (fun first left hLeft => ?_)
    (fun first c hDot b c' hRun => ?_) fun first first' hSize => ?_
  · have hMore : SplitsOn word left
        (remaining >>= fun m => commaLoop platform N m >>= fun more => pure (join first more))
        fun _ => remaining >>= fun m => commaLoop platform N m >>= fun more => pure (join first more) := by
      refine splits_remaining fun m n hn => SplitsOn.bind
        (splits_commaLoop hAnd hOr tends m n hn left hLeft)
        (fun more last hLast => (KeepsOn.pure hLast _).splits)
        (fun more c hDot b c' hRun => ?_) fun more more' hSize => Carries.pure ?_
      · cases hRun
        exact hDot
      · cases more' with
        | nil => cases more <;> simp at hSize
        | cons part' more' =>
            show sizeOf (join first more) < sizeOf (Expr.stream (first :: part' :: more'))
            cases more with
            | nil =>
                show sizeOf first < _
                simp only [Expr.stream.sizeOf_spec, List.cons.sizeOf_spec]
                omega
            | cons part more =>
                show sizeOf (Expr.stream (first :: part :: more)) < _
                simp only [Expr.stream.sizeOf_spec, List.cons.sizeOf_spec] at hSize ⊢
                omega
    exact hMore
  · obtain ⟨_, _, hRemaining, hRun⟩ := run_bind hRun
    cases hRemaining
    rw [(commaLoop_then (Or.inr hDot) hRun).2]
    exact hDot
  · refine @Carries.of_done _ _ _ _ first (fun c hEnd b c' hRun => ?_)
      (fun more d b d' hRun => ?_) fun pos => ⟨first', pos, rfl⟩
    · obtain ⟨_, _, hRemaining, hRun⟩ := run_bind hRun
      cases hRemaining
      exact commaLoop_then (Or.inl hEnd) hRun
    · obtain ⟨_, _, hRemaining, hRun⟩ := run_bind hRun
      cases hRemaining
      obtain ⟨rest, middle, _, hRun⟩ := run_bind hRun
      cases hRun
      exact Nat.lt_of_lt_of_le hSize (hJoin first' rest)

end Expressions

section Parts

variable {platform : Platform} {word part : String} {tokens : List Token} {x : Expr} {depth : Nat}

/-- What splits has, in front of the word, the result it has in front of the end, or it looked at
the end to have it. -/
theorem Splits.tends {α : Type} [SizeOf α] {P : Parser α} (splits : Splits word P)
    (more : List Token) : Tends word more P P := by
  rintro ⟨pos, _⟩ ⟨pos', _⟩ ⟨tokens, hTokens, rfl, rfl⟩ a c' hRun
  cases splits tokens hTokens pos a c' hRun with
  | keeps keeps =>
      obtain ⟨left, hLeft, hRest, hKeeps⟩ := keeps
      obtain ⟨last, hKept⟩ := hKeeps pos' more
      exact Or.inl ⟨_, hKept, left, hLeft, hRest, rfl⟩
  | dangles hDot => exact Or.inr (Or.inr hDot)
  | grows hEnd _ => exact Or.inr (Or.inl hEnd)

/-- The parser of expressions at any depth of nesting. The induction is on the depth, and each level
uses the one below through what is closed by a token. -/
theorem parserAt_tends (hAnd : word ≠ "and") (hOr : word ≠ "or") :
    ∀ depth more, NestedTends word more (parserAt platform depth) := by
  intro depth
  induction depth with
  | zero => exact fun more => ⟨(Sim.unfinished _).tends, (Sim.unfinished _).tends, needs_unfinished,
      needs_unfinished⟩
  | succ depth ih => exact fun more => ⟨(splits_parseExpr hAnd hOr ih).tends more,
      (splits_parsePipe hAnd hOr ih).tends more, needs_parseExpr, needs_parsePipe⟩

/-- An expression takes a word after it for a part of itself, if it is accepted with the word. -/
def TakesWord (platform : Platform) (part word : String) : Prop :=
  ∃ e, parse platform (part ++ "\n" ++ word) = .ok e

/-- A text with a word on a line of its own after it has the tokens of the text and then the word.
-/
theorem lexes_part_word (isWord : IsWord platform word) {last : List Char}
    (hPart : Lexes platform part.toList tokens last) (hLast : Finished last) :
    Lexes platform (part ++ "\n" ++ word).toList (tokens ++ [.ident word]) [] := by
  have hText : (part ++ "\n" ++ word).toList = part.toList ++ '\n' :: word.toList := by
    simp [String.toList_append]
  rw [hText]
  exact (hPart.append (follows_newline _)).trans (Lexes.of_finished hLast isWord.lexes)

/-- The parse of a part and a word, as a run at any depth that is enough for both. -/
theorem takesWord_iff (isWord : IsWord platform word) (hTokens : NoEof tokens)
    (hPart : tokenize platform part = .ok (tokens ++ [.eof]))
    (hDepth : part.length + word.length + 1 < depth) :
    TakesWord platform part word ↔ ∃ e c, (parserAt platform depth).expr
      ⟨0, tokens ++ [.ident word, .eof]⟩ = .ok (e, c) ∧ c.rest.head? = some .eof := by
  obtain ⟨last, hLexes, hLast⟩ := (tokenize_eq_ok_iff hTokens).mp hPart
  have hAll : NoEof (tokens ++ [.ident word]) := noEof_append hTokens (noEof_singleton (by nofun))
  have hBoth : tokenize platform (part ++ "\n" ++ word) = .ok (tokens ++ [.ident word] ++ [.eof]) :=
    (tokenize_eq_ok_iff hAll).mpr ⟨[], lexes_part_word isWord hLexes hLast, Or.inl rfl⟩
  have hLength : (part ++ "\n" ++ word).length = part.length + 1 + word.length := by
    simp only [String.length_append]
    rfl
  obtain ⟨d, rfl⟩ : ∃ d, depth = d + 1 := ⟨depth - 1, by omega⟩
  have hSource (e : Expr) : parse platform (part ++ "\n" ++ word) = .ok e ↔
      parseSource platform (parserAt platform d) (part ++ "\n" ++ word) = .ok e := by
    rw [← @parserAt_source_eq_parse platform _ (d + 1) (by omega)]
    rfl
  constructor
  · intro ⟨e, hParse⟩
    obtain ⟨found, c, hFound, hTokenize, hRun, hEnd⟩ := parseSource_eq_ok_iff.mp ((hSource e).mp hParse)
    have hSame : tokens ++ [Token.ident word] ++ [.eof] = found ++ [.eof] :=
      Except.ok.inj (hBoth.symm.trans hTokenize)
    rw [← hSame, List.append_assoc] at hRun
    exact ⟨e, c, hRun, hEnd⟩
  · intro ⟨e, c, hRun, hEnd⟩
    refine ⟨e, (hSource e).mpr (parseSource_eq_ok_iff.mpr ⟨_, c, hAll, hBoth, ?_, hEnd⟩)⟩
    rw [List.append_assoc]
    exact hRun

/-- In front of a word a part is taken as it is without one, or the word is taken with it. -/
theorem part_outcome (hAnd : word ≠ "and") (hOr : word ≠ "or") (isWord : IsWord platform word)
    (hParse : parse platform part = .ok x) :
    ∃ tokens, NoEof tokens ∧ tokenize platform part = .ok (tokens ++ [.eof]) ∧
      ∀ depth, part.length + word.length + 1 < depth →
        (¬ TakesWord platform part word ∧ Takes (parserAt platform depth).expr tokens x (.ident word)) ∨
          TakesWord platform part word ∧ Grows word tokens (fun _ => (parserAt platform depth).expr) x := by
  obtain ⟨tokens, hTokens, hTokenize, hTaken⟩ := parse_tokens hParse
  refine ⟨tokens, hTokens, hTokenize, fun depth hDepth => ?_⟩
  have hIff := takesWord_iff isWord hTokens hTokenize hDepth
  obtain ⟨pos, hRun⟩ := hTaken .eof [] rfl depth (by omega) 0
  obtain ⟨d, rfl⟩ : ∃ d, depth = d + 1 := ⟨depth - 1, by omega⟩
  have splits : Splits word (parserAt platform (d + 1)).expr :=
    splits_parseExpr hAnd hOr (parserAt_tends hAnd hOr d)
  cases splits tokens hTokens 0 x _ hRun with
  | keeps keeps =>
      obtain ⟨left, _, hRest, hKeeps⟩ := keeps
      have hSplit : left ++ [Token.eof] = [] ++ [Token.eof] := hRest.symm
      obtain rfl := List.append_cancel_right hSplit
      refine Or.inl ⟨fun taken => ?_, hKeeps⟩
      obtain ⟨e, c, hOther, hEnd⟩ := hIff.mp taken
      obtain ⟨pos', hKept⟩ := hKeeps 0 [.eof]
      have hSame := hOther.symm.trans hKept
      cases hSame
      cases hEnd
  | dangles hDot => cases hDot
  | grows _ grows =>
      obtain ⟨e, pos', hAccepted⟩ := grows.accepts 0
      exact Or.inr ⟨hIff.mpr ⟨e, _, hAccepted, rfl⟩, grows⟩

end Parts

end Jq
end OwsRuntime
