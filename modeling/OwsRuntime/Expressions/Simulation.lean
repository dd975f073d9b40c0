import OwsRuntime.Expressions.Lexing
import OwsRuntime.Expressions.Parser

/-! What the parser makes of some tokens does not depend on what ends them. A run
up to the end of the input is simulated by a run, perhaps with more depth, up to
another token that no expression goes on with. -/
namespace OwsRuntime
namespace Jq

/-- A token that no expression goes on with. -/
def Token.ends : Token → Bool
  | eof => true
  | rParen => true
  | rBracket => true
  | rBrace => true
  | colon => true
  | _ => false

section Rules

variable (stop : Token) (more : List Token)

/-- The same tokens before the end of the input, and before other tokens. -/
def Extends (c d : Cursor) : Prop :=
  ∃ tokens, (∀ t ∈ tokens, t ≠ .eof) ∧ c.rest = tokens ++ [.eof] ∧ d.rest = tokens ++ stop :: more

/-- Every successful run of one parser is one of the other before other tokens. -/
def Sim {α : Type} (P Q : Parser α) : Prop :=
  ∀ c d, Extends stop more c d → ∀ a c', P c = .ok (a, c') →
    ∃ d', Q d = .ok (a, d') ∧ Extends stop more c' d'

/-- A simulation where some token is the next one. -/
def SimAt {α : Type} (token : Token) (P Q : Parser α) : Prop :=
  ∀ c d, Extends stop more c d → (∃ rest, c.rest = token :: rest) → ∀ a c', P c = .ok (a, c') →
    ∃ d', Q d = .ok (a, d') ∧ Extends stop more c' d'

/-- A simulation where some two tokens are the next ones. -/
def SimAt₂ {α : Type} (token next : Token) (P Q : Parser α) : Prop :=
  ∀ c d, Extends stop more c d → (∃ rest, c.rest = token :: next :: rest) → ∀ a c',
    P c = .ok (a, c') → ∃ d', Q d = .ok (a, d') ∧ Extends stop more c' d'

/-- A simulation at the end of the input. -/
def SimEnd {α : Type} (P Q : Parser α) : Prop :=
  ∀ c d, c.rest = [.eof] → d.rest = stop :: more → ∀ a c', P c = .ok (a, c') →
    ∃ d', Q d = .ok (a, d') ∧ Extends stop more c' d'

/-- A simulation at the last token before the end of the input. -/
def SimLast {α : Type} (token : Token) (P Q : Parser α) : Prop :=
  ∀ c d, c.rest = [token, .eof] → d.rest = token :: stop :: more → ∀ a c', P c = .ok (a, c') →
    ∃ d', Q d = .ok (a, d') ∧ Extends stop more c' d'

/-- A parser that fails where nothing is left. -/
def NeedsToken {α : Type} (P : Parser α) : Prop := ∀ c, c.rest = [.eof] → ∃ e, P c = .error e

variable {stop more} {α β : Type} {token next : Token}

theorem bind_apply (P : Parser α) (f : α → Parser β) (c : Cursor) :
    (P >>= f) c = (P c >>= fun r => f r.1 r.2) := rfl

/-- A successful run of two parsers after one another is a successful run of the first and, from
where it stops, one of the second. -/
theorem run_bind {P : Parser α} {f : α → Parser β} {c : Cursor} {r : β × Cursor}
    (hRun : (P >>= f) c = .ok r) : ∃ a c', P c = .ok (a, c') ∧ f a c' = .ok r := by
  rw [bind_apply] at hRun
  cases hFirst : P c with
  | error e =>
      rw [hFirst] at hRun
      cases hRun
  | ok first =>
      rw [hFirst] at hRun
      exact ⟨first.1, first.2, rfl, hRun⟩

/-- The head of tokens that are extended, when it is not the end. -/
theorem Extends.cons {c d : Cursor} (extends_ : Extends stop more c d) {t : Token}
    {rest : List Token} (hRest : c.rest = t :: rest) (hToken : t ≠ .eof) :
    ∃ tokens, (∀ u ∈ tokens, u ≠ .eof) ∧ c.rest = t :: tokens ++ [.eof] ∧
      d.rest = t :: tokens ++ stop :: more := by
  obtain ⟨tokens, hTokens, hc, hd⟩ := extends_
  rw [hc] at hRest
  cases tokens with
  | nil =>
      injection hRest with hHead
      exact absurd hHead.symm hToken
  | cons u tokens =>
      injection hRest with hHead
      subst hHead
      exact ⟨tokens, fun v hv => hTokens v (List.mem_cons_of_mem _ hv), hc, hd⟩

/-- A result without tokens is the same before any tail. -/
theorem Sim.pure (a : α) : Sim stop more (Pure.pure a) (Pure.pure a) := by
  intro c d extends_ b c' hRun
  cases hRun
  exact ⟨d, rfl, extends_⟩

/-- Simulations compose: where the first parser stops, the same tokens are left before either tail,
and the second one goes on from them. -/
theorem Sim.bind {P Q : Parser α} {f g : α → Parser β} (first : Sim stop more P Q)
    (hNext : ∀ a, Sim stop more (f a) (g a)) : Sim stop more (P >>= f) (Q >>= g) := by
  intro c d extends_ b c' hRun
  obtain ⟨a, middle, hFirst, hRun⟩ := run_bind hRun
  obtain ⟨middle', hFirst', extends_⟩ := first c d extends_ a middle hFirst
  obtain ⟨d', hRun', extends_⟩ := hNext a middle middle' extends_ b c' hRun
  refine ⟨d', ?_, extends_⟩
  rw [bind_apply, hFirst']
  exact hRun'

/-- A parser that always fails is simulated by any. -/
theorem Sim.of_fail {P Q : Parser α} (hFail : ∀ c, ∃ e, P c = .error e) : Sim stop more P Q := by
  intro c d _ a c' hRun
  obtain ⟨e, hError⟩ := hFail c
  rw [hError] at hRun
  cases hRun

/-- A failure has no successful run to simulate. -/
theorem Sim.fail (message : String) (Q : Parser α) : Sim stop more (fail message) Q :=
  Sim.of_fail fun _ => ⟨_, rfl⟩

/-- Nor has the end of the rounds of a loop. -/
theorem Sim.unfinished (Q : Parser α) : Sim stop more unfinished Q :=
  Sim.of_fail fun _ => ⟨_, rfl⟩

/-- A simulation holds in particular where no token is left before the tail. -/
theorem Sim.end_ {P Q : Parser α} (sim : Sim stop more P Q) : SimEnd stop more P Q :=
  fun c d hc hd => sim c d ⟨[], nofun, hc, hd⟩

/-- What fails at the end of the input is simulated there by anything. -/
theorem NeedsToken.end_ {P Q : Parser α} (needs : NeedsToken P) : SimEnd stop more P Q := by
  intro c d hc _ a c' hRun
  obtain ⟨e, hError⟩ := needs c hc
  rw [hError] at hRun
  cases hRun

/-- What starts with a token fails where there is none. -/
theorem NeedsToken.bind {P : Parser α} (needs : NeedsToken P) (f : α → Parser β) :
    NeedsToken (P >>= f) := by
  intro c hc
  obtain ⟨e, hError⟩ := needs c hc
  exact ⟨e, by rw [bind_apply, hError]; rfl⟩

/-- A simulation at some token holds in particular when it is the last one before the tail. -/
theorem SimAt.last {P Q : Parser α} (hToken : token ≠ .eof) (sim : SimAt stop more token P Q) :
    SimLast stop more token P Q := by
  intro c d hc hd
  refine sim c d ⟨[token], fun t ht => ?_, hc, hd⟩ ⟨_, hc⟩
  rw [List.mem_singleton.mp ht]
  exact hToken

/-- After the last token is consumed nothing is left, so what still needs a token fails. -/
theorem SimLast.of_needs {P Q : Parser α} {f : Token → Parser α} (needs : NeedsToken (f token))
    (hP : P = (advance >>= f)) : SimLast stop more token P Q := by
  intro c d hc _ a c' hRun
  subst hP
  have hAdvance : Jq.advance c = .ok (token, ⟨c.pos + 1, [.eof]⟩) := by rw [Jq.advance, hc]
  rw [bind_apply, hAdvance] at hRun
  obtain ⟨e, hError⟩ := needs ⟨c.pos + 1, [.eof]⟩ rfl
  have hRun : f token ⟨c.pos + 1, [.eof]⟩ = .ok (a, c') := hRun
  rw [hError] at hRun
  cases hRun

/-- A simulation holds in particular where a given token is the next one. -/
theorem Sim.at_ {P Q : Parser α} (sim : Sim stop more P Q) : SimAt stop more token P Q :=
  fun c d extends_ _ => sim c d extends_

/-- And where a second one is given too. -/
theorem SimAt.at_ {P Q : Parser α} (sim : SimAt stop more token P Q) :
    SimAt₂ stop more token next P Q := by
  intro c d extends_ hRest
  obtain ⟨rest, hRest⟩ := hRest
  exact sim c d extends_ ⟨_, hRest⟩

/-- The first of two parsers sees the given token, and the second runs alike wherever the first
stops. -/
theorem SimAt.bind {P Q : Parser α} {f g : α → Parser β} (first : SimAt stop more token P Q)
    (hNext : ∀ a, Sim stop more (f a) (g a)) : SimAt stop more token (P >>= f) (Q >>= g) := by
  intro c d extends_ hRest b c' hRun
  obtain ⟨a, middle, hFirst, hRun⟩ := run_bind hRun
  obtain ⟨middle', hFirst', extends_⟩ := first c d extends_ hRest a middle hFirst
  obtain ⟨d', hRun', extends_⟩ := hNext a middle middle' extends_ b c' hRun
  refine ⟨d', ?_, extends_⟩
  rw [bind_apply, hFirst']
  exact hRun'

/-- A look at the next token succeeds where there is one. -/
theorem peek_apply (f : Token → Parser α) {c : Cursor} {t : Token} {rest : List Token}
    (hRest : c.rest = t :: rest) : (Jq.peek >>= f) c = f t c := by
  rw [bind_apply, Jq.peek, hRest]
  rfl

/-- A look at the token after the next one succeeds where there are two. -/
theorem peek2_apply (f : Token → Parser α) {c : Cursor} {t u : Token} {rest : List Token}
    (hRest : c.rest = t :: u :: rest) : (Jq.peek2 >>= f) c = f u c := by
  rw [bind_apply, Jq.peek2, hRest]
  rfl

/-- There is a next token where the look at it succeeds. -/
theorem peek_run {f : Token → Parser α} {c : Cursor} {r : α × Cursor}
    (hRun : (Jq.peek >>= f) c = .ok r) : f (c.rest.headD .eof) c = .ok r := by
  cases hRest : c.rest with
  | nil =>
      rw [bind_apply, Jq.peek, hRest] at hRun
      cases hRun
  | cons t rest =>
      rw [peek_apply f hRest] at hRun
      exact hRun

/-- Where it succeeds with fewer, it sees the last token that there is. -/
theorem peek2_run {f : Token → Parser α} {c : Cursor} {r : α × Cursor}
    (hRun : (Jq.peek2 >>= f) c = .ok r) :
    f (c.rest.tail.headD (c.rest.headD .eof)) c = .ok r := by
  cases hRest : c.rest with
  | nil =>
      rw [bind_apply, Jq.peek2, hRest] at hRun
      cases hRun
  | cons t rest =>
      rw [bind_apply, Jq.peek2, hRest] at hRun
      exact hRun

/-- A look at the next token is the one place where a run may notice what ends the input. Where a
token is left, both sides go on with it; where none is, one goes on with the end and the other with
the token that stops it. -/
theorem Sim.peek {f g : Token → Parser α}
    (hSame : ∀ t, t ≠ .eof → SimAt stop more t (f t) (g t))
    (hEnd : SimEnd stop more (f .eof) (g stop)) : Sim stop more (peek >>= f) (peek >>= g) := by
  intro c d extends_ a c' hRun
  obtain ⟨tokens, hTokens, hc, hd⟩ := extends_
  cases tokens with
  | nil =>
      rw [peek_apply f hc] at hRun
      rw [peek_apply g hd]
      exact hEnd c d hc hd a c' hRun
  | cons t tokens =>
      rw [peek_apply f hc] at hRun
      rw [peek_apply g hd]
      exact hSame t (hTokens t List.mem_cons_self) c d ⟨t :: tokens, hTokens, hc, hd⟩ ⟨_, hc⟩ a c' hRun

/-- Where the next token is given, the look at it is the same on both sides. -/
theorem SimAt.peek {f g : Token → Parser α} (hToken : token ≠ .eof)
    (hSame : SimAt stop more token (f token) (g token)) :
    SimAt stop more token (peek >>= f) (peek >>= g) := by
  intro c d extends_ hRest a c' hRun
  obtain ⟨rest, hRest⟩ := hRest
  obtain ⟨tokens, _, hc, hd⟩ := extends_.cons hRest hToken
  rw [peek_apply f hc] at hRun
  rw [peek_apply g hd]
  exact hSame c d extends_ ⟨_, hRest⟩ a c' hRun

/-- A look past a given token: at another one, or, after the last, at the end on one side and at the
token that stops the expression on the other. -/
theorem SimAt.peek2 {f g : Token → Parser α} (hToken : token ≠ .eof)
    (hSame : ∀ t, t ≠ .eof → SimAt₂ stop more token t (f t) (g t))
    (hEnd : SimLast stop more token (f .eof) (g stop)) :
    SimAt stop more token (peek2 >>= f) (peek2 >>= g) := by
  intro c d extends_ hRest a c' hRun
  obtain ⟨rest, hRest⟩ := hRest
  obtain ⟨tokens, hTokens, hc, hd⟩ := extends_.cons hRest hToken
  cases tokens with
  | nil =>
      rw [peek2_apply f hc] at hRun
      rw [peek2_apply g hd]
      exact hEnd c d hc hd a c' hRun
  | cons t tokens =>
      rw [peek2_apply f hc] at hRun
      rw [peek2_apply g hd]
      exact hSame t (hTokens t List.mem_cons_self) c d extends_ ⟨_, hc⟩ a c' hRun

/-- A given token is consumed on both sides, and the same ones are left after it. -/
theorem SimAt.advance {f g : Token → Parser α} (hToken : token ≠ .eof)
    (hNext : Sim stop more (f token) (g token)) :
    SimAt stop more token (advance >>= f) (advance >>= g) := by
  intro c d extends_ hRest a c' hRun
  obtain ⟨rest, hRest⟩ := hRest
  obtain ⟨tokens, hTokens, hc, hd⟩ := extends_.cons hRest hToken
  have hAdvance : ∀ (e : Cursor) (u : Token) (rest : List Token), e.rest = token :: u :: rest →
      Jq.advance e = .ok (token, ⟨e.pos + 1, u :: rest⟩) := by
    intro e u rest hRest
    rw [Jq.advance, hRest]
  have hSplit : ∀ (list : List Token) (last : Token) (tail : List Token),
      ∃ u rest, list ++ last :: tail = u :: rest := by
    intro list last tail
    cases list <;> exact ⟨_, _, rfl⟩
  obtain ⟨u, rest', hRest'⟩ := hSplit tokens .eof []
  obtain ⟨v, rest'', hRest''⟩ := hSplit tokens stop more
  rw [List.cons_append, hRest'] at hc
  rw [List.cons_append, hRest''] at hd
  rw [bind_apply, hAdvance c u rest' hc] at hRun
  rw [bind_apply, hAdvance d v rest'' hd]
  exact hNext _ _ ⟨tokens, hTokens, hRest'.symm, hRest''.symm⟩ a c' hRun

/-- Of two given tokens the first is consumed, and the second is the next one. -/
theorem SimAt₂.advance {f g : Token → Parser α} (hToken : token ≠ .eof) (hOther : next ≠ .eof)
    (hNext : SimAt stop more next (f token) (g token)) :
    SimAt₂ stop more token next (advance >>= f) (advance >>= g) := by
  intro c d extends_ hRest a c' hRun
  obtain ⟨rest, hRest⟩ := hRest
  obtain ⟨tokens, hTokens, hc, hd⟩ := extends_.cons hRest hToken
  cases tokens with
  | nil =>
      rw [hRest] at hc
      injection hc with _ hTail
      injection hTail with hHead
      exact absurd hHead hOther
  | cons u tokens =>
      have hHead : u = next := by
        rw [hRest] at hc
        injection hc with _ hTail
        injection hTail with hHead
        exact hHead.symm
      subst hHead
      have hAdvance : ∀ (e : Cursor) (rest : List Token), e.rest = token :: u :: rest →
          Jq.advance e = .ok (token, ⟨e.pos + 1, u :: rest⟩) := by
        intro e rest hRest
        rw [Jq.advance, hRest]
      rw [List.cons_append, List.cons_append] at hc hd
      rw [bind_apply, hAdvance c (tokens ++ [.eof]) hc] at hRun
      rw [bind_apply, hAdvance d (tokens ++ stop :: more) hd]
      exact hNext _ _ ⟨u :: tokens, hTokens, rfl, rfl⟩ ⟨_, rfl⟩ a c' hRun

/-- There are at least as many tokens before another tail. -/
theorem Sim.remaining {f g : Nat → Parser α}
    (hNext : ∀ m n, m ≤ n → Sim stop more (f m) (g n)) :
    Sim stop more (remaining >>= f) (remaining >>= g) := by
  intro c d extends_ a c' hRun
  have hLength : c.rest.length ≤ d.rest.length := by
    obtain ⟨tokens, _, hc, hd⟩ := extends_
    rw [hc, hd, List.length_append, List.length_append]
    simp
  exact hNext _ _ hLength c d extends_ a c' hRun

end Rules

section Functions

variable {platform : Platform} {stop : Token} {more : List Token} {α : Type}

/-- One level of nesting is simulated by another one. -/
structure NestedSim (platform : Platform) (stop : Token) (more : List Token) (N N' : Nested) :
    Prop where
  expr : Sim stop more N.expr N'.expr
  pipe : Sim stop more N.pipe N'.pipe
  source : ∀ source e, N.source source = .ok e → N'.source source = .ok e
  exprEnd : NeedsToken N.expr
  pipeEnd : NeedsToken N.pipe

/-- A token is consumed where it is found. -/
theorem Sim.ite_advance {found : Token → Prop} [DecidablePred found] {f f' : Parser α}
    {g g' : Parser α} (hEof : ¬ found .eof) (hStop : ¬ found stop) (hFound : Sim stop more f g)
    (hOther : Sim stop more f' g') :
    Sim stop more (Jq.peek >>= fun t => if found t then advance >>= fun _ => f else f')
      (Jq.peek >>= fun t => if found t then advance >>= fun _ => g else g') := by
  apply Sim.peek
  · intro t ht
    by_cases hToken : found t
    · rw [if_pos hToken, if_pos hToken]
      exact SimAt.advance ht hFound
    · rw [if_neg hToken, if_neg hToken]
      exact hOther.at_
  · rw [if_neg hEof, if_neg hStop]
    exact hOther.end_

/-- One token is consumed where it is found. -/
theorem Sim.accept {token : Token} {f f' g g' : Parser α} (hEof : token ≠ .eof)
    (hStop : stop ≠ token) (hFound : Sim stop more f g) (hOther : Sim stop more f' g') :
    Sim stop more (Jq.peek >>= fun t => if t = token then advance >>= fun _ => f else f')
      (Jq.peek >>= fun t => if t = token then advance >>= fun _ => g else g') :=
  Sim.ite_advance (Ne.symm hEof) hStop hFound hOther

/-- A result of another level, which is simulated without the tokens. -/
theorem Sim.lift {x y : Except LangError α} (hOk : ∀ a, x = .ok a → y = .ok a) :
    Sim stop more (liftM x : Parser α) (liftM y : Parser α) := by
  intro c d extends_ a c' hRun
  have hRun : (x >>= fun a => Pure.pure (a, c)) = .ok (a, c') := hRun
  show ∃ d', (y >>= fun a => Pure.pure (a, d)) = .ok (a, d') ∧ _
  cases x with
  | error e => cases hRun
  | ok b =>
      cases hRun
      rw [hOk _ rfl]
      exact ⟨d, rfl, extends_⟩

/-- A token that is expected is found on both sides or the run fails. -/
theorem sim_expect {token : Token} (hToken : token ≠ .eof) (what : String) :
    Sim stop more (expect platform token what) (expect platform token what) := by
  apply Sim.peek
  · intro t ht
    by_cases hSame : t = token
    · rw [if_pos hSame]
      exact SimAt.advance ht (Sim.pure _)
    · rw [if_neg hSame]
      exact (Sim.fail _ _).at_
  · rw [if_neg (Ne.symm hToken)]
    exact (Sim.fail _ _).end_

/-- So is a keyword. -/
theorem sim_expectKeyword (keyword : String) :
    Sim stop more (expectKeyword platform keyword) (expectKeyword platform keyword) := by
  apply Sim.peek
  · intro t ht
    by_cases hSame : t = .ident keyword
    · rw [if_pos hSame]
      exact SimAt.advance ht (Sim.pure _)
    · rw [if_neg hSame]
      exact (Sim.fail _ _).at_
  · rw [if_neg (by nofun)]
    exact (Sim.fail _ _).end_

/-- A chain of operators, where neither the end nor the token after the expression is one of its
level. The induction is on the rounds, of which there may be more on the other side. -/
theorem sim_chain {operand operand' : Parser Expr}
    {operator : Token → Option (Expr → Expr → Expr)} (hOperand : Sim stop more operand operand')
    (hEof : operator .eof = none) (hStop : operator stop = none) : ∀ m n, m ≤ n → ∀ left,
      Sim stop more (chain operand operator m left) (chain operand' operator n left) := by
  intro m
  induction m with
  | zero => exact fun n _ left => Sim.unfinished _
  | succ m ih =>
      intro n hn left
      obtain ⟨n, rfl⟩ : ∃ k, n = k + 1 := ⟨n - 1, by omega⟩
      apply Sim.peek
      · intro t ht
        cases operator t with
        | none => exact (Sim.pure _).at_
        | some build =>
            exact SimAt.advance ht (hOperand.bind fun right => ih n (by omega) _)
      · rw [hEof, hStop]
        exact (Sim.pure _).end_

/-- So a level runs alike when its operand does. -/
theorem sim_level {operand operand' : Parser Expr}
    {operator : Token → Option (Expr → Expr → Expr)} (hOperand : Sim stop more operand operand')
    (hEof : operator .eof = none) (hStop : operator stop = none) :
    Sim stop more (level operand operator) (level operand' operator) :=
  hOperand.bind fun left => Sim.remaining fun m n hn => sim_chain hOperand hEof hStop m n hn left

variable {N N' : Nested} (sim : NestedSim platform stop more N N') (hStop : stop.ends = true)
include sim

/-- The three forms of what stands in brackets after a path: the iterator, a slice without its lower
end, and an index or a slice. -/
theorem sim_parseBracket (base : Expr) : SimAt stop more .lBracket (parseBracket platform N base)
    (parseBracket platform N' base) := by
  have hIndex : Sim stop more
      (N.expr >>= fun index => expect platform .rBracket "`]`" >>= fun _ => pure (Expr.index base index))
      (N'.expr >>= fun index =>
        expect platform .rBracket "`]`" >>= fun _ => pure (Expr.index base index)) :=
    sim.expr.bind fun index => (sim_expect (by nofun) _).bind fun _ => Sim.pure _
  apply SimAt.peek2 (by nofun)
  · intro t ht
    by_cases hClose : t = .rBracket
    · subst hClose
      exact SimAt₂.advance (by nofun) ht (SimAt.advance ht (Sim.pure _))
    · rw [if_neg hClose, if_neg hClose]
      exact (SimAt.advance (by nofun) hIndex).at_
  · exact SimLast.of_needs (f := fun _ => _) (sim.exprEnd.bind _) rfl

include hStop

/-- The loop over the first names of a path. A name, a string or a bracket may follow its dot, and
anything else ends it. -/
theorem sim_dotChain : ∀ m n, m ≤ n → ∀ base,
    Sim stop more (dotChain platform N m base) (dotChain platform N' n base) := by
  have hName : fieldName? stop = none := by cases stop <;> first | rfl | cases hStop
  have hBracket : stop ≠ .lBracket := by rintro rfl; cases hStop
  intro m
  induction m with
  | zero => exact fun n _ base => Sim.unfinished _
  | succ m ih =>
      intro n hn base
      obtain ⟨n, rfl⟩ : ∃ k, n = k + 1 := ⟨n - 1, by omega⟩
      apply Sim.peek
      · intro t ht
        cases fieldName? t with
        | some name => exact SimAt.advance ht (ih n (by omega) _)
        | none =>
            by_cases hOpen : t = .lBracket
            · subst hOpen
              exact (sim_parseBracket sim base).bind fun next => ih n (by omega) next
            · rw [if_neg hOpen, if_neg hOpen]
              exact (Sim.pure _).at_
      · rw [hName]
        show SimEnd stop more (pure base) (if stop = .lBracket then _ else pure base)
        rw [if_neg hBracket]
        exact (Sim.pure _).end_

/-- The tail of an `if` is `elif`, `else`, or nothing, and none of the tokens that end an expression
is one of the two keywords. -/
theorem sim_parseElseTail : Sim stop more (parseElseTail N) (parseElseTail N') := by
  have hEnds : ∀ name, stop ≠ .ident name := by
    rintro name rfl
    cases hStop
  apply Sim.peek
  · intro t ht
    by_cases hElse : t = .ident "else"
    · rw [if_pos hElse, if_pos hElse]
      exact SimAt.advance ht sim.expr
    · rw [if_neg hElse, if_neg hElse]
      apply SimAt.peek ht
      by_cases hElif : t = .ident "elif"
      · rw [if_pos hElif, if_pos hElif]
        exact sim.expr.at_
      · rw [if_neg hElif, if_neg hElif]
        exact (Sim.pure _).at_
  · intro c d hc hd a c' hRun
    have hRun : (pure (Expr.literal .null) : Parser Expr) c = .ok (a, c') := by
      have hPeek : peek c = .ok (.eof, c) := by rw [peek, hc]
      rw [if_neg (by nofun), bind_apply, hPeek] at hRun
      exact hRun
    have hPeek : peek d = .ok (stop, d) := by rw [peek, hd]
    rw [if_neg (hEnds _), bind_apply, hPeek]
    show ∃ d', (if stop = .ident "elif" then N'.expr else pure (Expr.literal .null)) d = _ ∧ _
    rw [if_neg (hEnds _)]
    exact (Sim.pure _).end_ c d hc hd a c' hRun

/-- An `if`, from its keyword to its `end`. -/
theorem sim_parseIf {token : Token} (hToken : token ≠ .eof) :
    SimAt stop more token (parseIf platform N) (parseIf platform N') := by
  have hTail := sim_parseElseTail sim hStop
  apply SimAt.advance hToken
  refine sim.expr.bind fun cond => (sim_expectKeyword _).bind fun _ =>
    sim.expr.bind fun thenBranch => ?_
  apply Sim.ite_advance
  · nofun
  · rintro rfl
    cases hStop
  · exact sim.expr.bind fun _ => (sim_expectKeyword _).bind fun _ => sim.expr.bind fun _ =>
      hTail.bind fun _ => (sim_expectKeyword _).bind fun _ => Sim.pure _
  · exact hTail.bind fun _ => (sim_expectKeyword _).bind fun _ => Sim.pure _

/-- The arguments of a call. The induction is on the rounds; each argument is a pipe of the level
above. -/
theorem sim_argsLoop : ∀ m n, m ≤ n → Sim stop more (argsLoop N m) (argsLoop N' n) := by
  have hEnds : ¬ (stop = .comma ∨ stop = .semicolon) := by
    rintro (rfl | rfl) <;> cases hStop
  intro m
  induction m with
  | zero => exact fun n _ => Sim.unfinished _
  | succ m ih =>
      intro n hn
      obtain ⟨n, rfl⟩ : ∃ k, n = k + 1 := ⟨n - 1, by omega⟩
      refine sim.pipe.bind fun arg => ?_
      apply Sim.ite_advance (by nofun) hEnds
      · exact (ih n (by omega)).bind fun _ => Sim.pure _
      · exact Sim.pure _

omit sim hStop in
/-- A loop whose rounds are bounded by the tokens left needs a token when each of its rounds does.
-/
theorem needs_remaining {f : Nat → Parser α} (hNeeds : ∀ k, NeedsToken (f k)) :
    NeedsToken (remaining >>= f) :=
  fun c hc => hNeeds _ c hc

omit sim hStop in
/-- A loop without rounds fails. -/
theorem needs_unfinished : NeedsToken (unfinished : Parser α) := fun _ _ => ⟨_, rfl⟩

omit hStop in
/-- An argument is needed in each round. -/
theorem needs_argsLoop : ∀ k, NeedsToken (argsLoop N k)
  | 0 => needs_unfinished
  | _ + 1 => sim.pipeEnd.bind _

/-- The arguments together, with at least as many rounds before the longer tail. -/
theorem sim_parseArgs : Sim stop more (parseArgs N) (parseArgs N') := by
  apply Sim.peek
  · intro t ht
    by_cases hClose : t = .rParen
    · rw [if_pos hClose, if_pos hClose]
      exact (Sim.pure _).at_
    · rw [if_neg hClose, if_neg hClose]
      exact (Sim.remaining fun m n hn => sim_argsLoop sim hStop m n hn).at_
  · rw [if_neg (by nofun)]
    exact (needs_remaining (needs_argsLoop sim)).end_

/-- The elements of an array, in the same way. -/
theorem sim_arrayLoop : ∀ m n, m ≤ n → Sim stop more (arrayLoop N m) (arrayLoop N' n) := by
  have hEnds : stop ≠ .comma := by
    rintro rfl
    cases hStop
  intro m
  induction m with
  | zero => exact fun n _ => Sim.unfinished _
  | succ m ih =>
      intro n hn
      obtain ⟨n, rfl⟩ : ∃ k, n = k + 1 := ⟨n - 1, by omega⟩
      refine sim.pipe.bind fun e => ?_
      apply Sim.accept (by nofun) hEnds
      · exact (ih n (by omega)).bind fun _ => Sim.pure _
      · exact Sim.pure _

omit hStop in
/-- An element is needed in each round. -/
theorem needs_arrayLoop : ∀ k, NeedsToken (arrayLoop N k)
  | 0 => needs_unfinished
  | _ + 1 => sim.pipeEnd.bind _

/-- An array is empty or has elements up to its bracket. -/
theorem sim_parseArray : Sim stop more (parseArray platform N) (parseArray platform N') := by
  refine (sim_expect (by nofun) _).bind fun _ => ?_
  apply Sim.peek
  · intro t ht
    by_cases hClose : t = .rBracket
    · rw [if_pos hClose, if_pos hClose]
      exact SimAt.advance ht (Sim.pure _)
    · rw [if_neg hClose, if_neg hClose]
      refine Sim.at_ (Sim.remaining fun m n hn => (sim_arrayLoop sim hStop m n hn).bind fun _ => ?_)
      exact (sim_expect (by nofun) _).bind fun _ => Sim.pure _
  · rw [if_neg (by nofun)]
    exact (needs_remaining fun k => (needs_arrayLoop sim k).bind _).end_

omit hStop in
/-- A key is an identifier, a string or an expression in parentheses. -/
theorem sim_parseObjectKey :
    Sim stop more (parseObjectKey platform N) (parseObjectKey platform N') := by
  apply Sim.peek
  · intro t ht
    cases t with
    | ident name => exact SimAt.advance ht (Sim.pure _)
    | str s => exact SimAt.advance ht (Sim.pure _)
    | var name => exact SimAt.advance ht (Sim.pure _)
    | lParen =>
        exact SimAt.advance ht (sim.pipe.bind fun _ => (sim_expect (by nofun) _).bind fun _ =>
          Sim.pure _)
    | _ => exact (Sim.fail _ _).at_
  · exact (Sim.fail _ _).end_

omit sim hStop in
/-- There is no key at the end of the input. -/
theorem needs_parseObjectKey : NeedsToken (parseObjectKey platform N) := by
  intro c hc
  have hPeek : peek c = .ok (.eof, c) := by rw [peek, hc]
  rw [parseObjectKey, bind_apply, hPeek]
  exact ⟨_, rfl⟩

/-- The entries of an object. A key is followed by a colon and its value, or stands for the value of
its own name. -/
theorem sim_objectLoop : ∀ m n, m ≤ n →
    Sim stop more (objectLoop platform N m) (objectLoop platform N' n) := by
  have hEnds : stop ≠ .comma := by
    rintro rfl
    cases hStop
  intro m
  induction m with
  | zero => exact fun n _ => Sim.unfinished _
  | succ m ih =>
      intro n hn
      obtain ⟨n, rfl⟩ : ∃ k, n = k + 1 := ⟨n - 1, by omega⟩
      refine (sim_parseObjectKey sim).bind fun key => (sim_expect (by nofun) _).bind fun _ =>
        sim.pipe.bind fun value => ?_
      apply Sim.accept (by nofun) hEnds
      · exact (ih n (by omega)).bind fun _ => Sim.pure _
      · exact Sim.pure _

omit sim hStop in
/-- A key is needed in each round. -/
theorem needs_objectLoop : ∀ k, NeedsToken (objectLoop platform N k)
  | 0 => needs_unfinished
  | _ + 1 => needs_parseObjectKey.bind _

/-- An object is empty or has entries up to its brace. -/
theorem sim_parseObject : Sim stop more (parseObject platform N) (parseObject platform N') := by
  refine (sim_expect (by nofun) _).bind fun _ => ?_
  apply Sim.peek
  · intro t ht
    by_cases hClose : t = .rBrace
    · rw [if_pos hClose, if_pos hClose]
      exact SimAt.advance ht (Sim.pure _)
    · rw [if_neg hClose, if_neg hClose]
      refine Sim.at_ (Sim.remaining fun m n hn => (sim_objectLoop sim hStop m n hn).bind fun _ => ?_)
      exact (sim_expect (by nofun) _).bind fun _ => Sim.pure _
  · rw [if_neg (by nofun)]
    exact (needs_remaining fun k => (needs_objectLoop k).bind _).end_

/-- The parts of a string. An interpolation is parsed by the level above, from its own source and
not from these tokens. -/
theorem sim_stringParts : ∀ m n, m ≤ n → Sim stop more (stringParts N m) (stringParts N' n) := by
  intro m
  induction m with
  | zero => exact fun n _ => Sim.unfinished _
  | succ m ih =>
      intro n hn
      obtain ⟨n, rfl⟩ : ∃ k, n = k + 1 := ⟨n - 1, by omega⟩
      have hRest := ih n (by omega)
      apply Sim.peek
      · intro t ht
        cases t with
        | str s => exact SimAt.advance ht (hRest.bind fun _ => Sim.pure _)
        | interp source =>
            exact SimAt.advance ht ((Sim.lift (sim.source source)).bind fun inner =>
              hRest.bind fun _ => Sim.pure _)
        | _ => exact (Sim.pure _).at_
      · cases stop <;> first | exact (Sim.pure _).end_ | cases hStop

/-- The parts together, bounded by the tokens that are left. -/
theorem sim_parseStringParts : Sim stop more (parseStringParts N) (parseStringParts N') :=
  Sim.remaining fun m n hn => (sim_stringParts sim hStop m n hn).bind fun _ => Sim.pure _

/-- What an identifier starts: a keyword, or the name of a function, which is a call with arguments
when a parenthesis follows. -/
theorem sim_parseIdentPrimary {token : Token} (hToken : token ≠ .eof) (ident : String) :
    SimAt stop more token (parseIdentPrimary platform N ident)
      (parseIdentPrimary platform N' ident) := by
  have hLiteral : ∀ e : Expr, SimAt stop more token (advance >>= fun _ => pure e)
      (advance >>= fun _ => pure e) := fun e => SimAt.advance hToken (Sim.pure e)
  rw [parseIdentPrimary, parseIdentPrimary]
  by_cases hTrue : ident = "true"
  · rw [if_pos hTrue, if_pos hTrue]
    exact hLiteral _
  · rw [if_neg hTrue, if_neg hTrue]
    by_cases hFalse : ident = "false"
    · rw [if_pos hFalse, if_pos hFalse]
      exact hLiteral _
    · rw [if_neg hFalse, if_neg hFalse]
      by_cases hNull : ident = "null"
      · rw [if_pos hNull, if_pos hNull]
        exact hLiteral _
      · rw [if_neg hNull, if_neg hNull]
        by_cases hIf : ident = "if"
        · rw [if_pos hIf, if_pos hIf]
          exact sim_parseIf sim hStop hToken
        · rw [if_neg hIf, if_neg hIf]
          apply SimAt.peek2 hToken
          · intro t ht
            by_cases hOpen : t = .lParen
            · subst hOpen
              exact SimAt₂.advance hToken ht (SimAt.advance ht
                ((sim_parseArgs sim hStop).bind fun _ => (sim_expect (by nofun) _).bind fun _ =>
                  Sim.pure _))
            · rw [if_neg hOpen, if_neg hOpen]
              exact (hLiteral _).at_
          · rw [if_neg (by nofun), if_neg (by rintro rfl; cases hStop)]
            exact (hLiteral _).last hToken

/-- The base of a path, by its first token. A dot alone is the identity, so after it the end of the
input and the token that stops the expression must be seen to do the same. -/
theorem sim_parseBase : Sim stop more (parseBase platform N) (parseBase platform N') := by
  apply Sim.peek
  · intro t ht
    cases t with
    | dot =>
        exact SimAt.advance ht (Sim.remaining fun m n hn => sim_dotChain sim hStop m n hn _)
    | recursiveDot => exact SimAt.advance ht (Sim.pure _)
    | var name => exact SimAt.advance ht (Sim.pure _)
    | number n => exact SimAt.advance ht (Sim.pure _)
    | str s => exact (sim_parseStringParts sim hStop).at_
    | interp source => exact (sim_parseStringParts sim hStop).at_
    | lBracket => exact (sim_parseArray sim hStop).at_
    | lBrace => exact (sim_parseObject sim hStop).at_
    | lParen =>
        exact SimAt.advance ht (sim.expr.bind fun _ => (sim_expect (by nofun) _).bind fun _ =>
          Sim.pure _)
    | ident name => exact sim_parseIdentPrimary sim hStop ht name
    | eof => exact absurd rfl ht
    | _ => exact (Sim.fail _ _).at_
  · exact (Sim.fail _ _).end_

/-- The loop over the suffixes of a path: names, brackets and question marks. -/
theorem sim_postfixLoop : ∀ m n, m ≤ n → ∀ base,
    Sim stop more (postfixLoop platform N m base) (postfixLoop platform N' n base) := by
  have hName : fieldName? stop = none := by cases stop <;> first | rfl | cases hStop
  intro m
  induction m with
  | zero => exact fun n _ base => Sim.unfinished _
  | succ m ih =>
      intro n hn base
      obtain ⟨n, rfl⟩ : ∃ k, n = k + 1 := ⟨n - 1, by omega⟩
      apply Sim.peek
      · intro t ht
        cases t with
        | dot =>
            apply SimAt.peek2 ht
            · intro u hu
              cases fieldName? u with
              | some name =>
                  exact SimAt₂.advance ht hu (SimAt.advance hu (ih n (by omega) _))
              | none => exact (Sim.pure _).at_.at_
            · rw [hName]
              exact (Sim.pure _).at_.last ht
        | lBracket => exact (sim_parseBracket sim base).bind fun next => ih n (by omega) next
        | _ => exact (Sim.pure _).at_
      · cases stop <;> first | exact (Sim.pure _).end_ | cases hStop

/-- A path is its base and its suffixes. -/
theorem sim_parsePostfix : Sim stop more (parsePostfix platform N) (parsePostfix platform N') :=
  (sim_parseBase sim hStop).bind fun base =>
    Sim.remaining fun m n hn => sim_postfixLoop sim hStop m n hn base

/-- The loop over the signs in front of a path takes the same ones with more rounds, and the path
after them is parsed alike. The induction is on the rounds. -/
theorem sim_unaryLoop : ∀ m n, m ≤ n →
    Sim stop more (unaryLoop platform N m) (unaryLoop platform N' n) := by
  have hPostfix := sim_parsePostfix sim hStop
  intro m
  induction m with
  | zero => exact fun n _ => Sim.unfinished _
  | succ m ih =>
      intro n hn
      obtain ⟨n, rfl⟩ : ∃ k, n = k + 1 := ⟨n - 1, by omega⟩
      have hRest := ih n (by omega)
      apply Sim.peek
      · intro t ht
        by_cases hNot : t = .ident "not"
        · rw [if_pos hNot, if_pos hNot]
          exact SimAt.advance ht (hRest.bind fun _ => Sim.pure _)
        · rw [if_neg hNot, if_neg hNot]
          by_cases hMinus : t = .minus
          · rw [if_pos hMinus, if_pos hMinus]
            exact SimAt.advance ht (hRest.bind fun _ => Sim.pure _)
          · rw [if_neg hMinus, if_neg hMinus]
            exact hPostfix.at_
      · rw [if_neg (by nofun), if_neg (by nofun), if_neg (by rintro rfl; cases hStop),
          if_neg (by rintro rfl; cases hStop)]
        exact hPostfix.end_

/-- Their number is bounded by the tokens that are left. -/
theorem sim_parseUnary : Sim stop more (parseUnary platform N) (parseUnary platform N') :=
  Sim.remaining fun m n hn => sim_unaryLoop sim hStop m n hn

/-- The levels of binary operators, from the factors up to `or`. -/
theorem sim_parseOr : Sim stop more (parseOr platform N) (parseOr platform N') := by
  have hMult : Sim stop more (parseMult platform N) (parseMult platform N') :=
    sim_level (sim_parseUnary sim hStop) rfl (by cases stop <;> first | rfl | cases hStop)
  have hAdditive : Sim stop more (parseAdditive platform N) (parseAdditive platform N') :=
    sim_level hMult rfl (by cases stop <;> first | rfl | cases hStop)
  have hCompare : Sim stop more (parseCompare platform N) (parseCompare platform N') :=
    sim_level hAdditive rfl (by cases stop <;> first | rfl | cases hStop)
  have hAnd : Sim stop more (parseAnd platform N) (parseAnd platform N') :=
    sim_level hCompare rfl (by cases stop <;> first | rfl | cases hStop)
  exact sim_level hAnd rfl (by cases stop <;> first | rfl | cases hStop)

/-- A pipe is the outermost of the levels. -/
theorem sim_parsePipe : Sim stop more (parsePipe platform N) (parsePipe platform N') :=
  sim_level (sim_parseOr sim hStop) rfl (by cases stop <;> first | rfl | cases hStop)

/-- The parts of an expression after its commas. -/
theorem sim_commaLoop : ∀ m n, m ≤ n →
    Sim stop more (commaLoop platform N m) (commaLoop platform N' n) := by
  intro m
  induction m with
  | zero => exact fun n _ => Sim.unfinished _
  | succ m ih =>
      intro n hn
      obtain ⟨n, rfl⟩ : ∃ k, n = k + 1 := ⟨n - 1, by omega⟩
      apply Sim.accept (by nofun) (by rintro rfl; cases hStop)
      · exact (sim_parsePipe sim hStop).bind fun _ => (ih n (by omega)).bind fun _ => Sim.pure _
      · exact Sim.pure _

/-- An expression runs alike before the end of the input and before a token that no expression goes
on with. -/
theorem sim_parseExpr : Sim stop more (parseExpr platform N) (parseExpr platform N') :=
  (sim_parsePipe sim hStop).bind fun _ => Sim.remaining fun m n hn =>
    (sim_commaLoop sim hStop m n hn).bind fun _ => Sim.pure _

end Functions

section Ends

variable {platform : Platform} {N : Nested}

/-- A look at the next token does not consume it. -/
theorem peek_of_rest {c : Cursor} {t : Token} {rest : List Token} (hc : c.rest = t :: rest) :
    peek c = .ok (t, c) := by
  rw [peek, hc]

/-- There is no base of a path at the end of the input, -/
theorem needs_parseBase : NeedsToken (parseBase platform N) := by
  intro c hc
  rw [parseBase, bind_apply, peek_of_rest hc]
  exact ⟨_, rfl⟩

/-- hence no path, -/
theorem needs_parsePostfix : NeedsToken (parsePostfix platform N) := needs_parseBase.bind _

/-- and no path after signs, -/
theorem needs_unaryLoop : ∀ k, NeedsToken (unaryLoop platform N k)
  | 0 => needs_unfinished
  | k + 1 => by
      intro c hc
      rw [unaryLoop, bind_apply, peek_of_rest hc]
      exact needs_parsePostfix c hc

/-- and so no operand of any level. -/
theorem needs_level {operand : Parser Expr} {operator : Token → Option (Expr → Expr → Expr)}
    (needs : NeedsToken operand) : NeedsToken (level operand operator) := needs.bind _

/-- A pipe needs a token. -/
theorem needs_parsePipe : NeedsToken (parsePipe platform N) := by
  have hUnary : NeedsToken (parseUnary platform N) := needs_remaining fun k => needs_unaryLoop k
  exact needs_level (needs_level (needs_level (needs_level (needs_level (needs_level hUnary)))))

/-- So does an expression. -/
theorem needs_parseExpr : NeedsToken (parseExpr platform N) := needs_parsePipe.bind _

end Ends

section Depth

variable {platform : Platform} {N N' : Nested}

/-- A parse that has come to the end of the input is complete. -/
theorem complete_of_end {parsed : Expr × Cursor} (hEnd : parsed.2.rest.head? = some .eof) :
    complete platform parsed = .ok parsed.1 := by
  obtain ⟨rest, hRest⟩ := List.head?_eq_some_iff.mp hEnd
  rw [complete, peek_of_rest hRest]
  exact if_pos rfl

/-- Only such a parse is. -/
theorem end_of_complete {parsed : Expr × Cursor} {e : Expr}
    (hComplete : complete platform parsed = .ok e) :
    parsed.1 = e ∧ parsed.2.rest.head? = some .eof := by
  rw [complete] at hComplete
  cases hRest : parsed.2.rest with
  | nil =>
      rw [peek, hRest] at hComplete
      cases hComplete
  | cons t rest =>
      rw [peek_of_rest hRest] at hComplete
      by_cases hEnd : t = .eof
      · simp only [if_pos hEnd, Except.ok.injEq] at hComplete
        exact ⟨hComplete, congrArg some hEnd⟩
      · simp only [if_neg hEnd] at hComplete
        cases hComplete

/-- To parse a source is to find its tokens, to parse an expression from the first of them on, and
to check that it was the whole input. -/
theorem parseSource_eq (source : String) : parseSource platform N source =
    (tokenize platform source >>= fun tokens =>
      parseExpr platform N ⟨0, tokens⟩ >>= complete platform) := rfl

/-- A parse of a source: its tokens, and what the parser makes of them. -/
theorem parseSource_eq_ok_iff {source : String} {e : Expr} :
    parseSource platform N source = .ok e ↔ ∃ tokens c, NoEof tokens ∧
      tokenize platform source = .ok (tokens ++ [.eof]) ∧
      parseExpr platform N ⟨0, tokens ++ [.eof]⟩ = .ok (e, c) ∧ c.rest.head? = some .eof := by
  rw [parseSource_eq]
  constructor
  · intro hParse
    obtain ⟨tokens, hTokens, hParse⟩ := bind_eq_ok hParse
    obtain ⟨found, hFound, hComplete⟩ := bind_eq_ok hParse
    obtain ⟨front, rfl, hFront⟩ := tokenizeFrom_shape _ _ hTokens
    obtain ⟨rfl, hEnd⟩ := end_of_complete hComplete
    exact ⟨front, found.2, hFront, hTokens, hFound, hEnd⟩
  · intro ⟨tokens, c, _, hTokens, hExpr, hEnd⟩
    rw [hTokens, ok_bind, hExpr, ok_bind]
    exact complete_of_end hEnd

/-- Where one side has come to the end, the other is at the token that stops it. -/
theorem Extends.of_end {stop : Token} {more : List Token} {c d : Cursor}
    (extends_ : Extends stop more c d) (hEnd : c.rest.head? = some .eof) : d.rest = stop :: more := by
  obtain ⟨tokens, hTokens, hc, hd⟩ := extends_
  cases tokens with
  | nil => exact hd
  | cons t tokens =>
      rw [hc] at hEnd
      exact absurd (Option.some.inj hEnd) (hTokens t List.mem_cons_self)

/-- A source that one level of nesting parses is parsed alike by the level that simulates it. -/
theorem NestedSim.parseSource_ok (sim : NestedSim platform .eof [] N N') {source : String} {e : Expr}
    (hParse : parseSource platform N source = .ok e) : parseSource platform N' source = .ok e := by
  obtain ⟨tokens, c, hTokens, hLex, hExpr, hEnd⟩ := parseSource_eq_ok_iff.mp hParse
  have hSame : Extends .eof [] ⟨0, tokens ++ [.eof]⟩ ⟨0, tokens ++ [.eof]⟩ :=
    ⟨tokens, hTokens, rfl, rfl⟩
  have hExprSim : Sim .eof [] (parseExpr platform N) (parseExpr platform N') :=
    sim_parseExpr sim rfl
  obtain ⟨d, hRun, extends_⟩ := hExprSim _ _ hSame e c hExpr
  have hEnd' : d.rest.head? = some .eof := by
    rw [extends_.of_end hEnd]
    rfl
  exact parseSource_eq_ok_iff.mpr ⟨tokens, d, hTokens, hLex, hRun, hEnd'⟩

/-- A parser with more depth simulates one with less. -/
theorem parserAt_simEnd : ∀ m n, m ≤ n →
    NestedSim platform .eof [] (parserAt platform m) (parserAt platform n) := by
  intro m
  induction m with
  | zero =>
      exact fun n _ => ⟨Sim.unfinished _, Sim.unfinished _, nofun, needs_unfinished, needs_unfinished⟩
  | succ m ih =>
      intro n hn
      obtain ⟨n, rfl⟩ : ∃ k, n = k + 1 := ⟨n - 1, by omega⟩
      have sim := ih n (by omega)
      exact ⟨sim_parseExpr sim rfl, sim_parsePipe sim rfl, fun _ _ h => sim.parseSource_ok h,
        needs_parseExpr, needs_parsePipe⟩

/-- A deeper parser has every result that a less deep one has, before any token that ends
expressions. The induction is on the smaller depth. -/
theorem parserAt_sim {stop : Token} {more : List Token} (hStop : stop.ends = true) : ∀ m n, m ≤ n →
    NestedSim platform stop more (parserAt platform m) (parserAt platform n) := by
  intro m
  induction m with
  | zero =>
      exact fun n _ => ⟨Sim.unfinished _, Sim.unfinished _, nofun, needs_unfinished, needs_unfinished⟩
  | succ m ih =>
      intro n hn
      obtain ⟨n, rfl⟩ : ∃ k, n = k + 1 := ⟨n - 1, by omega⟩
      have sim := ih n (by omega)
      have hDeeper : m ≤ n := by omega
      exact ⟨sim_parseExpr sim hStop, sim_parsePipe sim hStop,
        fun _ _ h => (parserAt_simEnd m n hDeeper).parseSource_ok h, needs_parseExpr, needs_parsePipe⟩

/-- The tokens of a source that is accepted are parsed alike before any token that ends them. -/
theorem parse_tokens {source : String} {e : Expr} (hParse : parse platform source = .ok e) :
    ∃ tokens, NoEof tokens ∧ tokenize platform source = .ok (tokens ++ [.eof]) ∧
      ∀ stop more, stop.ends = true → ∀ depth, source.length < depth → ∀ pos,
        ∃ pos', (parserAt platform depth).expr ⟨pos, tokens ++ stop :: more⟩ =
          .ok (e, ⟨pos', stop :: more⟩) := by
  obtain ⟨tokens, c, hTokens, hLex, hExpr, hEnd⟩ := parseSource_eq_ok_iff.mp hParse
  refine ⟨tokens, hTokens, hLex, fun stop more hStop depth hDepth pos => ?_⟩
  have sim : NestedSim platform stop more (parserAt platform (source.length + 1))
      (parserAt platform depth) := parserAt_sim hStop _ _ hDepth
  have hSame : Extends stop more ⟨0, tokens ++ [.eof]⟩ ⟨pos, tokens ++ stop :: more⟩ :=
    ⟨tokens, hTokens, rfl, rfl⟩
  have hShallow : (parserAt platform (source.length + 1)).expr ⟨0, tokens ++ [.eof]⟩ =
      .ok (e, c) := hExpr
  obtain ⟨d, hRun, extends_⟩ := sim.expr _ _ hSame e c hShallow
  have hRest : d = ⟨d.pos, stop :: more⟩ := by
    rw [← extends_.of_end hEnd]
  rw [hRest] at hRun
  exact ⟨d.pos, hRun⟩

end Depth

end Jq
end OwsRuntime
