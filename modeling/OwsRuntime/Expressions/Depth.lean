import OwsRuntime.Expressions.LexSteps
import OwsRuntime.Expressions.Simulation

/-! The bounds on the recursion of the parser are never reached: the tokens of a source
weigh no more than the source is long, and every level of nesting takes some weight. -/
namespace OwsRuntime
namespace Jq

/-- What a token can cost. An interpolation costs the parse of its source. -/
def Token.weight : Token → Nat
  | interp source => source.length + 1
  | _ => 1

def weight (tokens : List Token) : Nat := (tokens.map Token.weight).sum

theorem weight_nil : weight [] = 0 := rfl

theorem weight_cons (token : Token) (tokens : List Token) :
    weight (token :: tokens) = token.weight + weight tokens := by
  rw [weight, List.map_cons, List.sum_cons]
  rfl

/-- The weight of tokens adds up. -/
theorem weight_append (first second : List Token) :
    weight (first ++ second) = weight first + weight second := by
  rw [weight, List.map_append, List.sum_append]
  rfl

/-- Every token weighs something, so each one that is consumed makes the rest lighter. -/
theorem weight_pos (token : Token) : 0 < token.weight := by
  cases token <;> exact Nat.succ_pos _

/-- What is left of some tokens, and the positions of both. -/
structure Left (pos : Nat) (front : List Token) (pos' : Nat) (front' : List Token) : Prop where
  noEof : NoEof front'
  suffix : front' <:+ front
  position : pos' + front'.length = pos + front.length
  weight : Jq.weight front' ≤ Jq.weight front

section Left

variable {pos pos' pos'' : Nat} {first second third front front' : List Token}

/-- Where nothing is consumed, everything is left. -/
theorem Left.refl (hFront : NoEof front) : Left pos front pos front :=
  ⟨hFront, List.suffix_rfl, rfl, Nat.le_refl _⟩

/-- What is left of what is left. The positions add up, and the weight only falls. -/
theorem Left.trans (one : Left pos first pos' second) (other : Left pos' second pos'' third) :
    Left pos first pos'' third :=
  ⟨other.noEof, other.suffix.trans one.suffix, other.position.trans one.position,
    Nat.le_trans other.weight one.weight⟩

/-- No more tokens are left than there were. -/
theorem Left.length (left : Left pos front pos' front') : front'.length ≤ front.length :=
  left.suffix.length_le

end Left

/-- An error in the source: no panic, and not the end of the recursion of the model. -/
def LangError.OfSource : LangError → Prop
  | lex _ _ => True
  | parse _ _ => True
  | _ => False

/-- A result, or an error in the source. -/
def Answers {α : Type} : Except LangError α → Prop
  | .ok _ => True
  | .error e => e.OfSource

/-- A computation that ends in a result or an error of the source goes on to end in one. -/
theorem Answers.bind {α β : Type} {x : Except LangError α} {f : α → Except LangError β}
    (first : Answers x) (hNext : ∀ a, x = .ok a → Answers (f a)) : Answers (x >>= f) := by
  cases x with
  | error e => exact first
  | ok a => exact hNext a rfl

/-- A result which leaves no more tokens than there were and never the end out, or an error in the
source. -/
def Settled {α : Type} (pos : Nat) (front : List Token) : Except LangError (α × Cursor) → Prop
  | .ok r => ∃ front', r.2.rest = front' ++ [.eof] ∧ Left pos front r.2.pos front'
  | .error e => e.OfSource

/-- What is settled on fewer tokens is settled on the ones before them. -/
theorem Settled.mono {α : Type} {pos pos' : Nat} {first second : List Token}
    {r : Except LangError (α × Cursor)} (left : Left pos first pos' second)
    (settled : Settled pos' second r) : Settled pos first r := by
  cases r with
  | error e => exact settled
  | ok a =>
      obtain ⟨front', hRest, hLeft⟩ := settled
      exact ⟨front', hRest, left.trans hLeft⟩

section Rules

variable {α β : Type} {m n : Nat} {token next : Token}

/-- Two parsers do the same before the end of the input on few tokens of little
weight, where they reach no bound of the model. -/
def Same (m n : Nat) (P Q : Parser α) : Prop :=
  ∀ pos front, NoEof front → front.length < m → weight front < n →
    P ⟨pos, front ++ [.eof]⟩ = Q ⟨pos, front ++ [.eof]⟩ ∧ Settled pos front (P ⟨pos, front ++ [.eof]⟩)

/-- The same where some token is the next one. -/
def SameAt (token : Token) (m n : Nat) (P Q : Parser α) : Prop :=
  ∀ pos front, NoEof (token :: front) → front.length + 1 < m → weight (token :: front) < n →
    P ⟨pos, token :: front ++ [.eof]⟩ = Q ⟨pos, token :: front ++ [.eof]⟩ ∧
      Settled pos (token :: front) (P ⟨pos, token :: front ++ [.eof]⟩)

/-- The same where some token is the next one, which they consume. -/
def Eats (token : Token) (m n : Nat) (P Q : Parser α) : Prop :=
  ∀ pos front, NoEof (token :: front) → front.length + 1 < m → weight (token :: front) < n →
    P ⟨pos, token :: front ++ [.eof]⟩ = Q ⟨pos, token :: front ++ [.eof]⟩ ∧
      Settled (pos + 1) front (P ⟨pos, token :: front ++ [.eof]⟩)

/-- The same where some two tokens are the next ones, of which they consume the first. -/
def Eats₂ (token next : Token) (m n : Nat) (P Q : Parser α) : Prop :=
  ∀ pos front, NoEof (token :: next :: front) → front.length + 2 < m →
    weight (token :: next :: front) < n →
    P ⟨pos, token :: next :: front ++ [.eof]⟩ = Q ⟨pos, token :: next :: front ++ [.eof]⟩ ∧
      Settled (pos + 1) (next :: front) (P ⟨pos, token :: next :: front ++ [.eof]⟩)

/-- Parsers that do the same on some tokens do the same on fewer and lighter ones. -/
theorem Same.mono {P Q : Parser α} {m' n' : Nat} (same : Same m n P Q) (hLength : m' ≤ m)
    (hWeight : n' ≤ n) : Same m' n' P Q := fun pos front hFront hm hn =>
  same pos front hFront (Nat.lt_of_lt_of_le hm hLength) (Nat.lt_of_lt_of_le hn hWeight)

/-- They do so in particular where the next token is given. -/
theorem Same.at_ {P Q : Parser α} (same : Same m n P Q) : SameAt token m n P Q :=
  fun pos front hFront hm hn => same pos (token :: front) hFront hm hn

/-- After a token is consumed, what stands behind it is left. -/
theorem left_tail {pos : Nat} {front : List Token} (hFront : NoEof (token :: front)) :
    Left pos (token :: front) (pos + 1) front where
  noEof t ht := hFront t (List.mem_cons_of_mem _ ht)
  suffix := List.suffix_cons token front
  position := by
    rw [List.length_cons]
    omega
  weight := by
    rw [weight_cons]
    exact Nat.le_add_left _ _

/-- What is settled behind the given token is settled in front of it. -/
theorem Eats.sameAt {P Q : Parser α} (eats : Eats token m n P Q) : SameAt token m n P Q := by
  intro pos front hFront hm hn
  obtain ⟨hSame, hSettled⟩ := eats pos front hFront hm hn
  exact ⟨hSame, hSettled.mono (left_tail hFront)⟩

/-- It may be known which token comes after it. -/
theorem Eats.at_ {P Q : Parser α} (eats : Eats token m n P Q) : Eats₂ token next m n P Q :=
  fun pos front hFront hm hn => eats pos (next :: front) hFront hm hn

/-- A result that consumes nothing is settled. -/
theorem Same.pure (a : α) : Same m n (Pure.pure a) (Pure.pure a) :=
  fun _ front hFront _ _ => ⟨rfl, front, rfl, Left.refl hFront⟩

/-- A failure with a message is an error of the source. -/
theorem Same.fail (message : String) : Same m n (@Jq.fail α message) (Jq.fail message) :=
  fun _ _ _ _ _ => ⟨rfl, trivial⟩

/-- The rule behind all the others: when the first parser does the same and is settled, and from
every place it can stop at the second does, then both together do. -/
theorem settled_bind {P Q : Parser α} {f g : α → Parser β} {c : Cursor} {pos : Nat}
    {front : List Token} (hFirst : P c = Q c) (hSettled : Settled pos front (P c))
    (hNext : ∀ a pos' front', Left pos front pos' front' →
      f a ⟨pos', front' ++ [.eof]⟩ = g a ⟨pos', front' ++ [.eof]⟩ ∧
        Settled pos' front' (f a ⟨pos', front' ++ [.eof]⟩)) :
    (P >>= f) c = (Q >>= g) c ∧ Settled pos front ((P >>= f) c) := by
  rw [bind_apply, bind_apply, ← hFirst]
  cases hRun : P c with
  | error e =>
      rw [hRun] at hSettled
      exact ⟨rfl, hSettled⟩
  | ok r =>
      rw [hRun] at hSettled
      obtain ⟨front', hRest, left⟩ := hSettled
      have hCursor : r.2 = ⟨r.2.pos, front' ++ [.eof]⟩ := by rw [← hRest]
      obtain ⟨hSame, hSecond⟩ := hNext r.1 r.2.pos front' left
      rw [← hCursor] at hSame hSecond
      exact ⟨hSame, hSecond.mono left⟩

/-- Two parsers after one another, where the first may consume nothing. -/
theorem Same.bind {P Q : Parser α} {f g : α → Parser β} (first : Same m n P Q)
    (hNext : ∀ a, Same m n (f a) (g a)) : Same m n (P >>= f) (Q >>= g) := by
  intro pos front hFront hm hn
  obtain ⟨hFirst, hSettled⟩ := first pos front hFront hm hn
  exact settled_bind hFirst hSettled fun a pos' front' left => hNext a pos' front' left.noEof
    (Nat.lt_of_le_of_lt left.length hm) (Nat.lt_of_le_of_lt left.weight hn)

/-- What comes after a token that is consumed has less left. -/
theorem Eats.bind {P Q : Parser α} {f g : α → Parser β} (first : Eats token m n P Q)
    (hNext : ∀ a, Same (m - 1) (n - 1) (f a) (g a)) : Eats token m n (P >>= f) (Q >>= g) := by
  intro pos front hFront hm hn
  obtain ⟨hFirst, hSettled⟩ := first pos front hFront hm hn
  have hPositive := weight_pos token
  rw [weight_cons] at hn
  exact settled_bind hFirst hSettled fun a pos' front' left =>
    hNext a pos' front' left.noEof (Nat.lt_of_le_of_lt left.length (by omega))
      (Nat.lt_of_le_of_lt left.weight (by omega))

/-- After a look at the next token both sides go on with the same one. At the end of the input no
token is left for what follows. -/
theorem Same.peek {f g : Token → Parser α} (hSame : ∀ t, t ≠ .eof → SameAt t m n (f t) (g t))
    (hEnd : Same 1 n (f .eof) (g .eof)) : Same m n (Jq.peek >>= f) (Jq.peek >>= g) := by
  intro pos front hFront hm hn
  cases front with
  | nil => exact hEnd pos [] hFront Nat.zero_lt_one hn
  | cons t front => exact hSame t (hFront t List.mem_cons_self) pos front hFront hm hn

/-- Where the next token is given, it is the one that is seen. -/
theorem SameAt.peek {f g : Token → Parser α} (hSame : SameAt token m n (f token) (g token)) :
    SameAt token m n (Jq.peek >>= f) (Jq.peek >>= g) := hSame

/-- It can be consumed after the look. -/
theorem Eats.peek {f g : Token → Parser α} (hSame : Eats token m n (f token) (g token)) :
    Eats token m n (Jq.peek >>= f) (Jq.peek >>= g) := hSame

/-- A look past the given token, which stays to be consumed. There is another token behind it, or
the end. -/
theorem Eats.peek2 {f g : Token → Parser α} (hSame : ∀ t, t ≠ .eof → Eats₂ token t m n (f t) (g t))
    (hEnd : Eats token m n (f .eof) (g .eof)) :
    Eats token m n (Jq.peek2 >>= f) (Jq.peek2 >>= g) := by
  intro pos front hFront hm hn
  cases front with
  | nil => exact hEnd pos [] hFront hm hn
  | cons t front =>
      have hToken : t ≠ .eof := hFront t (List.mem_cons_of_mem _ List.mem_cons_self)
      exact hSame t hToken pos front hFront hm hn

/-- After a look at the next two tokens, the first of them may stay. -/
theorem SameAt.peek2 {f g : Token → Parser α}
    (hSame : ∀ t, t ≠ .eof → Eats₂ token t m n (f t) (g t) ∨ Same m n (f t) (g t))
    (hEnd : Same 2 n (f .eof) (g .eof)) :
    SameAt token m n (Jq.peek2 >>= f) (Jq.peek2 >>= g) := by
  intro pos front hFront hm hn
  cases front with
  | nil => exact hEnd pos [token] hFront (Nat.lt_succ_self 1) hn
  | cons t front =>
      have hToken : t ≠ .eof := hFront t (List.mem_cons_of_mem _ List.mem_cons_self)
      rcases hSame t hToken with eats | same
      · obtain ⟨hEqual, hSettled⟩ := eats pos front hFront hm hn
        exact ⟨hEqual, hSettled.mono (left_tail hFront)⟩
      · exact same pos (token :: t :: front) hFront hm hn

/-- The next token is consumed, and what stood behind it is left. -/
theorem advance_eq (pos : Nat) (front : List Token) :
    Jq.advance ⟨pos, token :: front ++ [.eof]⟩ = .ok (token, ⟨pos + 1, front ++ [.eof]⟩) := by
  cases front <;> rfl

/-- A token that is consumed takes its weight with it. -/
theorem Eats.advance_weight {f g : Token → Parser α}
    (hNext : token.weight < n → Same (m - 1) (n - token.weight) (f token) (g token)) :
    Eats token m n (Jq.advance >>= f) (Jq.advance >>= g) := by
  intro pos front hFront hm hn
  rw [weight_cons] at hn
  have hTail := @left_tail token pos front hFront
  obtain ⟨hSame, hSettled⟩ := hNext (by omega) (pos + 1) front hTail.noEof (by omega) (by omega)
  rw [bind_apply, bind_apply, advance_eq]
  exact ⟨hSame, hSettled⟩

/-- What follows has one token less, and less weight. -/
theorem Eats.advance {f g : Token → Parser α}
    (hNext : Same (m - 1) (n - 1) (f token) (g token)) :
    Eats token m n (Jq.advance >>= f) (Jq.advance >>= g) :=
  Eats.advance_weight fun _ =>
    hNext.mono (Nat.le_refl _) (Nat.sub_le_sub_left (weight_pos token) n)

/-- Where two tokens are given and the first is consumed, the second is the next one. -/
theorem Eats₂.advance {f g : Token → Parser α}
    (hNext : SameAt next (m - 1) (n - 1) (f token) (g token)) :
    Eats₂ token next m n (Jq.advance >>= f) (Jq.advance >>= g) := by
  intro pos front hFront hm hn
  have hPositive := weight_pos token
  rw [weight_cons] at hn
  have hTail := @left_tail token pos (next :: front) hFront
  obtain ⟨hSame, hSettled⟩ := hNext (pos + 1) front hTail.noEof (by omega) (by omega)
  rw [bind_apply, bind_apply, advance_eq]
  exact ⟨hSame, hSettled⟩

/-- A loop gets as many rounds as tokens are left, one more than the ones in front of the end. -/
theorem Same.remaining {f g : Nat → Parser α} (hNext : ∀ k, k < m → Same (k + 1) n (f (k + 1)) (g (k + 1))) :
    Same m n (Jq.remaining >>= f) (Jq.remaining >>= g) := by
  intro pos front hFront hm hn
  have hLength : (front ++ [Token.eof]).length = front.length + 1 := by simp
  have hSame := hNext front.length hm pos front hFront (Nat.lt_succ_self _) hn
  rw [← hLength] at hSame
  exact hSame

/-- A token is consumed where it is found. -/
theorem Same.ite_advance {found : Token → Prop} [DecidablePred found] {f g : Parser α}
    {f' g' : Token → Parser α} (hEof : ¬ found .eof) (hFound : Same (m - 1) (n - 1) f g)
    (hOther : ∀ t m, Same m n (f' t) (g' t)) :
    Same m n (Jq.peek >>= fun t => if found t then Jq.advance >>= fun _ => f else f' t)
      (Jq.peek >>= fun t => if found t then Jq.advance >>= fun _ => g else g' t) := by
  apply Same.peek
  · intro t _
    by_cases hToken : found t
    · rw [if_pos hToken, if_pos hToken]
      exact (Eats.advance hFound).sameAt
    · rw [if_neg hToken, if_neg hToken]
      exact (hOther t m).at_
  · rw [if_neg hEof, if_neg hEof]
    exact hOther _ 1

end Rules

section Functions

variable {platform : Platform} {α : Type} {m n : Nat} {token : Token}

/-- Two parsers of a level of nesting do the same on little weight. -/
structure NestedSame (n : Nat) (N N' : Nested) : Prop where
  expr : ∀ m, Same m n N.expr N'.expr
  pipe : ∀ m, Same m n N.pipe N'.pipe
  source : ∀ source : String, source.length < n →
    N.source source = N'.source source ∧ Answers (N.source source)

/-- A token that is expected is consumed, or its absence is an error of the source. -/
theorem same_expect {what : String} (hToken : token ≠ .eof) :
    Same m n (expect platform token what) (expect platform token what) := by
  apply Same.ite_advance
  · exact Ne.symm hToken
  · exact Same.pure _
  · exact fun _ _ => Same.fail _

/-- Where the next token is given, what was expected is either that one or an error of the source.
-/
theorem eats_expect {what : String} :
    Eats token m n (expect platform token what) (expect platform token what) := by
  apply Eats.peek
  rw [if_pos rfl]
  apply Eats.advance
  exact Same.pure _

/-- So is a keyword. -/
theorem same_expectKeyword (keyword : String) :
    Same m n (expectKeyword platform keyword) (expectKeyword platform keyword) := by
  apply Same.ite_advance (by nofun)
  · exact Same.pure _
  · exact fun _ _ => Same.fail _

/-- The rounds of a loop are bounded by the tokens that are left. -/
theorem same_zero {P Q : Parser α} : Same 0 n P Q :=
  fun _ _ _ hm _ => absurd hm (Nat.not_lt_zero _)

/-- A chain of operators never runs out of rounds, as each round consumes an operator. The induction
is on the rounds. -/
theorem same_chain {operand operand' : Parser Expr} {operator : Token → Option (Expr → Expr → Expr)}
    (hOperand : ∀ m, Same m n operand operand') (hEof : operator .eof = none) : ∀ fuel left,
      Same fuel n (chain operand operator fuel left) (chain operand' operator fuel left) := by
  intro fuel
  induction fuel with
  | zero => exact fun _ => same_zero
  | succ fuel ih =>
      intro left
      apply Same.peek
      · intro t _
        cases operator t with
        | none => exact (Same.pure _).at_
        | some build =>
            have hStep := (hOperand fuel).bind fun right => ih (build left right)
            apply Eats.sameAt
            apply Eats.advance
            exact hStep.mono (Nat.le_refl _) (Nat.sub_le n 1)
      · rw [hEof]
        exact Same.pure _

/-- A level does the same when its operand does. -/
theorem same_level {operand operand' : Parser Expr} {operator : Token → Option (Expr → Expr → Expr)}
    (hOperand : ∀ m, Same m n operand operand') (hEof : operator .eof = none) (m : Nat) :
    Same m n (level operand operator) (level operand' operator) :=
  (hOperand m).bind fun left => Same.remaining fun k _ => same_chain hOperand hEof (k + 1) left

variable {N N' : Nested} (same : NestedSame n N N')
include same

/-- What stands in brackets is parsed a level of nesting deeper, and the bracket itself is weight
that the deeper level does not see. -/
theorem same_parseBracket (base : Expr) : Eats .lBracket m (n + 1) (parseBracket platform N base)
    (parseBracket platform N' base) := by
  have hIndex : ∀ m, Same m n
      (N.expr >>= fun index => expect platform .rBracket "`]`" >>= fun _ => pure (Expr.index base index))
      (N'.expr >>= fun index =>
        expect platform .rBracket "`]`" >>= fun _ => pure (Expr.index base index)) :=
    fun m => (same.expr m).bind fun index => (same_expect (by nofun)).bind fun _ => Same.pure _
  apply Eats.peek2
  · intro t _
    by_cases hClose : t = .rBracket
    · subst hClose
      apply Eats₂.advance
      apply Eats.sameAt
      apply Eats.advance
      exact Same.pure _
    · rw [if_neg hClose, if_neg hClose]
      exact (Eats.advance (hIndex _)).at_
  · exact Eats.advance (hIndex _)

/-- The first names of a path. Each round consumes a dot, or ends the loop. -/
theorem same_dotChain : ∀ fuel base, Same fuel (n + 1) (dotChain platform N fuel base)
    (dotChain platform N' fuel base) := by
  intro fuel
  induction fuel with
  | zero => exact fun _ => same_zero
  | succ fuel ih =>
      have hRest : ∀ base, Same fuel n (dotChain platform N fuel base)
          (dotChain platform N' fuel base) := fun base => (ih base).mono (Nat.le_refl _) (Nat.le_succ n)
      intro base
      apply Same.peek
      · intro t _
        cases fieldName? t with
        | some name =>
            apply Eats.sameAt
            apply Eats.advance
            exact hRest _
        | none =>
            by_cases hOpen : t = .lBracket
            · subst hOpen
              apply Eats.sameAt
              apply (same_parseBracket same base).bind
              exact hRest
            · rw [if_neg hOpen, if_neg hOpen]
              exact (Same.pure _).at_
      · exact Same.pure _

/-- The further branches of an `if` are parsed with the nested parsers, after a keyword that pays
for the depth. -/
theorem same_parseElseTail (m : Nat) : Same m n (parseElseTail N) (parseElseTail N') := by
  have hNested : ∀ m, Same m (n - 1) N.expr N'.expr :=
    fun m => (same.expr m).mono (Nat.le_refl _) (Nat.sub_le n 1)
  refine Same.ite_advance (by nofun) (hNested _) fun _ m => ?_
  apply Same.peek
  · intro t _
    by_cases hElif : t = .ident "elif"
    · rw [if_pos hElif, if_pos hElif]
      exact (same.expr m).at_
    · rw [if_neg hElif, if_neg hElif]
      exact (Same.pure _).at_
  · exact Same.pure _

/-- An `if` consumes its keyword, which pays for the depth of its condition and its branches. -/
theorem same_parseIf : Eats token m (n + 1) (parseIf platform N) (parseIf platform N') := by
  have hTail := same_parseElseTail same
  have hKeyword : ∀ m keyword, Same m n (expectKeyword platform keyword)
      (expectKeyword platform keyword) := fun _ keyword => same_expectKeyword keyword
  apply Eats.advance
  refine (same.expr _).bind fun cond => (same_expectKeyword _).bind fun _ =>
    (same.expr _).bind fun thenBranch => ?_
  apply Same.ite_advance (by nofun)
  · have hAll : ∀ m, Same m n _ _ := fun m => (same.expr m).bind fun elifCond =>
      (hKeyword m "then").bind fun _ => (same.expr m).bind fun elifBody =>
        (hTail m).bind fun elseBranch => (hKeyword m "end").bind fun _ =>
          Same.pure (Expr.if_ cond thenBranch (.if_ elifCond elifBody elseBranch))
    exact (hAll _).mono (Nat.le_refl _) (Nat.sub_le n 1)
  · exact fun _ m => (hTail m).bind fun _ => (same_expectKeyword _).bind fun _ => Same.pure _

/-- The arguments of a call. Each round but the last consumes a comma. -/
theorem same_argsLoop : ∀ fuel, Same fuel n (argsLoop N fuel) (argsLoop N' fuel) := by
  intro fuel
  induction fuel with
  | zero => exact same_zero
  | succ fuel ih =>
      refine (same.pipe _).bind fun arg => ?_
      apply Same.ite_advance (by nofun)
      · exact (ih.bind fun _ => Same.pure _).mono (Nat.le_refl _) (Nat.sub_le n 1)
      · exact fun _ _ => Same.pure _

/-- The arguments have a round for each token that is left. -/
theorem same_parseArgs (m : Nat) : Same m n (parseArgs N) (parseArgs N') := by
  have hLoop : ∀ m, Same m n (remaining >>= argsLoop N) (remaining >>= argsLoop N') :=
    fun m => Same.remaining fun k _ => same_argsLoop same (k + 1)
  apply Same.peek
  · intro t _
    by_cases hClose : t = .rParen
    · rw [if_pos hClose, if_pos hClose]
      exact (Same.pure _).at_
    · rw [if_neg hClose, if_neg hClose]
      exact (hLoop m).at_
  · exact hLoop 1

/-- The elements of an array, in the same way. -/
theorem same_arrayLoop : ∀ fuel, Same fuel n (arrayLoop N fuel) (arrayLoop N' fuel) := by
  intro fuel
  induction fuel with
  | zero => exact same_zero
  | succ fuel ih =>
      refine (same.pipe _).bind fun e => ?_
      apply Same.ite_advance (by nofun)
      · exact (ih.bind fun _ => Same.pure _).mono (Nat.le_refl _) (Nat.sub_le n 1)
      · exact fun _ _ => Same.pure _

/-- A computed key, behind the parenthesis that pays for it. -/
theorem same_objectKey_tail : Same m n
    (N.pipe >>= fun e => expect platform .rParen "`)`" >>= fun _ => pure (ObjKey.computed e))
    (N'.pipe >>= fun e => expect platform .rParen "`)`" >>= fun _ => pure (ObjKey.computed e)) :=
  (same.pipe m).bind fun _ => (same_expect (by nofun)).bind fun _ => Same.pure _

/-- The keys of an object. A string among them may hold interpolations, which weigh more than their
sources are long. -/
theorem same_parseObjectKey (m : Nat) :
    Same m (n + 1) (parseObjectKey platform N) (parseObjectKey platform N') := by
  have hKey : ∀ {token : Token} (key : ObjKey), SameAt token m (n + 1)
      (advance >>= fun _ => pure key) (advance >>= fun _ => pure key) := by
    intro token key
    apply Eats.sameAt
    apply Eats.advance
    exact Same.pure key
  apply Same.peek
  · intro t _
    cases t with
    | ident name => exact hKey _
    | str s => exact hKey _
    | var name => exact hKey _
    | lParen =>
        apply Eats.sameAt
        apply Eats.advance
        exact same_objectKey_tail same
    | _ => exact (Same.fail _).at_
  · exact Same.fail _

/-- The entries of an object. Each round consumes a key at least. -/
theorem same_objectLoop : ∀ fuel,
    Same fuel n (objectLoop platform N fuel) (objectLoop platform N' fuel) := by
  intro fuel
  induction fuel with
  | zero => exact same_zero
  | succ fuel ih =>
      have hKey : Same (fuel + 1) n (parseObjectKey platform N) (parseObjectKey platform N') :=
        (same_parseObjectKey same (fuel + 1)).mono (Nat.le_refl _) (Nat.le_succ n)
      refine hKey.bind fun key => (same_expect (by nofun)).bind fun _ =>
        (same.pipe _).bind fun value => ?_
      apply Same.ite_advance (by nofun)
      · exact (ih.bind fun _ => Same.pure _).mono (Nat.le_refl _) (Nat.sub_le n 1)
      · exact fun _ _ => Same.pure _

/-- An array consumes its bracket, which pays for the depth of its elements. -/
theorem same_parseArray :
    Eats .lBracket m (n + 1) (parseArray platform N) (parseArray platform N') := by
  have hLoop : ∀ m, Same m n
      (remaining >>= fun fuel => arrayLoop N fuel >>= fun elems =>
        expect platform .rBracket "`]`" >>= fun _ => pure (Expr.array elems))
      (remaining >>= fun fuel => arrayLoop N' fuel >>= fun elems =>
        expect platform .rBracket "`]`" >>= fun _ => pure (Expr.array elems)) :=
    fun m => Same.remaining fun k _ => (same_arrayLoop same (k + 1)).bind fun _ =>
      (same_expect (by nofun)).bind fun _ => Same.pure _
  refine eats_expect.bind fun _ => ?_
  apply Same.ite_advance (by nofun)
  · exact Same.pure _
  · exact fun _ m => hLoop m

/-- An object consumes its brace. -/
theorem same_parseObject :
    Eats .lBrace m (n + 1) (parseObject platform N) (parseObject platform N') := by
  have hLoop : ∀ m, Same m n
      (remaining >>= fun fuel => objectLoop platform N fuel >>= fun entries =>
        expect platform .rBrace "`\x7d`" >>= fun _ => pure (Expr.object entries))
      (remaining >>= fun fuel => objectLoop platform N' fuel >>= fun entries =>
        expect platform .rBrace "`\x7d`" >>= fun _ => pure (Expr.object entries)) :=
    fun m => Same.remaining fun k _ => (same_objectLoop same (k + 1)).bind fun _ =>
      (same_expect (by nofun)).bind fun _ => Same.pure _
  refine eats_expect.bind fun _ => ?_
  apply Same.ite_advance (by nofun)
  · exact Same.pure _
  · exact fun _ m => hLoop m

omit same in
/-- A result of another level, which takes no tokens. -/
theorem Same.lift {x y : Except LangError α} (hEqual : x = y) (hSettled : Answers x) :
    Same m n (liftM x : Parser α) (liftM y : Parser α) := by
  subst hEqual
  intro pos front hFront _ _
  refine ⟨rfl, ?_⟩
  show Settled pos front (x >>= fun a => Pure.pure (a, (⟨pos, front ++ [.eof]⟩ : Cursor)))
  cases x with
  | error e => exact hSettled
  | ok a => exact ⟨front, rfl, Left.refl hFront⟩

/-- The parts of a string. The source of an interpolation is parsed from its own text, which is
shorter than the token is heavy. -/
theorem same_stringParts : ∀ fuel, Same fuel (n + 1) (stringParts N fuel) (stringParts N' fuel) := by
  intro fuel
  induction fuel with
  | zero => exact same_zero
  | succ fuel ih =>
      apply Same.peek
      · intro t _
        cases t with
        | str s =>
            apply Eats.sameAt
            apply Eats.advance
            exact (ih.bind fun _ => Same.pure _).mono (Nat.le_refl _) (Nat.le_succ n)
        | interp source =>
            apply Eats.sameAt
            apply Eats.advance_weight
            intro hWeight
            have hSource : source.length < n := by
              have hWeight : source.length + 1 < n + 1 := hWeight
              omega
            obtain ⟨hEqual, hSettled⟩ := same.source source hSource
            refine (Same.lift hEqual hSettled).bind fun inner => ?_
            exact (ih.bind fun _ => Same.pure _).mono (Nat.le_refl _) (Nat.sub_le _ _)
        | _ => exact (Same.pure _).at_
      · exact Same.pure _

/-- The parts have a round for each token that is left. -/
theorem same_parseStringParts (m : Nat) :
    Same m (n + 1) (parseStringParts N) (parseStringParts N') :=
  Same.remaining fun k _ => (same_stringParts same (k + 1)).bind fun _ => Same.pure _

/-- What an identifier starts. A keyword or a call without arguments consumes its name; behind the
parenthesis of any other call the arguments are parsed a level deeper. -/
theorem same_parseIdentPrimary (ident : String) :
    Eats token m (n + 1) (parseIdentPrimary platform N ident)
      (parseIdentPrimary platform N' ident) := by
  have hLiteral : ∀ e : Expr, Eats token m (n + 1) (advance >>= fun _ => pure e)
      (advance >>= fun _ => pure e) := by
    intro e
    apply Eats.advance
    exact Same.pure e
  have hArgs : ∀ m, Same m n
      (parseArgs N >>= fun args => expect platform .rParen "`)`" >>= fun _ => pure (Expr.call ident args))
      (parseArgs N' >>= fun args =>
        expect platform .rParen "`)`" >>= fun _ => pure (Expr.call ident args)) :=
    fun m => (same_parseArgs same m).bind fun _ => (same_expect (by nofun)).bind fun _ => Same.pure _
  rw [parseIdentPrimary, parseIdentPrimary]
  by_cases hTrue : ident = "true"
  · rw [if_pos hTrue, if_pos hTrue]
    exact hLiteral _
  · rw [if_neg hTrue, if_neg hTrue]
    by_cases hFalse : ident = "false"
    · rw [if_pos hFalse, if_pos hFalse]
      exact hLiteral _
    · rw [if_neg hFalse, if_neg hFalse]
      by_cases hNull : ident = "null"
      · rw [if_pos hNull, if_pos hNull]
        exact hLiteral _
      · rw [if_neg hNull, if_neg hNull]
        by_cases hIf : ident = "if"
        · rw [if_pos hIf, if_pos hIf]
          exact same_parseIf same
        · rw [if_neg hIf, if_neg hIf]
          apply Eats.peek2
          · intro t _
            by_cases hOpen : t = .lParen
            · subst hOpen
              apply Eats₂.advance
              apply Eats.sameAt
              apply Eats.advance
              exact (hArgs _).mono (Nat.le_refl _) (Nat.sub_le n 1)
            · rw [if_neg hOpen, if_neg hOpen]
              exact (hLiteral _).at_
          · exact hLiteral _

/-- The base of a path, by its first token. Each of the cases consumes the token before it goes a
level deeper. -/
theorem same_parseBase (m : Nat) :
    Same m (n + 1) (parseBase platform N) (parseBase platform N') := by
  have hLiteral : ∀ {token : Token} (e : Expr), SameAt token m (n + 1) (advance >>= fun _ => pure e)
      (advance >>= fun _ => pure e) := by
    intro token e
    apply Eats.sameAt
    apply Eats.advance
    exact Same.pure e
  apply Same.peek
  · intro t ht
    cases t with
    | dot =>
        apply Eats.sameAt
        apply Eats.advance
        exact Same.remaining fun k _ => (same_dotChain same (k + 1) .identity).mono (Nat.le_refl _)
          (Nat.le_succ n)
    | recursiveDot => exact hLiteral _
    | var name => exact hLiteral _
    | number x => exact hLiteral _
    | str s => exact (same_parseStringParts same m).at_
    | interp source => exact (same_parseStringParts same m).at_
    | lBracket => exact (same_parseArray same).sameAt
    | lBrace => exact (same_parseObject same).sameAt
    | lParen =>
        apply Eats.sameAt
        apply Eats.advance
        exact (same.expr _).bind fun _ => (same_expect (by nofun)).bind fun _ => Same.pure _
    | ident name => exact (same_parseIdentPrimary same name).sameAt
    | eof => exact absurd rfl ht
    | _ => exact (Same.fail _).at_
  · exact Same.fail _

/-- The suffixes of a path. Each round consumes a dot, a bracket or a question mark. -/
theorem same_postfixLoop : ∀ fuel base, Same fuel (n + 1) (postfixLoop platform N fuel base)
    (postfixLoop platform N' fuel base) := by
  intro fuel
  induction fuel with
  | zero => exact fun _ => same_zero
  | succ fuel ih =>
      have hRest : ∀ base, Same fuel n (postfixLoop platform N fuel base)
          (postfixLoop platform N' fuel base) := fun base => (ih base).mono (Nat.le_refl _) (Nat.le_succ n)
      intro base
      apply Same.peek
      · intro t _
        cases t with
        | dot =>
            apply SameAt.peek2
            · intro u _
              cases fieldName? u with
              | some name =>
                  left
                  apply Eats₂.advance
                  apply Eats.sameAt
                  apply Eats.advance
                  exact (hRest _).mono (Nat.sub_le fuel 1) (Nat.sub_le n 1)
              | none =>
                  right
                  exact Same.pure _
            · exact Same.pure _
        | lBracket =>
            apply Eats.sameAt
            apply (same_parseBracket same base).bind
            exact hRest
        | _ => exact (Same.pure _).at_
      · exact Same.pure _

/-- A path does the same, as its base and its suffixes do. -/
theorem same_parsePostfix (m : Nat) :
    Same m (n + 1) (parsePostfix platform N) (parsePostfix platform N') :=
  (same_parseBase same m).bind fun base => Same.remaining fun k _ =>
    same_postfixLoop same (k + 1) base

/-- The signs in front of a path, one of them a round. -/
theorem same_unaryLoop : ∀ fuel,
    Same fuel (n + 1) (unaryLoop platform N fuel) (unaryLoop platform N' fuel) := by
  have hPostfix : ∀ m, Same m (n + 1) (parsePostfix platform N) (parsePostfix platform N') :=
    same_parsePostfix same
  intro fuel
  induction fuel with
  | zero => exact same_zero
  | succ fuel ih =>
      have hRest : ∀ op, Same fuel n (unaryLoop platform N fuel >>= fun e => pure (Expr.unary op e))
          (unaryLoop platform N' fuel >>= fun e => pure (Expr.unary op e)) :=
        fun op => (ih.bind fun _ => Same.pure _).mono (Nat.le_refl _) (Nat.le_succ n)
      apply Same.peek
      · intro t _
        by_cases hNot : t = .ident "not"
        · rw [if_pos hNot, if_pos hNot]
          apply Eats.sameAt
          apply Eats.advance
          exact hRest _
        · rw [if_neg hNot, if_neg hNot]
          by_cases hMinus : t = .minus
          · rw [if_pos hMinus, if_pos hMinus]
            apply Eats.sameAt
            apply Eats.advance
            exact hRest _
          · rw [if_neg hMinus, if_neg hMinus]
            exact (hPostfix _).at_
      · exact hPostfix 1

/-- The levels of operators, from the unary one up to the pipe. -/
theorem same_parsePipe (m : Nat) :
    Same m (n + 1) (parsePipe platform N) (parsePipe platform N') := by
  have hUnary : ∀ m, Same m (n + 1) (parseUnary platform N) (parseUnary platform N') :=
    fun m => Same.remaining fun k _ => same_unaryLoop same (k + 1)
  have hMult : ∀ m, Same m (n + 1) (parseMult platform N) (parseMult platform N') :=
    same_level hUnary rfl
  have hAdditive : ∀ m, Same m (n + 1) (parseAdditive platform N) (parseAdditive platform N') :=
    same_level hMult rfl
  have hCompare : ∀ m, Same m (n + 1) (parseCompare platform N) (parseCompare platform N') :=
    same_level hAdditive rfl
  have hAnd : ∀ m, Same m (n + 1) (parseAnd platform N) (parseAnd platform N') :=
    same_level hCompare rfl
  have hOr : ∀ m, Same m (n + 1) (parseOr platform N) (parseOr platform N') :=
    same_level hAnd rfl
  exact same_level hOr rfl m

/-- The parts of an expression, one comma a round. -/
theorem same_commaLoop : ∀ fuel,
    Same fuel (n + 1) (commaLoop platform N fuel) (commaLoop platform N' fuel) := by
  intro fuel
  induction fuel with
  | zero => exact same_zero
  | succ fuel ih =>
      apply Same.ite_advance (by nofun)
      · have hPipe : ∀ m, Same m (n + 1) (parsePipe platform N) (parsePipe platform N') :=
          same_parsePipe same
        exact ((hPipe fuel).bind fun _ => ih.bind fun _ => Same.pure _).mono (Nat.le_refl _)
          (Nat.le_succ n)
      · exact fun _ _ => Same.pure _

/-- An expression of little weight is parsed alike with either of two nested parsers that parse the
lighter ones alike. -/
theorem same_parseExpr (m : Nat) :
    Same m (n + 1) (parseExpr platform N) (parseExpr platform N') :=
  (same_parsePipe same m).bind fun _ => Same.remaining fun k _ =>
    (same_commaLoop same (k + 1)).bind fun _ => Same.pure _

end Functions

section Lexer

variable {platform : Platform} {total : Nat}

/-- The characters that were read as a literal weigh at least as much as the token they become. -/
theorem weight_flush_le (literal : List Char) : weight (flush literal) ≤ literal.length := by
  rw [flush]
  cases literal with
  | nil => exact Nat.le_refl 0
  | cons c literal =>
      rw [if_neg (by simp)]
      exact Nat.succ_le_succ (Nat.zero_le _)

/-- The tokens of a string weigh less than its text, counting what was read before. -/
theorem ReadsString.weight_le {literal text last : List Char} {tokens : List Token}
    (reads : ReadsString literal text tokens last) :
    weight tokens + last.length < literal.length + text.length := by
  induction reads with
  | @quote literal rest =>
      have hFlush := weight_flush_le literal
      simp only [List.length_cons]
      omega
  | @step literal text literal' rest last tokens more step tail ih =>
      rw [weight_append]
      cases step with
      | interp hSource =>
          have hLength := length_interpSource hSource
          have hFlush := weight_flush_le literal
          rw [weight_append]
          simp only [weight_cons, weight_nil, Token.weight, String.length_ofList, List.length_cons,
            List.length_nil] at ih ⊢
          omega
      | @hex digits rest code hDigits hCode =>
          have hChar : (charOf? code).toList.length ≤ 1 := by cases charOf? code <;> simp
          simp only [weight_nil, List.length_append, List.length_cons] at ih ⊢
          omega
      | _ =>
          simp only [weight_nil, List.length_append, List.length_cons, List.length_nil] at ih ⊢
          omega

/-- A token of the lexer, and those of a string, weigh no more than the text they were read from. -/
theorem weight_readToken_le {c : Char} {text rest : List Char} {batch : List Token}
    (hRead : readToken total platform c text = .ok (batch, rest)) :
    weight batch + rest.length ≤ text.length + 1 := by
  have hRest := length_readToken_le hRead
  have hOne : ∀ {token : Token}, token.weight = 1 → weight [token] + rest.length ≤ text.length + 1 := by
    intro token hToken
    rw [weight_cons, weight_nil, hToken]
    omega
  rw [readToken] at hRead
  cases hOperator : text.head?.bind fun d => operators2.lookup (c, d) with
  | some token =>
      rw [hOperator] at hRead
      cases hRead
      obtain ⟨d, _, hToken⟩ := Option.bind_eq_some_iff.mp hOperator
      have hAll : ∀ e ∈ operators2, e.2.weight = 1 := by decide
      exact hOne (hAll _ (mem_of_lookup hToken))
  | none =>
      rw [hOperator] at hRead
      simp only at hRead
      cases hSingle : singles.lookup c with
      | some token =>
          rw [hSingle] at hRead
          cases hRead
          have hAll : ∀ e ∈ singles, e.2.weight = 1 := by decide
          exact hOne (hAll _ (mem_of_lookup hSingle))
      | none =>
          rw [hSingle] at hRead
          simp only at hRead
          split_ifs at hRead
          · cases hRead
            exact hOne rfl
          · rw [readStringTokens] at hRead
            obtain ⟨found, hFound, hRead⟩ := bind_eq_ok hRead
            cases hRead
            have hWeight := (readsString_of_readString _ _ _ hFound).weight_le
            rw [List.length_nil] at hWeight
            split_ifs
            · exact hOne rfl
            · omega
          · obtain ⟨found, hFound, hRead⟩ := bind_eq_ok hRead
            cases hRead
            have hNumber : ∃ value, found.1 = .number value := by
              rw [readNumber] at hFound
              cases hValue : (splitNumber (c :: text)).1.value? with
              | none => simp [hValue] at hFound
              | some value =>
                  simp only [hValue, Except.ok.injEq] at hFound
                  exact ⟨value, by rw [← hFound]⟩
            obtain ⟨value, hValue⟩ := hNumber
            exact hOne (by rw [hValue]; rfl)
          · cases hRead
            exact hOne rfl

/-- The tokens of a text weigh no more than the text is long. -/
theorem Lexes.weight_le {text last : List Char} {tokens : List Token}
    (lexes : Lexes platform text tokens last) : weight tokens + last.length ≤ text.length := by
  induction lexes with
  | done => simp [weight_nil]
  | blank _ _ ih =>
      rw [List.length_cons]
      omega
  | comment _ _ ih =>
      simp only [List.length_cons, List.length_append] at ih ⊢
      omega
  | batch _ _ hRead _ ih =>
      have hBatch := weight_readToken_le (hRead 0)
      rw [weight_append, List.length_cons]
      omega

/-- With more rounds than there are characters, the lexer reads a string to its end, or finds an
error in it. The induction is on the rounds, each of which reads a character. -/
theorem readString_answers : ∀ (fuel : Nat) (literal text : List Char), text.length < fuel →
    Answers (readString total fuel literal text)
  | 0, _, _, hFuel => absurd hFuel (Nat.not_lt_zero _)
  | _ + 1, _, [], _ => trivial
  | fuel + 1, literal, c :: text, hFuel => by
      rw [List.length_cons] at hFuel
      have hNext : ∀ literal text', text'.length ≤ text.length →
          Answers (readString total fuel literal text') :=
        fun literal text' hLength => readString_answers fuel literal text' (by omega)
      rw [readString.eq_def]
      simp only
      split_ifs
      · trivial
      · cases text with
        | nil => trivial
        | cons esc more =>
            simp only
            have hMore : ∀ literal text', text'.length ≤ more.length →
                Answers (readString total fuel literal text') :=
              fun literal text' hLength => hNext literal text' (by rw [List.length_cons]; omega)
            split_ifs
            · cases hSource : readInterpSource 1 more with
              | none => trivial
              | some found =>
                  have hLength := length_interpSource hSource
                  exact (hMore [] found.2 (by omega)).bind fun _ _ => trivial
            · cases hexValue? (more.take 4) with
              | none => trivial
              | some code => exact hMore _ _ (by rw [List.length_drop]; omega)
            · cases unescape? esc with
              | none => exact hMore _ _ (Nat.le_refl _)
              | some plain => exact hMore _ _ (Nat.le_refl _)
      · exact hNext _ _ (Nat.le_refl _)

/-- Reading a token ends in tokens or in an error of the lexer, whichever character it begins with.
-/
theorem readToken_answers (c : Char) (text : List Char) :
    Answers (readToken total platform c text) := by
  rw [readToken]
  cases text.head?.bind fun d => operators2.lookup (c, d) with
  | some token => trivial
  | none =>
      cases singles.lookup c with
      | some token => trivial
      | none =>
          simp only
          split_ifs
          · trivial
          · have hString : Answers (readStringTokens total text) :=
              (readString_answers _ _ _ (Nat.lt_succ_self _)).bind fun _ _ => trivial
            exact hString
          · have hNumber : Answers (readNumber total (c :: text)) := by
              rw [readNumber]
              cases hValue : (splitNumber (c :: text)).1.value? <;> simp only [hValue] <;> trivial
            exact hNumber.bind fun _ _ => trivial
          · trivial
          · trivial

/-- The tokens of a whole text, with more rounds than it has characters. -/
theorem tokenizeFrom_answers : ∀ (fuel : Nat) (text : List Char), text.length < fuel →
    Answers (tokenizeFrom total platform fuel text)
  | 0, _, hFuel => absurd hFuel (Nat.not_lt_zero _)
  | fuel + 1, text, hFuel => by
      rw [tokenizeFrom, nextTokens]
      have hLength := length_skipBlank_le false text
      cases hSkip : skipBlank false text with
      | nil => trivial
      | cons c more =>
          rw [hSkip, List.length_cons] at hLength
          refine (readToken_answers c more).bind fun r hRead => ?_
          have hRest := length_readToken_le hRead
          by_cases hEof : r.1.head? = some .eof
          · simp only [if_pos hEof]
            trivial
          · simp only [if_neg hEof]
            exact (tokenizeFrom_answers fuel r.2 (by omega)).bind fun _ _ => trivial

end Lexer

section Depth

variable {platform : Platform}

theorem error_bind {ε α β : Type} (e : ε) (f : α → Except ε β) :
    (Except.error e >>= f) = Except.error e := rfl

/-- The lexer never panics, and never comes to the end of its recursion. -/
theorem tokenize_answers (source : String) : Answers (tokenize platform source) :=
  tokenizeFrom_answers _ _ (by rw [String.length_toList]; omega)

/-- The tokens of a source weigh no more than it is long: this bounds the nesting that the parser
can find in it. -/
theorem weight_of_tokenize {source : String} {front : List Token} (hFront : NoEof front)
    (hTokenize : tokenize platform source = .ok (front ++ [.eof])) : weight front ≤ source.length := by
  obtain ⟨last, hLexes, _⟩ := (tokenize_eq_ok_iff hFront).mp hTokenize
  have hLess := hLexes.weight_le
  rw [String.length_toList] at hLess
  omega

/-- A source is parsed alike by all levels of nesting that are deeper than it is long. -/
theorem NestedSame.parseSource {n : Nat} {N N' : Nested} (same : NestedSame n N N')
    {source : String} (hLength : source.length < n + 1) :
    parseSource platform N source = parseSource platform N' source ∧
      Answers (Jq.parseSource platform N source) := by
  rw [parseSource_eq, parseSource_eq]
  have hAnswers := @tokenize_answers platform source
  cases hTokenize : tokenize platform source with
  | error e =>
      rw [hTokenize] at hAnswers
      rw [error_bind, error_bind]
      exact ⟨rfl, hAnswers⟩
  | ok tokens =>
      obtain ⟨front, rfl, hFront⟩ := tokenizeFrom_shape _ _ hTokenize
      have hWeight : weight front < n + 1 :=
        Nat.lt_of_le_of_lt (weight_of_tokenize hFront hTokenize) hLength
      have hExpr : Same (front.length + 1) (n + 1) (parseExpr platform N) (parseExpr platform N') :=
        same_parseExpr same _
      obtain ⟨hSame, hSettled⟩ := hExpr 0 front hFront (Nat.lt_succ_self _) hWeight
      rw [ok_bind, ok_bind, ← hSame]
      refine ⟨rfl, ?_⟩
      cases hRun : Jq.parseExpr platform N ⟨0, front ++ [.eof]⟩ with
      | error e =>
          rw [hRun] at hSettled
          exact hSettled
      | ok r =>
          rw [hRun] at hSettled
          obtain ⟨front', hRest, _⟩ := hSettled
          rw [ok_bind, complete]
          cases front' with
          | nil =>
              rw [peek_of_rest hRest]
              trivial
          | cons t front' =>
              rw [peek_of_rest hRest]
              simp only
              split_ifs <;> trivial

/-- All depths from some depth on parse alike what weighs less than that. The induction is on the
depth, and each level of nesting has taken a token from the weight. -/
theorem parserAt_same : ∀ d m n, d ≤ m → d ≤ n →
    NestedSame d (parserAt platform m) (parserAt platform n) := by
  intro d
  induction d with
  | zero =>
      intro m n _ _
      exact ⟨fun _ _ _ _ _ hn => absurd hn (Nat.not_lt_zero _),
        fun _ _ _ _ _ hn => absurd hn (Nat.not_lt_zero _),
        fun _ hn => absurd hn (Nat.not_lt_zero _)⟩
  | succ d ih =>
      intro m n hm hn
      obtain ⟨m, rfl⟩ : ∃ k, m = k + 1 := ⟨m - 1, by omega⟩
      obtain ⟨n, rfl⟩ : ∃ k, n = k + 1 := ⟨n - 1, by omega⟩
      have same := ih m n (by omega) (by omega)
      exact ⟨same_parseExpr same, same_parsePipe same, fun _ hLength => same.parseSource hLength⟩

/-- The parser stays within the tokens of a source. -/
theorem parseExpr_settled {source : String} {front : List Token} (hFront : NoEof front)
    (hTokenize : tokenize platform source = .ok (front ++ [.eof])) :
    Settled 0 front (parseExpr platform (parserAt platform source.length) ⟨0, front ++ [.eof]⟩) := by
  have hWeight := weight_of_tokenize hFront hTokenize
  have same := @parserAt_same platform _ _ _ (Nat.le_refl source.length) (Nat.le_refl source.length)
  exact (same_parseExpr same (front.length + 1) 0 front hFront (Nat.lt_succ_self _) (by omega)).2

/-- Any depth beyond the length of a source will do. -/
theorem parserAt_source_eq_parse {source : String} {depth : Nat} (hDepth : source.length < depth) :
    (parserAt platform depth).source source = parse platform source :=
  ((parserAt_same (source.length + 1) depth (source.length + 1) hDepth (Nat.le_refl _)).source source
    (Nat.lt_succ_self _)).1

/-- The parser never gives up and never panics. -/
theorem parse_answers (source : String) : Answers (parse platform source) :=
  ((parserAt_same (source.length + 1) (source.length + 1) (source.length + 1) (Nat.le_refl _)
    (Nat.le_refl _)).source source (Nat.lt_succ_self _)).2

/-- The parse of a source depends on its tokens only. -/
theorem parse_of_same_tokens {first second : String} {tokens : List Token} {last last' : List Char}
    {e : Expr} (hFirst : Lexes platform first.toList tokens last) (hLast : Finished last)
    (hSecond : Lexes platform second.toList tokens last') (hLast' : Finished last')
    (hTokens : NoEof tokens) (hParse : parse platform first = .ok e) :
    parse platform second = .ok e := by
  have hSame : tokenize platform first = tokenize platform second :=
    ((tokenize_eq_ok_iff hTokens).mpr ⟨last, hFirst, hLast⟩).trans
      ((tokenize_eq_ok_iff hTokens).mpr ⟨last', hSecond, hLast'⟩).symm
  have hDepth : (parserAt platform (max first.length second.length + 1)).source first =
      (parserAt platform (max first.length second.length + 1)).source second := by
    show parseSource platform _ first = parseSource platform _ second
    rw [parseSource_eq, parseSource_eq, hSame]
  rw [parserAt_source_eq_parse (by omega), parserAt_source_eq_parse (by omega), hParse] at hDepth
  exact hDepth.symm

end Depth

end Jq
end OwsRuntime
