import OwsRuntime.Expressions.Depth
import Mathlib.Logic.Relation

/-! How the parser goes on from the first operand of a text: everything after it is
wrapped around it, from the left. -/
namespace OwsRuntime
namespace Jq

/-- An expression whose first operand is another one. -/
inductive Wraps : Expr → Expr → Prop where
  | field (base : Expr) (name : String) : Wraps base (.field base name)
  | index (base idx : Expr) : Wraps base (.index base idx)
  | iterate (base : Expr) : Wraps base (.iterate base)
  | binary (op : BinOp) (l r : Expr) : Wraps l (.binary op l r)
  | pipe (l r : Expr) : Wraps l (.pipe l r)
  | stream (first : Expr) (more : List Expr) : Wraps first (.stream (first :: more))

/-- An expression is larger than its first operand, -/
theorem Wraps.sizeOf_lt {b e : Expr} (wraps : Wraps b e) : sizeOf b < sizeOf e := by
  cases wraps <;> simp only [Expr.field.sizeOf_spec, Expr.index.sizeOf_spec,
    Expr.iterate.sizeOf_spec, Expr.binary.sizeOf_spec, Expr.pipe.sizeOf_spec,
    Expr.stream.sizeOf_spec, List.cons.sizeOf_spec] <;> omega

/-- and so than the first operand of that one, down to the innermost. -/
theorem sizeOf_lt_of_wraps {b e : Expr} (wraps : Relation.TransGen Wraps b e) :
    sizeOf b < sizeOf e := by
  induction wraps with
  | single wraps => exact wraps.sizeOf_lt
  | tail _ wraps ih => exact Nat.lt_trans ih wraps.sizeOf_lt

/-- From one expression with the text after it to another: there is nothing more, or
the first one is wrapped. -/
def Goes (b : Expr) (c : Cursor) (e : Expr) (c' : Cursor) : Prop :=
  (e = b ∧ c' = c) ∨ Relation.TransGen Wraps b e

/-- Nothing more is taken. -/
theorem Goes.refl (b : Expr) (c : Cursor) : Goes b c b c := Or.inl ⟨rfl, rfl⟩

/-- An expression is wrapped once, and the parser goes on from there. -/
theorem Goes.wraps {b b' e : Expr} {c c' c'' : Cursor} (wraps : Wraps b b')
    (goes : Goes b' c e c') : Goes b c'' e c' := by
  right
  rcases goes with ⟨rfl, _⟩ | goes
  · exact .single wraps
  · exact .head wraps goes

/-- What goes on from a wrapped expression has gone on from the first one. -/
theorem Goes.trans {b e e' : Expr} {c c' c'' : Cursor} (first : Goes b c e c')
    (second : Goes e c' e' c'') : Goes b c e' c'' := by
  rcases first with ⟨rfl, rfl⟩ | first
  · exact second
  · rcases second with ⟨rfl, _⟩ | second
    · exact Or.inr first
    · exact Or.inr (first.trans second)

/-- The expression at the end is the first one, or wraps it. -/
theorem Goes.reflTransGen {b e : Expr} {c c' : Cursor} (goes : Goes b c e c') :
    Relation.ReflTransGen Wraps b e := by
  rcases goes with ⟨rfl, _⟩ | goes
  · exact .refl
  · exact goes.to_reflTransGen

/-- An expression that wraps no other one. -/
def Expr.IsBase (e : Expr) : Prop := ∀ b, ¬ Wraps b e

/-- An expression that wraps no other one is where the parser started, with nothing taken after it.
-/
theorem Goes.of_isBase {b e : Expr} {c c' : Cursor} (goes : Goes b c e c') (hBase : e.IsBase) :
    e = b ∧ c' = c := by
  rcases goes with h | goes
  · exact h
  · obtain ⟨b', _, wraps⟩ := Relation.TransGen.tail'_iff.mp goes
    exact absurd wraps (hBase b')

section Levels

variable {operand : Parser Expr} {operator : Token → Option (Expr → Expr → Expr)}

/-- The operators of a level wrap their left operand. -/
def WrapsLeft (operator : Token → Option (Expr → Expr → Expr)) : Prop :=
  ∀ t build, operator t = some build → ∀ l r, Wraps l (build l r)

/-- A chain of operators wraps its left operand with each of them. The induction is on the rounds.
-/
theorem chain_goes (hWraps : WrapsLeft operator) : ∀ (fuel : Nat) (left : Expr) (c : Cursor)
    {e : Expr} {c' : Cursor}, chain operand operator fuel left c = .ok (e, c') → Goes left c e c'
  | 0, _, _, _, _, hRun => by cases hRun
  | fuel + 1, left, c, e, c', hRun => by
      rw [chain] at hRun
      replace hRun := peek_run hRun
      cases hOperator : operator (c.rest.headD .eof) with
      | none =>
          rw [hOperator] at hRun
          cases hRun
          exact Goes.refl _ _
      | some build =>
          rw [hOperator] at hRun
          obtain ⟨_, middle, _, hRun⟩ := run_bind hRun
          obtain ⟨right, after, _, hRun⟩ := run_bind hRun
          exact (chain_goes hWraps fuel _ after hRun).wraps (hWraps _ build hOperator left right)

/-- So a level goes on from its first operand. -/
theorem level_goes (hWraps : WrapsLeft operator) {c c' : Cursor} {e : Expr}
    (hRun : level operand operator c = .ok (e, c')) :
    ∃ b middle, operand c = .ok (b, middle) ∧ Goes b middle e c' := by
  obtain ⟨b, middle, hOperand, hRun⟩ := run_bind hRun
  exact ⟨b, middle, hOperand, chain_goes hWraps _ b middle hRun⟩

/-- At each level, what is built has its left operand first: in a pipe, -/
theorem wrapsLeft_pipe : WrapsLeft pipeOperator := by
  intro t build hOperator l r
  cases t <;> cases hOperator
  exact .pipe l r

/-- a disjunction, -/
theorem wrapsLeft_or : WrapsLeft orOperator := by
  intro t build hOperator l r
  rw [orOperator] at hOperator
  split_ifs at hOperator
  cases hOperator
  exact .binary _ l r

/-- a conjunction, -/
theorem wrapsLeft_and : WrapsLeft andOperator := by
  intro t build hOperator l r
  rw [andOperator] at hOperator
  split_ifs at hOperator
  cases hOperator
  exact .binary _ l r

/-- a comparison, -/
theorem wrapsLeft_compare : WrapsLeft compareOperator := by
  intro t build hOperator l r
  cases t <;> cases hOperator <;> exact .binary _ l r

/-- a sum or a difference, -/
theorem wrapsLeft_additive : WrapsLeft additiveOperator := by
  intro t build hOperator l r
  cases t <;> cases hOperator <;> exact .binary _ l r

/-- and a product, a quotient or a remainder. -/
theorem wrapsLeft_mult : WrapsLeft multOperator := by
  intro t build hOperator l r
  cases t <;> cases hOperator <;> exact .binary _ l r

end Levels

section Functions

variable {platform : Platform} {nested : Nested} {c c' : Cursor} {e : Expr}

/-- A pipe goes on from the first operand of its text, through all the levels. -/
theorem pipe_goes (hRun : parsePipe platform nested c = .ok (e, c')) :
    ∃ b middle, parseUnary platform nested c = .ok (b, middle) ∧ Goes b middle e c' := by
  obtain ⟨e₁, c₁, hRun, goes₁⟩ := level_goes wrapsLeft_pipe hRun
  obtain ⟨e₂, c₂, hRun, goes₂⟩ := level_goes wrapsLeft_or hRun
  obtain ⟨e₃, c₃, hRun, goes₃⟩ := level_goes wrapsLeft_and hRun
  obtain ⟨e₄, c₄, hRun, goes₄⟩ := level_goes wrapsLeft_compare hRun
  obtain ⟨e₅, c₅, hRun, goes₅⟩ := level_goes wrapsLeft_additive hRun
  obtain ⟨e₆, c₆, hRun, goes₆⟩ := level_goes wrapsLeft_mult hRun
  exact ⟨e₆, c₆, hRun, goes₆.trans (goes₅.trans (goes₄.trans (goes₃.trans (goes₂.trans goes₁))))⟩

/-- Where there are no parts after commas, nothing has been taken. -/
theorem commaLoop_nil : ∀ (fuel : Nat) (c : Cursor) {c' : Cursor},
    commaLoop platform nested fuel c = .ok ([], c') → c' = c
  | 0, _, _, hRun => by cases hRun
  | fuel + 1, c, c', hRun => by
      rw [commaLoop] at hRun
      replace hRun := peek_run hRun
      split_ifs at hRun
      · obtain ⟨_, _, _, hRun⟩ := run_bind hRun
        obtain ⟨_, _, _, hRun⟩ := run_bind hRun
        obtain ⟨_, _, _, hRun⟩ := run_bind hRun
        cases hRun
      · cases hRun
        rfl

/-- A whole expression goes on from its first operand: a stream wraps its first part. -/
theorem expr_goes (hRun : parseExpr platform nested c = .ok (e, c')) :
    ∃ b middle, parseUnary platform nested c = .ok (b, middle) ∧ Goes b middle e c' := by
  obtain ⟨first, c₁, hFirst, hRun⟩ := run_bind hRun
  obtain ⟨b, middle, hUnary, goes⟩ := pipe_goes hFirst
  obtain ⟨_, _, hRemaining, hRun⟩ := run_bind hRun
  cases hRemaining
  obtain ⟨more, c₂, hMore, hRun⟩ := run_bind hRun
  refine ⟨b, middle, hUnary, goes.trans ?_⟩
  cases more with
  | nil =>
      cases hRun
      exact Or.inl ⟨rfl, commaLoop_nil _ _ hMore⟩
  | cons part more =>
      cases hRun
      exact Or.inr (.single (.stream first (part :: more)))

/-- A text that begins with neither `not` nor a minus begins with a base. -/
theorem unary_goes (hNot : c.rest.headD .eof ≠ .ident "not") (hMinus : c.rest.headD .eof ≠ .minus)
    (hRun : parseUnary platform nested c = .ok (e, c')) :
    parsePostfix platform nested c = .ok (e, c') := by
  obtain ⟨fuel, _, hRemaining, hRun⟩ := run_bind hRun
  cases hRemaining
  cases hFuel : c.rest.length with
  | zero =>
      rw [hFuel] at hRun
      cases hRun
  | succ fuel =>
      rw [hFuel, unaryLoop] at hRun
      replace hRun := peek_run hRun
      rw [if_neg hNot, if_neg hMinus] at hRun
      exact hRun

/-- What stands in brackets wraps the base before them. -/
theorem bracket_wraps {base : Expr} (hRun : parseBracket platform nested base c = .ok (e, c')) :
    Wraps base e := by
  replace hRun := peek2_run hRun
  split_ifs at hRun
  · obtain ⟨_, _, _, hRun⟩ := run_bind hRun
    obtain ⟨_, _, _, hRun⟩ := run_bind hRun
    cases hRun
    exact .iterate base
  · obtain ⟨_, _, _, hRun⟩ := run_bind hRun
    obtain ⟨_, _, _, hRun⟩ := run_bind hRun
    obtain ⟨_, _, _, hRun⟩ := run_bind hRun
    cases hRun
    exact .index base _

/-- The first names of a path wrap the identity one after the other. The induction is on the rounds,
-/
theorem dotChain_goes : ∀ (fuel : Nat) (base : Expr) (c : Cursor) {e : Expr} {c' : Cursor},
    dotChain platform nested fuel base c = .ok (e, c') → Goes base c e c'
  | 0, _, _, _, _, hRun => by cases hRun
  | fuel + 1, base, c, e, c', hRun => by
      rw [dotChain] at hRun
      replace hRun := peek_run hRun
      cases hName : fieldName? (c.rest.headD .eof) with
      | some name =>
          rw [hName] at hRun
          obtain ⟨_, after, _, hRun⟩ := run_bind hRun
          exact (dotChain_goes fuel _ after hRun).wraps (.field base name)
      | none =>
          rw [hName] at hRun
          simp only at hRun
          split_ifs at hRun
          · obtain ⟨next, after, hBracket, hRun⟩ := run_bind hRun
            exact (dotChain_goes fuel next after hRun).wraps (bracket_wraps hBracket)
          · cases hRun
            exact Goes.refl _ _

/-- The suffixes of a path wrap its base one after the other: a name, a bracket, or a question mark,
which adds nothing. The induction is on the rounds. -/
theorem postfixLoop_goes : ∀ (fuel : Nat) (base : Expr) (c : Cursor) {e : Expr} {c' : Cursor},
    postfixLoop platform nested fuel base c = .ok (e, c') → Goes base c e c'
  | 0, _, _, _, _, hRun => by cases hRun
  | fuel + 1, base, c, e, c', hRun => by
      rw [postfixLoop] at hRun
      replace hRun := peek_run hRun
      cases hToken : c.rest.headD .eof with
      | dot =>
          rw [hToken] at hRun
          replace hRun := peek2_run hRun
          cases hName : fieldName? (c.rest.tail.headD (c.rest.headD .eof)) with
          | some name =>
              rw [hName] at hRun
              obtain ⟨_, _, _, hRun⟩ := run_bind hRun
              obtain ⟨_, after, _, hRun⟩ := run_bind hRun
              exact (postfixLoop_goes fuel _ after hRun).wraps (.field base name)
          | none =>
              rw [hName] at hRun
              cases hRun
              exact Goes.refl _ _
      | lBracket =>
          rw [hToken] at hRun
          obtain ⟨next, after, hBracket, hRun⟩ := run_bind hRun
          exact (postfixLoop_goes fuel next after hRun).wraps (bracket_wraps hBracket)
      | _ =>
          rw [hToken] at hRun
          cases hRun
          exact Goes.refl _ _

/-- The base that a text begins with. -/
theorem base_goes (hNot : c.rest.headD .eof ≠ .ident "not") (hMinus : c.rest.headD .eof ≠ .minus)
    (hRun : parseExpr platform nested c = .ok (e, c')) :
    ∃ b middle, parseBase platform nested c = .ok (b, middle) ∧ Goes b middle e c' := by
  obtain ⟨u, c₁, hUnary, goes⟩ := expr_goes hRun
  obtain ⟨b, middle, hBase, hPostfix⟩ := run_bind (unary_goes hNot hMinus hUnary)
  obtain ⟨_, _, hRemaining, hPostfix⟩ := run_bind hPostfix
  cases hRemaining
  exact ⟨b, middle, hBase, (postfixLoop_goes _ b middle hPostfix).trans goes⟩

/-- The text of an expression that wraps no other one is all that the parser of bases takes. -/
theorem base_of_expr (hNot : c.rest.headD .eof ≠ .ident "not") (hMinus : c.rest.headD .eof ≠ .minus)
    (hBase : e.IsBase) (hRun : parseExpr platform nested c = .ok (e, c')) :
    parseBase platform nested c = .ok (e, c') := by
  obtain ⟨b, middle, hRun, goes⟩ := base_goes hNot hMinus hRun
  obtain ⟨rfl, rfl⟩ := goes.of_isBase hBase
  exact hRun

end Functions

/-- An expression with a binary operator, a pipe or a comma at its top. -/
def Expr.joined : Expr → Bool
  | .binary _ _ _ => true
  | .pipe _ _ => true
  | .stream _ => true
  | _ => false

section Joined

variable {operand : Parser Expr} {operator : Token → Option (Expr → Expr → Expr)}
  {platform : Platform} {nested : Nested} {c c' : Cursor} {e : Expr}

/-- The operators of a level join their operands. -/
def Joins (operator : Token → Option (Expr → Expr → Expr)) : Prop :=
  ∀ t build, operator t = some build → ∀ l r, (build l r).joined = true

/-- The operators that join two operands make expressions that are seen as joined: the pipe, -/
theorem joins_pipe : Joins pipeOperator := by
  intro t build hOperator l r
  cases t <;> cases hOperator
  rfl

/-- the disjunction, -/
theorem joins_or : Joins orOperator := by
  intro t build hOperator l r
  rw [orOperator] at hOperator
  split_ifs at hOperator
  cases hOperator
  rfl

/-- the conjunction, -/
theorem joins_and : Joins andOperator := by
  intro t build hOperator l r
  rw [andOperator] at hOperator
  split_ifs at hOperator
  cases hOperator
  rfl

/-- the comparisons, -/
theorem joins_compare : Joins compareOperator := by
  intro t build hOperator l r
  cases t <;> cases hOperator <;> rfl

/-- the terms, -/
theorem joins_additive : Joins additiveOperator := by
  intro t build hOperator l r
  cases t <;> cases hOperator <;> rfl

/-- and the factors. -/
theorem joins_mult : Joins multOperator := by
  intro t build hOperator l r
  cases t <;> cases hOperator <;> rfl

/-- A chain returns its left operand as it was, or a joined expression. The induction is on the
rounds. -/
theorem chain_joined (hJoins : Joins operator) : ∀ (fuel : Nat) (left : Expr) (c : Cursor)
    {e : Expr} {c' : Cursor}, chain operand operator fuel left c = .ok (e, c') →
      (e = left ∧ c' = c) ∨ e.joined = true
  | 0, _, _, _, _, hRun => by cases hRun
  | fuel + 1, left, c, e, c', hRun => by
      rw [chain] at hRun
      replace hRun := peek_run hRun
      cases hOperator : operator (c.rest.headD .eof) with
      | none =>
          rw [hOperator] at hRun
          cases hRun
          exact Or.inl ⟨rfl, rfl⟩
      | some build =>
          rw [hOperator] at hRun
          obtain ⟨_, middle, _, hRun⟩ := run_bind hRun
          obtain ⟨right, after, _, hRun⟩ := run_bind hRun
          rcases chain_joined hJoins fuel _ after hRun with ⟨rfl, _⟩ | hJoined
          · exact Or.inr (hJoins _ build hOperator left right)
          · exact Or.inr hJoined

/-- What a level makes of a text is joined at its top, or it is one operand. -/
theorem level_alone (hJoins : Joins operator) (hAlone : e.joined = false)
    (hRun : level operand operator c = .ok (e, c')) : operand c = .ok (e, c') := by
  obtain ⟨b, middle, hOperand, hRun⟩ := run_bind hRun
  obtain ⟨_, _, hRemaining, hRun⟩ := run_bind hRun
  cases hRemaining
  rcases chain_joined hJoins _ b middle hRun with ⟨rfl, rfl⟩ | hJoined
  · exact hOperand
  · rw [hAlone] at hJoined
    cases hJoined

/-- An expression that is not joined at its top is one operand. -/
theorem unary_of_expr (hAlone : e.joined = false)
    (hRun : parseExpr platform nested c = .ok (e, c')) : parseUnary platform nested c = .ok (e, c') := by
  obtain ⟨first, middle, hFirst, hRun⟩ := run_bind hRun
  obtain ⟨_, _, hRemaining, hRun⟩ := run_bind hRun
  cases hRemaining
  obtain ⟨more, after, hMore, hRun⟩ := run_bind hRun
  cases more with
  | nil =>
      cases hRun
      cases commaLoop_nil _ _ hMore
      exact level_alone joins_mult hAlone (level_alone joins_additive hAlone
        (level_alone joins_compare hAlone (level_alone joins_and hAlone
          (level_alone joins_or hAlone (level_alone joins_pipe hAlone hFirst)))))
  | cons part more =>
      cases hRun
      cases hAlone

end Joined

end Jq
end OwsRuntime
