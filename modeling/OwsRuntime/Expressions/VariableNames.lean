import OwsRuntime.Expressions.Lexing
import OwsRuntime.Expressions.Variables

/-! Which variables the expression of a text can mention: those whose references stand in
the text. -/
namespace OwsRuntime
namespace Jq

/-- The text of a reference to a variable. -/
def reference (name : String) : List Char := '$' :: name.toList

/-- What a token carries on stands in the text. -/
def Token.RefersIn (text : List Char) : Token → Prop
  | .var name => reference name <:+: text
  | .interp source => source.toList <:+: text
  | _ => True

/-- The variables which an expression mentions are referred to in the text. -/
def Expr.RefersIn (text : List Char) (e : Expr) : Prop :=
  ∀ name, e.mentions name = true → reference name <:+: text

variable {platform : Platform} {total : Nat} {text wider : List Char} {α β : Type}

section Tokens

/-- What stands in a part of a text stands in the text. -/
theorem Token.RefersIn.mono {token : Token} (within : token.RefersIn text) (hText : text <:+: wider) :
    token.RefersIn wider := by
  cases token with
  | var name => exact within.trans hText
  | interp source => exact within.trans hText
  | _ => exact trivial

/-- The token of a literal refers to nothing. -/
theorem flush_within (literal text : List Char) : ∀ token ∈ flush literal, token.RefersIn text := by
  intro token hMem
  rw [flush] at hMem
  split at hMem
  · cases hMem
  · obtain rfl := List.mem_singleton.mp hMem
    exact trivial

/-- A step through a string reads a character of its literal, or an interpolation, whose source
stands in the text of the string. -/
theorem StringStep.within {literal text literal' rest : List Char} {tokens : List Token}
    (step : StringStep literal text tokens literal' rest) : ∀ token ∈ tokens, token.RefersIn text := by
  intro token hMem
  cases step with
  | interp hSource =>
      rename_i source more
      rcases List.mem_append.mp hMem with hMem | hMem
      · exact flush_within _ _ token hMem
      · obtain rfl := List.mem_singleton.mp hMem
        refine ⟨['\\', '('], ')' :: rest, ?_⟩
        rw [interpSource_text _ _ hSource, String.toList_ofList]
        simp
  | _ => cases hMem

/-- So the tokens of a string keep to its text. The induction is on the steps, each of which leaves
a later part of the text. -/
theorem ReadsString.within {literal text last : List Char} {tokens : List Token}
    (reads : ReadsString literal text tokens last) : ∀ token ∈ tokens, token.RefersIn text := by
  induction reads with
  | quote => exact flush_within _ _
  | step step tail ih =>
      intro token hMem
      rcases List.mem_append.mp hMem with hMem | hMem
      · exact step.within token hMem
      · exact (ih token hMem).mono step.suffix.isInfix

/-- None of the tokens of one character is a variable. -/
theorem singles_within {c : Char} {token : Token} (hSingle : singles.lookup c = some token)
    (text : List Char) : token.RefersIn text := by
  have hPlain : ∀ e ∈ singles, ∀ name, e.2 ≠ .var name ∧ e.2 ≠ .interp name := by
    intro e hMem name
    simp only [singles, List.mem_cons, List.not_mem_nil, or_false] at hMem
    rcases hMem with rfl | rfl | rfl | rfl | rfl | rfl | rfl | rfl | rfl | rfl | rfl | rfl | rfl |
      rfl | rfl | rfl | rfl | rfl | rfl <;> exact ⟨by simp, by simp⟩
  have hToken := hPlain _ (mem_of_lookup hSingle)
  cases token with
  | var name => exact absurd rfl (hToken name).1
  | interp source => exact absurd rfl (hToken source).2
  | _ => exact trivial

/-- Nor is any of those of two. -/
theorem operators2_within {k : Char × Char} {token : Token}
    (hOperator : operators2.lookup k = some token) (text : List Char) : token.RefersIn text := by
  have hPlain : ∀ e ∈ operators2, ∀ name, e.2 ≠ .var name ∧ e.2 ≠ .interp name := by
    intro e hMem name
    simp only [operators2, List.mem_cons, List.not_mem_nil, or_false] at hMem
    rcases hMem with rfl | rfl | rfl | rfl | rfl | rfl <;> exact ⟨by simp, by simp⟩
  have hToken := hPlain _ (mem_of_lookup hOperator)
  cases token with
  | var name => exact absurd rfl (hToken name).1
  | interp source => exact absurd rfl (hToken source).2
  | _ => exact trivial

/-- A token keeps to the text it is read from: a variable is a dollar sign with its name, which the
lexer takes from the text as they stand. -/
theorem readToken_within {c : Char} {text rest : List Char} {batch : List Token}
    (hRead : readToken total platform c text = .ok (batch, rest)) :
    ∀ token ∈ batch, token.RefersIn (c :: text) := by
  have hOne : ∀ {one : Token}, one.RefersIn (c :: text) → ∀ token ∈ [one], token.RefersIn (c :: text) := by
    intro one within token hMem
    obtain rfl := List.mem_singleton.mp hMem
    exact within
  rw [readToken] at hRead
  cases hOperator : text.head?.bind fun d => operators2.lookup (c, d) with
  | some token =>
      rw [hOperator] at hRead
      cases hRead
      obtain ⟨d, _, hToken⟩ := Option.bind_eq_some_iff.mp hOperator
      exact hOne (operators2_within hToken _)
  | none =>
      rw [hOperator] at hRead
      simp only at hRead
      cases hSingle : singles.lookup c with
      | some token =>
          rw [hSingle] at hRead
          cases hRead
          exact hOne (singles_within hSingle _)
      | none =>
          rw [hSingle] at hRead
          simp only at hRead
          split_ifs at hRead with hDollar hQuote hDigit hLetter
          · cases hRead
            apply hOne
            show reference (String.ofList _) <:+: _
            rw [reference, String.toList_ofList, hDollar]
            exact (List.prefix_cons_inj '$').mpr (List.takeWhile_prefix _) |>.isInfix
          · rw [readStringTokens] at hRead
            obtain ⟨found, hFound, hRead⟩ := bind_eq_ok hRead
            cases hRead
            have hTokens := (readsString_of_readString _ _ _ hFound).within
            split_ifs
            · exact hOne trivial
            · exact fun token hMem => (hTokens token hMem).mono (List.suffix_cons c text).isInfix
          · obtain ⟨found, hFound, hRead⟩ := bind_eq_ok hRead
            cases hRead
            rw [readNumber] at hFound
            cases hValue : (splitNumber (c :: text)).1.value? with
            | none => simp [hValue] at hFound
            | some value =>
                simp only [hValue, Except.ok.injEq] at hFound
                rw [← hFound]
                exact hOne trivial
          · cases hRead
            exact hOne trivial

/-- So all the tokens of a text keep to it. The induction is on the rounds, and each token is read
from a later part of the text. -/
theorem tokenizeFrom_within : ∀ (fuel : Nat) (text : List Char) {tokens : List Token},
    tokenizeFrom total platform fuel text = .ok tokens → ∀ token ∈ tokens, token.RefersIn text
  | 0, _, _, hTokens => by cases hTokens
  | fuel + 1, text, tokens, hTokens => by
      rw [tokenizeFrom] at hTokens
      obtain ⟨⟨batch, rest⟩, hBatch, hTokens⟩ := bind_eq_ok hTokens
      rw [nextTokens] at hBatch
      cases hSkip : skipBlank false text with
      | nil =>
          rw [hSkip] at hBatch
          cases hBatch
          cases hTokens
          intro token hMem
          obtain rfl := List.mem_singleton.mp hMem
          exact trivial
      | cons c more =>
          rw [hSkip] at hBatch
          have hSuffix : c :: more <:+ text := hSkip ▸ skipBlank_suffix false text
          have hHere : ∀ token ∈ batch, token.RefersIn text := fun token hMem =>
            (readToken_within hBatch token hMem).mono hSuffix.isInfix
          have hRest : rest <:+ text :=
            ((readToken_suffix hBatch).trans (List.suffix_cons c more)).trans hSuffix
          simp only at hTokens
          split_ifs at hTokens
          · cases hTokens
            exact hHere
          · obtain ⟨later, hLater, hTokens⟩ := bind_eq_ok hTokens
            cases hTokens
            intro token hMem
            rcases List.mem_append.mp hMem with hMem | hMem
            · exact hHere token hMem
            · exact (tokenizeFrom_within fuel rest hLater token hMem).mono hRest.isInfix

end Tokens

section Trees

variable {e base l r : Expr}

/-- The expressions of the list keep to the text. -/
def ExprsWithin (text : List Char) (elems : List Expr) : Prop := ∀ e ∈ elems, e.RefersIn text

/-- A list of expressions mentions a variable when one of them does. -/
theorem exprsMention_iff {name : String} {elems : List Expr} :
    exprsMention name elems = true ↔ ∃ e ∈ elems, e.mentions name = true := by
  induction elems with
  | nil => simp [exprsMention]
  | cons e rest ih => simp [exprsMention, ih]

/-- So do the parts of a string, -/
theorem partsMention_iff {name : String} {parts : List InterpPart} :
    partsMention name parts = true ↔ ∃ part ∈ parts, partMentions name part = true := by
  induction parts with
  | nil => simp [partsMention]
  | cons part rest ih => simp [partsMention, ih]

/-- and the entries of an object, in a key or in a value. -/
theorem entriesMention_iff {name : String} {entries : List (ObjKey × Expr)} :
    entriesMention name entries = true ↔
      ∃ entry ∈ entries, keyMentions name entry.1 = true ∨ entry.2.mentions name = true := by
  induction entries with
  | nil => simp [entriesMention]
  | cons entry rest ih => simp [entriesMention, ih]

/-- An expression that keeps to a part of a text keeps to the text. -/
theorem Expr.RefersIn.mono (within : e.RefersIn text) (hText : text <:+: wider) : e.RefersIn wider :=
  fun name hName => (within name hName).trans hText

/-- An expression without variables keeps to any text. -/
theorem within_closed (hClosed : ∀ name, e.mentions name = false) : e.RefersIn text :=
  fun name hName => absurd hName (by simp [hClosed name])

/-- An expression made of two mentions what either of them does. -/
theorem within_two {f : Expr → Expr → Expr} (hMentions : ∀ name, (f l r).mentions name =
    (l.mentions name || r.mentions name)) (hLeft : l.RefersIn text) (hRight : r.RefersIn text) :
    (f l r).RefersIn text := by
  intro name hName
  rw [hMentions, Bool.or_eq_true] at hName
  exact hName.elim (hLeft name) (hRight name)

/-- An expression made of a list mentions what one of the list does. -/
theorem within_exprs {f : List Expr → Expr} {elems : List Expr}
    (hMentions : ∀ name, (f elems).mentions name = exprsMention name elems)
    (hElems : ExprsWithin text elems) : (f elems).RefersIn text := by
  intro name hName
  rw [hMentions, exprsMention_iff] at hName
  obtain ⟨e, hMem, hMention⟩ := hName
  exact hElems e hMem name hMention

/-- A conditional mentions what its condition or one of its branches does. -/
theorem within_if {cond then_ else_ : Expr} (hCond : cond.RefersIn text) (hThen : then_.RefersIn text)
    (hElse : else_.RefersIn text) : (Expr.if_ cond then_ else_).RefersIn text := by
  intro name hName
  rw [Expr.mentions, Bool.or_eq_true, Bool.or_eq_true] at hName
  exact hName.elim (fun h => h.elim (hCond name) (hThen name)) (hElse name)

/-- The elements of a stream keep to the text, as the stream does. -/
theorem elements_within (within : e.RefersIn text) : ExprsWithin text (elements e) := by
  cases e with
  | stream parts =>
      intro part hMem name hMention
      exact within name (exprsMention_iff.mpr ⟨part, hMem, hMention⟩)
  | _ =>
      intro other hMem
      obtain rfl := List.mem_singleton.mp hMem
      exact within

end Trees

section Parsers

/-- A parser that reads what stands in the text leaves only such tokens, and returns what
has the property. -/
def Yields (text : List Char) (P : Parser α) (Q : α → Prop) : Prop :=
  ∀ (c c' : Cursor) (a : α), (∀ token ∈ c.rest, token.RefersIn text) → P c = .ok (a, c') →
    Q a ∧ ∀ token ∈ c'.rest, token.RefersIn text

variable {P : Parser α} {Q Q' : α → Prop} {R : β → Prop}

/-- A value with the property is returned, and no token is consumed. -/
theorem Yields.pure {a : α} (hQ : Q a) : Yields text (Pure.pure a) Q := by
  intro c c' b hTokens hRun
  cases hRun
  exact ⟨hQ, hTokens⟩

/-- Parsers after one another: the second is given a value with the property of the first. -/
theorem Yields.bind {f : α → Parser β} (first : Yields text P Q)
    (second : ∀ a, Q a → Yields text (f a) R) : Yields text (P >>= f) R := by
  intro c c' b hTokens hRun
  obtain ⟨⟨a, c₁⟩, hFirst, hRest⟩ := bind_eq_ok hRun
  obtain ⟨hQ, hLeft⟩ := first c c₁ a hTokens hFirst
  exact second a hQ c₁ c' b hLeft hRest

/-- A weaker property holds of what is returned. -/
theorem Yields.mono (yields : Yields text P Q) (hQ : ∀ a, Q a → Q' a) : Yields text P Q' := by
  intro c c' a hTokens hRun
  exact (yields c c' a hTokens hRun).imp_left (hQ a)

/-- A failure returns nothing, so all that it returns has any property. -/
theorem fail_yields (message : String) : Yields text (fail message : Parser α) Q :=
  fun _ _ _ _ hRun => (by cases hRun)

/-- So it is with the end of the rounds of a loop. -/
theorem unfinished_yields : Yields text (unfinished : Parser α) Q :=
  fun _ _ _ _ hRun => (by cases hRun)

/-- The next token is one of those left, all of which keep to the text. -/
theorem peek_yields : Yields text peek (Token.RefersIn text) := by
  rintro ⟨pos, rest⟩ c' token hTokens hRun
  cases rest with
  | nil => cases hRun
  | cons first more =>
      cases hRun
      exact ⟨hTokens _ List.mem_cons_self, hTokens⟩

/-- The look at the token after it consumes nothing. -/
theorem peek2_yields : Yields text peek2 fun _ => True := by
  rintro ⟨pos, rest⟩ c' token hTokens hRun
  cases rest with
  | nil => cases hRun
  | cons first more =>
      cases hRun
      exact ⟨trivial, hTokens⟩

/-- What is left after a token is consumed was left before. -/
theorem advance_yields : Yields text advance fun _ => True := by
  rintro ⟨pos, rest⟩ c' token hTokens hRun
  match rest, hRun with
  | [only], hRun =>
      cases hRun
      exact ⟨trivial, hTokens⟩
  | first :: second :: more, hRun =>
      cases hRun
      exact ⟨trivial, fun token hMem => hTokens token (List.mem_cons_of_mem _ hMem)⟩

/-- To count the tokens consumes none of them. -/
theorem remaining_yields : Yields text remaining fun _ => True := by
  intro c c' n hTokens hRun
  cases hRun
  exact ⟨trivial, hTokens⟩

/-- A token is consumed before the parser goes on. -/
theorem Yields.advanced (yields : Yields text P Q) :
    Yields text (do
      let _ ← advance
      P) Q := Yields.bind advance_yields fun _ _ => yields

/-- The parser goes on from the number of tokens that are left. -/
theorem Yields.bounded {f : Nat → Parser α} (yields : ∀ n, Yields text (f n) Q) :
    Yields text (remaining >>= f) Q := Yields.bind remaining_yields fun n _ => yields n

/-- A token that is expected is consumed or the parser fails, -/
theorem expect_yields (token : Token) (what : String) :
    Yields text (expect platform token what) fun _ => True := by
  apply Yields.bind peek_yields
  intro found _
  split
  · exact Yields.advanced (Yields.pure trivial)
  · exact fail_yields _

/-- and so is a keyword. -/
theorem expectKeyword_yields (keyword : String) :
    Yields text (expectKeyword platform keyword) fun _ => True := by
  apply Yields.bind peek_yields
  intro found _
  split
  · exact Yields.advanced (Yields.pure trivial)
  · exact fail_yields _

/-- A parser of expressions that keep to the text. -/
abbrev Retains (text : List Char) (P : Parser Expr) : Prop := Yields text P (Expr.RefersIn text)

/-- What a closing token ends. -/
theorem Yields.closed (yields : Yields text P Q) (token : Token) (what : String) :
    Yields text (do
      let a ← P
      expect platform token what
      return a) Q :=
  Yields.bind yields fun _ hQ => Yields.bind (expect_yields token what) fun _ _ => Yields.pure hQ

variable {operand : Parser Expr} {operator : Token → Option (Expr → Expr → Expr)}

/-- An operator mentions what its operands mention. -/
def Transparent (operator : Token → Option (Expr → Expr → Expr)) : Prop :=
  ∀ token build, operator token = some build → ∀ l r name,
    (build l r).mentions name = (l.mentions name || r.mentions name)

/-- A chain of operators mentions what its operands do. The induction is on the rounds, and the left
operand grows by one operand in each. -/
theorem chain_retains (hOperator : Transparent operator) (hOperand : Retains text operand) :
    ∀ (fuel : Nat) {left : Expr}, left.RefersIn text → Retains text (chain operand operator fuel left)
  | 0, _, _ => unfinished_yields
  | fuel + 1, left, hLeft => by
      rw [chain]
      apply Yields.bind peek_yields
      intro token _
      split
      · exact Yields.pure hLeft
      · rename_i build hBuild
        apply Yields.advanced
        apply Yields.bind hOperand
        intro right hRight
        exact chain_retains hOperator hOperand fuel
          (within_two (hOperator token build hBuild left right) hLeft hRight)

/-- So a level keeps to the text when its operand does. -/
theorem level_retains (hOperator : Transparent operator) (hOperand : Retains text operand) :
    Retains text (level operand operator) := by
  apply Yields.bind hOperand
  intro left hLeft
  exact Yields.bounded fun n => chain_retains hOperator hOperand n hLeft

/-- A pipe mentions what its two sides mention. -/
theorem pipe_transparent : Transparent pipeOperator := by
  intro token build hBuild l r name
  cases token <;> cases hBuild
  rfl

/-- So does an operator that stands for a binary expression, -/
theorem keyword_transparent {operator : Token → Option (Expr → Expr → Expr)} {keyword : Token}
    {op : BinOp}
    (hOperator : ∀ token, operator token = if token = keyword then some (Expr.binary op) else none) :
    Transparent operator := by
  intro token build hBuild l r name
  rw [hOperator] at hBuild
  split at hBuild
  · cases hBuild
    rfl
  · cases hBuild

/-- each of the comparisons, -/
theorem compare_transparent : Transparent compareOperator := by
  intro token build hBuild l r name
  cases token <;> cases hBuild <;> rfl

/-- plus and minus, -/
theorem additive_transparent : Transparent additiveOperator := by
  intro token build hBuild l r name
  cases token <;> cases hBuild <;> rfl

/-- and the operators of the factors. -/
theorem mult_transparent : Transparent multOperator := by
  intro token build hBuild l r name
  cases token <;> cases hBuild <;> rfl

end Parsers

section Levels

variable {nested : Nested} {base : Expr}

/-- What the next level of nesting reads keeps to the text. -/
structure Nested.Retains (text : List Char) (nested : Nested) : Prop where
  expr : Jq.Retains text nested.expr
  pipe : Jq.Retains text nested.pipe
  source : ∀ source e, source.toList <:+: text → nested.source source = .ok e → e.RefersIn text

/-- A variable keeps to the text when its token does. -/
theorem within_var {name : String} (hToken : (Token.var name).RefersIn text) :
    (Expr.var name).RefersIn text := by
  intro other hName
  obtain rfl : name = other := by simpa [Expr.mentions] using hName
  exact hToken

/-- An index or a slice mentions what its base does, and what stands in its brackets. -/
theorem parseBracket_retains (hNested : nested.Retains text) (hBase : base.RefersIn text) :
    Retains text (parseBracket platform nested base) := by
  apply Yields.bind peek2_yields
  intro token _
  split
  · exact Yields.advanced (Yields.advanced (Yields.pure hBase))
  · apply Yields.advanced
    apply Yields.bind hNested.expr
    intro index hIndex
    apply Yields.bind (expect_yields _ _)
    intro _ _
    exact Yields.pure (within_two (f := Expr.index) (fun _ => rfl) hBase hIndex)

/-- The names of a path mention no variable, and what stands in the brackets among them keeps to the
text. -/
theorem dotChain_retains (hNested : nested.Retains text) : ∀ (fuel : Nat) {base : Expr},
    base.RefersIn text → Retains text (dotChain platform nested fuel base)
  | 0, _, _ => unfinished_yields
  | fuel + 1, base, hBase => by
      rw [dotChain]
      apply Yields.bind peek_yields
      intro token _
      split
      · exact Yields.advanced (dotChain_retains hNested fuel hBase)
      · split
        · exact Yields.bind (parseBracket_retains hNested hBase) fun next hNext =>
            dotChain_retains hNested fuel hNext
        · exact Yields.pure hBase

/-- The further branches of an `if` are expressions of the next level, or the identity. -/
theorem parseElseTail_retains (hNested : nested.Retains text) : Retains text (parseElseTail nested) := by
  apply Yields.bind peek_yields
  intro token _
  split
  · exact Yields.advanced hNested.expr
  · apply Yields.bind peek_yields
    intro token _
    split
    · exact hNested.expr
    · exact Yields.pure (within_closed fun _ => rfl)

/-- An `if` keeps to the text, as its condition and its branches are expressions of the next level,
and its keywords mention nothing. -/
theorem parseIf_retains (hNested : nested.Retains text) : Retains text (parseIf platform nested) := by
  apply Yields.advanced
  apply Yields.bind hNested.expr
  intro cond hCond
  apply Yields.bind (expectKeyword_yields "then")
  intro _ _
  apply Yields.bind hNested.expr
  intro then_ hThen
  apply Yields.bind peek_yields
  intro token _
  split
  · apply Yields.advanced
    apply Yields.bind hNested.expr
    intro elifCond hElifCond
    apply Yields.bind (expectKeyword_yields "then")
    intro _ _
    apply Yields.bind hNested.expr
    intro elifBody hElifBody
    apply Yields.bind (parseElseTail_retains hNested)
    intro else_ hElse
    apply Yields.bind (expectKeyword_yields "end")
    intro _ _
    exact Yields.pure (within_if hCond hThen (within_if hElifCond hElifBody hElse))
  · apply Yields.bind (parseElseTail_retains hNested)
    intro else_ hElse
    apply Yields.bind (expectKeyword_yields "end")
    intro _ _
    exact Yields.pure (within_if hCond hThen hElse)

/-- A list keeps to the text when its head and its tail do. -/
theorem exprsWithin_cons {e : Expr} {rest : List Expr} (hFirst : e.RefersIn text)
    (hRest : ExprsWithin text rest) : ExprsWithin text (e :: rest) :=
  List.forall_mem_cons.mpr ⟨hFirst, hRest⟩

/-- An empty list mentions nothing. -/
theorem exprsWithin_nil : ExprsWithin text [] := fun _ hMem => (by cases hMem)

/-- The arguments of a call keep to the text. The induction is on the rounds. -/
theorem argsLoop_yields (hNested : nested.Retains text) : ∀ fuel : Nat,
    Yields text (argsLoop nested fuel) (ExprsWithin text)
  | 0 => unfinished_yields
  | fuel + 1 => by
      rw [argsLoop]
      apply Yields.bind hNested.pipe
      intro arg hArg
      apply Yields.bind peek_yields
      intro token _
      split
      · apply Yields.advanced
        apply Yields.bind (argsLoop_yields hNested fuel)
        intro more hMore
        exact Yields.pure (exprsWithin_cons hArg hMore)
      · exact Yields.pure (exprsWithin_cons hArg exprsWithin_nil)

/-- There are as many rounds as tokens. -/
theorem parseArgs_yields (hNested : nested.Retains text) :
    Yields text (parseArgs nested) (ExprsWithin text) := by
  apply Yields.bind peek_yields
  intro token _
  split
  · exact Yields.pure exprsWithin_nil
  · exact Yields.bounded fun n => argsLoop_yields hNested n

/-- The elements of an array keep to the text, in the same way. -/
theorem arrayLoop_yields (hNested : nested.Retains text) : ∀ fuel : Nat,
    Yields text (arrayLoop nested fuel) (ExprsWithin text)
  | 0 => unfinished_yields
  | fuel + 1 => by
      rw [arrayLoop]
      apply Yields.bind hNested.pipe
      intro e hElement
      apply Yields.bind peek_yields
      intro token _
      split
      · apply Yields.advanced
        apply Yields.bind (arrayLoop_yields hNested fuel)
        intro more hMore
        exact Yields.pure (List.forall_mem_append.mpr ⟨elements_within hElement, hMore⟩)
      · exact Yields.pure (elements_within hElement)

/-- An element that is a stream gives its parts to the array. -/
theorem parseArray_retains (hNested : nested.Retains text) : Retains text (parseArray platform nested) := by
  apply Yields.bind (expect_yields _ _)
  intro _ _
  apply Yields.bind peek_yields
  intro token _
  split
  · exact Yields.advanced (Yields.pure (within_closed fun _ => rfl))
  · refine Yields.bounded fun n => Yields.bind (arrayLoop_yields hNested n) ?_
    intro elems hElems
    apply Yields.bind (expect_yields _ _)
    intro _ _
    exact Yields.pure (within_exprs (f := Expr.array) (fun _ => rfl) hElems)

/-- What a key mentions stands in the text. -/
def KeyWithin (text : List Char) (key : ObjKey) : Prop :=
  ∀ name, keyMentions name key = true → reference name <:+: text

/-- A key is a name, a text, or a computed expression, the only one that can mention variables. -/
theorem parseObjectKey_yields (hNested : nested.Retains text) :
    Yields text (parseObjectKey platform nested) (KeyWithin text) := by
  have hPlain : ∀ key : ObjKey, (∀ name, keyMentions name key = false) → KeyWithin text key :=
    fun key hKey name hName => absurd hName (by simp [hKey name])
  apply Yields.bind peek_yields
  intro token _
  split
  · exact Yields.advanced (Yields.pure (hPlain _ fun _ => rfl))
  · exact Yields.advanced (Yields.pure (hPlain _ fun _ => rfl))
  · exact Yields.advanced (Yields.pure (hPlain _ fun _ => rfl))
  · apply Yields.advanced
    apply Yields.bind hNested.pipe
    intro e hExpr
    apply Yields.bind (expect_yields _ _)
    intro _ _
    exact Yields.pure hExpr
  · exact fail_yields _

/-- The entries mention what stands in the text. -/
def EntriesWithin (text : List Char) (entries : List (ObjKey × Expr)) : Prop :=
  ∀ entry ∈ entries, KeyWithin text entry.1 ∧ entry.2.RefersIn text

/-- The entries of an object keep to the text, the value of a variable under its own name among
them. -/
theorem objectLoop_yields (hNested : nested.Retains text) : ∀ fuel : Nat,
    Yields text (objectLoop platform nested fuel) (EntriesWithin text)
  | 0 => unfinished_yields
  | fuel + 1 => by
      rw [objectLoop]
      apply Yields.bind (parseObjectKey_yields hNested)
      intro key hKey
      apply Yields.bind (expect_yields _ _)
      intro _ _
      apply Yields.bind hNested.pipe
      intro value hValue
      apply Yields.bind peek_yields
      intro token _
      split
      · apply Yields.advanced
        apply Yields.bind (objectLoop_yields hNested fuel)
        intro more hMore
        exact Yields.pure (List.forall_mem_cons.mpr ⟨⟨hKey, hValue⟩, hMore⟩)
      · exact Yields.pure (List.forall_mem_singleton.mpr ⟨hKey, hValue⟩)

/-- An object mentions what its entries do. -/
theorem within_object {entries : List (ObjKey × Expr)} (hEntries : EntriesWithin text entries) :
    (Expr.object entries).RefersIn text := by
  intro name hName
  obtain ⟨entry, hMem, hMention⟩ := entriesMention_iff.mp hName
  exact hMention.elim ((hEntries entry hMem).1 name) ((hEntries entry hMem).2 name)

/-- So an object keeps to the text. -/
theorem parseObject_retains (hNested : nested.Retains text) :
    Retains text (parseObject platform nested) := by
  apply Yields.bind (expect_yields _ _)
  intro _ _
  apply Yields.bind peek_yields
  intro token _
  split
  · exact Yields.advanced (Yields.pure (within_closed fun _ => rfl))
  · refine Yields.bounded fun n => Yields.bind (objectLoop_yields hNested n) ?_
    intro entries hEntries
    apply Yields.bind (expect_yields _ _)
    intro _ _
    exact Yields.pure (within_object hEntries)

/-- The parts of a string mention what stands in the text. -/
def PartsWithin (text : List Char) (parts : List InterpPart) : Prop :=
  ∀ part ∈ parts, ∀ name, partMentions name part = true → reference name <:+: text

/-- An expression within a string is parsed from a part of the text. -/
theorem source_yields (hNested : nested.Retains text) {source : String}
    (hSource : source.toList <:+: text) :
    Retains text (liftM (nested.source source) : Parser Expr) := by
  intro c c' e hTokens hRun
  obtain ⟨other, hOther, hSame⟩ := bind_eq_ok hRun
  cases hSame
  exact ⟨hNested.source source e hSource hOther, hTokens⟩

/-- The parts of a string. An interpolation is parsed from its source, which stands in the text. -/
theorem stringParts_yields (hNested : nested.Retains text) : ∀ fuel : Nat,
    Yields text (stringParts nested fuel) (PartsWithin text)
  | 0 => unfinished_yields
  | fuel + 1 => by
      rw [stringParts]
      apply Yields.bind peek_yields
      intro token hToken
      split
      · apply Yields.advanced
        apply Yields.bind (stringParts_yields hNested fuel)
        intro more hMore
        exact Yields.pure (List.forall_mem_cons.mpr ⟨fun _ hName => (by cases hName), hMore⟩)
      · apply Yields.advanced
        apply Yields.bind (source_yields hNested hToken)
        intro inner hInner
        apply Yields.bind (stringParts_yields hNested fuel)
        intro more hMore
        exact Yields.pure (List.forall_mem_cons.mpr ⟨hInner, hMore⟩)
      · exact Yields.pure fun _ hMem => (by cases hMem)

/-- So a string keeps to the text. -/
theorem parseStringParts_retains (hNested : nested.Retains text) :
    Retains text (parseStringParts nested) := by
  refine Yields.bounded fun n => Yields.bind (stringParts_yields hNested n) ?_
  intro parts hParts
  apply Yields.pure
  intro name hName
  obtain ⟨part, hMem, hMention⟩ := partsMention_iff.mp hName
  exact hParts part hMem name hMention

/-- What an identifier starts: a literal mentions nothing, and a call what its arguments do. -/
theorem parseIdentPrimary_retains (hNested : nested.Retains text) (ident : String) :
    Retains text (parseIdentPrimary platform nested ident) := by
  have hLiteral : ∀ v : Value, (Expr.literal v).RefersIn text := fun _ => within_closed fun _ => rfl
  unfold parseIdentPrimary
  split
  · exact Yields.advanced (Yields.pure (hLiteral _))
  · split
    · exact Yields.advanced (Yields.pure (hLiteral _))
    · split
      · exact Yields.advanced (Yields.pure (hLiteral _))
      · split
        · exact parseIf_retains hNested
        · apply Yields.bind peek2_yields
          intro token _
          split
          · apply Yields.advanced
            apply Yields.advanced
            apply Yields.bind (parseArgs_yields hNested)
            intro args hArgs
            apply Yields.bind (expect_yields _ _)
            intro _ _
            exact Yields.pure (within_exprs (f := Expr.call ident) (fun _ => rfl) hArgs)
          · exact Yields.advanced (Yields.pure (within_closed fun _ => rfl))

/-- The base of a path, by its first token. The token of a variable is where a mention comes from.
-/
theorem parseBase_retains (hNested : nested.Retains text) : Retains text (parseBase platform nested) := by
  have hIdentity : Expr.identity.RefersIn text := within_closed fun _ => rfl
  apply Yields.bind peek_yields
  intro token hToken
  split
  · exact Yields.advanced (Yields.bounded fun n => dotChain_retains hNested n hIdentity)
  · exact Yields.advanced (Yields.pure hIdentity)
  · exact Yields.advanced (Yields.pure (within_var hToken))
  · exact Yields.advanced (Yields.pure (within_closed fun _ => rfl))
  · exact parseStringParts_retains hNested
  · exact parseStringParts_retains hNested
  · exact parseArray_retains hNested
  · exact parseObject_retains hNested
  · apply Yields.advanced
    apply Yields.bind hNested.expr
    intro e hExpr
    apply Yields.bind (expect_yields _ _)
    intro _ _
    exact Yields.pure hExpr
  · exact parseIdentPrimary_retains hNested _
  · exact fail_yields _
  · exact fail_yields _

/-- The suffixes of a path add what stands in their brackets. -/
theorem postfixLoop_retains (hNested : nested.Retains text) : ∀ (fuel : Nat) {base : Expr},
    base.RefersIn text → Retains text (postfixLoop platform nested fuel base)
  | 0, _, _ => unfinished_yields
  | fuel + 1, base, hBase => by
      rw [postfixLoop]
      apply Yields.bind peek_yields
      intro token _
      split
      · apply Yields.bind peek2_yields
        intro next _
        split
        · exact Yields.advanced (Yields.advanced (postfixLoop_retains hNested fuel hBase))
        · exact Yields.pure hBase
      · exact Yields.bind (parseBracket_retains hNested hBase) fun next hNext =>
          postfixLoop_retains hNested fuel hNext
      · exact Yields.pure hBase

/-- So a path keeps to the text, -/
theorem parsePostfix_retains (hNested : nested.Retains text) :
    Retains text (parsePostfix platform nested) := by
  apply Yields.bind (parseBase_retains hNested)
  intro base hBase
  exact Yields.bounded fun n => postfixLoop_retains hNested n hBase

/-- also behind signs. -/
theorem unaryLoop_retains (hNested : nested.Retains text) : ∀ fuel : Nat,
    Retains text (unaryLoop platform nested fuel)
  | 0 => unfinished_yields
  | fuel + 1 => by
      rw [unaryLoop]
      apply Yields.bind peek_yields
      intro token _
      split
      · apply Yields.advanced
        exact Yields.bind (unaryLoop_retains hNested fuel) fun inner hInner => Yields.pure hInner
      · split
        · apply Yields.advanced
          exact Yields.bind (unaryLoop_retains hNested fuel) fun inner hInner => Yields.pure hInner
        · exact parsePostfix_retains hNested

/-- The levels of operators, from the factors up to the pipe, each of which is transparent. -/
theorem parsePipe_retains (hNested : nested.Retains text) : Retains text (parsePipe platform nested) := by
  have hUnary : Retains text (parseUnary platform nested) :=
    Yields.bounded fun n => unaryLoop_retains hNested n
  have hAdditive := level_retains additive_transparent (level_retains mult_transparent hUnary)
  have hAndOperator : Transparent andOperator := keyword_transparent fun _ => rfl
  have hOrOperator : Transparent orOperator := keyword_transparent fun _ => rfl
  have hAnd := level_retains hAndOperator (level_retains compare_transparent hAdditive)
  exact level_retains pipe_transparent (level_retains hOrOperator hAnd)

/-- The parts behind commas keep to the text, -/
theorem commaLoop_yields (hNested : nested.Retains text) : ∀ fuel : Nat,
    Yields text (commaLoop platform nested fuel) (ExprsWithin text)
  | 0 => unfinished_yields
  | fuel + 1 => by
      rw [commaLoop]
      apply Yields.bind peek_yields
      intro token _
      split
      · apply Yields.advanced
        apply Yields.bind (parsePipe_retains hNested)
        intro part hPart
        apply Yields.bind (commaLoop_yields hNested fuel)
        intro more hMore
        exact Yields.pure (exprsWithin_cons hPart hMore)
      · exact Yields.pure exprsWithin_nil

/-- and so does the stream that they make up. -/
theorem parseExpr_retains (hNested : nested.Retains text) : Retains text (parseExpr platform nested) := by
  apply Yields.bind (parsePipe_retains hNested)
  intro first hFirst
  refine Yields.bounded fun n => Yields.bind (commaLoop_yields hNested n) ?_
  intro more hMore
  split
  · exact Yields.pure hFirst
  · exact Yields.pure (within_exprs (f := Expr.stream) (fun _ => rfl) (exprsWithin_cons hFirst hMore))

/-- The expression of a source keeps to it: its tokens do, and the parser adds no variable to them.
-/
theorem parseSource_within (hNested : ∀ text, nested.Retains text) {source : String} {e : Expr}
    (hParse : parseSource platform nested source = .ok e) : e.RefersIn source.toList := by
  obtain ⟨tokens, hTokens, hParse⟩ := bind_eq_ok hParse
  obtain ⟨⟨parsed, c⟩, hParsed, hComplete⟩ := bind_eq_ok hParse
  have hWithin := tokenizeFrom_within _ _ hTokens
  have hExpr := (parseExpr_retains (hNested source.toList) ⟨0, tokens⟩ c parsed hWithin hParsed).1
  rw [complete] at hComplete
  split at hComplete
  · cases hComplete
  · split at hComplete
    · cases hComplete
      exact hExpr
    · cases hComplete

/-- The parser keeps to the text at any depth of nesting. The induction is on the depth. -/
theorem parserAt_retains (depth : Nat) : ∀ text, (parserAt platform depth).Retains text := by
  induction depth with
  | zero => exact fun text => ⟨unfinished_yields, unfinished_yields, fun _ _ _ hRun => (by cases hRun)⟩
  | succ depth ih =>
      intro text
      refine ⟨parseExpr_retains (ih text), parsePipe_retains (ih text), ?_⟩
      intro source e hSource hParse
      exact (parseSource_within ih hParse).mono hSource

/-- An expression mentions only variables to which its text refers. -/
theorem parse_within {source : String} {e : Expr} (hParse : parse platform source = .ok e) :
    e.RefersIn source.toList := parserAt_retains _ _ |>.source source e List.infix_rfl hParse

end Levels

end Jq
end OwsRuntime
