import OwsRuntime.Expressions.LexSteps
import OwsRuntime.Expressions.Simulation

/-! The grammar that the parser implements, as rules about the tokens which one of its
functions takes. -/
namespace OwsRuntime
namespace Jq

/-- A parser takes all of some tokens where some token comes after them. -/
def Takes {α : Type} (P : Parser α) (tokens : List Token) (a : α) (stop : Token) : Prop :=
  ∀ pos more, ∃ pos', P ⟨pos, tokens ++ stop :: more⟩ = .ok (a, ⟨pos', stop :: more⟩)

section Rules

variable {α β : Type} {stop token : Token} {tokens rest : List Token} {a : α} {b : β}

/-- A value without tokens is had before any token. -/
theorem Takes.pure : Takes (Pure.pure a) [] a stop := fun pos _ => ⟨pos, rfl⟩

/-- Two parsers one after the other: the first is followed by the first token of the second, or by
the one after both. -/
theorem Takes.bind {P : Parser α} {f : α → Parser β} (first : Takes P tokens a (rest.headD stop))
    (second : Takes (f a) rest b stop) : Takes (P >>= f) (tokens ++ rest) b stop := by
  intro pos more
  cases rest with
  | nil =>
      obtain ⟨middle, hFirst⟩ := first pos more
      obtain ⟨pos', hSecond⟩ := second middle more
      refine ⟨pos', ?_⟩
      rw [List.headD_nil] at hFirst
      rw [List.append_nil, bind_apply, hFirst]
      exact hSecond
  | cons t rest =>
      obtain ⟨middle, hFirst⟩ := first pos (rest ++ stop :: more)
      obtain ⟨pos', hSecond⟩ := second middle more
      refine ⟨pos', ?_⟩
      rw [List.headD_cons] at hFirst
      rw [bind_apply, List.append_assoc, List.cons_append, hFirst]
      exact hSecond

/-- What comes last takes no more tokens. -/
theorem Takes.bind_last {P : Parser α} {f : α → Parser β} (first : Takes P tokens a stop)
    (second : Takes (f a) [] b stop) : Takes (P >>= f) tokens b stop := by
  have hFirst : Takes P tokens a ([].headD stop) := first
  have hBoth := hFirst.bind second
  rwa [List.append_nil] at hBoth

/-- What is built of a result takes the same tokens. -/
theorem Takes.bind_pure {P : Parser α} {f : α → β} (first : Takes P tokens a stop) :
    Takes (P >>= fun a => Pure.pure (f a)) tokens (f a) stop := first.bind_last Takes.pure

/-- A look at the next token sees the first of those that are taken, or the one after them. -/
theorem Takes.peek {f : Token → Parser β} (next : Takes (f (tokens.headD stop)) tokens b stop) :
    Takes (Jq.peek >>= f) tokens b stop := by
  intro pos more
  obtain ⟨pos', hNext⟩ := next pos more
  refine ⟨pos', ?_⟩
  cases tokens <;> exact hNext

/-- The token after the next one. -/
theorem Takes.peek2 {f : Token → Parser β} (next : Takes (f (tokens.headD stop)) (token :: tokens) b stop) :
    Takes (Jq.peek2 >>= f) (token :: tokens) b stop := by
  intro pos more
  obtain ⟨pos', hNext⟩ := next pos more
  refine ⟨pos', ?_⟩
  cases tokens <;> exact hNext

/-- A token is consumed before the rest is taken. -/
theorem Takes.advance {f : Token → Parser β} (next : Takes (f token) tokens b stop) :
    Takes (Jq.advance >>= f) (token :: tokens) b stop := by
  intro pos more
  obtain ⟨pos', hNext⟩ := next (pos + 1) more
  refine ⟨pos', ?_⟩
  cases tokens <;> exact hNext

/-- A loop gets more rounds than there are tokens to take. -/
theorem Takes.remaining {f : Nat → Parser β}
    (next : ∀ fuel, tokens.length < fuel → Takes (f fuel) tokens b stop) :
    Takes (Jq.remaining >>= f) tokens b stop := by
  intro pos more
  have hLength : tokens.length < (tokens ++ stop :: more).length := by
    rw [List.length_append, List.length_cons]
    omega
  exact next _ hLength pos more

/-- A condition that holds, or not, at the tokens. -/
theorem Takes.ite_pos {c : Prop} [Decidable c] {P Q : Parser α} (hCond : c)
    (takes : Takes P tokens a stop) : Takes (if c then P else Q) tokens a stop := by
  rwa [if_pos hCond]

/-- One way of a choice takes what the choice does, where it goes that way. -/
theorem Takes.ite_neg {c : Prop} [Decidable c] {P Q : Parser α} (hCond : ¬ c)
    (takes : Takes Q tokens a stop) : Takes (if c then P else Q) tokens a stop := by
  rwa [if_neg hCond]

/-- The token that is expected is taken, -/
theorem Takes.expect {platform : Platform} {what : String} :
    Takes (Jq.expect platform token what) [token] () stop := by
  apply Takes.peek
  exact Takes.ite_pos rfl (Takes.advance Takes.pure)

/-- and so is the keyword. -/
theorem Takes.expectKeyword {platform : Platform} {keyword : String} :
    Takes (Jq.expectKeyword platform keyword) [.ident keyword] () stop := by
  apply Takes.peek
  exact Takes.ite_pos rfl (Takes.advance Takes.pure)

end Rules

section Levels

variable {operand : Parser Expr} {operator : Token → Option (Expr → Expr → Expr)}
  {stop token : Token} {tokens rest : List Token} {left right e : Expr} {fuel : Nat}

/-- A chain ends before a token that is no operator of its level. -/
theorem Takes.chain_done (hStop : operator stop = none) :
    Takes (chain operand operator (fuel + 1) left) [] left stop := by
  apply Takes.peek
  rw [List.headD_nil, hStop]
  exact Takes.pure

/-- A chain of operators takes one with its operand, and goes on with the rest. -/
theorem Takes.chain_step {build : Expr → Expr → Expr} (hOperator : operator token = some build)
    (hOperand : Takes operand tokens right (rest.headD stop))
    (hRest : Takes (chain operand operator fuel (build left right)) rest e stop) :
    Takes (chain operand operator (fuel + 1) left) (token :: (tokens ++ rest)) e stop := by
  apply Takes.peek
  rw [List.headD_cons, hOperator]
  exact Takes.advance (hOperand.bind hRest)

/-- A level takes an operand and the chain after it. -/
theorem Takes.level (hOperand : Takes operand tokens left (rest.headD stop))
    (hRest : ∀ fuel, rest.length < fuel → Takes (chain operand operator fuel left) rest e stop) :
    Takes (level operand operator) (tokens ++ rest) e stop :=
  hOperand.bind (Takes.remaining hRest)

/-- An operand alone. -/
theorem Takes.level_one (hOperand : Takes operand tokens left stop) (hStop : operator stop = none) :
    Takes (Jq.level operand operator) tokens left stop := by
  refine hOperand.bind_last (Takes.remaining fun fuel hFuel => ?_)
  obtain ⟨fuel, rfl⟩ : ∃ k, fuel = k + 1 := ⟨fuel - 1, by omega⟩
  exact Takes.chain_done hStop

/-- Two operands. -/
theorem Takes.level_two {build : Expr → Expr → Expr} (hOperator : operator token = some build)
    (hLeft : Takes operand tokens left token) (hRight : Takes operand rest right stop)
    (hStop : operator stop = none) :
    Takes (Jq.level operand operator) (tokens ++ token :: rest) (build left right) stop := by
  apply Takes.level hLeft
  intro fuel hFuel
  rw [List.length_cons] at hFuel
  obtain ⟨fuel, rfl⟩ : ∃ k, fuel = k + 2 := ⟨fuel - 2, by omega⟩
  rw [← List.append_nil rest]
  exact Takes.chain_step hOperator hRight (Takes.chain_done hStop)

/-- Three operands associate to the left. -/
theorem Takes.level_three {build build' : Expr → Expr → Expr} {middle : Expr} {token' : Token}
    {tokens' : List Token} (hOperator : operator token = some build)
    (hOperator' : operator token' = some build') (hLeft : Takes operand tokens left token)
    (hMiddle : Takes operand tokens' middle token') (hRight : Takes operand rest right stop)
    (hStop : operator stop = none) :
    Takes (Jq.level operand operator) (tokens ++ token :: (tokens' ++ token' :: rest))
      (build' (build left middle) right) stop := by
  apply Takes.level hLeft
  intro fuel hFuel
  simp only [List.length_cons, List.length_append] at hFuel
  obtain ⟨fuel, rfl⟩ : ∃ k, fuel = k + 3 := ⟨fuel - 3, by omega⟩
  rw [← List.append_nil rest]
  exact Takes.chain_step hOperator hMiddle
    (Takes.chain_step hOperator' hRight (Takes.chain_done hStop))

end Levels

section Precedence

variable {platform : Platform} {nested : Nested} {stop : Token} {tokens : List Token} {e : Expr}

/-- An operand that no operator of the level follows is taken by the level as it is: by that of the
factors, -/
theorem Takes.mult (hUnary : Takes (parseUnary platform nested) tokens e stop)
    (hStop : multOperator stop = none) : Takes (parseMult platform nested) tokens e stop :=
  hUnary.level_one hStop

/-- of the terms, -/
theorem Takes.additive (hMult : Takes (parseMult platform nested) tokens e stop)
    (hStop : additiveOperator stop = none) : Takes (parseAdditive platform nested) tokens e stop :=
  hMult.level_one hStop

/-- of the comparisons, -/
theorem Takes.compare (hAdditive : Takes (parseAdditive platform nested) tokens e stop)
    (hStop : compareOperator stop = none) : Takes (parseCompare platform nested) tokens e stop :=
  hAdditive.level_one hStop

/-- of the conjunctions, -/
theorem Takes.and (hCompare : Takes (parseCompare platform nested) tokens e stop)
    (hStop : andOperator stop = none) : Takes (parseAnd platform nested) tokens e stop :=
  hCompare.level_one hStop

/-- of the disjunctions, -/
theorem Takes.or (hAnd : Takes (parseAnd platform nested) tokens e stop)
    (hStop : orOperator stop = none) : Takes (parseOr platform nested) tokens e stop :=
  hAnd.level_one hStop

/-- and of the pipes. -/
theorem Takes.pipe (hOr : Takes (parseOr platform nested) tokens e stop)
    (hStop : pipeOperator stop = none) : Takes (parsePipe platform nested) tokens e stop :=
  hOr.level_one hStop

/-- No comma, no further part. -/
theorem Takes.commaLoop_nil {fuel : Nat} (hStop : stop ≠ .comma) :
    Takes (commaLoop platform nested (fuel + 1)) [] [] stop := by
  apply Takes.peek
  exact Takes.ite_neg hStop Takes.pure

/-- So a pipe that no comma follows is a whole expression. -/
theorem Takes.expr (hPipe : Takes (parsePipe platform nested) tokens e stop)
    (hStop : stop ≠ .comma) : Takes (parseExpr platform nested) tokens e stop := by
  refine hPipe.bind_last (Takes.remaining fun fuel hFuel => ?_)
  obtain ⟨fuel, rfl⟩ : ∃ k, fuel = k + 1 := ⟨fuel - 1, by omega⟩
  exact (Takes.commaLoop_nil hStop).bind_last Takes.pure

/-- A stream of two expressions. -/
theorem Takes.expr_two {rest : List Token} {r : Expr}
    (hFirst : Takes (parsePipe platform nested) tokens e .comma)
    (hSecond : Takes (parsePipe platform nested) rest r stop) (hStop : stop ≠ .comma) :
    Takes (parseExpr platform nested) (tokens ++ .comma :: rest) (.stream [e, r]) stop := by
  refine Takes.bind hFirst (Takes.remaining fun fuel hFuel => ?_)
  rw [List.length_cons] at hFuel
  obtain ⟨fuel, rfl⟩ : ∃ k, fuel = k + 2 := ⟨fuel - 2, by omega⟩
  have hLoop : Takes (commaLoop platform nested (fuel + 2)) (.comma :: (rest ++ [])) [r] stop := by
    apply Takes.peek
    refine Takes.ite_pos rfl (Takes.advance (Takes.bind hSecond ?_))
    exact (Takes.commaLoop_nil hStop).bind_last Takes.pure
  rw [List.append_nil] at hLoop
  exact Takes.bind_pure (f := fun more => if more.isEmpty then e else .stream (e :: more)) hLoop

/-- A path ends where neither a dot nor a bracket follows. -/
theorem Takes.access_done {fuel : Nat} {base : Expr} (hStop : stop ≠ .dot ∧ stop ≠ .lBracket) :
    Takes (postfixLoop platform nested (fuel + 1) base) [] base stop := by
  apply Takes.peek
  rw [List.headD_nil]
  cases stop with
  | dot => exact absurd rfl hStop.1
  | lBracket => exact absurd rfl hStop.2
  | _ => exact Takes.pure

/-- A base with nothing after it that goes on with it. -/
theorem Takes.unaccessed (hBase : Takes (parseBase platform nested) tokens e stop)
    (hStop : stop ≠ .dot ∧ stop ≠ .lBracket) : Takes (parsePostfix platform nested) tokens e stop := by
  refine hBase.bind_last (Takes.remaining fun fuel hFuel => ?_)
  obtain ⟨fuel, rfl⟩ : ∃ k, fuel = k + 1 := ⟨fuel - 1, by omega⟩
  exact Takes.access_done hStop

/-- A word or a minus before an operand is an operator. -/
theorem Takes.unary (hPostfix : Takes (parsePostfix platform nested) tokens e stop)
    (hNot : tokens.headD stop ≠ .ident "not") (hMinus : tokens.headD stop ≠ .minus) :
    Takes (parseUnary platform nested) tokens e stop := by
  refine Takes.remaining fun fuel hFuel => ?_
  obtain ⟨fuel, rfl⟩ : ∃ k, fuel = k + 1 := ⟨fuel - 1, by omega⟩
  apply Takes.peek
  exact Takes.ite_neg hNot (Takes.ite_neg hMinus hPostfix)

/-- An operator in front of an operand. -/
theorem Takes.unary_op {op : UnaryOp} {token : Token}
    (hOp : (op, token) = (.not, .ident "not") ∨ (op, token) = (.negate, .minus))
    (hPostfix : Takes (parsePostfix platform nested) tokens e stop)
    (hNot : tokens.headD stop ≠ .ident "not") (hMinus : tokens.headD stop ≠ .minus) :
    Takes (parseUnary platform nested) (token :: tokens) (.unary op e) stop := by
  refine Takes.remaining fun fuel hFuel => ?_
  rw [List.length_cons] at hFuel
  obtain ⟨fuel, rfl⟩ : ∃ k, fuel = k + 2 := ⟨fuel - 2, by omega⟩
  have hOperand : Takes (unaryLoop platform nested (fuel + 1)) tokens e stop :=
    Takes.peek (Takes.ite_neg hNot (Takes.ite_neg hMinus hPostfix))
  rcases hOp with hOp | hOp
  · cases hOp
    exact Takes.peek (Takes.ite_pos rfl (Takes.advance hOperand.bind_pure))
  · cases hOp
    exact Takes.peek (Takes.ite_neg (by nofun) (Takes.ite_pos rfl (Takes.advance hOperand.bind_pure)))

/-- An expression in parentheses is a base. -/
theorem Takes.paren (hInner : Takes nested.expr tokens e .rParen) :
    Takes (parseBase platform nested) (.lParen :: (tokens ++ [.rParen])) e stop := by
  apply Takes.peek
  refine Takes.advance (Takes.bind hInner ?_)
  exact Takes.expect.bind_last Takes.pure

end Precedence

section Strings

variable {platform : Platform} {nested : Nested} {stop : Token}

/-- What the parser makes of a token of a string. -/
inductive PartOf (nested : Nested) : Token → InterpPart → Prop where
  | literal (s : String) : PartOf nested (.str s) (.literal s)
  | expr {source : String} {e : Expr} (hSource : nested.source source = .ok e) :
      PartOf nested (.interp source) (.expr e)

/-- A token that is no part of a string. -/
def Token.EndsString (token : Token) : Prop :=
  (∀ s, token ≠ .str s) ∧ ∀ source, token ≠ .interp source

/-- The parts of a string are taken one by one, up to what is no part of it. The induction is on the
parts. -/
theorem Takes.parts (hStop : stop.EndsString) {tokens : List Token} {parts : List InterpPart}
    (hParts : List.Forall₂ (PartOf nested) tokens parts) : ∀ fuel, tokens.length < fuel →
      Takes (stringParts nested fuel) tokens parts stop := by
  induction hParts with
  | nil =>
      intro fuel hFuel
      obtain ⟨fuel, rfl⟩ : ∃ k, fuel = k + 1 := ⟨fuel - 1, by omega⟩
      apply Takes.peek
      rw [List.headD_nil]
      cases stop with
      | str s => exact absurd rfl (hStop.1 s)
      | interp source => exact absurd rfl (hStop.2 source)
      | _ => exact Takes.pure
  | cons hPart _ ih =>
      intro fuel hFuel
      rw [List.length_cons] at hFuel
      obtain ⟨fuel, rfl⟩ : ∃ k, fuel = k + 1 := ⟨fuel - 1, by omega⟩
      have hRest := ih fuel (by omega)
      apply Takes.peek
      cases hPart with
      | literal s => exact Takes.advance hRest.bind_pure
      | @expr source e hSource =>
          apply Takes.advance
          intro pos more
          obtain ⟨pos', hRun⟩ := hRest.bind_pure (f := fun rest => InterpPart.expr e :: rest) pos more
          refine ⟨pos', ?_⟩
          rw [hSource]
          exact hRun

/-- A string. -/
theorem Takes.string (hStop : stop.EndsString) {token : Token} {tokens : List Token}
    {parts : List InterpPart} (hParts : List.Forall₂ (PartOf nested) (token :: tokens) parts) :
    Takes (parseBase platform nested) (token :: tokens) (.str parts) stop := by
  have hString : Takes (parseStringParts nested) (token :: tokens) (.str parts) stop :=
    Takes.remaining fun fuel hFuel => (Takes.parts hStop hParts fuel hFuel).bind_pure
  apply Takes.peek
  cases hParts with
  | cons hPart _ => cases hPart <;> exact hString

end Strings

section Collections

variable {platform : Platform} {nested : Nested} {stop close : Token} {ts : List (List Token)}

/-- The tokens of an expression between the commas and brackets of a collection. -/
structure Element (nested : Nested) (close : Token) (tokens : List Token) (e : Expr) : Prop where
  comma : Takes nested.pipe tokens e .comma
  close : Takes nested.pipe tokens e close

/-- The tokens of an entry of an object. -/
inductive Entry (platform : Platform) (nested : Nested) : List Token → ObjKey × Expr → Prop where
  | intro {key value : List Token} {k : ObjKey} {e : Expr} (hFirst : key.headD .rBrace ≠ .rBrace)
      (hKey : Takes (parseObjectKey platform nested) key k .colon)
      (hValue : Element nested .rBrace value e) :
      Entry platform nested (key ++ .colon :: value) (k, e)

/-- A list of elements with separators begins with the first token of the first element. -/
theorem headD_intercalate {token : Token} {t : List Token} (ht : t.headD close ≠ close)
    (tail : List Token) : (List.intercalate [token] (t :: ts) ++ tail).headD stop ≠ close := by
  cases t with
  | nil => exact absurd rfl ht
  | cons b t =>
      rw [List.headD_cons] at ht
      cases ts with
      | nil => rwa [List.intercalate_singleton]
      | cons t' ts => rwa [List.intercalate_cons_cons]

/-- The elements of an array, with commas between them. The induction is on the elements. -/
theorem Takes.arrayLoop {es : List Expr} (hElements : List.Forall₂ (Element nested .rBracket) ts es)
    (hAlone : ∀ e ∈ es, elements e = [e]) (hNonempty : ts ≠ []) : ∀ fuel,
      (List.intercalate [.comma] ts).length < fuel →
        Takes (Jq.arrayLoop nested fuel) (List.intercalate [.comma] ts) es .rBracket := by
  induction hElements with
  | nil => exact absurd rfl hNonempty
  | @cons t e ts es hElement hRest ih =>
      intro fuel hFuel
      obtain ⟨fuel, rfl⟩ : ∃ k, fuel = k + 1 := ⟨fuel - 1, by omega⟩
      have hOwn := hAlone e List.mem_cons_self
      cases hRest with
      | nil =>
          rw [List.intercalate_singleton, ← List.append_nil t]
          refine Takes.bind hElement.close (Takes.peek (Takes.ite_neg (by nofun) ?_))
          rw [hOwn]
          exact Takes.pure
      | @cons t' e' ts es hElement' hRest =>
          rw [List.intercalate_cons_cons] at hFuel ⊢
          simp only [List.length_append, List.length_singleton] at hFuel
          rw [List.append_assoc]
          have hMore := ih (fun e he => hAlone e (List.mem_cons_of_mem _ he)) (by nofun) fuel (by omega)
          refine Takes.bind hElement.comma (Takes.peek (Takes.ite_pos rfl (Takes.advance ?_)))
          rw [hOwn]
          exact hMore.bind_pure

/-- An array of expressions which are no streams. -/
theorem Takes.array {es : List Expr} (hElements : List.Forall₂ (Element nested .rBracket) ts es)
    (hAlone : ∀ e ∈ es, elements e = [e]) (hFirst : ∀ t ∈ ts, t.headD .rBracket ≠ .rBracket) :
    Takes (parseBase platform nested)
      (.lBracket :: (List.intercalate [.comma] ts ++ [.rBracket])) (.array es) stop := by
  apply Takes.peek
  show Takes (parseArray platform nested)
    ([Token.lBracket] ++ (List.intercalate [.comma] ts ++ [.rBracket])) (.array es) stop
  refine Takes.bind Takes.expect (Takes.peek ?_)
  cases hElements with
  | nil => exact Takes.ite_pos rfl (Takes.advance Takes.pure)
  | @cons t e ts es hElement hRest =>
      have hHead : (List.intercalate [.comma] (t :: ts) ++ [Token.rBracket]).headD stop ≠ .rBracket :=
        headD_intercalate (hFirst t List.mem_cons_self) _
      refine Takes.ite_neg hHead (Takes.remaining fun fuel hFuel => ?_)
      rw [List.length_append] at hFuel
      have hLoop := Takes.arrayLoop (.cons hElement hRest) hAlone (by nofun) fuel (by omega)
      exact Takes.bind hLoop (Takes.expect.bind_last Takes.pure)

/-- The entries of an object, with commas between them. The induction is on the entries. -/
theorem Takes.objectLoop {entries : List (ObjKey × Expr)}
    (hEntries : List.Forall₂ (Entry platform nested) ts entries) (hNonempty : ts ≠ []) : ∀ fuel,
      (List.intercalate [.comma] ts).length < fuel →
        Takes (Jq.objectLoop platform nested fuel) (List.intercalate [.comma] ts) entries .rBrace := by
  induction hEntries with
  | nil => exact absurd rfl hNonempty
  | @cons t entry ts entries hEntry hRest ih =>
      intro fuel hFuel
      obtain ⟨fuel, rfl⟩ : ∃ k, fuel = k + 1 := ⟨fuel - 1, by omega⟩
      cases hEntry with
      | @intro key value k e hFirst hKey hValue =>
          cases hRest with
          | nil =>
              rw [List.intercalate_singleton]
              refine Takes.bind hKey ?_
              show Takes _ ([Token.colon] ++ value) _ _
              refine Takes.bind Takes.expect ?_
              rw [← List.append_nil value]
              exact Takes.bind hValue.close (Takes.peek (Takes.ite_neg (by nofun) Takes.pure))
          | @cons t' entry' ts entries hEntry' hRest =>
              rw [List.intercalate_cons_cons] at hFuel ⊢
              simp only [List.length_append, List.length_singleton] at hFuel
              rw [List.append_assoc, List.append_assoc]
              have hMore := ih (by nofun) fuel (by omega)
              refine Takes.bind hKey ?_
              show Takes _ ([Token.colon] ++ (value ++ _)) _ _
              refine Takes.bind Takes.expect (Takes.bind hValue.comma ?_)
              exact Takes.peek (Takes.ite_pos rfl (Takes.advance hMore.bind_pure))

/-- An object is taken between its braces, with its entries separated by commas, and nothing after
it matters. -/
theorem Takes.object {entries : List (ObjKey × Expr)}
    (hEntries : List.Forall₂ (Entry platform nested) ts entries) :
    Takes (parseBase platform nested)
      (.lBrace :: (List.intercalate [.comma] ts ++ [.rBrace])) (.object entries) stop := by
  apply Takes.peek
  show Takes (parseObject platform nested)
    ([Token.lBrace] ++ (List.intercalate [.comma] ts ++ [.rBrace])) (.object entries) stop
  refine Takes.bind Takes.expect (Takes.peek ?_)
  cases hEntries with
  | nil => exact Takes.ite_pos rfl (Takes.advance Takes.pure)
  | @cons t entry ts entries hEntry hRest =>
      have hFirst : t.headD .rBrace ≠ .rBrace := by
        cases hEntry with
        | @intro key _ _ _ hFirst _ _ =>
            cases key with
            | nil => exact absurd rfl hFirst
            | cons b key => exact hFirst
      have hHead : (List.intercalate [.comma] (t :: ts) ++ [Token.rBrace]).headD stop ≠ .rBrace :=
        headD_intercalate hFirst _
      refine Takes.ite_neg hHead (Takes.remaining fun fuel hFuel => ?_)
      rw [List.length_append] at hFuel
      have hLoop := Takes.objectLoop (.cons hEntry hRest) (by nofun) fuel (by omega)
      exact Takes.bind hLoop (Takes.expect.bind_last Takes.pure)

/-- The tokens of an argument in front of what may come after it. -/
structure Argument (nested : Nested) (tokens : List Token) (e : Expr) : Prop where
  semicolon : Takes nested.pipe tokens e .semicolon
  close : Takes nested.pipe tokens e .rParen

/-- The arguments of a call, with semicolons between them. The induction is on the arguments. -/
theorem Takes.argsLoop {es : List Expr} (hArgs : List.Forall₂ (Argument nested) ts es)
    (hNonempty : ts ≠ []) : ∀ fuel, (List.intercalate [.semicolon] ts).length < fuel →
      Takes (Jq.argsLoop nested fuel) (List.intercalate [.semicolon] ts) es .rParen := by
  induction hArgs with
  | nil => exact absurd rfl hNonempty
  | @cons t e ts es hArg hRest ih =>
      intro fuel hFuel
      obtain ⟨fuel, rfl⟩ : ∃ k, fuel = k + 1 := ⟨fuel - 1, by omega⟩
      cases hRest with
      | nil =>
          rw [List.intercalate_singleton, ← List.append_nil t]
          exact Takes.bind hArg.close (Takes.peek (Takes.ite_neg (by simp) Takes.pure))
      | @cons t' e' ts es hArg' hRest =>
          rw [List.intercalate_cons_cons] at hFuel ⊢
          simp only [List.length_append, List.length_singleton] at hFuel
          rw [List.append_assoc]
          have hMore := ih (by nofun) fuel (by omega)
          exact Takes.bind hArg.semicolon
            (Takes.peek (Takes.ite_pos (Or.inr rfl) (Takes.advance hMore.bind_pure)))

/-- A call with arguments is taken from its name and the parentheses after it, when the name is none
of those that the parser reads otherwise. -/
theorem Takes.call {name : String} {es : List Expr} (hName : name ∉ ["true", "false", "null", "if"])
    (hArgs : List.Forall₂ (Argument nested) ts es) (hNonempty : ts ≠ [])
    (hFirst : ∀ t ∈ ts, t.headD .rParen ≠ .rParen) :
    Takes (parseBase platform nested)
      (.ident name :: .lParen :: (List.intercalate [.semicolon] ts ++ [.rParen])) (.call name es)
      stop := by
  simp only [List.mem_cons, List.not_mem_nil, or_false, not_or] at hName
  apply Takes.peek
  refine Takes.ite_neg hName.1 (Takes.ite_neg hName.2.1 (Takes.ite_neg hName.2.2.1
    (Takes.ite_neg hName.2.2.2 (Takes.peek2 (Takes.ite_pos rfl ?_)))))
  refine Takes.advance (Takes.advance ?_)
  obtain ⟨t, ts, rfl⟩ := List.exists_cons_of_ne_nil hNonempty
  have hHead : (List.intercalate [.semicolon] (t :: ts) ++ [Token.rParen]).headD stop ≠ .rParen :=
    headD_intercalate (hFirst t List.mem_cons_self) _
  have hHead' : (List.intercalate [.semicolon] (t :: ts)).headD .rParen ≠ .rParen := by
    have hAlone : (List.intercalate [Token.semicolon] (t :: ts) ++ []).headD .rParen ≠ .rParen :=
      headD_intercalate (hFirst t List.mem_cons_self) []
    rwa [List.append_nil] at hAlone
  have hLoop : Takes (parseArgs nested) (List.intercalate [.semicolon] (t :: ts)) es .rParen :=
    Takes.peek (Takes.ite_neg hHead' (Takes.remaining fun fuel hFuel =>
      Takes.argsLoop hArgs hNonempty fuel hFuel))
  exact Takes.bind hLoop (Takes.expect.bind_last Takes.pure)

end Collections

section Conditionals

variable {platform : Platform} {nested : Nested} {stop : Token} {tc tt te tf tr : List Token}
  {c t e f r : Expr}

/-- An `if` before what its parser takes. -/
theorem Takes.if_ {tokens : List Token}
    (hIf : Takes (parseIf platform nested) (.ident "if" :: tokens) e stop) :
    Takes (parseBase platform nested) (.ident "if" :: tokens) e stop := by
  apply Takes.peek
  exact Takes.ite_neg (by simp) (Takes.ite_neg (by simp) (Takes.ite_neg (by simp)
    (Takes.ite_pos rfl hIf)))

/-- An `if` without an `elif` part of its own. -/
theorem Takes.ifTail (hCond : Takes nested.expr tc c (.ident "then"))
    (hThen : Takes nested.expr tt t (te.headD (.ident "end"))) (hElif : te.head? ≠ some (.ident "elif"))
    (hTail : Takes (parseElseTail nested) te e (.ident "end")) :
    Takes (parseBase platform nested) (.ident "if" :: (tc ++ .ident "then" ::
      (tt ++ (te ++ [.ident "end"])))) (.if_ c t e) stop := by
  have hHead : (te ++ [Token.ident "end"]).headD stop = te.headD (.ident "end") := by cases te <;> rfl
  have hNext : te.headD (.ident "end") ≠ .ident "elif" := by
    cases te with
    | nil => simp
    | cons u te => simpa using hElif
  apply Takes.if_
  refine Takes.advance (Takes.bind hCond ?_)
  show Takes _ ([Token.ident "then"] ++ (tt ++ (te ++ [.ident "end"]))) _ _
  refine Takes.bind Takes.expectKeyword (Takes.bind (by rwa [hHead]) (Takes.peek ?_))
  exact Takes.ite_neg (by rwa [hHead]) (Takes.bind hTail (Takes.expectKeyword.bind_last Takes.pure))

/-- An `if` with an `elif` part. -/
theorem Takes.elifTail (hCond : Takes nested.expr tc c (.ident "then"))
    (hThen : Takes nested.expr tt t (.ident "elif")) (hOther : Takes nested.expr tr r (.ident "then"))
    (hLast : Takes nested.expr tf f (te.headD (.ident "end")))
    (hTail : Takes (parseElseTail nested) te e (.ident "end")) :
    Takes (parseBase platform nested) (.ident "if" :: (tc ++ .ident "then" ::
      (tt ++ .ident "elif" :: (tr ++ .ident "then" :: (tf ++ (te ++ [.ident "end"]))))))
      (.if_ c t (.if_ r f e)) stop := by
  have hHead : (te ++ [Token.ident "end"]).headD stop = te.headD (.ident "end") := by cases te <;> rfl
  apply Takes.if_
  refine Takes.advance (Takes.bind hCond ?_)
  show Takes _ ([Token.ident "then"] ++ _) _ _
  refine Takes.bind Takes.expectKeyword (Takes.bind hThen (Takes.peek ?_))
  refine Takes.ite_pos rfl (Takes.advance (Takes.bind hOther ?_))
  show Takes _ ([Token.ident "then"] ++ (tf ++ (te ++ [.ident "end"]))) _ _
  refine Takes.bind Takes.expectKeyword (Takes.bind (by rwa [hHead]) ?_)
  exact Takes.bind hTail (Takes.expectKeyword.bind_last Takes.pure)

/-- The last branch of an `if`. -/
theorem Takes.elseTail (hElse : Takes nested.expr te e stop) :
    Takes (parseElseTail nested) (.ident "else" :: te) e stop := by
  apply Takes.peek
  exact Takes.ite_pos rfl (Takes.advance hElse)

/-- No `else` is null. -/
theorem Takes.noElse : Takes (parseElseTail nested) [] (.literal .null) (.ident "end") := by
  apply Takes.peek
  exact Takes.ite_neg (by simp) (Takes.peek (Takes.ite_neg (by simp) Takes.pure))

/-- An `if` with an `else`. -/
theorem Takes.ifElse (hCond : Takes nested.expr tc c (.ident "then"))
    (hThen : Takes nested.expr tt t (.ident "else")) (hElse : Takes nested.expr te e (.ident "end")) :
    Takes (parseBase platform nested) (.ident "if" :: (tc ++ .ident "then" ::
      (tt ++ .ident "else" :: (te ++ [.ident "end"])))) (.if_ c t e) stop :=
  hCond.ifTail hThen (by simp) hElse.elseTail

/-- An `if` with an `elif` and no `else`. -/
theorem Takes.ifElif (hCond : Takes nested.expr tc c (.ident "then"))
    (hThen : Takes nested.expr tt t (.ident "elif")) (hOther : Takes nested.expr te e (.ident "then"))
    (hLast : Takes nested.expr tf f (.ident "end")) :
    Takes (parseBase platform nested) (.ident "if" :: (tc ++ .ident "then" ::
      (tt ++ .ident "elif" :: (te ++ .ident "then" :: (tf ++ [.ident "end"])))))
      (.if_ c t (.if_ e f (.literal .null))) stop := by
  rw [← List.nil_append [Token.ident "end"]]
  exact hCond.elifTail hThen hOther hLast Takes.noElse

end Conditionals

section Operands

variable {platform : Platform}

/-- A text of which the parser makes one operand where some token comes after it. -/
def Operand (platform : Platform) (stop : Token) (text : String) (e : Expr) : Prop :=
  ∃ tokens, NoEof tokens ∧ Lexes platform text.toList tokens [] ∧
    ∀ depth, text.length ≤ depth →
      Takes (parseUnary platform (parserAt platform depth)) tokens e stop

/-- A source in parentheses. The line feed ends a comment at its end. -/
def parenthesized (source : String) : String := "(" ++ source ++ "\n)"

/-- A source in parentheses has a line break before the closing one, so that a comment at its end
does not hide it. -/
theorem toList_parenthesized (source : String) :
    (parenthesized source).toList = '(' :: (source.toList ++ ['\n', ')']) := by
  simp [parenthesized, String.toList_append]

/-- It is three characters longer. -/
theorem length_parenthesized (source : String) :
    (parenthesized source).length = source.length + 3 := by
  have hLength := congrArg List.length (toList_parenthesized source)
  rw [String.length_toList, List.length_cons, List.length_append, String.length_toList] at hLength
  exact hLength

/-- Every source that is accepted is an operand when it is put in parentheses. -/
theorem operand_parenthesized {source : String} {e : Expr} (hParse : parse platform source = .ok e)
    {stop : Token} (hStop : stop ≠ .dot ∧ stop ≠ .lBracket) :
    Operand platform stop (parenthesized source) e := by
  obtain ⟨tokens, hTokens, hTokenize, hTakes⟩ := parse_tokens hParse
  obtain ⟨last, hLexes, hLast⟩ := (tokenize_eq_ok_iff hTokens).mp hTokenize
  refine ⟨.lParen :: (tokens ++ [.rParen]), ?_, ?_, fun depth hDepth => ?_⟩
  · have hParen : NoEof [Token.lParen] := noEof_singleton (by nofun)
    have hClose : NoEof [Token.rParen] := noEof_singleton (by nofun)
    exact noEof_append hParen (noEof_append hTokens hClose)
  · have hOpen : Lexes platform ('(' :: (source.toList ++ ['\n', ')'])) [.lParen]
        (source.toList ++ ['\n', ')']) := Lexes.symbol rfl (by decide)
    have hClose : Lexes platform [')'] [.rParen] [] := Lexes.symbol rfl (by decide)
    have hEnd : Lexes platform (last ++ ['\n', ')']) [.rParen] [] := hClose.of_finished hLast
    rw [toList_parenthesized]
    exact hOpen.trans ((hLexes.append (follows_newline [')'])).trans hEnd)
  · rw [length_parenthesized] at hDepth
    have hInner : Takes (parserAt platform depth).expr tokens e .rParen :=
      fun pos more => hTakes .rParen more rfl depth (by omega) pos
    have hNot : (Token.lParen :: (tokens ++ [.rParen])).headD stop ≠ .ident "not" := by nofun
    have hMinus : (Token.lParen :: (tokens ++ [.rParen])).headD stop ≠ .minus := by nofun
    exact (hInner.paren.unaccessed hStop).unary hNot hMinus

/-- The end of the input is none of these tokens. -/
theorem noEof_cons {token : Token} {tokens : List Token} (hToken : token ≠ .eof)
    (hTokens : NoEof tokens) : NoEof (token :: tokens) :=
  noEof_append (noEof_singleton hToken) hTokens

/-- A source is accepted whose tokens the parser takes up to the end of the input. -/
theorem parse_of_takes {source : String} {tokens : List Token} {last : List Char} {e : Expr}
    (hTokens : NoEof tokens) (hLexes : Lexes platform source.toList tokens last)
    (hLast : Finished last)
    (hTakes : Takes (parseExpr platform (parserAt platform source.length)) tokens e .eof) :
    parse platform source = .ok e := by
  have hTokenize := (tokenize_eq_ok_iff hTokens).mpr ⟨last, hLexes, hLast⟩
  obtain ⟨pos, hRun⟩ := hTakes 0 []
  exact parseSource_eq_ok_iff.mpr ⟨tokens, _, hTokens, hTokenize, hRun, rfl⟩

/-- What the parser does with a source that is accepted. -/
theorem run_of_parse {source : String} {tokens : List Token} {last : List Char} {e : Expr}
    (hTokens : NoEof tokens) (hLexes : Lexes platform source.toList tokens last)
    (hLast : Finished last) (hParse : parse platform source = .ok e) :
    ∃ c, parseExpr platform (parserAt platform source.length) ⟨0, tokens ++ [.eof]⟩ = .ok (e, c) ∧
      c.rest.head? = some .eof := by
  obtain ⟨found, c, _, hFound, hRun, hEnd⟩ := parseSource_eq_ok_iff.mp hParse
  have hTokenize := (tokenize_eq_ok_iff hTokens).mpr ⟨last, hLexes, hLast⟩
  rw [hFound] at hTokenize
  injection hTokenize with hSame
  rw [hSame] at hRun
  exact ⟨c, hRun, hEnd⟩

/-- Nor is it among those of an `if`. -/
theorem noEof_ifElse {ta tb tc : List Token} (ha : NoEof ta) (hb : NoEof tb) (hc : NoEof tc) :
    NoEof (.ident "if" :: (ta ++ .ident "then" :: (tb ++ .ident "else" :: (tc ++ [.ident "end"])))) := by
  have hEnd : NoEof [Token.ident "end"] := noEof_singleton (by nofun)
  exact noEof_cons (by nofun) (noEof_append ha (noEof_cons (by nofun)
    (noEof_append hb (noEof_cons (by nofun) (noEof_append hc hEnd)))))

/-- A text between spaces, with an operator after it. -/
theorem lexes_operand {text rest : List Char} {tokens more : List Token} {symbol : String}
    {token : Token} {last : List Char} (hOperand : Lexes platform text tokens [])
    (hSymbol : Lexes platform (symbol.toList ++ ' ' :: rest) [token] (' ' :: rest))
    (hRest : Lexes platform rest more last) :
    Lexes platform (text ++ ' ' :: (symbol.toList ++ ' ' :: rest)) (tokens ++ token :: more) last := by
  have hText : Lexes platform (text ++ ' ' :: (symbol.toList ++ ' ' :: rest)) tokens
      (' ' :: (symbol.toList ++ ' ' :: rest)) := hOperand.append (follows_space _)
  exact hText.trans (hSymbol.trans hRest.space).space

/-- The words of the grammar, before a blank or the end. -/
theorem lexes_reserved {rest : List Char} (word : String)
    (hWord : word ∈ ["and", "or", "if", "then", "else", "elif", "end"])
    (hRest : ∀ b, rest.head? = some b → isIdentChar platform b = false) :
    Lexes platform (word.toList ++ rest) [.ident word] rest := by
  simp only [List.mem_cons, List.not_mem_nil, or_false] at hWord
  rcases hWord with rfl | rfl | rfl | rfl | rfl | rfl | rfl
  all_goals exact Lexes.asciiWord rfl (by decide) (by decide) hRest

/-- A keyword with a space after it is a token of its own. -/
theorem lexes_reserved_space {rest : List Char} (word : String)
    (hWord : word ∈ ["and", "or", "if", "then", "else", "elif", "end"]) :
    Lexes platform (word.toList ++ ' ' :: rest) [.ident word] (' ' :: rest) :=
  lexes_reserved word hWord fun b hb => (follows_space rest b hb).notIdent

end Operands

namespace BinOp

/-- How an operator is written. -/
def symbol : BinOp → String
  | add => "+"
  | sub => "-"
  | mul => "*"
  | div => "/"
  | mod => "%"
  | eq => "=="
  | ne => "!="
  | lt => "<"
  | le => "<="
  | gt => ">"
  | ge => ">="
  | and => "and"
  | or => "or"
  | alternative => "//"

def token : BinOp → Token
  | add => .plus
  | sub => .minus
  | mul => .star
  | div => .slash
  | mod => .percent
  | eq => .eqEq
  | ne => .ne
  | lt => .lt
  | le => .le
  | gt => .gt
  | ge => .ge
  | and => .ident "and"
  | or => .ident "or"
  | alternative => .alternative

/-- The token of an operator is not the end of the input, -/
theorem token_ne_eof (op : BinOp) : op.token ≠ .eof := by cases op <;> nofun

/-- and goes on with no path. -/
theorem token_no_access (op : BinOp) : op.token ≠ .dot ∧ op.token ≠ .lBracket := by
  cases op <;> exact ⟨by nofun, by nofun⟩

/-- An operator between spaces is one token, as nothing that goes on with it follows. There is a
case for each operator. -/
theorem lexes_symbol {platform : Platform} (op : BinOp) (rest : List Char) :
    Lexes platform (op.symbol.toList ++ ' ' :: rest) [op.token] (' ' :: rest) := by
  have hAlone : ∀ c d, (' ' :: rest).head? = some d → operators2.lookup (c, d) = none := by
    intro c d hHead
    cases hHead
    have hSecond : ∀ e ∈ operators2, e.1.2 ≠ ' ' := by decide
    cases hLookup : operators2.lookup (c, ' ') with
    | none => rfl
    | some found => exact absurd rfl (hSecond _ (mem_of_lookup hLookup))
  have hWord : ∀ b, (' ' :: rest).head? = some b → isIdentChar platform b = false :=
    fun b hb => (follows_space rest b hb).notIdent
  have hAnd : "and".toList = 'a' :: ['n', 'd'] := rfl
  have hOr : "or".toList = 'o' :: ['r'] := rfl
  cases op with
  | add => exact Lexes.single (by rfl) (hAlone _)
  | sub => exact Lexes.single (by rfl) (hAlone _)
  | mul => exact Lexes.single (by rfl) (hAlone _)
  | div => exact Lexes.single (by rfl) (hAlone _)
  | mod => exact Lexes.single (by rfl) (hAlone _)
  | lt => exact Lexes.single (by rfl) (hAlone _)
  | gt => exact Lexes.single (by rfl) (hAlone _)
  | eq => exact Lexes.double (by rfl)
  | ne => exact Lexes.double (by rfl)
  | le => exact Lexes.double (by rfl)
  | ge => exact Lexes.double (by rfl)
  | alternative => exact Lexes.double (by rfl)
  | and => exact Lexes.asciiWord hAnd (by decide) (by decide) hWord
  | or => exact Lexes.asciiWord hOr (by decide) (by decide) hWord

end BinOp

end Jq
end OwsRuntime
