import OwsRuntime.Expressions.Printing

/-! The tokens of the texts of trees, and how the parser takes them. Each kind of tree is put
together from its operands. -/
namespace OwsRuntime
namespace Jq

/-- A token that does not go on with an operand. -/
def Token.mayFollow (e : Expr) : Token → Bool
  | .str _ => false
  | .interp _ => false
  | .lParen => false
  | .ident _ => !e.isIdentity
  | .lBracket => !e.isIdentity
  | _ => true

/-- A token that the text of an operand may begin with. -/
def Token.opens (token : Token) : Prop :=
  token ≠ .ident "not" ∧ token ≠ .minus ∧ token ≠ .rBracket ∧ token ≠ .rParen

/-- The text of an operand, with its tokens. -/
structure Stands (platform : Platform) (text : List Char) (tokens : List Token) (e : Expr) : Prop where
  noEof : NoEof tokens
  lexes : ∀ rest, Follows platform rest → Lexes platform (text ++ rest) tokens rest
  accessed : e.isIdentity = false → e.isNumber = false →
    ∀ rest, Lexes platform (text ++ '.' :: rest) tokens ('.' :: rest)
  first : ∃ t rest, tokens = t :: rest ∧ t.opens
  takes : ∀ depth, text.length ≤ depth → ∀ stop : Token, stop.mayFollow e = true →
    Takes (parseBase platform (parserAt platform depth)) tokens e stop

/-- The text of a whole expression, with its tokens. -/
structure Whole (platform : Platform) (text : List Char) (tokens : List Token) (e : Expr) : Prop where
  noEof : NoEof tokens
  lexes : ∀ rest, Follows platform rest → Lexes platform (text ++ rest) tokens rest
  takes : ∀ depth, text.length ≤ depth → ∀ stop, stop = .rParen ∨ stop = .eof →
    Takes (parsePipe platform (parserAt platform depth)) tokens e stop

section Lexing

variable {platform : Platform} {rest : List Char}

/-- A character in front of a separator is no operator of two characters. -/
theorem Follows.alone (follows : Follows platform rest) {c : Char} :
    ∀ d, rest.head? = some d → operators2.lookup (c, d) = none := by
  intro d hd
  have hSecond : ∀ e ∈ operators2, e.1.2 ∈ ['.', '=', '/', '+', '-'] := by decide
  cases hLookup : operators2.lookup (c, d) with
  | none => rfl
  | some token => exact absurd (hSecond _ (mem_of_lookup hLookup)) (follows d hd).notOther

/-- A dot is no character of an identifier. -/
theorem notIdent_dot {c : Char} (hc : ('.' :: rest).head? = some c) :
    isIdentChar platform c = false := by
  cases hc
  rw [isIdentChar_ascii (by decide)]
  rfl

/-- A variable, up to what is no character of its name. -/
theorem Lexes.dollar {name : String} (hName : ∀ c ∈ name.toList, isIdentChar platform c = true)
    (hRest : ∀ b, rest.head? = some b → isIdentChar platform b = false) :
    Lexes platform ('$' :: (name.toList ++ rest)) [.var name] rest := by
  refine Lexes.one (by decide) (by decide) fun total => ?_
  obtain ⟨hTake, hDrop⟩ := takeWhile_of_all hName hRest
  have hNone : ((name.toList ++ rest).head?.bind fun d => operators2.lookup ('$', d)) = none := by
    have hFirst : ∀ e ∈ operators2, e.1.1 ≠ '$' := by decide
    refine Option.bind_eq_none_iff.mpr fun d _ => ?_
    cases hLookup : operators2.lookup ('$', d) with
    | none => rfl
    | some token => exact absurd rfl (hFirst _ (mem_of_lookup hLookup))
  have hSingle : singles.lookup '$' = none := rfl
  rw [readToken, hNone]
  simp only [hSingle, if_true]
  rw [readIdent, hTake, hDrop, String.ofList_toList]

end Lexing

section Atoms

variable {platform : Platform} {nested : Nested} {stop : Token}

/-- The identity is written as a dot, which nothing may access. -/
theorem stands_identity : Stands platform ['.'] [.dot] .identity where
  noEof := noEof_singleton (by nofun)
  lexes := fun rest hRest => Lexes.single rfl hRest.alone
  accessed := fun hOther => by cases hOther
  first := ⟨.dot, [], rfl, by simp [Token.opens]⟩
  takes := by
    intro depth _ stop hStop
    have hName : fieldName? stop = none := by cases stop <;> first | rfl | cases hStop
    have hBracket : stop ≠ .lBracket := by rintro rfl; cases hStop
    have path : Path (fun _ _ => False) [.dot] .identity false := .identity
    exact path.takes_base (fun _ _ h => h.elim) hName hBracket

/-- A variable is written with its dollar sign, and stands up to what is no character of its name.
-/
theorem stands_var {name : String} (hName : ∀ c ∈ name.toList, isIdentChar platform c = true) :
    Stands platform ('$' :: name.toList) [.var name] (.var name) where
  noEof := noEof_singleton (by nofun)
  lexes := fun rest hRest => Lexes.dollar hName fun b hb => (hRest b hb).notIdent
  accessed := fun _ _ rest => Lexes.dollar hName fun _ hb => notIdent_dot hb
  first := ⟨_, [], rfl, by simp [Token.opens]⟩
  takes := fun _ _ _ _ => Takes.peek (Takes.advance Takes.pure)

/-- A word that is an operand by itself. -/
theorem stands_word {word : String} {e : Expr} (isWord : IsWord platform word) (hNot : word ≠ "not")
    (hWord : ∀ nested stop, stop ≠ .lParen →
      Takes (parseIdentPrimary platform nested word) [.ident word] e stop) :
    Stands platform word.toList [.ident word] e where
  noEof := noEof_singleton (by nofun)
  lexes := fun rest hRest => isWord.lexes_before fun b hb => (hRest b hb).notIdent
  accessed := fun _ _ rest => isWord.lexes_before fun _ hb => notIdent_dot hb
  first := ⟨_, [], rfl, by simpa [Token.opens] using hNot⟩
  takes := by
    intro depth _ stop hStop
    have hParen : stop ≠ .lParen := by rintro rfl; cases hStop
    exact Takes.peek (hWord _ stop hParen)

/-- The three literals that are words stand as operands: `null`, -/
theorem stands_null : Stands platform "null".toList [.ident "null"] (.literal .null) :=
  stands_word (isWord_ascii rfl (by decide) (by decide)) (by decide) fun _ _ _ =>
    Takes.ite_neg (by decide) (Takes.ite_neg (by decide)
      (Takes.ite_pos rfl (Takes.advance Takes.pure)))

/-- `true` and `false`. -/
theorem stands_bool (b : Bool) :
    Stands platform (literalText (.bool b)) [.ident (if b then "true" else "false")]
      (.literal (.bool b)) := by
  cases b with
  | true =>
      exact stands_word (isWord_ascii rfl (by decide) (by decide)) (by decide) fun _ _ _ =>
        Takes.ite_pos rfl (Takes.advance Takes.pure)
  | false =>
      exact stands_word (isWord_ascii rfl (by decide) (by decide)) (by decide) fun _ _ _ =>
        Takes.ite_neg (by decide) (Takes.ite_pos rfl (Takes.advance Takes.pure))

/-- A natural number of at most 53 bits is printed in digits, and read back through binary64 without
loss. -/
theorem stands_int {n : Nat} (hBound : n < 2 ^ 53) :
    Stands platform n.repr.toList [.number (F64.ofRatio false n 1)] (.literal (.number (.int n))) where
  noEof := noEof_singleton (by nofun)
  lexes := fun rest hRest => Lexes.digits hRest
  accessed := fun _ hOther => by cases hOther
  first := ⟨_, [], rfl, by simp [Token.opens]⟩
  takes := by
    intro depth _ stop _
    rw [← jsonNum_nat hBound]
    exact Takes.peek (Takes.advance Takes.pure)

/-- A string is printed with its escapes, and its tokens are one literal part. -/
theorem stands_str (s : String) :
    Stands platform (Value.quote s).toList [.str s] (.str [.literal s]) where
  noEof := noEof_singleton (by nofun)
  lexes := fun rest _ => Lexes.quote s rest
  accessed := fun _ _ rest => Lexes.quote s _
  first := ⟨_, [], rfl, by simp [Token.opens]⟩
  takes := by
    intro depth _ stop hStop
    have hEnds : stop.EndsString := by
      constructor
      · rintro s rfl
        cases hStop
      · rintro source rfl
        cases hStop
    exact Takes.string hEnds (.cons (.literal s) .nil)

/-- A call without arguments. -/
theorem stands_call {name : String} (isWord : IsWord platform name) (hOther : name ∉ keywords) :
    Stands platform name.toList [.ident name] (.call name []) := by
  simp only [keywords, List.mem_cons, List.not_mem_nil, or_false, not_or] at hOther
  refine stands_word isWord hOther.2.2.1 fun nested stop hParen => ?_
  refine Takes.ite_neg (by simp [hOther]) (Takes.ite_neg (by simp [hOther])
    (Takes.ite_neg (by simp [hOther]) (Takes.ite_neg (by simp [hOther]) ?_)))
  exact Takes.peek2 (Takes.ite_neg hParen (Takes.advance Takes.pure))

/-- An expression whose text is taken as a whole can stand as an operand, once it is in parentheses.
-/
theorem Whole.stands {text : List Char} {tokens : List Token} {e : Expr}
    (whole : Whole platform text tokens e) :
    Stands platform ('(' :: (text ++ [')'])) (.lParen :: (tokens ++ [.rParen])) e := by
  have hLexes : ∀ rest, Lexes platform ('(' :: (text ++ [')']) ++ rest)
      (.lParen :: (tokens ++ [.rParen])) rest := by
    intro rest
    have hOpen : Lexes platform ('(' :: (text ++ ')' :: rest)) [.lParen] (text ++ ')' :: rest) :=
      Lexes.symbol rfl (by decide)
    have hClose : Lexes platform (')' :: rest) [.rParen] rest := Lexes.symbol rfl (by decide)
    have hFollows : Follows platform (')' :: rest) :=
      follows_cons (.of_ascii (by decide) (by decide) (by decide)) rest
    simpa using hOpen.trans ((whole.lexes _ hFollows).trans hClose)
  refine ⟨?_, fun rest _ => hLexes rest, fun _ _ rest => hLexes _, ?_, fun depth hDepth stop _ => ?_⟩
  · exact noEof_cons (by nofun) (noEof_append whole.noEof (noEof_singleton (by nofun)))
  · exact ⟨_, _, rfl, by simp [Token.opens]⟩
  · rw [List.length_cons, List.length_append] at hDepth
    obtain ⟨depth, rfl⟩ : ∃ k, depth = k + 1 := ⟨depth - 1, by omega⟩
    have hInner : Takes (parserAt platform (depth + 1)).expr tokens e .rParen :=
      (whole.takes depth (by omega) _ (Or.inl rfl)).expr nofun
    exact hInner.paren

/-- Every tree stands as an operand, by itself or in parentheses, when the texts of those that need
parentheses are taken as a whole. -/
theorem Printable.stands {e : Expr} (printable : Printable platform e)
    (hWhole : e.compound = true → ∃ tokens, Whole platform (text e) tokens e) :
    ∃ tokens, Stands platform (wrap e (text e)) tokens e := by
  cases hCompound : e.compound with
  | true =>
      obtain ⟨tokens, whole⟩ := hWhole hCompound
      rw [wrap, if_pos hCompound]
      exact ⟨_, whole.stands⟩
  | false =>
      rw [wrap, if_neg (by simp [hCompound])]
      cases printable with
      | identity => exact ⟨_, stands_identity⟩
      | var hName => exact ⟨_, stands_var hName⟩
      | null => exact ⟨_, stands_null⟩
      | bool b =>
          have hText : text (.literal (.bool b)) = literalText (.bool b) := by rw [text]
          rw [hText]
          exact ⟨_, stands_bool b⟩
      | @int n hBound =>
          have hText : text (.literal (.number (.int n))) = n.repr.toList := by rw [text]; rfl
          rw [hText]
          exact ⟨_, stands_int hBound⟩
      | str s =>
          have hText : text (.str [.literal s]) = (Value.quote s).toList := by rw [text]; rfl
          rw [hText]
          exact ⟨_, stands_str s⟩
      | @call name args hName hOther _ =>
          cases args with
          | nil =>
              rw [text]
              exact ⟨_, stands_call hName hOther⟩
          | cons => cases hCompound
      | _ => cases hCompound

end Atoms

section Levels

variable {platform : Platform} {nested : Nested} {stop : Token} {tokens tl tr : List Token}
  {e l r : Expr}

/-- What ends an expression is no operator. -/
structure Token.IsEnd (stop : Token) : Prop where
  mult : multOperator stop = none
  additive : additiveOperator stop = none
  compare : compareOperator stop = none
  and : andOperator stop = none
  or : orOperator stop = none
  pipe : pipeOperator stop = none

/-- A closing parenthesis and the end of the input end an expression. -/
theorem isEnd_of_stop (hStop : stop = .rParen ∨ stop = .eof) : stop.IsEnd := by
  rcases hStop with rfl | rfl <;> exact ⟨rfl, rfl, rfl, rfl, rfl, rfl⟩

/-- What is taken as a disjunction before an end is taken as a pipe there, -/
theorem Token.IsEnd.of_or (isEnd : stop.IsEnd) (hOr : Takes (parseOr platform nested) tokens e stop) :
    Takes (parsePipe platform nested) tokens e stop := hOr.pipe isEnd.pipe

/-- as is what is taken as a comparison, -/
theorem Token.IsEnd.of_compare (isEnd : stop.IsEnd)
    (hCompare : Takes (parseCompare platform nested) tokens e stop) :
    Takes (parsePipe platform nested) tokens e stop :=
  isEnd.of_or ((hCompare.and isEnd.and).or isEnd.or)

/-- as a sum, -/
theorem Token.IsEnd.of_additive (isEnd : stop.IsEnd)
    (hAdditive : Takes (parseAdditive platform nested) tokens e stop) :
    Takes (parsePipe platform nested) tokens e stop :=
  isEnd.of_compare (hAdditive.compare isEnd.compare)

/-- or as an operand. -/
theorem Token.IsEnd.of_unary (isEnd : stop.IsEnd)
    (hUnary : Takes (parseUnary platform nested) tokens e stop) :
    Takes (parsePipe platform nested) tokens e stop :=
  isEnd.of_additive ((hUnary.mult isEnd.mult).additive isEnd.additive)

/-- Two operands with an operator of the factors between them. -/
theorem takes_product (isEnd : stop.IsEnd) (op : BinOp)
    (hOperator : multOperator op.token = some (.binary op))
    (hLeft : Takes (parseUnary platform nested) tl l op.token)
    (hRight : Takes (parseUnary platform nested) tr r stop) :
    Takes (parsePipe platform nested) (tl ++ op.token :: tr) (.binary op l r) stop := by
  have hMult : Takes (parseMult platform nested) (tl ++ op.token :: tr) (.binary op l r) stop :=
    Takes.level_two hOperator hLeft hRight isEnd.mult
  exact isEnd.of_additive (hMult.additive isEnd.additive)

/-- Two operands with an operator of the terms between them, at which the left factor ends. -/
theorem takes_sum (isEnd : stop.IsEnd) (op : BinOp)
    (hOperator : additiveOperator op.token = some (.binary op))
    (hMult : multOperator op.token = none)
    (hLeft : Takes (parseUnary platform nested) tl l op.token)
    (hRight : Takes (parseUnary platform nested) tr r stop) :
    Takes (parsePipe platform nested) (tl ++ op.token :: tr) (.binary op l r) stop :=
  isEnd.of_additive (Takes.level_two hOperator (hLeft.mult hMult) (hRight.mult isEnd.mult)
    isEnd.additive)

/-- Two operands with a comparison between them, at which the left sum ends. -/
theorem takes_comparison (isEnd : stop.IsEnd) (op : BinOp)
    (hOperator : compareOperator op.token = some (.binary op))
    (hMult : multOperator op.token = none) (hAdditive : additiveOperator op.token = none)
    (hLeft : Takes (parseUnary platform nested) tl l op.token)
    (hRight : Takes (parseUnary platform nested) tr r stop) :
    Takes (parsePipe platform nested) (tl ++ op.token :: tr) (.binary op l r) stop :=
  isEnd.of_compare (Takes.level_two hOperator ((hLeft.mult hMult).additive hAdditive)
    ((hRight.mult isEnd.mult).additive isEnd.additive) isEnd.compare)

/-- Two operands with an operator between them are taken as one expression. The levels below that of
the operator end at it, and those above it take the whole as their operand. -/
theorem takes_binary (isEnd : stop.IsEnd) (op : BinOp)
    (hLeft : Takes (parseUnary platform nested) tl l op.token)
    (hRight : Takes (parseUnary platform nested) tr r stop) :
    Takes (parsePipe platform nested) (tl ++ op.token :: tr) (.binary op l r) stop := by
  have hCompare := ((hRight.mult isEnd.mult).additive isEnd.additive).compare isEnd.compare
  cases op with
  | mul => exact takes_product isEnd .mul rfl hLeft hRight
  | div => exact takes_product isEnd .div rfl hLeft hRight
  | mod => exact takes_product isEnd .mod rfl hLeft hRight
  | add => exact takes_sum isEnd .add rfl rfl hLeft hRight
  | sub => exact takes_sum isEnd .sub rfl rfl hLeft hRight
  | alternative => exact takes_sum isEnd .alternative rfl rfl hLeft hRight
  | eq => exact takes_comparison isEnd .eq rfl rfl rfl hLeft hRight
  | ne => exact takes_comparison isEnd .ne rfl rfl rfl hLeft hRight
  | lt => exact takes_comparison isEnd .lt rfl rfl rfl hLeft hRight
  | le => exact takes_comparison isEnd .le rfl rfl rfl hLeft hRight
  | gt => exact takes_comparison isEnd .gt rfl rfl rfl hLeft hRight
  | ge => exact takes_comparison isEnd .ge rfl rfl rfl hLeft hRight
  | and =>
      have hAnd : Takes (parseAnd platform nested) (tl ++ .ident "and" :: tr) (.binary .and l r) stop :=
        Takes.level_two (by rfl) (((hLeft.mult rfl).additive rfl).compare rfl) hCompare isEnd.and
      exact isEnd.of_or (hAnd.or isEnd.or)
  | or =>
      have hOr : Takes (parseOr platform nested) (tl ++ .ident "or" :: tr) (.binary .or l r) stop :=
        Takes.level_two (by rfl) ((((hLeft.mult rfl).additive rfl).compare rfl).and rfl)
          (hCompare.and isEnd.and) isEnd.or
      exact isEnd.of_or hOr

/-- Two operands with a pipe between them. It is the outermost of the levels, and the right side is
parsed as a pipe of its own. -/
theorem takes_pipe (isEnd : stop.IsEnd) (hLeft : Takes (parseUnary platform nested) tl l .pipe)
    (hRight : Takes (parseUnary platform nested) tr r stop) :
    Takes (parsePipe platform nested) (tl ++ .pipe :: tr) (.pipe l r) stop := by
  have hFirst := ((((hLeft.mult rfl).additive rfl).compare rfl).and rfl).or rfl
  have hSecond := ((((hRight.mult isEnd.mult).additive isEnd.additive).compare
    isEnd.compare).and isEnd.and).or isEnd.or
  exact Takes.level_two (by rfl) hFirst hSecond isEnd.pipe

end Levels

section Wholes

variable {platform : Platform} {tl tr ti : List Token} {a b : List Char} {l r e : Expr}
  {stop : Token} {depth : Nat} {tokens : List Token} {name : String}

/-- An operand is a path, where no access follows it. -/
theorem Stands.accessible (stands : Stands platform a tokens e) (hDepth : a.length ≤ depth)
    (hStop : stop.mayFollow e = true) (hAccess : stop ≠ .dot ∧ stop ≠ .lBracket) :
    Takes (parsePostfix platform (parserAt platform depth)) tokens e stop :=
  (stands.takes depth hDepth stop hStop).unaccessed hAccess

/-- So it is an operand of the operators, -/
theorem Stands.unary (stands : Stands platform a tokens e) (hDepth : a.length ≤ depth)
    (hStop : stop.mayFollow e = true) (hAccess : stop ≠ .dot ∧ stop ≠ .lBracket) :
    Takes (parseUnary platform (parserAt platform depth)) tokens e stop := by
  obtain ⟨t, rest, rfl, hOpens⟩ := stands.first
  exact (stands.accessible hDepth hStop hAccess).unary hOpens.1 hOpens.2.1

/-- The ends of an expression may follow every operand. -/
theorem mayFollow_end (hStop : stop = .rParen ∨ stop = .eof) :
    stop.mayFollow e = true ∧ stop ≠ .dot ∧ stop ≠ .lBracket := by
  rcases hStop with rfl | rfl <;> exact ⟨rfl, nofun, nofun⟩

/-- and, alone, a whole expression. -/
theorem Stands.whole (stands : Stands platform a tokens e) : Whole platform a tokens e := by
  refine ⟨stands.noEof, stands.lexes, fun depth hDepth stop hStop => ?_⟩
  obtain ⟨hFollow, hAccess⟩ := @mayFollow_end e stop hStop
  exact (isEnd_of_stop hStop).of_unary (stands.unary hDepth hFollow hAccess)

/-- Two operands between which there is an operator, with spaces around it. -/
theorem lexes_between {symbol : String} {token : Token} (left : Stands platform a tl l)
    (right : Stands platform b tr r) (hSymbol : ∀ rest, Lexes platform
      (symbol.toList ++ ' ' :: rest) [token] (' ' :: rest)) (rest : List Char)
    (hRest : Follows platform rest) :
    Lexes platform (a ++ ' ' :: (symbol.toList ++ ' ' :: b) ++ rest) (tl ++ token :: tr) rest := by
  have hLeft := left.lexes _ (follows_space (symbol.toList ++ ' ' :: (b ++ rest)))
  have hAll := hLeft.trans ((hSymbol (b ++ rest)).trans (right.lexes rest hRest).space).space
  simpa using hAll

/-- A binary expression is printed with spaces around its operator, which the operand before it does
not go on with. -/
theorem whole_binary (op : BinOp) (left : Stands platform a tl l) (right : Stands platform b tr r)
    (hFollow : op.token.mayFollow l = true) :
    Whole platform (a ++ ' ' :: (op.symbol.toList ++ ' ' :: b)) (tl ++ op.token :: tr)
      (.binary op l r) := by
  refine ⟨noEof_append left.noEof (noEof_cons op.token_ne_eof right.noEof),
    lexes_between left right op.lexes_symbol, fun depth hDepth stop hStop => ?_⟩
  simp only [List.length_append, List.length_cons] at hDepth
  obtain ⟨hEnd, hAccess⟩ := @mayFollow_end r stop hStop
  exact takes_binary (isEnd_of_stop hStop) op
    (left.unary (by omega) hFollow op.token_no_access) (right.unary (by omega) hEnd hAccess)

/-- So is a pipe. -/
theorem whole_pipe (left : Stands platform a tl l) (right : Stands platform b tr r) :
    Whole platform (a ++ ' ' :: ("|".toList ++ ' ' :: b)) (tl ++ .pipe :: tr) (.pipe l r) := by
  have hSymbol : ∀ rest, Lexes platform ("|".toList ++ ' ' :: rest) [.pipe] (' ' :: rest) :=
    fun rest => Lexes.symbol rfl (by decide)
  refine ⟨noEof_append left.noEof (noEof_cons nofun right.noEof), lexes_between left right hSymbol,
    fun depth hDepth stop hStop => ?_⟩
  simp only [List.length_append, List.length_cons] at hDepth
  obtain ⟨hEnd, hAccess⟩ := @mayFollow_end r stop hStop
  exact takes_pipe (isEnd_of_stop hStop) (left.unary (by omega) rfl ⟨nofun, nofun⟩)
    (right.unary (by omega) hEnd hAccess)

/-- `not` is a word before its operand, -/
theorem whole_not (stands : Stands platform a tokens e) :
    Whole platform ("not".toList ++ ' ' :: a) (.ident "not" :: tokens) (.unary .not e) := by
  refine ⟨noEof_cons nofun stands.noEof, fun rest hRest => ?_, fun depth hDepth stop hStop => ?_⟩
  · have hNot : Lexes platform ("not".toList ++ ' ' :: (a ++ rest)) [.ident "not"]
        (' ' :: (a ++ rest)) := Lexes.asciiWord rfl (by decide) (by decide)
          fun b hb => (follows_space (a ++ rest) b hb).notIdent
    simpa using hNot.trans (stands.lexes rest hRest).space
  · simp only [List.length_append, List.length_cons] at hDepth
    obtain ⟨hEnd, hAccess⟩ := @mayFollow_end e stop hStop
    obtain ⟨t, more, rfl, hOpens⟩ := id stands.first
    exact (isEnd_of_stop hStop).of_unary (Takes.unary_op (Or.inl rfl)
      (stands.accessible (by omega) hEnd hAccess) hOpens.1 hOpens.2.1)

/-- and the minus sign stands before its operand without a space. -/
theorem whole_negate (stands : Stands platform a tokens e) :
    Whole platform ('-' :: a) (.minus :: tokens) (.unary .negate e) := by
  refine ⟨noEof_cons nofun stands.noEof, fun rest hRest => ?_, fun depth hDepth stop hStop => ?_⟩
  · have hMinus : Lexes platform ('-' :: (a ++ rest)) [.minus] (a ++ rest) :=
      Lexes.symbol rfl (by decide)
    exact hMinus.trans (stands.lexes rest hRest)
  · rw [List.length_cons] at hDepth
    obtain ⟨hEnd, hAccess⟩ := @mayFollow_end e stop hStop
    obtain ⟨t, more, rfl, hOpens⟩ := id stands.first
    exact (isEnd_of_stop hStop).of_unary (Takes.unary_op (Or.inr rfl)
      (stands.accessible (by omega) hEnd hAccess) hOpens.1 hOpens.2.1)

/-- A bracket ends an expression, too. -/
theorem isEnd_rBracket : Token.IsEnd .rBracket := ⟨rfl, rfl, rfl, rfl, rfl, rfl⟩

/-- An operand that only accesses follow is an expression. -/
theorem whole_postfix (hTokens : ∃ t rest, tokens = t :: rest ∧ t.opens) (hNoEof : NoEof tokens)
    (hLexes : ∀ rest, Follows platform rest → Lexes platform (a ++ rest) tokens rest)
    (hTakes : ∀ depth, a.length ≤ depth → ∀ stop : Token, stop ≠ .dot ∧ stop ≠ .lBracket →
      fieldName? stop = none → Takes (parsePostfix platform (parserAt platform depth)) tokens e stop) :
    Whole platform a tokens e := by
  refine ⟨hNoEof, hLexes, fun depth hDepth stop hStop => ?_⟩
  obtain ⟨t, rest, rfl, hOpens⟩ := hTokens
  obtain ⟨_, hAccess⟩ := @mayFollow_end e stop hStop
  have hName : fieldName? stop = none := by rcases hStop with rfl | rfl <;> rfl
  exact (isEnd_of_stop hStop).of_unary ((hTakes depth hDepth stop hAccess hName).unary hOpens.1
    hOpens.2.1)

/-- A field of the input. -/
theorem whole_name (isWord : IsWord platform name) :
    Whole platform ('.' :: name.toList) [.dot, .ident name] (.field .identity name) := by
  have path : Path (fun _ _ => False) [.dot, .ident name] (.field .identity name) false := .name rfl
  refine whole_postfix ⟨_, _, rfl, by simp [Token.opens]⟩ (by simp [NoEof])
    (fun rest hRest => isWord.lexes_dot fun b hb => (hRest b hb).notIdent)
    fun depth _ stop hAccess hName => ?_
  exact (path.takes_base (fun _ _ h => h.elim) hName hAccess.2).unaccessed hAccess

/-- Accesses after an operand, in the loop that reads them. -/
theorem takes_accesses {base : Expr} {ta : List Token}
    (stands : Stands platform a tl base) (hDepth : a.length ≤ depth) {t : Token}
    (hFirst : t.mayFollow base = true)
    (walks : Walks (postfixLoop platform (parserAt platform depth)) (t :: ta) base e)
    (hStop : stop ≠ .dot ∧ stop ≠ .lBracket) :
    Takes (parsePostfix platform (parserAt platform depth)) (tl ++ t :: ta) e stop :=
  Takes.bind (stands.takes depth hDepth t hFirst) (Takes.remaining fun _ hFuel =>
    walks.takes (fun _ => Takes.access_done hStop) hFuel)

/-- The tokens of an operand begin with one that no sign is. -/
theorem Stands.opens_append (stands : Stands platform a tl e) (more : List Token) :
    ∃ t rest, tl ++ more = t :: rest ∧ t.opens := by
  obtain ⟨t, rest, rfl, hOpens⟩ := stands.first
  exact ⟨t, rest ++ more, rfl, hOpens⟩

/-- A field of an operand. -/
theorem whole_field {base : Expr} (stands : Stands platform a tl base)
    (hIdentity : base.isIdentity = false) (hNumber : base.isNumber = false)
    (isWord : IsWord platform name) :
    Whole platform (a ++ '.' :: name.toList) (tl ++ [.dot, .ident name]) (.field base name) := by
  refine whole_postfix (stands.opens_append _) (noEof_append stands.noEof (by simp [NoEof]))
    (fun rest hRest => ?_) fun depth hDepth stop hAccess _ => ?_
  · have hName := isWord.lexes_dot fun b hb => (hRest b hb).notIdent
    simpa using (stands.accessed hIdentity hNumber _).trans hName
  · rw [List.length_append] at hDepth
    exact takes_accesses stands (by omega) rfl (walks_field rfl) hAccess

/-- The brackets after an operand. -/
theorem lexes_brackets {c : List Char} {tc : List Token}
    (hLexes : ∀ rest, Follows platform rest → Lexes platform (c ++ rest) tc rest) (rest : List Char) :
    Lexes platform ('[' :: (c ++ ']' :: rest)) (.lBracket :: (tc ++ [.rBracket])) rest := by
  have hOpen : Lexes platform ('[' :: (c ++ ']' :: rest)) [.lBracket] (c ++ ']' :: rest) :=
    Lexes.symbol rfl (by decide)
  have hClose : Lexes platform (']' :: rest) [.rBracket] rest := Lexes.symbol rfl (by decide)
  have hFollows : Follows platform (']' :: rest) :=
    follows_cons (.of_ascii (by decide) (by decide) (by decide)) rest
  exact hOpen.trans ((hLexes _ hFollows).trans hClose)

/-- A bracket separates. -/
theorem follows_bracket (rest : List Char) : Follows platform ('[' :: rest) :=
  follows_cons (.of_ascii (by decide) (by decide) (by decide)) rest

/-- An operand as an index, where the parser of the brackets comes to it. -/
theorem Stands.index (stands : Stands platform b ti r) (hDepth : b.length < depth) :
    IndexTaken (fun inner i => inner = ti ∧ i = r) (parserAt platform depth) := by
  rintro _ _ ⟨rfl, rfl⟩
  obtain ⟨depth, rfl⟩ : ∃ k, depth = k + 1 := ⟨depth - 1, by omega⟩
  refine ⟨?_, (isEnd_rBracket.of_unary (stands.unary (by omega) rfl ⟨nofun, nofun⟩)).expr nofun⟩
  obtain ⟨t, rest, rfl, hOpens⟩ := stands.first
  exact hOpens.2.2.1

/-- Brackets after an operand are read as an access to it, when what is in them is read as an index.
-/
theorem whole_bracket {base next : Expr} {c : List Char} {tc : List Token}
    {Inner : List Token → Expr → Prop} (stands : Stands platform a tl base)
    (hLexes : ∀ rest, Follows platform rest → Lexes platform (c ++ rest) tc rest) (hNoEof : NoEof tc)
    (hInner : ∀ depth, c.length < depth → IndexTaken Inner (parserAt platform depth))
    (bracket : Bracket Inner (.lBracket :: (tc ++ [.rBracket])) base next)
    (hPath : base.isIdentity = true → tl = [.dot]) :
    Whole platform (a ++ '[' :: (c ++ [']'])) (tl ++ .lBracket :: (tc ++ [.rBracket])) next := by
  refine whole_postfix (stands.opens_append _) (noEof_append stands.noEof (noEof_cons nofun
    (noEof_append hNoEof (noEof_singleton nofun)))) (fun rest hRest => ?_)
    fun depth hDepth stop hAccess hName => ?_
  · have hBase := stands.lexes _ (follows_bracket (c ++ ']' :: rest))
    simpa using hBase.trans (lexes_brackets hLexes rest)
  · simp only [List.length_append, List.length_cons] at hDepth
    have hTaken := hInner depth (by omega)
    cases hIdentity : base.isIdentity with
    | false =>
        exact takes_accesses stands (by omega) (by simp [Token.mayFollow, hIdentity])
          (bracket.walks_postfixLoop hTaken) hAccess
    | true =>
        cases base <;> cases hIdentity
        rw [hPath rfl]
        exact ((Path.identity.bracket bracket).takes_base hTaken hName hAccess.2).unaccessed hAccess

/-- An index is printed in brackets behind its base. Behind the identity, the tokens are read as the
first access of a path. -/
theorem whole_index {base idx : Expr} (stands : Stands platform a tl base)
    (index : Stands platform b ti idx) (hPath : base.isIdentity = true → tl = [.dot]) :
    Whole platform (a ++ '[' :: (b ++ [']'])) (tl ++ .lBracket :: (ti ++ [.rBracket]))
      (.index base idx) :=
  whole_bracket stands index.lexes index.noEof (fun _ hDepth => index.index hDepth)
    (.index base ⟨rfl, rfl⟩) hPath

/-- An iteration is a pair of brackets behind its base. -/
theorem whole_iterate {base : Expr} (stands : Stands platform a tl base)
    (hPath : base.isIdentity = true → tl = [.dot]) :
    Whole platform (a ++ ['[', ']']) (tl ++ [.lBracket, .rBracket]) (.iterate base) := by
  have hNone : ∀ depth, ([] : List Char).length < depth →
      IndexTaken (fun _ _ => False) (parserAt platform depth) := fun _ _ _ _ h => h.elim
  have hLexes : ∀ rest, Follows platform rest → Lexes platform ([] ++ rest) [] rest :=
    fun _ _ => .done
  exact whole_bracket stands hLexes nofun hNone (.iterate base) hPath

/-- An operand that is not the identity is read up to a word that is not an operator, as the
branches of an `if` are. -/
theorem Stands.ofWord (stands : Stands platform a tokens e) (hIdentity : e.isIdentity = false)
    (hDepth : a.length < depth) (word : String) (hAnd : word ≠ "and") (hOr : word ≠ "or") :
    Takes (parserAt platform depth).expr tokens e (.ident word) := by
  obtain ⟨depth, rfl⟩ : ∃ k, depth = k + 1 := ⟨depth - 1, by omega⟩
  have hNoAnd : andOperator (.ident word) = none := if_neg (by simpa using hAnd)
  have hNoOr : orOperator (.ident word) = none := if_neg (by simpa using hOr)
  have isEnd : Token.IsEnd (.ident word) := ⟨rfl, rfl, rfl, hNoAnd, hNoOr, rfl⟩
  have hFollow : (Token.ident word).mayFollow e = true := by simp [Token.mayFollow, hIdentity]
  exact (isEnd.of_unary (stands.unary (by omega) hFollow ⟨nofun, nofun⟩)).expr nofun

section Conditional

variable {c : List Char} {x y z : Expr} {tc : List Token}

/-- The text of an `if`, with its keywords between spaces. -/
theorem lexes_branches (cond : Stands platform a tl x) (then_ : Stands platform b tr y)
    (else_ : Stands platform c tc z) (rest : List Char) (hRest : Follows platform rest) :
    Lexes platform ("if".toList ++ ' ' :: (a ++ ' ' :: ("then".toList ++ ' ' ::
        (b ++ ' ' :: ("else".toList ++ ' ' :: (c ++ ' ' :: "end".toList))))) ++ rest)
      (.ident "if" :: (tl ++ .ident "then" :: (tr ++ .ident "else" :: (tc ++ [.ident "end"]))))
      rest := by
  have hEnd : Lexes platform ("end".toList ++ rest) [.ident "end"] rest :=
    lexes_reserved "end" (by decide) fun b hb => (hRest b hb).notIdent
  have hElse := (else_.lexes _ (follows_space _)).trans hEnd.space
  have hThen := (then_.lexes _ (follows_space _)).trans
    ((lexes_reserved_space "else" (by decide)).trans hElse.space).space
  have hCond := (cond.lexes _ (follows_space _)).trans
    ((lexes_reserved_space "then" (by decide)).trans hThen.space).space
  simpa using (lexes_reserved_space "if" (by decide)).trans hCond.space

/-- An `if` is read back from its keywords. None of its parts is the identity, which would take the
keyword after it for a name. -/
theorem whole_if (cond : Stands platform a tl x) (then_ : Stands platform b tr y)
    (else_ : Stands platform c tc z) (hCond : x.isIdentity = false) (hThen : y.isIdentity = false)
    (hElse : z.isIdentity = false) :
    Whole platform ("if".toList ++ ' ' :: (a ++ ' ' :: ("then".toList ++ ' ' ::
        (b ++ ' ' :: ("else".toList ++ ' ' :: (c ++ ' ' :: "end".toList))))))
      (.ident "if" :: (tl ++ .ident "then" :: (tr ++ .ident "else" :: (tc ++ [.ident "end"]))))
      (.if_ x y z) := by
  refine whole_postfix ⟨_, _, rfl, by simp [Token.opens]⟩
    (noEof_ifElse cond.noEof then_.noEof else_.noEof) (lexes_branches cond then_ else_)
    fun depth hDepth stop hAccess _ => ?_
  simp only [List.length_append, List.length_cons] at hDepth
  exact (Takes.ifElse (cond.ofWord hCond (by omega) "then" (by decide) (by decide))
    (then_.ofWord hThen (by omega) "else" (by decide) (by decide))
    (else_.ofWord hElse (by omega) "end" (by decide) (by decide))).unaccessed hAccess

end Conditional

/-- An operand where a list goes on or ends. -/
theorem Stands.pipe (stands : Stands platform a tokens e) (hDepth : a.length < depth)
    (hStop : stop ∈ [.comma, .semicolon, .rParen, .rBracket, .rBrace]) :
    Takes (parserAt platform depth).pipe tokens e stop := by
  obtain ⟨depth, rfl⟩ : ∃ k, depth = k + 1 := ⟨depth - 1, by omega⟩
  simp only [List.mem_cons, List.not_mem_nil, or_false] at hStop
  have hUnary : stop.mayFollow e = true → stop ≠ .dot ∧ stop ≠ .lBracket →
      Takes (parseUnary platform (parserAt platform depth)) tokens e stop :=
    stands.unary (by omega)
  rcases hStop with rfl | rfl | rfl | rfl | rfl
  all_goals
    have hTakes := hUnary rfl ⟨nofun, nofun⟩
    exact (((((hTakes.mult rfl).additive rfl).compare rfl).and rfl).or rfl).pipe rfl

end Wholes

section Lists

variable {platform : Platform} {depth : Nat}

/-- The texts of operands, with their tokens. -/
def AllStand (platform : Platform) (elems : List Expr) (ts : List (List Token)) : Prop :=
  List.Forall₂ (fun e tokens => Stands platform (wrap e (text e)) tokens e) elems ts

variable {elems : List Expr} {ts : List (List Token)}

/-- The elements of a list are printed one by one, -/
theorem texts_eq (elems : List Expr) : texts elems = elems.map fun e => wrap e (text e) := by
  induction elems with
  | nil => rw [texts, List.map_nil]
  | cons e rest ih => rw [texts, ih, List.map_cons]

/-- and each of them stands as an operand, -/
theorem AllStand.mem (stand : AllStand platform elems ts) :
    ∀ t ∈ ts, ∃ e ∈ elems, Stands platform (wrap e (text e)) t e := by
  induction stand with
  | nil => exact fun _ h => by cases h
  | @cons e t elems ts hFirst _ ih =>
      rintro t' ht
      rcases List.mem_cons.mp ht with rfl | ht
      · exact ⟨e, List.mem_cons_self, hFirst⟩
      · obtain ⟨e', he, stands⟩ := ih t' ht
        exact ⟨e', List.mem_cons_of_mem _ he, stands⟩

/-- without the end of the input among its tokens. -/
theorem AllStand.noEof (stand : AllStand platform elems ts) {token : Token} (hToken : token ≠ .eof) :
    NoEof (List.intercalate [token] ts) := by
  refine noEof_intercalate hToken fun t ht => ?_
  obtain ⟨e, _, stands⟩ := stand.mem t ht
  exact stands.noEof

/-- Their texts have their tokens, one after the other. -/
theorem AllStand.lexes (stand : AllStand platform elems ts) :
    List.Forall₂ (fun text tokens => ∀ rest, Follows platform rest →
      Lexes platform (text ++ rest) tokens rest) (texts elems) ts := by
  rw [texts_eq, List.forall₂_map_left_iff]
  exact stand.imp fun _ _ stands => stands.lexes

/-- No text is longer than all of them together. -/
theorem AllStand.takes (stand : AllStand platform elems ts) (separator : Char) (size : Nat)
    (hSize : (List.intercalate [separator] (texts elems)).length < size) :
    List.Forall₂ (fun tokens e => ∀ stop ∈ [Token.comma, .semicolon, .rParen, .rBracket, .rBrace],
      Takes (parserAt platform size).pipe tokens e stop) ts elems := by
  have hLength : ∀ e ∈ elems, (wrap e (text e)).length < size := by
    intro e he
    have hText : wrap e (text e) ∈ texts elems := by
      rw [texts_eq]
      exact List.mem_map_of_mem he
    have hLess := @length_le_intercalate _ [separator] _ _ hText
    omega
  clear hSize
  induction stand with
  | nil => exact .nil
  | @cons e t elems ts hFirst _ ih =>
      obtain ⟨hOwn, hOthers⟩ := List.forall_mem_cons.mp hLength
      exact .cons (fun stop hStop => hFirst.pipe hOwn hStop) (ih hOthers)

/-- A closing parenthesis separates. -/
theorem follows_paren (rest : List Char) : Follows platform (')' :: rest) :=
  follows_cons (.of_ascii (by decide) (by decide) (by decide)) rest

/-- A text with brackets around it. -/
theorem lexes_enclosed {open_ close : Char} {t u : Token} {a : List Char} {tokens : List Token}
    (hOpen : ∀ more, Lexes platform (open_ :: more) [t] more)
    (hClose : ∀ more, Lexes platform (close :: more) [u] more)
    (hFollows : ∀ more, Follows platform (close :: more))
    (hInner : ∀ rest, Follows platform rest → Lexes platform (a ++ rest) tokens rest)
    (rest : List Char) :
    Lexes platform (open_ :: (a ++ [close]) ++ rest) (t :: (tokens ++ [u])) rest := by
  have hAll := (hOpen (a ++ close :: rest)).trans ((hInner _ (hFollows rest)).trans (hClose rest))
  simpa using hAll

/-- An array is printed with commas between its elements, none of which is a stream. -/
theorem whole_array (stand : AllStand platform elems ts) (hAlone : ∀ e ∈ elems, elements e = [e]) :
    Whole platform ('[' :: (List.intercalate [','] (texts elems) ++ [']']))
      (.lBracket :: (List.intercalate [.comma] ts ++ [.rBracket])) (.array elems) := by
  refine whole_postfix ⟨_, _, rfl, by simp [Token.opens]⟩ ?_ (fun rest _ => ?_)
    fun depth hDepth stop hAccess _ => ?_
  · exact noEof_cons (by nofun) (noEof_append (stand.noEof (by nofun)) (noEof_singleton (by nofun)))
  · exact lexes_enclosed (fun _ => Lexes.symbol rfl (by decide)) (fun _ => Lexes.symbol rfl (by decide))
      (fun more => follows_cons (.of_ascii (by decide) (by decide) (by decide)) more)
      (fun rest hRest => Lexes.intercalate stand.lexes hRest) rest
  · simp only [List.length_append, List.length_cons] at hDepth
    have hTakes := stand.takes ',' depth (by omega)
    refine Takes.unaccessed (Takes.array (hTakes.imp fun _ _ h =>
      ⟨h _ (by simp), h _ (by simp)⟩) hAlone fun t ht => ?_) hAccess
    obtain ⟨e, _, stands⟩ := stand.mem t ht
    obtain ⟨u, rest, rfl, hOpens⟩ := stands.first
    exact hOpens.2.2.1

/-- A call is printed with semicolons between its arguments, in parentheses right after its name,
and read back from them. -/
theorem whole_call {name : String} (isWord : IsWord platform name) (hOther : name ∉ keywords)
    (stand : AllStand platform elems ts) (hNonempty : elems ≠ []) :
    Whole platform (name.toList ++ '(' :: (List.intercalate [';'] (texts elems) ++ [')']))
      (.ident name :: .lParen :: (List.intercalate [.semicolon] ts ++ [.rParen]))
      (.call name elems) := by
  simp only [keywords, List.mem_cons, List.not_mem_nil, or_false, not_or] at hOther
  refine whole_postfix ⟨_, _, rfl, by simp [Token.opens, hOther]⟩ ?_ (fun rest _ => ?_)
    fun depth hDepth stop hAccess _ => ?_
  · exact noEof_cons (by nofun) (noEof_cons (by nofun)
      (noEof_append (stand.noEof (by nofun)) (noEof_singleton (by nofun))))
  · have hSemicolon : ∀ more, Follows platform (';' :: more) := fun more =>
      follows_cons (.of_ascii (by decide) (by decide) (by decide)) more
    have hOpen : ∀ more, Follows platform ('(' :: more) := fun more =>
      follows_cons (.of_ascii (by decide) (by decide) (by decide)) more
    have hArgs := lexes_enclosed (fun _ => Lexes.symbol (c := '(') rfl (by decide))
      (fun _ => Lexes.symbol (c := ')') rfl (by decide)) follows_paren
      (fun rest hRest => Lexes.separated (fun _ => Lexes.symbol (c := ';') rfl (by decide))
        hSemicolon stand.lexes hRest) rest
    have hName : ∀ more, Lexes platform (name.toList ++ '(' :: more) [.ident name] ('(' :: more) :=
      fun more => isWord.lexes_before fun b hb => (hOpen more b hb).notIdent
    simpa using (hName _).trans hArgs
  · simp only [List.length_append, List.length_cons] at hDepth
    have hTakes := stand.takes ';' depth (by omega)
    have hLists : ts ≠ [] := by
      rintro rfl
      cases stand
      exact hNonempty rfl
    refine Takes.unaccessed (Takes.call (by simp [hOther]) (hTakes.imp fun _ _ h =>
      ⟨h _ (by simp), h _ (by simp)⟩) hLists fun t ht => ?_) hAccess
    obtain ⟨e, _, stands⟩ := stand.mem t ht
    obtain ⟨u, rest, rfl, hOpens⟩ := stands.first
    exact hOpens.2.2.2

/-- The text of a key, with its tokens. -/
structure KeyStands (platform : Platform) (text : List Char) (tokens : List Token) (key : ObjKey) :
    Prop where
  noEof : NoEof tokens
  lexes : ∀ rest, Follows platform rest → Lexes platform (text ++ rest) tokens rest
  first : tokens.headD .rBrace ≠ .rBrace
  takes : ∀ depth, text.length ≤ depth →
    Takes (parseObjectKey platform (parserAt platform depth)) tokens key .colon

/-- A key that is a word is printed as it is, -/
theorem keyStands_ident {name : String} (isWord : IsWord platform name) :
    KeyStands platform name.toList [.ident name] (.ident name) where
  noEof := noEof_singleton (by nofun)
  lexes := fun rest hRest => isWord.lexes_before fun b hb => (hRest b hb).notIdent
  first := by nofun
  takes := fun _ _ => Takes.peek (Takes.advance Takes.pure)

/-- a string with its quotes, -/
theorem keyStands_str (s : String) :
    KeyStands platform (Value.quote s).toList [.str s] (.str s) where
  noEof := noEof_singleton (by nofun)
  lexes := fun rest _ => Lexes.quote s rest
  first := by nofun
  takes := fun _ _ => Takes.peek (Takes.advance Takes.pure)

/-- and a computed key in parentheses. -/
theorem keyStands_computed {e : Expr} {a : List Char} {tokens : List Token}
    (whole : Whole platform a tokens e) :
    KeyStands platform ('(' :: (a ++ [')'])) (.lParen :: (tokens ++ [.rParen])) (.computed e) where
  noEof := noEof_cons (by nofun) (noEof_append whole.noEof (noEof_singleton (by nofun)))
  lexes := fun rest _ => lexes_enclosed (fun _ => Lexes.symbol rfl (by decide))
    (fun _ => Lexes.symbol rfl (by decide)) follows_paren whole.lexes rest
  first := by nofun
  takes := by
    intro depth hDepth
    rw [List.length_cons, List.length_append] at hDepth
    obtain ⟨depth, rfl⟩ : ∃ k, depth = k + 1 := ⟨depth - 1, by omega⟩
    have hInner : Takes (parserAt platform (depth + 1)).pipe tokens e .rParen :=
      whole.takes depth (by omega) _ (Or.inl rfl)
    exact Takes.peek (Takes.advance (Takes.bind hInner (Takes.expect.bind_last Takes.pure)))

/-- The texts of the entries of an object, with the tokens of their keys and values. -/
def EntriesStand (platform : Platform) (entries : List (ObjKey × Expr))
    (parts : List (List Token × List Token)) : Prop :=
  List.Forall₂ (fun entry part => KeyStands platform (keyText entry.1) part.1 entry.1 ∧
    Stands platform (wrap entry.2 (text entry.2)) part.2 entry.2) entries parts

def entryTokens (part : List Token × List Token) : List Token := part.1 ++ .colon :: part.2

variable {entries : List (ObjKey × Expr)} {parts : List (List Token × List Token)}

/-- The entries of an object are printed one by one, each key with its value behind a colon. -/
theorem entryTexts_eq (entries : List (ObjKey × Expr)) : entryTexts entries =
    entries.map fun entry => keyText entry.1 ++ ':' :: wrap entry.2 (text entry.2) := by
  induction entries with
  | nil => rw [entryTexts, List.map_nil]
  | cons entry rest ih => rw [entryTexts, ih, List.map_cons]

/-- The text of an entry has the tokens of its key, a colon, and those of its value. -/
theorem lexes_entry {a b : List Char} {tk tv : List Token} {key : ObjKey} {e : Expr}
    (hKey : KeyStands platform a tk key) (hValue : Stands platform b tv e) (rest : List Char)
    (hRest : Follows platform rest) :
    Lexes platform (a ++ ':' :: b ++ rest) (tk ++ .colon :: tv) rest := by
  have hColon : Lexes platform (':' :: (b ++ rest)) [.colon] (b ++ rest) :=
    Lexes.symbol rfl (by decide)
  have hFollows : Follows platform (':' :: (b ++ rest)) :=
    follows_cons (.of_ascii (by decide) (by decide) (by decide)) _
  simpa using (hKey.lexes _ hFollows).trans (hColon.trans (hValue.lexes rest hRest))

/-- The end of the input is not among the tokens of the entries. -/
theorem noEof_entries (stand : EntriesStand platform entries parts) :
    NoEof (List.intercalate [.comma] (parts.map entryTokens)) := by
  refine noEof_intercalate (by nofun) fun t ht => ?_
  obtain ⟨part, hPart, rfl⟩ := List.mem_map.mp ht
  induction stand with
  | nil => cases hPart
  | cons hFirst _ ih =>
      rcases List.mem_cons.mp hPart with rfl | hPart
      · exact noEof_append hFirst.1.noEof (noEof_cons (by nofun) hFirst.2.noEof)
      · exact ih hPart (List.mem_map_of_mem hPart)

/-- The parser reads each entry from its tokens, at a depth that its text does not exceed. -/
theorem takes_entries (stand : EntriesStand platform entries parts)
    (hLength : ∀ entry ∈ entries,
      (keyText entry.1 ++ ':' :: wrap entry.2 (text entry.2)).length ≤ depth) :
    List.Forall₂ (Entry platform (parserAt platform depth)) (parts.map entryTokens) entries := by
  rw [List.forall₂_map_left_iff]
  induction stand with
  | nil => exact .nil
  | @cons entry part entries parts hFirst _ ih =>
      obtain ⟨hOwn, hOthers⟩ := List.forall_mem_cons.mp hLength
      refine .cons ?_ (ih hOthers)
      rw [List.length_append, List.length_cons] at hOwn
      exact .intro hFirst.1.first (hFirst.1.takes depth (by omega))
        ⟨hFirst.2.pipe (by omega) (by simp), hFirst.2.pipe (by omega) (by simp)⟩

/-- An object is read back from its entries in their order, each with its key and its value as an
operand. -/
theorem whole_object (stand : EntriesStand platform entries parts) :
    Whole platform ('\x7b' :: (List.intercalate [','] (entryTexts entries) ++ ['\x7d']))
      (.lBrace :: (List.intercalate [.comma] (parts.map entryTokens) ++ [.rBrace]))
      (.object entries) := by
  refine whole_postfix ⟨_, _, rfl, by simp [Token.opens]⟩ ?_ (fun rest _ => ?_)
    fun depth hDepth stop hAccess _ => ?_
  · exact noEof_cons (by nofun) (noEof_append (noEof_entries stand) (noEof_singleton (by nofun)))
  · have hTexts : List.Forall₂ (fun text tokens => ∀ rest, Follows platform rest →
        Lexes platform (text ++ rest) tokens rest) (entryTexts entries) (parts.map entryTokens) := by
      rw [entryTexts_eq, List.forall₂_map_left_iff, List.forall₂_map_right_iff]
      exact stand.imp fun _ _ h => lexes_entry h.1 h.2
    exact lexes_enclosed (fun _ => Lexes.symbol rfl (by decide)) (fun _ => Lexes.symbol rfl (by decide))
      (fun more => follows_cons (.of_ascii (by decide) (by decide) (by decide)) more)
      (fun rest hRest => Lexes.intercalate hTexts hRest) rest
  · simp only [List.length_append, List.length_cons] at hDepth
    refine Takes.unaccessed (Takes.object (takes_entries stand fun entry hEntry => ?_)) hAccess
    have hText : keyText entry.1 ++ ':' :: wrap entry.2 (text entry.2) ∈ entryTexts entries := by
      rw [entryTexts_eq]
      exact List.mem_map_of_mem hEntry
    have hLess := @length_le_intercalate _ [','] _ _ hText
    omega

end Lists

end Jq
end OwsRuntime
