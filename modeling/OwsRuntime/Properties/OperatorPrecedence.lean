import OwsRuntime.Expressions.Grammar

/-! How neighbouring operators group. The alternative operator has the level of
addition, and a pipe binds tighter than a comma. -/
namespace OwsRuntime
namespace Jq

/-- Two operators next to each other: a comma before a pipe, or `//` before or after
another binary operator. -/
inductive Neighbours where
  | commaPipe
  | alternativeFirst (op : BinOp)
  | alternativeLast (op : BinOp)

namespace Neighbours

variable (a b c : String) (x y z : Expr)

/-- The three operands with the operators between them. -/
def text : Neighbours → String
  | commaPipe => a ++ " , " ++ b ++ " | " ++ c
  | alternativeFirst op => a ++ " // " ++ b ++ " " ++ op.symbol ++ " " ++ c
  | alternativeLast op => a ++ " " ++ op.symbol ++ " " ++ b ++ " // " ++ c

/-- The token after the first operand. -/
def first : Neighbours → Token
  | commaPipe => .comma
  | alternativeFirst _ => .alternative
  | alternativeLast op => op.token

/-- The token after the second operand. -/
def second : Neighbours → Token
  | commaPipe => .pipe
  | alternativeFirst op => op.token
  | alternativeLast _ => .alternative

/-- The grouping of jq, where a pipe binds looser than a comma, and `//` binds looser
than the other binary operators. -/
def jqTree : Neighbours → Expr
  | commaPipe => .pipe (.stream [x, y]) z
  | alternativeFirst op => .binary .alternative x (.binary op y z)
  | alternativeLast op => .binary .alternative (.binary op x y) z

/-- The operator next to `//` is `or`, `and`, a comparison or an arithmetic one. -/
def IsOther : Neighbours → Prop
  | commaPipe => True
  | alternativeFirst op => op ≠ .alternative
  | alternativeLast op => op ≠ .alternative

/-- The operator next to `//` binds tighter in the parser, or is of its level and
comes before it. -/
def Agrees : Neighbours → Prop
  | commaPipe => False
  | alternativeFirst op => op ∈ [.mul, .div, .mod]
  | alternativeLast op => op ∈ [.mul, .div, .mod, .add, .sub]

/-- What the parser makes of the operands. -/
def tree : Neighbours → Expr
  | commaPipe => .stream [x, .pipe y z]
  | alternativeFirst op =>
      if op ∈ [.mul, .div, .mod] then .binary .alternative x (.binary op y z)
      else .binary op (.binary .alternative x y) z
  | alternativeLast op =>
      if op ∈ [.mul, .div, .mod, .add, .sub] then .binary .alternative (.binary op x y) z
      else .binary op x (.binary .alternative y z)

end Neighbours

section Grouping

variable {platform : Platform} {nested : Nested} {stop : Token} {ta tb tc tokens : List Token}
  {x y z e : Expr}

theorem takes_of_or (hOr : Takes (parseOr platform nested) tokens e .eof) :
    Takes (parseExpr platform nested) tokens e .eof := (hOr.pipe rfl).expr (by nofun)

theorem takes_of_compare (hCompare : Takes (parseCompare platform nested) tokens e .eof) :
    Takes (parseExpr platform nested) tokens e .eof := takes_of_or ((hCompare.and rfl).or rfl)

theorem takes_of_additive (hAdditive : Takes (parseAdditive platform nested) tokens e .eof) :
    Takes (parseExpr platform nested) tokens e .eof := takes_of_compare (hAdditive.compare rfl)

theorem additive_of_unary (hUnary : Takes (parseUnary platform nested) tokens e stop)
    (hMult : multOperator stop = none) (hStop : additiveOperator stop = none) :
    Takes (parseAdditive platform nested) tokens e stop := (hUnary.mult hMult).additive hStop

/-- A comparison, in which `//` may stand on either side. -/
theorem takes_compare (op : BinOp) (hOperator : compareOperator op.token = some (.binary op))
    (hLeft : Takes (parseAdditive platform nested) ta x op.token)
    (hRight : Takes (parseAdditive platform nested) tb y .eof) :
    Takes (parseExpr platform nested) (ta ++ op.token :: tb) (.binary op x y) .eof :=
  takes_of_compare (Takes.level_two hOperator hLeft hRight rfl)

theorem takes_and (hLeft : Takes (parseAdditive platform nested) ta x (.ident "and"))
    (hRight : Takes (parseAdditive platform nested) tb y .eof) :
    Takes (parseExpr platform nested) (ta ++ .ident "and" :: tb) (.binary .and x y) .eof :=
  takes_of_or ((Takes.level_two (by rfl) (hLeft.compare rfl) (hRight.compare rfl) rfl).or rfl)

theorem takes_or (hLeft : Takes (parseAdditive platform nested) ta x (.ident "or"))
    (hRight : Takes (parseAdditive platform nested) tb y .eof) :
    Takes (parseExpr platform nested) (ta ++ .ident "or" :: tb) (.binary .or x y) .eof :=
  takes_of_or (Takes.level_two (by rfl) ((hLeft.compare rfl).and rfl)
    ((hRight.compare rfl).and rfl) rfl)

/-- The operators of multiplication bind tighter than `//`. -/
theorem takes_mult_last (op : BinOp) (hOperator : multOperator op.token = some (.binary op))
    (hFirst : Takes (parseUnary platform nested) ta x .alternative)
    (hSecond : Takes (parseUnary platform nested) tb y op.token)
    (hThird : Takes (parseUnary platform nested) tc z .eof) :
    Takes (parseExpr platform nested) (ta ++ .alternative :: (tb ++ op.token :: tc))
      (.binary .alternative x (.binary op y z)) .eof := by
  have hProduct : Takes (parseMult platform nested) (tb ++ op.token :: tc) (.binary op y z) .eof :=
    Takes.level_two hOperator hSecond hThird rfl
  exact takes_of_additive (Takes.level_two (by rfl) (hFirst.mult rfl) hProduct rfl)

theorem takes_mult_first (op : BinOp) (hOperator : multOperator op.token = some (.binary op))
    (hFirst : Takes (parseUnary platform nested) ta x op.token)
    (hSecond : Takes (parseUnary platform nested) tb y .alternative)
    (hThird : Takes (parseUnary platform nested) tc z .eof) :
    Takes (parseExpr platform nested) (ta ++ op.token :: (tb ++ .alternative :: tc))
      (.binary .alternative (.binary op x y) z) .eof := by
  have hProduct : Takes (parseMult platform nested) (ta ++ op.token :: tb) (.binary op x y)
      .alternative := Takes.level_two hOperator hFirst hSecond rfl
  have hAll : Takes (parseExpr platform nested) ((ta ++ op.token :: tb) ++ .alternative :: tc)
      (.binary .alternative (.binary op x y) z) .eof :=
    takes_of_additive (Takes.level_two (by rfl) hProduct (hThird.mult rfl) rfl)
  rwa [List.append_assoc] at hAll

/-- `//` before an operand that no tighter operator follows. -/
theorem alternative_before (hFirst : Takes (parseUnary platform nested) ta x .alternative)
    (hSecond : Takes (parseUnary platform nested) tb y stop) (hMult : multOperator stop = none)
    (hStop : additiveOperator stop = none) :
    Takes (parseAdditive platform nested) (ta ++ .alternative :: tb) (.binary .alternative x y) stop :=
  Takes.level_two (by rfl) (hFirst.mult rfl) (hSecond.mult hMult) hStop

/-- With the alternative before another operator, it is grouped first, as a sum is, unless the other
one is a factor: then the factor is the right operand of the alternative. -/
theorem takes_alternativeFirst {op : BinOp} (hOther : op ≠ .alternative)
    (hFirst : Takes (parseUnary platform nested) ta x .alternative)
    (hSecond : Takes (parseUnary platform nested) tb y op.token)
    (hThird : Takes (parseUnary platform nested) tc z .eof) :
    Takes (parseExpr platform nested) (ta ++ .alternative :: (tb ++ op.token :: tc))
      ((Neighbours.alternativeFirst op).tree x y z) .eof := by
  have hRight : Takes (parseAdditive platform nested) tc z .eof := additive_of_unary hThird rfl rfl
  have hGroup : ta ++ .alternative :: (tb ++ op.token :: tc) =
      (ta ++ .alternative :: tb) ++ op.token :: tc := by simp
  cases op with
  | mul => exact takes_mult_last .mul rfl hFirst hSecond hThird
  | div => exact takes_mult_last .div rfl hFirst hSecond hThird
  | mod => exact takes_mult_last .mod rfl hFirst hSecond hThird
  | add =>
      exact takes_of_additive (Takes.level_three (by rfl) (by rfl) (hFirst.mult rfl)
        (hSecond.mult rfl) (hThird.mult rfl) rfl)
  | sub =>
      exact takes_of_additive (Takes.level_three (by rfl) (by rfl) (hFirst.mult rfl)
        (hSecond.mult rfl) (hThird.mult rfl) rfl)
  | alternative => exact absurd rfl hOther
  | and =>
      rw [hGroup]
      exact takes_and (alternative_before hFirst hSecond rfl rfl) hRight
  | or =>
      rw [hGroup]
      exact takes_or (alternative_before hFirst hSecond rfl rfl) hRight
  | eq =>
      rw [hGroup]
      exact takes_compare .eq rfl (alternative_before hFirst hSecond rfl rfl) hRight
  | ne =>
      rw [hGroup]
      exact takes_compare .ne rfl (alternative_before hFirst hSecond rfl rfl) hRight
  | lt =>
      rw [hGroup]
      exact takes_compare .lt rfl (alternative_before hFirst hSecond rfl rfl) hRight
  | le =>
      rw [hGroup]
      exact takes_compare .le rfl (alternative_before hFirst hSecond rfl rfl) hRight
  | gt =>
      rw [hGroup]
      exact takes_compare .gt rfl (alternative_before hFirst hSecond rfl rfl) hRight
  | ge =>
      rw [hGroup]
      exact takes_compare .ge rfl (alternative_before hFirst hSecond rfl rfl) hRight

/-- With the alternative after another operator, it takes all that is before it when that is a
factor or a sum. After a comparison or a connective it takes the right operand only. -/
theorem takes_alternativeLast {op : BinOp} (hOther : op ≠ .alternative)
    (hFirst : Takes (parseUnary platform nested) ta x op.token)
    (hSecond : Takes (parseUnary platform nested) tb y .alternative)
    (hThird : Takes (parseUnary platform nested) tc z .eof) :
    Takes (parseExpr platform nested) (ta ++ op.token :: (tb ++ .alternative :: tc))
      ((Neighbours.alternativeLast op).tree x y z) .eof := by
  have hRight : Takes (parseAdditive platform nested) (tb ++ .alternative :: tc)
      (.binary .alternative y z) .eof := alternative_before hSecond hThird rfl rfl
  cases op with
  | mul => exact takes_mult_first .mul rfl hFirst hSecond hThird
  | div => exact takes_mult_first .div rfl hFirst hSecond hThird
  | mod => exact takes_mult_first .mod rfl hFirst hSecond hThird
  | add =>
      exact takes_of_additive (Takes.level_three (by rfl) (by rfl) (hFirst.mult rfl)
        (hSecond.mult rfl) (hThird.mult rfl) rfl)
  | sub =>
      exact takes_of_additive (Takes.level_three (by rfl) (by rfl) (hFirst.mult rfl)
        (hSecond.mult rfl) (hThird.mult rfl) rfl)
  | alternative => exact absurd rfl hOther
  | and => exact takes_and (additive_of_unary hFirst rfl rfl) hRight
  | or => exact takes_or (additive_of_unary hFirst rfl rfl) hRight
  | eq => exact takes_compare .eq rfl (additive_of_unary hFirst rfl rfl) hRight
  | ne => exact takes_compare .ne rfl (additive_of_unary hFirst rfl rfl) hRight
  | lt => exact takes_compare .lt rfl (additive_of_unary hFirst rfl rfl) hRight
  | le => exact takes_compare .le rfl (additive_of_unary hFirst rfl rfl) hRight
  | gt => exact takes_compare .gt rfl (additive_of_unary hFirst rfl rfl) hRight
  | ge => exact takes_compare .ge rfl (additive_of_unary hFirst rfl rfl) hRight

theorem pipe_of_unary (hUnary : Takes (parseUnary platform nested) tokens e stop)
    (hStop : stop = .comma ∨ stop = .pipe ∨ stop = .eof) :
    Takes (parseOr platform nested) tokens e stop := by
  rcases hStop with rfl | rfl | rfl
  · exact ((((hUnary.mult rfl).additive rfl).compare rfl).and rfl).or rfl
  · exact ((((hUnary.mult rfl).additive rfl).compare rfl).and rfl).or rfl
  · exact ((((hUnary.mult rfl).additive rfl).compare rfl).and rfl).or rfl

/-- What the parser makes of three operands with operators between them. -/
theorem takes_tree {n : Neighbours} (hOther : n.IsOther)
    (hFirst : Takes (parseUnary platform nested) ta x n.first)
    (hSecond : Takes (parseUnary platform nested) tb y n.second)
    (hThird : Takes (parseUnary platform nested) tc z .eof) :
    Takes (parseExpr platform nested) (ta ++ n.first :: (tb ++ n.second :: tc)) (n.tree x y z) .eof := by
  cases n with
  | commaPipe =>
      have hLeft := pipe_of_unary hFirst (Or.inl rfl)
      have hMiddle := pipe_of_unary hSecond (Or.inr (Or.inl rfl))
      have hRight := pipe_of_unary hThird (Or.inr (Or.inr rfl))
      exact Takes.expr_two (hLeft.pipe rfl) (Takes.level_two (by rfl) hMiddle hRight rfl) (by nofun)
  | alternativeFirst op => exact takes_alternativeFirst hOther hFirst hSecond hThird
  | alternativeLast op => exact takes_alternativeLast hOther hFirst hSecond hThird

end Grouping

section Texts

variable {platform : Platform} {a b c : String} {x y z : Expr}

/-- The tokens of three operands with operators between them are those of the operands, with a token
for each operator. -/
theorem lexes_text (n : Neighbours) {ta tb tc : List Token} (ha : Lexes platform a.toList ta [])
    (hb : Lexes platform b.toList tb []) (hc : Lexes platform c.toList tc []) :
    Lexes platform (n.text a b c).toList (ta ++ n.first :: (tb ++ n.second :: tc)) [] := by
  have hFirst : ∀ rest, Lexes platform ("//".toList ++ ' ' :: rest) [.alternative] (' ' :: rest) :=
    BinOp.lexes_symbol .alternative
  have hComma : ∀ rest, Lexes platform (",".toList ++ ' ' :: rest) [.comma] (' ' :: rest) :=
    fun rest => Lexes.symbol rfl (by decide)
  have hPipe : ∀ rest, Lexes platform ("|".toList ++ ' ' :: rest) [.pipe] (' ' :: rest) :=
    fun rest => Lexes.symbol rfl (by decide)
  cases n with
  | commaPipe =>
      have hAll := lexes_operand ha (hComma _) (lexes_operand hb (hPipe _) hc)
      simpa [Neighbours.text, Neighbours.first, Neighbours.second, String.toList_append] using hAll
  | alternativeFirst op =>
      have hAll := lexes_operand ha (hFirst _) (lexes_operand hb (op.lexes_symbol _) hc)
      simpa [Neighbours.text, Neighbours.first, Neighbours.second, String.toList_append] using hAll
  | alternativeLast op =>
      have hAll := lexes_operand ha (op.lexes_symbol _) (lexes_operand hb (hFirst _) hc)
      simpa [Neighbours.text, Neighbours.first, Neighbours.second, String.toList_append] using hAll

theorem length_text (n : Neighbours) (a b c : String) : a.length ≤ (n.text a b c).length ∧
    b.length ≤ (n.text a b c).length ∧ c.length ≤ (n.text a b c).length := by
  cases n <;> simp only [Neighbours.text, String.length_append] <;> omega

theorem first_ne_eof (n : Neighbours) : n.first ≠ .eof := by
  cases n with
  | alternativeLast op => exact op.token_ne_eof
  | _ => nofun

theorem second_ne_eof (n : Neighbours) : n.second ≠ .eof := by
  cases n with
  | alternativeFirst op => exact op.token_ne_eof
  | _ => nofun

/-- The parser groups operands by the levels of the operators between them. -/
theorem parse_text {n : Neighbours} (hOther : n.IsOther) (ha : Operand platform n.first a x)
    (hb : Operand platform n.second b y) (hc : Operand platform .eof c z) :
    parse platform (n.text a b c) = .ok (n.tree x y z) := by
  obtain ⟨ta, hta, hLexesA, hTakesA⟩ := ha
  obtain ⟨tb, htb, hLexesB, hTakesB⟩ := hb
  obtain ⟨tc, htc, hLexesC, hTakesC⟩ := hc
  obtain ⟨hLengthA, hLengthB, hLengthC⟩ := length_text n a b c
  have hTokens : NoEof (ta ++ n.first :: (tb ++ n.second :: tc)) :=
    noEof_append hta (noEof_cons (first_ne_eof n)
      (noEof_append htb (noEof_cons (second_ne_eof n) htc)))
  have hTakes := takes_tree hOther (hTakesA (n.text a b c).length hLengthA)
    (hTakesB (n.text a b c).length hLengthB) (hTakesC (n.text a b c).length hLengthC)
  exact parse_of_takes hTokens (lexes_text n hLexesA hLexesB hLexesC) (Or.inl rfl) hTakes

/-- The tree is the one of jq exactly for the neighbours on which the two tables of levels agree.
There is a case for each of the other operators. -/
theorem tree_eq_jqTree_iff {n : Neighbours} (hOther : n.IsOther) :
    n.tree x y z = n.jqTree x y z ↔ n.Agrees := by
  cases n with
  | commaPipe => simp [Neighbours.tree, Neighbours.jqTree, Neighbours.Agrees]
  | alternativeFirst op =>
      rw [Neighbours.tree, Neighbours.jqTree, Neighbours.Agrees]
      split
      · rename_i hTight
        exact ⟨fun _ => hTight, fun _ => rfl⟩
      · rename_i hLoose
        constructor
        · intro hEqual
          injection hEqual with hOp
          exact absurd hOp hOther
        · exact fun hTight => absurd hTight hLoose
  | alternativeLast op =>
      rw [Neighbours.tree, Neighbours.jqTree, Neighbours.Agrees]
      split
      · rename_i hTight
        exact ⟨fun _ => hTight, fun _ => rfl⟩
      · rename_i hLoose
        constructor
        · intro hEqual
          injection hEqual with hOp
          exact absurd hOp hOther
        · exact fun hTight => absurd hTight hLoose

/-- Operands are grouped as in jq exactly for the operators that the parser has on a
tighter level than `//`, or on its level and before it; never around a pipe. -/
theorem parse_eq_jqTree_iff {n : Neighbours} (hOther : n.IsOther)
    (ha : Operand platform n.first a x) (hb : Operand platform n.second b y)
    (hc : Operand platform .eof c z) :
    parse platform (n.text a b c) = .ok (n.jqTree x y z) ↔ n.Agrees := by
  rw [parse_text hOther ha hb hc, Except.ok.injEq]
  exact tree_eq_jqTree_iff hOther

end Texts

theorem parse_identity {platform : Platform} : parse platform "." = .ok .identity := by
  have hLexes : Lexes platform ['.'] [.dot] [] :=
    Lexes.single rfl (fun _ hHead => (by cases hHead))
  refine parse_of_takes (noEof_singleton (by nofun)) hLexes (Or.inl rfl) ?_
  intro pos more
  exact ⟨_, rfl⟩

/-- Identities in parentheses can stand as the three operands. -/
theorem parse_eq_jqTree_iff_identity :
    (Neighbours.IsOther (.alternativeFirst .add)) ∧
      Operand (.ascii true) .alternative (parenthesized ".") .identity ∧
      Operand (.ascii true) .plus (parenthesized ".") .identity ∧
      Operand (.ascii true) .eof (parenthesized ".") .identity ∧
      (parse (.ascii true) ((Neighbours.alternativeFirst .add).text (parenthesized ".")
          (parenthesized ".") (parenthesized ".")) =
        .ok ((Neighbours.alternativeFirst .add).jqTree .identity .identity .identity) ↔
      (Neighbours.alternativeFirst .add).Agrees) := by
  have hOther : Neighbours.IsOther (.alternativeFirst .add) := by nofun
  have hFirst : Operand (.ascii true) .alternative (parenthesized ".") .identity :=
    operand_parenthesized parse_identity (by decide)
  have hSecond : Operand (.ascii true) .plus (parenthesized ".") .identity :=
    operand_parenthesized parse_identity (by decide)
  have hThird : Operand (.ascii true) .eof (parenthesized ".") .identity :=
    operand_parenthesized parse_identity (by decide)
  exact ⟨hOther, hFirst, hSecond, hThird, parse_eq_jqTree_iff hOther hFirst hSecond hThird⟩

/-- A sum after `//` is no part of the alternative. -/
theorem parse_alternative_sum :
    parse (.ascii true) ". // . + ." ≠
      .ok ((Neighbours.alternativeFirst .add).jqTree .identity .identity .identity) := by
  have hParse : parse (.ascii true) ". // . + ." =
      .ok ((Neighbours.alternativeFirst .add).tree .identity .identity .identity) := by rfl
  rw [hParse]
  intro hEqual
  injection hEqual with hTree
  injection hTree with hOp
  cases hOp

end Jq
end OwsRuntime
