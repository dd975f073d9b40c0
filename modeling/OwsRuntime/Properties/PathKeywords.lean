import OwsRuntime.Expressions.Paths

/-! Words after a path. The loop over the first names of a path does not ask for a dot in
front of a name, so that it takes a word after them for one more field. -/
namespace OwsRuntime
namespace Jq

/-- A text which one function of the parser takes where some token comes after it. -/
def Taken (platform : Platform) (P : Nested → Parser Expr) (stop : Token) (text : String)
    (e : Expr) : Prop :=
  ∃ tokens, NoEof tokens ∧ Lexes platform text.toList tokens [] ∧
    ∀ depth, text.length ≤ depth → Takes (P (parserAt platform depth)) tokens e stop

/-- The tokens of an index in a text of some length. -/
def IndexWithin (platform : Platform) (size : Nat) (inner : List Token) (i : Expr) : Prop :=
  inner.headD .rBracket ≠ .rBracket ∧
    ∀ depth, size ≤ depth → Takes (parserAt platform depth).expr inner i .rBracket

/-- The text of a path. It is dotted if a dot follows in it after the one it begins with. -/
def IsPath (platform : Platform) (text : String) (e : Expr) (dotted : Bool) : Prop :=
  ∃ tokens, NoEof tokens ∧ Lexes platform text.toList tokens [] ∧
    Path (IndexWithin platform text.length) tokens e dotted

/-- Where a path stands: to the left of `and` or `or`, as the condition of an `if`, or as
the branch before an `else` or an `elif`. -/
inductive PathPlace where
  | and
  | or
  | condition
  | branch
  | elif

namespace PathPlace

variable (p q r : String) (x y z : Expr)

/-- The path there, with the other operands. -/
def text : PathPlace → String
  | and => p ++ " and " ++ q
  | or => p ++ " or " ++ q
  | condition => "if " ++ p ++ " then " ++ q ++ " else " ++ r ++ " end"
  | branch => "if " ++ q ++ " then " ++ p ++ " else " ++ r ++ " end"
  | elif => "if " ++ q ++ " then " ++ p ++ " elif " ++ q ++ " then " ++ r ++ " end"

def tree : PathPlace → Expr
  | and => .binary .and x y
  | or => .binary .or x y
  | condition => .if_ x y z
  | branch => .if_ y x z
  | elif => .if_ y x (.if_ y z (.literal .null))

/-- The other operands are taken as a whole in front of what comes after them. -/
def Fits (platform : Platform) : PathPlace → Prop
  | and => Taken platform (parseCompare platform) .eof q y
  | or => Taken platform (parseAnd platform) .eof q y
  | condition => Taken platform (parseExpr platform) (.ident "else") q y ∧
      Taken platform (parseExpr platform) (.ident "end") r z
  | branch => Taken platform (parseExpr platform) (.ident "then") q y ∧
      Taken platform (parseExpr platform) (.ident "end") r z
  | elif => Taken platform (parseExpr platform) (.ident "then") q y ∧
      Taken platform (parseExpr platform) (.ident "end") r z

end PathPlace

section Texts

variable {platform : Platform} {a b c d : String} {ta tb tc td tokens : List Token}
  {rest text : List Char}

/-- The keyword of a conditional and a space are in front of the text of its condition. -/
theorem lexes_if (hText : Lexes platform text tokens []) :
    Lexes platform ("if".toList ++ ' ' :: text) (.ident "if" :: tokens) [] :=
  (lexes_reserved_space "if" (by decide)).trans hText.space

/-- Its last keyword comes after a space. -/
theorem lexes_end (hc : Lexes platform c.toList tc []) :
    Lexes platform (c.toList ++ ' ' :: "end".toList) (tc ++ [.ident "end"]) [] := by
  have hEnd : Lexes platform ("end".toList ++ []) [.ident "end"] [] :=
    lexes_reserved "end" (by decide) nofun
  rw [List.append_nil] at hEnd
  exact (hc.append (follows_space _)).trans hEnd.space

/-- Two texts with `and` between them have the tokens of both, with the keyword between, -/
theorem lexes_and (ha : Lexes platform a.toList ta []) (hb : Lexes platform b.toList tb []) :
    Lexes platform (a ++ " and " ++ b).toList (ta ++ .ident "and" :: tb) [] := by
  have hAll := lexes_operand ha (lexes_reserved_space "and" (by decide)) hb
  simpa [String.toList_append] using hAll

/-- and so have two texts with `or` between them. -/
theorem lexes_or (ha : Lexes platform a.toList ta []) (hb : Lexes platform b.toList tb []) :
    Lexes platform (a ++ " or " ++ b).toList (ta ++ .ident "or" :: tb) [] := by
  have hAll := lexes_operand ha (lexes_reserved_space "or" (by decide)) hb
  simpa [String.toList_append] using hAll

/-- A conditional with an `else` has the tokens of its three parts, between its keywords, -/
theorem lexes_ifElse (ha : Lexes platform a.toList ta []) (hb : Lexes platform b.toList tb [])
    (hc : Lexes platform c.toList tc []) :
    Lexes platform ("if " ++ a ++ " then " ++ b ++ " else " ++ c ++ " end").toList
      (.ident "if" :: (ta ++ .ident "then" :: (tb ++ .ident "else" :: (tc ++ [.ident "end"])))) [] := by
  have hElse := lexes_operand hb (lexes_reserved_space "else" (by decide)) (lexes_end hc)
  have hThen := lexes_operand ha (lexes_reserved_space "then" (by decide)) hElse
  simpa [String.toList_append] using lexes_if hThen

/-- and one with an `elif` has those of its four parts. -/
theorem lexes_ifElif (ha : Lexes platform a.toList ta []) (hb : Lexes platform b.toList tb [])
    (hc : Lexes platform c.toList tc []) (hd : Lexes platform d.toList td []) :
    Lexes platform ("if " ++ a ++ " then " ++ b ++ " elif " ++ c ++ " then " ++ d ++ " end").toList
      (.ident "if" :: (ta ++ .ident "then" :: (tb ++ .ident "elif" ::
        (tc ++ .ident "then" :: (td ++ [.ident "end"]))))) [] := by
  have hOther := lexes_operand hc (lexes_reserved_space "then" (by decide)) (lexes_end hd)
  have hElif := lexes_operand hb (lexes_reserved_space "elif" (by decide)) hOther
  have hThen := lexes_operand ha (lexes_reserved_space "then" (by decide)) hElif
  simpa [String.toList_append] using lexes_if hThen

/-- The end of the input is not among them. -/
theorem noEof_ifElif (ha : NoEof ta) (hb : NoEof tb) (hc : NoEof tc) (hd : NoEof td) :
    NoEof (.ident "if" :: (ta ++ .ident "then" :: (tb ++ .ident "elif" ::
      (tc ++ .ident "then" :: (td ++ [.ident "end"]))))) := by
  have hEnd : NoEof [Token.ident "end"] := noEof_singleton (by nofun)
  exact noEof_cons (by nofun) (noEof_append ha (noEof_cons (by nofun) (noEof_append hb
    (noEof_cons (by nofun) (noEof_append hc (noEof_cons (by nofun) (noEof_append hd hEnd)))))))

/-- An `if` contains its parts, and is longer. -/
theorem length_ifElse : ∃ depth, ("if " ++ a ++ " then " ++ b ++ " else " ++ c ++ " end").length =
    depth + 1 ∧ a.length ≤ depth ∧ b.length ≤ depth ∧ c.length ≤ depth := by
  have hIf : "if ".length = 3 := rfl
  refine ⟨_, (Nat.succ_pred_eq_of_pos ?_).symm, ?_⟩
  all_goals simp only [String.length_append, Nat.pred_eq_sub_one]; omega

/-- Each part is shorter than the whole text, which bounds the depth of its parse. -/
theorem length_ifElif : ∃ depth,
    ("if " ++ a ++ " then " ++ b ++ " elif " ++ c ++ " then " ++ d ++ " end").length = depth + 1 ∧
      a.length ≤ depth ∧ b.length ≤ depth ∧ c.length ≤ depth ∧ d.length ≤ depth := by
  have hIf : "if ".length = 3 := rfl
  refine ⟨_, (Nat.succ_pred_eq_of_pos ?_).symm, ?_⟩
  all_goals simp only [String.length_append, Nat.pred_eq_sub_one]; omega

end Texts

section Dotted

variable {platform : Platform} {nested : Nested} {Inner : List Token → Expr → Prop}
  {tokens : List Token} {e : Expr} {stop : Token} {dotted : Bool} {p q r : String} {x y z : Expr}

/-- At a depth that the text does not exceed, an index of a path is read back. -/
theorem indexTaken_within {size depth : Nat} (hDepth : size ≤ depth) :
    IndexTaken (IndexWithin platform size) (parserAt platform depth) :=
  fun _ _ hIndex => ⟨hIndex.1, hIndex.2 depth hDepth⟩

/-- A path is an operand in front of what is neither a name nor an access. -/
theorem Path.takes_operand (hInner : IndexTaken Inner nested) (path : Path Inner tokens e dotted)
    (hName : fieldName? stop = none) (hStop : stop ≠ .dot ∧ stop ≠ .lBracket) :
    Takes (parseUnary platform nested) tokens e stop := by
  cases dotted with
  | true => exact path.takes_unary hInner hStop
  | false =>
      obtain ⟨rest, rfl⟩ := path.head
      exact ((path.takes_base hInner hName hStop.2).unaccessed hStop).unary nofun nofun

/-- A dotted path is an expression in front of a word that is no operator. -/
theorem Path.takes_expr (hInner : IndexTaken Inner nested) (path : Path Inner tokens e true)
    {word : String} (hAnd : word ≠ "and") (hOr : word ≠ "or") :
    Takes (parseExpr platform nested) tokens e (.ident word) := by
  have hUnary : Takes (parseUnary platform nested) tokens e (.ident word) :=
    path.takes_unary hInner ⟨nofun, nofun⟩
  have hNoAnd : andOperator (.ident word) = none := if_neg (by simpa using hAnd)
  have hNoOr : orOperator (.ident word) = none := if_neg (by simpa using hOr)
  have hCompare := ((hUnary.mult rfl).additive rfl).compare rfl
  exact (((hCompare.and hNoAnd).or hNoOr).pipe rfl).expr (by nofun)

/-- A path by itself is parsed. -/
theorem IsPath.parses (path : IsPath platform p x dotted) : parse platform p = .ok x := by
  obtain ⟨tokens, hTokens, hLexes, path⟩ := path
  have hUnary : Takes (parseUnary platform (parserAt platform p.length)) tokens x .eof :=
    path.takes_operand (indexTaken_within (Nat.le_refl _)) rfl ⟨nofun, nofun⟩
  have hOr := ((((hUnary.mult rfl).additive rfl).compare rfl).and rfl).or rfl
  exact parse_of_takes hTokens hLexes (Or.inl rfl) ((hOr.pipe rfl).expr (by nofun))

/-- An `if` alone is an expression. -/
theorem takes_if_alone (hBase : Takes (parseBase platform nested) (.ident "if" :: tokens) e .eof) :
    Takes (parseExpr platform nested) (.ident "if" :: tokens) e .eof := by
  have hUnary : Takes (parseUnary platform nested) (.ident "if" :: tokens) e .eof :=
    (hBase.unaccessed ⟨nofun, nofun⟩).unary (by simp) (by simp)
  have hOr := ((((hUnary.mult rfl).additive rfl).compare rfl).and rfl).or rfl
  exact (hOr.pipe rfl).expr (by nofun)

/-- A path that does not end in a dotted name alone goes before `and`, -/
theorem IsPath.parse_and (path : IsPath platform p x true)
    (taken : Taken platform (parseCompare platform) .eof q y) :
    parse platform (p ++ " and " ++ q) = .ok (.binary .and x y) := by
  obtain ⟨tp, hp, hLexesP, path⟩ := path
  obtain ⟨tq, hq, hLexesQ, hTakesQ⟩ := taken
  have hLength : (p ++ " and " ++ q).length = p.length + 5 + q.length := by
    simp only [String.length_append]
    rfl
  have hLeft : Takes (parseUnary platform (parserAt platform (p ++ " and " ++ q).length)) tp x
      (.ident "and") := path.takes_unary (indexTaken_within (by omega)) ⟨nofun, nofun⟩
  have hAnd : Takes (parseAnd platform (parserAt platform (p ++ " and " ++ q).length))
      (tp ++ .ident "and" :: tq) (.binary .and x y) .eof :=
    Takes.level_two (by rfl) (((hLeft.mult rfl).additive rfl).compare rfl)
      (hTakesQ _ (by omega)) rfl
  exact parse_of_takes (noEof_append hp (noEof_cons (by nofun) hq)) (lexes_and hLexesP hLexesQ)
    (Or.inl rfl) (((hAnd.or rfl).pipe rfl).expr (by nofun))

/-- and before `or`. -/
theorem IsPath.parse_or (path : IsPath platform p x true)
    (taken : Taken platform (parseAnd platform) .eof q y) :
    parse platform (p ++ " or " ++ q) = .ok (.binary .or x y) := by
  obtain ⟨tp, hp, hLexesP, path⟩ := path
  obtain ⟨tq, hq, hLexesQ, hTakesQ⟩ := taken
  have hLength : (p ++ " or " ++ q).length = p.length + 4 + q.length := by
    simp only [String.length_append]
    rfl
  have hLeft : Takes (parseUnary platform (parserAt platform (p ++ " or " ++ q).length)) tp x
      (.ident "or") := path.takes_unary (indexTaken_within (by omega)) ⟨nofun, nofun⟩
  have hOr : Takes (parseOr platform (parserAt platform (p ++ " or " ++ q).length))
      (tp ++ .ident "or" :: tq) (.binary .or x y) .eof :=
    Takes.level_two (by rfl) ((((hLeft.mult rfl).additive rfl).compare rfl).and rfl)
      (hTakesQ _ (by omega)) rfl
  exact parse_of_takes (noEof_append hp (noEof_cons (by nofun) hq)) (lexes_or hLexesP hLexesQ)
    (Or.inl rfl) ((hOr.pipe rfl).expr (by nofun))

/-- An `if` whose parts are taken. -/
theorem parse_ifElse {a b c : String} {u v w : Expr}
    (ha : Taken platform (parseExpr platform) (.ident "then") a u)
    (hb : Taken platform (parseExpr platform) (.ident "else") b v)
    (hc : Taken platform (parseExpr platform) (.ident "end") c w) :
    parse platform ("if " ++ a ++ " then " ++ b ++ " else " ++ c ++ " end") = .ok (.if_ u v w) := by
  obtain ⟨ta, ha, hLexesA, hTakesA⟩ := ha
  obtain ⟨tb, hb, hLexesB, hTakesB⟩ := hb
  obtain ⟨tc, hc, hLexesC, hTakesC⟩ := hc
  obtain ⟨depth, hLength, hDepthA, hDepthB, hDepthC⟩ := @length_ifElse a b c
  refine parse_of_takes (noEof_ifElse ha hb hc) (lexes_ifElse hLexesA hLexesB hLexesC)
    (Or.inl rfl) (takes_if_alone ?_)
  rw [hLength]
  exact Takes.ifElse (hTakesA depth hDepthA) (hTakesB depth hDepthB) (hTakesC depth hDepthC)

/-- When each part is taken up to the keyword after it, the conditional is parsed. -/
theorem parse_ifElif {a b c d : String} {u v w w' : Expr}
    (ha : Taken platform (parseExpr platform) (.ident "then") a u)
    (hb : Taken platform (parseExpr platform) (.ident "elif") b v)
    (hc : Taken platform (parseExpr platform) (.ident "then") c w)
    (hd : Taken platform (parseExpr platform) (.ident "end") d w') :
    parse platform ("if " ++ a ++ " then " ++ b ++ " elif " ++ c ++ " then " ++ d ++ " end") =
      .ok (.if_ u v (.if_ w w' (.literal .null))) := by
  obtain ⟨ta, ha, hLexesA, hTakesA⟩ := ha
  obtain ⟨tb, hb, hLexesB, hTakesB⟩ := hb
  obtain ⟨tc, hc, hLexesC, hTakesC⟩ := hc
  obtain ⟨td, hd, hLexesD, hTakesD⟩ := hd
  obtain ⟨depth, hLength, hDepthA, hDepthB, hDepthC, hDepthD⟩ := @length_ifElif a b c d
  refine parse_of_takes (noEof_ifElif ha hb hc hd) (lexes_ifElif hLexesA hLexesB hLexesC hLexesD)
    (Or.inl rfl) (takes_if_alone ?_)
  rw [hLength]
  exact Takes.ifElif (hTakesA depth hDepthA) (hTakesB depth hDepthB) (hTakesC depth hDepthC)
    (hTakesD depth hDepthD)

/-- Such a path is taken up to any word that is not an operator. -/
theorem IsPath.taken (path : IsPath platform p x true) {word : String} (hAnd : word ≠ "and")
    (hOr : word ≠ "or") : Taken platform (parseExpr platform) (.ident word) p x := by
  obtain ⟨tp, hp, hLexes, path⟩ := path
  exact ⟨tp, hp, hLexes, fun depth hDepth => path.takes_expr (indexTaken_within hDepth) hAnd hOr⟩

/-- A dotted path is read as it should be, wherever it stands. -/
theorem IsPath.parse_place (path : IsPath platform p x true) (place : PathPlace)
    (fits : place.Fits q r y z platform) :
    parse platform (place.text p q r) = .ok (place.tree x y z) := by
  cases place with
  | and => exact path.parse_and fits
  | or => exact path.parse_or fits
  | condition => exact parse_ifElse (path.taken (by decide) (by decide)) fits.1 fits.2
  | branch => exact parse_ifElse fits.1 (path.taken (by decide) (by decide)) fits.2
  | elif => exact parse_ifElif fits.1 (path.taken (by decide) (by decide)) fits.1 fits.2

end Dotted

section Open

variable {platform : Platform} {p q r a b c d : String} {x y z u v w : Expr}

/-- Before an operator, the word is in the path, and so nothing is joined by it. -/
theorem IsPath.not_parse_binary (path : IsPath platform p x false) {op : BinOp} {word text : String}
    {tq : List Token} (hq : NoEof tq) (hLexes : ∀ tp, Lexes platform p.toList tp [] →
      Lexes platform text.toList (tp ++ .ident word :: tq) []) (hLength : p.length ≤ text.length) :
    parse platform text ≠ .ok (.binary op x y) := by
  intro hParse
  obtain ⟨tp, hp, hLexesP, path⟩ := path
  obtain ⟨c, hRun, _⟩ := run_of_parse (noEof_append hp (noEof_cons (by nofun) hq))
    (hLexes tp hLexesP) (Or.inl rfl) hParse
  rw [List.append_assoc, List.cons_append] at hRun
  exact not_wraps_binary (path.absorbs (indexTaken_within hLength) (by simp) hRun)

/-- As a part of an `if`, a path takes the word after it. -/
theorem IsPath.not_part (path : IsPath platform p x false) {tp : List Token}
    (hLexes : Lexes platform p.toList tp []) {depth pos : Nat}
    (hDepth : p.length ≤ depth) {word : String} {more : List Token} (hMore : more ≠ []) {e : Expr}
    {c : Cursor} (hRun : (parserAt platform (depth + 1)).expr ⟨pos, tp ++ .ident word :: more⟩ =
      .ok (e, c)) : e ≠ x := by
  rintro rfl
  obtain ⟨tp', _, hLexes', path⟩ := path
  cases hLexes.unique (Or.inl rfl) hLexes' (Or.inl rfl)
  exact not_wraps_field (path.absorbs (indexTaken_within hDepth) hMore hRun)

/-- Any other path takes `then` for a name, so it is no condition, -/
theorem IsPath.not_condition (path : IsPath platform p x false)
    (hb : Taken platform (parseExpr platform) (.ident "else") b v)
    (hc : Taken platform (parseExpr platform) (.ident "end") c w) :
    parse platform ("if " ++ p ++ " then " ++ b ++ " else " ++ c ++ " end") ≠ .ok (.if_ x y z) := by
  intro hParse
  have ⟨tp, hp, hLexesP, _⟩ := path
  obtain ⟨tb, hb, hLexesB, _⟩ := hb
  obtain ⟨tc, hc, hLexesC, _⟩ := hc
  obtain ⟨depth, hLength, hDepth, _⟩ := @length_ifElse p b c
  obtain ⟨end_, hRun, _⟩ := run_of_parse (noEof_ifElse hp hb hc)
    (lexes_ifElse hLexesP hLexesB hLexesC) (Or.inl rfl) hParse
  rw [hLength, List.cons_append] at hRun
  obtain ⟨c₁, _, _, hCond, _⟩ := parseIf_parts (by simp) (parseIf_of_expr hRun)
  rw [List.append_assoc, List.cons_append] at hCond
  exact path.not_part hLexesP hDepth (by simp) hCond rfl

/-- takes `else`, so it is no branch, -/
theorem IsPath.not_branch (path : IsPath platform p x false)
    (ha : Taken platform (parseExpr platform) (.ident "then") a u)
    (hc : Taken platform (parseExpr platform) (.ident "end") c w) :
    parse platform ("if " ++ a ++ " then " ++ p ++ " else " ++ c ++ " end") ≠ .ok (.if_ y x z) := by
  intro hParse
  have ⟨tp, hp, hLexesP, _⟩ := path
  obtain ⟨ta, ha, hLexesA, hTakesA⟩ := ha
  obtain ⟨tc, hc, hLexesC, _⟩ := hc
  obtain ⟨depth, hLength, hDepthA, hDepth, _⟩ := @length_ifElse a p c
  obtain ⟨end_, hRun, _⟩ := run_of_parse (noEof_ifElse ha hp hc)
    (lexes_ifElse hLexesA hLexesP hLexesC) (Or.inl rfl) hParse
  rw [hLength, List.cons_append] at hRun
  have hIf := parseIf_of_expr hRun
  rw [List.append_assoc, List.cons_append] at hIf
  obtain ⟨pos, _, hBranch⟩ := branch_of_if (by simp) (hTakesA depth hDepthA) hIf
  rw [List.append_assoc, List.cons_append] at hBranch
  exact path.not_part hLexesP hDepth (by simp) hBranch rfl

/-- and takes `elif` for a field, so that the second condition is not found. -/
theorem IsPath.not_elif (path : IsPath platform p x false)
    (ha : Taken platform (parseExpr platform) (.ident "then") a u)
    (hc : Taken platform (parseExpr platform) (.ident "then") c v)
    (hd : Taken platform (parseExpr platform) (.ident "end") d w) :
    parse platform ("if " ++ a ++ " then " ++ p ++ " elif " ++ c ++ " then " ++ d ++ " end") ≠
      .ok (.if_ y x z) := by
  intro hParse
  have ⟨tp, hp, hLexesP, _⟩ := path
  obtain ⟨ta, ha, hLexesA, hTakesA⟩ := ha
  obtain ⟨tc, hc, hLexesC, _⟩ := hc
  obtain ⟨td, hd, hLexesD, _⟩ := hd
  obtain ⟨depth, hLength, hDepthA, hDepth, _⟩ := @length_ifElif a p c d
  obtain ⟨end_, hRun, _⟩ := run_of_parse (noEof_ifElif ha hp hc hd)
    (lexes_ifElif hLexesA hLexesP hLexesC hLexesD) (Or.inl rfl) hParse
  rw [hLength, List.cons_append] at hRun
  have hIf := parseIf_of_expr hRun
  rw [List.append_assoc, List.cons_append] at hIf
  obtain ⟨pos, _, hBranch⟩ := branch_of_if (by simp) (hTakesA depth hDepthA) hIf
  rw [List.append_assoc, List.cons_append] at hBranch
  exact path.not_part hLexesP hDepth (by simp) hBranch rfl

/-- A path without a further dot is not read as it should be, wherever it stands. -/
theorem IsPath.not_parse_place (path : IsPath platform p x false) (place : PathPlace)
    (fits : place.Fits q r y z platform) :
    parse platform (place.text p q r) ≠ .ok (place.tree x y z) := by
  cases place with
  | and =>
      obtain ⟨tq, hq, hLexesQ, _⟩ := fits
      refine path.not_parse_binary hq (fun tp hLexes => lexes_and hLexes hLexesQ) ?_
      simp only [PathPlace.text, String.length_append]
      omega
  | or =>
      obtain ⟨tq, hq, hLexesQ, _⟩ := fits
      refine path.not_parse_binary hq (fun tp hLexes => lexes_or hLexes hLexesQ) ?_
      simp only [PathPlace.text, String.length_append]
      omega
  | condition => exact path.not_condition fits.1 fits.2
  | branch => exact path.not_branch fits.1 fits.2
  | elif => exact path.not_elif fits.1 fits.1 fits.2

end Open

section Words

variable {platform : Platform} {p word : String} {x : Expr}

/-- A path and a word after a space have the tokens of the path and the word. -/
theorem lexes_path_word {tp : List Token} (hLexes : Lexes platform p.toList tp [])
    (isWord : IsWord platform word) :
    Lexes platform (p ++ " " ++ word).toList (tp ++ [.ident word]) [] := by
  have hAll := (hLexes.append (follows_space word.toList)).trans isWord.lexes.space
  simpa [String.toList_append] using hAll

/-- After a path without a further dot, every word is a field. -/
theorem IsPath.parse_word (path : IsPath platform p x false) (isWord : IsWord platform word) :
    parse platform (p ++ " " ++ word) = .ok (.field x word) := by
  obtain ⟨tp, hp, hLexes, path⟩ := path
  have hLength : p.length ≤ (p ++ " " ++ word).length := by
    simp only [String.length_append]
    omega
  have hBase : Takes (parseBase platform (parserAt platform (p ++ " " ++ word).length))
      (tp ++ [.ident word]) (.field x word) .eof :=
    path.takes_name (indexTaken_within hLength) rfl rfl (by nofun)
  obtain ⟨rest, rfl⟩ := path.head
  have hUnary := (hBase.unaccessed ⟨nofun, nofun⟩).unary (by nofun) (by nofun)
  have hOr := ((((hUnary.mult rfl).additive rfl).compare rfl).and rfl).or rfl
  exact parse_of_takes (noEof_append hp (noEof_singleton (by nofun)))
    (lexes_path_word hLexes isWord) (Or.inl rfl) ((hOr.pipe rfl).expr (by nofun))

/-- After a dotted path, no word is a field: the loop that reads the rest of it wants a dot before
each name. -/
theorem IsPath.not_parse_word (path : IsPath platform p x true) (isWord : IsWord platform word) :
    parse platform (p ++ " " ++ word) ≠ .ok (.field x word) := by
  intro hParse
  obtain ⟨tp, hp, hLexes, path⟩ := path
  have hInner : IndexTaken (IndexWithin platform p.length)
      (parserAt platform (p ++ " " ++ word).length) := by
    apply indexTaken_within
    simp only [String.length_append]
    omega
  obtain ⟨c, hRun, _⟩ := run_of_parse (noEof_append hp (noEof_singleton (by nofun)))
    (lexes_path_word hLexes isWord) (Or.inl rfl) hParse
  rw [List.append_assoc] at hRun
  have hUnary : Takes (parseUnary platform (parserAt platform (p ++ " " ++ word).length)) tp x
      (.ident word) := path.takes_unary hInner ⟨nofun, nofun⟩
  obtain ⟨pos, hTaken⟩ := hUnary 0 [.eof]
  have hField := hTaken.symm.trans (unary_of_expr rfl hRun)
  injection hField with hField
  injection hField with hField
  have hSize : sizeOf x < sizeOf (Expr.field x word) := (Wraps.field x word).sizeOf_lt
  rw [← hField] at hSize
  exact Nat.lt_irrefl _ hSize

end Words

section Parentheses

variable {platform : Platform} {source q r : String} {e y z : Expr}

/-- In parentheses, any expression is taken up to a word. -/
theorem taken_parenthesized (hParse : parse platform source = .ok e) (word : String)
    (hAnd : word ≠ "and") (hOr : word ≠ "or") :
    Taken platform (parseExpr platform) (.ident word) (parenthesized source) e := by
  have hStop : Token.ident word ≠ .dot ∧ Token.ident word ≠ .lBracket := ⟨nofun, nofun⟩
  obtain ⟨tokens, hTokens, hLexes, hTakes⟩ := operand_parenthesized hParse hStop
  refine ⟨tokens, hTokens, hLexes, fun depth hDepth => ?_⟩
  have hCompare := (((hTakes depth hDepth).mult rfl).additive rfl).compare rfl
  have hNoAnd : andOperator (.ident word) = none := if_neg (by simpa using hAnd)
  have hNoOr : orOperator (.ident word) = none := if_neg (by simpa using hOr)
  exact (((hCompare.and hNoAnd).or hNoOr).pipe rfl).expr (by nofun)

/-- Every source that is accepted fits in parentheses, wherever the path stands. -/
theorem PathPlace.fits_parenthesized (hq : parse platform q = .ok y) (hr : parse platform r = .ok z)
    (place : PathPlace) : place.Fits (parenthesized q) (parenthesized r) y z platform := by
  have hEnd := taken_parenthesized hr "end" (by decide) (by decide)
  obtain ⟨tokens, hTokens, hLexes, hTakes⟩ :=
    @operand_parenthesized platform q y hq .eof ⟨nofun, nofun⟩
  have hCompare : Taken platform (parseCompare platform) .eof (parenthesized q) y :=
    ⟨tokens, hTokens, hLexes, fun depth hDepth =>
      (((hTakes depth hDepth).mult rfl).additive rfl).compare rfl⟩
  cases place with
  | and => exact hCompare
  | or =>
      obtain ⟨tokens, hTokens, hLexes, hTakes⟩ := hCompare
      exact ⟨tokens, hTokens, hLexes, fun depth hDepth => (hTakes depth hDepth).and rfl⟩
  | condition => exact ⟨taken_parenthesized hq "else" (by decide) (by decide), hEnd⟩
  | branch => exact ⟨taken_parenthesized hq "then" (by decide) (by decide), hEnd⟩
  | elif => exact ⟨taken_parenthesized hq "then" (by decide) (by decide), hEnd⟩

end Parentheses

/-- A word after a path is the operator or keyword that it should be, and no further field,
if and only if a dot follows in the path after the one it begins with. -/
theorem keyword_ends_path (platform : Platform) (p : String) (x : Expr) (dotted : Bool)
    (path : IsPath platform p x dotted) :
    parse platform p = .ok x ∧
      (∀ (place : PathPlace) (q r : String) (y z : Expr), parse platform q = .ok y →
        parse platform r = .ok z →
        (parse platform (place.text p (parenthesized q) (parenthesized r)) =
            .ok (place.tree x y z) ↔ dotted = true) ∧
          (place.Fits q r y z platform →
            (parse platform (place.text p q r) = .ok (place.tree x y z) ↔ dotted = true))) ∧
      ∀ word, IsWord platform word →
        (parse platform (p ++ " " ++ word) ≠ .ok (.field x word) ↔ dotted = true) := by
  have hPlace : ∀ (place : PathPlace) (q r : String) (y z : Expr), place.Fits q r y z platform →
      (parse platform (place.text p q r) = .ok (place.tree x y z) ↔ dotted = true) := by
    intro place q r y z fits
    cases dotted with
    | true => simp [path.parse_place place fits]
    | false => simp [path.not_parse_place place fits]
  refine ⟨path.parses, fun place q r y z hq hr => ?_, fun word isWord => ?_⟩
  · exact ⟨hPlace place _ _ y z (PathPlace.fits_parenthesized hq hr place), hPlace place q r y z⟩
  · cases dotted with
    | true => simp [path.not_parse_word isWord]
    | false => simp [path.parse_word isWord]

section Fields

variable {platform : Platform} {name p : String} {x : Expr} {dotted : Bool}

/-- A path is an operand of `and` at the end of a source. -/
theorem IsPath.taken_end (path : IsPath platform p x dotted) :
    Taken platform (parseCompare platform) .eof p x := by
  obtain ⟨tokens, hTokens, hLexes, path⟩ := path
  refine ⟨tokens, hTokens, hLexes, fun depth hDepth => ?_⟩
  have hUnary : Takes (parseUnary platform (parserAt platform depth)) tokens x .eof :=
    path.takes_operand (indexTaken_within hDepth) rfl ⟨nofun, nofun⟩
  exact ((hUnary.mult rfl).additive rfl).compare rfl

/-- A dot with a word is a path, -/
theorem IsWord.isPath (isWord : IsWord platform name) :
    IsPath platform ("." ++ name) (.field .identity name) false := by
  refine ⟨[.dot, .ident name], by simp [NoEof], ?_, .name rfl⟩
  have hLexes : Lexes platform ('.' :: (name.toList ++ [])) [.dot, .ident name] [] :=
    isWord.lexes_dot nofun
  simpa [String.toList_append] using hLexes

end Fields

/-- as with this word, -/
theorem isWord_a : IsWord (.ascii true) "a" := ⟨'a', [], rfl, by decide, nofun⟩

/-- or this one. -/
theorem isWord_b : IsWord (.ascii true) "b" := ⟨'b', [], rfl, by decide, nofun⟩

/-- Two fields are a path that a keyword ends. -/
theorem isPath_fields :
    IsPath (.ascii true) ".a.b" (.field (.field .identity "a") "b") true := by
  refine ⟨[.dot, .ident "a", .dot, .ident "b"], by simp [NoEof], ?_, .field (.name rfl) rfl⟩
  have hRest : ∀ c, ['.', 'b'].head? = some c → isIdentChar (.ascii true) c = false := by
    intro c hc
    cases hc
    rfl
  have hLast : Lexes (.ascii true) ('.' :: ("b".toList ++ [])) [.dot, .ident "b"] [] :=
    isWord_b.lexes_dot nofun
  exact (isWord_a.lexes_dot hRest).trans hLast

/-- So it is read as a condition. -/
theorem keyword_ends_path_fields :
    parse (.ascii true) (PathPlace.condition.text ".a.b" (parenthesized ".") (parenthesized ".")) =
      .ok (PathPlace.condition.tree (.field (.field .identity "a") "b") .identity .identity) := by
  have hIdentity : parse (.ascii true) "." = .ok .identity := by rfl
  exact ((keyword_ends_path _ _ _ _ isPath_fields).2.1 .condition "." "." _ _ hIdentity
    hIdentity).1.mpr rfl

/-- The operator after a path of one field becomes another field. -/
theorem parse_field_and :
    parse (.ascii true) ".a" = .ok (.field .identity "a") ∧
      parse (.ascii true) ".b" = .ok (.field .identity "b") ∧
      parse (.ascii true) (PathPlace.and.text ".a" ".b" ".b") ≠
        .ok (PathPlace.and.tree (.field .identity "a") (.field .identity "b") .identity) := by
  have hFirst : IsPath (.ascii true) ".a" (.field .identity "a") false := isWord_a.isPath
  have hSecond : IsPath (.ascii true) ".b" (.field .identity "b") false := isWord_b.isPath
  exact ⟨hFirst.parses, hSecond.parses, hFirst.not_parse_place .and hSecond.taken_end⟩

end Jq
end OwsRuntime
