import OwsRuntime.Expressions.Grammar
import OwsRuntime.Expressions.Spine

/-! Paths: expressions that begin with a dot, and the accesses after it. The parser reads
the first names in one loop, which does not ask for dots between them, and from the next dot
on in another one, which does. -/
namespace OwsRuntime
namespace Jq

section Words

variable {platform : Platform} {word : String}

/-- The text of an identifier. -/
def IsWord (platform : Platform) (word : String) : Prop :=
  ∃ c name, word.toList = c :: name ∧ isIdentStart platform c = true ∧
    ∀ d ∈ name, isIdentChar platform d = true

theorem isWord_ascii {c : Char} {name : List Char} (hWord : word.toList = c :: name)
    (hStart : c.toNat < 128 ∧ (c.isAlpha || c == '_') = true)
    (hName : name.all fun d => decide (d.toNat < 128) && (d.isAlpha || d.isDigit || d == '_')) :
    IsWord platform word := by
  refine ⟨c, name, hWord, by rw [isIdentStart_ascii hStart.1, hStart.2], fun d hd => ?_⟩
  have hd := List.all_eq_true.mp hName d hd
  rw [Bool.and_eq_true, decide_eq_true_eq] at hd
  rw [isIdentChar_ascii hd.1, hd.2]

/-- A word, up to what is no character of it. -/
theorem IsWord.lexes_before (isWord : IsWord platform word) {rest : List Char}
    (hRest : ∀ b, rest.head? = some b → isIdentChar platform b = false) :
    Lexes platform (word.toList ++ rest) [.ident word] rest := by
  obtain ⟨c, name, hWord, hStart, hName⟩ := isWord
  have hLexes := Lexes.word hStart hName hRest
  rwa [← hWord, String.ofList_toList, ← List.cons_append, ← hWord] at hLexes

theorem IsWord.lexes (isWord : IsWord platform word) :
    Lexes platform word.toList [.ident word] [] := by
  have hLexes : Lexes platform (word.toList ++ []) [.ident word] [] := isWord.lexes_before nofun
  rwa [List.append_nil] at hLexes

/-- A word after a dot. -/
theorem IsWord.lexes_dot (isWord : IsWord platform word) {rest : List Char}
    (hRest : ∀ b, rest.head? = some b → isIdentChar platform b = false) :
    Lexes platform ('.' :: (word.toList ++ rest)) [.dot, .ident word] rest := by
  have hDot : Lexes platform ('.' :: (word.toList ++ rest)) [.dot] (word.toList ++ rest) := by
    obtain ⟨c, name, hWord, hStart, _⟩ := isWord
    apply Lexes.single rfl
    intro d hd
    rw [hWord] at hd
    cases hd
    exact lookup_start hStart
  exact hDot.trans (isWord.lexes_before hRest)

end Words

section Parts

variable {platform : Platform} {nested : Nested} {rest tc tt : List Token} {e x y z : Expr}
  {word : String} {c c' : Cursor} {pos : Nat}

/-- An expression is smaller than every field of it, and so does not contain one on its left. -/
theorem not_wraps_field (wraps : Relation.ReflTransGen Wraps (.field e word) e) : False := by
  have hSize : sizeOf e < sizeOf (Expr.field e word) := (Wraps.field e word).sizeOf_lt
  rcases Relation.reflTransGen_iff_eq_or_transGen.mp wraps with hSame | hWraps
  · rw [← hSame] at hSize
    exact Nat.lt_irrefl _ hSize
  · exact Nat.lt_asymm hSize (sizeOf_lt_of_wraps hWraps)

theorem not_wraps_binary {op : BinOp} {r : Expr}
    (wraps : Relation.ReflTransGen Wraps (.field e word) (.binary op e r)) : False := by
  rcases Relation.ReflTransGen.cases_tail wraps with hSame | ⟨b, hWraps, hLast⟩
  · cases hSame
  · cases hLast
    exact not_wraps_field hWraps

/-- An `if` is parsed as its condition, the keyword `then`, its first branch and the tail after
that, each from where the one before has stopped. -/
theorem parseIf_parts (hRest : rest ≠ [])
    (hRun : parseIf platform nested ⟨pos, .ident "if" :: rest⟩ = .ok (.if_ x y z, c')) :
    ∃ c₁ c₂ c₃, nested.expr ⟨pos + 1, rest⟩ = .ok (x, c₁) ∧
      expectKeyword platform "then" c₁ = .ok ((), c₂) ∧ nested.expr c₂ = .ok (y, c₃) := by
  obtain ⟨t, rest, rfl⟩ := List.exists_cons_of_ne_nil hRest
  obtain ⟨_, _, hAdvance, hRun⟩ := run_bind hRun
  cases hAdvance
  obtain ⟨cond, c₁, hCond, hRun⟩ := run_bind hRun
  obtain ⟨_, c₂, hKeyword, hRun⟩ := run_bind hRun
  obtain ⟨branch, c₃, hBranch, hRun⟩ := run_bind hRun
  have hParts : cond = x ∧ branch = y := by
    replace hRun := peek_run hRun
    split_ifs at hRun
    · obtain ⟨_, _, _, hRun⟩ := run_bind hRun
      obtain ⟨_, _, _, hRun⟩ := run_bind hRun
      obtain ⟨_, _, _, hRun⟩ := run_bind hRun
      obtain ⟨_, _, _, hRun⟩ := run_bind hRun
      obtain ⟨_, _, _, hRun⟩ := run_bind hRun
      obtain ⟨_, _, _, hRun⟩ := run_bind hRun
      cases hRun
      exact ⟨rfl, rfl⟩
    · obtain ⟨_, _, _, hRun⟩ := run_bind hRun
      obtain ⟨_, _, _, hRun⟩ := run_bind hRun
      cases hRun
      exact ⟨rfl, rfl⟩
  obtain ⟨rfl, rfl⟩ := hParts
  exact ⟨c₁, c₂, c₃, hCond, hKeyword, hBranch⟩

/-- A text that is an `if` is one from its first word on. -/
theorem parseIf_of_expr (hRun : parseExpr platform nested ⟨pos, .ident "if" :: rest⟩ =
    .ok (.if_ x y z, c')) :
    parseIf platform nested ⟨pos, .ident "if" :: rest⟩ = .ok (.if_ x y z, c') := by
  have hBase : (Expr.if_ x y z).IsBase := fun b wraps => by cases wraps
  exact base_of_expr (by simp) (by simp) hBase hRun

/-- The first branch of an `if` whose condition is taken. -/
theorem branch_of_if {cond : Expr} (hRest : rest ≠ [])
    (hCond : Takes nested.expr tc cond (.ident "then"))
    (hRun : parseIf platform nested ⟨pos, .ident "if" :: (tc ++ .ident "then" :: rest)⟩ =
      .ok (.if_ x y z, c')) :
    ∃ pos' c₃, nested.expr ⟨pos', rest⟩ = .ok (y, c₃) := by
  obtain ⟨c₁, c₂, c₃, hFirst, hKeyword, hBranch⟩ := parseIf_parts (by simp) hRun
  obtain ⟨middle, hTaken⟩ := hCond (pos + 1) rest
  rw [hTaken] at hFirst
  cases hFirst
  obtain ⟨t, rest, rfl⟩ := List.exists_cons_of_ne_nil hRest
  cases hKeyword
  exact ⟨_, c₃, hBranch⟩

/-- The `else` of an `if` whose condition and first branch are taken. -/
theorem else_of_if (hRest : rest ≠ []) (hCond : Takes nested.expr tc x (.ident "then"))
    (hThen : Takes nested.expr tt y (.ident "else"))
    (hRun : parseIf platform nested ⟨pos, .ident "if" :: (tc ++ .ident "then" ::
      (tt ++ .ident "else" :: rest))⟩ = .ok (.if_ x y z, c')) :
    ∃ pos' c₃, nested.expr ⟨pos', rest⟩ = .ok (z, c₃) := by
  have hAdvance : ∀ (t : Token) (list : List Token) (pos : Nat), list ≠ [] →
      Jq.advance ⟨pos, t :: list⟩ = .ok (t, ⟨pos + 1, list⟩) := by
    intro t list pos hList
    obtain ⟨u, list, rfl⟩ := List.exists_cons_of_ne_nil hList
    rfl
  obtain ⟨_, c₁, hStart, hRun⟩ := run_bind hRun
  rw [hAdvance _ _ _ (by simp)] at hStart
  cases hStart
  obtain ⟨_, c₁, hFirst, hRun⟩ := run_bind hRun
  obtain ⟨middle, hTaken⟩ := hCond (pos + 1) (tt ++ .ident "else" :: rest)
  rw [hTaken] at hFirst
  cases hFirst
  obtain ⟨_, c₂, hKeyword, hRun⟩ := run_bind hRun
  have hThenWord : expectKeyword platform "then" ⟨middle, .ident "then" :: (tt ++ .ident "else" :: rest)⟩ =
      (Jq.advance >>= fun _ => pure ()) ⟨middle, .ident "then" :: (tt ++ .ident "else" :: rest)⟩ := rfl
  rw [hThenWord, bind_apply, hAdvance _ _ _ (by simp)] at hKeyword
  cases hKeyword
  obtain ⟨_, c₃, hSecond, hRun⟩ := run_bind hRun
  obtain ⟨after, hTaken⟩ := hThen (middle + 1) rest
  rw [hTaken] at hSecond
  cases hSecond
  rw [peek_apply _ rfl, if_neg (by simp)] at hRun
  obtain ⟨last, c₄, hTail, hRun⟩ := run_bind hRun
  obtain ⟨_, c₅, _, hRun⟩ := run_bind hRun
  cases hRun
  rw [parseElseTail, peek_apply _ rfl, if_pos rfl] at hTail
  rw [bind_apply, hAdvance _ _ _ hRest] at hTail
  exact ⟨_, c₄, hTail⟩

end Parts

section Loops

/-- A loop takes some tokens and goes on with another expression, in no more rounds than
there are tokens. -/
def Walks (loop : Nat → Expr → Parser Expr) (tokens : List Token) (a b : Expr) : Prop :=
  ∃ rounds, rounds ≤ tokens.length ∧ ∀ fuel pos stop more, ∃ pos',
    loop (fuel + rounds) a ⟨pos, tokens ++ stop :: more⟩ = loop fuel b ⟨pos', stop :: more⟩

variable {loop : Nat → Expr → Parser Expr} {tokens rest : List Token} {a b c : Expr}

theorem Walks.refl : Walks loop [] a a := ⟨0, Nat.le_refl 0, fun _ pos _ _ => ⟨pos, rfl⟩⟩

theorem Walks.trans (first : Walks loop tokens a b) (second : Walks loop rest b c) :
    Walks loop (tokens ++ rest) a c := by
  obtain ⟨m, hm, hFirst⟩ := first
  obtain ⟨n, hn, hSecond⟩ := second
  refine ⟨n + m, by simp; omega, fun fuel pos stop more => ?_⟩
  rw [List.append_assoc, ← Nat.add_assoc]
  cases rest with
  | nil =>
      obtain ⟨middle, hOne⟩ := hFirst (fuel + n) pos stop more
      obtain ⟨pos', hTwo⟩ := hSecond fuel middle stop more
      exact ⟨pos', hOne.trans hTwo⟩
  | cons t rest =>
      obtain ⟨middle, hOne⟩ := hFirst (fuel + n) pos t (rest ++ stop :: more)
      obtain ⟨pos', hTwo⟩ := hSecond fuel middle stop more
      exact ⟨pos', hOne.trans hTwo⟩

/-- A loop that ends before some token takes what it walks. -/
theorem Walks.takes {stop : Token} (walks : Walks loop tokens a b)
    (hEnd : ∀ fuel, Takes (loop (fuel + 1) b) [] b stop) {fuel : Nat}
    (hFuel : tokens.length < fuel) : Takes (loop fuel a) tokens b stop := by
  obtain ⟨rounds, hRounds, hWalks⟩ := walks
  obtain ⟨left, rfl⟩ : ∃ k, fuel = k + 1 + rounds := ⟨fuel - 1 - rounds, by omega⟩
  intro pos more
  obtain ⟨middle, hWalk⟩ := hWalks (left + 1) pos stop more
  obtain ⟨pos', hDone⟩ := hEnd left middle more
  exact ⟨pos', hWalk.trans hDone⟩

end Loops

/-- The tokens of an access with brackets. -/
inductive Bracket (Inner : List Token → Expr → Prop) : List Token → Expr → Expr → Prop where
  | iterate (base : Expr) : Bracket Inner [.lBracket, .rBracket] base (.iterate base)
  | index (base : Expr) {inner : List Token} {i : Expr} (hInner : Inner inner i) :
      Bracket Inner (.lBracket :: (inner ++ [.rBracket])) base (.index base i)

/-- The tokens of a path, the expression that it stands for, and whether a dot follows
in it after the one it begins with. -/
inductive Path (Inner : List Token → Expr → Prop) : List Token → Expr → Bool → Prop where
  | identity : Path Inner [.dot] .identity false
  | name {t : Token} {name : String} (hName : fieldName? t = some name) :
      Path Inner [.dot, t] (.field .identity name) false
  | field {tokens : List Token} {e : Expr} {dotted : Bool} {t : Token} {name : String}
      (path : Path Inner tokens e dotted) (hName : fieldName? t = some name) :
      Path Inner (tokens ++ [.dot, t]) (.field e name) true
  | bracket {tokens brackets : List Token} {e next : Expr} {dotted : Bool}
      (path : Path Inner tokens e dotted) (hBracket : Bracket Inner brackets e next) :
      Path Inner (tokens ++ brackets) next dotted

section Parsing

variable {platform : Platform} {nested : Nested} {Inner : List Token → Expr → Prop}
  {tokens : List Token} {base e next : Expr} {stop t : Token} {name : String}

/-- The tokens of an index are those that the parser takes between the brackets. -/
def IndexTaken (Inner : List Token → Expr → Prop) (nested : Nested) : Prop :=
  ∀ inner i, Inner inner i → inner.headD .rBracket ≠ .rBracket ∧ Takes nested.expr inner i .rBracket

theorem Bracket.head (bracket : Bracket Inner tokens base next) :
    ∃ rest, tokens = .lBracket :: rest := by
  cases bracket <;> exact ⟨_, rfl⟩

theorem Bracket.takes (hInner : IndexTaken Inner nested) (bracket : Bracket Inner tokens base next) :
    Takes (parseBracket platform nested base) tokens next stop := by
  cases bracket with
  | iterate =>
      apply Takes.peek2
      exact Takes.ite_pos rfl (Takes.advance (Takes.advance Takes.pure))
  | @index _ inner i hIndex =>
      obtain ⟨hHead, hTakes⟩ := hInner inner i hIndex
      have hOther : (inner ++ [Token.rBracket]).headD stop ≠ .rBracket := by
        cases inner with
        | nil => exact absurd rfl hHead
        | cons u inner => exact hHead
      apply Takes.peek2
      refine Takes.ite_neg hOther (Takes.advance (Takes.bind hTakes ?_))
      exact Takes.expect.bind_last Takes.pure

theorem walks_name (hName : fieldName? t = some name) :
    Walks (dotChain platform nested) [t] base (.field base name) := by
  refine ⟨1, Nat.le_refl 1, fun fuel pos stop more => ⟨pos + 1, ?_⟩⟩
  rw [dotChain, peek_apply _ rfl, hName]
  rfl

theorem Bracket.walks_dotChain (hInner : IndexTaken Inner nested)
    (bracket : Bracket Inner tokens base next) : Walks (dotChain platform nested) tokens base next := by
  obtain ⟨rest, rfl⟩ := bracket.head
  refine ⟨1, by simp, fun fuel pos stop more => ?_⟩
  obtain ⟨pos', hTakes⟩ := @Bracket.takes platform nested Inner _ base next stop hInner bracket pos more
  refine ⟨pos', ?_⟩
  show (parseBracket platform nested base >>= fun next => dotChain platform nested fuel next) _ = _
  rw [bind_apply, hTakes]
  rfl

theorem Bracket.walks_postfixLoop (hInner : IndexTaken Inner nested)
    (bracket : Bracket Inner tokens base next) :
    Walks (postfixLoop platform nested) tokens base next := by
  obtain ⟨rest, rfl⟩ := bracket.head
  refine ⟨1, by simp, fun fuel pos stop more => ?_⟩
  obtain ⟨pos', hTakes⟩ := @Bracket.takes platform nested Inner _ base next stop hInner bracket pos more
  refine ⟨pos', ?_⟩
  show (parseBracket platform nested base >>= fun next => postfixLoop platform nested fuel next) _ = _
  rw [bind_apply, hTakes]
  rfl

theorem walks_field (hName : fieldName? t = some name) :
    Walks (postfixLoop platform nested) [.dot, t] base (.field base name) := by
  refine ⟨1, by simp, fun fuel pos stop more => ⟨pos + 2, ?_⟩⟩
  rw [postfixLoop, peek_apply _ rfl]
  dsimp only
  rw [peek2_apply _ rfl, hName]
  rfl

/-- The loop that reads the first names of a path is still at it when there is no further dot. -/
theorem Path.walks (platform : Platform) (hInner : IndexTaken Inner nested) (path : Path Inner tokens e false) :
    ∃ rest, tokens = .dot :: rest ∧ Walks (dotChain platform nested) rest .identity e := by
  generalize hDotted : false = dotted at path
  induction path with
  | identity => exact ⟨[], rfl, Walks.refl⟩
  | name hName => exact ⟨_, rfl, walks_name hName⟩
  | field path hName ih => cases hDotted
  | bracket path hBracket ih =>
      obtain ⟨rest, rfl, walks⟩ := ih hDotted
      exact ⟨_, List.cons_append, walks.trans (hBracket.walks_dotChain hInner)⟩

/-- A path with two dots is read by two loops: one takes the names after the first dot, and another
one the rest from the second dot on. -/
theorem Path.walks_dotted (platform : Platform) (hInner : IndexTaken Inner nested) (path : Path Inner tokens e true) :
    ∃ chain rest b, tokens = .dot :: (chain ++ .dot :: rest) ∧
      Walks (dotChain platform nested) chain .identity b ∧
      Walks (postfixLoop platform nested) (.dot :: rest) b e := by
  generalize hDotted : true = dotted at path
  induction path with
  | identity => cases hDotted
  | name hName => cases hDotted
  | @field tokens e dotted t name path hName ih =>
      cases dotted with
      | false =>
          obtain ⟨chain, rfl, walks⟩ := path.walks platform hInner
          exact ⟨chain, [t], e, rfl, walks, walks_field hName⟩
      | true =>
          obtain ⟨chain, rest, b, rfl, walks, after⟩ := ih rfl
          refine ⟨chain, rest ++ [.dot, t], b, by simp, walks, ?_⟩
          exact after.trans (walks_field hName)
  | @bracket tokens brackets e next dotted path hBracket ih =>
      obtain ⟨chain, rest, b, rfl, walks, after⟩ := ih hDotted
      refine ⟨chain, rest ++ brackets, b, by simp, walks, ?_⟩
      exact after.trans (hBracket.walks_postfixLoop hInner)

/-- The loop over the first names ends before a token that is neither a name nor a bracket. -/
theorem Takes.chain_end {fuel : Nat} (hStop : fieldName? stop = none) (hBracket : stop ≠ .lBracket) :
    Takes (dotChain platform nested (fuel + 1) base) [] base stop := by
  apply Takes.peek
  rw [List.headD_nil, hStop]
  exact Takes.ite_neg hBracket Takes.pure

/-- A path that has only the dot it begins with is a base. -/
theorem Path.takes_base (hInner : IndexTaken Inner nested) (path : Path Inner tokens e false)
    (hStop : fieldName? stop = none) (hBracket : stop ≠ .lBracket) :
    Takes (parseBase platform nested) tokens e stop := by
  obtain ⟨rest, rfl, walks⟩ := path.walks platform hInner
  apply Takes.peek
  refine Takes.advance (Takes.remaining fun fuel hFuel => ?_)
  exact walks.takes (fun fuel => Takes.chain_end hStop hBracket) hFuel

/-- With one more name it is a base as well, though there is no dot in between. -/
theorem Path.takes_name (hInner : IndexTaken Inner nested) (path : Path Inner tokens e false)
    (hName : fieldName? t = some name) (hStop : fieldName? stop = none) (hBracket : stop ≠ .lBracket) :
    Takes (parseBase platform nested) (tokens ++ [t]) (.field e name) stop := by
  obtain ⟨rest, rfl, walks⟩ := path.walks platform hInner
  have hAll : Walks (dotChain platform nested) (rest ++ [t]) .identity (.field e name) :=
    walks.trans (walks_name hName)
  apply Takes.peek
  refine Takes.advance (Takes.remaining fun fuel hFuel => ?_)
  exact hAll.takes (fun fuel => Takes.chain_end hStop hBracket) hFuel

/-- A path with a further dot ends before every token that is neither a dot nor a bracket. -/
theorem Path.takes_postfix (hInner : IndexTaken Inner nested) (path : Path Inner tokens e true)
    (hStop : stop ≠ .dot ∧ stop ≠ .lBracket) :
    Takes (parsePostfix platform nested) tokens e stop := by
  obtain ⟨chain, rest, b, rfl, walks, after⟩ := path.walks_dotted platform hInner
  have hBase : Takes (parseBase platform nested) (.dot :: chain) b .dot := by
    apply Takes.peek
    refine Takes.advance (Takes.remaining fun fuel hFuel => ?_)
    exact walks.takes (fun fuel => Takes.chain_end rfl (by nofun)) hFuel
  have hAll : Takes (parsePostfix platform nested) ((.dot :: chain) ++ .dot :: rest) e stop := by
    refine Takes.bind hBase (Takes.remaining fun fuel hFuel => ?_)
    exact after.takes (fun fuel => Takes.access_done hStop) hFuel
  exact hAll

theorem Path.head {dotted : Bool} (path : Path Inner tokens e dotted) : ∃ rest, tokens = .dot :: rest := by
  induction path with
  | identity => exact ⟨_, rfl⟩
  | name hName => exact ⟨_, rfl⟩
  | field path hName ih =>
      obtain ⟨rest, rfl⟩ := ih
      exact ⟨_, List.cons_append⟩
  | bracket path hBracket ih =>
      obtain ⟨rest, rfl⟩ := ih
      exact ⟨_, List.cons_append⟩

/-- A path with a further dot is an operand in front of a word. -/
theorem Path.takes_unary (hInner : IndexTaken Inner nested) (path : Path Inner tokens e true)
    (hStop : stop ≠ .dot ∧ stop ≠ .lBracket) : Takes (parseUnary platform nested) tokens e stop := by
  obtain ⟨rest, hTokens⟩ := path.head
  have hNot : tokens.headD stop ≠ .ident "not" := by rw [hTokens]; nofun
  have hMinus : tokens.headD stop ≠ .minus := by rw [hTokens]; nofun
  exact (path.takes_postfix hInner hStop).unary hNot hMinus

/-- A word after a path that has only the dot it begins with is taken for a field of it. -/
theorem Path.absorbs (hInner : IndexTaken Inner nested) (path : Path Inner tokens e false)
    {word : String} {pos : Nat} {more : List Token} (hMore : more ≠ []) {x : Expr} {c : Cursor}
    (hRun : parseExpr platform nested ⟨pos, tokens ++ .ident word :: more⟩ = .ok (x, c)) :
    Relation.ReflTransGen Wraps (.field e word) x := by
  obtain ⟨rest, rfl, rounds, hRounds, hWalks⟩ := path.walks platform hInner
  obtain ⟨b, middle, hBase, goes⟩ := base_goes (by nofun) (by nofun) hRun
  obtain ⟨u, more, rfl⟩ : ∃ u tail, more = u :: tail := List.exists_cons_of_ne_nil hMore
  have hStart : parseBase platform nested ⟨pos, .dot :: rest ++ .ident word :: u :: more⟩ =
      dotChain platform nested (rest ++ .ident word :: u :: more).length .identity
        ⟨pos + 1, rest ++ .ident word :: u :: more⟩ := by
    cases rest <;> rfl
  obtain ⟨left, hLeft⟩ : ∃ k, (rest ++ .ident word :: u :: more).length = k + 1 + 1 + rounds := by
    refine ⟨rest.length - rounds + more.length, ?_⟩
    simp only [List.length_append, List.length_cons]
    omega
  obtain ⟨pos', hWalk⟩ := hWalks (left + 1 + 1) (pos + 1) (.ident word) (u :: more)
  have hField : dotChain platform nested (left + 1 + 1) e ⟨pos', .ident word :: u :: more⟩ =
      dotChain platform nested (left + 1) (.field e word) ⟨pos' + 1, u :: more⟩ := rfl
  rw [hStart, hLeft, hWalk, hField] at hBase
  exact (dotChain_goes _ _ _ hBase).reflTransGen.trans goes.reflTransGen

end Parsing

end Jq
end OwsRuntime
