import Mathlib.Data.List.Forall2
import Mathlib.Data.Option.Basic
import OwsRuntime.Expressions.Words
import OwsRuntime.Properties.PathKeywords

/-! Conditionals with any number of `elif` parts. The parser reads the first of them as one; at
the second one it tries to read an expression. -/
namespace OwsRuntime
namespace Jq

section Texts

variable (gap : String)

/-- A chain from after its first branch on, with a blank after each part. -/
def chainTail : List (String × String) → Option String → String
  | [], none => "end"
  | [], some e => "else " ++ e ++ gap ++ "end"
  | (c, t) :: rest, e => "elif " ++ c ++ gap ++ "then " ++ t ++ gap ++ chainTail rest e

/-- A condition, its branch, further conditions with theirs, and perhaps an `else`. -/
def chainText (c t : String) (rest : List (String × String)) (e : Option String) : String :=
  "if " ++ c ++ gap ++ "then " ++ t ++ gap ++ chainTail gap rest e

/-- The tree of a chain. A missing `else` is null. -/
def chainTree (x y : Expr) : List (Expr × Expr) → Option Expr → Expr
  | [], z => .if_ x y (z.getD (.literal .null))
  | (x', y') :: rest, z => .if_ x y (chainTree x' y' rest z)

/-- The keyword after a branch. -/
def nextWord : List (String × String) → Option String → String
  | [], none => "end"
  | [], some _ => "else"
  | _ :: _, _ => "elif"

/-- The parts of a chain, each with the keyword after it. -/
def followers (c t : String) : List (String × String) → Option String → List (String × String)
  | [], none => [(c, "then"), (t, "end")]
  | [], some e => [(c, "then"), (t, "else"), (e, "end")]
  | (c', t') :: rest, e => (c, "then") :: (t, "elif") :: followers c' t' rest e

/-- The parts after the first branch, each with the keyword after it. -/
def tailFollowers : List (String × String) → Option String → List (String × String)
  | [], none => []
  | [], some e => [(e, "end")]
  | (c, t) :: rest, e => followers c t rest e

/-- The first two parts of a chain, and those after its first branch. -/
theorem followers_eq {c t : String} {rest : List (String × String)} {e : Option String} :
    followers c t rest e = [(c, "then"), (t, nextWord rest e)] ++ tailFollowers rest e := by
  cases rest with
  | nil => cases e <;> rfl
  | cons part rest => rfl

/-- A part that parses, and whose end the blank does not hide: a comment at its end goes on after
a space. -/
structure IsPart (platform : Platform) (part : String) (x : Expr) : Prop where
  parses : parse platform part = .ok x
  closed : gap = "\n" ∨ gap = " " ∧ ∃ tokens, Lexes platform part.toList tokens []

end Texts

/-- The tokens of a source, without the end. -/
def tokensOf (platform : Platform) (source : String) : List Token :=
  match tokenize platform source with
  | .ok tokens => tokens.dropLast
  | .error _ => []

section Tokens

variable (platform : Platform)

def tailTokens : List (String × String) → Option String → List Token
  | [], none => [.ident "end"]
  | [], some e => .ident "else" :: (tokensOf platform e ++ [.ident "end"])
  | (c, t) :: rest, e => .ident "elif" :: (tokensOf platform c ++ .ident "then" ::
      (tokensOf platform t ++ tailTokens rest e))

def chainTokens (c t : String) (rest : List (String × String)) (e : Option String) : List Token :=
  .ident "if" :: (tokensOf platform c ++ .ident "then" ::
    (tokensOf platform t ++ tailTokens platform rest e))

variable {platform} {gap part : String} {x : Expr} {rest : List Char} {more tokens : List Token}

/-- The tokens of a source are those that the lexer finds, up to the end. -/
theorem tokensOf_eq (hTokenize : tokenize platform part = .ok (tokens ++ [.eof])) :
    tokensOf platform part = tokens := by
  rw [tokensOf, hTokenize]
  exact List.dropLast_concat

/-- A part of a chain has tokens, as it parses. -/
theorem IsPart.tokenizes (isPart : IsPart gap platform part x) : NoEof (tokensOf platform part) ∧
    tokenize platform part = .ok (tokensOf platform part ++ [.eof]) := by
  obtain ⟨tokens, hTokens, hTokenize, _⟩ := parse_tokens isPart.parses
  rw [tokensOf_eq hTokenize]
  exact ⟨hTokens, hTokenize⟩

/-- A part, the blank after it, and what follows. -/
theorem IsPart.lexes (isPart : IsPart gap platform part x) (hRest : Lexes platform rest more []) :
    Lexes platform (part.toList ++ (gap.toList ++ rest)) (tokensOf platform part ++ more) [] := by
  obtain ⟨hTokens, hTokenize⟩ := isPart.tokenizes
  obtain ⟨last, hLexes, hLast⟩ := (tokenize_eq_ok_iff hTokens).mp hTokenize
  rcases isPart.closed with rfl | ⟨rfl, found, hFound⟩
  · exact (hLexes.append (follows_newline _)).trans (Lexes.of_finished hLast hRest)
  · have hSame : found = tokensOf platform part := hFound.unique (Or.inl rfl) hLexes hLast
    rw [hSame] at hFound
    exact (hFound.append (follows_space _)).trans hRest.space

/-- A keyword before a space is one token. -/
theorem lexes_keyword (word : String) (hWord : word ∈ ["and", "or", "if", "then", "else", "elif", "end"])
    (hRest : Lexes platform rest more []) :
    Lexes platform (word.toList ++ ' ' :: rest) (.ident word :: more) [] :=
  (lexes_reserved_space word hWord).trans hRest.space

/-- A chain ends with a token of its own. -/
theorem lexes_chainEnd : Lexes platform "end".toList [.ident "end"] [] := by
  have hEnd : Lexes platform ("end".toList ++ []) [.ident "end"] [] :=
    lexes_reserved "end" (by decide) nofun
  rwa [List.append_nil] at hEnd

end Tokens

section Chains

variable {platform : Platform} {gap c t : String} {x y : Expr} {rest : List (String × String)}
  {trees : List (Expr × Expr)} {e : Option String} {z : Option Expr}

/-- The branches of a chain with their conditions. -/
def AreParts (gap : String) (platform : Platform) : List (String × String) → List (Expr × Expr) → Prop :=
  List.Forall₂ fun text tree => IsPart gap platform text.1 tree.1 ∧ IsPart gap platform text.2 tree.2

/-- The text of a chain from after its first branch on has the tokens of its parts, with the
keywords between them. The induction is on the further branches. -/
theorem lexes_chainTail (hRest : AreParts gap platform rest trees)
    (hElse : Option.Rel (IsPart gap platform) e z) :
    Lexes platform (chainTail gap rest e).toList (tailTokens platform rest e) [] := by
  induction hRest with
  | nil =>
      cases hElse with
      | none => exact lexes_chainEnd
      | some isPart =>
          have hAll := lexes_keyword "else" (by decide) (isPart.lexes lexes_chainEnd)
          simpa [chainTail, tailTokens, String.toList_append] using hAll
  | cons hPart _ ih =>
      have hBranch := lexes_keyword "then" (by decide) (hPart.2.lexes ih)
      have hAll := lexes_keyword "elif" (by decide) (hPart.1.lexes hBranch)
      simpa [chainTail, tailTokens, String.toList_append] using hAll

/-- So has the text of the whole chain. -/
theorem lexes_chain (hCond : IsPart gap platform c x) (hThen : IsPart gap platform t y)
    (hRest : AreParts gap platform rest trees) (hElse : Option.Rel (IsPart gap platform) e z) :
    Lexes platform (chainText gap c t rest e).toList (chainTokens platform c t rest e) [] := by
  have hBranch := lexes_keyword "then" (by decide)
    (hThen.lexes (lexes_chainTail hRest hElse))
  have hAll := lexes_keyword "if" (by decide) (hCond.lexes hBranch)
  simpa [chainText, chainTokens, String.toList_append] using hAll

/-- The end of the input is not among these tokens, -/
theorem noEof_chainTail (hRest : AreParts gap platform rest trees)
    (hElse : Option.Rel (IsPart gap platform) e z) : NoEof (tailTokens platform rest e) := by
  have hEnd : NoEof [Token.ident "end"] := noEof_singleton (by nofun)
  induction hRest with
  | nil =>
      cases hElse with
      | none => exact hEnd
      | some isPart => exact noEof_cons (by nofun) (noEof_append isPart.tokenizes.1 hEnd)
  | cons hPart _ ih =>
      exact noEof_cons (by nofun) (noEof_append hPart.1.tokenizes.1
        (noEof_cons (by nofun) (noEof_append hPart.2.tokenizes.1 ih)))

/-- nor among those of the whole chain. -/
theorem noEof_chain (hCond : IsPart gap platform c x) (hThen : IsPart gap platform t y)
    (hRest : AreParts gap platform rest trees) (hElse : Option.Rel (IsPart gap platform) e z) :
    NoEof (chainTokens platform c t rest e) :=
  noEof_cons (by nofun) (noEof_append hCond.tokenizes.1 (noEof_cons (by nofun)
    (noEof_append hThen.tokenizes.1 (noEof_chainTail hRest hElse))))

end Chains

section Keywords

variable {platform : Platform} {word : String}

/-- A keyword that may come after a part of a conditional. -/
def IsKeyword (word : String) : Prop := word ∈ ["then", "else", "elif", "end"]

/-- A keyword is a word, -/
theorem IsKeyword.isWord (isKeyword : IsKeyword word) : IsWord platform word := by
  simp only [IsKeyword, List.mem_cons, List.not_mem_nil, or_false] at isKeyword
  rcases isKeyword with rfl | rfl | rfl | rfl
  all_goals exact isWord_ascii rfl (by decide) (by decide)

/-- and no operator. -/
theorem IsKeyword.no_operator (isKeyword : IsKeyword word) : word ≠ "and" ∧ word ≠ "or" := by
  simp only [IsKeyword, List.mem_cons, List.not_mem_nil, or_false] at isKeyword
  rcases isKeyword with rfl | rfl | rfl | rfl <;> exact ⟨by decide, by decide⟩

/-- After every part of a chain there is a keyword. -/
theorem followers_keyword {c t : String} {rest : List (String × String)} {e : Option String} :
    ∀ q ∈ followers c t rest e, IsKeyword q.2 := by
  induction rest generalizing c t with
  | nil => cases e <;> simp [followers, IsKeyword]
  | cons part rest ih =>
      intro q hMem
      rw [followers, List.mem_cons, List.mem_cons] at hMem
      rcases hMem with rfl | rfl | hMem
      · simp [IsKeyword]
      · simp [IsKeyword]
      · exact ih q hMem

/-- A part with its keyword is shorter than the chain, by at least the keyword `if` and the blanks.
The induction is on the further branches. -/
theorem followers_length {gap c t : String} {rest : List (String × String)} {e : Option String}
    (hGap : 0 < gap.length) : ∀ q ∈ followers c t rest e,
      q.1.length + q.2.length + 1 < (chainText gap c t rest e).length := by
  have hIf : "if ".length = 3 := rfl
  have hThen : "then ".length = 5 := rfl
  have hElse : "else ".length = 5 := rfl
  have hElif : "elif ".length = 5 := rfl
  have hEnd : "end".length = 3 := rfl
  have hThen' : "then".length = 4 := rfl
  have hElse' : "else".length = 4 := rfl
  have hElif' : "elif".length = 4 := rfl
  induction rest generalizing c t with
  | nil =>
      cases e with
      | none =>
          intro q hMem
          simp only [followers, List.mem_cons, List.not_mem_nil, or_false] at hMem
          simp only [chainText, chainTail, String.length_append]
          rcases hMem with rfl | rfl <;> dsimp only <;> omega
      | some e =>
          intro q hMem
          simp only [followers, List.mem_cons, List.not_mem_nil, or_false] at hMem
          simp only [chainText, chainTail, String.length_append]
          rcases hMem with rfl | rfl | rfl <;> dsimp only <;> omega
  | cons part rest ih =>
      intro q hMem
      obtain ⟨c', t'⟩ := part
      have hRest (q : String × String) (hq : q ∈ followers c' t' rest e) := ih q hq
      simp only [chainText, String.length_append] at hRest
      simp only [followers, List.mem_cons] at hMem
      simp only [chainText, chainTail, String.length_append]
      rcases hMem with rfl | rfl | hMem
      · dsimp only
        omega
      · dsimp only
        omega
      · have hLess := hRest q hMem
        omega

end Keywords

section Reading

variable {platform : Platform} {nested : Nested} {gap part word : String} {x e : Expr} {depth pos : Nat}
  {rest more : List Token} {c' : Cursor} {t : Token}

/-- In front of its keyword a part is taken, or it grows by the keyword. -/
theorem IsPart.outcome (isPart : IsPart gap platform part x) (isKeyword : IsKeyword word)
    (hDepth : part.length + word.length + 1 < depth) :
    (¬ TakesWord platform part word ∧
      Takes (parserAt platform depth).expr (tokensOf platform part) x (.ident word)) ∨
    TakesWord platform part word ∧
      Grows word (tokensOf platform part) (fun _ => (parserAt platform depth).expr) x := by
  obtain ⟨tokens, _, hTokenize, hOutcome⟩ := part_outcome isKeyword.no_operator.1
    isKeyword.no_operator.2 isKeyword.isWord isPart.parses
  rw [tokensOf_eq hTokenize]
  exact hOutcome depth hDepth

/-- A part is read up to the keyword after it, when its parser does not take the keyword for a name
of a path. -/
theorem IsPart.takes (isPart : IsPart gap platform part x) (isKeyword : IsKeyword word)
    (hDepth : part.length + word.length + 1 < depth) (hNot : ¬ TakesWord platform part word) :
    Takes (parserAt platform depth).expr (tokensOf platform part) x (.ident word) := by
  rcases isPart.outcome isKeyword hDepth with ⟨_, hTakes⟩ | ⟨hTakes, _⟩
  · exact hTakes
  · exact absurd hTakes hNot

/-- A part that is read as it should be does not take its keyword, and ends before it. -/
theorem IsPart.reads (isPart : IsPart gap platform part x) (isKeyword : IsKeyword word)
    (hDepth : part.length + word.length + 1 < depth) (hMore : more ≠ [])
    (hRun : (parserAt platform depth).expr ⟨pos, tokensOf platform part ++ .ident word :: more⟩ =
      .ok (x, c')) :
    ¬ TakesWord platform part word ∧ ∃ pos', c' = ⟨pos', .ident word :: more⟩ := by
  rcases isPart.outcome isKeyword hDepth with ⟨hNot, hTakes⟩ | ⟨_, grows⟩
  · obtain ⟨pos', hTaken⟩ := hTakes pos more
    rw [hTaken] at hRun
    cases hRun
    exact ⟨hNot, pos', rfl⟩
  · exact absurd (grows.larger pos more hMore x c' hRun) (Nat.lt_irrefl _)

/-- A token is consumed where more of them follow. -/
theorem advance_nonempty (hRest : rest ≠ []) :
    Jq.advance ⟨pos, t :: rest⟩ = .ok (t, ⟨pos + 1, rest⟩) := by
  obtain ⟨u, rest, rfl⟩ := List.exists_cons_of_ne_nil hRest
  rfl

/-- A keyword that has been read leaves what follows it. -/
theorem keyword_read (hMore : more ≠ [])
    (hRun : expectKeyword platform word ⟨pos, .ident word :: more⟩ = .ok ((), c')) :
    ∃ pos', c' = ⟨pos', more⟩ := by
  obtain ⟨u, more, rfl⟩ := List.exists_cons_of_ne_nil hMore
  rw [expectKeyword, peek_apply _ rfl, if_pos rfl] at hRun
  cases hRun
  exact ⟨_, rfl⟩

/-- The parts of a conditional, in the order in which they are read. -/
theorem parseIf_reads (hRest : rest ≠ [])
    (hRun : parseIf platform nested ⟨pos, t :: rest⟩ = .ok (e, c')) :
    ∃ x y z c₁ c₂ c₃, e = .if_ x y z ∧ nested.expr ⟨pos + 1, rest⟩ = .ok (x, c₁) ∧
      expectKeyword platform "then" c₁ = .ok ((), c₂) ∧ nested.expr c₂ = .ok (y, c₃) ∧
      ((c₃.rest.headD .eof = .ident "elif" ∧ ∃ x' y' z' u d d₁ d₂ d₃ d₄, z = .if_ x' y' z' ∧
          Jq.advance c₃ = .ok (u, d) ∧ nested.expr d = .ok (x', d₁) ∧
          expectKeyword platform "then" d₁ = .ok ((), d₂) ∧ nested.expr d₂ = .ok (y', d₃) ∧
          parseElseTail nested d₃ = .ok (z', d₄)) ∨
        c₃.rest.headD .eof ≠ .ident "elif" ∧ ∃ d, parseElseTail nested c₃ = .ok (z, d)) := by
  obtain ⟨u, rest, rfl⟩ := List.exists_cons_of_ne_nil hRest
  obtain ⟨_, _, hAdvance, hRun⟩ := run_bind hRun
  cases hAdvance
  obtain ⟨x, c₁, hCond, hRun⟩ := run_bind hRun
  obtain ⟨_, c₂, hKeyword, hRun⟩ := run_bind hRun
  obtain ⟨y, c₃, hBranch, hRun⟩ := run_bind hRun
  replace hRun := peek_run hRun
  by_cases hElif : c₃.rest.headD .eof = .ident "elif"
  · rw [if_pos hElif] at hRun
    obtain ⟨u, d, hMove, hRun⟩ := run_bind hRun
    obtain ⟨x', d₁, hCond', hRun⟩ := run_bind hRun
    obtain ⟨_, d₂, hKeyword', hRun⟩ := run_bind hRun
    obtain ⟨y', d₃, hBranch', hRun⟩ := run_bind hRun
    obtain ⟨z', d₄, hTail, hRun⟩ := run_bind hRun
    obtain ⟨_, _, _, hRun⟩ := run_bind hRun
    cases hRun
    exact ⟨x, y, _, c₁, c₂, c₃, rfl, hCond, hKeyword, hBranch, Or.inl ⟨hElif, x', y', z', u, d, d₁, d₂,
      d₃, d₄, rfl, hMove, hCond', hKeyword', hBranch', hTail⟩⟩
  · rw [if_neg hElif] at hRun
    obtain ⟨z, d, hTail, hRun⟩ := run_bind hRun
    obtain ⟨_, _, _, hRun⟩ := run_bind hRun
    cases hRun
    exact ⟨x, y, z, c₁, c₂, c₃, rfl, hCond, hKeyword, hBranch, Or.inr ⟨hElif, d, hTail⟩⟩

/-- No conditional begins with `elif`, which is read as the name of a function. -/
theorem elif_not_if {x y z : Expr}
    (hRun : parseExpr platform nested ⟨pos, .ident "elif" :: rest⟩ = .ok (.if_ x y z, c')) : False := by
  have hBase : (Expr.if_ x y z).IsBase := fun b wraps => by cases wraps
  have hName := base_of_expr (by simp) (by simp) hBase hRun
  rw [parseBase, peek_apply _ rfl] at hName
  simp only [parseIdentPrimary] at hName
  rw [if_neg (by decide), if_neg (by decide), if_neg (by decide), if_neg (by decide)] at hName
  replace hName := peek2_run hName
  split_ifs at hName
  · obtain ⟨_, _, _, hName⟩ := run_bind hName
    obtain ⟨_, _, _, hName⟩ := run_bind hName
    obtain ⟨_, _, _, hName⟩ := run_bind hName
    obtain ⟨_, _, _, hName⟩ := run_bind hName
    cases hName
  · obtain ⟨_, _, _, hName⟩ := run_bind hName
    cases hName

end Reading

section Parsing

variable {platform : Platform} {gap c t : String} {x y w : Expr} {rest : List (String × String)}
  {trees : List (Expr × Expr)} {e : Option String} {z : Option Expr} {depth pos : Nat} {c' : Cursor}

/-- What stands in a tree for a chain from after its first branch on. -/
def tailTree : List (Expr × Expr) → Option Expr → Expr
  | [], z => z.getD (.literal .null)
  | (x, y) :: rest, z => chainTree x y rest z

/-- The tree of a chain has the tree of its tail as its last branch. -/
theorem chainTree_eq : chainTree x y trees z = .if_ x y (tailTree trees z) := by
  cases trees <;> rfl

/-- The tail of a chain begins with the keyword that ends its first branch, -/
theorem tailTokens_head : ∃ more,
    tailTokens platform rest e = .ident (nextWord rest e) :: more := by
  cases rest with
  | nil => cases e <;> exact ⟨_, rfl⟩
  | cons part rest => exact ⟨_, rfl⟩

/-- which is `elif`, `else` or `end`. -/
theorem nextWord_keyword : IsKeyword (nextWord rest e) := by
  cases rest with
  | nil => cases e <;> simp [nextWord, IsKeyword]
  | cons part rest => simp [nextWord, IsKeyword]

/-- The end of a chain is read as it should be only where no second `elif` is left. -/
theorem elseTail_reads (hRest : AreParts gap platform rest trees)
    (hElse : Option.Rel (IsPart gap platform) e z)
    (hDepth : ∀ q ∈ tailFollowers rest e, q.1.length + q.2.length + 1 < depth)
    (hRun : parseElseTail (parserAt platform depth) ⟨pos, tailTokens platform rest e ++ [.eof]⟩ =
      .ok (tailTree trees z, c')) :
    rest = [] ∧ ∀ q ∈ tailFollowers rest e, ¬ TakesWord platform q.1 q.2 := by
  cases hRest with
  | nil =>
      refine ⟨rfl, fun q hMem => ?_⟩
      cases hElse with
      | none => simp [tailFollowers] at hMem
      | @some part tree isPart =>
          have hTokens : tailTokens platform [] (some part) ++ [.eof] =
              .ident "else" :: (tokensOf platform part ++ .ident "end" :: [.eof]) := by
            simp [tailTokens]
          rw [hTokens, parseElseTail, peek_apply _ rfl, if_pos rfl, bind_apply,
            @advance_nonempty _ _ _ (by simp)] at hRun
          rw [tailFollowers, List.mem_singleton] at hMem
          subst hMem
          have hPart := hDepth (part, "end") (by simp [tailFollowers])
          exact (isPart.reads (by simp [IsKeyword]) hPart (by simp) hRun).1
  | @cons text tree rest trees hPart hMore =>
      exfalso
      obtain ⟨d, rfl⟩ : ∃ d, depth = d + 1 := by
        cases depth with
        | zero =>
            rw [parseElseTail, tailTokens, List.cons_append, peek_apply _ rfl, if_neg (by simp),
              peek_apply _ rfl, if_pos rfl] at hRun
            cases hRun
        | succ d => exact ⟨d, rfl⟩
      rw [parseElseTail, tailTokens, List.cons_append, peek_apply _ rfl, if_neg (by simp),
        peek_apply _ rfl, if_pos rfl, tailTree, chainTree_eq] at hRun
      exact elif_not_if hRun

/-- A condition and its branch that are read as they should be end before their keywords. -/
theorem branch_reads (hCond : IsPart gap platform c x) (hThen : IsPart gap platform t y)
    (hDepth : ∀ q ∈ [(c, "then"), (t, nextWord rest e)], q.1.length + q.2.length + 1 < depth)
    {c₁ c₂ c₃ : Cursor} (hFirst : (parserAt platform depth).expr ⟨pos, tokensOf platform c ++
      .ident "then" :: (tokensOf platform t ++ (tailTokens platform rest e ++ [.eof]))⟩ = .ok (x, c₁))
    (hKeyword : expectKeyword platform "then" c₁ = .ok ((), c₂))
    (hBranch : (parserAt platform depth).expr c₂ = .ok (y, c₃)) :
    (∀ q ∈ [(c, "then"), (t, nextWord rest e)], ¬ TakesWord platform q.1 q.2) ∧
      ∃ pos', c₃ = ⟨pos', tailTokens platform rest e ++ [.eof]⟩ := by
  have hWord : IsKeyword (nextWord rest e) := nextWord_keyword
  obtain ⟨more, hTail⟩ : ∃ more, tailTokens platform rest e = .ident (nextWord rest e) :: more :=
    tailTokens_head
  rw [hTail, List.cons_append] at hFirst ⊢
  have hCondDepth := hDepth (c, "then") (by simp)
  have hThenDepth := hDepth (t, nextWord rest e) (by simp)
  obtain ⟨hNotCond, pos₁, rfl⟩ := hCond.reads (by simp [IsKeyword]) hCondDepth (by simp) hFirst
  obtain ⟨pos₂, rfl⟩ := keyword_read (by simp) hKeyword
  obtain ⟨hNotThen, pos₃, rfl⟩ := hThen.reads hWord hThenDepth (by simp) hBranch
  refine ⟨fun q hMem => ?_, pos₃, rfl⟩
  rw [List.mem_cons, List.mem_singleton] at hMem
  rcases hMem with rfl | rfl
  · exact hNotCond
  · exact hNotThen

/-- A chain that is read as it should be has one `elif` at most, and its parts end before their
keywords. -/
theorem chain_reads (hCond : IsPart gap platform c x) (hThen : IsPart gap platform t y)
    (hRest : AreParts gap platform rest trees) (hElse : Option.Rel (IsPart gap platform) e z)
    (hDepth : ∀ q ∈ followers c t rest e, q.1.length + q.2.length + 1 < depth)
    (hRun : parseIf platform (parserAt platform depth)
      ⟨pos, chainTokens platform c t rest e ++ [.eof]⟩ = .ok (chainTree x y trees z, c')) :
    rest.length ≤ 1 ∧ ∀ q ∈ followers c t rest e, ¬ TakesWord platform q.1 q.2 := by
  have hTokens : chainTokens platform c t rest e ++ [.eof] = .ident "if" :: (tokensOf platform c ++
      .ident "then" :: (tokensOf platform t ++ (tailTokens platform rest e ++ [.eof]))) := by
    simp [chainTokens]
  rw [followers_eq, List.forall_mem_append] at hDepth ⊢
  rw [hTokens, chainTree_eq] at hRun
  obtain ⟨x', y', z', c₁, c₂, c₃, hTree, hFirst, hKeyword, hBranch, hTail⟩ := parseIf_reads (by simp) hRun
  cases hTree
  obtain ⟨hNot, pos', rfl⟩ := branch_reads hCond hThen hDepth.1 hFirst hKeyword hBranch
  cases hRest with
  | nil =>
      have hNoElif : (tailTokens platform [] e ++ [Token.eof]).headD .eof ≠ .ident "elif" := by
        cases e <;> simp [tailTokens]
      rcases hTail with ⟨hElif, _⟩ | ⟨_, d, hTail⟩
      · exact absurd hElif hNoElif
      · have hLast := elseTail_reads .nil hElse hDepth.2 hTail
        exact ⟨by simp, hNot, hLast.2⟩
  | @cons text tree rest trees hPart hMore =>
      have hTokens : tailTokens platform (text :: rest) e ++ [.eof] = .ident "elif" ::
          (tokensOf platform text.1 ++ .ident "then" :: (tokensOf platform text.2 ++
            (tailTokens platform rest e ++ [.eof]))) := by
        simp [tailTokens]
      have hFollowers : tailFollowers (text :: rest) e = followers text.1 text.2 rest e := rfl
      rw [hFollowers, followers_eq, List.forall_mem_append] at hDepth ⊢
      rw [hTokens] at hTail
      rcases hTail with ⟨_, x'', y'', z'', u, d, d₁, d₂, d₃, d₄, hTree, hMove, hFirst', hKeyword',
        hBranch', hTail'⟩ | ⟨hElif, _⟩
      · rw [tailTree, chainTree_eq] at hTree
        cases hTree
        rw [@advance_nonempty _ _ _ (by simp)] at hMove
        cases hMove
        obtain ⟨hNot', pos'', rfl⟩ := branch_reads hPart.1 hPart.2 hDepth.2.1 hFirst' hKeyword' hBranch'
        obtain ⟨rfl, hLast⟩ := elseTail_reads hMore hElse hDepth.2.2 hTail'
        exact ⟨Nat.le_refl 1, hNot, hNot', hLast⟩
      · exact absurd rfl hElif

/-- The tokens of an `else`, where there is one. -/
def elseTokens (platform : Platform) : Option String → List Token
  | none => []
  | some e => .ident "else" :: tokensOf platform e

/-- Without further branches, the tail is the `else` part and the `end`. -/
theorem tailTokens_nil : tailTokens platform [] e = elseTokens platform e ++ [.ident "end"] := by
  cases e <;> rfl

/-- It begins with `else`, or with the `end`. -/
theorem elseTokens_head :
    (elseTokens platform e).headD (.ident "end") = .ident (nextWord [] e) := by
  cases e <;> rfl

/-- The `else` part is read up to the `end`, or is the null of an `if` without one. -/
theorem takes_else (hElse : Option.Rel (IsPart gap platform) e z)
    (hDepth : ∀ q ∈ tailFollowers [] e, q.1.length + q.2.length + 1 < depth)
    (hNot : ∀ q ∈ tailFollowers [] e, ¬ TakesWord platform q.1 q.2) :
    Takes (parseElseTail (parserAt platform depth)) (elseTokens platform e)
      (z.getD (.literal .null)) (.ident "end") := by
  cases hElse with
  | none => exact Takes.noElse
  | @some part tree isPart =>
      have hPart := hDepth (part, "end") (by simp [tailFollowers])
      have hEnds := hNot (part, "end") (by simp [tailFollowers])
      exact (isPart.takes (by simp [IsKeyword]) hPart hEnds).elseTail

/-- A condition and its branch are taken where they do not take their keywords. -/
theorem takes_branch (hCond : IsPart gap platform c x) (hThen : IsPart gap platform t y)
    (hDepth : ∀ q ∈ [(c, "then"), (t, nextWord rest e)], q.1.length + q.2.length + 1 < depth)
    (hNot : ∀ q ∈ [(c, "then"), (t, nextWord rest e)], ¬ TakesWord platform q.1 q.2) :
    Takes (parserAt platform depth).expr (tokensOf platform c) x (.ident "then") ∧
      Takes (parserAt platform depth).expr (tokensOf platform t) y (.ident (nextWord rest e)) := by
  have hCondDepth := hDepth (c, "then") (by simp)
  have hThenDepth := hDepth (t, nextWord rest e) (by simp)
  constructor
  · exact hCond.takes (by simp [IsKeyword]) hCondDepth (hNot (c, "then") (by simp))
  · exact hThen.takes nextWord_keyword hThenDepth (hNot (t, nextWord rest e) (by simp))

/-- A chain with one `elif` at most is taken where its parts do not take their keywords. -/
theorem takes_chain (hCond : IsPart gap platform c x) (hThen : IsPart gap platform t y)
    (hRest : AreParts gap platform rest trees) (hElse : Option.Rel (IsPart gap platform) e z)
    (hLength : rest.length ≤ 1)
    (hDepth : ∀ q ∈ followers c t rest e, q.1.length + q.2.length + 1 < depth)
    (hNot : ∀ q ∈ followers c t rest e, ¬ TakesWord platform q.1 q.2) :
    Takes (parseBase platform (parserAt platform depth)) (chainTokens platform c t rest e)
      (chainTree x y trees z) .eof := by
  rw [followers_eq, List.forall_mem_append] at hDepth hNot
  obtain ⟨takesCond, takesThen⟩ := takes_branch hCond hThen hDepth.1 hNot.1
  rw [chainTokens]
  cases hRest with
  | nil =>
      rw [tailTokens_nil]
      have hElif : (elseTokens platform e).head? ≠ some (.ident "elif") := by
        cases e <;> simp [elseTokens]
      rw [← @elseTokens_head platform] at takesThen
      exact takesCond.ifTail takesThen hElif (takes_else hElse hDepth.2 hNot.2)
  | @cons text tree rest trees hPart hMore =>
      obtain rfl : rest = [] := List.eq_nil_of_length_eq_zero (Nat.le_zero.mp (Nat.le_of_succ_le_succ hLength))
      cases hMore
      have hFollowers : tailFollowers [text] e = followers text.1 text.2 [] e := rfl
      rw [hFollowers, followers_eq, List.forall_mem_append] at hDepth hNot
      obtain ⟨takesOther, takesLast⟩ := takes_branch hPart.1 hPart.2 hDepth.2.1 hNot.2.1
      rw [← @elseTokens_head platform] at takesLast
      rw [tailTokens, tailTokens_nil]
      exact takesCond.elifTail takesThen takesOther takesLast (takes_else hElse hDepth.2.2 hNot.2.2)

/-- The blank of a chain is not empty. -/
theorem IsPart.gap_pos (isPart : IsPart gap platform c x) : 0 < gap.length := by
  rcases isPart.closed with rfl | ⟨rfl, _⟩
  · exact Nat.zero_lt_one
  · exact Nat.zero_lt_one

/-- Every part, with the keyword after it, is shorter than the text: this bounds the depth at which
it is parsed. -/
theorem followers_within (hCond : IsPart gap platform c x) : ∀ q ∈ followers c t rest e,
    q.1.length + q.2.length + 1 < (chainText gap c t rest e).length :=
  followers_length hCond.gap_pos

/-- When the chain is parsed to its tree, it has one `elif` at most, and no part takes the keyword
after it. -/
theorem chain_of_parse (hCond : IsPart gap platform c x) (hThen : IsPart gap platform t y)
    (hRest : AreParts gap platform rest trees) (hElse : Option.Rel (IsPart gap platform) e z)
    (hParse : parse platform (chainText gap c t rest e) = .ok (chainTree x y trees z)) :
    rest.length ≤ 1 ∧ ∀ q ∈ followers c t rest e, ¬ TakesWord platform q.1 q.2 := by
  obtain ⟨end_, hRun, _⟩ := run_of_parse (noEof_chain hCond hThen hRest hElse)
    (lexes_chain hCond hThen hRest hElse) (Or.inl rfl) hParse
  rw [chainTree_eq, chainTokens, List.cons_append] at hRun
  have hIf := parseIf_of_expr hRun
  rw [← chainTree_eq, ← List.cons_append, ← chainTokens] at hIf
  exact chain_reads hCond hThen hRest hElse (followers_within hCond) hIf

/-- When it has one `elif` at most, and no part takes the keyword after it, it is parsed to its
tree. -/
theorem parse_of_chain (hCond : IsPart gap platform c x) (hThen : IsPart gap platform t y)
    (hRest : AreParts gap platform rest trees) (hElse : Option.Rel (IsPart gap platform) e z)
    (hLength : rest.length ≤ 1) (hNot : ∀ q ∈ followers c t rest e, ¬ TakesWord platform q.1 q.2) :
    parse platform (chainText gap c t rest e) = .ok (chainTree x y trees z) := by
  have takes := takes_chain hCond hThen hRest hElse hLength (followers_within hCond) hNot
  exact parse_of_takes (noEof_chain hCond hThen hRest hElse) (lexes_chain hCond hThen hRest hElse)
    (Or.inl rfl) (takes_if_alone takes)

end Parsing

section Parts

variable {platform : Platform} {gap part source word : String} {x : Expr} {dotted : Bool}

/-- What is taken in front of a keyword does not take it. -/
theorem Taken.not_takesWord (taken : Taken platform (parseExpr platform) (.ident word) part x)
    (isWord : IsWord platform word) : ¬ TakesWord platform part word := by
  obtain ⟨tokens, hTokens, hLexes, hTakes⟩ := taken
  have hTokenize := (tokenize_eq_ok_iff hTokens).mpr ⟨[], hLexes, Or.inl rfl⟩
  have hDepth : part.length + word.length + 1 < part.length + word.length + 1 + 1 := Nat.lt_succ_self _
  rw [takesWord_iff isWord hTokens hTokenize hDepth]
  intro ⟨e, c, hRun, hEnd⟩
  obtain ⟨pos, hTaken⟩ := hTakes (part.length + word.length + 1) (by omega) 0 [.eof]
  have hSame := hTaken.symm.trans hRun
  cases hSame
  cases hEnd

/-- A path takes it if no dot follows in the path after the one it begins with, and only then. -/
theorem IsPath.takesWord_iff (path : IsPath platform part x dotted) (isKeyword : IsKeyword word) :
    TakesWord platform part word ↔ dotted = false := by
  cases dotted with
  | true =>
      have hTaken := path.taken isKeyword.no_operator.1 isKeyword.no_operator.2
      exact iff_of_false (hTaken.not_takesWord isKeyword.isWord) nofun
  | false =>
      refine iff_of_true ⟨.field x word, ?_⟩ rfl
      have hParse := path.parse_word (@IsKeyword.isWord platform word isKeyword)
      obtain ⟨tokens, hTokens, hLexes, _⟩ := path
      exact parse_of_same_tokens (lexes_path_word hLexes isKeyword.isWord) (Or.inl rfl)
        (lexes_part_word isKeyword.isWord hLexes (Or.inl rfl)) (Or.inl rfl)
        (noEof_append hTokens (noEof_singleton (by nofun))) hParse

/-- A path is a part of a chain. -/
theorem IsPath.isPart (path : IsPath platform part x dotted) (hGap : gap = "\n" ∨ gap = " ") :
    IsPart gap platform part x := by
  have hParse := path.parses
  obtain ⟨tokens, _, hLexes, _⟩ := path
  exact ⟨hParse, hGap.imp_right fun hSpace => ⟨hSpace, tokens, hLexes⟩⟩

end Parts

/-- A chain is read as the tree of its conditions and branches where it has one `elif` at most, and
none of its parts takes the keyword after it for a part of itself, and nowhere else. -/
theorem if_chain_iff (platform : Platform) (gap c t : String) (x y : Expr)
    (rest : List (String × String)) (trees : List (Expr × Expr)) (e : Option String)
    (z : Option Expr) (hCond : IsPart gap platform c x) (hThen : IsPart gap platform t y)
    (hRest : AreParts gap platform rest trees) (hElse : Option.Rel (IsPart gap platform) e z) :
    parse platform (chainText gap c t rest e) = .ok (chainTree x y trees z) ↔
      rest.length ≤ 1 ∧ ∀ q ∈ followers c t rest e, ¬ TakesWord platform q.1 q.2 :=
  ⟨fun hParse => chain_of_parse hCond hThen hRest hElse hParse,
    fun hChain => parse_of_chain hCond hThen hRest hElse hChain.1 hChain.2⟩

section Samples

variable {gap : String}

/-- A path of two fields is one, with a space or a line break after it. -/
theorem isPart_fields (hGap : gap = "\n" ∨ gap = " ") :
    IsPart gap (.ascii true) ".a.b" (.field (.field .identity "a") "b") := isPath_fields.isPart hGap

/-- With such paths the chain of one `elif` and an `else` is read back. -/
theorem if_chain_fields :
    parse (.ascii true) (chainText " " ".a.b" ".a.b" [(".a.b", ".a.b")] (some ".a.b")) =
      .ok (chainTree (.field (.field .identity "a") "b") (.field (.field .identity "a") "b")
        [(.field (.field .identity "a") "b", .field (.field .identity "a") "b")]
        (some (.field (.field .identity "a") "b"))) := by
  have isPart := @isPart_fields " " (Or.inr rfl)
  refine (if_chain_iff _ _ _ _ _ _ _ _ _ _ isPart isPart (.cons ⟨isPart, isPart⟩ .nil)
    (.some isPart)).mpr ⟨Nat.le_refl 1, fun q hMem => ?_⟩
  have hKeyword := followers_keyword q hMem
  have hPart : q.1 = ".a.b" := by
    simp only [followers, List.mem_cons, List.not_mem_nil, or_false] at hMem
    rcases hMem with rfl | rfl | rfl | rfl | rfl <;> rfl
  rw [hPart, isPath_fields.takesWord_iff hKeyword]
  nofun

/-- A second `elif`, and a condition that takes `then` for a field. -/
theorem if_chains_rejected :
    parse (.ascii true) ".a.b" = .ok (.field (.field .identity "a") "b") ∧
      parse (.ascii true) (chainText " " ".a.b" ".a.b" [(".a.b", ".a.b"), (".a.b", ".a.b")] none) ≠
        .ok (chainTree (.field (.field .identity "a") "b") (.field (.field .identity "a") "b")
          [(.field (.field .identity "a") "b", .field (.field .identity "a") "b"),
            (.field (.field .identity "a") "b", .field (.field .identity "a") "b")] none) ∧
      parse (.ascii true) ".a" = .ok (.field .identity "a") ∧
      parse (.ascii true) (chainText " " ".a" ".a" [] none) ≠
        .ok (chainTree (.field .identity "a") (.field .identity "a") [] none) := by
  have isPart := @isPart_fields " " (Or.inr rfl)
  have hField : IsPath (.ascii true) ".a" (.field .identity "a") false := isWord_a.isPath
  have isField : IsPart " " (.ascii true) ".a" (.field .identity "a") := hField.isPart (Or.inr rfl)
  refine ⟨isPart.parses, fun hParse => ?_, hField.parses, fun hParse => ?_⟩
  · have hLength := (chain_of_parse isPart isPart (.cons ⟨isPart, isPart⟩ (.cons ⟨isPart, isPart⟩ .nil))
      .none hParse).1
    exact absurd hLength (by simp)
  · have hNot := (chain_of_parse isField isField .nil .none hParse).2 (".a", "then") (by simp [followers])
    exact hNot ((hField.takesWord_iff (by simp [IsKeyword])).mpr rfl)

end Samples

end Jq
end OwsRuntime
