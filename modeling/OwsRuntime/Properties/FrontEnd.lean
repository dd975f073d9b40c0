import OwsRuntime.Expressions.Blocks
import OwsRuntime.Expressions.Depth
import OwsRuntime.Expressions.Eval

/-! The front end answers for every source. Each index of the lexer, the parser and the functions on
blocks is within bounds, and each of their loops takes some of the input. -/
namespace OwsRuntime
namespace Jq

open JqEngine

/-- What the front end does with a source. Where an index would be out of bounds, the model of the
parser panics and the functions on blocks have no result. A loop of the parser has as many rounds as
there are tokens left, and a level of nesting more as the source is long: it answers only if they
are enough. -/
structure Total (platform : Platform) (source : String) : Prop where
  tokenizes : Answers (tokenize platform source)
  /-- The end of the input is the last token, and no other one. -/
  ends : ∀ tokens, tokenize platform source = .ok tokens →
    ∃ front, tokens = front ++ [.eof] ∧ NoEof front
  /-- The position of the lexer goes on with every batch, up to the end of the text. -/
  lexes : ∀ text batch rest, nextTokens source.length platform text = .ok (batch, rest) →
    (batch = [.eof] ∧ rest = []) ∨ rest <:+ text ∧ rest.length < text.length
  /-- The source of an interpolation is cut out before its parenthesis. -/
  cuts : ∀ text inner rest, readInterpSource 1 text = some (inner, rest) → text = inner ++ ')' :: rest
  /-- The source of an interpolation is shorter than the one it is in. -/
  nests : ∀ tokens inner, tokenize platform source = .ok tokens → .interp inner ∈ tokens →
    inner.length < source.length
  parses : Answers (parse platform source)
  /-- The position of the parser is that of a token. -/
  stays : ∀ tokens e c, tokenize platform source = .ok tokens →
    parseExpr platform (parserAt platform source.length) ⟨0, tokens⟩ = .ok (e, c) →
    c.pos < tokens.length ∧ c.rest = tokens.drop c.pos
  closes : ∀ open_ close, findBlockClose source.toList open_ = some close →
    open_ ≤ close ∧ close < source.length
  single : singleBlockAt source.toList = some (singleBlock source.toList)
  blocks : parseBlocksAt (language platform) source.toList =
    some (parseBlocks (language platform) source.toList)

variable {platform : Platform} {total : Nat}

/-- A batch of the lexer takes some text, but for the end of the input. -/
theorem nextTokens_consumes {text rest : List Char} {batch : List Token}
    (hNext : nextTokens total platform text = .ok (batch, rest)) :
    (batch = [.eof] ∧ rest = []) ∨ rest <:+ text ∧ rest.length < text.length := by
  have hBlank := skipBlank_suffix false text
  rw [nextTokens] at hNext
  cases hSkip : skipBlank false text with
  | nil =>
      rw [hSkip] at hNext
      cases hNext
      exact Or.inl ⟨rfl, rfl⟩
  | cons c more =>
      rw [hSkip] at hNext hBlank
      have hSuffix := readToken_suffix hNext
      have hLength := hBlank.length_le
      have hRest := hSuffix.length_le
      rw [List.length_cons] at hLength
      exact Or.inr ⟨hSuffix.trans ((List.suffix_cons c more).trans hBlank), by omega⟩

theorem weight_mem {token : Token} {tokens : List Token} (hMem : token ∈ tokens) :
    token.weight ≤ weight tokens := by
  obtain ⟨before, after, rfl⟩ := List.append_of_mem hMem
  rw [weight_append, weight_cons]
  omega

/-- The front end is total: for every source the lexer, the parser and the preparation end in a
result or in an error of the source, and no index is ever out of its bounds. -/
theorem front_end_total (platform : Platform) (source : String) : Total platform source where
  tokenizes := tokenize_answers source
  ends tokens hTokenize := tokenizeFrom_shape _ _ hTokenize
  lexes text batch rest hNext := nextTokens_consumes hNext
  cuts text inner rest hRead := interpSource_text 1 text hRead
  nests tokens inner hTokenize hMem := by
    obtain ⟨front, rfl, hFront⟩ := tokenizeFrom_shape _ _ hTokenize
    have hInner : Token.interp inner ∈ front := by simpa using hMem
    have hToken : inner.length + 1 ≤ weight front := weight_mem hInner
    have hWeight := weight_of_tokenize hFront hTokenize
    omega
  parses := parse_answers source
  stays tokens e c hTokenize hRun := by
    obtain ⟨front, rfl, hFront⟩ := tokenizeFrom_shape _ _ hTokenize
    have hSettled := parseExpr_settled hFront hTokenize
    rw [hRun] at hSettled
    obtain ⟨front', hRest, hLeft⟩ := hSettled
    have hPosition := hLeft.position
    obtain ⟨taken, rfl⟩ := hLeft.suffix
    simp only [List.length_append, Nat.zero_add] at hPosition
    have hTaken : c.pos = taken.length := by omega
    constructor
    · simp only [List.length_append, List.length_singleton]
      omega
    · rw [hRest, hTaken, List.append_assoc, List.drop_left]
  closes open_ close hClose := by
    rw [← String.length_toList]
    exact closeFrom_within hClose
  single := singleBlockAt_eq source.toList
  blocks := parseBlocksAt_eq source.toList

end Jq
end OwsRuntime
