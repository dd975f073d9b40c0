import OwsRuntime.Core.Brackets
import OwsRuntime.Expressions.Lexer

/-! What the lexer makes of texts: its tokens, and how it goes on from one to the next. -/
namespace OwsRuntime
namespace Jq

attribute [grind =] skipBlank readInterpSource readString readToken tokenizeFrom

theorem ok_bind {ε α β : Type} (a : α) (f : α → Except ε β) : (Except.ok a >>= f) = f a := rfl

/-- Tokens of which none is the end of the input. -/
def NoEof (tokens : List Token) : Prop := ∀ t ∈ tokens, t ≠ .eof

/-- Of two lists of tokens without the end, the second may follow the first. -/
theorem noEof_append {first second : List Token} (hFirst : NoEof first) (hSecond : NoEof second) :
    NoEof (first ++ second) :=
  fun t ht => (List.mem_append.mp ht).elim (hFirst t) (hSecond t)

theorem noEof_singleton {token : Token} (hToken : token ≠ .eof) : NoEof [token] := by
  intro t ht
  rw [List.mem_singleton.mp ht]
  exact hToken

section Strings

variable {total fuel : Nat} {literal rest : List Char}

/-- A quote ends the string, and what was read since the last interpolation becomes a token. -/
theorem readString_quote : readString total (fuel + 1) literal ('"' :: rest) =
    .ok (flush literal, rest) := by
  rw [readString.eq_def]
  rfl

/-- Any other character but the backslash stands for itself. -/
theorem readString_plain {c : Char} (hQuote : c ≠ '"') (hEscape : c ≠ '\\') :
    readString total (fuel + 1) literal (c :: rest) =
      readString total fuel (literal ++ [c]) rest := by
  rw [readString.eq_def]
  simp only [if_neg hQuote, if_neg hEscape]

/-- A character that has an escape stands for what its escape means. -/
theorem readString_unescape {c plain : Char} (hParen : c ≠ '(') (hHex : c ≠ 'u')
    (hPlain : unescape? c = some plain) :
    readString total (fuel + 1) literal ('\\' :: c :: rest) =
      readString total fuel (literal ++ [plain]) rest := by
  rw [readString.eq_def]
  simp only [if_neg hParen, if_neg hHex, hPlain]
  rfl

/-- A backslash before any other character is kept, with that character. -/
theorem readString_other {c : Char} (hParen : c ≠ '(') (hHex : c ≠ 'u')
    (hPlain : unescape? c = none) :
    readString total (fuel + 1) literal ('\\' :: c :: rest) =
      readString total fuel (literal ++ ['\\', c]) rest := by
  rw [readString.eq_def]
  simp only [if_neg hParen, if_neg hHex, hPlain]
  rfl

/-- Four hexadecimal digits are a code; where it is no character, nothing is added. -/
theorem readString_hex {code : Nat} (hCode : hexValue? (rest.take 4) = some code) :
    readString total (fuel + 1) literal ('\\' :: 'u' :: rest) =
      readString total fuel (literal ++ (charOf? code).toList) (rest.drop 4) := by
  rw [readString.eq_def]
  simp only [hCode]
  rfl

/-- An interpolation is taken by its parentheses, without a look at what stands between them. -/
theorem readString_interp {source after : List Char}
    (hSource : readInterpSource 1 rest = some (source, after)) :
    readString total (fuel + 1) literal ('\\' :: '(' :: rest) = (do
      let (tokens, last) ← readString total fuel [] after
      return (flush literal ++ .interp (String.ofList source) :: tokens, last)) := by
  rw [readString.eq_def]
  simp only [hSource]
  rfl

/-- A literal is no end of the input. -/
theorem noEof_flush (literal : List Char) : NoEof (flush literal) := by
  rw [flush]
  split_ifs
  · exact fun _ h => (by cases h)
  · exact noEof_singleton (by nofun)

/-- Nor is any token of a string. The recursion is that of the lexer. -/
theorem noEof_readString : ∀ (fuel : Nat) (literal text : List Char) {tokens : List Token}
    {rest : List Char}, readString total fuel literal text = .ok (tokens, rest) → NoEof tokens
  | 0, _, _, _, _, hRead => by cases hRead
  | _ + 1, _, [], _, _, hRead => by cases hRead
  | fuel + 1, literal, c :: text, tokens, rest, hRead => by
      by_cases hQuote : c = '"'
      · subst hQuote
        rw [readString_quote] at hRead
        cases hRead
        exact noEof_flush literal
      · by_cases hEscape : c = '\\'
        · subst hEscape
          rw [readString.eq_def] at hRead
          cases text with
          | nil => cases hRead
          | cons esc more =>
              simp only [if_neg hQuote, if_true] at hRead
              split_ifs at hRead with hParen hHex
              · cases hSource : readInterpSource 1 more with
                | none =>
                    rw [hSource] at hRead
                    cases hRead
                | some found =>
                    rw [hSource] at hRead
                    obtain ⟨inner, hInner, hRead⟩ := bind_eq_ok hRead
                    cases hRead
                    refine noEof_append (noEof_flush literal) fun t ht => ?_
                    rcases List.mem_cons.mp ht with rfl | ht
                    · nofun
                    · exact noEof_readString fuel _ _ hInner t ht
              · cases hCode : hexValue? (more.take 4) with
                | none =>
                    rw [hCode] at hRead
                    cases hRead
                | some code =>
                    rw [hCode] at hRead
                    exact noEof_readString fuel _ _ hRead
              · cases hPlain : unescape? esc with
                | none =>
                    rw [hPlain] at hRead
                    exact noEof_readString fuel _ _ hRead
                | some plain =>
                    rw [hPlain] at hRead
                    exact noEof_readString fuel _ _ hRead
        · rw [readString_plain hQuote hEscape] at hRead
          exact noEof_readString fuel _ _ hRead

end Strings

section Batches

variable {platform : Platform} {total : Nat}

/-- What is found in a table is an entry of it. -/
theorem mem_of_lookup {κ β : Type} [BEq κ] [LawfulBEq κ] {table : List (κ × β)} {k : κ} {b : β}
    (hLookup : table.lookup k = some b) : (k, b) ∈ table := by
  obtain ⟨before, after, hTable, _⟩ := List.lookup_eq_some_iff.mp hLookup
  rw [hTable]
  exact List.mem_append_right _ List.mem_cons_self

/-- The tokens of one character are none of them the end of the input, -/
theorem singles_ne_eof {c : Char} {token : Token} (hSingle : singles.lookup c = some token) :
    token ≠ .eof := by
  have hAll : ∀ e ∈ singles, e.2 ≠ .eof := by decide
  exact hAll _ (mem_of_lookup hSingle)

/-- nor are those of two characters. -/
theorem operators2_ne_eof {k : Char × Char} {token : Token}
    (hOperator : operators2.lookup k = some token) : token ≠ .eof := by
  have hAll : ∀ e ∈ operators2, e.2 ≠ .eof := by decide
  exact hAll _ (mem_of_lookup hOperator)

/-- The lexer reads at least one token at a time, and the end is not among them. -/
theorem readToken_batch {c : Char} {text rest : List Char} {batch : List Token}
    (hRead : readToken total platform c text = .ok (batch, rest)) : batch ≠ [] ∧ NoEof batch := by
  have hOne : ∀ {token : Token}, token ≠ .eof → [token] ≠ [] ∧ NoEof [token] :=
    fun hToken => ⟨List.cons_ne_nil _ _, noEof_singleton hToken⟩
  rw [readToken] at hRead
  cases hOperator : text.head?.bind fun d => operators2.lookup (c, d) with
  | some token =>
      rw [hOperator] at hRead
      cases hRead
      obtain ⟨d, _, hToken⟩ := Option.bind_eq_some_iff.mp hOperator
      exact hOne (operators2_ne_eof hToken)
  | none =>
      rw [hOperator] at hRead
      cases hSingle : singles.lookup c with
      | some token =>
          rw [hSingle] at hRead
          cases hRead
          exact hOne (singles_ne_eof hSingle)
      | none =>
          rw [hSingle] at hRead
          simp only at hRead
          split_ifs at hRead
          · cases hRead
            exact hOne (by nofun)
          · obtain ⟨found, hFound, hRead⟩ := bind_eq_ok hRead
            cases hRead
            have hTokens := noEof_readString _ _ _ hFound
            split_ifs with hEmpty
            · exact hOne (by nofun)
            · exact ⟨fun h => hEmpty (by rw [h]; rfl), hTokens⟩
          · obtain ⟨found, hFound, hRead⟩ := bind_eq_ok hRead
            cases hRead
            have hNumber : ∃ value, found.1 = .number value := by
              rw [readNumber] at hFound
              cases hValue : (splitNumber (c :: text)).1.value? with
              | none => simp [hValue] at hFound
              | some value =>
                  simp only [hValue, Except.ok.injEq] at hFound
                  exact ⟨value, by rw [← hFound]⟩
            obtain ⟨value, hValue⟩ := hNumber
            exact hOne (by rw [hValue]; nofun)
          · cases hRead
            exact hOne (by nofun)

/-- The tokens of a text end with the end of the input, which is nowhere else. -/
theorem tokenizeFrom_shape : ∀ (fuel : Nat) (text : List Char) {tokens : List Token},
    tokenizeFrom total platform fuel text = .ok tokens →
      ∃ front, tokens = front ++ [.eof] ∧ NoEof front
  | 0, _, _, hTokens => by cases hTokens
  | fuel + 1, text, tokens, hTokens => by
      rw [tokenizeFrom] at hTokens
      obtain ⟨⟨batch, rest⟩, hBatch, hTokens⟩ := bind_eq_ok hTokens
      rw [nextTokens] at hBatch
      cases hSkip : skipBlank false text with
      | nil =>
          rw [hSkip] at hBatch
          cases hBatch
          cases hTokens
          exact ⟨[], rfl, fun _ h => (by cases h)⟩
      | cons c more =>
          rw [hSkip] at hBatch
          obtain ⟨hNonempty, hNoEof⟩ := readToken_batch hBatch
          obtain ⟨first, others, rfl⟩ := List.exists_cons_of_ne_nil hNonempty
          have hFirst : first ≠ .eof := hNoEof first List.mem_cons_self
          simp only [List.head?_cons, Option.some.injEq, if_neg hFirst] at hTokens
          obtain ⟨later, hLater, hTokens⟩ := bind_eq_ok hTokens
          cases hTokens
          obtain ⟨front, rfl, hFront⟩ := tokenizeFrom_shape fuel rest hLater
          exact ⟨first :: others ++ front, by simp, noEof_append hNoEof hFront⟩

end Batches

section Composition

variable {platform : Platform} {total : Nat}

/-- What is left after blanks and comments stands at the end of the text. -/
theorem skipBlank_suffix : ∀ (comment : Bool) (text : List Char), skipBlank comment text <:+ text
  | _, [] => List.suffix_rfl
  | true, c :: rest => by
      rw [skipBlank]
      split_ifs
      · exact (skipBlank_suffix false rest).trans (List.suffix_cons c rest)
      · exact (skipBlank_suffix true rest).trans (List.suffix_cons c rest)
  | false, c :: rest => by
      rw [skipBlank]
      split_ifs
      · exact (skipBlank_suffix false rest).trans (List.suffix_cons c rest)
      · exact (skipBlank_suffix true rest).trans (List.suffix_cons c rest)
      · exact List.suffix_rfl

/-- So it is no longer than the text. -/
theorem length_skipBlank_le (comment : Bool) (text : List Char) :
    (skipBlank comment text).length ≤ text.length := (skipBlank_suffix comment text).length_le

/-- The lexer takes the source of an interpolation by counting. -/
theorem readInterpSource_eq_split (depth : Nat) (text : List Char) :
    readInterpSource depth text = Brackets.split '(' ')' depth text := by
  induction text generalizing depth with
  | nil => rfl
  | cons c rest ih => rw [readInterpSource, Brackets.split, ih, ih, ih]

/-- The source of an interpolation is closed by its own parenthesis, so it is the same before any
further text. -/
theorem readInterpSource_append : ∀ (depth : Nat) (text : List Char) {source rest : List Char},
    readInterpSource depth text = some (source, rest) → ∀ tail,
      readInterpSource depth (text ++ tail) = some (source, rest ++ tail)
  | _, [], _, _, hRead, _ => by cases hRead
  | depth, c :: text, source, rest, hRead, tail => by
      rw [readInterpSource] at hRead
      rw [List.cons_append, readInterpSource]
      split_ifs at hRead ⊢
      · obtain ⟨inner, hInner, hRead⟩ := Option.map_eq_some_iff.mp hRead
        cases hRead
        rw [readInterpSource_append _ text hInner tail]
        rfl
      · cases hRead
        rfl
      · obtain ⟨inner, hInner, hRead⟩ := Option.map_eq_some_iff.mp hRead
        cases hRead
        rw [readInterpSource_append _ text hInner tail]
        rfl
      · obtain ⟨inner, hInner, hRead⟩ := Option.map_eq_some_iff.mp hRead
        cases hRead
        rw [readInterpSource_append _ text hInner tail]
        rfl

/-- The source of an interpolation ends before a parenthesis. -/
theorem interpSource_text : ∀ (depth : Nat) (text : List Char) {source rest : List Char},
    readInterpSource depth text = some (source, rest) → text = source ++ ')' :: rest
  | _, [], _, _, hRead => by cases hRead
  | depth, c :: text, source, rest, hRead => by
      have hInner : ∀ {depth : Nat}, (readInterpSource depth text).map (fun r => (c :: r.1, r.2)) =
          some (source, rest) → c :: text = source ++ ')' :: rest := by
        intro depth hFound
        obtain ⟨inner, hInner, hSame⟩ := Option.map_eq_some_iff.mp hFound
        cases hSame
        rw [interpSource_text _ text hInner, List.cons_append]
      rw [readInterpSource] at hRead
      split_ifs at hRead with hOpen hClose
      · exact hInner hRead
      · cases hRead
        rw [hClose, List.nil_append]
      · exact hInner hRead
      · exact hInner hRead

/-- The source and what is left are the text, but for the parenthesis between them. -/
theorem length_interpSource {depth : Nat} {text source rest : List Char}
    (hRead : readInterpSource depth text = some (source, rest)) :
    text.length = source.length + 1 + rest.length := by
  rw [interpSource_text depth text hRead, List.length_append, List.length_cons]
  omega

/-- What is left after an interpolation stands at the end of the text. -/
theorem interpSource_suffix {depth : Nat} {text source rest : List Char}
    (hRead : readInterpSource depth text = some (source, rest)) : rest <:+ text := by
  rw [interpSource_text depth text hRead]
  exact (List.suffix_cons ')' rest).trans (List.suffix_append source _)

/-- How a string goes on after a character. A read that succeeds takes one of these steps. -/
inductive StringStep (literal : List Char) : List Char → List Token → List Char → List Char → Prop where
  | plain {c : Char} {rest : List Char} (hQuote : c ≠ '"') (hEscape : c ≠ '\\') :
      StringStep literal (c :: rest) [] (literal ++ [c]) rest
  | unescape {c plain : Char} {rest : List Char} (hParen : c ≠ '(') (hHex : c ≠ 'u')
      (hPlain : unescape? c = some plain) :
      StringStep literal ('\\' :: c :: rest) [] (literal ++ [plain]) rest
  | other {c : Char} {rest : List Char} (hParen : c ≠ '(') (hHex : c ≠ 'u')
      (hPlain : unescape? c = none) :
      StringStep literal ('\\' :: c :: rest) [] (literal ++ ['\\', c]) rest
  | hex {digits rest : List Char} {code : Nat} (hDigits : digits.length = 4)
      (hCode : hexValue? digits = some code) :
      StringStep literal ('\\' :: 'u' :: (digits ++ rest)) [] (literal ++ (charOf? code).toList) rest
  | interp {text source rest : List Char} (hSource : readInterpSource 1 text = some (source, rest)) :
      StringStep literal ('\\' :: '(' :: text)
        (flush literal ++ [.interp (String.ofList source)]) [] rest

/-- The tokens of a string, from after its quote. -/
inductive ReadsString : List Char → List Char → List Token → List Char → Prop where
  | quote {literal rest : List Char} : ReadsString literal ('"' :: rest) (flush literal) rest
  | step {literal text literal' rest last : List Char} {tokens more : List Token}
      (step : StringStep literal text tokens literal' rest)
      (tail : ReadsString literal' rest more last) : ReadsString literal text (tokens ++ more) last

/-- A step through a string takes a character at least, -/
theorem StringStep.length_lt {literal text literal' rest : List Char} {tokens : List Token}
    (step : StringStep literal text tokens literal' rest) : rest.length < text.length := by
  cases step with
  | interp hSource =>
      have hRest := length_interpSource hSource
      simp only [List.length_cons]
      omega
  | _ => simp only [List.length_cons, List.length_append]; omega

/-- leaves the end of the text, -/
theorem StringStep.suffix {literal text literal' rest : List Char} {tokens : List Token}
    (step : StringStep literal text tokens literal' rest) : rest <:+ text := by
  cases step with
  | plain => exact List.suffix_cons _ _
  | unescape => exact (List.suffix_cons _ _).trans (List.suffix_cons _ _)
  | other => exact (List.suffix_cons _ _).trans (List.suffix_cons _ _)
  | hex =>
      exact (List.suffix_append _ _).trans ((List.suffix_cons _ _).trans (List.suffix_cons _ _))
  | interp hSource =>
      exact (interpSource_suffix hSource).trans
        ((List.suffix_cons _ _).trans (List.suffix_cons _ _))

/-- and is the same step where more text follows. -/
theorem StringStep.append {literal text literal' rest : List Char} {tokens : List Token}
    (step : StringStep literal text tokens literal' rest) (tail : List Char) :
    StringStep literal (text ++ tail) tokens literal' (rest ++ tail) := by
  cases step with
  | plain hQuote hEscape => exact .plain hQuote hEscape
  | unescape hParen hHex hPlain => exact .unescape hParen hHex hPlain
  | other hParen hHex hPlain => exact .other hParen hHex hPlain
  | hex hDigits hCode =>
      rw [List.cons_append, List.cons_append, List.append_assoc]
      exact .hex hDigits hCode
  | interp hSource => exact .interp (readInterpSource_append _ _ hSource tail)

/-- One step of the function that reads strings. -/
theorem StringStep.readString {literal text literal' rest : List Char} {tokens : List Token}
    (step : StringStep literal text tokens literal' rest) (fuel : Nat) {more : List Token}
    {last : List Char} (hRest : readString total fuel literal' rest = .ok (more, last)) :
    readString total (fuel + 1) literal text = .ok (tokens ++ more, last) := by
  cases step with
  | plain hQuote hEscape => rw [readString_plain hQuote hEscape, hRest, List.nil_append]
  | unescape hParen hHex hPlain => rw [readString_unescape hParen hHex hPlain, hRest, List.nil_append]
  | other hParen hHex hPlain => rw [readString_other hParen hHex hPlain, hRest, List.nil_append]
  | @hex digits rest code hDigits hCode =>
      have hTake : (digits ++ rest).take 4 = digits := by simp [← hDigits]
      have hDrop : (digits ++ rest).drop 4 = rest := by simp [← hDigits]
      rw [readString_hex (hTake.symm ▸ hCode), hDrop, hRest, List.nil_append]
  | interp hSource =>
      rw [readString_interp hSource, hRest, ok_bind]
      simp [pure, Except.pure]

/-- The lexer makes these steps, when it has more rounds than there are characters. -/
theorem ReadsString.readString {literal text last : List Char} {tokens : List Token}
    (reads : ReadsString literal text tokens last) :
    ∀ fuel, text.length < fuel → Jq.readString total fuel literal text = .ok (tokens, last) := by
  induction reads with
  | quote =>
      intro fuel hFuel
      obtain ⟨fuel, rfl⟩ : ∃ k, fuel = k + 1 := ⟨fuel - 1, by omega⟩
      exact readString_quote
  | step step _ ih =>
      intro fuel hFuel
      obtain ⟨fuel, rfl⟩ : ∃ k, fuel = k + 1 := ⟨fuel - 1, by omega⟩
      have hLess := step.length_lt
      exact step.readString fuel (ih fuel (by omega))

/-- The steps up to the closing quote do not depend on what comes after it. -/
theorem ReadsString.append {literal text last : List Char} {tokens : List Token}
    (reads : ReadsString literal text tokens last) (tail : List Char) :
    ReadsString literal (text ++ tail) tokens (last ++ tail) := by
  induction reads with
  | quote => exact .quote
  | step step _ ih => exact .step (step.append tail) ih

/-- At least the closing quote has been taken. -/
theorem ReadsString.length_lt {literal text last : List Char} {tokens : List Token}
    (reads : ReadsString literal text tokens last) : last.length < text.length := by
  induction reads with
  | quote => simp
  | step step _ ih => exact Nat.lt_trans ih step.length_lt

/-- What is left after a string stands at the end of the text. -/
theorem ReadsString.suffix {literal text last : List Char} {tokens : List Token}
    (reads : ReadsString literal text tokens last) : last <:+ text := by
  induction reads with
  | quote => exact List.suffix_cons _ _
  | step step _ ih => exact ih.trans step.suffix

/-- Whatever the lexer reads as a string, it reads by these steps. The recursion is that of the
lexer, with a case for each kind of character. -/
theorem readsString_of_readString : ∀ (fuel : Nat) (literal text : List Char) {tokens : List Token}
    {last : List Char}, readString total fuel literal text = .ok (tokens, last) →
      ReadsString literal text tokens last
  | 0, _, _, _, _, hRead => by cases hRead
  | _ + 1, _, [], _, _, hRead => by cases hRead
  | fuel + 1, literal, c :: text, tokens, last, hRead => by
      by_cases hQuote : c = '"'
      · subst hQuote
        rw [readString_quote] at hRead
        cases hRead
        exact .quote
      · by_cases hEscape : c = '\\'
        · subst hEscape
          cases text with
          | nil => cases hRead
          | cons esc more =>
              by_cases hParen : esc = '('
              · subst hParen
                cases hSource : readInterpSource 1 more with
                | none =>
                    rw [readString.eq_def] at hRead
                    simp [hSource] at hRead
                | some found =>
                    rw [readString_interp hSource] at hRead
                    obtain ⟨inner, hInner, hRead⟩ := bind_eq_ok hRead
                    have hStep : StringStep literal _ _ _ _ := .interp hSource
                    have hTail := readsString_of_readString fuel _ _ hInner
                    cases hRead
                    simpa using ReadsString.step hStep hTail
              · by_cases hHex : esc = 'u'
                · subst hHex
                  cases hCode : hexValue? (more.take 4) with
                  | none =>
                      rw [readString.eq_def] at hRead
                      simp [hCode] at hRead
                  | some code =>
                      rw [readString_hex hCode] at hRead
                      have hTail := readsString_of_readString fuel _ _ hRead
                      have hLength : (more.take 4).length = 4 := by
                        have hMore := hTail.length_lt
                        rw [List.length_drop] at hMore
                        rw [List.length_take]
                        omega
                      have hStep : StringStep literal ('\\' :: 'u' :: (more.take 4 ++ more.drop 4)) []
                          (literal ++ (charOf? code).toList) (more.drop 4) := .hex hLength hCode
                      rw [List.take_append_drop] at hStep
                      exact .step hStep hTail
                · cases hPlain : unescape? esc with
                  | none =>
                      rw [readString_other hParen hHex hPlain] at hRead
                      exact .step (.other hParen hHex hPlain) (readsString_of_readString fuel _ _ hRead)
                  | some plain =>
                      rw [readString_unescape hParen hHex hPlain] at hRead
                      exact .step (.unescape hParen hHex hPlain)
                        (readsString_of_readString fuel _ _ hRead)
        · rw [readString_plain hQuote hEscape] at hRead
          exact .step (.plain hQuote hEscape) (readsString_of_readString fuel _ _ hRead)

/-- A character that no token goes on with. -/
structure Separator (platform : Platform) (c : Char) : Prop where
  notIdent : isIdentChar platform c = false
  notOther : c ∉ ['.', '=', '/', '+', '-']

/-- Text that no token before it goes on with. -/
def Follows (platform : Platform) (tail : List Char) : Prop :=
  ∀ b, tail.head? = some b → Separator platform b

/-- Where the text ends, no token goes on. -/
theorem follows_nil : Follows platform [] := fun _ hHead => (by cases hHead)

/-- A token is at its end before a character that separates. -/
theorem follows_cons {b : Char} (separator : Separator platform b) (tail : List Char) :
    Follows platform (b :: tail) := by
  intro c hHead
  cases hHead
  exact separator

/-- Among the ASCII characters, the letters, the digits and the underscore make up identifiers, on
any platform. -/
theorem isIdentChar_ascii {c : Char} (hAscii : c.toNat < 128) :
    isIdentChar platform c = (c.isAlpha || c.isDigit || c == '_') := by
  rw [isIdentChar, platform.isAlphabetic_ascii c hAscii, platform.isNumeric_ascii c hAscii]

/-- So an ASCII character separates when it is none of these, and none of the five that go on with a
number or an operator. -/
theorem Separator.of_ascii {c : Char} (hAscii : c.toNat < 128)
    (hIdent : (c.isAlpha || c.isDigit || c == '_') = false) (hOther : c ∉ ['.', '=', '/', '+', '-']) :
    Separator platform c :=
  ⟨(isIdentChar_ascii hAscii).trans hIdent, hOther⟩

/-- Each of the whitespace characters of expressions separates. -/
theorem Separator.of_whitespace {c : Char} (hSpace : JqEngine.isWhitespace c = true) :
    Separator platform c := by
  obtain ⟨hAlphabetic, hNumeric⟩ := platform.not_whitespace c hSpace
  have hOther : ∀ d ∈ ['.', '=', '/', '+', '-'], JqEngine.isWhitespace d = false := by
    simp only [List.forall_mem_cons]
    exact ⟨rfl, rfl, rfl, rfl, rfl, List.forall_mem_nil _⟩
  refine ⟨?_, fun hMem => ?_⟩
  · have hUnderscore : (c == '_') = false := by
      rw [beq_eq_false_iff_ne]
      rintro rfl
      exact absurd hSpace (by decide)
    rw [isIdentChar, hAlphabetic, hNumeric, hUnderscore]
    rfl
  · rw [hOther c hMem] at hSpace
    cases hSpace

theorem isDigit_ascii {c : Char} (hDigit : c.isDigit = true) : c.toNat < 128 := by
  rw [Char.isDigit, Bool.and_eq_true, decide_eq_true_eq, decide_eq_true_eq] at hDigit
  have hHigh : c.toNat ≤ 57 := hDigit.2
  omega

/-- A separator is no digit, as digits go on with identifiers, -/
theorem Separator.not_digit {c : Char} (separator : Separator platform c) : c.isDigit = false := by
  have hIdent := separator.notIdent
  rw [isIdentChar, Bool.or_eq_false_iff, Bool.or_eq_false_iff] at hIdent
  by_contra hDigit
  rw [Bool.not_eq_false] at hDigit
  rw [platform.isNumeric_ascii c (isDigit_ascii hDigit), hDigit] at hIdent
  exact absurd hIdent.1.2 (by decide)

/-- and no exponent sign of a number. -/
theorem Separator.not_letter {c : Char} (separator : Separator platform c) : c ≠ 'e' ∧ c ≠ 'E' := by
  have hIdent := separator.notIdent
  constructor
  · rintro rfl
    rw [isIdentChar_ascii (by decide)] at hIdent
    exact absurd hIdent (by decide)
  · rintro rfl
    rw [isIdentChar_ascii (by decide)] at hIdent
    exact absurd hIdent (by decide)

section Spans

variable {α : Type} {test : α → Bool} {tail : List α}

/-- Characters are taken up to the same place when those after the text fail the test, -/
theorem takeWhile_append_follows (hTail : ∀ b, tail.head? = some b → test b = false)
    (text : List α) : (text ++ tail).takeWhile test = text.takeWhile test := by
  induction text with
  | nil =>
      cases tail with
      | nil => rfl
      | cons b rest => simp [hTail b rfl]
  | cons a text ih => simp only [List.cons_append, List.takeWhile_cons, ih]

/-- and the rest is what was left, with the text that follows. -/
theorem dropWhile_append_follows (hTail : ∀ b, tail.head? = some b → test b = false)
    (text : List α) : (text ++ tail).dropWhile test = text.dropWhile test ++ tail := by
  induction text with
  | nil =>
      cases tail with
      | nil => rfl
      | cons b rest => simp [hTail b rfl]
  | cons a text ih =>
      simp only [List.cons_append, List.dropWhile_cons, ih]
      split <;> rfl

end Spans

variable {tail : List Char}

/-- The exponent of a number ends where what follows is no digit: a sign alone is not taken. -/
theorem splitExponent_append (hTail : Follows platform tail) (text : List Char) :
    splitExponent (text ++ tail) = ((splitExponent text).1, (splitExponent text).2 ++ tail) := by
  have hDigit : ∀ b, tail.head? = some b → b.isDigit = false := fun b hb => (hTail b hb).not_digit
  cases text with
  | nil =>
      cases tail with
      | nil => rfl
      | cons b rest =>
          obtain ⟨hLower, hUpper⟩ := (hTail b rfl).not_letter
          simp [splitExponent, hLower, hUpper]
  | cons c text =>
      by_cases hLetter : c = 'e' ∨ c = 'E'
      · cases text with
        | nil =>
            cases tail with
            | nil => simp
            | cons b rest =>
                have hOther := (hTail b rfl).notOther
                have hSign : ¬ (b = '+' ∨ b = '-') := by
                  rintro (rfl | rfl) <;> exact hOther (by decide)
                simp [splitExponent, hLetter, hSign, hDigit b rfl]
        | cons s more =>
            have hTake := takeWhile_append_follows hDigit more
            have hDrop := dropWhile_append_follows hDigit more
            have hTake' := takeWhile_append_follows hDigit (s :: more)
            have hDrop' := dropWhile_append_follows hDigit (s :: more)
            rw [List.cons_append] at hTake' hDrop'
            by_cases hSign : s = '+' ∨ s = '-'
            · simp only [List.cons_append, splitExponent, if_pos hLetter, if_pos hSign, hTake, hDrop]
            · simp only [List.cons_append, splitExponent, if_pos hLetter, if_neg hSign, hTake', hDrop']
      · simp [splitExponent, hLetter]

/-- So a number has the same parts before text that it does not go on with. A dot belongs to it only
when a digit follows. -/
theorem splitNumber_append (hTail : Follows platform tail) (text : List Char) :
    splitNumber (text ++ tail) = ((splitNumber text).1, (splitNumber text).2 ++ tail) := by
  have hDigit : ∀ b, tail.head? = some b → b.isDigit = false := fun b hb => (hTail b hb).not_digit
  have hTake := takeWhile_append_follows hDigit text
  have hDrop := dropWhile_append_follows hDigit text
  rw [splitNumber.eq_def, splitNumber.eq_def, hTake, hDrop]
  cases hRest : text.dropWhile Char.isDigit with
  | nil =>
      cases tail with
      | nil => simp
      | cons b rest =>
          have hPoint : b ≠ '.' := by
            rintro rfl
            exact (hTail _ rfl).notOther (by decide)
          have hExponent := splitExponent_append hTail []
          rw [List.nil_append] at hExponent
          simp [hPoint, hExponent]
  | cons c rest =>
      by_cases hPoint : c = '.'
      · subst hPoint
        simp only [List.cons_append, takeWhile_append_follows hDigit,
          dropWhile_append_follows hDigit, splitExponent_append hTail]
      · have hExponent := splitExponent_append hTail (c :: rest)
        rw [List.cons_append] at hExponent
        simp [hPoint, hExponent]

/-- So it is with an identifier, -/
theorem readIdent_append (hTail : Follows platform tail) (text : List Char) :
    readIdent platform (text ++ tail) =
      ((readIdent platform text).1, (readIdent platform text).2 ++ tail) := by
  have hIdent : ∀ b, tail.head? = some b → isIdentChar platform b = false :=
    fun b hb => (hTail b hb).notIdent
  rw [readIdent, readIdent, takeWhile_append_follows hIdent, dropWhile_append_follows hIdent]

/-- and with an operator of two characters, whose second one may not come from what follows. -/
theorem operators2_append (hTail : Follows platform tail) (c : Char) (text : List Char) :
    ((text ++ tail).head?.bind fun d => operators2.lookup (c, d)) =
      text.head?.bind fun d => operators2.lookup (c, d) := by
  cases text with
  | cons d rest => rfl
  | nil =>
      cases tail with
      | nil => rfl
      | cons b rest =>
          have hSecond : ∀ e ∈ operators2, e.1.2 ∈ ['.', '=', '/', '+', '-'] := by decide
          cases hLookup : operators2.lookup (c, b) with
          | none => exact hLookup
          | some token => exact absurd (hSecond _ (mem_of_lookup hLookup)) (hTail b rfl).notOther

/-- A quote begins a string. -/
theorem readToken_quote (text : List Char) :
    readToken total platform '"' text = readStringTokens total text := by
  have hOperator : (text.head?.bind fun d => operators2.lookup ('"', d)) = none := by
    refine Option.bind_eq_none_iff.mpr fun d _ => ?_
    have hFirst : ∀ e ∈ operators2, e.1.1 ≠ '"' := by decide
    cases hLookup : operators2.lookup ('"', d) with
    | none => rfl
    | some found => exact absurd rfl (hFirst _ (mem_of_lookup hLookup))
  rw [readToken, hOperator]
  rfl

/-- The tokens of a string are the same before any text, whatever the bound on its length. -/
theorem readStringTokens_append {text rest : List Char} {batch : List Token}
    (hRead : readStringTokens total text = .ok (batch, rest)) (total' : Nat) (tail : List Char) :
    readStringTokens total' (text ++ tail) = .ok (batch, rest ++ tail) := by
  rw [readStringTokens] at hRead ⊢
  obtain ⟨found, hFound, hRead⟩ := bind_eq_ok hRead
  cases hRead
  have hReads := (readsString_of_readString _ _ _ hFound).append tail
  rw [hReads.readString _ (Nat.lt_succ_self _)]
  rfl

/-- The token of a number is the same before text that it does not go on with. -/
theorem readNumber_append (hTail : Follows platform tail) {text rest : List Char} {token : Token}
    (hRead : readNumber total text = .ok (token, rest)) (total' : Nat) :
    readNumber total' (text ++ tail) = .ok (token, rest ++ tail) := by
  rw [readNumber] at hRead ⊢
  rw [splitNumber_append hTail]
  cases hValue : (splitNumber text).1.value? with
  | none => simp [hValue] at hRead
  | some value =>
      simp only [hValue, Except.ok.injEq, Prod.mk.injEq] at hRead ⊢
      exact ⟨hRead.1, by rw [hRead.2]⟩

/-- A batch of tokens is the same before text that the last token does not go on with. -/
theorem readToken_append (hTail : Follows platform tail) {c : Char} {text rest : List Char}
    {batch : List Token} (hRead : readToken total platform c text = .ok (batch, rest))
    (total' : Nat) : readToken total' platform c (text ++ tail) = .ok (batch, rest ++ tail) := by
  rw [readToken] at hRead ⊢
  rw [operators2_append hTail]
  cases hOperator : text.head?.bind fun d => operators2.lookup (c, d) with
  | some token =>
      rw [hOperator] at hRead
      cases hRead
      cases text with
      | nil => cases hOperator
      | cons d text => rfl
  | none =>
      rw [hOperator] at hRead
      simp only at hRead ⊢
      cases hSingle : singles.lookup c with
      | some token =>
          rw [hSingle] at hRead
          cases hRead
          rfl
      | none =>
          rw [hSingle] at hRead
          simp only at hRead ⊢
          by_cases hDollar : c = '$'
          · rw [if_pos hDollar] at hRead ⊢
            cases hRead
            rw [readIdent_append hTail]
          · rw [if_neg hDollar] at hRead ⊢
            by_cases hQuote : c = '"'
            · rw [if_pos hQuote] at hRead ⊢
              exact readStringTokens_append hRead total' tail
            · rw [if_neg hQuote] at hRead ⊢
              by_cases hDigit : '0' ≤ c ∧ c ≤ '9'
              · rw [if_pos hDigit] at hRead ⊢
                obtain ⟨found, hFound, hRead⟩ := bind_eq_ok hRead
                have hNumber := readNumber_append hTail hFound total'
                rw [List.cons_append] at hNumber
                cases hRead
                rw [hNumber]
                rfl
              · rw [if_neg hDigit] at hRead ⊢
                by_cases hLetter : platform.isAlphabetic c || c == '_'
                · rw [if_pos hLetter] at hRead ⊢
                  have hIdent := readIdent_append hTail (c :: text)
                  rw [List.cons_append] at hIdent
                  cases hRead
                  rw [hIdent]
                · rw [if_neg hLetter] at hRead
                  cases hRead

/-- The text of a number begins with its whole part. -/
theorem NumberText.text_eq (n : NumberText) : n.text = n.whole ++ ((if n.point then ['.'] else []) ++
    (n.fraction ++ NumberText.text ⟨[], false, [], n.exponent⟩)) := by
  rw [text, List.append_assoc, List.append_assoc]
  rfl

/-- The parts of a number are the text that is read. -/
theorem splitExponent_text (text : List Char) :
    NumberText.text ⟨[], false, [], (splitExponent text).1⟩ ++ (splitExponent text).2 = text := by
  cases text with
  | nil => rfl
  | cons c rest =>
      rw [splitExponent.eq_def]
      simp only
      split_ifs
      · cases rest with
        | nil => rfl
        | cons s more =>
            simp only
            split_ifs
            · simp [NumberText.text]
            · have hDigits := List.takeWhile_append_dropWhile (p := Char.isDigit) (l := s :: more)
              simp [NumberText.text, hDigits]
      · rfl

/-- The parts of a number and what is left are the whole text. -/
theorem splitNumber_text (text : List Char) : (splitNumber text).1.text ++ (splitNumber text).2 = text := by
  have hWhole := List.takeWhile_append_dropWhile (p := Char.isDigit) (l := text)
  rw [NumberText.text_eq, List.append_assoc, List.append_assoc, List.append_assoc, splitNumber.eq_def]
  split
  · rename_i rest hRest
    have hFraction := List.takeWhile_append_dropWhile (p := Char.isDigit) (l := rest)
    rw [hRest] at hWhole
    simp only [splitExponent_text, hFraction]
    exact hWhole
  · simp only [splitExponent_text]
    exact hWhole

/-- The digits are the characters between zero and nine. -/
theorem isDigit_iff (c : Char) : c.isDigit = true ↔ '0' ≤ c ∧ c ≤ '9' := by
  rw [Char.isDigit, Bool.and_eq_true, decide_eq_true_eq, decide_eq_true_eq]
  exact Iff.rfl

/-- A number takes the digit that it begins with. -/
theorem splitNumber_suffix {c : Char} {text : List Char} (hDigit : c.isDigit = true) :
    (splitNumber (c :: text)).2 <:+ text := by
  have hText := splitNumber_text (c :: text)
  have hWhole : (splitNumber (c :: text)).1.whole = c :: text.takeWhile Char.isDigit := by
    rw [splitNumber.eq_def]
    split <;> simp [hDigit]
  rw [NumberText.text_eq, hWhole, List.cons_append, List.cons_append] at hText
  exact ⟨_, (List.cons.inj hText).2⟩

/-- What is left after a token stands at the end of the text, -/
theorem readToken_suffix {c : Char} {text rest : List Char} {batch : List Token}
    (hRead : readToken total platform c text = .ok (batch, rest)) : rest <:+ text := by
  rw [readToken] at hRead
  cases hOperator : text.head?.bind fun d => operators2.lookup (c, d) with
  | some token =>
      rw [hOperator] at hRead
      cases hRead
      exact List.tail_suffix text
  | none =>
      rw [hOperator] at hRead
      simp only at hRead
      cases hSingle : singles.lookup c with
      | some token =>
          rw [hSingle] at hRead
          cases hRead
          exact List.suffix_rfl
      | none =>
          rw [hSingle] at hRead
          simp only at hRead
          split_ifs at hRead with hDollar hQuote hDigit hLetter
          · cases hRead
            exact List.dropWhile_suffix _
          · rw [readStringTokens] at hRead
            obtain ⟨found, hFound, hRead⟩ := bind_eq_ok hRead
            cases hRead
            exact (readsString_of_readString _ _ _ hFound).suffix
          · obtain ⟨found, hFound, hRead⟩ := bind_eq_ok hRead
            cases hRead
            have hRest : found.2 = (splitNumber (c :: text)).2 := by
              rw [readNumber] at hFound
              cases hValue : (splitNumber (c :: text)).1.value? with
              | none => simp [hValue] at hFound
              | some value =>
                  simp only [hValue, Except.ok.injEq] at hFound
                  rw [← hFound]
            rw [hRest]
            exact splitNumber_suffix ((isDigit_iff c).mpr hDigit)
          · cases hRead
            have hIdent : isIdentChar platform c = true := by
              rw [isIdentChar]
              rw [Bool.or_eq_true] at hLetter
              rcases hLetter with h | h <;> simp [h]
            show (c :: text).dropWhile _ <:+ text
            rw [List.dropWhile_cons_of_pos hIdent]
            exact List.dropWhile_suffix _

/-- so it is no longer: the first character has been taken. -/
theorem length_readToken_le {c : Char} {text rest : List Char} {batch : List Token}
    (hRead : readToken total platform c text = .ok (batch, rest)) : rest.length ≤ text.length :=
  (readToken_suffix hRead).length_le

end Composition

end Jq
end OwsRuntime
