import OwsRuntime.Expressions.Lexing

/-! The lexer as steps from one text to the next, and the steps for each kind of token. -/
namespace OwsRuntime
namespace Jq

section Steps

/-- The lexer gets from one text to another, with some tokens. -/
inductive Lexes (platform : Platform) : List Char → List Token → List Char → Prop where
  | done {text : List Char} : Lexes platform text [] text
  | blank {c : Char} {text last : List Char} {tokens : List Token}
      (hSpace : JqEngine.isWhitespace c = true) (tail : Lexes platform text tokens last) :
      Lexes platform (c :: text) tokens last
  | comment {body text last : List Char} {tokens : List Token} (hBody : '\n' ∉ body)
      (tail : Lexes platform ('\n' :: text) tokens last) :
      Lexes platform ('#' :: (body ++ '\n' :: text)) tokens last
  | batch {c : Char} {text rest last : List Char} {batch tokens : List Token}
      (hSpace : JqEngine.isWhitespace c = false) (hComment : c ≠ '#')
      (hRead : ∀ total, readToken total platform c text = .ok (batch, rest))
      (tail : Lexes platform rest tokens last) : Lexes platform (c :: text) (batch ++ tokens) last

/-- Text without a token, up to the end of the input. -/
def Finished (text : List Char) : Prop := text = [] ∨ ∃ body, text = '#' :: body ∧ '\n' ∉ body

variable {platform : Platform} {total : Nat}

theorem Lexes.trans {text middle last : List Char} {tokens more : List Token}
    (first : Lexes platform text tokens middle) (second : Lexes platform middle more last) :
    Lexes platform text (tokens ++ more) last := by
  induction first with
  | done => exact second
  | blank hSpace _ ih => exact .blank hSpace (ih second)
  | comment hBody _ ih => exact .comment hBody (ih second)
  | batch hSpace hComment hRead _ ih =>
      rw [List.append_assoc]
      exact .batch hSpace hComment hRead (ih second)

theorem Lexes.append {text last : List Char} {tokens : List Token}
    (lexes : Lexes platform text tokens last) {tail : List Char} (hTail : Follows platform tail) :
    Lexes platform (text ++ tail) tokens (last ++ tail) := by
  induction lexes with
  | done => exact .done
  | blank hSpace _ ih => exact .blank hSpace ih
  | @comment body text last tokens hBody _ ih =>
      have hText : ('#' :: (body ++ '\n' :: text)) ++ tail = '#' :: (body ++ '\n' :: (text ++ tail)) := by
        simp
      rw [hText]
      exact .comment hBody ih
  | batch hSpace hComment hRead _ ih =>
      exact .batch hSpace hComment (fun total => readToken_append hTail (hRead 0) total) ih

/-- A line feed ends a comment. -/
theorem Lexes.of_finished {text last rest : List Char} {tokens : List Token} (hText : Finished text)
    (lexes : Lexes platform rest tokens last) : Lexes platform (text ++ '\n' :: rest) tokens last := by
  have hLine : Lexes platform ('\n' :: rest) tokens last := .blank (by decide) lexes
  rcases hText with rfl | ⟨body, rfl, hBody⟩
  · exact hLine
  · exact .comment hBody hLine

theorem skipBlank_comment {body : List Char} (hBody : '\n' ∉ body) (text : List Char) :
    skipBlank true (body ++ '\n' :: text) = skipBlank false text := by
  induction body with
  | nil => exact if_pos rfl
  | cons c body ih =>
      rw [List.mem_cons, not_or] at hBody
      rw [List.cons_append, skipBlank, if_neg (Ne.symm hBody.1)]
      exact ih hBody.2

theorem skipBlank_finished {text : List Char} (hText : Finished text) : skipBlank false text = [] := by
  have hComment : ∀ body : List Char, '\n' ∉ body → skipBlank true body = [] := by
    intro body hBody
    induction body with
    | nil => rfl
    | cons c body ih =>
        rw [List.mem_cons, not_or] at hBody
        rw [skipBlank, if_neg (Ne.symm hBody.1)]
        exact ih hBody.2
  rcases hText with rfl | ⟨body, rfl, hBody⟩
  · rfl
  · exact hComment body hBody

/-- After blanks and comments there is nothing more, or a character that begins a token. The
recursion is that of the skipping. -/
theorem skipBlank_lexes : ∀ text : List Char, (∃ last, Lexes platform text [] last ∧ Finished last ∧
      skipBlank false text = []) ∨
    ∃ c rest, Lexes platform text [] (c :: rest) ∧ skipBlank false text = c :: rest ∧
      JqEngine.isWhitespace c = false ∧ c ≠ '#' := by
  intro text
  induction hLength : text.length using Nat.strong_induction_on generalizing text with
  | _ n ih =>
      cases text with
      | nil => exact Or.inl ⟨[], .done, Or.inl rfl, rfl⟩
      | cons c text =>
          by_cases hSpace : JqEngine.isWhitespace c = true
          · have hSkip : skipBlank false (c :: text) = skipBlank false text := by
              rw [skipBlank, if_pos hSpace]
            rw [hSkip]
            rcases ih text.length (by rw [← hLength]; simp) text rfl with
              ⟨last, hLexes, hLast, hNil⟩ | ⟨d, rest, hLexes, hCons, hBlank⟩
            · exact Or.inl ⟨last, .blank hSpace hLexes, hLast, hNil⟩
            · exact Or.inr ⟨d, rest, .blank hSpace hLexes, hCons, hBlank⟩
          · by_cases hComment : c = '#'
            · subst hComment
              by_cases hLine : '\n' ∈ text
              · obtain ⟨body, rest, rfl, hBody⟩ := List.eq_append_cons_of_mem hLine
                have hSkip : skipBlank false ('#' :: (body ++ '\n' :: rest)) = skipBlank false rest := by
                  rw [skipBlank, if_neg hSpace, if_pos rfl, skipBlank_comment hBody]
                rw [hSkip]
                have hShorter : rest.length < n := by
                  rw [← hLength]
                  simp
                  omega
                rcases ih rest.length hShorter rest rfl with
                  ⟨last, hLexes, hLast, hNil⟩ | ⟨d, more, hLexes, hCons, hBlank⟩
                · exact Or.inl ⟨last, .comment hBody (.blank (by decide) hLexes), hLast, hNil⟩
                · exact Or.inr ⟨d, more, .comment hBody (.blank (by decide) hLexes), hCons, hBlank⟩
              · have hFinished : Finished ('#' :: text) := Or.inr ⟨text, rfl, hLine⟩
                exact Or.inl ⟨_, .done, hFinished, skipBlank_finished hFinished⟩
            · refine Or.inr ⟨c, text, .done, ?_, by simpa using hSpace, hComment⟩
              rw [skipBlank, if_neg hSpace, if_neg hComment]

theorem Lexes.of_nil {text middle last : List Char} {tokens : List Token}
    (first : Lexes platform text [] middle) (second : Lexes platform middle tokens last) :
    Lexes platform text tokens last := first.trans second

/-- The tokens of a text come from steps of the lexer up to the end of the input, or to a comment
that goes on to it. The induction is on the rounds. -/
theorem lexes_of_tokenizeFrom : ∀ (fuel : Nat) (text : List Char) {tokens : List Token},
    tokenizeFrom total platform fuel text = .ok (tokens ++ [.eof]) → NoEof tokens →
      ∃ last, Lexes platform text tokens last ∧ Finished last
  | 0, _, _, hTokens, _ => by cases hTokens
  | fuel + 1, text, tokens, hTokens, hNoEof => by
      rw [tokenizeFrom, nextTokens] at hTokens
      rcases @skipBlank_lexes platform text with
        ⟨last, hLexes, hLast, hSkip⟩ | ⟨c, rest, hLexes, hSkip, hSpace, hComment⟩
      · rw [hSkip] at hTokens
        simp only [ok_bind, List.head?_cons, if_true] at hTokens
        have hNil : tokens = [] := by
          have hEqual : [Token.eof] = tokens ++ [.eof] := Except.ok.inj hTokens
          cases tokens with
          | nil => rfl
          | cons t tokens => simp at hEqual
        subst hNil
        exact ⟨last, hLexes, hLast⟩
      · rw [hSkip] at hTokens
        obtain ⟨⟨batch, more⟩, hBatch, hTokens⟩ := bind_eq_ok hTokens
        obtain ⟨hNonempty, hBatchEof⟩ := readToken_batch hBatch
        obtain ⟨first, others, rfl⟩ := List.exists_cons_of_ne_nil hNonempty
        have hFirst : first ≠ .eof := hBatchEof first List.mem_cons_self
        simp only [List.head?_cons, Option.some.injEq, if_neg hFirst] at hTokens
        obtain ⟨later, hLater, hTokens⟩ := bind_eq_ok hTokens
        obtain ⟨front, rfl, hFront⟩ := tokenizeFrom_shape fuel more hLater
        have hEqual : tokens = first :: others ++ front := by
          have hEqual : first :: others ++ (front ++ [.eof]) = tokens ++ [.eof] := Except.ok.inj hTokens
          rw [← List.append_assoc] at hEqual
          exact (List.append_cancel_right hEqual).symm
        obtain ⟨last, hTail, hLast⟩ := lexes_of_tokenizeFrom fuel more hLater hFront
        have hRead : ∀ total', readToken total' platform c rest = .ok (first :: others, more) := by
          intro total'
          have hNil : Follows platform [] := follows_nil
          have hAppend := readToken_append hNil hBatch total'
          rw [List.append_nil, List.append_nil] at hAppend
          exact hAppend
        subst hEqual
        exact ⟨last, hLexes.of_nil (.batch hSpace hComment hRead hTail), hLast⟩

/-- Steps of the lexer up to a finished text are what the lexer does, when it has more rounds than
the text has characters. The induction is on the steps. -/
theorem Lexes.tokenizeFrom {text last : List Char} {tokens : List Token}
    (lexes : Lexes platform text tokens last) (hLast : Finished last) : ∀ fuel, text.length < fuel →
      Jq.tokenizeFrom total platform fuel text = .ok (tokens ++ [.eof]) := by
  induction lexes with
  | done =>
      intro fuel hFuel
      obtain ⟨fuel, rfl⟩ : ∃ k, fuel = k + 1 := ⟨fuel - 1, by omega⟩
      rw [Jq.tokenizeFrom, nextTokens, skipBlank_finished hLast]
      rfl
  | @blank c text last tokens hSpace _ ih =>
      intro fuel hFuel
      obtain ⟨fuel, rfl⟩ : ∃ k, fuel = k + 1 := ⟨fuel - 1, by omega⟩
      have hSkip : skipBlank false (c :: text) = skipBlank false text := by
        rw [skipBlank, if_pos hSpace]
      rw [← ih hLast (fuel + 1) (by simp at hFuel; omega), Jq.tokenizeFrom, Jq.tokenizeFrom,
        nextTokens, nextTokens, hSkip]
  | @comment body text last tokens hBody _ ih =>
      intro fuel hFuel
      obtain ⟨fuel, rfl⟩ : ∃ k, fuel = k + 1 := ⟨fuel - 1, by omega⟩
      have hSkip : skipBlank false ('#' :: (body ++ '\n' :: text)) = skipBlank false ('\n' :: text) := by
        rw [skipBlank, if_neg (by decide), if_pos rfl, skipBlank_comment hBody]
        rfl
      rw [← ih hLast (fuel + 1) (by simp at hFuel ⊢; omega), Jq.tokenizeFrom, Jq.tokenizeFrom,
        nextTokens, nextTokens, hSkip]
  | @batch c text rest last batch tokens hSpace hComment hRead _ ih =>
      intro fuel hFuel
      obtain ⟨fuel, rfl⟩ : ∃ k, fuel = k + 1 := ⟨fuel - 1, by omega⟩
      have hSkip : skipBlank false (c :: text) = c :: text := by
        rw [skipBlank, if_neg (by simp [hSpace]), if_neg hComment]
      obtain ⟨hNonempty, hBatchEof⟩ := readToken_batch (hRead total)
      obtain ⟨first, others, rfl⟩ := List.exists_cons_of_ne_nil hNonempty
      have hFirst : first ≠ .eof := hBatchEof first List.mem_cons_self
      have hRest := length_readToken_le (hRead total)
      rw [Jq.tokenizeFrom, nextTokens, hSkip]
      simp only [hRead total, ok_bind, List.head?_cons, Option.some.injEq, if_neg hFirst]
      rw [ih hLast fuel (by simp at hFuel; omega), List.append_assoc]
      rfl

theorem Lexes.unique {text last last' : List Char} {tokens tokens' : List Token}
    (first : Lexes platform text tokens last) (hLast : Finished last)
    (second : Lexes platform text tokens' last') (hLast' : Finished last') : tokens = tokens' := by
  have hFirst : Jq.tokenizeFrom 0 platform (text.length + 1) text = .ok (tokens ++ [.eof]) :=
    first.tokenizeFrom hLast _ (Nat.lt_succ_self _)
  have hSecond : Jq.tokenizeFrom 0 platform (text.length + 1) text = .ok (tokens' ++ [.eof]) :=
    second.tokenizeFrom hLast' _ (Nat.lt_succ_self _)
  exact List.append_cancel_right (Except.ok.inj (hFirst.symm.trans hSecond))

/-- The tokens of a source, up to the end of the input. -/
theorem tokenize_eq_ok_iff {source : String} {tokens : List Token} (hTokens : NoEof tokens) :
    tokenize platform source = .ok (tokens ++ [.eof]) ↔
      ∃ last, Lexes platform source.toList tokens last ∧ Finished last := by
  constructor
  · intro hTokenize
    exact lexes_of_tokenizeFrom _ _ hTokenize hTokens
  · intro ⟨last, hLexes, hLast⟩
    exact hLexes.tokenizeFrom hLast _ (by rw [String.length_toList]; omega)

theorem Lexes.skipBlank {text last : List Char} (lexes : Lexes platform text [] last) :
    Jq.skipBlank false text = Jq.skipBlank false last := by
  generalize hTokens : ([] : List Token) = tokens at lexes
  induction lexes with
  | done => rfl
  | blank hSpace _ ih =>
      rw [Jq.skipBlank, if_pos hSpace]
      exact ih hTokens
  | comment hBody _ ih =>
      rw [Jq.skipBlank, if_neg (by decide), if_pos rfl, skipBlank_comment hBody, ← ih hTokens]
      rfl
  | batch _ _ hRead _ _ =>
      have hNonempty := (readToken_batch (hRead 0)).1
      exact absurd (List.append_eq_nil_iff.mp hTokens.symm).1 hNonempty

/-- Finished text that is not empty is a comment up to the end of the input. -/
theorem Finished.comment {c : Char} {rest : List Char} (finished : Finished (c :: rest)) :
    c = '#' ∧ '\n' ∉ rest := by
  rcases finished with h | ⟨body, h, hBody⟩
  · cases h
  · injection h with hHead hTail
    subst hHead hTail
    exact ⟨rfl, hBody⟩

/-- A comment goes on to the first end of a line, so the text after it is determined. -/
theorem eq_of_comment {body text body' text' : List Char} (hBody : '\n' ∉ body)
    (hBody' : '\n' ∉ body') (hText : body ++ '\n' :: text = body' ++ '\n' :: text') :
    text = text' := by
  have hSkip : ∀ (b rest : List Char), '\n' ∉ b →
      (b ++ '\n' :: rest).dropWhile (· ≠ '\n') = '\n' :: rest := by
    intro b rest hb
    induction b with
    | nil => rfl
    | cons x b ihb =>
        rw [List.mem_cons, not_or] at hb
        rw [List.cons_append, List.dropWhile_cons_of_pos (by simpa using Ne.symm hb.1)]
        exact ihb hb.2
  have hDrop := congrArg (List.dropWhile (· ≠ '\n')) hText
  rw [hSkip body text hBody, hSkip body' text' hBody'] at hDrop
  injection hDrop

/-- The lexer takes one way only: what it does up to the end, it does up to the middle first. -/
theorem Lexes.split {text middle last : List Char} {tokens all : List Token}
    (first : Lexes platform text tokens middle) (whole : Lexes platform text all last)
    (hLast : Finished last) :
    ∃ more, all = tokens ++ more ∧ Lexes platform middle more last := by
  induction first generalizing all with
  | done => exact ⟨all, rfl, whole⟩
  | blank hSpace _ ih =>
      cases whole with
      | done =>
          rw [hLast.comment.1] at hSpace
          exact absurd hSpace (by decide)
      | blank _ tail => exact ih tail
      | comment _ _ => exact absurd hSpace (by decide)
      | batch hOther => rw [hSpace] at hOther; cases hOther
  | @comment body text last' tokens hBody _ ih =>
      generalize hText : '#' :: (body ++ '\n' :: text) = source at whole
      cases whole with
      | done =>
          subst hText
          exact absurd (List.mem_append_right _ List.mem_cons_self) hLast.comment.2
      | blank hSpace _ =>
          injection hText with hHead
          rw [← hHead] at hSpace
          exact absurd hSpace (by decide)
      | @comment body' text' _ _ hBody' tail =>
          injection hText with _ hText
          obtain rfl := eq_of_comment hBody hBody' hText
          exact ih tail
      | batch _ hComment _ _ =>
          injection hText with hHead
          exact absurd hHead.symm hComment
  | @batch c text rest last' batch tokens hSpace hComment hRead _ ih =>
      generalize hText : c :: text = source at whole
      cases whole with
      | done =>
          subst hText
          exact absurd hLast.comment.1 hComment
      | blank hOther _ =>
          injection hText with hHead
          rw [← hHead, hSpace] at hOther
          cases hOther
      | comment _ _ =>
          injection hText with hHead
          exact absurd hHead hComment
      | batch _ _ hRead' tail =>
          injection hText with hHead hTail
          subst hHead hTail
          have hSame := (hRead 0).symm.trans (hRead' 0)
          cases hSame
          obtain ⟨more, rfl, hMore⟩ := ih tail
          exact ⟨more, (List.append_assoc _ _ _).symm, hMore⟩

end Steps

section Tokens

variable {platform : Platform} {rest : List Char} {token : Token}

theorem Lexes.one {c : Char} {text : List Char} {tokens : List Token}
    (hSpace : JqEngine.isWhitespace c = false) (hComment : c ≠ '#')
    (hRead : ∀ total, readToken total platform c text = .ok (tokens, rest)) :
    Lexes platform (c :: text) tokens rest := by
  have hLexes := Lexes.batch hSpace hComment hRead .done
  rwa [List.append_nil] at hLexes

/-- A token of one character, where it does not begin a longer one. -/
theorem Lexes.single {c : Char} (hSingle : singles.lookup c = some token)
    (hAlone : ∀ d, rest.head? = some d → operators2.lookup (c, d) = none) :
    Lexes platform (c :: rest) [token] rest := by
  have hPlain : ∀ e ∈ singles, JqEngine.isWhitespace e.1 = false ∧ e.1 ≠ '#' := by decide
  obtain ⟨hSpace, hComment⟩ := hPlain _ (mem_of_lookup hSingle)
  refine Lexes.one hSpace hComment fun total => ?_
  have hOperator : (rest.head?.bind fun d => operators2.lookup (c, d)) = none :=
    Option.bind_eq_none_iff.mpr hAlone
  rw [readToken, hOperator]
  simp only [hSingle]

/-- A token of two characters. -/
theorem Lexes.double {c d : Char} (hOperator : operators2.lookup (c, d) = some token) :
    Lexes platform (c :: d :: rest) [token] rest := by
  have hPlain : ∀ e ∈ operators2, JqEngine.isWhitespace e.1.1 = false ∧ e.1.1 ≠ '#' := by decide
  obtain ⟨hSpace, hComment⟩ := hPlain _ (mem_of_lookup hOperator)
  refine Lexes.one hSpace hComment fun total => ?_
  have hFirst : ((d :: rest).head?.bind fun d => operators2.lookup (c, d)) = some token := hOperator
  rw [readToken, hFirst]
  rfl

/-- A character that begins a token of one character only. -/
theorem Lexes.symbol {c : Char} (hSingle : singles.lookup c = some token)
    (hAlone : c ∉ ['.', '=', '!', '<', '>', '/']) : Lexes platform (c :: rest) [token] rest := by
  refine Lexes.single hSingle fun d _ => ?_
  have hFirst : ∀ e ∈ operators2, e.1.1 ∈ ['.', '=', '!', '<', '>', '/'] := by decide
  cases hLookup : operators2.lookup (c, d) with
  | none => rfl
  | some found => exact absurd (hFirst _ (mem_of_lookup hLookup)) hAlone

/-- A character that an identifier begins with. -/
def isIdentStart (platform : Platform) (c : Char) : Bool := platform.isAlphabetic c || c == '_'

theorem isIdentStart_ascii {c : Char} (hAscii : c.toNat < 128) :
    isIdentStart platform c = (c.isAlpha || c == '_') := by
  rw [isIdentStart, platform.isAlphabetic_ascii c hAscii]

theorem isIdentChar_of_start {c : Char} (hStart : isIdentStart platform c = true) :
    isIdentChar platform c = true := by
  rw [isIdentStart, Bool.or_eq_true] at hStart
  rw [isIdentChar]
  rcases hStart with h | h <;> simp [h]

theorem isIdentChar_of_digit {c : Char} (hDigit : c.isDigit = true) :
    isIdentChar platform c = true := by
  rw [isIdentChar_ascii (isDigit_ascii hDigit), hDigit]
  simp

/-- A character of identifiers is none of an ASCII character that is not. -/
theorem ne_of_isIdentChar {c d : Char} (hChar : isIdentChar platform c = true)
    (hOther : d.toNat < 128 ∧ (d.isAlpha || d.isDigit || d == '_') = false) : c ≠ d := by
  rintro rfl
  rw [isIdentChar_ascii hOther.1, hOther.2] at hChar
  cases hChar

/-- The characters of identifiers begin no symbols, variables, strings or comments. -/
theorem ident_plain {c : Char} (hChar : isIdentChar platform c = true) :
    c ∉ ['#', '$', '"'] ∧ singles.lookup c = none ∧ ∀ d, operators2.lookup (c, d) = none := by
  refine ⟨?_, ?_, fun d => ?_⟩
  · simp only [List.mem_cons, List.not_mem_nil, or_false, not_or]
    exact ⟨ne_of_isIdentChar hChar (by decide), ne_of_isIdentChar hChar (by decide),
      ne_of_isIdentChar hChar (by decide)⟩
  · have hKeys : ∀ e ∈ singles,
        e.1.toNat < 128 ∧ (e.1.isAlpha || e.1.isDigit || e.1 == '_') = false := by decide
    cases hLookup : singles.lookup c with
    | none => rfl
    | some found => exact absurd rfl (ne_of_isIdentChar hChar (hKeys _ (mem_of_lookup hLookup)))
  · have hKeys : ∀ e ∈ operators2,
        e.1.1.toNat < 128 ∧ (e.1.1.isAlpha || e.1.1.isDigit || e.1.1 == '_') = false := by decide
    cases hLookup : operators2.lookup (c, d) with
    | none => rfl
    | some found => exact absurd rfl (ne_of_isIdentChar hChar (hKeys _ (mem_of_lookup hLookup)))

theorem not_digit_of_start {c : Char} (hStart : isIdentStart platform c = true) :
    ¬ ('0' ≤ c ∧ c ≤ '9') := by
  intro hRange
  have hLow : 48 ≤ c.toNat := UInt32.le_iff_toNat_le.mp hRange.1
  have hHigh : c.toNat ≤ 57 := UInt32.le_iff_toNat_le.mp hRange.2
  have hAll : ∀ n < 58, 48 ≤ n →
      ((Char.ofNat n).isAlpha || Char.ofNat n == '_') = false := by decide
  have hOwn := hAll c.toNat (by omega) hLow
  rw [Char.ofNat_toNat] at hOwn
  rw [isIdentStart_ascii (by omega), hOwn] at hStart
  cases hStart

/-- What an identifier begins with is no character of other tokens. -/
theorem start_plain {c : Char} (hStart : isIdentStart platform c = true) :
    JqEngine.isWhitespace c = false ∧ c ∉ ['#', '$', '"'] ∧ singles.lookup c = none ∧
      (∀ d, operators2.lookup (c, d) = none) ∧ ¬ ('0' ≤ c ∧ c ≤ '9') := by
  obtain ⟨hOther, hSingle, hOperator⟩ := ident_plain (isIdentChar_of_start hStart)
  refine ⟨?_, hOther, hSingle, hOperator, not_digit_of_start hStart⟩
  by_contra hSpace
  rw [Bool.not_eq_false] at hSpace
  have hLetter := (platform.not_whitespace c hSpace).1
  rw [isIdentStart, hLetter, Bool.false_or, beq_iff_eq] at hStart
  subst hStart
  exact absurd hSpace (by decide)

/-- What an identifier begins with is not the second character of an operator. -/
theorem lookup_start {c d : Char} (hStart : isIdentStart platform d = true) :
    operators2.lookup (c, d) = none := by
  have hKeys : ∀ e ∈ operators2, e.1.2.toNat < 128 ∧
      (e.1.2.isAlpha || e.1.2.isDigit || e.1.2 == '_') = false := by decide
  cases hLookup : operators2.lookup (c, d) with
  | none => rfl
  | some found =>
      exact absurd rfl (ne_of_isIdentChar (isIdentChar_of_start hStart)
        (hKeys _ (mem_of_lookup hLookup)))

/-- What a number begins with is no character of other tokens. -/
theorem digit_plain (platform : Platform) {c : Char} (hDigit : c.isDigit = true) :
    JqEngine.isWhitespace c = false ∧ c ∉ ['#', '$', '"'] ∧ singles.lookup c = none ∧
      ∀ d, operators2.lookup (c, d) = none := by
  refine ⟨?_, @ident_plain platform c (isIdentChar_of_digit hDigit)⟩
  have hRange := (isDigit_iff c).mp hDigit
  have hLow : 48 ≤ c.toNat := UInt32.le_iff_toNat_le.mp hRange.1
  have hHigh : c.toNat ≤ 57 := UInt32.le_iff_toNat_le.mp hRange.2
  have hAll : ∀ n < 58, 48 ≤ n → JqEngine.isWhitespace (Char.ofNat n) = false := by decide
  have hOwn := hAll c.toNat (by omega) hLow
  rwa [Char.ofNat_toNat] at hOwn

/-- A number, up to what the lexer leaves of it. -/
theorem Lexes.number {c : Char} {text : List Char} (hDigit : c.isDigit = true)
    (hRead : ∀ total, readNumber total (c :: text) = .ok (token, rest)) :
    Lexes platform (c :: text) [token] rest := by
  obtain ⟨hSpace, hOther, hSingle, hOperator⟩ := digit_plain platform hDigit
  simp only [List.mem_cons, List.not_mem_nil, or_false, not_or] at hOther
  refine Lexes.one hSpace hOther.1 fun total => ?_
  have hNone : (text.head?.bind fun d => operators2.lookup (c, d)) = none :=
    Option.bind_eq_none_iff.mpr fun d _ => hOperator d
  rw [readToken, hNone]
  simp only [hSingle, if_neg hOther.2.1, if_neg hOther.2.2, if_pos ((isDigit_iff c).mp hDigit), hRead]
  rfl

theorem splitExponent_subset {c : Char} : ∀ text : List Char, c ∈ (splitExponent text).2 → c ∈ text
  | [], hMem => hMem
  | d :: rest, hMem => by
      rw [splitExponent.eq_def] at hMem
      simp only at hMem
      split_ifs at hMem
      · cases rest with
        | nil => cases hMem
        | cons s more =>
            simp only at hMem
            split_ifs at hMem
            · exact .tail d (.tail s (List.dropWhile_subset _ hMem))
            · exact .tail d (List.dropWhile_subset _ hMem)
      · exact hMem

/-- A character of identifiers begins a number when it is a digit, and a word otherwise. -/
theorem readToken_ident {total : Nat} {c : Char} {text : List Char} {batch : List Token}
    (hChar : isIdentChar platform c = true)
    (hRead : readToken total platform c text = .ok (batch, rest)) :
    (∃ v, batch = [.number v] ∧ rest = (splitNumber (c :: text)).2) ∨
      ¬ ('0' ≤ c ∧ c ≤ '9') ∧ ∃ name, batch = [.ident name] := by
  obtain ⟨hOther, hSingle, hOperator⟩ := ident_plain hChar
  simp only [List.mem_cons, List.not_mem_nil, or_false, not_or] at hOther
  have hNone : (text.head?.bind fun d => operators2.lookup (c, d)) = none :=
    Option.bind_eq_none_iff.mpr fun d _ => hOperator d
  rw [readToken, hNone] at hRead
  simp only [hSingle, if_neg hOther.2.1, if_neg hOther.2.2] at hRead
  split_ifs at hRead with hDigit
  · obtain ⟨⟨token, more⟩, hNumber, hRead⟩ := bind_eq_ok hRead
    cases hRead
    cases hValue : (splitNumber (c :: text)).1.value? with
    | none => simp [readNumber, hValue] at hNumber
    | some v =>
        simp only [readNumber, hValue] at hNumber
        cases hNumber
        exact Or.inl ⟨v, rfl, rfl⟩
  · cases hRead
    exact Or.inr ⟨hDigit, _, rfl⟩

/-- No access begins a text of characters of identifiers. -/
theorem Lexes.no_access {text last : List Char} {tokens : List Token}
    (lexes : Lexes platform text tokens last) (hText : ∀ c ∈ text, isIdentChar platform c = true) :
    ∀ t, tokens.head? = some t → t ≠ .dot ∧ t ≠ .lBracket := by
  induction lexes with
  | done => nofun
  | blank _ _ ih => exact ih (List.forall_mem_cons.mp hText).2
  | comment => exact absurd rfl (ne_of_isIdentChar (hText '#' List.mem_cons_self) (by decide))
  | batch _ _ hRead _ _ =>
      rintro t hHead
      rcases readToken_ident (hText _ List.mem_cons_self) (hRead 0) with ⟨v, rfl, _⟩ | ⟨_, name, rfl⟩
      · cases hHead
        exact ⟨nofun, nofun⟩
      · cases hHead
        exact ⟨nofun, nofun⟩

theorem takeWhile_of_all {α : Type} {test : α → Bool} {text tail : List α}
    (hText : ∀ a ∈ text, test a = true) (hTail : ∀ b, tail.head? = some b → test b = false) :
    (text ++ tail).takeWhile test = text ∧ (text ++ tail).dropWhile test = tail := by
  rw [takeWhile_append_follows hTail, dropWhile_append_follows hTail,
    List.takeWhile_eq_self_iff.mpr hText, List.dropWhile_eq_nil_iff.mpr hText, List.nil_append]
  exact ⟨rfl, rfl⟩

/-- An identifier, up to a character that is none of its own. -/
theorem Lexes.word {c : Char} {name : List Char} (hStart : isIdentStart platform c = true)
    (hName : ∀ d ∈ name, isIdentChar platform d = true)
    (hRest : ∀ b, rest.head? = some b → isIdentChar platform b = false) :
    Lexes platform (c :: (name ++ rest)) [.ident (String.ofList (c :: name))] rest := by
  obtain ⟨hSpace, hOther, hSingle, hOperator, hDigit⟩ := start_plain hStart
  simp only [List.mem_cons, List.not_mem_nil, or_false, not_or] at hOther
  refine Lexes.one hSpace hOther.1 fun total => ?_
  have hNone : ((name ++ rest).head?.bind fun d => operators2.lookup (c, d)) = none :=
    Option.bind_eq_none_iff.mpr fun d _ => hOperator d
  have hAll : ∀ d ∈ c :: name, isIdentChar platform d = true :=
    List.forall_mem_cons.mpr ⟨isIdentChar_of_start hStart, hName⟩
  obtain ⟨hTake, hDrop⟩ := takeWhile_of_all hAll hRest
  rw [List.cons_append] at hTake hDrop
  rw [readToken, hNone]
  have hLetter : (platform.isAlphabetic c || c == '_') = true := hStart
  simp only [hSingle, if_neg hOther.2.1, if_neg hOther.2.2, if_neg hDigit, if_pos hLetter]
  rw [readIdent, hTake, hDrop]

/-- A word in ASCII before a blank, or another character that is not part of it. -/
theorem Lexes.asciiWord {word : String} {c : Char} {name : List Char} (hWord : word.toList = c :: name)
    (hStart : c.toNat < 128 ∧ (c.isAlpha || c == '_') = true)
    (hName : name.all fun d => decide (d.toNat < 128) && (d.isAlpha || d.isDigit || d == '_'))
    (hRest : ∀ b, rest.head? = some b → isIdentChar platform b = false) :
    Lexes platform (word.toList ++ rest) [.ident word] rest := by
  have hFirst : isIdentStart platform c = true := by rw [isIdentStart_ascii hStart.1, hStart.2]
  have hOthers : ∀ d ∈ name, isIdentChar platform d = true := by
    intro d hd
    have hd := List.all_eq_true.mp hName d hd
    rw [Bool.and_eq_true, decide_eq_true_eq] at hd
    rw [isIdentChar_ascii hd.1, hd.2]
  have hLexes := Lexes.word hFirst hOthers hRest
  rwa [← hWord, String.ofList_toList, ← List.cons_append, ← hWord] at hLexes

/-- A space in front of a text. -/
theorem Lexes.space {text last : List Char} {tokens : List Token}
    (lexes : Lexes platform text tokens last) : Lexes platform (' ' :: text) tokens last :=
  .blank (by decide) lexes

theorem follows_space (tail : List Char) : Follows platform (' ' :: tail) :=
  follows_cons (.of_whitespace (by decide)) tail

theorem follows_newline (tail : List Char) : Follows platform ('\n' :: tail) :=
  follows_cons (.of_whitespace (by decide)) tail

end Tokens

end Jq
end OwsRuntime
