import OwsRuntime.Expressions.Depth

/-! Blanks around a source, which are no part of its tokens. -/
namespace OwsRuntime
namespace Jq

variable {platform : Platform} {total : Nat}

section Strings

variable {literal text literal' rest last : List Char} {tokens : List Token}

/-- A step reads a part of the text and leaves the rest, and it reads that part in front of any
other text too. -/
theorem StringStep.used (step : StringStep literal text tokens literal' rest) :
    ∃ used, text = used ++ rest ∧ ∀ tail, StringStep literal (used ++ tail) tokens literal' tail := by
  cases step with
  | @plain c _ hQuote hEscape => exact ⟨[c], rfl, fun _ => .plain hQuote hEscape⟩
  | @unescape c _ _ hParen hHex hPlain =>
      exact ⟨['\\', c], rfl, fun _ => .unescape hParen hHex hPlain⟩
  | @other c _ hParen hHex hPlain => exact ⟨['\\', c], rfl, fun _ => .other hParen hHex hPlain⟩
  | @hex digits _ _ hDigits hCode =>
      refine ⟨'\\' :: 'u' :: digits, rfl, fun tail => ?_⟩
      exact .hex hDigits hCode
  | @interp _ source _ hSource =>
      rw [readInterpSource_eq_split, Brackets.split_eq_some_iff (by decide)] at hSource
      obtain ⟨rfl, hBalanced⟩ := hSource
      refine ⟨'\\' :: '(' :: (source ++ [')']), by simp, fun tail => ?_⟩
      have hSource : readInterpSource 1 (source ++ ')' :: tail) = some (source, tail) := by
        rw [readInterpSource_eq_split]
        exact Brackets.split_balanced (by decide) hBalanced tail
      have hStep : StringStep literal ('\\' :: '(' :: (source ++ ')' :: tail))
          (flush literal ++ [.interp (String.ofList source)]) [] tail := .interp hSource
      simpa using hStep

theorem ReadsString.quote_mem (reads : ReadsString literal text tokens last) : '"' ∈ text := by
  induction reads with
  | quote => exact List.mem_cons_self
  | step step _ ih =>
      obtain ⟨used, rfl, _⟩ := step.used
      exact List.mem_append_right _ ih

/-- A string that is read ends before text without a quote, which stays behind it. The induction is
on the steps. -/
theorem ReadsString.of_append {whole tail : List Char} (hTail : '"' ∉ tail)
    (reads : ReadsString literal whole tokens last) : ∀ {text : List Char}, whole = text ++ tail →
      ∃ last', last = last' ++ tail ∧ ReadsString literal text tokens last' := by
  induction reads with
  | @quote literal rest =>
      intro text hWhole
      cases text with
      | nil =>
          rw [List.nil_append] at hWhole
          exact absurd (hWhole ▸ List.mem_cons_self) hTail
      | cons c text =>
          injection hWhole with hHead hRest
          subst hHead
          exact ⟨text, hRest, .quote⟩
  | @step literal whole literal' rest last tokens more step reads ih =>
      intro text hWhole
      obtain ⟨used, rfl, hStep⟩ := step.used
      rcases List.append_eq_append_iff.mp hWhole with ⟨left, rfl, hRest⟩ | ⟨short, rfl, hTail'⟩
      · obtain ⟨last', hLast, hReads⟩ := ih hRest
        exact ⟨last', hLast, .step (hStep left) hReads⟩
      · -- The step would end in the text without a quote.
        have hQuote : '"' ∈ tail := hTail' ▸ List.mem_append_right _ reads.quote_mem
        exact absurd hQuote hTail

end Strings

section Batches

variable {c : Char} {text rest tail : List Char} {batch : List Token}

/-- A batch of tokens ends before text without a quote that no token goes on with. -/
theorem readToken_of_append (hFollows : Follows platform tail) (hTail : '"' ∉ tail)
    (hRead : readToken total platform c (text ++ tail) = .ok (batch, rest)) (total' : Nat) :
    ∃ rest', rest = rest' ++ tail ∧ readToken total' platform c text = .ok (batch, rest') := by
  rw [readToken, operators2_append hFollows] at hRead
  rw [readToken]
  cases hOperator : text.head?.bind fun d => operators2.lookup (c, d) with
  | some token =>
      rw [hOperator] at hRead
      cases hRead
      cases text with
      | nil => cases hOperator
      | cons d text => exact ⟨text, rfl, rfl⟩
  | none =>
      rw [hOperator] at hRead
      simp only at hRead ⊢
      cases hSingle : singles.lookup c with
      | some token =>
          rw [hSingle] at hRead
          cases hRead
          exact ⟨text, rfl, rfl⟩
      | none =>
          rw [hSingle] at hRead
          simp only at hRead ⊢
          by_cases hDollar : c = '$'
          · rw [if_pos hDollar, readIdent_append hFollows] at hRead
            rw [if_pos hDollar]
            cases hRead
            exact ⟨_, rfl, rfl⟩
          · rw [if_neg hDollar] at hRead ⊢
            by_cases hQuote : c = '"'
            · rw [if_pos hQuote] at hRead ⊢
              rw [readStringTokens] at hRead ⊢
              obtain ⟨⟨tokens, last⟩, hFound, hRead⟩ := bind_eq_ok hRead
              cases hRead
              obtain ⟨last', rfl, hReads⟩ :=
                (readsString_of_readString _ _ _ hFound).of_append hTail rfl
              rw [hReads.readString _ (Nat.lt_succ_self _)]
              exact ⟨last', rfl, rfl⟩
            · rw [if_neg hQuote] at hRead ⊢
              by_cases hDigit : '0' ≤ c ∧ c ≤ '9'
              · rw [if_pos hDigit] at hRead ⊢
                obtain ⟨⟨token, last⟩, hFound, hRead⟩ := bind_eq_ok hRead
                cases hRead
                have hNumber := splitNumber_append hFollows (c :: text)
                rw [List.cons_append] at hNumber
                rw [readNumber, hNumber] at hFound
                rw [readNumber]
                cases hValue : (splitNumber (c :: text)).1.value? with
                | none => simp [hValue] at hFound
                | some value =>
                    simp only [hValue, Except.ok.injEq, Prod.mk.injEq] at hFound
                    obtain ⟨rfl, rfl⟩ := hFound
                    exact ⟨_, rfl, by simp only [hValue]; rfl⟩
              · rw [if_neg hDigit] at hRead ⊢
                by_cases hLetter : platform.isAlphabetic c || c == '_'
                · have hIdent := readIdent_append hFollows (c :: text)
                  rw [List.cons_append] at hIdent
                  rw [if_pos hLetter, hIdent] at hRead
                  rw [if_pos hLetter]
                  cases hRead
                  exact ⟨_, rfl, rfl⟩
                · rw [if_neg hLetter] at hRead
                  cases hRead

end Batches

section Blanks

variable {text tail last : List Char} {tokens : List Token}

theorem Lexes.of_blank (hText : ∀ c ∈ text, JqEngine.isWhitespace c = true)
    (lexes : Lexes platform text tokens last) : tokens = [] := by
  induction lexes with
  | done => rfl
  | blank _ _ ih => exact ih fun c hc => hText c (List.mem_cons_of_mem _ hc)
  | comment => exact absurd (hText _ List.mem_cons_self) (by decide)
  | batch hSpace =>
      rw [hText _ List.mem_cons_self] at hSpace
      cases hSpace

theorem Lexes.blanks (hText : ∀ c ∈ text, JqEngine.isWhitespace c = true) (rest : List Char) :
    Lexes platform (text ++ rest) [] rest := by
  induction text with
  | nil => exact .done
  | cons c text ih =>
      have hRest := ih fun d hd => hText d (List.mem_cons_of_mem _ hd)
      exact .blank (hText c List.mem_cons_self) hRest

theorem Finished.of_append (hLast : Finished (text ++ tail)) : Finished text := by
  rcases hLast with hNil | ⟨body, hBody, hLine⟩
  · exact Or.inl (List.append_eq_nil_iff.mp hNil).1
  · cases text with
    | nil => exact Or.inl rfl
    | cons c text =>
        injection hBody with hHead hRest
        refine Or.inr ⟨text, by rw [hHead], fun hMem => hLine ?_⟩
        rw [← hRest]
        exact List.mem_append_left _ hMem

/-- Blanks at the end of a text are behind all of its tokens, so the text without them has the same
tokens. The induction is on the steps of the lexer. -/
theorem Lexes.of_append {whole : List Char} (hTail : ∀ c ∈ tail, JqEngine.isWhitespace c = true)
    (lexes : Lexes platform whole tokens last) (hLast : Finished last) :
    ∀ {text : List Char}, whole = text ++ tail →
      ∃ last', Lexes platform text tokens last' ∧ Finished last' := by
  have hFollows : Follows platform tail := fun b hb =>
    .of_whitespace (hTail b (List.mem_of_mem_head? hb))
  have hQuote : '"' ∉ tail := fun hMem => absurd (hTail _ hMem) (by decide)
  have hNil : ∀ {rest last : List Char} {tokens : List Token}, rest <:+ tail →
      Lexes platform rest tokens last → tokens = [] :=
    fun hRest lexes => lexes.of_blank fun c hc => hTail c (hRest.subset hc)
  induction lexes with
  | done =>
      intro text hWhole
      rw [hWhole] at hLast
      exact ⟨text, .done, hLast.of_append⟩
  | @blank c whole last tokens hSpace lexes ih =>
      intro text hWhole
      cases text with
      | nil =>
          rw [hNil ⟨[c], hWhole⟩ lexes]
          exact ⟨[], .done, Or.inl rfl⟩
      | cons d text =>
          injection hWhole with hHead hRest
          subst hHead
          obtain ⟨last', hLexes, hLast'⟩ := ih hLast hRest
          exact ⟨last', .blank hSpace hLexes, hLast'⟩
  | @comment body rest last tokens hBody lexes ih =>
      intro text hWhole
      cases text with
      | nil =>
          rw [List.nil_append] at hWhole
          exact absurd (hTail '#' (hWhole ▸ List.mem_cons_self)) (by decide)
      | cons d text =>
          injection hWhole with hHead hRest
          subst hHead
          -- Whether the line feed that ends the comment is one of the blanks at the end.
          rcases List.append_eq_append_iff.mp hRest with ⟨more, rfl, hMore⟩ | ⟨more, rfl, hMore⟩
          · cases more with
            | nil =>
                rw [List.append_nil, hNil ⟨[], hMore⟩ lexes]
                exact ⟨_, .done, Or.inr ⟨body, rfl, hBody⟩⟩
            | cons d more =>
                injection hMore with hHead hMore
                subst hHead hMore
                obtain ⟨last', hLexes, hLast'⟩ := ih hLast (List.cons_append ..).symm
                exact ⟨last', .comment hBody hLexes, hLast'⟩
          · rw [hNil ⟨more, hMore.symm⟩ lexes]
            refine ⟨_, .done, Or.inr ⟨text, rfl, fun hMem => hBody ?_⟩⟩
            exact List.mem_append_left _ hMem
  | @batch c whole rest last batch tokens hSpace hComment hRead lexes ih =>
      intro text hWhole
      cases text with
      | nil =>
          rw [List.nil_append] at hWhole
          rw [hTail c (hWhole ▸ List.mem_cons_self)] at hSpace
          cases hSpace
      | cons d text =>
          injection hWhole with hHead hRest
          subst hHead hRest
          obtain ⟨rest', rfl, _⟩ := readToken_of_append hFollows hQuote (hRead 0) 0
          obtain ⟨last', hLexes, hLast'⟩ := ih hLast rfl
          refine ⟨last', .batch hSpace hComment (fun total => ?_) hLexes, hLast'⟩
          obtain ⟨rest'', hRest, hRead⟩ := readToken_of_append hFollows hQuote (hRead total) total
          rwa [List.append_cancel_right hRest]

end Blanks

theorem takeWhile_blank (text : List Char) :
    ∀ c ∈ text.takeWhile JqEngine.isWhitespace, JqEngine.isWhitespace c = true :=
  fun _ hc => List.mem_takeWhile_imp hc

/-- The parser takes a source without the blanks around it. -/
theorem parse_trim {source : String} {e : Expr} (hParse : parse platform source = .ok e) :
    parse platform (String.ofList (JqEngine.trim source.toList)) = .ok e := by
  obtain ⟨tokens, hTokens, hTokenize, _⟩ := parse_tokens hParse
  obtain ⟨last, hLexes, hLast⟩ := (tokenize_eq_ok_iff hTokens).mp hTokenize
  have hStart := @Lexes.blanks platform _ (takeWhile_blank source.toList)
    (source.toList.dropWhile JqEngine.isWhitespace)
  rw [List.takeWhile_append_dropWhile] at hStart
  obtain ⟨_, rfl, hMiddle⟩ := hStart.split hLexes hLast
  obtain ⟨last', hTrimmed, hLast'⟩ := hMiddle.of_append
    (fun c hc => List.mem_rtakeWhile_imp hc) hLast List.rdropWhile_append_rtakeWhile.symm
  refine parse_of_same_tokens hLexes hLast ?_ hLast' hTokens hParse
  rw [String.toList_ofList]
  exact hTrimmed

end Jq
end OwsRuntime
