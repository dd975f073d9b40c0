import OwsRuntime.Core.Brackets
import OwsRuntime.Expressions.Grammar
import OwsRuntime.Expressions.Spine

/-! Which expressions a string can embed. The lexer counts the parentheses of the source
of an interpolation, those in its strings and comments included. -/
namespace OwsRuntime
namespace Jq

open Brackets

/-- A string with one interpolation. -/
def interpolation (source : String) : String := "\"\\(" ++ source ++ ")\""

/-- What comes after the source of the interpolation. -/
def interpolationEnd : List Char := [')', '"']

/-- The first parenthesis too many that closes stands in a comment. After it comes what
stands for no character in a string, a quote, and then nothing but blanks and comments. -/
def ClosesInComment (platform : Platform) (source : List Char) : Prop :=
  ∃ inner after tokens body rest, source = inner ++ ')' :: after ∧ Balanced '(' ')' inner ∧
    Lexes platform inner tokens ('#' :: body) ∧ '\n' ∉ body ∧
    ReadsString [] (after ++ interpolationEnd) [] rest ∧ skipBlank false rest = []

variable {platform : Platform} {source : String} {e : Expr}

theorem toList_interpolation (source : String) : (interpolation source).toList =
    '"' :: '\\' :: '(' :: (source.toList ++ interpolationEnd) := by
  simp [interpolation, interpolationEnd, String.toList_append]

theorem length_interpolation (source : String) :
    (interpolation source).length = source.length + 5 := by
  have hLength := congrArg List.length (toList_interpolation source)
  rw [String.length_toList] at hLength
  simpa [interpolationEnd, String.length_toList] using hLength

section Reading

variable {total : Nat}

/-- A string that begins with an interpolation. -/
theorem Lexes.interpolation {text inner rest last : List Char} {more : List Token}
    (hSource : readInterpSource 1 text = some (inner, rest)) (hString : ReadsString [] rest more last) :
    Lexes platform ('"' :: '\\' :: '(' :: text) (.interp (String.ofList inner) :: more) last := by
  refine Lexes.one (by decide) (by decide) fun total => ?_
  have hStep : StringStep [] ('\\' :: '(' :: text) (flush [] ++ [.interp (String.ofList inner)]) [] rest :=
    .interp hSource
  have hReads : readString total (('\\' :: '(' :: text).length + 1) [] ('\\' :: '(' :: text) = _ :=
    (ReadsString.step hStep hString).readString _ (Nat.lt_succ_self _)
  rw [readToken_quote, readStringTokens, hReads]
  rfl

/-- What a text is that lexes from a quote and an interpolation on. -/
theorem Lexes.of_interpolation {text last : List Char} {tokens : List Token}
    (lexes : Lexes platform ('"' :: '\\' :: '(' :: text) tokens last) (hLast : Finished last) :
    ∃ inner rest more rest' tokens', readInterpSource 1 text = some (inner, rest) ∧
      ReadsString [] rest more rest' ∧ Lexes platform rest' tokens' last ∧
      tokens = .interp (String.ofList inner) :: (more ++ tokens') := by
  cases lexes with
  | done =>
      rcases hLast with h | ⟨body, h, _⟩
      · cases h
      · cases h
  | blank hSpace _ => exact absurd hSpace (by decide)
  | @batch _ _ rest' _ batch tokens' _ _ hRead tail =>
      have hRead := hRead 0
      rw [readToken_quote, readStringTokens] at hRead
      obtain ⟨⟨found, rest''⟩, hFound, hRead⟩ := bind_eq_ok hRead
      cases hRead
      cases readsString_of_readString _ _ _ hFound with
      | step step hMore =>
          cases step with
          | plain _ hEscape => exact absurd rfl hEscape
          | unescape hParen => exact absurd rfl hParen
          | other hParen => exact absurd rfl hParen
          | interp hSource => exact ⟨_, _, _, _, _, hSource, hMore, tail, rfl⟩

end Reading

/-- The string that the parser makes of an interpolation whose source ends before blank text. -/
theorem parse_interpolation_of {inner rest last : List Char}
    (hSource : readInterpSource 1 (source.toList ++ interpolationEnd) = some (inner, rest))
    (hString : ReadsString [] rest [] last) (hBlank : skipBlank false last = [])
    (hParse : parse platform (String.ofList inner) = .ok e) :
    parse platform (interpolation source) = .ok (.str [.expr e]) := by
  have hInterp : Lexes platform (interpolation source).toList [.interp (String.ofList inner)] last := by
    rw [toList_interpolation]
    exact Lexes.interpolation hSource hString
  obtain ⟨final, hLexes, hFinal⟩ : ∃ final, Lexes platform last [] final ∧ Finished final := by
    rcases @skipBlank_lexes platform last with ⟨final, hLexes, hFinal, _⟩ | ⟨c, more, _, hSkip, _⟩
    · exact ⟨final, hLexes, hFinal⟩
    · rw [hSkip] at hBlank
      cases hBlank
  have hLength : (String.ofList inner).length < (interpolation source).length := by
    have hInner := length_interpSource hSource
    rw [List.length_append, String.length_toList] at hInner
    rw [length_interpolation, String.length_ofList]
    have hEnd : interpolationEnd.length = 2 := rfl
    omega
  have hNested : (parserAt platform (interpolation source).length).source (String.ofList inner) =
      .ok e := by
    rw [parserAt_source_eq_parse hLength, hParse]
  have hStop : Token.eof.EndsString := ⟨fun _ => (by nofun), fun _ => (by nofun)⟩
  have hBase : Takes (parseBase platform _) [.interp (String.ofList inner)] (.str [.expr e]) .eof :=
    Takes.string hStop (.cons (.expr hNested) .nil)
  have hUnary := (hBase.unaccessed ⟨by nofun, by nofun⟩).unary (by nofun) (by nofun)
  have hPipe := (((((hUnary.mult rfl).additive rfl).compare rfl).and rfl).or rfl).pipe rfl
  exact parse_of_takes (noEof_singleton (by nofun)) (hInterp.trans hLexes) hFinal
    (hPipe.expr (by nofun))

/-- A string without parts has been read without a token. The induction is on the rounds. -/
theorem stringParts_nil {nested : Nested} : ∀ (fuel : Nat) (c : Cursor) {c' : Cursor},
    stringParts nested fuel c = .ok ([], c') → c' = c
  | 0, _, _, hRun => by cases hRun
  | fuel + 1, c, c', hRun => by
      rw [stringParts] at hRun
      replace hRun := peek_run hRun
      cases hToken : c.rest.headD .eof with
      | str s =>
          rw [hToken] at hRun
          obtain ⟨_, _, _, hRun⟩ := run_bind hRun
          obtain ⟨_, _, _, hRun⟩ := run_bind hRun
          cases hRun
      | interp source =>
          rw [hToken] at hRun
          obtain ⟨_, _, _, hRun⟩ := run_bind hRun
          obtain ⟨_, _, _, hRun⟩ := run_bind hRun
          obtain ⟨_, _, _, hRun⟩ := run_bind hRun
          cases hRun
      | _ =>
          rw [hToken] at hRun
          cases hRun
          rfl

/-- A string whose only part is an expression comes from one interpolation, and nothing else. -/
theorem string_of_interp {nested : Nested} {pos : Nat} {inner : String} {tokens : List Token}
    {c : Cursor} (hTokens : NoEof tokens)
    (hRun : parseExpr platform nested ⟨pos, .interp inner :: tokens ++ [.eof]⟩ =
      .ok (.str [.expr e], c)) (hEnd : c.rest.head? = some .eof) :
    nested.source inner = .ok e ∧ tokens = [] := by
  have hIsBase : Expr.IsBase (.str [.expr e]) := fun b wraps => (by cases wraps)
  have hBase := base_of_expr (by nofun) (by nofun) hIsBase hRun
  rw [parseBase, peek_apply _ rfl] at hBase
  have hBase : parseStringParts nested ⟨pos, .interp inner :: tokens ++ [.eof]⟩ =
      .ok (.str [.expr e], c) := hBase
  obtain ⟨fuel, _, hRemaining, hBase⟩ := run_bind hBase
  cases hRemaining
  obtain ⟨parts, c', hParts, hBase⟩ := run_bind hBase
  cases hBase
  rw [List.length_append, List.length_singleton, stringParts, peek_apply _ rfl] at hParts
  obtain ⟨_, after, hAdvance, hParts⟩ := run_bind hParts
  rw [advance_eq] at hAdvance
  cases hAdvance
  obtain ⟨found, middle, hSource, hParts⟩ := run_bind hParts
  obtain ⟨others, last, hOthers, hParts⟩ := run_bind hParts
  cases hParts
  cases hResult : nested.source inner with
  | error error =>
      rw [hResult] at hSource
      cases hSource
  | ok inner' =>
      rw [hResult] at hSource
      cases hSource
      have hCursor := stringParts_nil _ _ hOthers
      rw [hCursor] at hEnd
      refine ⟨rfl, ?_⟩
      cases tokens with
      | nil => rfl
      | cons t tokens => exact absurd (Option.some.inj hEnd) (hTokens t List.mem_cons_self)

/-- Where the lexer has to end for a string with only the expression in it. -/
theorem of_parse_interpolation
    (hParse : parse platform (interpolation source) = .ok (.str [.expr e])) :
    ∃ inner rest last, readInterpSource 1 (source.toList ++ interpolationEnd) = some (inner, rest) ∧
      ReadsString [] rest [] last ∧ skipBlank false last = [] ∧
      parse platform (String.ofList inner) = .ok e := by
  obtain ⟨tokens, c, hTokens, hTokenize, hRun, hEnd⟩ := parseSource_eq_ok_iff.mp hParse
  obtain ⟨last, hLexes, hLast⟩ := (tokenize_eq_ok_iff hTokens).mp hTokenize
  rw [toList_interpolation] at hLexes
  obtain ⟨inner, rest, more, rest', tokens', hSource, hString, hTail, rfl⟩ :=
    hLexes.of_interpolation hLast
  have hMore : NoEof (more ++ tokens') := fun t ht => hTokens t (List.mem_cons_of_mem _ ht)
  obtain ⟨hInner, hNil⟩ := string_of_interp hMore hRun hEnd
  obtain ⟨rfl, rfl⟩ := List.append_eq_nil_iff.mp hNil
  refine ⟨inner, rest, rest', hSource, hString, ?_, ?_⟩
  · rw [hTail.skipBlank, skipBlank_finished hLast]
  · have hLength := length_interpSource hSource
    rw [List.length_append, String.length_toList] at hLength
    rw [parserAt_source_eq_parse] at hInner
    · exact hInner
    · have hWidth : interpolationEnd.length = 2 := rfl
      rw [length_interpolation, String.length_ofList]
      omega

/-- A source that is accepted goes on after no complete expression with a parenthesis. -/
theorem not_closed_after {inner after : List Char} {tokens : List Token} {e' : Expr}
    (hSource : source.toList = inner ++ ')' :: after) (hParse : parse platform source = .ok e)
    (hInner : parse platform (String.ofList inner) = .ok e')
    (hLexes : Lexes platform inner tokens []) : False := by
  obtain ⟨front, hFront, hTokenize, hTakes⟩ := parse_tokens hInner
  obtain ⟨all, c, hAll, hTokenizeAll, hRun, hEnd⟩ := parseSource_eq_ok_iff.mp hParse
  obtain ⟨last, hWhole, hLast⟩ := (tokenize_eq_ok_iff hAll).mp hTokenizeAll
  have hSame : tokens = front := by
    obtain ⟨last', hOwn, hLast'⟩ := (tokenize_eq_ok_iff hFront).mp hTokenize
    rw [String.toList_ofList] at hOwn
    obtain ⟨more, rfl, hMore⟩ := hLexes.split hOwn hLast'
    cases hMore
    rw [List.append_nil]
  subst hSame
  have hParen : Lexes platform (inner ++ ')' :: after) (tokens ++ [.rParen]) after := by
    have hFollows : Follows platform (')' :: after) :=
      follows_cons (.of_ascii (by decide) (by decide) (by decide)) after
    have hClose : Lexes platform (')' :: after) [.rParen] after := Lexes.symbol rfl (by decide)
    exact (hLexes.append hFollows).trans hClose
  rw [hSource] at hWhole
  obtain ⟨more, rfl, _⟩ := hParen.split hWhole hLast
  have hDepth : (String.ofList inner).length < source.length + 1 := by
    have hLength := congrArg List.length hSource
    rw [String.length_toList, List.length_append, List.length_cons] at hLength
    rw [String.length_ofList]
    omega
  obtain ⟨pos, hEarly⟩ := hTakes .rParen (more ++ [.eof]) rfl (source.length + 1) hDepth 0
  have hEarly : parseExpr platform (parserAt platform source.length)
      ⟨0, tokens ++ .rParen :: (more ++ [.eof])⟩ = .ok (e', ⟨pos, .rParen :: (more ++ [.eof])⟩) := hEarly
  have hRest : (tokens ++ [.rParen] ++ more) ++ [.eof] = tokens ++ .rParen :: (more ++ [.eof]) := by
    simp
  rw [hRest, hEarly] at hRun
  cases hRun
  cases hEnd

theorem hexDigit?_newline : hexDigit? '\n' = none := by decide

/-- The digits of a code point take no more than one line. -/
theorem newline_notMem_of_hexValue? {digits : List Char} {code : Nat}
    (hCode : hexValue? digits = some code) : '\n' ∉ digits := by
  have hFold : ∀ (text : List Char) (n : Nat),
      text.foldlM (fun n c => (hexDigit? c).map (16 * n + ·)) n ≠ none → '\n' ∉ text := by
    intro text
    induction text with
    | nil => exact fun _ _ h => (by cases h)
    | cons c text ih =>
        intro n hSome hMem
        rw [List.foldlM_cons] at hSome
        cases hDigit : hexDigit? c with
        | none =>
            rw [hDigit] at hSome
            exact hSome rfl
        | some d =>
            rw [hDigit] at hSome
            rcases List.mem_cons.mp hMem with rfl | hMem
            · rw [hexDigit?_newline] at hDigit
              cases hDigit
            · exact ih (16 * n + d) hSome hMem
  cases digits with
  | nil => exact List.not_mem_nil
  | cons c rest =>
      by_cases hPlus : c = '+'
      · subst hPlus
        rw [hexValue?] at hCode
        split_ifs at hCode
        have hRest := hFold rest 0 (by rw [hCode]; nofun)
        intro hMem
        rcases List.mem_cons.mp hMem with h | h
        · exact absurd h (by decide)
        · exact hRest h
      · have hValue : (c :: rest).foldlM (fun n c => (hexDigit? c).map (16 * n + ·)) 0 = some code := by
          rw [hexValue?.eq_def] at hCode
          simpa [hPlus] using hCode
        exact hFold (c :: rest) 0 (by rw [hValue]; nofun)

/-- What stands for no character in a string is on one line, up to the quote. -/
theorem ReadsString.empty {literal text last : List Char} {tokens : List Token}
    (reads : ReadsString literal text tokens last) (hTokens : tokens = []) :
    literal = [] ∧ ∃ escapes, text = escapes ++ '"' :: last ∧ '\n' ∉ escapes := by
  induction reads with
  | @quote literal rest =>
      rw [flush] at hTokens
      split_ifs at hTokens with hEmpty
      exact ⟨List.isEmpty_iff.mp hEmpty, [], rfl, List.not_mem_nil⟩
  | @step literal text literal' rest last tokens more step tail ih =>
      obtain ⟨hNone, hMore⟩ := List.append_eq_nil_iff.mp hTokens
      obtain ⟨hLiteral, escapes, rfl, hLine⟩ := ih hMore
      cases step with
      | plain => exact absurd hLiteral (by simp)
      | unescape => exact absurd hLiteral (by simp)
      | other => exact absurd hLiteral (by simp)
      | interp => exact absurd hNone (by simp)
      | @hex digits _ code hDigits hCode =>
          obtain ⟨hLiteral, _⟩ := List.append_eq_nil_iff.mp hLiteral
          refine ⟨hLiteral, '\\' :: 'u' :: (digits ++ escapes), by simp, ?_⟩
          have hNewline := newline_notMem_of_hexValue? hCode
          simp [hNewline, hLine]

/-- Blanks before some text that are no text of a comment are blanks without it. -/
theorem finished_of_skipBlank {text : List Char} (hBlank : skipBlank false text = []) :
    ∃ last, Lexes platform text [] last ∧ Finished last := by
  rcases @skipBlank_lexes platform text with ⟨last, hLexes, hLast, _⟩ | ⟨c, more, _, hSkip, _⟩
  · exact ⟨last, hLexes, hLast⟩
  · rw [hSkip] at hBlank
    cases hBlank

/-- A line that is skipped leaves what comes after it. -/
theorem skipBlank_line : ∀ (comment : Bool) (line text : List Char), '\n' ∉ line →
    skipBlank comment (line ++ '\n' :: text) = [] → skipBlank false text = []
  | true, [], text, _, hSkip => hSkip
  | false, [], text, _, hSkip => hSkip
  | true, c :: line, text, hLine, hSkip => by
      rw [List.mem_cons, not_or] at hLine
      rw [List.cons_append, skipBlank, if_neg (Ne.symm hLine.1)] at hSkip
      exact skipBlank_line true line text hLine.2 hSkip
  | false, c :: line, text, hLine, hSkip => by
      rw [List.mem_cons, not_or] at hLine
      rw [List.cons_append, skipBlank] at hSkip
      split_ifs at hSkip
      · exact skipBlank_line false line text hLine.2 hSkip
      · exact skipBlank_line true line text hLine.2 hSkip

theorem skipBlank_of_append : ∀ (comment : Bool) (text tail : List Char),
    skipBlank comment (text ++ tail) = [] → skipBlank comment text = []
  | _, [], _, _ => rfl
  | true, c :: text, tail, hSkip => by
      rw [List.cons_append, skipBlank] at hSkip
      rw [skipBlank]
      split_ifs at hSkip ⊢
      · exact skipBlank_of_append false text tail hSkip
      · exact skipBlank_of_append true text tail hSkip
  | false, c :: text, tail, hSkip => by
      rw [List.cons_append, skipBlank] at hSkip
      rw [skipBlank]
      split_ifs at hSkip ⊢
      · exact skipBlank_of_append false text tail hSkip
      · exact skipBlank_of_append true text tail hSkip

/-- A source whose interpolation ends in a comment has the tokens before the comment. -/
theorem tokens_of_closesInComment {inner after body rest : List Char} {tokens : List Token}
    (hLexes : Lexes platform inner tokens ('#' :: body)) (hBody : '\n' ∉ body)
    (hString : ReadsString [] (after ++ interpolationEnd) [] rest)
    (hBlank : skipBlank false rest = []) :
    ∃ last, Lexes platform (inner ++ ')' :: after) tokens last ∧ Finished last := by
  obtain ⟨_, escapes, hAfter, hEscapes⟩ := hString.empty rfl
  have hFollows : Follows platform (')' :: after) :=
    follows_cons (.of_ascii (by decide) (by decide) (by decide)) after
  have hInner := hLexes.append hFollows
  by_cases hLine : '\n' ∈ after
  · obtain ⟨line, text, rfl, hShort⟩ := List.eq_append_cons_of_mem hLine
    -- The line feed is behind the quote, where all is blank.
    have hSplit : line ++ '\n' :: (text ++ interpolationEnd) = (escapes ++ ['"']) ++ rest := by
      simpa using hAfter
    have hText : skipBlank false text = [] := by
      rcases List.append_eq_append_iff.mp hSplit with ⟨short, hQuote, hRest⟩ | ⟨long, hQuote, hRest⟩
      · cases short with
        | nil =>
            rw [List.nil_append] at hRest
            rw [← hRest] at hBlank
            exact skipBlank_of_append false text interpolationEnd hBlank
        | cons d short =>
            injection hRest with hHead
            have hMem : '\n' ∈ escapes ++ ['"'] := by
              rw [hQuote, hHead]
              simp
            simp [hEscapes] at hMem
      · rw [hRest] at hBlank
        have hLong : '\n' ∉ long := fun h => hShort (by rw [hQuote]; simp [h])
        exact skipBlank_of_append false text interpolationEnd (skipBlank_line false long _ hLong hBlank)
    obtain ⟨last, hTail, hLast⟩ := @finished_of_skipBlank platform _ hText
    have hComment : Lexes platform ('#' :: ((body ++ ')' :: line) ++ '\n' :: text)) [] last :=
      .comment (by simp [hBody, hShort]) (.blank (by decide) hTail)
    refine ⟨last, ?_, hLast⟩
    rw [← List.append_nil tokens]
    refine hInner.trans ?_
    simpa using hComment
  · refine ⟨'#' :: body ++ ')' :: after, hInner, Or.inr ⟨body ++ ')' :: after, rfl, ?_⟩⟩
    simp [hBody, hLine]

/-- A string embeds an accepted source exactly when its parentheses are balanced, counted
everywhere, or the first one too many is in a comment after which the string reads as ended. -/
theorem parse_interpolation_iff (hParse : parse platform source = .ok e) :
    parse platform (interpolation source) = .ok (.str [.expr e]) ↔
      Balanced '(' ')' source.toList ∨ ClosesInComment platform source.toList := by
  have hNe : '(' ≠ ')' := by decide
  constructor
  · intro hString
    obtain ⟨inner, rest, last, hSource, hReads, hBlank, hInner⟩ := of_parse_interpolation hString
    rw [readInterpSource_eq_split, split_eq_some_iff hNe] at hSource
    obtain ⟨hText, hBalanced⟩ := hSource
    rcases List.append_eq_append_iff.mp hText with ⟨added, hAdded, hEnd⟩ | ⟨after, hAfter, hEnd⟩
    · -- The source of the interpolation is at least as long as the one that is embedded.
      cases added with
      | nil =>
          rw [List.append_nil] at hAdded
          exact Or.inl (hAdded ▸ hBalanced)
      | cons c added =>
          injection hEnd with hHead hEnd
          cases added with
          | nil => injection hEnd with hHead _; cases hHead
          | cons d added =>
              injection hEnd with _ hEnd
              cases added <;> cases hEnd
    · cases after with
      | nil =>
          rw [List.append_nil] at hAfter
          exact Or.inl (hAfter ▸ hBalanced)
      | cons c after =>
          injection hEnd with hHead hRest
          subst hHead hRest
          right
          obtain ⟨tokens, hTokens, hTokenize, _⟩ := parse_tokens hInner
          obtain ⟨final, hLexes, hFinal⟩ := (tokenize_eq_ok_iff hTokens).mp hTokenize
          rw [String.toList_ofList] at hLexes
          rcases hFinal with rfl | ⟨body, rfl, hBody⟩
          · exact absurd (not_closed_after hAfter hParse hInner hLexes) not_false
          · exact ⟨inner, after, tokens, body, last, hAfter, hBalanced, hLexes, hBody, hReads, hBlank⟩
  · rintro (hBalanced | ⟨inner, after, tokens, body, rest, hSource, hBalanced, hLexes, hBody, hReads, hBlank⟩)
    · have hInner : readInterpSource 1 (source.toList ++ interpolationEnd) =
          some (source.toList, ['"']) := by
        rw [readInterpSource_eq_split, interpolationEnd]
        exact split_balanced hNe hBalanced ['"']
      exact parse_interpolation_of hInner ReadsString.quote rfl (by rwa [String.ofList_toList])
    · have hInner : readInterpSource 1 (source.toList ++ interpolationEnd) =
          some (inner, after ++ interpolationEnd) := by
        rw [readInterpSource_eq_split, hSource, List.append_assoc, List.cons_append]
        exact split_balanced hNe hBalanced _
      obtain ⟨last, hWhole, hLast⟩ := tokens_of_closesInComment hLexes hBody hReads hBlank
      obtain ⟨all, hAll, hTokenize, _⟩ := parse_tokens hParse
      obtain ⟨last', hOwn, hLast'⟩ := (tokenize_eq_ok_iff hAll).mp hTokenize
      rw [hSource] at hOwn
      have hSame : all = tokens := hOwn.unique hLast' hWhole hLast
      subst hSame
      refine parse_interpolation_of hInner hReads hBlank ?_
      exact parse_of_same_tokens (by rw [hSource]; exact hOwn) hLast'
        (by rw [String.toList_ofList]; exact hLexes) (Or.inr ⟨body, rfl, hBody⟩) hAll hParse

/-- The identity has no parentheses, so a string can embed it. -/
theorem parse_interpolation_iff_identity : parse (.ascii true) "." = .ok .identity ∧
    (parse (.ascii true) (interpolation ".") = .ok (.str [.expr .identity]) ↔
      Balanced '(' ')' ".".toList ∨ ClosesInComment (.ascii true) ".".toList) := by
  have hParse : parse (.ascii true) "." = .ok .identity := by rfl
  exact ⟨hParse, parse_interpolation_iff hParse⟩

/-- A string with a parenthesis in it is accepted, but cannot be embedded. -/
theorem paren_not_embedded : ∃ e, parse (.ascii true) "\")\"" = .ok e ∧
    parse (.ascii true) (interpolation "\")\"") ≠ .ok (.str [.expr e]) := by
  refine ⟨.str [.literal ")"], by rfl, ?_⟩
  have hParse : parse (.ascii true) (interpolation "\")\"") = .error (.lex 8 "unterminated string") := by
    rfl
  rw [hParse]
  nofun

end Jq
end OwsRuntime
