import OwsRuntime.Expressions.Blocks
import OwsRuntime.Expressions.VariableNames

/-! The expressions in a text with blocks, and the variables on which its value depends. -/
namespace OwsRuntime
namespace JqEngine

section Prepared

variable {lang : ExpressionLanguage} {source : List Char}

/-- The expression stands in the text. -/
def Cites (lang : ExpressionLanguage) (source : List Char) (e : lang.Expr) : Prop :=
  ∃ inner, inner <:+: source ∧ lang.parse (String.ofList inner) = .ok e

theorem Cites.mono {e : lang.Expr} {wider : List Char} (cites : Cites lang source e)
    (hWider : source <:+: wider) : Cites lang wider e := by
  obtain ⟨inner, hInner, hParse⟩ := cites
  exact ⟨inner, hInner.trans hWider, hParse⟩

/-- The expressions of the pieces of a text stand in the text, between the braces of their blocks.
The induction is on the rounds of the splitting. -/
theorem blockPieces_cite : ∀ (fuel position : Nat) (text source : List Char)
    {pieces : List (Piece lang.Expr)}, blockPieces lang fuel position text source = .ok pieces →
      ∀ e, .expr e ∈ pieces → Cites lang source e := by
  have hLiteral : ∀ (text : List Char) (e : lang.Expr), .expr e ∉ literal text := by
    intro text e hMem
    rw [literal] at hMem
    split at hMem
    · cases hMem
    · cases List.mem_singleton.mp hMem
  intro fuel
  induction fuel with
  | zero =>
      intro position text source pieces hPieces e hMem
      cases hPieces
      exact absurd hMem (hLiteral text e)
  | succ fuel ih =>
      intro position text source pieces hPieces e hMem
      cases source with
      | nil =>
          cases hPieces
          exact absurd hMem (hLiteral text e)
      | cons c rest =>
          rw [blockPieces] at hPieces
          split at hPieces
          · cases hSplit : splitBlock 1 rest.tail with
            | none => simp [hSplit] at hPieces
            | some found =>
                obtain ⟨inner, more⟩ := found
                simp only [hSplit] at hPieces
                obtain ⟨first, hFirst, hPieces⟩ := bind_eq_ok hPieces
                obtain ⟨later, hLater, hPieces⟩ := bind_eq_ok hPieces
                cases hPieces
                have hTail : rest.tail <:+: c :: rest :=
                  ((List.tail_suffix rest).trans (List.suffix_cons c rest)).isInfix
                have hText := splitBlock_text hSplit
                rcases List.mem_append.mp hMem with hMem | hMem
                · exact absurd hMem (hLiteral text e)
                · rcases List.mem_cons.mp hMem with hMem | hMem
                  · cases hMem
                    have hInner : inner <:+: rest.tail := ⟨[], '\x7d' :: more, by rw [hText]; rfl⟩
                    exact ⟨trim inner, (trim_within inner).trans (hInner.trans hTail), hFirst⟩
                  · have hMore : more <:+: rest.tail :=
                      ⟨inner ++ ['\x7d'], [], by rw [hText]; simp⟩
                    exact (ih _ _ _ hLater e hMem).mono (hMore.trans hTail)
          · exact (ih _ _ _ hPieces e hMem).mono (List.suffix_cons c rest).isInfix

/-- The expressions of a source that is compiled stand in it. -/
def Prepared.Cites (lang : ExpressionLanguage) (source : List Char) :
    Prepared lang.Expr → Prop
  | .expr e => JqEngine.Cites lang source e
  | .plain text => text.toList = source
  | .interp pieces => ∀ e, .expr e ∈ pieces → JqEngine.Cites lang source e

/-- What is inside a text that is one block as a whole stands in that text. -/
theorem singleBlock_within {text inner : List Char} (hSingle : singleBlock text = some inner) :
    inner <:+: text := by
  unfold singleBlock at hSingle
  split at hSingle
  · rename_i rest hText
    have hRest : rest <:+: text := by
      refine List.IsInfix.trans ?_ (List.dropWhile_suffix isWhitespace).isInfix
      rw [hText]
      exact ⟨['$', '\x7b'], [], by simp⟩
    split at hSingle
    · rename_i found more hSplit
      split at hSingle
      · cases hSingle
        have hFound : found <:+: rest := ⟨[], '\x7d' :: more, by rw [splitBlock_text hSplit]; rfl⟩
        exact (trim_within found).trans (hFound.trans hRest)
      · cases hSingle
    · cases hSingle
  · cases hSingle

/-- What is prepared from a source cites it: the whole source is one expression, or each block in it
is. -/
theorem prepare_cites {source : String} {prepared : Prepared lang.Expr}
    (hPrepare : prepare lang source = .ok prepared) : prepared.Cites lang source.toList := by
  have hTrim := trim_within source.toList
  rw [prepare] at hPrepare
  cases hSingle : singleBlock (trim source.toList) with
  | some inner =>
      rw [hSingle] at hPrepare
      simp only at hPrepare
      cases hParse : lang.parse (String.ofList inner) with
      | error e => simp [hParse, Except.map] at hPrepare
      | ok e =>
          rw [hParse] at hPrepare
          cases hPrepare
          exact ⟨inner, (singleBlock_within hSingle).trans hTrim, hParse⟩
  | none =>
      rw [hSingle] at hPrepare
      simp only at hPrepare
      split at hPrepare
      · cases hBlocks : parseBlocks lang (trim source.toList) with
        | error e => simp [hBlocks, Except.map] at hPrepare
        | ok pieces =>
            rw [hBlocks] at hPrepare
            cases hPrepare
            obtain ⟨found, hFound, hPieces⟩ := bind_eq_ok hBlocks
            have hEach := blockPieces_cite _ _ _ _ hFound
            intro e hMem
            split at hPieces
            · cases hPieces
              cases List.mem_singleton.mp hMem
            · cases hPieces
              exact (hEach e hMem).mono hTrim
      · cases hPrepare
        rfl

end Prepared

end JqEngine

namespace Jq

open JqEngine

section Values

variable {platform : Platform} {source : String} {v w : Map}

/-- The maps agree on the variables to which a text refers. -/
def AgreeIn (source : List Char) (v w : Map) : Prop :=
  ∀ name, reference name <:+: source → v.lookup name = w.lookup name

/-- The last value of an expression that a source cites is the same for two maps of variables that
agree on what the source refers to. -/
theorem evaluateLast_congr {source : List Char} (agree : AgreeIn source v w) {e : Expr}
    (cites : Cites (language platform) source e) (input : Value) :
    evaluateLast (language platform) e input v = evaluateLast (language platform) e input w := by
  obtain ⟨inner, hInner, hParse⟩ := cites
  have hParsed : parse platform (String.ofList inner) = .ok e := by
    change (parse platform (String.ofList inner)).mapError LangError.toCore = .ok e at hParse
    cases hResult : parse platform (String.ofList inner) with
    | error other =>
        rw [hResult] at hParse
        cases hParse
    | ok other =>
        rw [hResult] at hParse
        cases hParse
        rfl
  have hWithin := parse_within hParsed
  rw [String.toList_ofList] at hWithin
  have hEval : eval platform v e = eval platform w e :=
    eval_congr platform e fun name hName => agree name ((hWithin name hName).trans hInner)
  show (do
      let stream ← (eval platform v e input).mapError LangError.toCore
      return stream.getLast?.getD .null : Except ExpressionError Value) = _
  rw [hEval]
  rfl

theorem interpolate_congr {source : List Char} (agree : AgreeIn source v w) (input : Value)
    {pieces : List (Piece (language platform).Expr)}
    (hEach : ∀ e, .expr e ∈ pieces → Cites (language platform) source e) :
    interpolate (language platform) input v pieces = interpolate (language platform) input w pieces := by
  induction pieces with
  | nil => rfl
  | cons piece rest ih =>
      have hRest := ih fun e hMem => hEach e (List.mem_cons_of_mem _ hMem)
      cases piece with
      | lit text => rw [interpolate, interpolate, hRest]
      | expr e =>
          rw [interpolate, interpolate, hRest,
            evaluateLast_congr agree (hEach e List.mem_cons_self) input]

/-- The value of a text depends on the variables to which it refers alone. -/
theorem evaluate_congr (agree : AgreeIn source.toList v w) (input : Value) :
    (engine (language platform)).evaluate ⟨source⟩ input v =
      (engine (language platform)).evaluate ⟨source⟩ input w := by
  show (prepare (language platform) source >>= fun p => evaluateValue (language platform) p input v) =
    (prepare (language platform) source >>= fun p => evaluateValue (language platform) p input w)
  cases hPrepare : prepare (language platform) source with
  | error e => rfl
  | ok prepared =>
      rw [ok_bind, ok_bind]
      have hCites := prepare_cites hPrepare
      cases prepared with
      | expr e => exact evaluateLast_congr agree hCites input
      | plain text =>
          show ((language platform).parse text >>= fun e => evaluateLast (language platform) e input v) =
            ((language platform).parse text >>= fun e => evaluateLast (language platform) e input w)
          cases hParse : (language platform).parse text with
          | error e => rfl
          | ok e =>
              have hText : text.toList = source.toList := hCites
              refine evaluateLast_congr agree ⟨text.toList, hText ▸ List.infix_rfl, ?_⟩ input
              rw [String.ofList_toList]
              exact hParse
      | interp pieces =>
          show (interpolate _ input v pieces).map Value.string = (interpolate _ input w pieces).map _
          rw [interpolate_congr agree input hCites]

theorem evaluateInterpolation_congr (agree : AgreeIn source.toList v w) (input : Value) :
    (engine (language platform)).evaluateInterpolation source input v =
      (engine (language platform)).evaluateInterpolation source input w := by
  show (prepare (language platform) source >>= fun p => evaluateInterp (language platform) p input v) =
    (prepare (language platform) source >>= fun p => evaluateInterp (language platform) p input w)
  cases hPrepare : prepare (language platform) source with
  | error e => rfl
  | ok prepared =>
      rw [ok_bind, ok_bind]
      have hCites := prepare_cites hPrepare
      cases prepared with
      | expr e => exact evaluateLast_congr agree hCites input
      | plain text => rfl
      | interp pieces =>
          show (interpolate _ input v pieces).map Value.string = (interpolate _ input w pieces).map _
          rw [interpolate_congr agree input hCites]

end Values

end Jq
end OwsRuntime
