import OwsRuntime.Expressions.Eval
import OwsRuntime.Expressions.Templates
import OwsRuntime.Expressions.Trimming

/-! Where the engine ends the block of a source. It counts braces everywhere, those in
string literals and in comments included. -/
namespace OwsRuntime
namespace Jq

open Brackets JqEngine

/-- A block with a source in it. -/
def block (source : String) : String := "$\x7b " ++ source ++ " \x7d"

/-- The source as it stands in the block. -/
def spaced (source : String) : List Char := [' '] ++ source.toList ++ [' ']

/-- The block of a source is one expression, and where it stands in a text, from anywhere
in it on, its pieces are those of the text around it and the expression. -/
structure Delimits (platform : Platform) (source : String) (e : Expr) : Prop where
  single : prepare (language platform) (block source) = .ok (.expr e)
  within : ∀ (position : Nat) (text before after : List Char), ¬ HasBlock before →
    pieces (language platform) position text (before ++ (block source).toList ++ after) =
      (pieces (language platform) (position + before.length + source.length + 5) [] after).map
        fun rest => literal (text ++ before) ++ .expr e :: rest

variable {platform : Platform} {source : String} {e : Expr}

theorem toList_block (source : String) :
    (block source).toList = opening ++ spaced source ++ ['\x7d'] := by
  simp [block, spaced, opening, String.toList_append]

theorem balanced_spaced_iff : Balanced '\x7b' '\x7d' (spaced source) ↔
    Balanced '\x7b' '\x7d' source.toList :=
  balanced_within_iff braces_ne (by decide) (by decide) source.toList

theorem trim_spaced (source : String) : trim (spaced source) = trim source.toList := by
  have hSpace : isWhitespace ' ' = true := by decide
  rw [trim, trim, spaced, List.append_assoc, List.singleton_append, List.dropWhile_cons_of_pos hSpace]
  by_cases hBlank : ∀ c ∈ source.toList, isWhitespace c = true
  · have hAll : ∀ c ∈ source.toList ++ [' '], isWhitespace c = true := by
      intro c hc
      rcases List.mem_append.mp hc with h | h
      · exact hBlank c h
      · rw [List.mem_singleton.mp h, hSpace]
    rw [List.dropWhile_eq_nil_iff.mpr hAll, List.dropWhile_eq_nil_iff.mpr hBlank]
  · have hDrop : (source.toList ++ [' ']).dropWhile isWhitespace =
        source.toList.dropWhile isWhitespace ++ [' '] := by
      rw [List.dropWhile_append, if_neg]
      rw [List.isEmpty_iff, List.dropWhile_eq_nil_iff]
      exact hBlank
    rw [hDrop, List.rdropWhile_concat_pos _ _ _ hSpace]

theorem trim_block (source : String) : trim (block source).toList = (block source).toList := by
  rw [toList_block, trim, opening, List.cons_append, List.cons_append,
    List.dropWhile_cons_of_neg (by decide), ← List.cons_append, ← List.cons_append,
    List.rdropWhile_concat_neg _ _ _ (by decide)]

theorem parse_spaced (hParse : parse platform source = .ok e) :
    (language platform).parse (String.ofList (trim (spaced source))) = .ok e := by
  rw [trim_spaced]
  exact language_parse (parse_trim hParse)

theorem singleBlock_block (source : String) : singleBlock (block source).toList =
    match splitBlock 1 (spaced source ++ ['\x7d']) with
    | some (inner, more) => if more.all isWhitespace then some (trim inner) else none
    | none => none := by
  rw [toList_block, opening, List.append_assoc, singleBlock, List.cons_append,
    List.dropWhile_cons_of_neg (by decide)]
  rfl

/-- Balanced braces are enough for the block to end where it should. -/
theorem delimits_of_balanced (hParse : parse platform source = .ok e)
    (hBalanced : Balanced '\x7b' '\x7d' source.toList) : Delimits platform source e where
  single := by
    have hSplit : splitBlock 1 (spaced source ++ ['\x7d']) = some (spaced source, []) := by
      rw [splitBlock_eq_split]
      exact split_balanced braces_ne (balanced_spaced_iff.mpr hBalanced) []
    refine prepare_eq_expr_iff.mpr ⟨trim (spaced source), ?_, parse_spaced hParse⟩
    rw [trim_block, singleBlock_block, hSplit]
    rfl
  within := by
    intro position text before after hPlain
    have hText : before ++ (block source).toList ++ after =
        before ++ (opening ++ spaced source ++ '\x7d' :: after) := by
      rw [toList_block]
      simp
    have hLength : (spaced source).length = source.length + 2 := by
      simp [spaced, String.length_toList]
    rw [hText, pieces_append hPlain (by simp [opening]),
      pieces_block (balanced_spaced_iff.mpr hBalanced), parse_spaced hParse, hLength]
    show (pieces _ (position + before.length + (source.length + 2) + 3) [] after >>= _) = _
    have hPosition : position + before.length + (source.length + 2) + 3 =
        position + before.length + source.length + 5 := by omega
    rw [hPosition]
    cases pieces (language platform) (position + before.length + source.length + 5) [] after <;> rfl

/-- A block that is one expression ends with its last brace, so that all others are balanced. -/
theorem balanced_of_single (hSingle : prepare (language platform) (block source) = .ok (.expr e)) :
    Balanced '\x7b' '\x7d' source.toList := by
  obtain ⟨_, hSingle, _⟩ := prepare_eq_expr_iff.mp hSingle
  rw [trim_block, singleBlock_block] at hSingle
  cases hSplit : splitBlock 1 (spaced source ++ ['\x7d']) with
  | none =>
      rw [hSplit] at hSingle
      cases hSingle
  | some found =>
      obtain ⟨inner, more⟩ := found
      rw [hSplit] at hSingle
      simp only at hSingle
      split_ifs at hSingle with hMore
      rw [splitBlock_eq_split, split_eq_some_iff braces_ne] at hSplit
      obtain ⟨hText, hInner⟩ := hSplit
      -- The text ends with a brace, which is no blank.
      have hNil : more = [] := by
        rcases List.eq_nil_or_concat more with rfl | ⟨front, c, rfl⟩
        · rfl
        · have hLast := congrArg List.getLast? hText
          rw [List.concat_eq_append, ← List.cons_append, ← List.append_assoc,
            List.getLast?_append, List.getLast?_append] at hLast
          have hBrace : '\x7d' = c := by simpa using hLast
          rw [List.all_eq_true] at hMore
          have hSpace := hMore c (by simp)
          rw [← hBrace] at hSpace
          exact absurd hSpace (by decide)
      subst hNil
      have hSame : spaced source = inner := List.append_cancel_right hText
      rw [← balanced_spaced_iff, hSame]
      exact hInner

/-- The block of an accepted source ends where it should exactly when the braces of the
source are balanced, counted everywhere. -/
theorem delimits_iff (hParse : parse platform source = .ok e) :
    Delimits platform source e ↔ Balanced '\x7b' '\x7d' source.toList :=
  ⟨fun h => balanced_of_single h.single, delimits_of_balanced hParse⟩

/-- The identity has no braces, so its block ends where it should. -/
theorem delimits_iff_identity : parse (.ascii true) "." = .ok .identity ∧
    (Delimits (.ascii true) "." .identity ↔ Balanced '\x7b' '\x7d' ".".toList) := by
  have hParse : parse (.ascii true) "." = .ok .identity := by rfl
  exact ⟨hParse, delimits_iff hParse⟩

/-- A string with a brace in it is accepted, but its block ends in the string. -/
theorem brace_not_delimited : parse (.ascii true) "\"\x7d\"" = .ok (.str [.literal "\x7d"]) ∧
    ¬ Delimits (.ascii true) "\"\x7d\"" (.str [.literal "\x7d"]) := by
  refine ⟨by rfl, fun delimits => ?_⟩
  have hBalanced := balanced_of_single delimits.single
  exact absurd hBalanced.total (by decide)

end Jq
end OwsRuntime
