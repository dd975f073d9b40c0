import OwsRuntime.Core.Brackets
import OwsRuntime.Expressions.Engine

/-! How the engine takes a text with blocks apart. -/
namespace OwsRuntime
namespace JqEngine

open Brackets

/-- The engine takes the text of a block by counting braces. -/
theorem splitBlock_eq_split (depth : Nat) (text : List Char) :
    splitBlock depth text = split '\x7b' '\x7d' depth text := by
  induction text generalizing depth with
  | nil => rfl
  | cons c rest ih => rw [splitBlock, split, ih, ih, ih]

theorem braces_ne : '\x7b' ≠ '\x7d' := by decide

section Pieces

variable (lang : ExpressionLanguage)

/-- The pieces of a text, from a position in it and after some literal text. -/
def pieces (position : Nat) (text source : List Char) :
    Except ExpressionError (List (Piece lang.Expr)) :=
  blockPieces lang (source.length + 1) position text source

variable {lang} {before source inner more : List Char}

/-- More rounds than a text has characters make no difference to its pieces: each round consumes a
character at least. -/
theorem blockPieces_fuel : ∀ {fuel fuel' : Nat} (position : Nat) (text source : List Char),
    source.length < fuel → source.length < fuel' →
      blockPieces lang fuel position text source = blockPieces lang fuel' position text source
  | 0, _, _, _, _, hFuel, _ => absurd hFuel (Nat.not_lt_zero _)
  | _, 0, _, _, _, _, hFuel => absurd hFuel (Nat.not_lt_zero _)
  | _ + 1, _ + 1, _, _, [], _, _ => rfl
  | fuel + 1, fuel' + 1, position, text, c :: rest, hFuel, hFuel' => by
      rw [List.length_cons] at hFuel hFuel'
      rw [blockPieces, blockPieces]
      by_cases hOpening : c = '$' ∧ rest.head? = some '\x7b'
      · rw [if_pos hOpening, if_pos hOpening]
        cases hSplit : splitBlock 1 rest.tail with
        | none => rfl
        | some found =>
            obtain ⟨inner, more⟩ := found
            rw [splitBlock_eq_split, split_eq_some_iff braces_ne] at hSplit
            have hLength := congrArg List.length hSplit.1
            rw [List.length_tail, List.length_append, List.length_cons] at hLength
            have hRest : ∀ position, blockPieces lang fuel position [] more =
                blockPieces lang fuel' position [] more :=
              fun position => blockPieces_fuel position [] more (by omega) (by omega)
            simp only [hRest]
      · rw [if_neg hOpening, if_neg hOpening]
        exact blockPieces_fuel _ _ rest (by omega) (by omega)

theorem pieces_nil (position : Nat) (text : List Char) :
    pieces lang position text [] = .ok (literal text) := rfl

theorem pieces_cons {c : Char} {rest : List Char} (position : Nat) (text : List Char)
    (hOpening : ¬ (c = '$' ∧ rest.head? = some '\x7b')) :
    pieces lang position text (c :: rest) = pieces lang (position + 1) (text ++ [c]) rest := by
  rw [pieces, blockPieces, if_neg hOpening]
  rfl

theorem not_hasBlock_cons {c : Char} {rest : List Char} (hPlain : ¬ HasBlock (c :: rest)) :
    ¬ (c = '$' ∧ rest.head? = some '\x7b') ∧ ¬ HasBlock rest := by
  constructor
  · rintro ⟨rfl, hHead⟩
    cases rest with
    | nil => cases hHead
    | cons d rest =>
        cases hHead
        exact hPlain ⟨[], rest, rfl⟩
  · exact fun hBlock => hPlain (hBlock.trans (List.suffix_cons c rest).isInfix)

/-- Literal text, before what does not open a block with its last character. -/
theorem pieces_append (hPlain : ¬ HasBlock before) (hNext : source.head? ≠ some '\x7b')
    (position : Nat) (text : List Char) : pieces lang position text (before ++ source) =
      pieces lang (position + before.length) (text ++ before) source := by
  induction before generalizing position text with
  | nil => rw [List.nil_append, List.append_nil, List.length_nil, Nat.add_zero]
  | cons c before ih =>
      obtain ⟨hOpening, hRest⟩ := not_hasBlock_cons hPlain
      have hHead : ¬ (c = '$' ∧ (before ++ source).head? = some '\x7b') := by
        cases before with
        | nil => exact fun h => hNext h.2
        | cons d before => exact hOpening
      rw [List.cons_append, pieces_cons _ _ hHead, ih hRest, List.append_assoc, List.length_cons,
        List.singleton_append, Nat.add_right_comm, Nat.add_assoc]

theorem pieces_literal (hPlain : ¬ HasBlock source) (position : Nat) (text : List Char) :
    pieces lang position text source = .ok (literal (text ++ source)) := by
  have hAppend := @pieces_append lang source [] hPlain (by nofun) position text
  rw [List.append_nil] at hAppend
  rw [hAppend, pieces_nil]

/-- A block whose braces are balanced, up to the one that closes it. -/
theorem pieces_block (hInner : Balanced '\x7b' '\x7d' inner) (position : Nat) (text : List Char) :
    pieces lang position text (opening ++ inner ++ '\x7d' :: more) = (do
      let expr ← lang.parse (String.ofList (trim inner))
      let rest ← pieces lang (position + inner.length + 3) [] more
      return literal text ++ .expr expr :: rest) := by
  have hText : opening ++ inner ++ '\x7d' :: more = '$' :: '\x7b' :: (inner ++ '\x7d' :: more) := by
    simp [opening]
  have hSplit : splitBlock 1 (inner ++ '\x7d' :: more) = some (inner, more) := by
    rw [splitBlock_eq_split]
    exact split_balanced braces_ne hInner more
  rw [hText, pieces, blockPieces, if_pos ⟨rfl, rfl⟩, List.tail_cons, hSplit]
  have hFuel : ∀ position, blockPieces lang ('\x7b' :: (inner ++ '\x7d' :: more)).length.succ position
      [] more = pieces lang position [] more := fun position =>
    blockPieces_fuel position [] more (by simp; omega) (Nat.lt_succ_self _)
  simp only [List.length_cons] at hFuel ⊢
  simp only [← hFuel]

/-- A source is one expression when it is a single block. -/
theorem prepare_eq_expr_iff {source : String} {e : lang.Expr} :
    prepare lang source = .ok (.expr e) ↔ ∃ inner, singleBlock (trim source.toList) = some inner ∧
      lang.parse (String.ofList inner) = .ok e := by
  rw [prepare]
  cases hSingle : singleBlock (trim source.toList) with
  | some inner =>
      cases hParse : lang.parse (String.ofList inner) <;> simp [hParse, Except.map]
  | none =>
      constructor
      · intro hPrepare
        simp only at hPrepare
        split_ifs at hPrepare
        · cases hPieces : parseBlocks lang (trim source.toList) <;>
            simp [hPieces, Except.map] at hPrepare
        · cases hPrepare
      · rintro ⟨inner, hInner, _⟩
        cases hInner

end Pieces

section Interpolation

variable {lang : ExpressionLanguage} {input : Value} {vars : Map} {rest : List (Piece lang.Expr)}

theorem interpolate_literal (text : List Char) : interpolate lang input vars (literal text ++ rest) =
    (interpolate lang input vars rest).map (String.ofList text ++ ·) := by
  rw [literal]
  by_cases hText : text.isEmpty = true
  · rw [if_pos hText, List.isEmpty_iff.mp hText, List.nil_append]
    cases interpolate lang input vars rest <;> simp [Except.map]
  · rw [if_neg hText, List.singleton_append, interpolate]
    cases interpolate lang input vars rest <;> rfl

theorem interpolate_expr {e : lang.Expr} {value : Value}
    (hValue : evaluateLast lang e input vars = .ok value) :
    interpolate lang input vars (.expr e :: rest) =
      (interpolate lang input vars rest).map (lang.toText value ++ ·) := by
  rw [interpolate, hValue]
  cases interpolate lang input vars rest <;> rfl

end Interpolation

end JqEngine
end OwsRuntime
