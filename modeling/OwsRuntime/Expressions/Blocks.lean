import OwsRuntime.Expressions.Engine

/-! The functions on blocks as they index the characters of a source. An index or a slice out of
bounds is a panic; there is none, and they find what the functions on texts find. -/
namespace OwsRuntime
namespace JqEngine

/-- `chars[start..stop]`, unless it panics. -/
def slice (chars : List Char) (start stop : Nat) : Option (List Char) :=
  if start ≤ stop ∧ stop ≤ chars.length then some ((chars.take stop).drop start) else none

/-- The loop over a string literal, from the index of its opening quote on. -/
def skipQuote (chars : List Char) (j : Nat) : Nat :=
  if h : j < chars.length then
    if chars[j] = '\\' then skipQuote chars (j + 2)
    else if chars[j] = '"' then j
    else skipQuote chars (j + 1)
  else j
termination_by chars.length - j

/-- The loop of `find_block_close`, from an index on. -/
def closeFrom (chars : List Char) (depth : Int) (i : Nat) : Option Nat :=
  if h : i < chars.length then
    if chars[i] = '\x7b' then closeFrom chars (depth + 1) (i + 1)
    else if chars[i] = '\x7d' then
      if depth - 1 = 0 then some i else closeFrom chars (depth - 1) (i + 1)
    else if chars[i] = '"' then
      if chars.length ≤ skipQuote chars i then none else closeFrom chars depth (i + 1)
    else closeFrom chars depth (i + 1)
  else none
termination_by chars.length - i

/-- `find_block_close` -/
def findBlockClose (chars : List Char) (open_ : Nat) : Option Nat := closeFrom chars 0 open_

section Closing

variable {chars : List Char} {i close : Nat} {depth : Int}

/-- A block closes at or after the index from which its end is looked for, and within the text. -/
theorem closeFrom_within (hClose : closeFrom chars depth i = some close) :
    i ≤ close ∧ close < chars.length := by
  induction hLeft : chars.length - i using Nat.strong_induction_on generalizing i depth with
  | _ left ih =>
      rw [closeFrom] at hClose
      split at hClose
      · rename_i hBound
        have hNext : ∀ {depth : Int}, closeFrom chars depth (i + 1) = some close →
            i ≤ close ∧ close < chars.length := by
          intro depth hNext
          have hWithin := ih (chars.length - (i + 1)) (by omega) hNext rfl
          omega
        split at hClose
        · exact hNext hClose
        · split at hClose
          · split at hClose
            · injection hClose with hSame
              omega
            · exact hNext hClose
          · split at hClose
            · split at hClose
              · cases hClose
              · exact hNext hClose
            · exact hNext hClose
      · cases hClose

/-- A quote is skipped no further than itself. -/
theorem skipQuote_quote (hBound : i < chars.length) (hQuote : chars[i] = '"') :
    skipQuote chars i = i := by
  rw [skipQuote, dif_pos hBound, if_neg (by rw [hQuote]; decide), if_pos hQuote]

/-- The end of a block, by the text that is left at an index. -/
theorem closeFrom_eq (d : Nat) : closeFrom chars (d + 1 : Nat) i =
    (splitBlock (d + 1) (chars.drop i)).map fun b => i + b.1.length := by
  induction hLeft : chars.length - i using Nat.strong_induction_on generalizing i d with
  | _ left ih =>
      rw [closeFrom]
      split
      · rename_i hBound
        have hNext : ∀ e : Nat, closeFrom chars (e + 1 : Nat) (i + 1) =
            (splitBlock (e + 1) (chars.drop (i + 1))).map fun b => i + 1 + b.1.length :=
          fun e => ih (chars.length - (i + 1)) (by omega) e rfl
        have hMap : ∀ (found : Option (List Char × List Char)) (c : Char),
            (found.map fun b => i + 1 + b.1.length) =
              (found.map fun b => (c :: b.1, b.2)).map fun b => i + b.1.length := by
          intro found c
          cases found with
          | none => rfl
          | some b =>
              simp only [Option.map_some, List.length_cons, Option.some.injEq]
              omega
        rw [List.drop_eq_getElem_cons hBound, splitBlock]
        generalize hChar : chars[i] = c
        by_cases hOpen : c = '\x7b'
        · have hDepth : ((d + 1 : Nat) : Int) + 1 = (d + 1 + 1 : Nat) := by omega
          rw [if_pos hOpen, if_pos hOpen, hDepth, hNext (d + 1), hMap _ c]
        · rw [if_neg hOpen, if_neg hOpen]
          by_cases hClose : c = '\x7d'
          · rw [if_pos hClose, if_pos hClose]
            cases d with
            | zero => simp
            | succ d =>
                have hDepth : ((d + 1 + 1 : Nat) : Int) - 1 = (d + 1 : Nat) := by omega
                rw [if_neg (by omega), if_neg (by omega), hDepth, hNext d, hMap _ c]
                rfl
          · rw [if_neg hClose, if_neg hClose]
            by_cases hQuote : c = '"'
            · rw [if_pos hQuote, skipQuote_quote hBound (hChar.trans hQuote),
                if_neg (Nat.not_le.mpr hBound), hNext d, hMap _ c]
            · rw [if_neg hQuote, hNext d, hMap _ c]
      · rename_i hBound
        rw [List.drop_eq_nil_of_le (Nat.not_lt.mp hBound), splitBlock]
        rfl

/-- The end of the block that opens at an index. -/
theorem findBlockClose_eq (hBound : i < chars.length) (hOpen : chars[i] = '\x7b') :
    findBlockClose chars i =
      (splitBlock 1 (chars.drop (i + 1))).map fun b => i + 1 + b.1.length := by
  have hDepth : (0 : Int) + 1 = (0 + 1 : Nat) := rfl
  rw [findBlockClose, closeFrom, dif_pos hBound, if_pos hOpen, hDepth, closeFrom_eq 0]

/-- A block is split off at its closing brace: what is inside, the brace and the rest are the whole
text. -/
theorem splitBlock_text {text : List Char} {depth : Nat} {b : List Char × List Char}
    (hSplit : splitBlock depth text = some b) : text = b.1 ++ '\x7d' :: b.2 := by
  induction text generalizing depth b with
  | nil => cases hSplit
  | cons c rest ih =>
      have hMap : ∀ {depth : Nat}, (splitBlock depth rest).map (fun b => (c :: b.1, b.2)) = some b →
          c :: rest = b.1 ++ '\x7d' :: b.2 := by
        intro depth hFound
        obtain ⟨found, hRest, rfl⟩ := Option.map_eq_some_iff.mp hFound
        rw [ih hRest, List.cons_append]
      rw [splitBlock] at hSplit
      split at hSplit
      · exact hMap hSplit
      · split at hSplit
        · rename_i hClose
          split at hSplit
          · cases hSplit
            rw [hClose, List.nil_append]
          · exact hMap hSplit
        · exact hMap hSplit

/-- What the slices of a block are, and that they are within bounds. -/
theorem slice_of_split {inner more : List Char} (hSplit : splitBlock 1 (chars.drop i) = some (inner, more)) :
    slice chars i (i + inner.length) = some inner ∧
      slice chars (i + inner.length + 1) chars.length = some more ∧
      chars.drop (i + inner.length + 1) = more := by
  have hText := splitBlock_text hSplit
  simp only at hText
  have hLength : (chars.drop i).length = inner.length + (more.length + 1) := by
    rw [hText, List.length_append, List.length_cons]
  rw [List.length_drop] at hLength
  have hMore : chars.drop (i + inner.length + 1) = more := by
    rw [Nat.add_assoc, ← List.drop_drop, hText, ← List.drop_drop, List.drop_left]
    rfl
  refine ⟨?_, ?_, hMore⟩
  · rw [slice, if_pos (by omega), List.drop_take, hText, Nat.add_sub_cancel_left, List.take_left]
  · rw [slice, if_pos (by omega), List.take_length, hMore]

end Closing

/-- `single_block` -/
def singleBlockAt (chars : List Char) : Option (Option (List Char)) :=
  match chars.findIdx? fun c => !isWhitespace c with
  | none => some none
  | some start =>
      if chars[start]? = some '$' ∧ chars[start + 1]? = some '\x7b' then
        match findBlockClose chars (start + 1) with
        | none => some none
        | some close => do
            let after ← slice chars (close + 1) chars.length
            if after.all isWhitespace then
              let inner ← slice chars (start + 2) close
              return some (trim inner)
            else return none
      else some none

variable (lang : ExpressionLanguage)

/-- The loop of `parse_blocks`, from an index on and after some literal text. -/
def piecesAt (chars : List Char) (i : Nat) (text : List Char) :
    Option (Except ExpressionError (List (Piece lang.Expr))) :=
  if hBound : i < chars.length then
    if chars[i] = '$' ∧ chars[i + 1]? = some '\x7b' then
      match hClose : findBlockClose chars (i + 1) with
      | none => some (.error (unterminated i))
      | some close =>
          match slice chars (i + 2) close with
          | none => none
          | some inner =>
              match lang.parse (String.ofList (trim inner)) with
              | .error e => some (.error e)
              | .ok expr => (piecesAt chars (close + 1) []).map fun found =>
                  found.map fun pieces => literal text ++ .expr expr :: pieces
    else piecesAt chars (i + 1) (text ++ [chars[i]])
  else some (.ok (literal text))
termination_by chars.length - i
decreasing_by
  · have hWithin := closeFrom_within hClose
    omega
  · omega

/-- `parse_blocks` -/
def parseBlocksAt (chars : List Char) : Option (Except ExpressionError (List (Piece lang.Expr))) :=
  (piecesAt lang chars 0 []).map fun found =>
    found.map fun pieces => if pieces.isEmpty then [.lit ""] else pieces

section Pieces

variable {lang} {chars text : List Char} {i : Nat}

/-- A block at an index of a text. -/
theorem opening_at (hBound : i < chars.length) (hOpen : chars[i] = '$' ∧ chars[i + 1]? = some '{') :
    ∃ hNext : i + 1 < chars.length, chars[i + 1] = '{' := by
  have hNext : i + 1 < chars.length := (List.getElem?_eq_some_iff.mp hOpen.2).1
  exact ⟨hNext, by rw [List.getElem?_eq_getElem hNext] at hOpen; exact Option.some.inj hOpen.2⟩

/-- The loop over the indices does not panic, and finds the pieces of the text that is left. -/
theorem piecesAt_eq : ∀ (fuel i : Nat) (text : List Char), chars.length - i < fuel →
    piecesAt lang chars i text = some (blockPieces lang fuel i text (chars.drop i))
  | 0, _, _, hFuel => absurd hFuel (Nat.not_lt_zero _)
  | fuel + 1, i, text, hFuel => by
      rw [piecesAt]
      split
      · rename_i hBound
        rw [List.drop_eq_getElem_cons hBound, blockPieces, List.head?_drop, List.tail_drop]
        split
        · rename_i hOpen
          obtain ⟨hNext, hBrace⟩ := opening_at hBound hOpen
          have hFound := findBlockClose_eq hNext hBrace
          split
          · rename_i hClose
            rw [hClose] at hFound
            rw [Option.map_eq_none_iff.mp hFound.symm]
          · rename_i close hClose
            rw [hClose] at hFound
            obtain ⟨⟨inner, more⟩, hSplit, rfl⟩ := Option.map_eq_some_iff.mp hFound.symm
            obtain ⟨hInner, -, hMore⟩ := slice_of_split hSplit
            rw [hSplit, hInner]
            simp only
            cases lang.parse (String.ofList (trim inner)) with
            | error e => rfl
            | ok expr =>
                have hPosition : i + inner.length + 3 = i + 1 + 1 + inner.length + 1 := by omega
                simp only
                rw [piecesAt_eq fuel _ _ (by omega), hMore, hPosition]
                cases blockPieces lang fuel (i + 1 + 1 + inner.length + 1) [] more <;> rfl
        · exact piecesAt_eq fuel _ _ (by omega)
      · rename_i hBound
        rw [List.drop_eq_nil_of_le (Nat.not_lt.mp hBound), blockPieces]

theorem parseBlocksAt_eq (chars : List Char) :
    parseBlocksAt lang chars = some (parseBlocks lang chars) := by
  rw [parseBlocksAt, piecesAt_eq (chars.length + 1) 0 [] (by omega), List.drop_zero, parseBlocks]
  cases blockPieces lang (chars.length + 1) 0 [] chars <;> rfl

theorem drop_findIdx (test : Char → Bool) (chars : List Char) :
    chars.drop (chars.findIdx fun c => !test c) = chars.dropWhile test := by
  induction chars with
  | nil => rfl
  | cons c rest ih =>
      rw [List.findIdx_cons, List.dropWhile_cons]
      cases test c <;> simp [ih]

/-- The end of a single block is looked for and cut out within bounds. -/
theorem singleBlockAt_eq (chars : List Char) : singleBlockAt chars = some (singleBlock chars) := by
  rw [singleBlockAt, singleBlock]
  have hDrop := drop_findIdx isWhitespace chars
  cases hStart : chars.findIdx? fun c => !isWhitespace c with
  | none =>
      have hBlank : chars.dropWhile isWhitespace = [] := by
        rw [List.dropWhile_eq_nil_iff]
        intro c hc
        simpa using List.findIdx?_eq_none_iff.mp hStart c hc
      rw [hBlank]
  | some start =>
      have hIndex : chars.findIdx (fun c => !isWhitespace c) = start :=
        (List.findIdx?_eq_some_iff_findIdx_eq.mp hStart).2
      rw [hIndex] at hDrop
      simp only
      by_cases hOpen : chars[start]? = some '$' ∧ chars[start + 1]? = some '{'
      · rw [if_pos hOpen]
        obtain ⟨hBound, hDollar⟩ := List.getElem?_eq_some_iff.mp hOpen.1
        obtain ⟨hNext, hBrace⟩ := List.getElem?_eq_some_iff.mp hOpen.2
        rw [← hDrop, List.drop_eq_getElem_cons hBound, List.drop_eq_getElem_cons hNext, hDollar,
          hBrace, findBlockClose_eq hNext hBrace]
        simp only
        cases hSplit : splitBlock 1 (chars.drop (start + 1 + 1)) with
        | none => rfl
        | some b =>
            obtain ⟨inner, more⟩ := b
            obtain ⟨hInner, hMore, -⟩ := slice_of_split hSplit
            simp only [Option.map_some, hMore, Option.bind_eq_bind, Option.bind_some, hInner]
            split <;> rfl
      · rw [if_neg hOpen]
        split
        · rename_i rest hRest
          rw [← hDrop] at hRest
          exfalso
          apply hOpen
          constructor
          · rw [← List.head?_drop, hRest]
            rfl
          · rw [← List.head?_drop, ← List.tail_drop, hRest]
            rfl
        · rfl

end Pieces

end JqEngine
end OwsRuntime
