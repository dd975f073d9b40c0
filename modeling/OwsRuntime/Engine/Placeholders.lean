import Mathlib.Data.List.Count
import Mathlib.Data.List.Infix
import OwsRuntime.Engine.Invokers

/-! Texts with placeholders, and what becomes of one as values are put in for their templates,
one template after another. A replacement reads the text so far, in which a template may stand
where the original has no placeholder for it. -/
namespace OwsRuntime

/-- The number of places where a pattern stands in a text. -/
def occurrences (pattern text : List Char) : Nat := text.tails.countP (pattern.isPrefixOf ·)

/-- A part of a text with placeholders. -/
inductive Part where
  | char (c : Char)
  | place (name : String)
deriving DecidableEq, Repr

namespace Part

def text : Part → List Char
  | char c => [c]
  | place name => template name

/-- The text of a part, with the value of a placeholder that has one. -/
def fill (value : String → Option String) : Part → List Char
  | char c => [c]
  | place name => ((value name).map String.toList).getD (template name)

/-- The parts which one placeholder leaves when its name gets a value. -/
def put (name value : String) : Part → List Part
  | char c => [char c]
  | place other => if other = name then value.toList.map char else [place other]

end Part

def sourceText (ps : List Part) : List Char := ps.flatMap Part.text

/-- The text in which all placeholders that have a value are replaced by it at once. -/
def substitute (value : String → Option String) (ps : List Part) : List Char :=
  ps.flatMap (Part.fill value)

/-- A placeholder is what stands between a brace and the first brace that closes it. -/
def partsFrom : Nat → List Char → List Part
  | 0, _ => []
  | _ + 1, [] => []
  | fuel + 1, c :: rest =>
      if c = '\x7b' ∧ '\x7d' ∈ rest then
        .place (String.ofList (rest.takeWhile (· ≠ '\x7d'))) ::
          partsFrom fuel ((rest.dropWhile (· ≠ '\x7d')).drop 1)
      else .char c :: partsFrom fuel rest

def parts (text : List Char) : List Part := partsFrom (text.length + 1) text

section Replacement

variable {pattern replacement text rest : List Char} {c : Char}

/-- A pattern occurs at the first character, or further on. -/
theorem occurrences_cons : occurrences pattern (c :: rest) =
    occurrences pattern rest + if pattern.isPrefixOf (c :: rest) then 1 else 0 := by
  rw [occurrences, List.tails_cons, List.countP_cons]
  rfl

/-- It occurs no less often with more text before it, -/
theorem occurrences_le_append (lead : List Char) :
    occurrences pattern rest ≤ occurrences pattern (lead ++ rest) := by
  induction lead with
  | nil => exact le_rfl
  | cons c lead ih =>
      rw [List.cons_append, occurrences_cons]
      omega

/-- and once more with itself before the text. -/
theorem occurrences_append (hPattern : pattern ≠ []) (text : List Char) :
    occurrences pattern text + 1 ≤ occurrences pattern (pattern ++ text) := by
  cases pattern with
  | nil => exact absurd rfl hPattern
  | cons c pattern =>
      have hPrefix : (c :: pattern).isPrefixOf (c :: (pattern ++ text)) = true :=
        List.isPrefixOf_iff_prefix.mpr (List.prefix_append (c :: pattern) text)
      have hRest : occurrences (c :: pattern) text ≤ occurrences (c :: pattern) (pattern ++ text) :=
        occurrences_le_append pattern
      rw [List.cons_append, occurrences_cons, if_pos hPrefix]
      omega

/-- A text in which a pattern occurs contains it. -/
theorem containsText_of_occurrences (h : 0 < occurrences pattern text) :
    containsText text pattern = true := by
  rw [occurrences, List.countP_pos_iff] at h
  rw [containsText, List.any_eq_true]
  exact h

/-- With more rounds than characters, the replacement comes to the end of the text. The induction is
on the rounds. -/
theorem replaceAll_enough (hPattern : pattern ≠ []) {fuel more : Nat} (hFuel : text.length < fuel)
    (hMore : text.length < more) :
    replaceAll pattern replacement fuel text = replaceAll pattern replacement more text := by
  induction fuel generalizing text more with
  | zero => omega
  | succ fuel ih =>
      obtain ⟨more, rfl⟩ : ∃ n, more = n + 1 := ⟨more - 1, by omega⟩
      cases text with
      | nil => rfl
      | cons c rest =>
          have hPositive : 0 < pattern.length := List.length_pos_iff.mpr hPattern
          rw [List.length_cons] at hFuel hMore
          have hDropped : ((c :: rest).drop pattern.length).length ≤ rest.length := by
            rw [List.length_drop, List.length_cons]
            omega
          have hAfter : replaceAll pattern replacement fuel ((c :: rest).drop pattern.length) =
              replaceAll pattern replacement more ((c :: rest).drop pattern.length) :=
            ih (by omega) (by omega)
          have hRest : replaceAll pattern replacement fuel rest =
              replaceAll pattern replacement more rest := ih (by omega) (by omega)
          rw [replaceAll, replaceAll, hAfter, hRest]

/-- The replacement in a text of any length. -/
def replaced (pattern replacement text : List Char) : List Char :=
  replaceAll pattern replacement (text.length + 1) text

/-- A pattern at the start is replaced, and then the rest of the text is. -/
theorem replaced_append (hPattern : pattern ≠ []) (rest : List Char) :
    replaced pattern replacement (pattern ++ rest) =
      replacement ++ replaced pattern replacement rest := by
  cases pattern with
  | nil => exact absurd rfl hPattern
  | cons c pattern =>
      have hPrefix : (c :: pattern).isPrefixOf (c :: (pattern ++ rest)) = true :=
        List.isPrefixOf_iff_prefix.mpr (List.prefix_append (c :: pattern) rest)
      have hDrop : (c :: (pattern ++ rest)).drop (c :: pattern).length = rest :=
        List.drop_left' rfl
      rw [replaced, List.cons_append, replaceAll, if_pos hPrefix, hDrop]
      congr 1
      refine replaceAll_enough hPattern ?_ (Nat.lt_succ_self _)
      rw [List.length_cons, List.length_append]
      omega

/-- Any other character is kept. -/
theorem replaced_cons (hNot : pattern.isPrefixOf (c :: rest) ≠ true) :
    replaced pattern replacement (c :: rest) = c :: replaced pattern replacement rest := by
  rw [replaced, replaceAll, if_neg hNot]
  rfl

/-- A text in which the pattern begins nowhere is passed over. -/
theorem replaced_passes {lead : List Char}
    (hSame : occurrences pattern (lead ++ rest) = occurrences pattern rest) :
    replaced pattern replacement (lead ++ rest) = lead ++ replaced pattern replacement rest := by
  induction lead with
  | nil => rfl
  | cons c lead ih =>
      have hLess : occurrences pattern rest ≤ occurrences pattern (lead ++ rest) :=
        occurrences_le_append lead
      rw [List.cons_append, occurrences_cons] at hSame
      have hNot : pattern.isPrefixOf (c :: (lead ++ rest)) ≠ true := by
        intro hPrefix
        rw [if_pos hPrefix] at hSame
        omega
      rw [if_neg hNot] at hSame
      rw [List.cons_append, replaced_cons hNot, ih hSame, List.cons_append]

end Replacement

section Putting

variable {name value : String} {ps rest : List Part} {given : String → Option String}

/-- The parts after a value has been put in for the placeholders of its name. -/
def putIn (name value : String) (ps : List Part) : List Part := ps.flatMap (Part.put name value)

/-- The parts after values have been put in one by one. -/
def putAll : List (String × String) → List Part → List Part
  | [], ps => ps
  | (name, value) :: order, ps => putAll order (putIn name value ps)

/-- The parts of a text without placeholders. -/
def chars (text : List Char) : List Part := text.map Part.char

/-- The source of a text is that of its parts, one by one, -/
@[simp] theorem sourceText_cons (p : Part) : sourceText (p :: ps) = p.text ++ sourceText ps :=
  List.flatMap_cons

/-- also of two lists of them. -/
@[simp] theorem sourceText_append (qs : List Part) :
    sourceText (qs ++ ps) = sourceText qs ++ sourceText ps := List.flatMap_append

/-- The parts are filled one by one, -/
@[simp] theorem substitute_cons (p : Part) :
    substitute given (p :: ps) = p.fill given ++ substitute given ps := List.flatMap_cons

/-- also those of two lists. -/
@[simp] theorem substitute_append (qs : List Part) :
    substitute given (qs ++ ps) = substitute given qs ++ substitute given ps := List.flatMap_append

/-- A value is put into each part. -/
@[simp] theorem putIn_cons (p : Part) :
    putIn name value (p :: ps) = p.put name value ++ putIn name value ps := List.flatMap_cons

/-- Characters are their own source, -/
@[simp] theorem sourceText_chars (text : List Char) : sourceText (chars text) = text := by
  induction text with
  | nil => rfl
  | cons c text ih => simpa [chars, Part.text] using ih

/-- nothing is filled into them, -/
@[simp] theorem substitute_chars (text : List Char) : substitute given (chars text) = text := by
  induction text with
  | nil => rfl
  | cons c text ih => simpa [chars, Part.fill] using ih

/-- and none of them is a placeholder. -/
@[simp] theorem count_chars (text : List Char) : (chars text).count (.place name) = 0 :=
  List.count_eq_zero.mpr fun hMem => by simp [chars] at hMem

/-- The template of a placeholder is not empty, -/
theorem template_ne_nil : template name ≠ [] := List.cons_ne_nil _ _

/-- A template stands wherever there is a placeholder for it. -/
theorem occurrences_template (text : List Char) :
    occurrences (template name) text + 1 ≤ occurrences (template name) (template name ++ text) :=
  occurrences_append template_ne_nil text

/-- so it occurs in the source at least as often as the placeholder does in the parts. -/
theorem count_le_occurrences :
    ps.count (.place name) ≤ occurrences (template name) (sourceText ps) := by
  induction ps with
  | nil => exact Nat.zero_le _
  | cons p ps ih =>
      rw [sourceText_cons, List.count_cons]
      by_cases hSame : p = .place name
      · have hMore : occurrences (template name) (sourceText ps) + 1 ≤
            occurrences (template name) (template name ++ sourceText ps) := occurrences_template _
        rw [hSame, Part.text, beq_self_eq_true, if_pos rfl]
        omega
      · have hRest : occurrences (template name) (sourceText ps) ≤
            occurrences (template name) (p.text ++ sourceText ps) := occurrences_le_append p.text
        rw [if_neg (by simpa using hSame)]
        omega

/-- Where a template stands for its placeholders only, replacing it fills them. -/
theorem replaced_sourceText
    (hOnly : occurrences (template name) (sourceText ps) = ps.count (.place name)) :
    replaced (template name) value.toList (sourceText ps) = sourceText (putIn name value ps) := by
  induction ps with
  | nil => rfl
  | cons p ps ih =>
      have hLeast : ps.count (.place name) ≤ occurrences (template name) (sourceText ps) :=
        count_le_occurrences
      rw [sourceText_cons, List.count_cons] at hOnly
      rw [sourceText_cons, putIn_cons, sourceText_append]
      by_cases hSame : p = .place name
      · have hMore : occurrences (template name) (sourceText ps) + 1 ≤
            occurrences (template name) (template name ++ sourceText ps) := occurrences_template _
        rw [hSame, Part.text, beq_self_eq_true, if_pos rfl] at hOnly
        have hPut : sourceText (p.put name value) = value.toList := by
          rw [hSame, Part.put, if_pos rfl]
          exact sourceText_chars _
        rw [hPut, hSame, Part.text, replaced_append template_ne_nil, ih (by omega)]
      · have hRest : occurrences (template name) (sourceText ps) ≤
            occurrences (template name) (p.text ++ sourceText ps) := occurrences_le_append p.text
        rw [if_neg (by simpa using hSame)] at hOnly
        have hPut : p.put name value = [p] := by
          cases p with
          | char c => rfl
          | place other => exact if_neg fun h => hSame (congrArg Part.place h)
        rw [hPut, replaced_passes (by omega), ih (by omega)]
        simp [sourceText]

/-- What is filled at once is what is filled one by one. -/
theorem substitute_putIn (value : String) :
    substitute given (putIn name value ps) =
      substitute (fun other => if other = name then some value else given other) ps := by
  induction ps with
  | nil => rfl
  | cons p ps ih =>
      rw [putIn_cons, substitute_append, substitute_cons, ih]
      congr 1
      cases p with
      | char c => rfl
      | place other =>
          by_cases hSame : other = name
          · rw [Part.put, if_pos hSame, Part.fill, if_pos hSame]
            exact substitute_chars _
          · rw [Part.put, if_neg hSame, Part.fill, if_neg hSame]
            simp [substitute, Part.fill]

/-- When no value is given, the source stays as it is. -/
theorem substitute_none : substitute (fun _ => none) ps = sourceText ps := by
  refine congrArg (ps.flatMap ·) (funext fun p => ?_)
  cases p <;> rfl

/-- When all values have been put in, the source is the one in which each placeholder has its own.
The induction is on the order of the values. -/
theorem sourceText_putAll (order : List (String × String)) :
    sourceText (putAll order ps) = substitute (List.lookup · order) ps := by
  induction order generalizing ps with
  | nil => exact substitute_none.symm
  | cons entry order ih =>
      rw [putAll, ih, substitute_putIn]
      congr 1
      funext other
      rw [List.lookup_cons]
      by_cases hSame : other = entry.1
      · simp [hSame]
      · have hBeq : (other == entry.1) = false := beq_false_of_ne hSame
        simp [hSame, hBeq]

/-- A value takes the place of its own placeholder, and leaves the others. -/
theorem count_putIn (other : String) :
    (putIn name value ps).count (.place other) =
      if other = name then 0 else ps.count (.place other) := by
  induction ps with
  | nil => simp [putIn]
  | cons p ps ih =>
      rw [putIn_cons, List.count_append, ih, List.count_cons]
      cases p with
      | char c => simp [Part.put]
      | place third =>
          by_cases hPut : third = name
          · have hChars : (value.toList.map Part.char).count (.place other) = 0 := count_chars _
            rw [Part.put, if_pos hPut, hChars]
            by_cases hOther : other = name
            · simp [hOther]
            · have hNe : third ≠ other := fun h => hOther (h ▸ hPut)
              simp [hOther, hNe]
          · rw [Part.put, if_neg hPut]
            by_cases hOther : other = name
            · simp [hOther, hPut]
            · simp [hOther, List.count_cons, Nat.add_comm]

/-- The placeholders which are left. -/
theorem count_putAll (order : List (String × String)) (other : String) :
    (putAll order ps).count (.place other) =
      if other ∈ order.map Prod.fst then 0 else ps.count (.place other) := by
  induction order generalizing ps with
  | nil => rfl
  | cons entry order ih =>
      rw [putAll, ih, count_putIn, List.map_cons]
      by_cases hMem : other ∈ order.map Prod.fst <;> by_cases hSame : other = entry.1 <;>
        simp [hMem, hSame]

end Putting

section Scan

/-- The text up to the first closing brace, and the text after it. -/
theorem split_close {rest : List Char} (hClose : '\x7d' ∈ rest) :
    ∃ more, rest.dropWhile (· ≠ '\x7d') = '\x7d' :: more ∧
      rest.takeWhile (· ≠ '\x7d') ++ '\x7d' :: more = rest := by
  cases hDrop : rest.dropWhile (· ≠ '\x7d') with
  | nil =>
      have hAll := List.dropWhile_eq_nil_iff.mp hDrop _ hClose
      simp at hAll
  | cons d more =>
      have hHead := List.head_dropWhile_not (· ≠ '\x7d') (l := rest)
        (by rw [hDrop]; exact List.cons_ne_nil _ _)
      simp only [hDrop, List.head_cons] at hHead
      have hBrace : d = '\x7d' := by simpa using hHead
      subst hBrace
      have hWhole : rest.takeWhile (· ≠ '\x7d') ++ rest.dropWhile (· ≠ '\x7d') = rest :=
        List.takeWhile_append_dropWhile
      rw [hDrop] at hWhole
      exact ⟨more, rfl, hWhole⟩

/-- A scan takes a text apart and loses nothing of it, when it has more rounds than the text has
characters. -/
theorem sourceText_partsFrom {fuel : Nat} {text : List Char} (hFuel : text.length < fuel) :
    sourceText (partsFrom fuel text) = text := by
  induction fuel generalizing text with
  | zero => omega
  | succ fuel ih =>
      cases text with
      | nil => rfl
      | cons c rest =>
          rw [List.length_cons] at hFuel
          rw [partsFrom]
          split
          next hPlace =>
              obtain ⟨more, hMore, hSplit⟩ := split_close hPlace.2
              have hLength := congrArg List.length hSplit
              rw [List.length_append, List.length_cons] at hLength
              have hRest : sourceText (partsFrom fuel more) = more := ih (by omega)
              rw [sourceText_cons, hMore, List.drop_one, List.tail_cons, hRest, Part.text, template,
                String.toList_ofList, hPlace.1, List.cons_append, List.cons_append,
                List.append_assoc, List.singleton_append, hSplit]
          next => rw [sourceText_cons, ih (by omega), Part.text, List.singleton_append]

/-- The parts of a text are its source. -/
theorem sourceText_parts (text : List Char) : sourceText (parts text) = text :=
  sourceText_partsFrom (Nat.lt_succ_self _)

end Scan

end OwsRuntime
