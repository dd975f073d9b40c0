import Mathlib.Data.List.Perm.Subperm
import OwsRuntime.Core.Services

/-! Equality of JSON values as the expression language has it. It is an equivalence on the
values whose objects have one entry for each key, as all values of the runtime do. -/
namespace OwsRuntime

namespace Value

/-- Induction over the values within a value. -/
theorem induction {P : Value → Prop} (null : P null) (bool : ∀ b, P (bool b))
    (number : ∀ n, P (number n)) (string : ∀ s, P (string s))
    (array : ∀ items : List Value, (∀ v ∈ items, P v) → P (array items))
    (object : ∀ entries : List (String × Value), (∀ e ∈ entries, P e.2) → P (object entries))
    (v : Value) : P v := by
  refine Value.rec (motive_1 := P) (motive_2 := fun items => ∀ v ∈ items, P v)
    (motive_3 := fun entries => ∀ e ∈ entries, P e.2) (motive_4 := fun entry => P entry.2)
    null bool number string array object (by simp) ?_ (by simp) ?_ (fun _ _ hValue => hValue) v
  · intro first rest hFirst hRest
    exact List.forall_mem_cons.mpr ⟨hFirst, hRest⟩
  · intro first rest hFirst hRest
    exact List.forall_mem_cons.mpr ⟨hFirst, hRest⟩

mutual

/-- Every object has at most one entry for a key. -/
def WellFormed : Value → Prop
  | array items => ItemsWellFormed items
  | object entries => (entries.map Prod.fst).Nodup ∧ EntriesWellFormed entries
  | _ => True

def ItemsWellFormed : List Value → Prop
  | [] => True
  | v :: rest => WellFormed v ∧ ItemsWellFormed rest

def EntriesWellFormed : List (String × Value) → Prop
  | [] => True
  | (_, v) :: rest => WellFormed v ∧ EntriesWellFormed rest

end

theorem itemsWellFormed_iff (items : List Value) :
    ItemsWellFormed items ↔ ∀ v ∈ items, WellFormed v := by
  induction items with
  | nil => simp [ItemsWellFormed]
  | cons v rest ih => simp [ItemsWellFormed, ih]

theorem entriesWellFormed_iff (entries : List (String × Value)) :
    EntriesWellFormed entries ↔ ∀ e ∈ entries, WellFormed e.2 := by
  induction entries with
  | nil => simp [EntriesWellFormed]
  | cons e rest ih => simp [EntriesWellFormed, ih]

end Value

theorem F64.eq_iff {x y : F64} : x.eq y = true ↔
    (x.mantissa = y.mantissa ∧ x.exponent = y.exponent) ∧
      (x.negative = y.negative ∨ x.mantissa = 0) := by
  simp [F64.eq]

namespace Map

/-- A map in the order of its keys has each of them once. -/
theorem nodup_of_sorted {α : Type} {map : List (String × α)} (sorted : map.Pairwise fun a b => a.1 < b.1) :
    (map.map Prod.fst).Nodup := by
  rw [List.Nodup, List.pairwise_map]
  refine sorted.imp ?_
  intro a b hLess hSame
  rw [hSame] at hLess
  exact String.lt_irrefl _ hLess

theorem lookup_of_mem {entries : List (String × Value)} (hNodup : (entries.map Prod.fst).Nodup)
    {k : String} {v : Value} (hMem : (k, v) ∈ entries) : entries.lookup k = some v := by
  induction entries with
  | nil => cases hMem
  | cons e rest ih =>
      obtain ⟨l, w⟩ := e
      rw [List.map_cons, List.nodup_cons] at hNodup
      rcases List.mem_cons.mp hMem with hHead | hRest
      · cases hHead
        simp
      · have hKey : k ≠ l := by
          rintro rfl
          exact hNodup.1 (List.mem_map.mpr ⟨(k, v), hRest, rfl⟩)
        rw [lookup_cons_of_ne w rest hKey]
        exact ih hNodup.2 hRest

theorem mem_of_lookup {entries : List (String × Value)} {k : String} {v : Value}
    (hLookup : entries.lookup k = some v) : (k, v) ∈ entries := by
  obtain ⟨before, after, rfl, _⟩ := List.lookup_eq_some_iff.mp hLookup
  simp

section Order

variable {α β : Type} {map more : List (String × α)}

/-- Inserting keeps the keys of a map in order, whether the key is new, replaces an entry, or
belongs after the end. -/
theorem sorted_insert {key : String} {value : α} {map : List (String × α)}
    (sorted : map.Pairwise fun a b => a.1 < b.1) :
    (insert key value map).Pairwise fun a b => a.1 < b.1 := by
  induction map with
  | nil => exact List.pairwise_singleton _ _
  | cons entry rest ih =>
      obtain ⟨k, v⟩ := entry
      obtain ⟨hFirst, hRest⟩ := List.pairwise_cons.mp sorted
      rw [insert]
      split
      · rename_i hSame
        subst hSame
        exact List.pairwise_cons.mpr ⟨hFirst, hRest⟩
      · rename_i hNe
        split
        · rename_i hLess
          refine List.pairwise_cons.mpr ⟨?_, sorted⟩
          intro other hMem
          rcases List.mem_cons.mp hMem with rfl | hMem
          · exact hLess
          · exact String.lt_trans hLess (hFirst other hMem)
        · rename_i hNotLess
          have hLess : k < key := by
            by_contra hNot
            exact hNe (String.le_antisymm (String.not_lt.mp hNot) (String.not_lt.mp hNotLess))
          refine List.pairwise_cons.mpr ⟨?_, ih hRest⟩
          intro other hMem
          rcases mem_insert hMem with rfl | hMem
          · exact hLess
          · exact hFirst other hMem

/-- A map that is extended has the added value under each key added, and its own under the others,
where no key is added twice. -/
theorem lookup_extend_of_nodup {more map : List (String × α)} (hNodup : (more.map Prod.fst).Nodup)
    (key : String) : (extend map more).lookup key = (more.lookup key).or (map.lookup key) := by
  induction more generalizing map with
  | nil => rfl
  | cons entry rest ih =>
      obtain ⟨k, v⟩ := entry
      rw [List.map_cons, List.nodup_cons] at hNodup
      have hStep : extend map ((k, v) :: rest) = extend (insert k v map) rest := rfl
      rw [hStep, ih hNodup.2]
      by_cases hSame : key = k
      · subst hSame
        have hNone : rest.lookup key = none := by
          rw [List.lookup_eq_none_iff]
          intro other hMem
          have hOther : other.1 ≠ key := fun h => hNodup.1 (List.mem_map.mpr ⟨other, hMem, h⟩)
          simpa using Ne.symm hOther
        simp [hNone]
      · rw [lookup_cons_of_ne v rest hSame, lookup_insert_of_ne v map hSame]

/-- Inserting entries keeps the keys in order. -/
theorem sorted_extend (sorted : map.Pairwise fun a b => a.1 < b.1) :
    (extend map more).Pairwise fun a b => a.1 < b.1 := by
  induction more generalizing map with
  | nil => exact sorted
  | cons entry rest ih => exact ih (sorted_insert sorted)

/-- A map has the entries of the list that it is made of. -/
theorem lookup_extend_nil (hNodup : (more.map Prod.fst).Nodup) (key : String) :
    (extend [] more).lookup key = more.lookup key := by
  rw [lookup_extend_of_nodup hNodup, List.lookup_nil, Option.or_none]

/-- What is done to each value may be done before or after the entries are inserted. -/
theorem insert_map (f : α → β) (key : String) (value : α) :
    insert key (f value) (map.map fun e => (e.1, f e.2)) =
      (insert key value map).map fun e => (e.1, f e.2) := by
  induction map with
  | nil => rfl
  | cons entry rest ih =>
      rw [List.map_cons, insert, insert]
      split_ifs
      · rfl
      · rfl
      · rw [ih, List.map_cons]

theorem extend_map (f : α → β) :
    extend (map.map fun e => (e.1, f e.2)) (more.map fun e => (e.1, f e.2)) =
      (extend map more).map fun e => (e.1, f e.2) := by
  induction more generalizing map with
  | nil => rfl
  | cons entry rest ih =>
      have hStep : extend map (entry :: rest) = extend (insert entry.1 entry.2 map) rest := rfl
      rw [hStep, ← ih, ← insert_map]
      rfl

end Order

end Map

theorem entriesEqual_iff (x y : List (String × Value)) : entriesEqual x y = true ↔
    ∀ e ∈ x, ∃ w, y.lookup e.1 = some w ∧ valuesEqual e.2 w = true := by
  induction x with
  | nil => simp [entriesEqual]
  | cons e rest ih =>
      obtain ⟨k, v⟩ := e
      rw [entriesEqual, Bool.and_eq_true, ih, List.forall_mem_cons]
      cases y.lookup k <;> simp

/-- Lists of one length are equal as items when they are so at every index. The induction is on the
first list. -/
theorem itemsEqual_iff {x y : List Value} (hLength : x.length = y.length) :
    itemsEqual x y = true ↔ ∀ (i : Nat) (v w : Value), x[i]? = some v → y[i]? = some w →
      valuesEqual v w = true := by
  induction x generalizing y with
  | nil => simp [itemsEqual]
  | cons a as ih =>
      cases y with
      | nil => cases hLength
      | cons b bs =>
          rw [itemsEqual, Bool.and_eq_true, ih (Nat.succ.inj hLength)]
          constructor
          · rintro ⟨hFirst, hRest⟩ i v w hv hw
            cases i with
            | zero =>
                cases hv
                cases hw
                exact hFirst
            | succ i => exact hRest i v w hv hw
          · intro hAll
            exact ⟨hAll 0 a b rfl rfl, fun i v w hv hw => hAll (i + 1) v w hv hw⟩

/-- The entries of an object are among those of an equal one, and the other way round. -/
theorem exists_entry_of_equal {x y : List (String × Value)} (hNodup : (x.map Prod.fst).Nodup)
    (hLength : x.length = y.length)
    (hEntries : ∀ e ∈ x, ∃ w, y.lookup e.1 = some w ∧ valuesEqual e.2 w = true) :
    (y.map Prod.fst).Nodup ∧ ∀ k w, (k, w) ∈ y → ∃ v, (k, v) ∈ x ∧ valuesEqual v w = true := by
  have hSubset : x.map Prod.fst ⊆ y.map Prod.fst := by
    intro k hKey
    obtain ⟨e, hMem, rfl⟩ := List.mem_map.mp hKey
    obtain ⟨w, hLookup, _⟩ := hEntries e hMem
    exact List.mem_map.mpr ⟨(e.1, w), Map.mem_of_lookup hLookup, rfl⟩
  have hPerm : (x.map Prod.fst).Perm (y.map Prod.fst) :=
    (List.subperm_of_subset hNodup hSubset).perm_of_length_le (by simp [hLength])
  have hOther : (y.map Prod.fst).Nodup := hPerm.nodup_iff.mp hNodup
  refine ⟨hOther, fun k w hMem => ?_⟩
  obtain ⟨e, hEntry, rfl⟩ := List.mem_map.mp
    (hPerm.mem_iff.mpr (List.mem_map.mpr ⟨(k, w), hMem, rfl⟩))
  obtain ⟨w', hLookup, hEqual⟩ := hEntries e hEntry
  rw [Map.lookup_of_mem hOther hMem] at hLookup
  cases hLookup
  exact ⟨e.2, hEntry, hEqual⟩

namespace Value

/-- Equality is reflexive on values whose objects have each key once: a lookup of a key then finds
the entry itself. The induction is on the value. -/
theorem valuesEqual_refl {v : Value} (wf : v.WellFormed) : valuesEqual v v = true := by
  induction v using Value.induction with
  | null => simp [valuesEqual]
  | bool b => simp [valuesEqual]
  | string s => simp [valuesEqual]
  | number n => simp [valuesEqual, F64.eq]
  | array items ih =>
      rw [WellFormed, itemsWellFormed_iff] at wf
      rw [valuesEqual, beq_self_eq_true, Bool.true_and, itemsEqual_iff rfl]
      intro i v w hv hw
      cases hv.symm.trans hw
      have hMem := List.mem_of_getElem? hv
      exact ih v hMem (wf v hMem)
  | object entries ih =>
      rw [WellFormed, entriesWellFormed_iff] at wf
      rw [valuesEqual, beq_self_eq_true, Bool.true_and, entriesEqual_iff]
      intro e hMem
      exact ⟨e.2, Map.lookup_of_mem wf.1 hMem, ih e hMem (wf.2 e hMem)⟩

/-- Equality is symmetric on values whose objects have each key once. The induction is on the value,
with its items and its entries. -/
theorem valuesEqual_symm {v w : Value} (wf : v.WellFormed) (hEqual : valuesEqual v w = true) :
    valuesEqual w v = true := by
  induction v using Value.induction generalizing w with
  | null => cases w <;> simp_all [valuesEqual]
  | bool b => cases w <;> simp_all [valuesEqual]
  | string s => cases w <;> simp_all [valuesEqual]
  | number n =>
      cases w with
      | number m =>
          rw [valuesEqual, F64.eq_iff] at hEqual ⊢
          obtain ⟨⟨hMantissa, hExponent⟩, hSign⟩ := hEqual
          exact ⟨⟨hMantissa.symm, hExponent.symm⟩, hSign.imp Eq.symm (hMantissa ▸ ·)⟩
      | _ => simp [valuesEqual] at hEqual
  | array items ih =>
      cases w with
      | array others =>
          rw [valuesEqual, Bool.and_eq_true, beq_iff_eq] at hEqual ⊢
          obtain ⟨hLength, hItems⟩ := hEqual
          rw [WellFormed, itemsWellFormed_iff] at wf
          rw [itemsEqual_iff hLength] at hItems
          refine ⟨hLength.symm, (itemsEqual_iff hLength.symm).mpr fun i b a hb ha => ?_⟩
          have hMem := List.mem_of_getElem? ha
          exact ih a hMem (wf a hMem) (hItems i a b ha hb)
      | _ => simp [valuesEqual] at hEqual
  | object entries ih =>
      cases w with
      | object others =>
          rw [valuesEqual, Bool.and_eq_true, beq_iff_eq, entriesEqual_iff] at hEqual ⊢
          obtain ⟨hLength, hEntries⟩ := hEqual
          rw [WellFormed, entriesWellFormed_iff] at wf
          refine ⟨hLength.symm, fun e hMem => ?_⟩
          obtain ⟨v, hEntry, hValue⟩ :=
            (exists_entry_of_equal wf.1 hLength hEntries).2 e.1 e.2 hMem
          exact ⟨v, Map.lookup_of_mem wf.1 hEntry, ih (e.1, v) hEntry (wf.2 (e.1, v) hEntry) hValue⟩
      | _ => simp [valuesEqual] at hEqual

/-- Equality is transitive: numbers are compared by their rounded values, arrays item by item, and
objects key by key. -/
theorem valuesEqual_trans {u v w : Value} (first : valuesEqual u v = true)
    (second : valuesEqual v w = true) : valuesEqual u w = true := by
  induction u using Value.induction generalizing v w with
  | null => cases v <;> simp_all [valuesEqual]
  | bool b => cases v <;> simp_all [valuesEqual]
  | string s => cases v <;> simp_all [valuesEqual]
  | number n =>
      cases v with
      | number m =>
          cases w with
          | number k =>
              rw [valuesEqual, F64.eq_iff] at first second ⊢
              obtain ⟨⟨hMantissa, hExponent⟩, hSign⟩ := first
              obtain ⟨⟨hMantissa', hExponent'⟩, hSign'⟩ := second
              refine ⟨⟨hMantissa.trans hMantissa', hExponent.trans hExponent'⟩, ?_⟩
              rcases hSign with hSign | hZero
              · exact hSign'.imp hSign.trans hMantissa.trans
              · exact Or.inr hZero
          | _ => simp [valuesEqual] at second
      | _ => simp [valuesEqual] at first
  | array items ih =>
      cases v with
      | array others =>
          cases w with
          | array more =>
              rw [valuesEqual, Bool.and_eq_true, beq_iff_eq] at first second ⊢
              obtain ⟨hLength, hItems⟩ := first
              obtain ⟨hLength', hItems'⟩ := second
              rw [itemsEqual_iff hLength] at hItems
              rw [itemsEqual_iff hLength'] at hItems'
              refine ⟨hLength.trans hLength',
                (itemsEqual_iff (hLength.trans hLength')).mpr fun i a c ha hc => ?_⟩
              obtain ⟨b, hb⟩ : ∃ b, others[i]? = some b := by
                have hBound := (List.getElem?_eq_some_iff.mp ha).1
                exact ⟨_, List.getElem?_eq_getElem (hLength ▸ hBound)⟩
              exact ih a (List.mem_of_getElem? ha) (hItems i a b ha hb) (hItems' i b c hb hc)
          | _ => simp [valuesEqual] at second
      | _ => simp [valuesEqual] at first
  | object entries ih =>
      cases v with
      | object others =>
          cases w with
          | object more =>
              rw [valuesEqual, Bool.and_eq_true, beq_iff_eq, entriesEqual_iff] at first second ⊢
              refine ⟨first.1.trans second.1, fun e hMem => ?_⟩
              obtain ⟨v, hLookup, hFirst⟩ := first.2 e hMem
              obtain ⟨w, hLookup', hSecond⟩ := second.2 (e.1, v) (Map.mem_of_lookup hLookup)
              exact ⟨w, hLookup', ih e hMem hFirst hSecond⟩
          | _ => simp [valuesEqual] at second
      | _ => simp [valuesEqual] at first

end Value

end OwsRuntime
