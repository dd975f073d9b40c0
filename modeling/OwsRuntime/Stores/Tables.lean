import Mathlib.Data.List.Nodup
import Mathlib.Data.List.Sort

/-! Tables of a relational database: one whose rows have a primary key, and one whose
rows are numbered in the order of their insertion. -/
namespace Tables

variable {κ ρ : Type}

/-- A table with a primary key. No two rows have the same one. -/
structure Keyed (κ ρ : Type) (key : ρ → κ) where
  rows : List ρ
  unique : (rows.map key).Nodup

namespace Keyed

variable {key : ρ → κ} [DecidableEq κ]

def empty (key : ρ → κ) : Keyed κ ρ key := ⟨[], List.nodup_nil⟩

/-- Puts a row in the place of the one with its key, or at the end. -/
def put (key : ρ → κ) (row : ρ) : List ρ → List ρ
  | [] => [row]
  | first :: rest => if key first = key row then row :: rest else first :: put key row rest

theorem key_mem_put {row : ρ} {rows : List ρ} {k : κ} :
    k ∈ (put key row rows).map key ↔ k = key row ∨ k ∈ rows.map key := by
  induction rows with
  | nil => simp [put]
  | cons first rest ih =>
      rw [put]
      split
      · rename_i hSame
        simp [hSame]
      · rw [List.map_cons, List.mem_cons, ih, List.map_cons, List.mem_cons]
        exact or_left_comm

theorem nodup_put {row : ρ} {rows : List ρ} (hNodup : (rows.map key).Nodup) :
    ((put key row rows).map key).Nodup := by
  induction rows with
  | nil => simp [put]
  | cons first rest ih =>
      rw [List.map_cons, List.nodup_cons] at hNodup
      rw [put]
      split
      · rename_i hSame
        rw [List.map_cons, List.nodup_cons, ← hSame]
        exact hNodup
      · rename_i hOther
        rw [List.map_cons, List.nodup_cons, key_mem_put]
        exact ⟨not_or.mpr ⟨hOther, hNodup.1⟩, ih hNodup.2⟩

/-- `INSERT … ON CONFLICT DO UPDATE`, with every other column updated. -/
def upsert (table : Keyed κ ρ key) (row : ρ) : Keyed κ ρ key :=
  ⟨put key row table.rows, nodup_put table.unique⟩

/-- `SELECT … WHERE key = k`. -/
def select (table : Keyed κ ρ key) (k : κ) : Option ρ := table.rows.find? fun row => key row = k

@[simp] theorem select_empty (k : κ) : (empty key).select k = none := rfl

theorem find_put {row : ρ} {rows : List ρ} (k : κ) :
    (put key row rows).find? (fun found => key found = k) =
      if key row = k then some row else rows.find? fun found => key found = k := by
  induction rows with
  | nil =>
      by_cases hKey : key row = k <;> simp [put, hKey]
  | cons first rest ih =>
      rw [put]
      split
      · rename_i hSame
        by_cases hKey : key row = k <;> simp [hSame, hKey]
      · rename_i hOther
        by_cases hFirst : key first = k
        · have hRow : key row ≠ k := fun hRow => hOther (hFirst.trans hRow.symm)
          simp [hFirst, hRow]
        · simp only [List.find?_cons, hFirst, decide_false]
          exact ih

theorem select_upsert (table : Keyed κ ρ key) (row : ρ) (k : κ) :
    (table.upsert row).select k = if key row = k then some row else table.select k :=
  find_put k

/-- Puts one row after the other. -/
def extend (table : Keyed κ ρ key) (rows : List ρ) : Keyed κ ρ key := rows.foldl upsert table

theorem key_mem_extend (table : Keyed κ ρ key) (rows : List ρ) (k : κ) :
    k ∈ (table.extend rows).rows.map key ↔ k ∈ table.rows.map key ∨ k ∈ rows.map key := by
  induction rows generalizing table with
  | nil => simp [extend]
  | cons row rest ih =>
      rw [extend, List.foldl_cons]
      refine (ih (table.upsert row)).trans ?_
      rw [upsert, key_mem_put, List.map_cons, List.mem_cons]
      tauto

/-- A table extended by rows with different keys answers the added row for each of their keys, and
what it had for the others. -/
theorem select_extend_rows (table : Keyed κ ρ key) {rows : List ρ} (hNodup : (rows.map key).Nodup)
    (k : κ) : (table.extend rows).select k =
      (rows.find? fun row => key row = k).or (table.select k) := by
  induction rows generalizing table with
  | nil => rfl
  | cons row rest ih =>
      rw [List.map_cons, List.nodup_cons] at hNodup
      rw [extend, List.foldl_cons]
      refine (ih (table.upsert row) hNodup.2).trans ?_
      rw [select_upsert, List.find?_cons]
      by_cases hKey : key row = k
      · have hNone : rest.find? (fun found => decide (key found = k)) = none := by
          rw [List.find?_eq_none]
          intro found hFound hSame
          have hBoth : key found = key row := (of_decide_eq_true hSame).trans hKey.symm
          exact hNodup.1 (List.mem_map.mpr ⟨found, hFound, hBoth⟩)
        simp [hKey, hNone]
      · simp [hKey]

/-- A row of the added table comes before one with the same key. -/
theorem select_extend (table more : Keyed κ ρ key) (k : κ) :
    (table.extend more.rows).select k = (more.select k).or (table.select k) :=
  select_extend_rows table more.unique k

/-- The order of the rows makes no difference to what is selected, as no two rows have one key. -/
theorem select_congr {table other : Keyed κ ρ key} (hSame : ∀ row, row ∈ table.rows ↔ row ∈ other.rows)
    (k : κ) : table.select k = other.select k := by
  have hMem : ∀ table : Keyed κ ρ key, ∀ row, table.select k = some row ↔ row ∈ table.rows ∧ key row = k := by
    intro table row
    constructor
    · intro hSelect
      exact ⟨List.mem_of_find?_eq_some hSelect, by simpa using List.find?_some hSelect⟩
    · rintro ⟨hRow, rfl⟩
      cases hSelect : table.select (key row) with
      | none =>
          rw [select, List.find?_eq_none] at hSelect
          exact absurd (decide_eq_true rfl) (hSelect row hRow)
      | some found =>
          have hFound := List.mem_of_find?_eq_some hSelect
          have hKey : key found = key row := by simpa using List.find?_some hSelect
          rw [List.inj_on_of_nodup_map table.unique hFound hRow hKey]
  apply Option.ext
  intro row
  rw [hMem, hMem, hSame]

end Keyed

/-- A table with an automatic row number. Numbers increase in the order of insertion. -/
structure Serial (ρ : Type) where
  rows : List (Nat × ρ)
  last : Nat
  bounded : ∀ row ∈ rows, row.1 ≤ last
  increasing : rows.Pairwise fun a b => a.1 < b.1

namespace Serial

def empty : Serial ρ := ⟨[], 0, by simp, List.Pairwise.nil⟩

/-- `INSERT`. The new row has a number above those of all rows so far. -/
def insert (table : Serial ρ) (row : ρ) : Serial ρ where
  rows := table.rows ++ [(table.last + 1, row)]
  last := table.last + 1
  bounded := by
    intro found hMem
    rcases List.mem_append.mp hMem with hOld | hNew
    · exact Nat.le_succ_of_le (table.bounded found hOld)
    · rw [List.mem_singleton.mp hNew]
  increasing := by
    rw [List.pairwise_append]
    refine ⟨table.increasing, List.pairwise_singleton _ _, ?_⟩
    intro old hOld new hNew
    rw [List.mem_singleton.mp hNew]
    exact Nat.lt_succ_of_le (table.bounded old hOld)

/-- The rows in the order of their insertion. -/
def values (table : Serial ρ) : List ρ := table.rows.map Prod.snd

@[simp] theorem values_empty : (empty : Serial ρ).values = [] := rfl

@[simp] theorem values_insert (table : Serial ρ) (row : ρ) :
    (table.insert row).values = table.values ++ [row] := by
  simp [values, insert]

/-- `SELECT … WHERE condition ORDER BY number`. -/
def select (table : Serial ρ) (condition : ρ → Bool) : List ρ :=
  ((table.rows.filter fun row => condition row.2).insertionSort fun a b => a.1 ≤ b.1).map Prod.snd

/-- Ordering by the row number gives the order of insertion. -/
theorem select_eq_filter (table : Serial ρ) (condition : ρ → Bool) :
    table.select condition = table.values.filter condition := by
  have hSorted : (table.rows.filter fun row => condition row.2).Pairwise fun a b => a.1 ≤ b.1 :=
    (table.increasing.imp fun h => Nat.le_of_lt h).filter _
  rw [select, hSorted.insertionSort_eq, values, List.filter_map]
  rfl

end Serial

end Tables
