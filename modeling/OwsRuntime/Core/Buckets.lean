import Mathlib.Algebra.GroupWithZero.Nat
import Mathlib.Data.List.Basic

/-! Counting samples by a number of theirs, and the buckets that lie between bounds. -/
namespace Buckets

variable {α β : Type}

/-- Counts one more in a place. -/
def bump (counts : List Nat) (i : Nat) : List Nat := counts.modify i (· + 1)

/-- The counts of the samples with each of the first numbers. -/
def tally (number : α → Nat) (n : Nat) (samples : List α) : List Nat :=
  samples.foldl (fun counts s => bump counts (number s)) (List.replicate n 0)

@[simp] theorem length_bump (counts : List Nat) (i : Nat) :
    (bump counts i).length = counts.length :=
  List.length_modify _ _ _

theorem sum_bump {counts : List Nat} {i : Nat} (hBound : i < counts.length) :
    (bump counts i).sum = counts.sum + 1 := by
  obtain ⟨before, c, after, rfl, rfl, hBump⟩ := List.exists_of_modify (· + 1) hBound
  rw [bump, hBump]
  simp only [List.sum_append, List.sum_cons]
  omega

theorem getElem?_bump {counts : List Nat} {i j c : Nat} (hCount : counts[j]? = some c) :
    (bump counts i)[j]? = some (c + if i = j then 1 else 0) := by
  rw [bump, List.getElem?_modify, hCount]
  split <;> simp_all

section Tally

variable {number : α → Nat} {n : Nat} {samples : List α}

/-- Counting the samples adds each to the bucket of its number and leaves the other buckets alone.
The induction is on the samples, with the counts so far generalised. -/
theorem foldl_bump (counts : List Nat) (hBound : ∀ s ∈ samples, number s < counts.length) :
    (samples.foldl (fun counts s => bump counts (number s)) counts).length = counts.length ∧
      (samples.foldl (fun counts s => bump counts (number s)) counts).sum =
        counts.sum + samples.length ∧
      ∀ j c, counts[j]? = some c →
        (samples.foldl (fun counts s => bump counts (number s)) counts)[j]? =
          some (c + samples.countP fun s => number s == j) := by
  induction samples generalizing counts with
  | nil => simp
  | cons s rest ih =>
      rw [List.forall_mem_cons] at hBound
      obtain ⟨hLength, hSum, hCounts⟩ := ih (bump counts (number s)) (by simpa using hBound.2)
      rw [List.foldl_cons]
      refine ⟨hLength.trans (length_bump _ _), ?_, fun j c hCount => ?_⟩
      · rw [hSum, sum_bump hBound.1, List.length_cons]
        omega
      · rw [hCounts j _ (getElem?_bump hCount), List.countP_cons]
        congr 1
        simp only [beq_iff_eq]
        omega

variable (hBound : ∀ s ∈ samples, number s < n)
include hBound

theorem length_tally : (tally number n samples).length = n := by
  have hFold := (foldl_bump (List.replicate n 0) (by simpa using hBound)).1
  rwa [List.length_replicate] at hFold

/-- Every sample is counted once. -/
theorem sum_tally : (tally number n samples).sum = samples.length := by
  have hFold := (foldl_bump (List.replicate n 0) (by simpa using hBound)).2.1
  rwa [List.sum_replicate_nat, Nat.mul_zero, Nat.zero_add] at hFold

theorem getElem?_tally {j : Nat} (hPlace : j < n) :
    (tally number n samples)[j]? = some (samples.countP fun s => number s == j) := by
  have hFold := (foldl_bump (List.replicate n 0) (by simpa using hBound)).2.2 j 0
    (by simp [hPlace])
  rwa [Nat.zero_add] at hFold

end Tally

section Bounds

variable {below : β → Bool} {bounds : List β}

/-- Where a test that a bound passes is passed by all later ones, the first bound that
passes it is the one after which the earlier ones end. -/
theorem findIdx_eq_iff (later : bounds.Pairwise fun a b => below a = true → below b = true)
    {i : Nat} (hPlace : i ≤ bounds.length) :
    bounds.findIdx below = i ↔
      (∀ j b, i = j + 1 → bounds[j]? = some b → below b = false) ∧
        ∀ b, bounds[i]? = some b → below b = true := by
  constructor
  · rintro rfl
    constructor
    · intro j b hj hb
      obtain ⟨hBound, rfl⟩ := List.getElem?_eq_some_iff.mp hb
      exact List.not_of_lt_findIdx (by omega)
    · exact fun b hb => List.findIdx_of_getElem?_eq_some hb
  · rintro ⟨hBefore, hHere⟩
    rcases Nat.lt_trichotomy (bounds.findIdx below) i with hLess | hSame | hMore
    · -- The first bound that passes comes before, and the last one before does not pass.
      obtain ⟨j, rfl⟩ : ∃ j, i = j + 1 := ⟨i - 1, by omega⟩
      have hBound : bounds.findIdx below < bounds.length := by omega
      have hFirst : below bounds[bounds.findIdx below] = true := List.findIdx_getElem
      have hLast := hBefore j bounds[j] rfl (List.getElem?_eq_getElem (by omega))
      rcases Nat.lt_or_eq_of_le (Nat.lt_succ_iff.mp hLess) with hEarlier | hSame
      · have hPass := List.pairwise_iff_getElem.mp later _ _ hBound (by omega) hEarlier hFirst
        exact absurd (hPass.symm.trans hLast) (by decide)
      · simp only [hSame] at hFirst
        exact absurd (hFirst.symm.trans hLast) (by decide)
    · exact hSame
    · have hBound : i < bounds.length := Nat.lt_of_lt_of_le hMore List.findIdx_le_length
      have hPass := hHere bounds[i] (List.getElem?_eq_getElem hBound)
      exact absurd (hPass.symm.trans (List.not_of_lt_findIdx hMore)) (by decide)

end Bounds

end Buckets
