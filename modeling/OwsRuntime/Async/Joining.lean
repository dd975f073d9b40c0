import OwsRuntime.Async.Serial
import Mathlib.Data.List.Perm.Subperm

/-! What the list of the branches that have finished tells of them, in every run. -/
namespace Async.Handler

open Program

variable {sig : Signature} {h : Handler sig} {α β : Type} {count need : Nat}
  {next : List (Fin count × Option β) → Program sig α} {allowed : h.Choice → Prop}

/-- The list has every branch that has finished once, with what it has returned, and the
others are under way. -/
structure Joining (branches : Fin count → Program sig β) (finished : List (Fin count × Option β)) :
    Prop where
  once : (finished.map Prod.fst).Nodup
  returned : ∀ i b, (i, some b) ∈ finished → branches i = done b
  underWay : ∀ i, i ∉ finished.map Prod.fst → (branches i).value? = none

namespace Joining

variable {branches : Fin count → Program sig β} {finished : List (Fin count × Option β)}
  {i : Fin count}

theorem start (hUnderWay : ∀ i, (branches i).value? = none) : Joining branches [] :=
  ⟨List.nodup_nil, fun _ _ hMem => absurd hMem (by simp), fun i _ => hUnderWay i⟩

theorem once_append (joining : Joining branches finished) (hRunning : i ∉ finished.map Prod.fst)
    (reply : Option β) : ((finished ++ [(i, reply)]).map Prod.fst).Nodup := by
  rw [List.map_append, List.map_cons, List.map_nil, List.nodup_append]
  refine ⟨joining.once, by simp, ?_⟩
  intro a hMem b hLast hSame
  rw [List.mem_singleton] at hLast
  rw [hSame, hLast] at hMem
  exact hRunning hMem

/-- A branch panics. -/
theorem crash (joining : Joining branches finished) (hRunning : i ∉ finished.map Prod.fst) :
    Joining branches (finished ++ [(i, none)]) := by
  constructor
  · exact joining.once_append hRunning none
  · intro j b hMem
    have hEarlier : (j, some b) ∈ finished := by simpa using hMem
    exact joining.returned j b hEarlier
  · intro j hOther
    exact joining.underWay j fun hMem => hOther (by simp [hMem])

/-- A branch takes a turn. It stays under way, or it has returned and is counted among those that
have finished. -/
theorem turn (joining : Joining branches finished) (hRunning : i ∉ finished.map Prod.fst)
    (p : Program sig β) :
    Joining (Function.update branches i p)
      (match p.value? with
        | some b => finished ++ [(i, some b)]
        | none => finished) := by
  have hOthers : ∀ j b, (j, some b) ∈ finished → Function.update branches i p j = done b := by
    intro j b hMem
    have hDifferent : j ≠ i := by
      rintro rfl
      exact hRunning (List.mem_map.mpr ⟨_, hMem, rfl⟩)
    rw [Function.update_of_ne hDifferent]
    exact joining.returned j b hMem
  cases hValue : p.value? with
  | none =>
      refine ⟨joining.once, hOthers, fun j hOther => ?_⟩
      by_cases hSame : j = i
      · rw [hSame, Function.update_self]
        exact hValue
      · rw [Function.update_of_ne hSame]
        exact joining.underWay j hOther
  | some value =>
      refine ⟨joining.once_append hRunning _, fun j b hMem => ?_, fun j hOther => ?_⟩
      · rcases List.mem_append.mp hMem with hEarlier | hLast
        · exact hOthers j b hEarlier
        · simp only [List.mem_singleton, Prod.mk.injEq, Option.some.injEq] at hLast
          obtain ⟨rfl, rfl⟩ := hLast
          rw [Function.update_self]
          exact eq_done_of_value? hValue
      · have hParts : j ∉ finished.map Prod.fst ∧ j ≠ i := by simpa using hOther
        rw [Function.update_of_ne hParts.2]
        exact joining.underWay j hParts.1

/-- Every branch has finished when there are as many entries as branches. -/
theorem all (joining : Joining branches finished) (hAll : count ≤ finished.length) :
    (finished.map Prod.fst).Perm (List.finRange count) := by
  have hLength : count ≤ (finished.map Prod.fst).length := by simpa using hAll
  have hSub : List.Subperm (finished.map Prod.fst) (List.finRange count) :=
    joining.once.subperm fun i _ => List.mem_finRange i
  exact hSub.perm_of_length_le (by simpa using hLength)

/-- No more branches have finished than there are. -/
theorem length_le (joining : Joining branches finished) : finished.length ≤ count := by
  have hSub : List.Subperm (finished.map Prod.fst) (List.finRange count) :=
    joining.once.subperm fun i _ => List.mem_finRange i
  simpa using hSub.length_le

end Joining

/-- The program waits for its branches, of which these have finished. -/
def Awaits (need : Nat) (next : List (Fin count × Option β) → Program sig α)
    (finished : List (Fin count × Option β)) (d : Config sig α) : Prop :=
  ∃ locs branches, d.1 = par count need locs branches finished next ∧ Joining branches finished

variable {finished : List (Fin count × Option β)} {d e : Config sig α}

/-- A choice lets the program wait on for its branches. Once enough of them have finished, it may
also join them and go on with what they have returned. -/
theorem Awaits.choose (awaits : Awaits need next finished d) {choice : h.Choice}
    (hChoose : h.choose d choice = some e) :
    (∃ finished', Awaits need next finished' e) ∨
      need ≤ finished.length ∧ e = h.advance (next finished) d.2 := by
  obtain ⟨p, σ⟩ := d
  obtain ⟨locs, branches, rfl, joining⟩ := awaits
  cases choice with
  | env disturbance =>
      cases hChoose
      exact Or.inl ⟨finished, locs, branches, rfl, joining⟩
  | turn move =>
      cases move with
      | branch index move =>
          obtain ⟨i, _, hRunning, c, _, rfl⟩ := choose_branch hChoose
          exact Or.inl ⟨_, _, _, rfl, joining.turn hRunning c.1⟩
      | crash index =>
          have hStep : h.step (par count need locs branches finished next) (.crash index) σ =
            some e := hChoose
          rw [step] at hStep
          split at hStep
          · split at hStep <;> cases hStep
            rename_i hKeeps
            rw [not_or] at hKeeps
            exact Or.inl ⟨_, _, _, rfl, joining.crash hKeeps.1⟩
          · cases hStep
      | here =>
          have hStep : h.step (par count need locs branches finished next) .here σ = some e := hChoose
          rw [step] at hStep
          split at hStep <;> cases hStep
          rename_i hEnough
          exact Or.inr ⟨hEnough.1, rfl⟩
      | _ => cases hChoose

/-- A run waits for the branches, or goes on after it has joined enough of them. -/
theorem Follows.awaits_cases {c : Config sig α} (follows : Follows allowed c d)
    (awaits : Awaits need next finished c) :
    (∃ finished', Awaits need next finished' d) ∨
      ∃ finished' e, Awaits need next finished' e ∧ need ≤ finished'.length ∧
        Follows allowed c e ∧ Follows allowed (h.advance (next finished') e.2) d := by
  obtain ⟨choices, hAllowed, hRun⟩ := follows
  induction choices generalizing c finished with
  | nil =>
      cases hRun
      exact Or.inl ⟨finished, awaits⟩
  | cons choice rest ih =>
      rw [run_cons, Option.bind_eq_some_iff] at hRun
      obtain ⟨first, hFirst, hRest⟩ := hRun
      have hChoice := hAllowed choice List.mem_cons_self
      have hMore : ∀ x ∈ rest, allowed x := fun x hMem => hAllowed x (List.mem_cons_of_mem _ hMem)
      rcases awaits.choose hFirst with ⟨finished', hAwaits⟩ | ⟨hEnough, rfl⟩
      · rcases ih hAwaits hMore hRest with hStays | ⟨more, last, hLast, hEnough, hBefore, hAfter⟩
        · exact Or.inl hStays
        · exact Or.inr ⟨more, last, hLast, hEnough, hBefore.head hChoice hFirst, hAfter⟩
      · exact Or.inr ⟨finished, c, awaits, hEnough, .refl c, rest, hMore, hRest⟩

/-- Once all branches have finished, the next turn may join them. -/
theorem Awaits.join {finished : List (Fin count × Option β)} (awaits : Awaits count next finished d)
    (hAll : ∀ i : Fin count, i ∈ finished.map Prod.fst) :
    h.step d.1 .here d.2 = some (h.advance (next finished) d.2) := by
  obtain ⟨p, σ⟩ := d
  obtain ⟨locs, branches, rfl, joining⟩ := awaits
  have hLength : count ≤ finished.length := by
    have hSub : List.Subperm (List.finRange count) (finished.map Prod.fst) :=
      (List.nodup_finRange count).subperm fun i _ => hAll i
    simpa using hSub.length_le
  rw [step, if_pos ⟨hLength, fun i => Or.inl (hAll i)⟩]

end Async.Handler
