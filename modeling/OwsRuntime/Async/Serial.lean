import OwsRuntime.Async.Inversion
import Mathlib.Data.List.Induction
import Mathlib.Data.Set.Insert

/-! Branches that take their turns one after another. Such a run is one of the whole
fan-out in which no branch starts before the ones that have started are over, and what
each branch makes of the world by itself is what the run makes of it. -/
namespace Async

variable {sig : Signature} {α β : Type}

/-- Whether a branch has returned, has panicked, or is no longer waited for. -/
def Program.Over (index : Nat) : Program sig α → Prop
  | .par _ _ _ _ finished _ => index ∈ finished.map fun branch => branch.1.val
  | _ => True

namespace Handler

variable {h : Handler sig}

open Program

/-- A run whose branches do not overlap, with the set of those that have taken a turn.
While none of them is under way, the world may change as `renews` says. -/
inductive Serial (renews : sig.World → sig.World → Prop) (c : Config sig α) :
    Set Nat → Config sig α → Prop where
  | start : Serial renews c ∅ c
  | env {begun : Set Nat} {d : Config sig α} (prior : Serial renews c begun d) (e : h.Env) :
      Serial renews c begun (d.1, d.2.mapWorld (h.disturb e))
  | turn {begun : Set Nat} {d e : Config sig α} {index : Nat} {move : Move}
      (prior : Serial renews c begun d)
      (hAlone : ∀ other ∈ begun, other ≠ index → d.1.Over other)
      (last : h.choose d (.turn (.branch index move)) = some e) :
      Serial renews c (insert index begun) e
  | crash {begun : Set Nat} {d e : Config sig α} {index : Nat} (prior : Serial renews c begun d)
      (last : h.choose d (.turn (.crash index)) = some e) : Serial renews c begun e
  | join {begun : Set Nat} {d e : Config sig α} (prior : Serial renews c begun d)
      (last : h.choose d (.turn .here) = some e) : Serial renews c begun e
  | renew {begun : Set Nat} {d : Config sig α} {w : sig.World} (prior : Serial renews c begun d)
      (hIdle : ∀ other ∈ begun, d.1.Over other) (hRenews : renews d.2.world w) :
      Serial renews c begun (d.1, { d.2 with world := w })

/-- A branch that takes all the turns of a run does not overlap with any other one, whatever it does
in them. The induction is on the turns. -/
theorem Serial.of_alone {renews : sig.World → sig.World → Prop} {c d : Config sig α} {index : Nat}
    {moves : List Move}
    (hRun : h.run c (moves.map fun move => .turn (.branch index move)) = some d) :
    ∃ begun, begun ⊆ {index} ∧ Serial (h := h) renews c begun d := by
  induction moves using List.reverseRecOn generalizing d with
  | nil =>
      cases hRun
      exact ⟨∅, Set.empty_subset _, .start⟩
  | append_singleton moves move ih =>
      rw [List.map_append, run_append, Option.bind_eq_some_iff] at hRun
      obtain ⟨e, hFirst, hLast⟩ := hRun
      obtain ⟨begun, hBegun, serial⟩ := ih hFirst
      rw [List.map_singleton, run_cons, Option.bind_eq_some_iff] at hLast
      obtain ⟨f, hTurn, hEnd⟩ := hLast
      cases hEnd
      refine ⟨insert index begun, ?_, serial.turn ?_ hTurn⟩
      · exact Set.insert_subset (Set.mem_singleton index) hBegun
      · exact fun other hMem hOther => absurd (hBegun hMem) hOther

/-- A turn of a branch is a turn of the branch by itself. -/
theorem choose_branch {count need : Nat} {locs : Fin count → sig.Local}
    {branches : Fin count → Program sig β} {finished : List (Fin count × Option β)}
    {next : List (Fin count × Option β) → Program sig α} {σ : State sig} {index : Nat} {move : Move}
    {e : Config sig α}
    (hTurn : h.choose (par count need locs branches finished next, σ)
      (.turn (.branch index move)) = some e) :
    ∃ i : Fin count, i.val = index ∧ i ∉ finished.map Prod.fst ∧
      ∃ c, h.choose (branches i, σ.fork (locs i)) (.turn move) = some c ∧
        e = closeBranch σ need locs branches finished next i c := by
  have hStep : h.step (par count need locs branches finished next) (.branch index move) σ =
      some e := hTurn
  rw [step] at hStep
  split at hStep
  · rename_i bound
    split at hStep
    · cases hStep
    · rename_i hRunning
      obtain ⟨c, hFirst, rfl⟩ := Option.map_eq_some_iff.mp hStep
      exact ⟨⟨index, bound⟩, rfl, hRunning, c, hFirst, rfl⟩
  · cases hStep

section Invariant

variable {count need : Nat} {locs : Fin count → sig.Local} {start : Fin count → Program sig β}
  {J : Set Nat → sig.World → Prop}

/-- Where a branch stands that is not over: it has not begun, or it is under way since
a moment at which `J` held. -/
def Stands (locs : Fin count → sig.Local) (start : Fin count → Program sig β)
    (J : Set Nat → sig.World → Prop) (begun : Set Nat) (i : Fin count) (c : Config sig β) : Prop :=
  (i.val ∉ begun ∧ c.1 = start i ∧ c.2.loc = locs i) ∨
    ∃ earlier σ, i.val ∉ earlier ∧ begun = insert i.val earlier ∧ J earlier σ.world ∧
      σ.loc = locs i ∧ Follows (h := h) (fun _ => True) (start i, σ) c

/-- What a serial run has done, while it waits for its branches and after that. -/
def Keeping (h : Handler sig) (locs : Fin count → sig.Local) (start : Fin count → Program sig β)
    (J : Set Nat → sig.World → Prop) (begun : Set Nat)
    (d : Config sig (List (Fin count × Option β))) : Prop :=
  J begun d.2.world ∧ ((∃ results, d.1 = done results) ∨
    ∃ need now branches finished, d.1 = par count need now branches finished done ∧
      ∀ i, i ∉ finished.map Prod.fst →
        Stands (h := h) locs start J begun i (branches i, d.2.fork (now i)))

variable {begun : Set Nat} {d e : Config sig (List (Fin count × Option β))}

theorem Stands.env {i : Fin count} {c : Config sig β}
    (stands : Stands (h := h) locs start J begun i c) (e : h.Env) :
    Stands (h := h) locs start J begun i (c.1, c.2.mapWorld (h.disturb e)) := by
  rcases stands with hFresh | ⟨earlier, σ, hNew, hBegun, hJ, hLoc, follows⟩
  · exact Or.inl hFresh
  · have hFirst : h.choose c (.env e) = some (c.1, c.2.mapWorld (h.disturb e)) := rfl
    have hLast : Follows (fun _ => True) c (c.1, c.2.mapWorld (h.disturb e)) :=
      Follows.head trivial hFirst (.refl _)
    exact Or.inr ⟨earlier, σ, hNew, hBegun, hJ, hLoc, follows.trans hLast⟩

theorem Keeping.env (keeping : Keeping h locs start J begun d) (e : h.Env)
    (hEnv : ∀ begun w, J begun w → J begun (h.disturb e w)) :
    Keeping h locs start J begun (d.1, d.2.mapWorld (h.disturb e)) := by
  obtain ⟨hJ, hProgram⟩ := keeping
  refine ⟨hEnv begun _ hJ, hProgram.imp id ?_⟩
  rintro ⟨need, now, branches, finished, hPar, hStands⟩
  exact ⟨need, now, branches, finished, hPar, fun i hRunning => (hStands i hRunning).env e⟩

/-- The turn of a branch all of whose begun companions are over. It starts, or goes on, where the
branches before it have left the state. -/
theorem Keeping.turn {index : Nat} {move : Move} (keeping : Keeping h locs start J begun d)
    (hAlone : ∀ other ∈ begun, other ≠ index → d.1.Over other)
    (hTurn : h.choose d (.turn (.branch index move)) = some e)
    (hRun : ∀ (begun : Set Nat) (i : Fin count) (σ : State sig) (c : Config sig β),
      i.val ∉ begun → J begun σ.world → σ.loc = locs i →
        Follows (h := h) (fun _ => True) (start i, σ) c → J (insert i.val begun) c.2.world) :
    Keeping h locs start J (insert index begun) e := by
  obtain ⟨p, σ⟩ := d
  obtain ⟨hJ, ⟨results, rfl⟩ | ⟨need, now, branches, finished, rfl, hStands⟩⟩ := keeping
  · have hStep : h.step (done results) (.branch index move) σ = some e := hTurn
    rw [h.step_done] at hStep
    cases hStep
  obtain ⟨i, rfl, hRunning, c, hFirst, rfl⟩ := choose_branch hTurn
  have hLast : Follows (fun _ => True) (branches i, σ.fork (now i)) c :=
    Follows.head trivial hFirst (.refl _)
  have hOwn : ∃ earlier τ, i.val ∉ earlier ∧ insert i.val begun = insert i.val earlier ∧
      J earlier τ.world ∧ τ.loc = locs i ∧ Follows (h := h) (fun _ => True) (start i, τ) c := by
    rcases hStands i hRunning with
      ⟨hFresh, hStart, hLoc⟩ | ⟨earlier, τ, hNew, hBegun, hEarlier, hLoc, follows⟩
    · refine ⟨begun, σ.fork (now i), hFresh, rfl, hJ, hLoc, ?_⟩
      rw [← hStart]
      exact hLast
    · refine ⟨earlier, τ, hNew, ?_, hEarlier, hLoc, follows.trans hLast⟩
      rw [hBegun, Set.insert_idem]
  refine ⟨?_, Or.inr ⟨need, _, _, _, rfl, ?_⟩⟩
  · obtain ⟨earlier, τ, hNew, hBegun, hEarlier, hLoc, follows⟩ := hOwn
    rw [hBegun]
    exact hRun earlier i τ c hNew hEarlier hLoc follows
  intro j hOther
  have hOther' : j ∉ finished.map Prod.fst := by
    intro hMem
    apply hOther
    cases c.1.value? with
    | none => exact hMem
    | some b => simp [hMem]
  by_cases hSame : j = i
  · subst hSame
    rw [Function.update_self, Function.update_self]
    exact Or.inr hOwn
  · rw [Function.update_of_ne hSame, Function.update_of_ne hSame]
    have hVal : j.val ≠ i.val := fun hEq => hSame (Fin.ext hEq)
    have hIdle : j.val ∉ begun := by
      intro hBegun
      obtain ⟨branch, hMem, hEq⟩ := List.mem_map.mp (hAlone j.val hBegun hVal)
      exact hOther' (List.mem_map.mpr ⟨branch, hMem, Fin.ext hEq⟩)
    rcases hStands j hOther' with ⟨_, hStart, hLoc⟩ | ⟨earlier, _, _, hBegun, _⟩
    · refine Or.inl ⟨?_, hStart, hLoc⟩
      simp [hVal, hIdle]
    · rw [hBegun] at hIdle
      exact absurd (Set.mem_insert _ _) hIdle

/-- A branch that panics is over and leaves the state as it was, so what holds between the branches
is kept. -/
theorem Keeping.crash {index : Nat} (keeping : Keeping h locs start J begun d)
    (hTurn : h.choose d (.turn (.crash index)) = some e) : Keeping h locs start J begun e := by
  obtain ⟨p, σ⟩ := d
  obtain ⟨hJ, ⟨results, rfl⟩ | ⟨need, now, branches, finished, rfl, hStands⟩⟩ := keeping
  · have hStep : h.step (done results) (.crash index) σ = some e := hTurn
    rw [h.step_done] at hStep
    cases hStep
  have hStep : h.step (par count need now branches finished done) (.crash index) σ = some e := hTurn
  rw [step] at hStep
  split at hStep
  · split at hStep
    · cases hStep
    · cases hStep
      refine ⟨hJ, Or.inr ⟨need, now, branches, _, rfl, ?_⟩⟩
      intro i hRunning
      apply hStands i
      intro hMem
      exact hRunning (by simp [hMem])
  · cases hStep

theorem Keeping.join (keeping : Keeping h locs start J begun d)
    (hTurn : h.choose d (.turn .here) = some e) : Keeping h locs start J begun e := by
  obtain ⟨p, σ⟩ := d
  obtain ⟨hJ, ⟨results, rfl⟩ | ⟨need, now, branches, finished, rfl, hStands⟩⟩ := keeping
  · have hStep : h.step (done results) .here σ = some e := hTurn
    rw [h.step_done] at hStep
    cases hStep
  have hStep : h.step (par count need now branches finished done) .here σ = some e := hTurn
  rw [step] at hStep
  split at hStep <;> cases hStep
  exact ⟨hJ, Or.inl ⟨finished, rfl⟩⟩

/-- While no branch is under way, the world may be another one. -/
theorem Keeping.renew {w : sig.World} (keeping : Keeping h locs start J begun d)
    (hIdle : ∀ other ∈ begun, d.1.Over other) (hJ : J begun w) :
    Keeping h locs start J begun (d.1, { d.2 with world := w }) := by
  obtain ⟨p, σ⟩ := d
  obtain ⟨_, ⟨results, rfl⟩ | ⟨need, now, branches, finished, rfl, hStands⟩⟩ := keeping
  · exact ⟨hJ, Or.inl ⟨results, rfl⟩⟩
  refine ⟨hJ, Or.inr ⟨need, now, branches, finished, rfl, ?_⟩⟩
  intro i hRunning
  rcases hStands i hRunning with hFresh | ⟨earlier, _, _, hBegun, _⟩
  · exact Or.inl hFresh
  · have hMem : i.val ∈ begun := by
      rw [hBegun]
      exact Set.mem_insert _ _
    obtain ⟨branch, hOver, hEq⟩ := List.mem_map.mp (hIdle i.val hMem)
    exact absurd (List.mem_map.mpr ⟨branch, hOver, Fin.ext hEq⟩) hRunning

/-- What every branch keeps by itself, and the environment too, a serial run keeps. -/
theorem Serial.keeps {renews : sig.World → sig.World → Prop} {σ : State sig}
    (serial : Serial (h := h) renews (par count need locs start [] done, σ) begun d)
    (hStart : J ∅ σ.world) (hEnv : ∀ begun w e, J begun w → J begun (h.disturb e w))
    (hRenews : ∀ begun w x, J begun w → renews w x → J begun x)
    (hRun : ∀ (begun : Set Nat) (i : Fin count) (σ : State sig) (c : Config sig β),
      i.val ∉ begun → J begun σ.world → σ.loc = locs i →
        Follows (h := h) (fun _ => True) (start i, σ) c → J (insert i.val begun) c.2.world) :
    J begun d.2.world := by
  have hKeeping : Keeping h locs start J begun d := by
    induction serial with
    | start => exact ⟨hStart, Or.inr ⟨need, locs, start, [], rfl, fun i _ => Or.inl ⟨id, rfl, rfl⟩⟩⟩
    | env _ e ih => exact ih.env e fun begun w => hEnv begun w e
    | turn _ hAlone last ih => exact ih.turn hAlone last hRun
    | crash _ last ih => exact ih.crash last
    | join _ last ih => exact ih.join last
    | renew _ hIdle hRenew ih => exact ih.renew hIdle (hRenews _ _ _ ih.1 hRenew)
  exact hKeeping.1

end Invariant

end Handler
end Async
