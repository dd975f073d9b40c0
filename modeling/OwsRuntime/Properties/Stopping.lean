import OwsRuntime.Engine.Runs

/-! When `end` and cancellation stop a workflow. The stop flags are read at the
head of each scope, but the body of a task starts only after its guard and the
scopes of its extensions, and the task of a fork branch has no scope. -/
namespace OwsRuntime

open Async

/-- No task body starts once a task has taken `end`, or once the execution has
been cancelled. -/
def Unstopped (trace : List Entry) : Prop :=
  ∀ past entry later ticket, trace = past ++ entry :: later → entry.note = .dispatched ticket →
    entry.cancelled = false ∧ ¬ Noted .ended past ∧ ¬ Noted .branchEnded past

/-- Nothing stops the execution between the admission of a task, or the dispatch
of the fork that runs it, and the dispatch of the task itself; and no task of a
fork branch has chosen `end`. -/
def StopsApart (trace : List Entry) : Prop :=
  ∀ past entry later ticket, trace = past ++ entry :: later → entry.note = .dispatched ticket →
    (entry.cancelled = true → ∃ opened ∈ past[ticket]?, opened.cancelled = true) ∧
      ¬ Noted .ended (past.drop ticket) ∧ ¬ Noted .branchEnded past

theorem noted_of_take_drop {n : Note} {past : List Entry} (count : Nat)
    (noted : Noted n past) : Noted n (past.take count) ∨ Noted n (past.drop count) := by
  obtain ⟨entry, hMem, hNote⟩ := noted
  rw [← List.take_append_drop count past, List.mem_append] at hMem
  exact hMem.imp (fun h => ⟨entry, h, hNote⟩) fun h => ⟨entry, h, hNote⟩

/-- What opened the way to a dispatch was itself checked, or is a dispatch. -/
theorem Accounted.opened {wf : CompiledWorkflow} {start : Nat} {past later : List Entry}
    {entry : Entry} {ticket : Nat} (accounted : Accounted wf start (past ++ entry :: later))
    (hEntry : entry.note = .dispatched ticket) :
    ∃ opened, past[ticket]? = some opened ∧
      ((opened.cancelled = false ∧ ¬ Noted .ended (past.take ticket)) ∨
        ∃ outer, opened.note = .dispatched outer) := by
  have hJustified := accounted.split rfl
  rw [Justified, hEntry] at hJustified
  obtain ⟨opened, hAt, ⟨tasks, index, hAdmitted⟩ | hDispatched⟩ := hJustified
  · have hOpened := accounted.of_append.at_ hAt
    rw [Justified, hAdmitted] at hOpened
    exact ⟨opened, hAt, Or.inl ⟨hOpened.1, hOpened.2.1⟩⟩
  · exact ⟨opened, hAt, Or.inr hDispatched⟩

/-- In an accounted trace, the execution stops in time if and only if nothing
stops it while a task is between its check and its body. -/
theorem Accounted.unstopped_iff_stopsApart {wf : CompiledWorkflow} {start : Nat} {trace : List Entry}
    (accounted : Accounted wf start trace) : Unstopped trace ↔ StopsApart trace := by
  constructor
  · intro unstopped past entry later ticket hTrace hEntry
    obtain ⟨hCancelled, hEnded, hBranch⟩ := unstopped past entry later ticket hTrace hEntry
    refine ⟨fun h => ?_, fun ⟨prior, hMem, hNote⟩ => ?_, hBranch⟩
    · rw [hCancelled] at h
      cases h
    · exact hEnded ⟨prior, List.mem_of_mem_drop hMem, hNote⟩
  · -- By induction on the position: the way to a dispatch was opened before it.
    intro apart past
    induction hLength : past.length using Nat.strong_induction_on generalizing past with
    | _ position ih =>
        intro entry later ticket hTrace hEntry
        obtain ⟨hCancelled, hEnded, hBranch⟩ := apart past entry later ticket hTrace hEntry
        obtain ⟨opened, hAt, hOpened⟩ := Accounted.opened (hTrace ▸ accounted) hEntry
        have hChecked : opened.cancelled = false ∧ ¬ Noted .ended (past.take ticket) := by
          rcases hOpened with hChecked | ⟨outer, hOuter⟩
          · exact hChecked
          · have hShorter : (past.take ticket).length < position := by
              have hLt := (List.getElem?_eq_some_iff.mp hAt).1
              rw [List.length_take]
              omega
            have hOuterTrace : trace =
                past.take ticket ++ opened :: (past.drop (ticket + 1) ++ entry :: later) := by
              rw [hTrace, ← List.cons_append, ← List.append_assoc, ← eq_take_append_drop hAt]
            obtain ⟨hFlag, hNot, _⟩ := ih _ hShorter _ rfl opened _ outer hOuterTrace hOuter
            exact ⟨hFlag, hNot⟩
        refine ⟨?_, fun hNoted => ?_, hBranch⟩
        · by_contra hSet
          obtain ⟨found, hFound, hFlag⟩ := hCancelled (by simpa using hSet)
          rw [hAt] at hFound
          cases hFound
          rw [hChecked.1] at hFlag
          cases hFlag
        · exact (noted_of_take_drop ticket hNoted).elim hChecked.2 hEnded

/-- In every run, no task body starts after `end` or cancellation if and only if
no stop falls between the check of a task's scope and the dispatch of its body,
and no task of a fork branch has chosen `end` before. -/
theorem Execution.Arises.unstopped_iff {env : RuntimeInner} {e : Execution}
    (arises : e.Arises env) : Unstopped e.trace ↔ StopsApart e.trace :=
  arises.faithful.accounted.unstopped_iff_stopsApart

def Note.isDispatch : Note → Bool
  | dispatched _ => true
  | _ => false

def Note.isEnd : Note → Bool
  | ended => true
  | _ => false

/-- The positions at which task bodies start, and at which `end` is taken. -/
def Execution.stops (e : Execution) : List Nat × List Nat :=
  (e.trace.findIdxs fun entry => entry.note.isDispatch,
    e.trace.findIdxs fun entry => entry.note.isEnd)

/-- A `do` task whose inner task takes `end`, and a task after it. -/
def innerEnds : CompiledWorkflow :=
  Sample.workflow
    [Sample.task "outer" none (.do_ [Sample.task "stop" (some "end") (.set (.map []))]),
      Sample.task "next" none (.set (.map []))] []

/-- An execution of `innerEnds`, after its end. -/
theorem unstopped_iff_innerEnds :
    ∃ e : Execution, e.Arises Sample.runtime ∧ e.stops = ([4, 7], [10]) ∧
      (Unstopped e.trace ↔ StopsApart e.trace) := by
  have hRun : (engine.run (Sample.begin_ innerEnds .null) (List.replicate 19 (.turn .here))).map
      (fun d => d.2.shared.stops) = some ([4, 7], [10]) := by decide +kernel
  obtain ⟨e, arises, _, hStops⟩ := Sample.arises_of_run hRun
  exact ⟨e, arises, hStops, arises.unstopped_iff⟩

/-- An extension of `set` tasks whose `before` scope takes `end`. -/
def extensionEnds : CompiledWorkflow :=
  Sample.workflow [Sample.task "extended" none (.set (.map []))]
    [{ extend := "set", when := none, after := []
       before := [Sample.task "stop" (some "end") (.set (.map []))] }]

theorem Unstopped.dispatch_le_ending {e : Execution} (unstopped : Unstopped e.trace)
    {dispatch ending : Nat} (hDispatch : dispatch ∈ e.stops.1) (hEnding : ending ∈ e.stops.2) :
    dispatch ≤ ending := by
  obtain ⟨hBound, hIsDispatch⟩ := List.mem_findIdxs_iff_exists_getElem_pos.mp hDispatch
  obtain ⟨hBound', hIsEnd⟩ := List.mem_findIdxs_iff_exists_getElem_pos.mp hEnding
  have hTrace := eq_take_append_drop (List.getElem?_eq_getElem hBound)
  by_contra hLater
  cases hNote : e.trace[dispatch].note with
  | dispatched ticket =>
      refine (unstopped _ _ _ ticket hTrace hNote).2.1 ⟨e.trace[ending], ?_, ?_⟩
      · exact List.mem_take_iff_getElem.mpr ⟨ending, by omega, rfl⟩
      · cases hOther : e.trace[ending].note with
        | ended => rfl
        | _ => simp [hOther, Note.isEnd] at hIsEnd
  | _ => simp [hNote, Note.isDispatch] at hIsDispatch

/-- The extended task is dispatched after its extension has ended the workflow. -/
theorem extensionEnds_not_unstopped :
    ∃ e : Execution, e.Arises Sample.runtime ∧ ¬ Unstopped e.trace := by
  have hRun : (engine.run (Sample.begin_ extensionEnds .null) (List.replicate 14 (.turn .here))).map
      (fun d => d.2.shared.stops) = some ([5, 11], [8]) := by decide +kernel
  obtain ⟨e, arises, _, hStops⟩ := Sample.arises_of_run hRun
  refine ⟨e, arises, fun unstopped => ?_⟩
  have hBefore : 11 ≤ 8 := unstopped.dispatch_le_ending (by simp [hStops]) (by simp [hStops])
  omega

end OwsRuntime
