import OwsRuntime.Engine.Worlds

/-! The trail of one execution in the world: what has been stored under its id and what
has been published since some moment. -/
namespace OwsRuntime

open Async Law

/-- Whether an operation was made by this runtime, under the given id. -/
def StoreEntry.own (executionId : String) (entry : StoreEntry) : Bool :=
  !entry.foreign && entry.op.executionId == executionId

def ownOps (executionId : String) (journal : List StoreEntry) : List StoreOp :=
  (journal.filter (StoreEntry.own executionId)).map StoreEntry.op

/-- The lifecycle events of an execution. -/
def announcements (executionId : String) (events : List (Option String × EventMessage)) :
    List EventMessage :=
  (events.filter fun event => event.1 = some executionId).map Prod.snd

/-- What has been published since an earlier moment. -/
def publishedSince (v w : World) : List (Option String × EventMessage) :=
  w.published.drop v.published.length

/-- The id of a run: it is the first one to be announced. -/
def runId (v w : World) : Option String := (publishedSince v w).findSome? Prod.fst

/-- The record which a store holds after some operations on it. -/
def latest (ops : List StoreOp) : Option ExecutionRecord := (ops.filterMap StoreOp.record?).getLast?

/-- Nobody else operates on a record, and no operation on it is refused. -/
def Solo (executionId : String) (journal : List StoreEntry) : Prop :=
  ∀ entry ∈ journal, entry.op.executionId = executionId →
    entry.foreign = false ∧ entry.accepted = true

section Lists

variable {executionId : String}

theorem ownOps_append (first second : List StoreEntry) :
    ownOps executionId (first ++ second) = ownOps executionId first ++ ownOps executionId second := by
  simp [ownOps]

theorem announcements_append (first second : List (Option String × EventMessage)) :
    announcements executionId (first ++ second) =
      announcements executionId first ++ announcements executionId second := by
  simp [announcements]

theorem latest_append (first second : List StoreOp) :
    latest (first ++ second) = (latest second).or (latest first) := by
  simp [latest, List.getLast?_append]

theorem Solo.of_append {first second : List StoreEntry} (solo : Solo executionId (first ++ second)) :
    Solo executionId first :=
  fun entry hMem => solo entry (List.mem_append_left _ hMem)

theorem mem_ownOps {op : StoreOp} {journal : List StoreEntry} (hMem : op ∈ ownOps executionId journal) :
    ∃ entry ∈ journal, entry.op = op ∧ entry.foreign = false ∧ op.executionId = executionId := by
  obtain ⟨entry, hEntry, rfl⟩ := List.mem_map.mp hMem
  obtain ⟨hJournal, hOwn⟩ := List.mem_filter.mp hEntry
  have hBoth : entry.foreign = false ∧ entry.op.executionId = executionId := by
    simpa [StoreEntry.own] using hOwn
  exact ⟨entry, hJournal, rfl, hBoth⟩

theorem StoreOp.record?_executionId {op : StoreOp} {record : ExecutionRecord}
    (hRecord : op.record? = some record) : op.executionId = record.executionId := by
  cases op <;> cases hRecord <;> rfl

/-- Under an id on which nobody else operates and no operation is refused, the store holds what the
last operation has stored, or what was there before. The induction is on the entries. -/
theorem load_replay_solo {entries : List StoreEntry} {store : ExecutionStore}
    (solo : Solo executionId entries) :
    (replay entries store).load executionId =
      (latest (ownOps executionId entries)).or (store.load executionId) := by
  induction entries generalizing store with
  | nil => rfl
  | cons entry rest ih =>
      have hRest : Solo executionId rest := fun other hMem => solo other (List.mem_cons_of_mem _ hMem)
      rw [replay_cons, ih hRest, ← List.singleton_append, ownOps_append, latest_append, Option.or_assoc]
      congr 1
      by_cases hId : entry.op.executionId = executionId
      · obtain ⟨hForeign, hAccepted⟩ := solo entry List.mem_cons_self hId
        have hOwn : ownOps executionId [entry] = [entry.op] := by
          simp [ownOps, StoreEntry.own, hForeign, hId]
        rw [hOwn, if_pos hAccepted]
        cases hOp : entry.op with
        | append event => rfl
        | create record =>
            rw [hOp] at hId
            subst hId
            exact ExecutionStore.load_insert _ _
        | update record =>
            rw [hOp] at hId
            subst hId
            exact ExecutionStore.load_insert _ _
      · have hOwn : ownOps executionId [entry] = [] := by simp [ownOps, StoreEntry.own, hId]
        rw [hOwn]
        split
        · apply StoreOp.load_apply
          intro record hRecord hSame
          exact hId ((StoreOp.record?_executionId hRecord).trans hSame)
        · rfl

end Lists

/-- What one world has more than an earlier one. -/
structure World.Trail (executionId : String) (v w : World) (added : List StoreOp)
    (events : List (Option String × EventMessage)) : Prop where
  draws : v.Draws (· ≠ executionId) → w.Draws (· ≠ executionId)
  journal : ∃ entries, w.journal = v.journal ++ entries
  ops : ownOps executionId w.journal = ownOps executionId v.journal ++ added
  published : w.published = v.published ++ events
  load : Solo executionId w.journal →
    w.store.load executionId = (latest added).or (v.store.load executionId)

namespace World.Trail

variable {executionId : String} {v w x : World} {added more : List StoreOp}
  {events others : List (Option String × EventMessage)}

theorem refl (w : World) : w.Trail executionId w [] [] :=
  ⟨id, ⟨[], by simp⟩, by simp, by simp, fun _ => rfl⟩

theorem trans (first : v.Trail executionId w added events)
    (second : w.Trail executionId x more others) :
    v.Trail executionId x (added ++ more) (events ++ others) := by
  obtain ⟨entries, hEntries⟩ := first.journal
  obtain ⟨rest, hRest⟩ := second.journal
  refine ⟨second.draws ∘ first.draws, ⟨entries ++ rest, ?_⟩, ?_, ?_, fun solo => ?_⟩
  · rw [hRest, hEntries, List.append_assoc]
  · rw [second.ops, first.ops, List.append_assoc]
  · rw [second.published, first.published, List.append_assoc]
  · have hEarlier : Solo executionId w.journal := by
      rw [hRest] at solo
      exact solo.of_append
    rw [second.load solo, first.load hEarlier, latest_append, Option.or_assoc]

/-- Nobody but the execution itself leaves anything under its id: all that was added to the store
there is its own, and nothing was announced in its name. -/
theorem of_moves {own : StoreOp → Prop} (moves : v.Moves (· ≠ executionId) own w) :
    ∃ added events, v.Trail executionId w added events ∧ (∀ op ∈ added, own op) ∧
      announcements executionId events = [] := by
  obtain ⟨entries, hJournal, hStore, hEntries⟩ := moves.stored
  obtain ⟨events, hPublished, hEvents⟩ := moves.announced
  refine ⟨ownOps executionId entries, events, ⟨moves.draws, ⟨entries, hJournal⟩, ?_, hPublished, ?_⟩,
    ?_, ?_⟩
  · rw [hJournal, ownOps_append]
  · intro solo
    rw [hStore]
    apply load_replay_solo
    intro entry hMem
    apply solo entry
    rw [hJournal]
    exact List.mem_append_right _ hMem
  · intro op hMem
    obtain ⟨entry, hEntry, rfl, hForeign, hId⟩ := mem_ownOps hMem
    rcases hEntries entry hEntry with hOther | hOther | hOwn
    · rw [hForeign] at hOther
      cases hOther
    · exact absurd hId hOther
    · exact hOwn
  · simp only [announcements, List.map_eq_nil_iff, List.filter_eq_nil_iff, decide_eq_true_eq]
    intro event hMem hId
    exact (hEvents event hMem executionId hId).1 rfl

/-- The environment leaves nothing there. -/
theorem of_drifts {allowed : engine.Choice → Prop} (drifts : Handler.Drifts allowed v w) :
    v.Trail executionId w [] [] := by
  induction drifts with
  | refl => exact refl v
  | @tail w x _ last ih =>
      obtain ⟨e, _, rfl⟩ := last
      have moves : w.Moves (· ≠ executionId) (fun _ => False) (disturb e w) := .of_disturb e
      obtain ⟨added, events, trail, hOwn, _⟩ := of_moves moves
      have hAdded : added = [] := List.eq_nil_iff_forall_not_mem.mpr hOwn
      have hEvents : events = [] := by
        have hSame : (disturb e w).published = w.published := by cases e <;> rfl
        have hPublished := trail.published
        rw [hSame] at hPublished
        simpa using hPublished
      subst hAdded hEvents
      exact ih.trans trail

/-- An operation under the id itself, accepted or not. -/
theorem of_entry {entry : StoreEntry} (hOwn : entry.own executionId = true) :
    v.Trail executionId { v with
      store := if entry.accepted then entry.op.apply v.store else v.store
      journal := v.journal ++ [entry] } [entry.op] [] := by
  have hOps : ownOps executionId [entry] = [entry.op] := by simp [ownOps, hOwn]
  refine ⟨id, ⟨[entry], rfl⟩, ?_, by simp, fun solo => ?_⟩
  · rw [ownOps_append, hOps]
  · have hEntry : Solo executionId [entry] :=
      fun other hMem => solo other (List.mem_append_right _ hMem)
    rw [← hOps]
    exact load_replay_solo hEntry

/-- An event that is published. -/
theorem of_publish (event : Option String × EventMessage) :
    v.Trail executionId { v with published := v.published ++ [event] } [] [event] :=
  ⟨id, ⟨[], by simp⟩, by simp, rfl, fun _ => rfl⟩

end World.Trail

end OwsRuntime
