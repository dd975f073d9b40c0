import OwsRuntime.Async.Triples
import OwsRuntime.Engine.EngineRequests

/-! What executions do to the world which they share: they store records and events,
announce lifecycles and draw ids. -/
namespace OwsRuntime

open Async Law

/-- A store after those of the given operations which it has accepted. -/
def replay (entries : List StoreEntry) (store : ExecutionStore) : ExecutionStore :=
  entries.foldl (fun s entry => if entry.accepted then entry.op.apply s else s) store

@[simp] theorem replay_nil (store : ExecutionStore) : replay [] store = store := rfl

@[simp] theorem replay_cons (entry : StoreEntry) (entries : List StoreEntry)
    (store : ExecutionStore) : replay (entry :: entries) store =
      replay entries (if entry.accepted then entry.op.apply store else store) := rfl

theorem replay_append (first second : List StoreEntry) (store : ExecutionStore) :
    replay (first ++ second) store = replay second (replay first store) :=
  List.foldl_append

namespace ExecutionStore

variable {store : ExecutionStore} {executionId : String}

theorem load_insert_ne {record : ExecutionRecord} (hOther : record.executionId ≠ executionId) :
    (store.insert record).load executionId = store.load executionId := by
  have hHead : (executionId == record.executionId) = false := by
    simpa using Ne.symm hOther
  simp only [insert, load, List.lookup_cons, hHead]
  induction store.records with
  | nil => rfl
  | cons entry rest ih =>
      obtain ⟨id, other⟩ := entry
      by_cases hEntry : id = record.executionId
      · subst hEntry
        simp [List.lookup_cons, hHead, ih]
      · simp [hEntry, List.lookup_cons, ih]

@[simp] theorem load_appendEvent (event : StoredEvent) :
    (store.appendEvent event).load executionId = store.load executionId := rfl

end ExecutionStore

/-- An operation on another record leaves a record as it is. -/
theorem StoreOp.load_apply {op : StoreOp} {store : ExecutionStore} {executionId : String}
    (hOther : ∀ record, op.record? = some record → record.executionId ≠ executionId) :
    (op.apply store).load executionId = store.load executionId := by
  cases op with
  | create record => exact ExecutionStore.load_insert_ne (hOther record rfl)
  | update record => exact ExecutionStore.load_insert_ne (hOther record rfl)
  | append event => rfl

theorem load_replay {entries : List StoreEntry} {store : ExecutionStore} {executionId : String}
    (hOther : ∀ entry ∈ entries, ∀ record, entry.op.record? = some record →
      record.executionId ≠ executionId) :
    (replay entries store).load executionId = store.load executionId := by
  induction entries generalizing store with
  | nil => rfl
  | cons entry rest ih =>
      rw [replay_cons, ih fun other hMem => hOther other (List.mem_cons_of_mem _ hMem)]
      split
      · exact StoreOp.load_apply (hOther entry List.mem_cons_self)
      · rfl

/-- The types of the events which executions announce. -/
def EventMessage.Announced (event : EventMessage) : Prop :=
  event.type = "io.serverlessworkflow.workflow.started.v1" ∨
    event.type = "io.serverlessworkflow.workflow.completed.v1"

/-- How the world moves while executions with certain ids are under way, and another one
which performs certain operations. -/
structure World.Moves (ids : String → Prop) (own : StoreOp → Prop) (v w : World) : Prop where
  uuid : w.uuid = v.uuid
  uuids : v.uuids ≤ w.uuids
  stored : ∃ entries, w.journal = v.journal ++ entries ∧ w.store = replay entries v.store ∧
    ∀ entry ∈ entries, entry.foreign = true ∨ ids entry.op.executionId ∨ own entry.op
  announced : ∃ events, w.published = v.published ++ events ∧
    ∀ event ∈ events, ∀ id, event.1 = some id → ids id ∧ event.2.Announced

namespace World.Moves

variable {ids : String → Prop} {own : StoreOp → Prop} {v w x : World}

theorem refl (w : World) : w.Moves ids own w :=
  ⟨rfl, le_rfl, ⟨[], by simp, rfl, by simp⟩, [], by simp, by simp⟩

theorem trans (first : v.Moves ids own w) (second : w.Moves ids own x) : v.Moves ids own x := by
  obtain ⟨entries, hJournal, hStore, hEntries⟩ := first.stored
  obtain ⟨more, hJournal', hStore', hMore⟩ := second.stored
  obtain ⟨events, hPublished, hEvents⟩ := first.announced
  obtain ⟨others, hPublished', hOthers⟩ := second.announced
  refine ⟨second.uuid.trans first.uuid, first.uuids.trans second.uuids,
    ⟨entries ++ more, ?_, ?_, ?_⟩, events ++ others, ?_, ?_⟩
  · rw [hJournal', hJournal, List.append_assoc]
  · rw [hStore', hStore, replay_append]
  · intro entry hMem
    exact (List.mem_append.mp hMem).elim (hEntries entry) (hMore entry)
  · rw [hPublished', hPublished, List.append_assoc]
  · intro event hMem
    exact (List.mem_append.mp hMem).elim (hEvents event) (hOthers event)

/-- What is done to nothing but the rest of the world. -/
theorem of_eq (hUuid : w.uuid = v.uuid) (hUuids : v.uuids ≤ w.uuids)
    (hJournal : w.journal = v.journal) (hStore : w.store = v.store)
    (hPublished : w.published = v.published) : v.Moves ids own w :=
  ⟨hUuid, hUuids, ⟨[], by simp [hJournal], hStore, by simp⟩, [], by simp [hPublished], by simp⟩

theorem of_store (entry : StoreEntry)
    (hEntry : entry.foreign = true ∨ ids entry.op.executionId ∨ own entry.op) :
    v.Moves ids own { v with
      store := if entry.accepted then entry.op.apply v.store else v.store
      journal := v.journal ++ [entry] } := by
  refine ⟨rfl, le_rfl, ⟨[entry], rfl, rfl, ?_⟩, [], by simp, by simp⟩
  intro other hMem
  obtain rfl := List.mem_singleton.mp hMem
  exact hEntry

theorem of_publish {lifecycle : Option String} {event : EventMessage}
    (hEvent : ∀ id, lifecycle = some id → ids id ∧ event.Announced) :
    v.Moves ids own { v with published := v.published ++ [(lifecycle, event)] } := by
  refine ⟨rfl, le_rfl, ⟨[], by simp, rfl, by simp⟩, [(lifecycle, event)], rfl, ?_⟩
  intro other hMem
  obtain rfl := List.mem_singleton.mp hMem
  exact hEvent

theorem of_disturb (e : Disturbance) : v.Moves ids own (disturb e v) := by
  cases e with
  | store op =>
      exact of_store { op, foreign := true, accepted := true } (Or.inl rfl)
  | drawUuids count => exact of_eq rfl (Nat.le_add_right _ _) rfl rfl rfl
  | _ => exact of_eq rfl le_rfl rfl rfl rfl

theorem of_drifts {allowed : engine.Choice → Prop} (drifts : Handler.Drifts allowed v w) :
    v.Moves ids own w := by
  induction drifts with
  | refl => exact refl v
  | tail _ last ih =>
      obtain ⟨e, _, rfl⟩ := last
      exact ih.trans (of_disturb e)

end World.Moves

/-- Executions with certain ids store records and events of their own and announce
their own lifecycles. Another execution performs the operations `own`. -/
def worldLaw (ids : String → Prop) (own : StoreOp → Prop) : Law engine where
  may _
    | .store op => ids op.executionId ∨ own op
    | .publish (some id) event => ids id ∧ event.Announced
    | _ => True
  fits
    | .newUuid, id => ids id
    | _, _ => True
  enters _ := True

/-- The ids that are yet to be drawn. -/
def World.Draws (ids : String → Prop) (w : World) : Prop := ∀ k, w.uuids ≤ k → ids (w.uuid k)

section

variable {ids : String → Prop} {own : StoreOp → Prop}

theorem World.Moves.draws {v w : World} (moves : v.Moves ids own w) (draws : v.Draws ids) :
    w.Draws ids := by
  intro k hDrawn
  rw [moves.uuid]
  exact draws k (moves.uuids.trans hDrawn)

/-- A request of an execution moves the world only as its law allows: under the ids it may use, and
with the store operations that are its own. -/
theorem perform_moves {a : Act} {σ τ : EngineState} {reply : a.Resp} (e : Execution)
    (hMay : (worldLaw ids own).may e a) (hPerform : perform a σ = some (reply, τ)) :
    σ.world.Moves ids own τ.world := by
  cases a with
  | store op =>
      rw [perform] at hPerform
      split at hPerform <;> cases hPerform
      · exact .of_store { op, foreign := false, accepted := false } (Or.inr hMay)
      · cases op <;> exact .of_store { op := _, foreign := false, accepted := true } (Or.inr hMay)
  | publish lifecycle event =>
      cases hPerform
      apply World.Moves.of_publish
      rintro id rfl
      exact hMay
  | newUuid =>
      cases hPerform
      exact .of_eq rfl (Nat.le_succ _) rfl rfl rfl
  | setScopeExited by_ => cases by_ <;> cases hPerform <;> exact .refl _
  | tryContext =>
      rw [perform] at hPerform
      split at hPerform <;> cases hPerform <;> exact .refl _
  | lockContext =>
      rw [perform] at hPerform
      split at hPerform <;> cases hPerform
      exact .refl _
  | load executionId =>
      rw [perform] at hPerform
      split at hPerform <;> cases hPerform <;> exact .refl _
  | receive epoch =>
      obtain ⟨r, _, hEq⟩ := Option.map_eq_some_iff.mp hPerform
      cases hEq
      exact .refl _
  | sleep duration epoch =>
      obtain ⟨r, _, hEq⟩ := Option.map_eq_some_iff.mp hPerform
      cases hEq
      exact .refl _
  | outOfFuel => cases hPerform
  | _ =>
      cases hPerform
      exact .refl _

def worldLaw_upheld (ids : String → Prop) (own : StoreOp → Prop) : (worldLaw ids own).Upheld where
  inv _ := True
  stable := World.Draws ids
  moves := World.Moves ids own
  moves_refl := .refl
  moves_trans := .trans
  inv_of_enters _ := trivial
  may_perform _ := rfl
  perform_ok := by
    intro a σ reply τ _ hDraws hMay hPerform
    have moves := perform_moves σ.shared hMay hPerform
    refine ⟨?_, trivial, moves.draws hDraws, moves⟩
    cases a with
    | newUuid =>
        cases hPerform
        exact hDraws _ le_rfl
    | _ => trivial
  env_ok := by
    intro w e hDraws
    have moves : w.Moves ids own (disturb e w) := .of_disturb e
    exact ⟨moves.draws hDraws, moves⟩
  sync_ok hMode _ := sync_performs hMode

theorem worldLaw_fit {σ : EngineState} (hDraws : σ.world.Draws ids) :
    (worldLaw_upheld ids own).Fit ((worldLaw ids own).may σ.shared) σ :=
  ⟨rfl, trivial, hDraws⟩

theorem worldLaw_scope (env : RuntimeInner) (wf : CompiledWorkflow) (e : Execution) :
    ScopeTerms env wf ((worldLaw ids own).may e) where
  routine := by
    intro a hRoutine
    cases a with
    | store op => exact hRoutine.elim
    | publish lifecycle event =>
        cases lifecycle with
        | none => trivial
        | some id => exact hRoutine.elim
    | _ => trivial
  evaluates _ _ _ := trivial
  unresolved _ := trivial
  local_ := by
    intro a hChanges
    cases a <;> trivial

theorem worldLaw_terms (env : RuntimeInner) (wf : CompiledWorkflow) {executionId : String}
    (hId : ids executionId) (e : Execution) :
    ExecutionTerms env wf executionId ((worldLaw ids own).may e) where
  toScopeTerms := worldLaw_scope env wf e
  started _ := ⟨hId, Or.inl rfl⟩
  completed _ := ⟨hId, Or.inr rfl⟩
  stores := by
    rintro op rfl
    exact Or.inl hId

theorem worldLaw_nests (env : RuntimeInner) : Nests (worldLaw ids own) env :=
  fun _ hId => ⟨fun _ _ => trivial, fun wf _ => worldLaw_terms env wf hId _⟩

theorem worldLaw_opens {e : Execution} (a : Act) (hOpens : a.Opens) : (worldLaw ids own).may e a := by
  cases a <;> trivial

end

end OwsRuntime
