import OwsRuntime.Core.Streams
import OwsRuntime.Properties.StoreRefinement
import OwsRuntime.Stores.Postgres

/-! The store in a database server refines the one in memory behind the server: an operation
whose statement fails has no effect, and every other one has the result that it has in memory.
The rows are those of the other database, of which that is known; of the server no more is known
than what its statements are documented to do. -/
namespace OwsRuntime

namespace PostgresExecutionStore

open Streams (Agree)

variable {json : JsonText}

section Agreement

/-- Reading and writing differ from the other database in their messages alone. -/
theorem mapError_agree {α ε δ : Type} (x : Except ε α) (f g : ε → δ) :
    Agree (x.mapError f) (x.mapError g) := by
  cases x <;> rfl

theorem encodeJson_agree (v : Value) : Agree (encodeJson json v) (OwsRuntime.encodeJson json v) :=
  mapError_agree _ _ _

theorem decodeJson_agree (text : String) :
    Agree (decodeJson json text) (OwsRuntime.decodeJson json text) := mapError_agree _ _ _

theorem encodeError_agree (error : Option Value) :
    Agree (encodeError json error) (OwsRuntime.encodeError json error) := by
  cases error with
  | none => exact Agree.refl _
  | some v => exact (encodeJson_agree v).bind fun text => Agree.refl (Except.ok (some text))

theorem decodeError_agree (text : Option String) :
    Agree (decodeError json text) (OwsRuntime.decodeError json text) := by
  cases text with
  | none => exact Agree.refl _
  | some text => exact (decodeJson_agree text).bind fun v => Agree.refl (Except.ok (some v))

theorem parsePhase_agree (text : String) : Agree (parsePhase text) (phaseOfText text) := by
  unfold parsePhase phaseOfText
  iterate 7
    split
    · exact Agree.refl _
  rfl

theorem rowOfRecord_agree (record : ExecutionRecord) :
    Agree (rowOfRecord json record) (OwsRuntime.rowOfRecord json record) :=
  (encodeJson_agree _).bind fun _ => (encodeJson_agree _).bind fun _ =>
    (encodeError_agree _).bind fun _ => Agree.refl _

theorem recordFromRow_agree (row : ExecutionRow) :
    Agree (recordFromRow json row) (OwsRuntime.recordFromRow json row) :=
  (parsePhase_agree _).bind fun _ => (decodeJson_agree _).bind fun _ =>
    (decodeJson_agree _).bind fun _ => (decodeError_agree _).bind fun _ => Agree.refl _

theorem rowOfEvent_agree (event : StoredEvent) :
    Agree (rowOfEvent json event) (OwsRuntime.rowOfEvent json event) :=
  (encodeJson_agree _).bind fun _ => Agree.refl _

theorem eventsFromRows_agree (rows : List EventRow) :
    Agree (eventsFromRows json rows) (OwsRuntime.eventsFromRows json rows) := by
  induction rows with
  | nil => exact Agree.refl _
  | cons row rest ih =>
      have hRow : Agree (eventFromRow json row) (OwsRuntime.eventFromRow json row) :=
        (decodeJson_agree _).bind fun _ => Agree.refl _
      exact hRow.bind fun _ => ih.bind fun _ => Agree.refl _

/-- What succeeds on one side does on the other. -/
theorem ok_of_agree {α : Type} {x y : Except WorkflowError α} {value : α} (agree : Agree x y)
    (hOk : x = .ok value) : y = .ok value := by
  subst hOk
  cases y with
  | error e => cases agree
  | ok other =>
      injection agree with hSame
      rw [hSame]

end Agreement

/-- What relates the two stores: the server holds under every id the row of the record with it,
and the rows of the events in the order of the events. -/
structure Holds {σ : Type} (json : JsonText) (row : σ → String → Option ExecutionRow)
    (events : σ → List EventRow) (store : ExecutionStore) (s : σ) : Prop where
  records : ∀ executionId, Option.Rel (RowOf json) (store.load executionId) (row s executionId)
  events : List.Forall₂ (EventRowOf json) store.events (events s)

section Keeping

variable {σ : Type} {server : PostgresServer σ} {row : σ → String → Option ExecutionRow}
  {events : σ → List EventRow} {store : ExecutionStore} {s s' : σ} {e : WorkflowError}

theorem Holds.of_same (holds : Holds json row events store s)
    (hSame : row s' = row s ∧ events s' = events s) : Holds json row events store s' := by
  obtain ⟨hRow, hEvents⟩ := hSame
  exact ⟨fun executionId => hRow ▸ holds.records executionId, hEvents ▸ holds.events⟩

/-- A server whose tables are empty holds no record and no event. -/
theorem Holds.empty (hEmpty : (∀ executionId, row s executionId = none) ∧ events s = []) :
    Holds json row events .empty s := by
  constructor
  · intro executionId
    rw [hEmpty.1 executionId]
    exact .none
  · rw [hEmpty.2]
    exact .nil

/-- The row of a record that was written takes the place of the one with its id. -/
theorem Holds.created (holds : Holds json row events store s) (keeps : server.Keeps row events)
    {record : ExecutionRecord}
    (roundTrips : ∀ v ∈ record.context :: record.pointer :: record.error.toList, json.RoundTrips v)
    (hCreate : create json server s record = (s', .ok ())) :
    Holds json row events (store.insert record) s' := by
  obtain ⟨written, hWritten, hUpsert⟩ := Machines.write_ok hCreate
  obtain ⟨other, hOther, rowOf⟩ := rowOfRecord_of_roundTrips roundTrips
  cases hOther.symm.trans (ok_of_agree (rowOfRecord_agree record) hWritten)
  obtain ⟨hRow, hEvents⟩ := keeps.upsert_ok hUpsert
  constructor
  · intro executionId
    rw [hRow, rowOf.executionId]
    by_cases hSame : record.executionId = executionId
    · subst hSame
      rw [ExecutionStore.load_insert, Function.update_self]
      exact .some rowOf
    · rw [load_insert_of_ne hSame, Function.update_of_ne (Ne.symm hSame)]
      exact holds.records executionId
  · rw [hEvents]
    exact holds.events

/-- A record that was not written leaves everything as it is. -/
theorem Holds.create_failed (holds : Holds json row events store s)
    (keeps : server.Keeps row events) {record : ExecutionRecord}
    (hCreate : create json server s record = (s', .error e)) : Holds json row events store s' := by
  rcases Machines.write_error hCreate with rfl | ⟨written, message, hUpsert⟩
  · exact holds
  · exact holds.of_same (keeps.upsert_error hUpsert)

/-- The row of an event that was written comes after the others. -/
theorem Holds.appended (holds : Holds json row events store s) (keeps : server.Keeps row events)
    {event : StoredEvent} (bound : event.sequence < 2 ^ 64)
    (roundTrips : json.RoundTrips event.payload)
    (hAppend : appendEvent json server s event = (s', .ok ())) :
    Holds json row events (store.appendEvent event) s' := by
  obtain ⟨written, hWritten, hInsert⟩ := Machines.write_ok hAppend
  obtain ⟨other, hOther, rowOf⟩ := rowOfEvent_of_roundTrips bound roundTrips
  cases hOther.symm.trans (ok_of_agree (rowOfEvent_agree event) hWritten)
  obtain ⟨hRow, hEvents⟩ := keeps.insert_ok hInsert
  constructor
  · intro executionId
    rw [hRow]
    exact holds.records executionId
  · rw [hEvents]
    exact List.rel_append holds.events (.cons rowOf .nil)

theorem Holds.append_failed (holds : Holds json row events store s)
    (keeps : server.Keeps row events) {event : StoredEvent}
    (hAppend : appendEvent json server s event = (s', .error e)) :
    Holds json row events store s' := by
  rcases Machines.write_error hAppend with rfl | ⟨written, message, hInsert⟩
  · exact holds
  · exact holds.of_same (keeps.insert_error hInsert)

/-- The record in a row that the server finds is that of the store in memory. -/
theorem Holds.loaded (holds : Holds json row events store s) (keeps : server.Keeps row events)
    {executionId : String} {found : Option ExecutionRow}
    (hSelect : server.selectExecution s executionId = (s', .ok found)) :
    load json server s executionId = (s', .ok (store.load executionId)) := by
  have hRecord := holds.records executionId
  rw [← keeps.selectExecution_ok hSelect] at hRecord
  rw [load, hSelect]
  generalize store.load executionId = record at hRecord
  cases hRecord with
  | none => rfl
  | some rowOf =>
      refine Prod.ext rfl ?_
      show (recordFromRow json _).map some = _
      rw [ok_of_agree (recordFromRow_agree _).symm rowOf.decoded]
      rfl

/-- The events in the rows that the server finds are those of the store in memory. -/
theorem Holds.listed (holds : Holds json row events store s) (keeps : server.Keeps row events)
    {executionId : String} {found : List EventRow}
    (hSelect : server.selectEvents s executionId = (s', .ok found)) :
    eventsOf json server s executionId = (s', .ok (store.eventsOf executionId)) := by
  have hRows := eventsFromRows_of_forall₂ (filter_rows holds.events executionId)
  rw [← keeps.selectEvents_ok hSelect] at hRows
  rw [eventsOf, hSelect]
  exact Prod.ext rfl (ok_of_agree (eventsFromRows_agree found).symm hRows)

/-- A statement that fails is the failure of its operation, and leaves the stores related. -/
theorem Holds.refused (holds : Holds json row events store s) (keeps : server.Keeps row events)
    {operation : StoreOperation} (hStatement : statement json server s operation = (s', .error e)) :
    step json server s operation = (s', .error e) ∧ Holds json row events store s' := by
  cases operation with
  | create record =>
      have hCreate : create json server s record = (s', .error e) := hStatement
      rw [step, hCreate]
      exact ⟨rfl, holds.create_failed keeps hCreate⟩
  | update record =>
      have hCreate : create json server s record = (s', .error e) := hStatement
      rw [step, hCreate]
      exact ⟨rfl, holds.create_failed keeps hCreate⟩
  | appendEvent event bound =>
      have hAppend : appendEvent json server s event = (s', .error e) := hStatement
      rw [step, hAppend]
      exact ⟨rfl, holds.append_failed keeps hAppend⟩
  | load executionId =>
      have hSame := keeps.selectExecution_keeps s executionId
      cases hSelect : server.selectExecution s executionId with
      | mk state reply =>
          rw [statement, hSelect] at hStatement
          rw [hSelect] at hSame
          cases reply with
          | ok found => cases hStatement
          | error message =>
              cases hStatement
              rw [step, load, hSelect]
              exact ⟨rfl, holds.of_same hSame⟩
  | events executionId =>
      have hSame := keeps.selectEvents_keeps s executionId
      cases hSelect : server.selectEvents s executionId with
      | mk state reply =>
          rw [statement, hSelect] at hStatement
          rw [hSelect] at hSame
          cases reply with
          | ok found => cases hStatement
          | error message =>
              cases hStatement
              rw [step, eventsOf, hSelect]
              exact ⟨rfl, holds.of_same hSame⟩

/-- A statement that is carried out gives the result of the store in memory. -/
theorem Holds.accepted (holds : Holds json row events store s) (keeps : server.Keeps row events)
    {operation : StoreOperation} (roundTrips : ∀ v ∈ operation.values, json.RoundTrips v)
    (hStatement : statement json server s operation = (s', .ok ())) :
    step json server s operation =
        (s', (InMemoryExecutionStore.step store operation).2.map id) ∧
      Holds json row events (InMemoryExecutionStore.step store operation).1 s' := by
  cases operation with
  | create record =>
      have hCreate : create json server s record = (s', .ok ()) := hStatement
      rw [step, hCreate]
      exact ⟨rfl, holds.created keeps roundTrips hCreate⟩
  | update record =>
      have hCreate : create json server s record = (s', .ok ()) := hStatement
      rw [step, hCreate]
      exact ⟨rfl, holds.created keeps roundTrips hCreate⟩
  | appendEvent event bound =>
      have hAppend : appendEvent json server s event = (s', .ok ()) := hStatement
      rw [step, hAppend]
      exact ⟨rfl, holds.appended keeps bound (roundTrips _ List.mem_cons_self) hAppend⟩
  | load executionId =>
      have hSame := keeps.selectExecution_keeps s executionId
      cases hSelect : server.selectExecution s executionId with
      | mk state reply =>
          rw [statement, hSelect] at hStatement
          rw [hSelect] at hSame
          cases reply with
          | error message => cases hStatement
          | ok found =>
              cases hStatement
              rw [step, holds.loaded keeps hSelect]
              exact ⟨rfl, holds.of_same hSame⟩
  | events executionId =>
      have hSame := keeps.selectEvents_keeps s executionId
      cases hSelect : server.selectEvents s executionId with
      | mk state reply =>
          rw [statement, hSelect] at hStatement
          rw [hSelect] at hSame
          cases reply with
          | error message => cases hStatement
          | ok found =>
              cases hStatement
              rw [step, holds.listed keeps hSelect]
              exact ⟨rfl, holds.of_same hSame⟩

/-- The store in a database server imitates the one in memory behind the server. -/
def imitation (keeps : server.Keeps row events) :
    Machines.GuardedImitation (step json server) (statement json server) InMemoryExecutionStore.step
      id where
  rel := Holds json row events
  admits operation := ∀ v ∈ operation.values, json.RoundTrips v
  refused hStatement holds := holds.refused keeps hStatement
  accepted hStatement holds roundTrips := holds.accepted keeps roundTrips hStatement

end Keeping

end PostgresExecutionStore

namespace PostgresExecutionStore

def nulMessage : String := "db error: ERROR: invalid byte sequence for encoding UTF8: 0x00"

/-- Texts which the server cannot take. -/
def hasNul (texts : List String) : Bool := texts.any fun text => text.toList.contains (Char.ofNat 0)

/-- A server with the tables of the other database, which refuses texts with a NUL character. -/
def withoutNul : PostgresServer SqliteExecutionStore where
  upsertExecution s row :=
    if hasNul ([row.executionId, row.workflow, row.namespace_, row.name, row.version, row.phase,
      row.context, row.pointer] ++ row.error.toList) then (s, .error nulMessage)
    else ({ s with executions := s.executions.upsert row }, .ok ())
  selectExecution s executionId :=
    if hasNul [executionId] then (s, .error nulMessage)
    else (s, .ok (s.executions.select executionId))
  insertEvent s row :=
    if hasNul [row.executionId, row.eventType, row.payload] then (s, .error nulMessage)
    else ({ s with events := s.events.insert row }, .ok ())
  selectEvents s executionId :=
    if hasNul [executionId] then (s, .error nulMessage)
    else (s, .ok (s.events.select fun row => row.executionId == executionId))

/-- The server of the sample does what is assumed of one: it keeps its rows by key, gives events in
the order of their insertion, and refuses texts with a null character. -/
theorem withoutNul_keeps : withoutNul.Keeps (fun s => s.executions.select) fun s => s.events.values where
  upsert_ok := by
    intro s written s' hUpsert
    rw [withoutNul] at hUpsert
    dsimp only at hUpsert
    split at hUpsert
    · cases hUpsert
    · cases hUpsert
      refine ⟨funext fun executionId => ?_, rfl⟩
      rw [Tables.Keyed.select_upsert, Function.update_apply]
      exact if_congr eq_comm rfl rfl
  upsert_error := by
    intro s written s' message hUpsert
    rw [withoutNul] at hUpsert
    dsimp only at hUpsert
    split at hUpsert
    · cases hUpsert
      exact ⟨rfl, rfl⟩
    · cases hUpsert
  selectExecution_ok := by
    intro s executionId s' found hSelect
    rw [withoutNul] at hSelect
    dsimp only at hSelect
    split at hSelect <;> cases hSelect
    rfl
  selectExecution_keeps s executionId := by
    rw [withoutNul]
    dsimp only
    split <;> exact ⟨rfl, rfl⟩
  insert_ok := by
    intro s written s' hInsert
    rw [withoutNul] at hInsert
    dsimp only at hInsert
    split at hInsert
    · cases hInsert
    · cases hInsert
      exact ⟨rfl, Tables.Serial.values_insert ..⟩
  insert_error := by
    intro s written s' message hInsert
    rw [withoutNul] at hInsert
    dsimp only at hInsert
    split at hInsert
    · cases hInsert
      exact ⟨rfl, rfl⟩
    · cases hInsert
  selectEvents_ok := by
    intro s executionId s' found hSelect
    rw [withoutNul] at hSelect
    dsimp only at hSelect
    split at hSelect <;> cases hSelect
    exact Tables.Serial.select_eq_filter ..
  selectEvents_keeps s executionId := by
    rw [withoutNul]
    dsimp only
    split <;> exact ⟨rfl, rfl⟩

/-- The event of an execution whose id has a NUL character in it. -/
def nulEvent : StoredEvent := { lastEvent with executionId := "e\x001" }

end PostgresExecutionStore

end OwsRuntime
