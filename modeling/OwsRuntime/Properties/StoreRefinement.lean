import OwsRuntime.Stores.Sqlite
import Mathlib.Data.List.Forall2

/-! The store in a database refines the one in memory: over every sequence of operations
both give the same results. -/
namespace OwsRuntime

variable {json : JsonText}

theorem encodeJson_of_roundTrips {v : Value} (roundTrips : json.RoundTrips v) :
    ∃ text, encodeJson json v = .ok text ∧ decodeJson json text = .ok v := by
  obtain ⟨text, hText, hValue⟩ := roundTrips
  refine ⟨text, ?_, ?_⟩
  · rw [encodeJson, hText]
    rfl
  · rw [decodeJson, hValue]
    rfl

theorem encodeError_of_roundTrips {error : Option Value}
    (roundTrips : ∀ v ∈ error.toList, json.RoundTrips v) :
    ∃ text, encodeError json error = .ok text ∧ decodeError json text = .ok error := by
  cases error with
  | none => exact ⟨none, rfl, rfl⟩
  | some v =>
      obtain ⟨text, hText, hValue⟩ := encodeJson_of_roundTrips (roundTrips v (by simp))
      refine ⟨some text, ?_, ?_⟩
      · rw [encodeError, hText]
        rfl
      · rw [decodeError, hValue]
        rfl

/-- The row of a record keeps its id, and the record is read back from it. -/
structure RowOf (json : JsonText) (record : ExecutionRecord) (row : ExecutionRow) : Prop where
  executionId : row.executionId = record.executionId
  decoded : recordFromRow json row = .ok record

theorem rowOfRecord_of_roundTrips {record : ExecutionRecord}
    (roundTrips : ∀ v ∈ record.context :: record.pointer :: record.error.toList, json.RoundTrips v) :
    ∃ row, rowOfRecord json record = .ok row ∧ RowOf json record row := by
  obtain ⟨context, hContext, hContextBack⟩ :=
    encodeJson_of_roundTrips (roundTrips record.context (by simp))
  obtain ⟨pointer, hPointer, hPointerBack⟩ :=
    encodeJson_of_roundTrips (roundTrips record.pointer (by simp))
  obtain ⟨error, hError, hErrorBack⟩ := encodeError_of_roundTrips
    fun v hMem => roundTrips v (List.mem_cons_of_mem _ (List.mem_cons_of_mem _ hMem))
  refine ⟨{ record with phase := record.phase.display, context, pointer, error }, ?_, rfl, ?_⟩
  · rw [rowOfRecord, hContext, hPointer, hError]
    rfl
  · simp only [recordFromRow, phaseOfText_display, hContextBack, hPointerBack, hErrorBack]
    rfl

/-- The row of an event keeps the id of its execution, and the event is read back from it. -/
structure EventRowOf (json : JsonText) (event : StoredEvent) (row : EventRow) : Prop where
  executionId : row.executionId = event.executionId
  decoded : eventFromRow json row = .ok event

theorem rowOfEvent_of_roundTrips {event : StoredEvent} (bound : event.sequence < 2 ^ 64)
    (roundTrips : json.RoundTrips event.payload) :
    ∃ row, rowOfEvent json event = .ok row ∧ EventRowOf json event row := by
  obtain ⟨payload, hPayload, hBack⟩ := encodeJson_of_roundTrips roundTrips
  refine ⟨{ event with sequence := u64AsI64 event.sequence, payload }, ?_, rfl, ?_⟩
  · rw [rowOfEvent, hPayload]
    rfl
  · simp only [eventFromRow, hBack, i64AsU64_u64AsI64 bound]
    rfl

/-- Rows which hold the events one by one are read back as these events. -/
theorem eventsFromRows_of_forall₂ {events : List StoredEvent} {rows : List EventRow}
    (rowsOf : List.Forall₂ (EventRowOf json) events rows) : eventsFromRows json rows = .ok events := by
  induction rowsOf with
  | nil => rfl
  | cons rowOf _ ih =>
      rw [eventsFromRows, rowOf.decoded, ih]
      rfl

/-- Selecting the events of an execution keeps the rows aligned with the events. -/
theorem filter_rows {events : List StoredEvent} {rows : List EventRow}
    (rowsOf : List.Forall₂ (EventRowOf json) events rows) (executionId : String) :
    List.Forall₂ (EventRowOf json) (events.filter fun event => event.executionId == executionId)
      (rows.filter fun row => row.executionId == executionId) := by
  induction rowsOf with
  | nil => exact List.Forall₂.nil
  | cons rowOf _ ih =>
      rw [List.filter_cons, List.filter_cons, rowOf.executionId]
      split
      · exact List.Forall₂.cons rowOf ih
      · exact ih

/-- What relates the two stores: the row with an id is that of the record with it, and the
rows of the events stand in the order of the events. -/
structure Represents (json : JsonText) (store : ExecutionStore) (database : SqliteExecutionStore) :
    Prop where
  records : ∀ executionId, Option.Rel (RowOf json) (store.load executionId)
    (database.executions.select executionId)
  events : List.Forall₂ (EventRowOf json) store.events database.events.values

variable {store : ExecutionStore} {database : SqliteExecutionStore}

theorem Represents.empty : Represents json .empty .empty :=
  ⟨fun _ => Option.Rel.none, List.Forall₂.nil⟩

/-- Storing a record under one id does not change what is loaded under another one. -/
theorem load_insert_of_ne {record : ExecutionRecord} {executionId : String}
    (hNe : record.executionId ≠ executionId) :
    (store.insert record).load executionId = store.load executionId := by
  have hHead : (executionId == record.executionId) = false := beq_eq_false_iff_ne.mpr (Ne.symm hNe)
  rw [ExecutionStore.load, ExecutionStore.insert, List.lookup_cons, hHead, ExecutionStore.load]
  induction store.records with
  | nil => rfl
  | cons entry rest ih =>
      obtain ⟨id, found⟩ := entry
      by_cases hSame : id = record.executionId
      · subst hSame
        simp only [List.filter_cons, bne_self_eq_false, Bool.false_eq_true, if_false,
          List.lookup_cons, hHead]
        exact ih
      · simp only [List.filter_cons, bne_iff_ne.mpr hSame, if_true, List.lookup_cons]
        split
        · rfl
        · exact ih

theorem Represents.create (represents : Represents json store database) {record : ExecutionRecord}
    (roundTrips : ∀ v ∈ record.context :: record.pointer :: record.error.toList, json.RoundTrips v) :
    (database.create json record).2 = .ok .done ∧
      Represents json (store.insert record) (database.create json record).1 := by
  obtain ⟨row, hRow, rowOf⟩ := rowOfRecord_of_roundTrips roundTrips
  rw [SqliteExecutionStore.create, hRow]
  refine ⟨rfl, ?_, represents.events⟩
  intro executionId
  simp only [Tables.Keyed.select_upsert, rowOf.executionId]
  by_cases hSame : record.executionId = executionId
  · subst hSame
    rw [ExecutionStore.load_insert, if_pos rfl]
    exact Option.Rel.some rowOf
  · rw [load_insert_of_ne hSame, if_neg hSame]
    exact represents.records executionId

theorem Represents.load (represents : Represents json store database) (executionId : String) :
    database.load json executionId = .ok (store.load executionId) := by
  have hRecord := represents.records executionId
  rw [SqliteExecutionStore.load]
  cases hFound : store.load executionId with
  | none =>
      rw [hFound] at hRecord
      generalize database.executions.select executionId = row at hRecord
      cases hRecord
      rfl
  | some record =>
      rw [hFound] at hRecord
      generalize database.executions.select executionId = row at hRecord
      cases hRecord with
      | some rowOf =>
          simp only [rowOf.decoded]
          rfl

theorem Represents.appendEvent (represents : Represents json store database) {event : StoredEvent}
    (bound : event.sequence < 2 ^ 64) (roundTrips : json.RoundTrips event.payload) :
    (database.appendEvent json event).2 = .ok .done ∧
      Represents json (store.appendEvent event) (database.appendEvent json event).1 := by
  obtain ⟨row, hRow, rowOf⟩ := rowOfEvent_of_roundTrips bound roundTrips
  rw [SqliteExecutionStore.appendEvent, hRow]
  refine ⟨rfl, represents.records, ?_⟩
  rw [Tables.Serial.values_insert]
  exact List.rel_append represents.events (List.Forall₂.cons rowOf List.Forall₂.nil)

theorem Represents.eventsOf (represents : Represents json store database) (executionId : String) :
    database.eventsOf json executionId = .ok (store.eventsOf executionId) := by
  rw [SqliteExecutionStore.eventsOf, Tables.Serial.select_eq_filter]
  exact eventsFromRows_of_forall₂ (filter_rows represents.events executionId)

/-- One operation: both stores give the same result and stay related. -/
theorem Represents.step (represents : Represents json store database) {operation : StoreOperation}
    (roundTrips : ∀ v ∈ operation.values, json.RoundTrips v) :
    (database.step json operation).2 = (InMemoryExecutionStore.step store operation).2 ∧
      Represents json (InMemoryExecutionStore.step store operation).1
        (database.step json operation).1 := by
  cases operation with
  | create record => exact represents.create roundTrips
  | update record => exact represents.create roundTrips
  | load executionId =>
      refine ⟨?_, represents⟩
      simp only [SqliteExecutionStore.step, InMemoryExecutionStore.step, represents.load]
      rfl
  | appendEvent event bound => exact represents.appendEvent bound (roundTrips _ (by simp [StoreOperation.values]))
  | events executionId =>
      refine ⟨?_, represents⟩
      simp only [SqliteExecutionStore.step, InMemoryExecutionStore.step, represents.eventsOf]
      rfl

theorem Represents.results (represents : Represents json store database)
    {operations : List StoreOperation}
    (roundTrips : ∀ operation ∈ operations, ∀ v ∈ operation.values, json.RoundTrips v) :
    results (SqliteExecutionStore.step json) database operations =
      OwsRuntime.results InMemoryExecutionStore.step store operations := by
  induction operations generalizing store database with
  | nil => rfl
  | cons operation rest ih =>
      obtain ⟨hResult, hNext⟩ := represents.step (roundTrips operation List.mem_cons_self)
      rw [OwsRuntime.results, OwsRuntime.results, hResult,
        ih hNext fun later hLater => roundTrips later (List.mem_cons_of_mem _ hLater)]

/-- The store in a database gives the results of the one in memory, whatever the operations,
as long as the JSON values handed to it are read back from their texts. -/
theorem sqlite_refines_inMemory (json : JsonText) (operations : List StoreOperation)
    (roundTrips : ∀ operation ∈ operations, ∀ v ∈ operation.values, json.RoundTrips v) :
    results (SqliteExecutionStore.step json) .empty operations =
      results InMemoryExecutionStore.step .empty operations :=
  Represents.empty.results roundTrips

/-- A writer and a reader of two values only. -/
def nullAndOne : JsonText where
  toString v := .ok (v.display fun _ => "")
  fromStr text :=
    if text = "null" then .ok .null
    else if text = "1" then .ok (.ofInt 1)
    else .error "expected value at line 1 column 1"

def faultedRecord : ExecutionRecord :=
  { executionId := "e1", workflow := "default/wf/1.0.0", namespace_ := "default", name := "wf"
    version := "1.0.0", phase := .faulted, context := .ofInt 1, pointer := .null
    error := some .null, startedAt := -5 }

def lastEvent : StoredEvent :=
  { executionId := "e1", sequence := 2 ^ 64 - 1, eventType := "workflow.faulted"
    payload := .ofInt 1, timestamp := 0 }

/-- An error which is `null` and the greatest sequence number are read back. -/
theorem sqlite_refines_inMemory_faulted :
    results (SqliteExecutionStore.step nullAndOne) .empty
        [.create { faultedRecord with phase := .running, error := none }, .update faultedRecord,
          .appendEvent lastEvent (by decide), .load "e1", .load "e2", .events "e1"] =
      [.ok .done, .ok .done, .ok .done, .ok (.record (some faultedRecord)), .ok (.record none),
        .ok (.events [lastEvent])] := by
  have hNull : nullAndOne.RoundTrips .null := ⟨"null", rfl, rfl⟩
  have hOne : nullAndOne.RoundTrips (.ofInt 1) := ⟨"1", rfl, rfl⟩
  refine (sqlite_refines_inMemory nullAndOne _ ?_).trans (by decide)
  simp [StoreOperation.values, faultedRecord, lastEvent, hNull, hOne]

end OwsRuntime
