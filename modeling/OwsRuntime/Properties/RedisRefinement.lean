import OwsRuntime.Properties.StoreRefinement
import OwsRuntime.Stores.Keyspace
import OwsRuntime.Stores.Redis

/-! The store in a key-value server refines the one in memory behind the server, up to an error
which is `null`: over every sequence of operations both give the same results, once such errors
are forgotten. Of the server no more is known than what its commands are documented to do. -/
namespace OwsRuntime

open Keyspaces

/-- A result in whose record an error which is `null` is forgotten. -/
def StoreResult.forgetNull : StoreResult → StoreResult
  | .record found => .record (found.map ExecutionRecord.forgetNull)
  | result => result

namespace RedisExecutionStore

section Keys

theorem recordKey_injective : Function.Injective recordKey := by
  intro a b hSame
  have hList := congrArg String.toList hSame
  rw [recordKey, recordKey, String.toList_append, String.toList_append] at hList
  exact String.toList_inj.mp (List.append_cancel_left hList)

theorem eventsKey_injective : Function.Injective eventsKey := by
  intro a b hSame
  have hList := congrArg String.toList hSame
  rw [eventsKey, eventsKey, String.toList_append, String.toList_append] at hList
  exact String.toList_inj.mp (List.append_cancel_left hList)

/-- The two kinds of keys differ in their ninth character. -/
theorem recordKey_ne_eventsKey (a b : String) : recordKey a ≠ eventsKey b := by
  intro hSame
  have hList := congrArg (fun s => s.toList[8]?) hSame
  simp [recordKey, eventsKey] at hList

end Keys

/-- The text of a record, from which it is read back. -/
def RecordText (json : DerivedJson) (record : ExecutionRecord) (text : String) : Prop :=
  json.recordFromStr text = .ok record.forgetNull

/-- The text of an event, from which it is read back. -/
def EventText (json : DerivedJson) (event : StoredEvent) (text : String) : Prop :=
  json.eventFromStr text = .ok event

variable {σ : Type} {json : DerivedJson} {server : KeyValueServer σ}
  {text : σ → String → Option String} {items : σ → String → List String}

theorem decodeEvents_of_forall₂ {events : List StoredEvent} {texts : List String}
    (texts_ : List.Forall₂ (EventText json) events texts) : decodeEvents json texts = .ok events := by
  induction texts_ with
  | nil => rfl
  | cons hText _ ih =>
      rw [decodeEvents, hText, ih]
      rfl

/-- What relates the two stores: the key of an execution holds the text of its record, and the
other key holds the texts of its events, in their order. -/
structure Represents (json : DerivedJson) (text : σ → String → Option String)
    (items : σ → String → List String) (store : ExecutionStore) (s : σ) : Prop where
  records : ∀ executionId, Option.Rel (RecordText json) (store.load executionId)
    (text s (recordKey executionId))
  events : ∀ executionId, List.Forall₂ (EventText json) (store.eventsOf executionId)
    (items s (eventsKey executionId))

variable {store : ExecutionStore} {s s' : σ}

theorem Represents.of_same (represents : Represents json text items store s)
    (hSame : text s' = text s ∧ items s' = items s) : Represents json text items store s' := by
  obtain ⟨hText, hItems⟩ := hSame
  exact ⟨fun executionId => hText ▸ represents.records executionId,
    fun executionId => hItems ▸ represents.events executionId⟩

/-- A server without any of the keys of the store holds no record and no event. -/
theorem Represents.empty
    (hEmpty : ∀ executionId, text s (recordKey executionId) = none ∧
      items s (eventsKey executionId) = []) : Represents json text items .empty s := by
  constructor
  · intro executionId
    rw [(hEmpty executionId).1]
    exact .none
  · intro executionId
    rw [(hEmpty executionId).2]
    exact .nil

theorem eventsOf_appendEvent (event : StoredEvent) (executionId : String) :
    (store.appendEvent event).eventsOf executionId =
      store.eventsOf executionId ++ if event.executionId == executionId then [event] else [] := by
  rw [ExecutionStore.eventsOf, ExecutionStore.appendEvent, List.filter_append, List.filter_singleton,
    Bool.cond_eq_ite]
  rfl

section Keeping

variable {e : WorkflowError}

theorem ok_of_mapError {α : Type} {x : Except String α} {value : α} {f : String → WorkflowError}
    (hOk : x.mapError f = .ok value) : x = .ok value := by
  cases x with
  | error message => cases hOk
  | ok found => exact congrArg Except.ok (Except.ok.inj hOk)

/-- A record that has been written takes the place of the one with its id. -/
theorem Represents.created (represents : Represents json text items store s)
    (keeps : server.Keeps text items) {record : ExecutionRecord}
    (readsBack : ∀ written, json.recordToString record = .ok written → RecordText json record written)
    (hCreate : create json server s record = (s', .ok ())) :
    Represents json text items (store.insert record) s' := by
  obtain ⟨written, hWritten, hSet⟩ := Machines.write_ok hCreate
  have hText := ok_of_mapError hWritten
  obtain ⟨hSetText, hItems⟩ := keeps.set_ok hSet
  constructor
  · intro executionId
    rw [hSetText]
    by_cases hSame : record.executionId = executionId
    · subst hSame
      rw [ExecutionStore.load_insert, Function.update_self]
      exact .some (readsBack written hText)
    · have hKey : recordKey executionId ≠ recordKey record.executionId := fun hEq =>
        hSame (recordKey_injective hEq).symm
      rw [load_insert_of_ne hSame, Function.update_of_ne hKey]
      exact represents.records executionId
  · intro executionId
    rw [hItems _ (recordKey_ne_eventsKey _ _).symm]
    exact represents.events executionId

/-- A record that has not been written leaves everything as it is. -/
theorem Represents.create_failed (represents : Represents json text items store s)
    (keeps : server.Keeps text items) {record : ExecutionRecord}
    (hCreate : create json server s record = (s', .error e)) :
    Represents json text items store s' := by
  rcases Machines.write_error hCreate with rfl | ⟨written, message, hSet⟩
  · exact represents
  · exact represents.of_same (keeps.set_error hSet)

/-- An event that has been written comes after those of its execution. -/
theorem Represents.appended (represents : Represents json text items store s)
    (keeps : server.Keeps text items) {event : StoredEvent}
    (readsBack : ∀ written, json.eventToString event = .ok written → EventText json event written)
    (hAppend : appendEvent json server s event = (s', .ok ())) :
    Represents json text items (store.appendEvent event) s' := by
  obtain ⟨written, hWritten, hPush⟩ := Machines.write_ok hAppend
  obtain ⟨hItems, hText⟩ := keeps.rpush_ok hPush
  constructor
  · intro executionId
    rw [hText _ (recordKey_ne_eventsKey _ _)]
    exact represents.records executionId
  · intro executionId
    rw [eventsOf_appendEvent, hItems]
    by_cases hSame : event.executionId = executionId
    · subst hSame
      rw [Function.update_self, if_pos (beq_self_eq_true _)]
      exact List.rel_append (represents.events _) (.cons (readsBack written (ok_of_mapError hWritten)) .nil)
    · have hKey : eventsKey executionId ≠ eventsKey event.executionId := fun hEq =>
        hSame (eventsKey_injective hEq).symm
      rw [Function.update_of_ne hKey, if_neg (mt beq_iff_eq.mp hSame), List.append_nil]
      exact represents.events executionId

theorem Represents.append_failed (represents : Represents json text items store s)
    (keeps : server.Keeps text items) {event : StoredEvent}
    (hAppend : appendEvent json server s event = (s', .error e)) :
    Represents json text items store s' := by
  rcases Machines.write_error hAppend with rfl | ⟨written, message, hPush⟩
  · exact represents
  · exact represents.of_same (keeps.rpush_error hPush)

/-- A record that the server answers is that of the store in memory. -/
theorem Represents.loaded (represents : Represents json text items store s)
    (keeps : server.Keeps text items) {executionId : String} {found : Option String}
    (hGet : server.get s (recordKey executionId) = (s', .ok found)) :
    load json server s executionId =
      (s', .ok ((store.load executionId).map ExecutionRecord.forgetNull)) := by
  have hRecord := represents.records executionId
  rw [← keeps.get_ok hGet] at hRecord
  rw [load, hGet]
  generalize store.load executionId = record at hRecord
  cases hRecord with
  | none => rfl
  | some hText =>
      refine Prod.ext rfl ?_
      show ((json.recordFromStr _).map some).mapError (dbError "decoding") = _
      rw [hText]
      rfl

/-- The events that the server answers are those of the store in memory. -/
theorem Represents.listed (represents : Represents json text items store s)
    (keeps : server.Keeps text items) {executionId : String} {found : List String}
    (hRange : server.lrange s (eventsKey executionId) 0 (-1) = (s', .ok found)) :
    eventsOf json server s executionId = (s', .ok (store.eventsOf executionId)) := by
  have hEvents := represents.events executionId
  rw [← keeps.lrange_ok hRange] at hEvents
  rw [eventsOf, hRange]
  exact Prod.ext rfl (decodeEvents_of_forall₂ hEvents)

/-- A command that fails is the failure of its operation, and leaves the stores related. -/
theorem Represents.refused (represents : Represents json text items store s)
    (keeps : server.Keeps text items) {operation : StoreOperation}
    (hCommand : command json server s operation = (s', .error e)) :
    step json server s operation = (s', .error e) ∧ Represents json text items store s' := by
  cases operation with
  | create record =>
      have hCreate : create json server s record = (s', .error e) := hCommand
      rw [step, hCreate]
      exact ⟨rfl, represents.create_failed keeps hCreate⟩
  | update record =>
      have hCreate : create json server s record = (s', .error e) := hCommand
      rw [step, hCreate]
      exact ⟨rfl, represents.create_failed keeps hCreate⟩
  | appendEvent event bound =>
      have hAppend : appendEvent json server s event = (s', .error e) := hCommand
      rw [step, hAppend]
      exact ⟨rfl, represents.append_failed keeps hAppend⟩
  | load executionId =>
      cases hGet : server.get s (recordKey executionId) with
      | mk state reply =>
          rw [command, hGet] at hCommand
          cases reply with
          | ok found => cases hCommand
          | error message =>
              cases hCommand
              rw [step, load, hGet]
              have hSame := keeps.get_keeps s (recordKey executionId)
              rw [hGet] at hSame
              exact ⟨rfl, represents.of_same hSame⟩
  | events executionId =>
      cases hRange : server.lrange s (eventsKey executionId) 0 (-1) with
      | mk state reply =>
          rw [command, hRange] at hCommand
          cases reply with
          | ok found => cases hCommand
          | error message =>
              cases hCommand
              rw [step, eventsOf, hRange]
              have hSame := keeps.lrange_keeps s (eventsKey executionId)
              rw [hRange] at hSame
              exact ⟨rfl, represents.of_same hSame⟩

/-- A command that succeeds gives the result of the store in memory. -/
theorem Represents.accepted (represents : Represents json text items store s)
    (keeps : server.Keeps text items) {operation : StoreOperation}
    (readsBack : json.ReadsBack operation)
    (hCommand : command json server s operation = (s', .ok ())) :
    step json server s operation =
        (s', (InMemoryExecutionStore.step store operation).2.map StoreResult.forgetNull) ∧
      Represents json text items (InMemoryExecutionStore.step store operation).1 s' := by
  cases operation with
  | create record =>
      have hCreate : create json server s record = (s', .ok ()) := hCommand
      rw [step, hCreate]
      exact ⟨rfl, represents.created keeps readsBack hCreate⟩
  | update record =>
      have hCreate : create json server s record = (s', .ok ()) := hCommand
      rw [step, hCreate]
      exact ⟨rfl, represents.created keeps readsBack hCreate⟩
  | appendEvent event bound =>
      have hAppend : appendEvent json server s event = (s', .ok ()) := hCommand
      rw [step, hAppend]
      exact ⟨rfl, represents.appended keeps readsBack hAppend⟩
  | load executionId =>
      cases hGet : server.get s (recordKey executionId) with
      | mk state reply =>
          rw [command, hGet] at hCommand
          cases reply with
          | error message => cases hCommand
          | ok found =>
              cases hCommand
              have hSame := keeps.get_keeps s (recordKey executionId)
              rw [hGet] at hSame
              rw [step, represents.loaded keeps hGet]
              exact ⟨rfl, represents.of_same hSame⟩
  | events executionId =>
      cases hRange : server.lrange s (eventsKey executionId) 0 (-1) with
      | mk state reply =>
          rw [command, hRange] at hCommand
          cases reply with
          | error message => cases hCommand
          | ok found =>
              cases hCommand
              have hSame := keeps.lrange_keeps s (eventsKey executionId)
              rw [hRange] at hSame
              rw [step, represents.listed keeps hRange]
              exact ⟨rfl, represents.of_same hSame⟩

/-- The store in a key-value server imitates the one in memory behind the server. -/
def imitation (keeps : server.Keeps text items) :
    Machines.GuardedImitation (step json server) (command json server) InMemoryExecutionStore.step
      StoreResult.forgetNull where
  rel := Represents json text items
  admits := json.ReadsBack
  refused hCommand represents := represents.refused keeps hCommand
  accepted hCommand represents readsBack := represents.accepted keeps readsBack hCommand

end Keeping

end RedisExecutionStore

open RedisExecutionStore

namespace RedisExecutionStore

/-- A server which keeps its keys in memory. -/
def inKeyspace : KeyValueServer Keyspace where
  set space key written := (space.set key written, .ok ())
  get space key := (space, (space.get key).mapError CommandFault.message)
  rpush space key item :=
    match space.rpush key item with
    | .ok pushed => (pushed, .ok ())
    | .error fault => (space, .error fault.message)
  lrange space key start stop :=
    (space, (space.lrange key start stop).mapError CommandFault.message)

/-- The server of the sample does what is assumed of one: a text that was set is got until it is set
again, and a list gives what was pushed, in its order. -/
theorem inKeyspace_keeps : inKeyspace.Keeps Keyspace.text Keyspace.items where
  set_ok := by
    rintro space key written _ ⟨⟩
    exact ⟨Keyspace.text_put_string written, fun other hNe => Keyspace.items_put_of_ne _ hNe⟩
  set_error := by
    rintro space key written _ message ⟨⟩
  get_ok := by
    intro space key s' found hGet
    cases hFound : space.get key with
    | error fault => simp [inKeyspace, hFound, Except.mapError] at hGet
    | ok text =>
        simp only [inKeyspace, hFound, Except.mapError, Prod.mk.injEq, Except.ok.injEq] at hGet
        exact hGet.2 ▸ Keyspace.text_of_get hFound
  get_keeps _ _ := ⟨rfl, rfl⟩
  rpush_ok := by
    intro space key item s' hPush
    cases hPushed : space.rpush key item with
    | error fault => simp [inKeyspace, hPushed] at hPush
    | ok pushed =>
        simp only [inKeyspace, hPushed, Prod.mk.injEq, and_true] at hPush
        rw [← hPush, Keyspace.rpush_ok hPushed]
        exact ⟨Keyspace.items_put_list _, fun other hNe => Keyspace.text_put_of_ne _ hNe⟩
  rpush_error := by
    intro space key item s' message hPush
    cases hPushed : space.rpush key item with
    | error fault =>
        simp only [inKeyspace, hPushed, Prod.mk.injEq] at hPush
        rw [← hPush.1]
        exact ⟨rfl, rfl⟩
    | ok pushed => simp [inKeyspace, hPushed] at hPush
  lrange_ok := by
    intro space key s' found hRange
    cases hFound : space.lrange key 0 (-1) with
    | error fault => simp [inKeyspace, hFound, Except.mapError] at hRange
    | ok items =>
        simp only [inKeyspace, hFound, Except.mapError, Prod.mk.injEq, Except.ok.injEq] at hRange
        exact hRange.2 ▸ Keyspace.items_of_lrange hFound
  lrange_keeps _ _ := ⟨rfl, rfl⟩

def startedRecord : ExecutionRecord := { faultedRecord with phase := .running, error := none }

/-- An event that cannot be written. -/
def brokenEvent : StoredEvent := { lastEvent with eventType := "workflow.broken" }

/-- Writers, and readers of what they write for two records and an event. -/
def threeObjects : DerivedJson where
  recordToString record := .ok (if record.error = none then "started" else "faulted")
  recordFromStr text :=
    if text = "started" then .ok startedRecord
    else if text = "faulted" then .ok { faultedRecord with error := none }
    else .error "expected value at line 1 column 1"
  eventToString event := if event = lastEvent then .ok "event" else .error "unsupported"
  eventFromStr text :=
    if text = "event" then .ok lastEvent else .error "expected value at line 1 column 1"

end RedisExecutionStore

end OwsRuntime
