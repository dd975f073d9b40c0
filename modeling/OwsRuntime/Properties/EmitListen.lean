import OwsRuntime.Core.Equality
import OwsRuntime.Engine.Executions
import OwsRuntime.Engine.Sources
import OwsRuntime.Engine.Runs
import OwsRuntime.Expressions.Eval

/-! The events of emit tasks against the filters of listen tasks. The attributes of an event
are written by one case split, copied into a message and back, and selected by another. -/
namespace OwsRuntime

open Async

/-- The attributes of an event that are texts. -/
def contextAttributes : List String :=
  ["id", "source", "type", "time", "subject", "datacontenttype", "dataschema"]

/-- The attributes of an event that are no extensions. -/
def knownAttributes : List String := "data" :: contextAttributes

/-- The attribute map of an emit task has literal values only, texts for the context
attributes, and a type. -/
structure LiteralEvent (attributes : Map) : Prop where
  keys : (attributes.map Prod.fst).Nodup
  literal : ∀ s ∈ Value.entryStrings attributes, ¬ JqEngine.HasBlock s.toList
  texts : ∀ k ∈ contextAttributes, ∀ v, attributes.lookup k = some v → ∃ s, v = .string s
  type : ∃ s, s ≠ "" ∧ attributes.lookup "type" = some (.string s)

/-- The event which the attributes declare. -/
def declaredEvent (attributes : Map) (event : CloudEvent) : CloudEvent :=
  attributes.foldl (fun event entry => setAttribute event entry.1 entry.2) event

/-- An event with an id and a time, those given if it has none. -/
def completedEvent (event : CloudEvent) (id time : String) : CloudEvent :=
  { event with
    id := if event.id.isEmpty then id else event.id
    time := some (event.time.getD time) }

/-- The event which an emit task publishes, where `id` is fresh and `time` the present time. -/
def emittedEvent (source id time : String) (attributes : Map) : CloudEvent :=
  completedEvent (declaredEvent attributes (CloudEvent.new "" source "")) id time

/-- Each value of the filter equals the one which the attributes give the same key. -/
def Requested (attributes filter : Map) : Prop :=
  ∀ entry ∈ filter, ∃ v, attributes.lookup entry.1 = some v ∧ valuesEqual v entry.2 = true

section Interpolation

variable {env : RuntimeInner} {lang : ExpressionLanguage} {exprCtx : ExpressionContext}
  {α β : Type}

/-- The program returns in its first turn, and does nothing to the world. -/
def Instantly (p : Future α) (value : α) : Prop :=
  ∀ σ, ∃ τ : EngineState, τ.world = σ.world ∧ engine.advance p σ = (.done value, τ)

/-- A value is there in the first turn. -/
theorem Instantly.done (value : α) : Instantly (.done value) value := fun σ => ⟨σ, rfl, rfl⟩

/-- What follows a program that returns in its first turn goes on within that turn. -/
theorem Instantly.advance_bind {p : Future α} {value : α} (instantly : Instantly p value)
    (f : α → Future β) (σ : EngineState) :
    ∃ τ : EngineState, τ.world = σ.world ∧ engine.advance (p.bind f) σ = engine.advance (f value) τ := by
  obtain ⟨τ, hWorld, hAdvance⟩ := instantly σ
  refine ⟨τ, hWorld, ?_⟩
  rw [engine.advance_bind, hAdvance]
  rfl

/-- Two such programs return in the same turn, -/
theorem Instantly.seq {p : Run α} {f : α → Run β} {a : α} {result : Except WorkflowError β}
    (first : Instantly p.run (.ok a)) (second : Instantly (f a).run result) :
    Instantly (p >>= f).run result := by
  intro σ
  obtain ⟨τ, hWorld, hAdvance⟩ := first.advance_bind (ExceptT.bindCont f) σ
  obtain ⟨υ, hLater, hDone⟩ := second τ
  exact ⟨υ, hLater.trans hWorld, hAdvance.trans hDone⟩

/-- and so does what is made of the result of one. -/
theorem Instantly.map {p : Run α} {a : α} (first : Instantly p.run (.ok a)) (f : α → β) :
    Instantly (p >>= fun value => (pure (f value) : Run β)).run (.ok (f a)) :=
  first.seq (Instantly.done _)

/-- A text without a block is its own value. -/
theorem evalInterpolation_literal (hEngine : env.expression = JqEngine.engine lang) {s : String}
    (hPlain : ¬ JqEngine.HasBlock s.toList) :
    Instantly (evalInterpolation env (.string s) exprCtx).run (.ok (.string s)) := by
  intro σ
  refine ⟨EngineState.note σ (.evaluates (.template s) exprCtx.input exprCtx.asVariableMap), rfl, ?_⟩
  have hText : env.expression.evaluateInterpolation s exprCtx.input exprCtx.asVariableMap =
      .ok (.string s) := by
    rw [hEngine]
    exact JqEngine.evaluateInterpolation_of_plain lang hPlain _ _
  show engine.advance (.done ((env.expression.evaluateInterpolation s exprCtx.input
    exprCtx.asVariableMap).mapError _)) _ = _
  rw [hText]
  rfl

mutual

/-- A literal value is emitted as it is. -/
theorem deepInterpolate_literal (hEngine : env.expression = JqEngine.engine lang) : ∀ value : Value,
    (∀ s ∈ value.strings, ¬ JqEngine.HasBlock s.toList) →
      Instantly (deepInterpolate env exprCtx value).run (.ok value)
  | .null, _ => Instantly.done _
  | .bool _, _ => Instantly.done _
  | .number _, _ => Instantly.done _
  | .string s, hPlain => evalInterpolation_literal hEngine (hPlain s List.mem_cons_self)
  | .array items, hPlain => (deepInterpolateItems_literal hEngine items hPlain).map Value.array
  | .object entries, hPlain => (deepInterpolateEntries_literal hEngine entries hPlain).map Value.object

/-- So are the items of an array without blocks, at any depth, -/
theorem deepInterpolateItems_literal (hEngine : env.expression = JqEngine.engine lang) :
    ∀ items : List Value,
    (∀ s ∈ Value.itemStrings items, ¬ JqEngine.HasBlock s.toList) →
      Instantly (deepInterpolateItems env exprCtx items).run (.ok items)
  | [], _ => Instantly.done _
  | item :: rest, hPlain => by
      have hItem := deepInterpolate_literal hEngine item fun s hMem => hPlain s (List.mem_append_left _ hMem)
      have hRest := deepInterpolateItems_literal hEngine rest fun s hMem =>
        hPlain s (List.mem_append_right _ hMem)
      exact hItem.seq (hRest.map (item :: ·))

/-- and the entries of an object. -/
theorem deepInterpolateEntries_literal (hEngine : env.expression = JqEngine.engine lang) :
    ∀ entries : List (String × Value),
    (∀ s ∈ Value.entryStrings entries, ¬ JqEngine.HasBlock s.toList) →
      Instantly (deepInterpolateEntries env exprCtx entries).run (.ok entries)
  | [], _ => Instantly.done _
  | (k, v) :: rest, hPlain => by
      have hValue := deepInterpolate_literal hEngine v fun s hMem => hPlain s (List.mem_append_left _ hMem)
      have hRest := deepInterpolateEntries_literal hEngine rest fun s hMem =>
        hPlain s (List.mem_append_right _ hMem)
      exact hValue.seq (hRest.map ((k, v) :: ·))

end

/-- The literal attributes of an event are written into it one by one. The induction is on the
attributes. -/
theorem emitAttributes_literal (hEngine : env.expression = JqEngine.engine lang) (attributes : Map) (event : CloudEvent)
    (hPlain : ∀ s ∈ Value.entryStrings attributes, ¬ JqEngine.HasBlock s.toList) :
    Instantly (emitAttributes env exprCtx attributes event).run
      (.ok (declaredEvent attributes event)) := by
  induction attributes generalizing event with
  | nil => exact Instantly.done _
  | cons entry rest ih =>
      obtain ⟨k, v⟩ := entry
      have hValue := @deepInterpolate_literal env lang exprCtx hEngine v fun s hMem =>
        hPlain s (List.mem_append_left _ hMem)
      exact hValue.seq (ih _ fun s hMem => hPlain s (List.mem_append_right _ hMem))

end Interpolation

section Attributes

variable {attributes : Map} {event : CloudEvent}

/-- A part of an event which one attribute sets, and no other. -/
theorem declaredEvent_part {β : Type} (part : CloudEvent → β) (key : String) (f : Value → β)
    (hSelf : ∀ event value, part (setAttribute event key value) = f value)
    (hOther : ∀ event k value, k ≠ key → part (setAttribute event k value) = part event)
    (hKeys : (attributes.map Prod.fst).Nodup) (event : CloudEvent) :
    part (declaredEvent attributes event) = ((attributes.lookup key).map f).getD (part event) := by
  induction attributes generalizing event with
  | nil => rfl
  | cons entry rest ih =>
      obtain ⟨k, v⟩ := entry
      rw [List.map_cons, List.nodup_cons] at hKeys
      have hStep : declaredEvent ((k, v) :: rest) event = declaredEvent rest (setAttribute event k v) :=
        rfl
      rw [hStep, ih hKeys.2]
      by_cases hSame : key = k
      · subst hSame
        have hNone : rest.lookup key = none := by
          rw [List.lookup_eq_none_iff]
          intro other hMem
          have hOther : other.1 ≠ key := fun h => hKeys.1 (List.mem_map.mpr ⟨other, hMem, h⟩)
          simpa using Ne.symm hOther
        simp [hNone, hSelf]
      · rw [Map.lookup_cons_of_ne v rest hSame, hOther _ _ _ (Ne.symm hSame)]

/-- A part of an event which no attribute sets. -/
theorem declaredEvent_kept {β : Type} (part : CloudEvent → β)
    (hKept : ∀ event k value, part (setAttribute event k value) = part event) (event : CloudEvent) :
    part (declaredEvent attributes event) = part event := by
  induction attributes generalizing event with
  | nil => rfl
  | cons entry rest ih => exact (ih _).trans (hKept _ _ _)

/-- The event has the attribute that is declared, or the one it had: this is so for its id, -/
theorem declaredEvent_id (hKeys : (attributes.map Prod.fst).Nodup) :
    (declaredEvent attributes event).id =
      ((attributes.lookup "id").map fun v => v.asStr.getD "").getD event.id := by
  refine declaredEvent_part CloudEvent.id "id" _ (fun _ _ => rfl) ?_ hKeys event
  intro event k value hNe
  simp only [setAttribute, if_neg hNe]
  split_ifs <;> rfl

/-- its source, -/
theorem declaredEvent_source (hKeys : (attributes.map Prod.fst).Nodup) :
    (declaredEvent attributes event).source =
      ((attributes.lookup "source").map fun v => v.asStr.getD "").getD event.source := by
  refine declaredEvent_part CloudEvent.source "source" _ (fun _ _ => rfl) ?_ hKeys event
  intro event k value hNe
  simp only [setAttribute, if_neg hNe]
  split_ifs <;> rfl

/-- its type, -/
theorem declaredEvent_type (hKeys : (attributes.map Prod.fst).Nodup) :
    (declaredEvent attributes event).type =
      ((attributes.lookup "type").map fun v => v.asStr.getD "").getD event.type := by
  refine declaredEvent_part CloudEvent.type "type" _ (fun _ _ => rfl) ?_ hKeys event
  intro event k value hNe
  simp only [setAttribute, if_neg hNe]
  split_ifs <;> rfl

/-- its subject, -/
theorem declaredEvent_subject (hKeys : (attributes.map Prod.fst).Nodup) :
    (declaredEvent attributes event).subject =
      ((attributes.lookup "subject").map Value.asStr).getD event.subject := by
  refine declaredEvent_part CloudEvent.subject "subject" _ (fun _ _ => rfl) ?_ hKeys event
  intro event k value hNe
  simp only [setAttribute, if_neg hNe]
  split_ifs <;> rfl

/-- and its data. -/
theorem declaredEvent_data (hKeys : (attributes.map Prod.fst).Nodup) :
    (declaredEvent attributes event).data =
      ((attributes.lookup "data").map some).getD event.data := by
  refine declaredEvent_part CloudEvent.data "data" _ (fun _ _ => rfl) ?_ hKeys event
  intro event k value hNe
  simp only [setAttribute, if_neg hNe]
  split_ifs <;> rfl

/-- The attributes that are known otherwise are no extensions. -/
theorem setAttribute_extensions {k : String} (value : Value) (event : CloudEvent) :
    (setAttribute event k value).extensions =
      if k ∈ knownAttributes then event.extensions else Map.insert k value event.extensions := by
  by_cases hKnown : k ∈ knownAttributes
  · rw [if_pos hKnown]
    simp only [knownAttributes, contextAttributes, List.mem_cons, List.not_mem_nil, or_false] at hKnown
    rcases hKnown with rfl | rfl | rfl | rfl | rfl | rfl | rfl | rfl <;> rfl
  · rw [if_neg hKnown]
    simp only [knownAttributes, contextAttributes, List.mem_cons, List.not_mem_nil, or_false,
      not_or] at hKnown
    simp [setAttribute, hKnown]

/-- Any other key becomes an extension of the event, -/
theorem declaredEvent_extension (hKeys : (attributes.map Prod.fst).Nodup) {k : String}
    (hUnknown : k ∉ knownAttributes) :
    (declaredEvent attributes event).extensions.lookup k =
      ((attributes.lookup k).map some).getD (event.extensions.lookup k) := by
  refine declaredEvent_part (fun event => event.extensions.lookup k) k _ ?_ ?_ hKeys event
  · intro event value
    rw [setAttribute_extensions, if_neg hUnknown, Map.lookup_insert_self]
  · intro event k' value hNe
    rw [setAttribute_extensions]
    split_ifs
    · rfl
    · exact Map.lookup_insert_of_ne value _ (Ne.symm hNe)

/-- and none of the known ones does. -/
theorem declaredEvent_known {k : String} (hKnown : k ∈ knownAttributes) :
    (declaredEvent attributes event).extensions.lookup k = event.extensions.lookup k := by
  refine declaredEvent_kept (fun event => event.extensions.lookup k) ?_ event
  intro event k' value
  rw [setAttribute_extensions]
  split_ifs with hOther
  · rfl
  · refine Map.lookup_insert_of_ne value _ ?_
    rintro rfl
    exact hOther hKnown

/-- The extensions stay in the order of their keys. -/
theorem declaredEvent_sorted (sorted : event.extensions.Pairwise fun a b => a.1 < b.1) :
    (declaredEvent attributes event).extensions.Pairwise fun a b => a.1 < b.1 := by
  induction attributes generalizing event with
  | nil => exact sorted
  | cons entry rest ih =>
      apply ih
      rw [setAttribute_extensions]
      split_ifs
      · exact sorted
      · exact Map.sorted_insert sorted

end Attributes

/-- The attributes which the matcher does not look up where the event has them. -/
def misread : List String := ["time", "datacontenttype", "dataschema"]

/-- The attributes of which the matcher compares texts only. -/
def textual : List String := ["type", "source", "subject"]

/-- The field of the data of an event that stands in for an attribute. -/
def dataField (attributes : Map) (k : String) : Value :=
  ((attributes.lookup "data").bind (·.get? k)).getD .null

/-- What the matcher compares with the value of an attribute. -/
def seenValue (attributes : Map) (id k : String) : Value :=
  if k ∈ misread then dataField attributes k
  else if k = "id" ∧ attributes.lookup "id" = some (.string "") then .string id
  else (attributes.lookup k).getD .null

section Received

variable {attributes : Map} {source id time : String}

/-- The event as a listen task receives it. -/
def receivedEvent (source id time : String) (attributes : Map) : CloudEvent :=
  CloudEvent.fromMessage (emittedEvent source id time attributes).toMessage

/-- They pass through the message as they are. -/
theorem receivedEvent_extensions (k : String) :
    (receivedEvent source id time attributes).extensions.lookup k =
      (declaredEvent attributes (CloudEvent.new "" source "")).extensions.lookup k := by
  have sorted : (declaredEvent attributes (CloudEvent.new "" source "")).extensions.Pairwise
      fun a b => a.1 < b.1 := declaredEvent_sorted List.Pairwise.nil
  have hExtend := @Map.lookup_extend_of_nodup Value _ [] (Map.nodup_of_sorted sorted) k
  exact hExtend.trans (by simp)

/-- What the matcher finds under a key that the attributes give: the value given, or, for the
attributes that it does not look up, a field of the data in its place. -/
theorem attributeOf_received (literal : LiteralEvent attributes) {k : String} {v : Value}
    (hGiven : attributes.lookup k = some v) (hTextual : k ∉ textual) :
    EventMatcher.attributeOf (receivedEvent source id time attributes) k =
      seenValue attributes id k := by
  simp only [textual, List.mem_cons, List.not_mem_nil, or_false, not_or] at hTextual
  have hData : (receivedEvent source id time attributes).data = attributes.lookup "data" := by
    refine (declaredEvent_data literal.keys).trans ?_
    cases attributes.lookup "data" <;> rfl
  by_cases hIsData : k = "data"
  · subst hIsData
    simp [EventMatcher.attributeOf, seenValue, misread, hData]
  by_cases hIsId : k = "id"
  · subst hIsId
    obtain ⟨s, rfl⟩ := literal.texts "id" (by simp [contextAttributes]) v hGiven
    have hId : (receivedEvent source id time attributes).id = if s.isEmpty then id else s := by
      have hDeclared : (declaredEvent attributes (CloudEvent.new "" source "")).id = s := by
        rw [declaredEvent_id literal.keys, hGiven]
        rfl
      show (if (declaredEvent attributes (CloudEvent.new "" source "")).id.isEmpty then id
        else (declaredEvent attributes (CloudEvent.new "" source "")).id) = _
      rw [hDeclared]
    by_cases hEmpty : s = ""
    · subst hEmpty
      simp [EventMatcher.attributeOf, seenValue, misread, hId, hGiven]
    · simp [EventMatcher.attributeOf, seenValue, misread, hId, hGiven, hEmpty]
  have hFound : EventMatcher.attributeOf (receivedEvent source id time attributes) k =
      (((receivedEvent source id time attributes).extensions.lookup k).orElse fun _ =>
        (receivedEvent source id time attributes).data.bind (·.get? k)).getD .null := by
    simp [EventMatcher.attributeOf, hTextual, hIsData, hIsId]
  rw [hFound, receivedEvent_extensions, hData]
  by_cases hMisread : k ∈ misread
  · have hKnown : k ∈ knownAttributes := by
      simp only [misread, List.mem_cons, List.not_mem_nil, or_false] at hMisread
      rcases hMisread with rfl | rfl | rfl <;> simp [knownAttributes, contextAttributes]
    rw [declaredEvent_known hKnown, seenValue, if_pos hMisread]
    rfl
  · have hUnknown : k ∉ knownAttributes := by
      simp only [misread, List.mem_cons, List.not_mem_nil, or_false, not_or] at hMisread
      simp [knownAttributes, contextAttributes, hMisread, hTextual, hIsData, hIsId]
    rw [declaredEvent_extension literal.keys hUnknown, hGiven, seenValue, if_neg hMisread,
      if_neg (fun h => hIsId h.1), hGiven]
    rfl

end Received

/-- The matcher accepts an entry of a filter. -/
def Accepted (attributes : Map) (id : String) (entry : String × Value) : Prop :=
  if entry.1 ∈ textual then ∀ s, entry.2 = .string s → attributes.lookup entry.1 = some (.string s)
  else valuesEqual (seenValue attributes id entry.1) entry.2 = true

/-- The attributes have the value of an entry of a filter. -/
def Declared (attributes : Map) (entry : String × Value) : Prop :=
  ∃ v, attributes.lookup entry.1 = some v ∧ valuesEqual v entry.2 = true

/-- The matcher compares an entry of a filter with what the attributes give. A text attribute
is compared with texts only; the time and the description of the data are looked up in the
data; an empty id has been replaced. -/
def Faithful (attributes : Map) (id : String) (entry : String × Value) : Prop :=
  if entry.1 ∈ textual then ∃ s, entry.2 = .string s
  else if entry.1 ∈ misread then
    (valuesEqual (dataField attributes entry.1) entry.2 = true ↔
      attributes.lookup entry.1 = some entry.2)
  else if entry.1 = "id" ∧ attributes.lookup "id" = some (.string "") then
    (entry.2 = .string id ↔ entry.2 = .string "")
  else True

/-- Either every entry of the filter is compared faithfully, or the filter is rejected by the
matcher and by the attributes, if on account of different entries. -/
def FilterFaithful (attributes : Map) (id : String) (filter : Map) : Prop :=
  (∀ entry ∈ filter, Faithful attributes id entry) ∨
    (∃ entry ∈ filter, ¬ Accepted attributes id entry) ∧ ∃ entry ∈ filter, ¬ Declared attributes entry

section Filters

variable {attributes : Map} {source id time : String} {filter : EventFilterDef}

/-- Only the same text equals a text. -/
theorem valuesEqual_string_iff {s : String} {v : Value} :
    valuesEqual (.string s) v = true ↔ v = .string s := by
  cases v with
  | string t =>
      simp only [valuesEqual, beq_iff_eq, Value.string.injEq]
      exact eq_comm
  | _ => simp [valuesEqual]

/-- The matcher is faithful at an entry when it accepts the entry just where the event declares it.
-/
theorem faithful_iff (literal : LiteralEvent attributes) {entry : String × Value}
    (hGiven : entry.1 ∈ attributes.map Prod.fst) :
    Faithful attributes id entry ↔ (Accepted attributes id entry ↔ Declared attributes entry) := by
  obtain ⟨k, v⟩ := entry
  obtain ⟨w, hLookup⟩ : ∃ w, attributes.lookup k = some w := by
    obtain ⟨⟨_, w⟩, hMem, rfl⟩ := List.mem_map.mp hGiven
    exact ⟨w, Map.lookup_of_mem literal.keys hMem⟩
  have hDeclared : Declared attributes (k, v) ↔ valuesEqual w v = true := by
    simp [Declared, hLookup]
  rw [hDeclared, Faithful, Accepted]
  by_cases hTextual : k ∈ textual
  · have hContext : k ∈ contextAttributes := by
      simp only [textual, List.mem_cons, List.not_mem_nil, or_false] at hTextual
      rcases hTextual with rfl | rfl | rfl <;> simp [contextAttributes]
    obtain ⟨s, rfl⟩ := literal.texts k hContext w hLookup
    rw [if_pos hTextual, if_pos hTextual, valuesEqual_string_iff, hLookup]
    constructor
    · rintro ⟨s', rfl⟩
      simp [eq_comm]
    · intro hSame
      by_contra hNoText
      have hText := hSame.mp fun s' hText => absurd ⟨s', hText⟩ hNoText
      exact hNoText ⟨s, hText⟩
  rw [if_neg hTextual, if_neg hTextual, seenValue]
  by_cases hMisread : k ∈ misread
  · have hContext : k ∈ contextAttributes := by
      simp only [misread, List.mem_cons, List.not_mem_nil, or_false] at hMisread
      rcases hMisread with rfl | rfl | rfl <;> simp [contextAttributes]
    obtain ⟨s, rfl⟩ := literal.texts k hContext w hLookup
    rw [if_pos hMisread, if_pos hMisread, valuesEqual_string_iff, hLookup, Option.some_inj,
      @eq_comm _ v]
  rw [if_neg hMisread, if_neg hMisread]
  by_cases hId : k = "id" ∧ attributes.lookup "id" = some (.string "")
  · rw [if_pos hId, if_pos hId, valuesEqual_string_iff]
    obtain ⟨rfl, hEmpty⟩ := hId
    rw [hEmpty] at hLookup
    cases hLookup
    rw [valuesEqual_string_iff]
  · rw [if_neg hId, if_neg hId, hLookup]
    simp

/-- A text attribute of the filter constrains the event only where it is a text. -/
theorem constraint_iff (hKeys : (filter.with_.map Prod.fst).Nodup) (key x : String) :
    (((filter.with_.lookup key).bind Value.asStr).all fun s => s == x) = true ↔
      ∀ entry ∈ filter.with_, entry.1 = key → ∀ s, entry.2 = .string s → s = x := by
  constructor
  · rintro hAll ⟨k, v⟩ hMem rfl s rfl
    rw [Map.lookup_of_mem hKeys hMem] at hAll
    simpa [Value.asStr] using hAll
  · intro hAll
    cases hLookup : filter.with_.lookup key with
    | none => rfl
    | some v =>
        have hEntry := hAll (key, v) (Map.mem_of_lookup hLookup) rfl
        cases v with
        | string s => simpa [Value.asStr] using hEntry s rfl
        | _ => rfl

/-- What is received has the texts which the attributes give: its type, its source and its subject.
-/
theorem received_texts (literal : LiteralEvent attributes) {k : String}
    (hTextual : k ∈ textual) (hGiven : k ∈ attributes.map Prod.fst) :
    ∃ s, attributes.lookup k = some (.string s) ∧
      (k = "type" → (receivedEvent source id time attributes).type = s) ∧
      (k = "source" → (receivedEvent source id time attributes).source = s) ∧
      (k = "subject" → (receivedEvent source id time attributes).subject = some s) := by
  have hContext : k ∈ contextAttributes := by
    simp only [textual, List.mem_cons, List.not_mem_nil, or_false] at hTextual
    rcases hTextual with rfl | rfl | rfl <;> simp [contextAttributes]
  obtain ⟨⟨_, w⟩, hMem, rfl⟩ := List.mem_map.mp hGiven
  have hLookup := Map.lookup_of_mem literal.keys hMem
  obtain ⟨s, rfl⟩ := literal.texts _ hContext w hLookup
  refine ⟨s, hLookup, ?_, ?_, ?_⟩
  · rintro rfl
    refine (declaredEvent_type literal.keys).trans ?_
    rw [hLookup]
    rfl
  · rintro rfl
    refine (declaredEvent_source literal.keys).trans ?_
    rw [hLookup]
    rfl
  · rintro rfl
    refine (declaredEvent_subject literal.keys).trans ?_
    rw [hLookup]
    rfl

/-- The matcher of a filter accepts an event if it accepts each entry. -/
theorem matches_iff (literal : LiteralEvent attributes) (hKeys : (filter.with_.map Prod.fst).Nodup)
    (hGiven : ∀ entry ∈ filter.with_, entry.1 ∈ attributes.map Prod.fst) :
    (buildMatcher filter).matches_ (receivedEvent source id time attributes) = true ↔
      ∀ entry ∈ filter.with_, Accepted attributes id entry := by
  rw [EventMatcher.matches_, Bool.and_eq_true, Bool.and_eq_true, Bool.and_eq_true, buildMatcher,
    constraint_iff hKeys, constraint_iff hKeys, constraint_iff hKeys, List.all_eq_true]
  constructor
  · rintro ⟨⟨⟨hType, hSource⟩, hSubject⟩, hOthers⟩ ⟨k, v⟩ hMem
    rw [Accepted]
    by_cases hTextual : k ∈ textual
    · rw [if_pos hTextual]
      obtain ⟨x, hLookup, hIsType, hIsSource, hIsSubject⟩ :=
        @received_texts attributes source id time literal k hTextual (hGiven _ hMem)
      rintro s rfl
      rw [hLookup]
      simp only [textual, List.mem_cons, List.not_mem_nil, or_false] at hTextual
      rcases hTextual with rfl | rfl | rfl
      · rw [hType _ hMem rfl s rfl, hIsType rfl]
      · rw [hSource _ hMem rfl s rfl, hIsSource rfl]
      · rw [hSubject _ hMem rfl s rfl, hIsSubject rfl]
        rfl
    · rw [if_neg hTextual]
      obtain ⟨⟨_, w⟩, hEntry, rfl⟩ := List.mem_map.mp (hGiven _ hMem)
      rw [← attributeOf_received literal (Map.lookup_of_mem literal.keys hEntry) hTextual]
      refine hOthers _ (List.mem_filter.mpr ⟨hMem, ?_⟩)
      simp only [textual, List.mem_cons, List.not_mem_nil, or_false, not_or] at hTextual
      simpa using hTextual
  · intro hAll
    have hText : ∀ key ∈ textual, ∀ entry ∈ filter.with_, entry.1 = key → ∀ s,
        entry.2 = .string s → attributes.lookup key = some (.string s) := by
      rintro key hTextual ⟨k, v⟩ hMem rfl s rfl
      have hEntry := hAll _ hMem
      rw [Accepted, if_pos hTextual] at hEntry
      exact hEntry s rfl
    have hSame : ∀ key ∈ textual, ∀ entry ∈ filter.with_, entry.1 = key → ∀ s,
        entry.2 = .string s →
          (key = "type" → s = (receivedEvent source id time attributes).type) ∧
          (key = "source" → s = (receivedEvent source id time attributes).source) ∧
          (key = "subject" → s = (receivedEvent source id time attributes).subject.getD "") := by
      intro key hTextual entry hMem hKey s hString
      have hGivenKey : key ∈ attributes.map Prod.fst := hKey ▸ hGiven entry hMem
      obtain ⟨x, hLookup, hIsType, hIsSource, hIsSubject⟩ :=
        @received_texts attributes source id time literal key hTextual hGivenKey
      have hString' := hText key hTextual entry hMem hKey s hString
      rw [hLookup] at hString'
      cases hString'
      refine ⟨fun h => (hIsType h).symm, fun h => (hIsSource h).symm, fun h => ?_⟩
      rw [hIsSubject h]
      rfl
    refine ⟨⟨⟨?_, ?_⟩, ?_⟩, ?_⟩
    · exact fun entry hMem hKey s hString =>
        (hSame "type" (by simp [textual]) entry hMem hKey s hString).1 rfl
    · exact fun entry hMem hKey s hString =>
        (hSame "source" (by simp [textual]) entry hMem hKey s hString).2.1 rfl
    · exact fun entry hMem hKey s hString =>
        (hSame "subject" (by simp [textual]) entry hMem hKey s hString).2.2 rfl
    · rintro ⟨k, v⟩ hMem
      obtain ⟨hMem, hOther⟩ := List.mem_filter.mp hMem
      have hTextual : k ∉ textual := by simpa [textual] using hOther
      have hEntry := hAll _ hMem
      rw [Accepted, if_neg hTextual] at hEntry
      obtain ⟨⟨_, w⟩, hGivenEntry, rfl⟩ := List.mem_map.mp (hGiven _ hMem)
      rw [attributeOf_received literal (Map.lookup_of_mem literal.keys hGivenEntry) hTextual]
      exact hEntry

/-- Two ways of looking at the entries of a list agree on all of them together. -/
theorem forall_iff_forall_iff {α : Type} {list : List α} {P Q : α → Prop} :
    ((∀ a ∈ list, P a) ↔ ∀ a ∈ list, Q a) ↔
      (∀ a ∈ list, (P a ↔ Q a)) ∨ (∃ a ∈ list, ¬ P a) ∧ ∃ a ∈ list, ¬ Q a := by
  constructor
  · intro hBoth
    by_cases hAll : ∀ a ∈ list, P a
    · exact Or.inl fun a hMem => ⟨fun _ => hBoth.mp hAll a hMem, fun _ => hAll a hMem⟩
    · have hNot : ¬ ∀ a ∈ list, Q a := fun hQ => hAll (hBoth.mpr hQ)
      simp only [not_forall] at hAll hNot
      obtain ⟨a, hMem, hP⟩ := hAll
      obtain ⟨b, hOther, hQ⟩ := hNot
      exact Or.inr ⟨⟨a, hMem, hP⟩, b, hOther, hQ⟩
  · rintro (hEach | ⟨⟨a, hMem, hP⟩, b, hOther, hQ⟩)
    · exact ⟨fun hAll a hMem => (hEach a hMem).mp (hAll a hMem),
        fun hAll a hMem => (hEach a hMem).mpr (hAll a hMem)⟩
    · exact ⟨fun hAll => absurd (hAll a hMem) hP, fun hAll => absurd (hAll b hOther) hQ⟩

/-- Where the matcher is faithful at every entry, it accepts the events that have the requested
values, and no others. -/
theorem matches_iff_requested (literal : LiteralEvent attributes)
    (hKeys : (filter.with_.map Prod.fst).Nodup)
    (hGiven : ∀ entry ∈ filter.with_, entry.1 ∈ attributes.map Prod.fst) :
    ((buildMatcher filter).matches_ (receivedEvent source id time attributes) = true ↔
      Requested attributes filter.with_) ↔ FilterFaithful attributes id filter.with_ := by
  rw [matches_iff literal hKeys hGiven]
  refine forall_iff_forall_iff.trans (or_congr ?_ Iff.rfl)
  constructor
  · exact fun hEach entry hMem => (faithful_iff literal (hGiven entry hMem)).mpr (hEach entry hMem)
  · exact fun hEach entry hMem => (faithful_iff literal (hGiven entry hMem)).mp (hEach entry hMem)

end Filters

section Runs

variable {env : RuntimeInner} {lang : ExpressionLanguage} {wf : CompiledWorkflow}
  {exprCtx : ExpressionContext} {attributes : Map} {β : Type}

/-- What an emit task does once its attributes are there. -/
def publishEvent (env : RuntimeInner) (event : CloudEvent) : Run Value := do
  let event ← withId event
  if event.type.isEmpty then throw (semanticError "emit task requires an event `type`")
  else
    let event ← withTime env event
    publish event.toMessage
    return event.toValue

/-- An emit task writes its attributes into a new event, and publishes it. -/
theorem taskEmit_eq : taskEmit env wf attributes exprCtx =
    emitAttributes env exprCtx attributes (CloudEvent.new "" wf.id.source "") >>= publishEvent env :=
  rfl

/-- A missing id is drawn at once, and nothing is published by that. -/
theorem withId_advance (event : CloudEvent) (f : CloudEvent → Run β) (σ : EngineState) :
    ∃ τ : EngineState, τ.world.published = σ.world.published ∧ τ.world.clock = σ.world.clock ∧
      engine.advance ((liftM (withId event) : Run CloudEvent) >>= f).run σ =
        engine.advance (f { event with
          id := if event.id.isEmpty then σ.world.uuid σ.world.uuids else event.id }).run τ := by
  by_cases hEmpty : event.id.isEmpty
  · refine ⟨σ.mapWorld fun w => { w with uuids := w.uuids + 1 }, rfl, rfl, ?_⟩
    rw [withId, if_pos hEmpty, if_pos hEmpty]
    exact engine.advance_act_sync (a := Act.newUuid) _ rfl rfl
  · refine ⟨σ, rfl, rfl, ?_⟩
    rw [withId, if_neg hEmpty, if_neg hEmpty]
    rfl

/-- A missing time is read from the clock. -/
theorem withTime_advance (event : CloudEvent) (f : CloudEvent → Run β) (σ : EngineState) :
    engine.advance ((liftM (withTime env event) : Run CloudEvent) >>= f).run σ =
      engine.advance (f { event with
        time := some (event.time.getD (env.isoTime σ.world.clock)) }).run σ := by
  cases hTime : event.time with
  | none =>
      rw [withTime, if_pos (by simp [hTime])]
      exact engine.advance_act_sync (a := Act.epochSeconds) _ rfl rfl
  | some time =>
      obtain ⟨_, _, _, _, _, _, _, _, _⟩ := event
      cases hTime
      rfl

/-- An event with a type is published, in the first turn, with an id and a time. -/
theorem publishEvent_advance {event : CloudEvent} (hType : event.type ≠ "") (σ : EngineState) :
    ∃ next, ∃ τ : EngineState, τ.world.published = σ.world.published ∧
      engine.advance (publishEvent env event).run σ =
        (.act (.publish none (completedEvent event (σ.world.uuid σ.world.uuids)
          (env.isoTime σ.world.clock)).toMessage) next, τ) ∧
      ∀ reply, ∃ result, next reply = .done result := by
  obtain ⟨τ, hPublished, hClock, hId⟩ := withId_advance event (fun event =>
    if event.type.isEmpty then throw (semanticError "emit task requires an event `type`")
    else do
      let event ← withTime env event
      publish event.toMessage
      return event.toValue) σ
  rw [if_neg (by simpa using hType), withTime_advance, hClock] at hId
  refine ⟨_, τ, hPublished, hId.trans (engine.advance_act_of_ne (a := Act.publish none _) _ _ ?_), ?_⟩
  · intro hMode
    cases hMode
  · rintro (e | _) <;> exact ⟨_, rfl⟩

/-- The message which an emit task publishes from a state on. -/
def emittedMessage (env : RuntimeInner) (wf : CompiledWorkflow) (attributes : Map)
    (σ : EngineState) : EventMessage :=
  (emittedEvent wf.id.source (σ.world.uuid σ.world.uuids) (env.isoTime σ.world.clock)
    attributes).toMessage

/-- An emit task waits for its message to be published, and then returns. -/
theorem taskEmit_advance (hEngine : env.expression = JqEngine.engine lang)
    (literal : LiteralEvent attributes) (σ : EngineState) :
    ∃ next, ∃ τ : EngineState, τ.world.published = σ.world.published ∧
      engine.advance (taskEmit env wf attributes exprCtx).run σ =
        (.act (.publish none (emittedMessage env wf attributes σ)) next, τ) ∧
      ∀ reply, ∃ result, next reply = .done result := by
  have hType : (declaredEvent attributes (CloudEvent.new "" wf.id.source "")).type ≠ "" := by
    obtain ⟨s, hNonempty, hLookup⟩ := literal.type
    rw [declaredEvent_type literal.keys, hLookup]
    exact hNonempty
  have hInstantly := @emitAttributes_literal env lang exprCtx hEngine attributes
    (CloudEvent.new "" wf.id.source "") literal.literal
  obtain ⟨τ, hWorld, hAdvance⟩ := hInstantly.advance_bind (ExceptT.bindCont (publishEvent env)) σ
  obtain ⟨next, υ, hPublished, hEvent, hNext⟩ := @publishEvent_advance env _ hType τ
  rw [hWorld] at hPublished hEvent
  exact ⟨next, υ, hPublished, hAdvance.trans hEvent, hNext⟩

/-- In every run, an emit task has published nothing as long as it waits, and then one message. -/
theorem taskEmit_publishes (hEngine : env.expression = JqEngine.engine lang)
    (literal : LiteralEvent attributes) (σ : EngineState) {d : Config engineSig (Except WorkflowError Value)}
    (reached : engine.Reaches (engine.advance (taskEmit env wf attributes exprCtx).run σ) d) :
    (d.1.value? = none ∧ d.2.world.published = σ.world.published) ∨
      d.2.world.published = σ.world.published ++ [(none, emittedMessage env wf attributes σ)] := by
  obtain ⟨next, τ, hPublished, hAdvance, hNext⟩ :=
    @taskEmit_advance env lang wf exprCtx attributes hEngine literal σ
  rw [hAdvance] at reached
  rcases (Handler.Reaches.follows reached).act_cases with
    ⟨w, hDrift, rfl⟩ | ⟨w, reply, υ, hDrift, hPerform, hRest⟩
  · exact Or.inl ⟨rfl, (drifts_published hDrift).trans hPublished⟩
  · obtain ⟨result, hResult⟩ := hNext reply
    rw [hResult] at hRest
    obtain ⟨x, hLater, rfl⟩ := Handler.Follows.done_cases hRest
    cases hPerform
    refine Or.inr ((drifts_published hLater).trans ?_)
    show w.published ++ _ = _
    rw [drifts_published hDrift, hPublished]

/-- Some run of an emit task publishes its message, in every state: its attributes are literal, so
their evaluation does not fail. -/
theorem exists_published (hEngine : env.expression = JqEngine.engine lang)
    (literal : LiteralEvent attributes) (σ : EngineState) :
    ∃ d, engine.Reaches (engine.advance (taskEmit env wf attributes exprCtx).run σ) d ∧
      d.2.world.published = σ.world.published ++ [(none, emittedMessage env wf attributes σ)] := by
  obtain ⟨next, τ, hPublished, hAdvance, hNext⟩ :=
    @taskEmit_advance env lang wf exprCtx attributes hEngine literal σ
  obtain ⟨result, hResult⟩ := hNext (τ.world.oracle.publish (emittedMessage env wf attributes σ))
  obtain ⟨υ, hPerform, hAfter⟩ : ∃ υ : EngineState,
      perform (.publish none (emittedMessage env wf attributes σ)) τ =
        some (τ.world.oracle.publish (emittedMessage env wf attributes σ), υ) ∧
      υ.world.published = τ.world.published ++ [(none, emittedMessage env wf attributes σ)] :=
    ⟨_, rfl, rfl⟩
  refine ⟨(.done result, υ), ⟨[.turn .here], ?_⟩, ?_⟩
  · have hTurn : engine.choose (.act (.publish none (emittedMessage env wf attributes σ)) next, τ)
        (.turn .here) = some (.done result, υ) := by
      show (perform (.publish none (emittedMessage env wf attributes σ)) τ).map
        (fun r => engine.advance (next r.1) r.2) = _
      rw [hPerform]
      show some (engine.advance (next _) υ) = _
      rw [hResult]
      rfl
    rw [hAdvance, Handler.run_cons, hTurn]
    rfl
  · rw [hAfter, hPublished]

/-- The message that an emit task of literal attributes publishes matches a filter on these
attributes, if and only if each value of the filter equals the one that the attributes give,
just for the filters that are faithful: their types, sources and subjects are texts, they ask
for the time, the content type and the schema of the data where the data has the same, and not
for an id that was empty; or they match neither way. -/
theorem emit_listen_agree (hEngine : env.expression = JqEngine.engine lang)
    (literal : LiteralEvent attributes) {filter : EventFilterDef}
    (hKeys : (filter.with_.map Prod.fst).Nodup)
    (hGiven : ∀ entry ∈ filter.with_, entry.1 ∈ attributes.map Prod.fst) (σ : EngineState) :
    ∃ message,
      (∀ d, engine.Reaches (engine.advance (taskEmit env wf attributes exprCtx).run σ) d →
        (d.1.value? = none ∧ d.2.world.published = σ.world.published) ∨
          d.2.world.published = σ.world.published ++ [(none, message)]) ∧
      (∃ d, engine.Reaches (engine.advance (taskEmit env wf attributes exprCtx).run σ) d ∧
        d.2.world.published = σ.world.published ++ [(none, message)]) ∧
      (((buildMatcher filter).matches_ (CloudEvent.fromMessage message) = true ↔
          Requested attributes filter.with_) ↔
        FilterFaithful attributes (σ.world.uuid σ.world.uuids) filter.with_) :=
  ⟨emittedMessage env wf attributes σ, fun _ => taskEmit_publishes hEngine literal σ,
    exists_published hEngine literal σ, matches_iff_requested literal hKeys hGiven⟩

end Runs

namespace Sample

/-- A runtime with the expression engine that is bundled. -/
def bundled : RuntimeInner :=
  { runtime with expression := JqEngine.engine (Jq.language (.ascii true)) }

/-- An event with a time. -/
def timed : Map := [("time", .string "2024-01-01T00:00:00Z"), ("type", .string "tick")]

/-- The filter which asks for that time. -/
def timeFilter : EventFilterDef :=
  { with_ := [("time", .string "2024-01-01T00:00:00Z")], correlate := [] }

/-- The attributes of the sample are literal. -/
theorem literalEvent_timed : LiteralEvent timed where
  keys := by decide
  literal := by
    intro s hMem hBlock
    have hTexts : s = "2024-01-01T00:00:00Z" ∨ s = "tick" := by
      simpa [timed, Value.entryStrings, Value.strings] using hMem
    obtain ⟨before, after, hText⟩ := hBlock
    have hDollar : '$' ∈ s.toList := by
      rw [← hText]
      simp [JqEngine.opening]
    rcases hTexts with rfl | rfl <;> revert hDollar <;> decide
  texts := by
    intro k _ v hLookup
    have hEntry := Map.mem_of_lookup hLookup
    simp only [timed, List.mem_cons, Prod.mk.injEq, List.not_mem_nil, or_false] at hEntry
    rcases hEntry with ⟨_, rfl⟩ | ⟨_, rfl⟩ <;> exact ⟨_, rfl⟩
  type := ⟨"tick", by decide, rfl⟩

/-- The conditions of the theorem hold of an event whose type a filter asks for. -/
theorem emit_listen_tick :
    ("type", Value.string "tick") ∈ timed ∧
      ∃ message, ((buildMatcher ⟨[("type", .string "tick")], []⟩).matches_
        (CloudEvent.fromMessage message) = true ↔ Requested timed [("type", .string "tick")]) ↔
          FilterFaithful timed "id" [("type", .string "tick")] := by
  refine ⟨by decide, ?_⟩
  obtain ⟨message, _, _, hAgree⟩ := @emit_listen_agree bundled _ (workflow [] [])
    ⟨.null, .null, .null, [], none, none, none, none, []⟩ timed rfl literalEvent_timed
    ⟨[("type", .string "tick")], []⟩ (by decide) (by decide) (idle (workflow [] []) world)
  exact ⟨message, hAgree⟩

/-- A filter that asks for the time of an event does not get it. -/
theorem time_not_matched :
    ¬ ∀ (env : RuntimeInner) (lang : ExpressionLanguage) (wf : CompiledWorkflow)
      (exprCtx : ExpressionContext) (attributes : Map) (filter : EventFilterDef) (σ : EngineState)
      (d : Config engineSig (Except WorkflowError Value)) (message : EventMessage),
      env.expression = JqEngine.engine lang → LiteralEvent attributes →
      (filter.with_.map Prod.fst).Nodup →
      (∀ entry ∈ filter.with_, entry.1 ∈ attributes.map Prod.fst) →
      engine.Reaches (engine.advance (taskEmit env wf attributes exprCtx).run σ) d →
      d.2.world.published = σ.world.published ++ [(none, message)] →
      ((buildMatcher filter).matches_ (CloudEvent.fromMessage message) = true ↔
        Requested attributes filter.with_) := by
  intro hAgree
  obtain ⟨d, hReached, hPublished⟩ := @exists_published bundled _ (workflow [] [])
    ⟨.null, .null, .null, [], none, none, none, none, []⟩ timed rfl literalEvent_timed
    (idle (workflow [] []) world)
  have hMatches := (hAgree bundled _ _ _ timed timeFilter _ d _ rfl literalEvent_timed (by decide)
    (by decide) hReached hPublished).mpr ?_
  · revert hMatches
    decide
  · intro entry hMem
    obtain rfl := List.mem_singleton.mp hMem
    exact ⟨_, rfl, valuesEqual_string_iff.mpr rfl⟩

end Sample

end OwsRuntime
