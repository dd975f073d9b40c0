import OwsRuntime.Core.Equality
import OwsRuntime.Properties.ListenUntil

/-! The correlation keys of a listen task that waits for all of its filters. The keys are
grouped by the text of their `from` expression, and their names are dropped. -/
namespace OwsRuntime

open Async Handler

namespace Listening

variable (l : Listening)

/-- The event has a value for the key, which is the one expected or that of the group. -/
def Agrees (event : EventMessage) (key : CorrelationDef) (group : Map) : Prop :=
  ∃ got, l.extracted event key.from_ = some got ∧
    match key.expect with
    | some expect => ∃ want, l.expected expect = some want ∧ valuesEqual got want = true
    | none => ∃ first, group.lookup key.from_ = some first ∧ valuesEqual got first = true

/-- The values of an event are JSON values, whose objects have one entry for each key. -/
def Json (event : EventMessage) : Prop :=
  ∀ source value, l.extracted event source = some value → value.WellFormed

/-- What is in a group stays there. -/
def Grows (group more : Map) : Prop :=
  ∀ key value, group.lookup key = some value → more.lookup key = some value

variable {l} {event : EventMessage} {group more : Map}

theorem Grows.refl (group : Map) : Grows group group := fun _ _ h => h

theorem Grows.trans {most : Map} (first : Grows group more) (second : Grows more most) :
    Grows group most := fun key value h => second key value (first key value h)

theorem Agrees.grow {key : CorrelationDef} (agrees : l.Agrees event key group)
    (grows : Grows group more) : l.Agrees event key more := by
  obtain ⟨got, hGot, hValue⟩ := agrees
  refine ⟨got, hGot, ?_⟩
  cases hExpect : key.expect with
  | some expect =>
      rw [hExpect] at hValue
      exact hValue
  | none =>
      rw [hExpect] at hValue
      obtain ⟨first, hFirst, hEqual⟩ := hValue
      exact ⟨first, grows _ _ hFirst, hEqual⟩

/-- An event with a new key keeps what is in the group. -/
theorem grows_insert {key : String} {value : Value} (hNew : group.lookup key = none) :
    Grows group (Map.insert key value group) := by
  intro other existing hExisting
  have hOther : other ≠ key := by
    rintro rfl
    rw [hNew] at hExisting
    cases hExisting
  rw [Map.lookup_insert_of_ne value group hOther]
  exact hExisting

/-- An event that is correlated agrees with its group on every key, and the group has grown by the
values that it lacked. The induction is on the keys. -/
theorem correlated_agrees (json : l.Json event) {keys : List CorrelationDef}
    (hCorrelated : l.correlated event keys group = some more) :
    Grows group more ∧ ∀ key ∈ keys, l.Agrees event key more := by
  induction keys generalizing group with
  | nil =>
      cases hCorrelated
      exact ⟨.refl _, by simp⟩
  | cons key rest ih =>
      rw [correlated, Option.bind_eq_some_iff] at hCorrelated
      obtain ⟨got, hGot, hRest⟩ := hCorrelated
      rw [List.forall_mem_cons]
      cases hExpect : key.expect with
      | some expect =>
          rw [hExpect] at hRest
          obtain ⟨want, hWant, hRest⟩ := Option.bind_eq_some_iff.mp hRest
          split at hRest
          · rename_i hEqual
            obtain ⟨grows, hKeys⟩ := ih hRest
            refine ⟨grows, ⟨got, hGot, ?_⟩, hKeys⟩
            rw [hExpect]
            exact ⟨want, hWant, hEqual⟩
          · cases hRest
      | none =>
          rw [hExpect] at hRest
          cases hLookup : group.lookup key.from_ with
          | some existing =>
              simp only [hLookup] at hRest
              split at hRest
              · rename_i hEqual
                obtain ⟨grows, hKeys⟩ := ih hRest
                refine ⟨grows, ⟨got, hGot, ?_⟩, hKeys⟩
                rw [hExpect]
                exact ⟨existing, grows _ _ hLookup, hEqual⟩
              · cases hRest
          | none =>
              simp only [hLookup] at hRest
              obtain ⟨grows, hKeys⟩ := ih hRest
              refine ⟨(grows_insert hLookup).trans grows, ⟨got, hGot, ?_⟩, hKeys⟩
              rw [hExpect]
              exact ⟨got, grows _ _ (Map.lookup_insert_self _ _ _),
                Value.valuesEqual_refl (json _ _ hGot)⟩

theorem takes_agrees (json : l.Json event) {filter : CompiledListenFilter}
    (hTakes : l.takes filter event group = some more) :
    Grows group more ∧ ∀ key ∈ filter.correlate, l.Agrees event key more := by
  rw [takes] at hTakes
  split at hTakes
  · exact correlated_agrees json hTakes
  · cases hTakes

/-- The group of a filter that an event has just satisfied agrees with the event. -/
theorem mark_agrees (json : l.Json event) {filters : List (CompiledListenFilter × Bool)} :
    Grows group (l.mark event filters group).2 ∧
      ∀ i, l.TakesAt event filters group i → ∃ f, filters[i]? = some (f, false) ∧
        ∀ key ∈ f.correlate, l.Agrees event key (l.mark event filters group).2 := by
  induction filters generalizing group with
  | nil =>
      refine ⟨.refl _, ?_⟩
      rintro i ⟨f, hEntry, _⟩
      simp at hEntry
  | cons entry rest ih =>
      obtain ⟨f, taken⟩ := entry
      cases taken with
      | true =>
          obtain ⟨grows, hRest⟩ := @ih group
          refine ⟨grows, fun i hTakes => ?_⟩
          obtain ⟨g, hEntry, hTakes⟩ := hTakes
          cases i with
          | zero => cases hEntry
          | succ i => exact hRest i ⟨g, hEntry, hTakes⟩
      | false =>
          obtain ⟨grows, hRest⟩ := @ih ((l.takes f event group).getD group)
          have hFirst : Grows group ((l.takes f event group).getD group) := by
            cases hTaken : l.takes f event group with
            | some more => exact (takes_agrees json hTaken).1
            | none => exact .refl _
          refine ⟨hFirst.trans grows, fun i hTakes => ?_⟩
          obtain ⟨g, hEntry, hTakes⟩ := hTakes
          cases i with
          | zero =>
              cases hEntry
              refine ⟨f, rfl, fun key hKey => ?_⟩
              obtain ⟨more, hTaken⟩ := Option.isSome_iff_exists.mp hTakes
              have hAgrees := (takes_agrees json hTaken).2 key hKey
              rw [show (l.takes f event group).getD group = more from congrArg (·.getD group) hTaken]
                at grows
              rw [mark, show l.takes f event group = some more from hTaken]
              exact hAgrees.grow grows
          | succ i => exact hRest i ⟨g, hEntry, hTakes⟩

theorem accept_grows (json : l.Json event) (s : GatherState) :
    Grows s.group (l.accept s event).1.group := by
  cases hNeed : l.need with
  | one =>
      rw [(l.accept_of_one s event hNeed).2]
      exact .refl _
  | all count =>
      rw [(l.accept_of_all s event hNeed).2]
      exact (mark_agrees json).1

/-- The filters that events have satisfied agree with the group as it stands in the end, since a
group only grows. -/
theorem Heard.agrees {events : List EventMessage} {s : GatherState} (heard : l.Heard events s)
    (json : ∀ event ∈ events, l.Json event) {count : Nat} (hNeed : l.need = .all count) {i : Nat}
    (hBy : l.SatisfiedBy events i event) :
    ∃ f, l.filters[i]? = some f ∧ ∀ key ∈ f.correlate, l.Agrees event key s.group := by
  induction heard with
  | start => exact absurd hBy not_met_nil
  | @more events s t latest heard listening hNext ih =>
      have hLatest : l.Json latest := json latest (by simp)
      obtain ⟨stop, _, rfl⟩ := next_cases hNext
      have hUntil : Grows (l.accept s latest).1.group (l.sort s latest).group := by
        rw [sort_group]
        exact (mark_agrees hLatest).1
      rcases (met_append_iff (Q := fun e s => l.TakesAt e s.filters s.group i) heard event).mp hBy
        with hBefore | ⟨rfl, hTakes⟩
      · obtain ⟨f, hFilter, hAgrees⟩ :=
          ih (fun e hMem => json e (List.mem_append_left _ hMem)) hBefore
        exact ⟨f, hFilter, fun key hKey =>
          (hAgrees key hKey).grow ((accept_grows hLatest s).trans hUntil)⟩
      · obtain ⟨f, hEntry, hAgrees⟩ := (mark_agrees hLatest).2 i hTakes
        refine ⟨f, ?_, fun key hKey => ?_⟩
        · rw [(heard.kept.base count hNeed).getElem?, hEntry]
          rfl
        · rw [← (l.accept_of_all s event hNeed).2] at hAgrees
          exact (hAgrees key hKey).grow hUntil

end Listening

/-- The keys which a filter declares, by their names. -/
def EventFilterDefinition.keys (filter : EventFilterDefinition) :
    List (String × CorrelationKeyDefinition) := filter.correlate.getD []

/-- Keys of one name without `expect` have one `from` expression in all of the filters. -/
def SharedSources (filters : List EventFilterDefinition) : Prop :=
  ∀ f ∈ filters, ∀ g ∈ filters, ∀ name key other, (name, key) ∈ f.keys → (name, other) ∈ g.keys →
    key.expect = none → other.expect = none → key.from_ = other.from_

/-- The events that have satisfied the filters agree on the keys of one name, and have the
values that are expected. -/
structure Listening.Grouped (l : Listening) (filters : List EventFilterDefinition)
    (events : List EventMessage) : Prop where
  shared : ∀ (i j : Nat) f g name key other event event', filters[i]? = some f →
    filters[j]? = some g → (name, key) ∈ f.keys → (name, other) ∈ g.keys → key.expect = none →
      other.expect = none → l.SatisfiedBy events i event → l.SatisfiedBy events j event' →
        ∃ got got', l.extracted event key.from_ = some got ∧
          l.extracted event' other.from_ = some got' ∧ valuesEqual got got' = true
  expected : ∀ (i : Nat) f name key expect event, filters[i]? = some f → (name, key) ∈ f.keys →
    key.expect = some expect → l.SatisfiedBy events i event →
      ∃ got want, l.extracted event key.from_ = some got ∧ l.expected expect = some want ∧
        valuesEqual got want = true

section Correlation

open Listening

variable {env : RuntimeInner} {vars : Map} {listen : ListenDefinition}
  {filters : List EventFilterDefinition}

theorem compiled_all (hOne : listen.to_.one = none) (hAll : listen.to_.all = some filters) :
    (compiled env vars listen).need = .all filters.length ∧
      (compiled env vars listen).filters = filters.map fun f => buildFilter (compileFilter f) := by
  have hCompiled : (compileListen listen).to_ = .all (filters.map compileFilter) := by
    rw [compileListen, compileListenTo, hOne, hAll]
  rw [Listening.need, Listening.filters, compiled, hCompiled]
  simp [listenFilters]

theorem agrees_of_satisfied (hOne : listen.to_.one = none) (hAll : listen.to_.all = some filters)
    {events : List EventMessage} {s : GatherState} (heard : (compiled env vars listen).Heard events s)
    (json : ∀ event ∈ events, (compiled env vars listen).Json event) {i : Nat}
    {f : EventFilterDefinition} (hFilter : filters[i]? = some f) {name : String}
    {key : CorrelationKeyDefinition} (hKey : (name, key) ∈ f.keys) {event : EventMessage}
    (hBy : (compiled env vars listen).SatisfiedBy events i event) :
    (compiled env vars listen).Agrees event { from_ := key.from_, expect := key.expect } s.group := by
  obtain ⟨hNeed, hFilters⟩ : (compiled env vars listen).need = _ ∧
      (compiled env vars listen).filters = _ := compiled_all hOne hAll
  obtain ⟨g, hEntry, hAgrees⟩ := heard.agrees json hNeed hBy
  rw [hFilters, List.getElem?_map, hFilter] at hEntry
  cases hEntry
  exact hAgrees _ (List.mem_map.mpr ⟨(name, key), hKey, rfl⟩)

/-- The events that a listen task has consumed agree on the keys which its filters share. The
induction is on the events heard. -/
theorem Listening.Heard.grouped (hOne : listen.to_.one = none) (hAll : listen.to_.all = some filters)
    (hSources : SharedSources filters) {events : List EventMessage} {s : GatherState}
    (heard : (compiled env vars listen).Heard events s)
    (json : ∀ event ∈ events, (compiled env vars listen).Json event) :
    (compiled env vars listen).Grouped filters events where
  shared := by
    intro i j f g name key other event event' hf hg hKey hOther hExpect hExpect' hBy hBy'
    obtain ⟨got, hGot, hValue⟩ := agrees_of_satisfied hOne hAll heard json hf hKey hBy
    obtain ⟨got', hGot', hValue'⟩ := agrees_of_satisfied hOne hAll heard json hg hOther hBy'
    simp only [hExpect] at hValue
    simp only [hExpect'] at hValue'
    obtain ⟨first, hFirst, hEqual⟩ := hValue
    obtain ⟨first', hFirst', hEqual'⟩ := hValue'
    have hSame := hSources f (List.mem_of_getElem? hf) g (List.mem_of_getElem? hg) name key other hKey
      hOther hExpect hExpect'
    rw [← hSame, hFirst] at hFirst'
    cases hFirst'
    have hWellFormed : got'.WellFormed := by
      obtain ⟨before, after, _, hSplit, _⟩ := hBy'
      exact json event' (by simp [hSplit]) other.from_ got' hGot'
    exact ⟨got, got', hGot, hGot',
      Value.valuesEqual_trans hEqual (Value.valuesEqual_symm hWellFormed hEqual')⟩
  expected := by
    intro i f name key expect event hf hKey hExpect hBy
    obtain ⟨got, hGot, hValue⟩ := agrees_of_satisfied hOne hAll heard json hf hKey hBy
    simp only [hExpect] at hValue
    obtain ⟨want, hWant, hEqual⟩ := hValue
    exact ⟨got, want, hGot, hWant, hEqual⟩

/-- Whenever the loop of a listen task returns, the events that have satisfied its filters
agree on their keys, if keys of one name have one `from` expression. -/
theorem listenAll_grouped (hOne : listen.to_.one = none) (hAll : listen.to_.all = some filters)
    (hSources : SharedSources filters) {ctx : ExecContext} {fuel : Nat} {σ τ : EngineState}
    {choices : List engine.Choice} {consumed : List EventMessage}
    (hRun : engine.run (engine.advance ((compiled env vars listen).gather ctx fuel
      (compiled env vars listen).start).run σ) choices = some (.done (.ok consumed), τ))
    (json : ∀ event ∈ received (deliveries (engine.advance ((compiled env vars listen).gather ctx fuel
      (compiled env vars listen).start).run σ) choices), (compiled env vars listen).Json event) :
    (compiled env vars listen).Grouped filters
      (received (deliveries (engine.advance ((compiled env vars listen).gather ctx fuel
        (compiled env vars listen).start).run σ) choices)) := by
  have stands := gather_run hRun
  generalize deliveries (engine.advance ((compiled env vars listen).gather ctx fuel
    (compiled env vars listen).start).run σ) choices = replies at *
  cases stands with
  | @returns events s _ heard complete =>
      rw [received_map_some] at json ⊢
      exact heard.grouped hOne hAll hSources json
  | @closed events s _ heard listening =>
      have hReceived : received (events.map some ++ [none]) = events := by
        rw [received, List.filterMap_append, ← received, received_map_some]
        simp
      rw [hReceived] at json ⊢
      exact heard.grouped hOne hAll hSources json

end Correlation

section Examples

open Sample Listening

/-- A runtime whose expressions are the names of fields, after a dot. -/
def fieldRuntime : RuntimeInner :=
  { runtime with
    expression := { expression with
      evaluate := fun compiled input _ =>
        .ok ((input.get? (String.ofList (compiled.source.toList.drop 1))).getD .null) } }

/-- A filter with a key for the order of an event, at the given field. -/
def orderFilter (type from_ : String) : EventFilterDefinition :=
  { with_ := some [("type", .string type)]
    correlate := some [("orderId", { from_, expect := none })] }

/-- A task that listens for an order and for its payment. -/
def orderAndPayment (paymentKey : String) : ListenDefinition :=
  { to_ := { one := none, any := none
             all := some [orderFilter "order" ".orderId", orderFilter "payment" paymentKey] }
    until_ := none, read := none }

def orderEvent (type key : String) (id : Nat) : EventMessage :=
  { eventOf type with data := some (.object [(key, .ofNat id)]) }

theorem fieldRuntime_json {listen : ListenDefinition} {type key : String} {id : Nat} :
    (compiled fieldRuntime [] listen).Json (orderEvent type key id) := by
  intro source value hValue
  have hField : ((Value.object [(key, .ofNat id)]).get? (String.ofList (source.toList.drop 1))).getD
      .null = value := Option.some.inj hValue
  subst hField
  rw [Value.get?]
  cases hLookup : [(key, Value.ofNat id)].lookup (String.ofList (source.toList.drop 1)) with
  | none => trivial
  | some found =>
      have hMem := Map.mem_of_lookup hLookup
      rw [List.mem_singleton] at hMem
      cases hMem
      trivial

/-- With one `from` in both filters, an order and its payment complete the task together. -/
theorem listenAll_grouped_order : ∃ τ,
    engine.run (listening (compiled fieldRuntime [] (orderAndPayment ".orderId")))
        (replying [some (orderEvent "order" "orderId" 1), some (orderEvent "payment" "orderId" 1)]) =
      some (.done (.ok [orderEvent "order" "orderId" 1, orderEvent "payment" "orderId" 1]), τ) ∧
    (compiled fieldRuntime [] (orderAndPayment ".orderId")).Grouped
      [orderFilter "order" ".orderId", orderFilter "payment" ".orderId"]
      [orderEvent "order" "orderId" 1, orderEvent "payment" "orderId" 1] := by
  obtain ⟨τ, hRun⟩ : ∃ τ, engine.run
      (listening (compiled fieldRuntime [] (orderAndPayment ".orderId")))
        (replying [some (orderEvent "order" "orderId" 1), some (orderEvent "payment" "orderId" 1)]) =
      some (.done (.ok [orderEvent "order" "orderId" 1, orderEvent "payment" "orderId" 1]), τ) :=
    ⟨_, rfl⟩
  refine ⟨τ, hRun, listenAll_grouped rfl rfl ?_ hRun ?_⟩
  · intro f hf g hg name key other hKey hOther _ _
    have hSource : ∀ h ∈ [orderFilter "order" ".orderId", orderFilter "payment" ".orderId"],
        ∀ entry ∈ h.keys, entry.2.from_ = ".orderId" := by decide
    rw [hSource f hf (name, key) hKey, hSource g hg (name, other) hOther]
  · intro event hMem
    have hMem : event ∈ [orderEvent "order" "orderId" 1, orderEvent "payment" "orderId" 1] := hMem
    rcases List.mem_pair.mp hMem with rfl | rfl
    · exact fieldRuntime_json
    · exact fieldRuntime_json

/-- Two fields of one name are two groups: the events that complete the task belong to
different orders. -/
theorem orderAndPayment_ungrouped : ∃ τ,
    engine.run (listening (compiled fieldRuntime [] (orderAndPayment ".id")))
        (replying [some (orderEvent "order" "orderId" 1), some (orderEvent "payment" "id" 2)]) =
      some (.done (.ok [orderEvent "order" "orderId" 1, orderEvent "payment" "id" 2]), τ) ∧
    ¬ (compiled fieldRuntime [] (orderAndPayment ".id")).Grouped
      [orderFilter "order" ".orderId", orderFilter "payment" ".id"]
      (received (deliveries (listening (compiled fieldRuntime [] (orderAndPayment ".id")))
        (replying [some (orderEvent "order" "orderId" 1), some (orderEvent "payment" "id" 2)]))) := by
  refine ⟨_, rfl, fun grouped => ?_⟩
  have hFirst : (compiled fieldRuntime [] (orderAndPayment ".id")).SatisfiedBy
      [orderEvent "order" "orderId" 1, orderEvent "payment" "id" 2] 0
      (orderEvent "order" "orderId" 1) := ⟨[], [_], _, rfl, .start, _, rfl, rfl⟩
  have hSecond : (compiled fieldRuntime [] (orderAndPayment ".id")).SatisfiedBy
      [orderEvent "order" "orderId" 1, orderEvent "payment" "id" 2] 1
      (orderEvent "payment" "id" 2) := ⟨[_], [], _, rfl, .more .start rfl rfl, _, rfl, rfl⟩
  obtain ⟨got, got', hGot, hGot', hEqual⟩ := grouped.shared 0 1 _ _ "orderId" _ _ _ _ rfl rfl
    List.mem_cons_self List.mem_cons_self rfl rfl hFirst hSecond
  cases hGot
  cases hGot'
  cases hEqual

end Examples

end OwsRuntime
