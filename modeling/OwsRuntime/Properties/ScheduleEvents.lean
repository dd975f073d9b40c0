import OwsRuntime.Async.Triples
import OwsRuntime.Engine.Sources
import OwsRuntime.Schedule.Loops

/-! Which events let an `on` schedule fire, compared with what a `listen` task makes of the
same filters. A schedule keeps the type and the source of a filter only, and nothing of `all`. -/
namespace OwsRuntime

open Async Handler Schedule

/-- A `listen` task takes the event for the filter. -/
def EventFilterDef.Takes (f : EventFilterDef) (event : EventMessage) : Prop :=
  (buildMatcher f).matches_ (CloudEvent.fromMessage event) = true

/-- A schedule may fire on the last of these events, as a `listen` task judges them. -/
def ListenTo.Judges (to_ : ListenTo) (heard : List EventMessage) : Prop :=
  (∃ event f, heard.getLast? = some event ∧ f ∈ to_.filters ∧ f.Takes event) ∧
    match to_ with
    | .all filters => ∀ f ∈ filters, ∃ event ∈ heard, f.Takes event
    | _ => True

/-- The `with` maps which a schedule looks at. -/
def EventConsumption.kept (on : EventConsumption) : List Map :=
  (on.one.bind (·.with_)).toList ++ (on.any.getD []).filterMap (·.with_)

/-- A filter that asks for nothing but a type and a source, and takes every event that has
this type and this source, where they are given. -/
structure EventFilterDef.Covers (f : EventFilterDef) (type source : Option String) : Prop where
  subject : (buildMatcher f).subject = none
  attributes : (buildMatcher f).attributes = []
  type : ∀ t, (buildMatcher f).type = some t → type = some t ∧ t ≠ "*"
  source : ∀ s, (buildMatcher f).source = some s → source = some s

/-- The filter covers what a schedule makes of a `with` map. -/
def EventFilterDef.CoversKept (f : EventFilterDef) (with_ : Map) : Prop :=
  f.Covers ((with_.lookup "type").bind Value.asStr) ((with_.lookup "source").bind Value.asStr)

/-- The filters which have to cover the events of a schedule: one of them, and for `all`
every one. -/
def ListenTo.Suffice (to_ : ListenTo) (P : EventFilterDef → Prop) : Prop :=
  match to_ with
  | .all filters => filters ≠ [] ∧ ∀ f ∈ filters, P f
  | _ => ∃ f ∈ to_.filters, P f

/-- What the schedule drops of the strategy does not matter. -/
structure EventConsumption.Faithful (on : EventConsumption) : Prop where
  kept : ∀ with_ ∈ on.kept, (compileListenTo on).Suffice (·.CoversKept with_)
  none : on.kept = [] → (compileListenTo on).Suffice (·.Covers none none)

section Matching

theorem scheduleFilters_eq (on : EventConsumption) :
    scheduleFilters on = on.kept.map eventMessageLike := by
  have hAny : ∀ filters : List EventFilterDefinition,
      (filters.filterMap fun f => f.with_.map eventMessageLike) =
        (filters.filterMap (·.with_)).map eventMessageLike := by
    intro filters
    induction filters with
    | nil => rfl
    | cons f rest ih => cases hWith : f.with_ <;> simp [hWith, ih]
  rw [scheduleFilters, EventConsumption.kept, List.map_append, hAny]
  cases on.one.bind (·.with_) <;> rfl

/-- The test of an event by one filter of a schedule. -/
def EventMessageLike.takes (like : EventMessageLike) (event : EventMessage) : Bool :=
  (like.type == "*" || like.type == event.type) && like.source.all fun s => s == event.source

theorem EventFilterDef.Covers.takes {f : EventFilterDef} {type source : Option String}
    (covers : f.Covers type source) {event : EventMessage}
    (hTakes : EventMessageLike.takes { type := type.getD "*", source } event = true) :
    f.Takes event := by
  obtain ⟨hType, hSource⟩ := Bool.and_eq_true_iff.mp hTakes
  have hTypes : ((buildMatcher f).type.all fun t => t == event.type) = true := by
    rw [Option.all_eq_true]
    intro t hSome
    obtain ⟨rfl, hNotAny⟩ := covers.type t hSome
    simpa [hNotAny] using hType
  have hSources : ((buildMatcher f).source.all fun s => s == event.source) = true := by
    rw [Option.all_eq_true]
    intro s hSome
    obtain rfl := covers.source s hSome
    simpa using hSource
  rw [Takes, EventMatcher.matches_, covers.subject, covers.attributes]
  simp [CloudEvent.fromMessage, hTypes, hSources]

theorem exists_length_le (texts : List String) : ∃ n, ∀ text ∈ texts, text.length ≤ n := by
  induction texts with
  | nil => exact ⟨0, fun text hMem => nomatch hMem⟩
  | cons first rest ih =>
      obtain ⟨n, hRest⟩ := ih
      refine ⟨n + first.length, fun text hMem => ?_⟩
      rcases List.mem_cons.mp hMem with rfl | hMem
      · omega
      · have hLength := hRest text hMem
        omega

/-- A text that is longer than all of these is none of them. -/
theorem exists_text_notMem (texts : List String) : ∃ text, text ∉ texts := by
  obtain ⟨n, hLength⟩ := exists_length_le texts
  refine ⟨String.ofList (List.replicate (n + 1) 'x'), fun hMem => ?_⟩
  have hLong := hLength _ hMem
  simp only [String.length_ofList, List.length_replicate] at hLong
  omega

/-- The texts which the constraints of a matcher name. -/
def EventMatcher.texts (m : EventMatcher) : List String :=
  m.type.toList ++ m.source.toList ++ m.subject.toList ++ m.attributes.filterMap (·.2.asStr)

/-- An event of this type and source, where they are given, whose attributes are otherwise
all one text. -/
def strangeEvent (text : String) (keys : List String) (type source : Option String) : EventMessage :=
  { id := text, source := source.getD text
    type := if type.getD "*" = "*" then text else type.getD "*"
    time := none, subject := some text, dataContentType := none, dataSchema := none
    data := some (.string text), extensions := keys.map fun key => (key, .string text) }

theorem strangeEvent_takes (text : String) (keys : List String) (type source : Option String) :
    EventMessageLike.takes { type := type.getD "*", source } (strangeEvent text keys type source) =
      true := by
  have hSource : (source.all fun s => s == source.getD text) = true := by cases source <;> simp
  rw [EventMessageLike.takes]
  by_cases hAny : type.getD "*" = "*" <;> simp [strangeEvent, hAny, hSource]

theorem lookup_extend_const {text : String} {key : String} (keys : List String) :
    ∀ map : Map, (key ∈ keys ∨ map.lookup key = some (.string text)) →
      (Map.extend map (keys.map fun k => (k, Value.string text))).lookup key = some (.string text) := by
  induction keys with
  | nil => exact fun map hKey => hKey.resolve_left (List.not_mem_nil)
  | cons k rest ih =>
      intro map hKey
      apply ih (Map.insert k (.string text) map)
      by_cases hSame : key = k
      · subst hSame
        exact Or.inr (Map.lookup_insert_self key _ map)
      · rw [Map.lookup_insert_of_ne _ map hSame]
        exact hKey.imp_left fun hMem => (List.mem_cons.mp hMem).resolve_left hSame

/-- Every attribute of that event which a constraint may name is the text. -/
theorem strangeEvent_attribute {text : String} {keys : List String} {type source : Option String}
    {key : String} (hKey : key ∈ keys)
    (hOther : key ≠ "type" ∧ key ≠ "source" ∧ key ≠ "subject") :
    EventMatcher.attributeOf (CloudEvent.fromMessage (strangeEvent text keys type source)) key =
      .string text := by
  have hExtension : (Map.extend [] (keys.map fun k => (k, Value.string text))).lookup key =
      some (.string text) := lookup_extend_const keys [] (Or.inl hKey)
  rw [EventMatcher.attributeOf]
  simp only [hOther.1, hOther.2.1, hOther.2.2, if_false]
  split
  · rfl
  · split
    · rfl
    · show (Option.orElse (List.lookup key (Map.extend [] (keys.map fun k => (k, Value.string text)))) _).getD
        Value.null = _
      rw [hExtension]
      rfl

theorem eq_of_valuesEqual_string {text : String} {value : Value}
    (hEqual : valuesEqual (.string text) value = true) : value.asStr = some text := by
  cases value <;> simp_all [valuesEqual, Value.asStr]

/-- A filter that takes an event with a text of which it says nothing covers its type and
source. -/
theorem covers_of_takes {f : EventFilterDef} {text : String} {keys : List String}
    {type source : Option String} (hText : text ∉ (buildMatcher f).texts)
    (hKeys : ∀ entry ∈ f.with_, entry.1 ∈ keys)
    (hTakes : f.Takes (strangeEvent text keys type source)) : f.Covers type source := by
  simp only [EventMatcher.texts, List.mem_append, not_or] at hText
  obtain ⟨⟨⟨hType, hSource⟩, hSubject⟩, hValues⟩ := hText
  simp only [EventFilterDef.Takes, EventMatcher.matches_, Bool.and_eq_true, Option.all_eq_true,
    List.all_eq_true, beq_iff_eq] at hTakes
  obtain ⟨⟨⟨hTypes, hSources⟩, hSubjects⟩, hAttributes⟩ := hTakes
  constructor
  · cases hSome : (buildMatcher f).subject with
    | none => rfl
    | some s =>
        have hSame : s = text := hSubjects s hSome
        exact absurd (by simp [hSome, hSame]) hSubject
  · apply List.eq_nil_iff_forall_not_mem.mpr
    intro entry hEntry
    have hEqual := hAttributes entry hEntry
    obtain ⟨hMem, hOther⟩ := List.mem_filter.mp hEntry
    rw [strangeEvent_attribute (hKeys entry hMem) (by simpa using hOther)] at hEqual
    exact hValues (List.mem_filterMap.mpr ⟨entry, hEntry, eq_of_valuesEqual_string hEqual⟩)
  · intro t hSome
    have hSame : t = if type.getD "*" = "*" then text else type.getD "*" := hTypes t hSome
    by_cases hAny : type.getD "*" = "*"
    · rw [if_pos hAny] at hSame
      exact absurd (by simp [hSome, hSame]) hType
    · rw [if_neg hAny] at hSame
      cases type with
      | none => exact absurd rfl hAny
      | some t' => exact ⟨congrArg some hSame.symm, fun hStar => hAny (hSame.symm.trans hStar)⟩
  · intro s hSome
    have hSame : s = source.getD text := hSources s hSome
    cases source with
    | none => exact absurd (by simp [hSome, hSame]) hSource
    | some s' => exact congrArg some hSame.symm

/-- For every type and source, some event with these is taken only by the filters that cover
them. -/
theorem exists_strange (filters : List EventFilterDef) (type source : Option String) :
    ∃ event, EventMessageLike.takes { type := type.getD "*", source } event = true ∧
      ∀ f ∈ filters, f.Takes event → f.Covers type source := by
  obtain ⟨text, hText⟩ := exists_text_notMem (filters.flatMap fun f => (buildMatcher f).texts)
  refine ⟨strangeEvent text (filters.flatMap fun f => f.with_.map Prod.fst) type source,
    strangeEvent_takes text _ type source, fun f hMem => covers_of_takes ?_ ?_⟩
  · exact fun hIn => hText (List.mem_flatMap.mpr ⟨f, hMem, hIn⟩)
  · exact fun entry hEntry =>
      List.mem_flatMap.mpr ⟨f, hMem, List.mem_map.mpr ⟨entry, hEntry, rfl⟩⟩

end Matching

section Runs

variable {filters : List EventMessageLike} {cron : CronEngine}

/-- Every firing of the loop is on an event which its filters match. -/
def FiresOn (filters : List EventMessageLike) (l : ScheduleLoop) : Prop :=
  ∀ heard ∈ l.firings, ∃ event, heard.getLast? = some event ∧ eventMatches event filters = true

/-- A firing on an event that matches keeps this so. Nothing else that happens meanwhile adds a
firing. -/
theorem fire_ensures (input : Value) {σ : State scheduleSig} {event : EventMessage}
    (hFires : FiresOn filters σ.loc) (hLast : σ.loc.heard.getLast? = some event)
    (hMatches : eventMatches event filters = true) :
    Ensures (fun _ : scheduler.Choice => True) (fun τ => FiresOn filters τ.loc)
      (fun _ τ => FiresOn filters τ.loc) (fire input) σ := by
  have hFired : FiresOn filters { σ.loc with firings := σ.loc.firings ++ [σ.loc.heard] } := by
    intro heard hHeard
    rcases List.mem_append.mp hHeard with hEarlier | hNow
    · exact hFires heard hEarlier
    · cases List.mem_singleton.mp hNow
      exact ⟨event, hLast, hMatches⟩
  apply Ensures.sync rfl rfl
  apply Ensures.act
  intro w _
  refine ⟨hFired, fun reply τ hPerform => ?_⟩
  obtain ⟨result, _, hEq⟩ := Option.map_eq_some_iff.mp hPerform
  cases hEq
  exact Ensures.done fun _ _ => ⟨hFired, hFired⟩

/-- The loop over events fires only on those that match, and with the event as the input. The
induction is on its rounds. -/
theorem eventLoop_ensures (fuel : Nat) {σ : State scheduleSig} (hFires : FiresOn filters σ.loc) :
    Ensures (fun _ : scheduler.Choice => True) (fun τ => FiresOn filters τ.loc)
      (fun _ τ => FiresOn filters τ.loc) (eventLoop filters fuel) σ := by
  induction fuel generalizing σ with
  | zero => exact Ensures.act fun w _ => ⟨hFires, fun reply => nomatch reply⟩
  | succ fuel ih =>
      apply Ensures.sync rfl rfl
      apply Ensures.act
      intro w _
      refine ⟨hFires, fun reply τ hPerform => ?_⟩
      obtain ⟨heard, _, hEq⟩ := Option.map_eq_some_iff.mp hPerform
      match heard, hEq with
      | none, hEq =>
          cases hEq
          exact Ensures.done fun _ _ => ⟨hFires, hFires⟩
      | some none, hEq =>
          cases hEq
          exact Ensures.done fun _ _ => ⟨hFires, hFires⟩
      | some (some event), hEq =>
          cases hEq
          show Ensures _ _ _ (if eventMatches event filters then
            fire (.array [eventEnvelope event]) >>= fun _ => eventLoop filters fuel
            else eventLoop filters fuel) _
          split
          · rename_i hMatches
            apply Ensures.bind
            apply (fire_ensures _ _ _ hMatches).mono fun _ => id
            · exact fun _ τ _ hFired => ih hFired
            · exact hFires
            · exact List.getLast?_concat
          · exact ih hFires

/-- The states in which the loop of an `on` schedule may begin. -/
def beginEvents (cron : CronEngine) (on : EventConsumption) (fuel : Nat) (w : ScheduleWorld) :
    Config scheduleSig Unit :=
  scheduler.advance
    (runSchedule cron
      (buildScheduleTrigger { every := none, after := none, cron := none, on := some on }) fuel)
    ⟨.initial, (), w⟩

/-- In every run, the loop of an `on` schedule fires on events that match its filters, and on no
others. -/
theorem beginEvents_fires {on : EventConsumption} {fuel : Nat} {w : ScheduleWorld}
    {d : Config scheduleSig Unit} (reached : scheduler.Reaches (beginEvents cron on fuel w) d) :
    FiresOn (scheduleFilters on) d.2.loc := by
  have hNone : FiresOn (scheduleFilters on) ScheduleLoop.initial := fun heard hMem => nomatch hMem
  have ensures : Ensures (fun _ : scheduler.Choice => True)
      (fun τ => FiresOn (scheduleFilters on) τ.loc) (fun _ τ => FiresOn (scheduleFilters on) τ.loc)
      (runSchedule cron (.onEvents (scheduleFilters on)) fuel) ⟨.initial, (), w⟩ := by
    apply Ensures.act
    intro v _
    refine ⟨hNone, fun reply τ hPerform => ?_⟩
    cases hPerform
    apply Ensures.act
    intro v _
    refine ⟨hNone, fun reply τ hPerform => ?_⟩
    obtain ⟨_, hState⟩ := Prod.mk.inj (Option.some.inj hPerform)
    rw [← hState]
    cases reply with
    | error e => exact Ensures.done fun _ _ => ⟨hNone, hNone⟩
    | ok _ => exact eventLoop_ensures fuel hNone
  exact (ensures d reached.follows).1

/-- A world in which one event arrives. -/
def ScheduleWorld.hearing (event : EventMessage) : ScheduleWorld :=
  { cancelled := false, notifications := 0, triggered := 0, clock := 0
    oracle := { timerReady := false, subscribe := .ok (), event := some (some event)
                notifiedFirst := false, execution := none } }

/-- The loop fires on the first event that its filters match. -/
theorem beginEvents_first {on : EventConsumption} {event : EventMessage}
    (hMatches : eventMatches event (scheduleFilters on) = true) :
    ∃ d, scheduler.Reaches (beginEvents cron on 1 (.hearing event)) d ∧
      d.2.loc.firings = [[event]] := by
  have hTurn : scheduler.advance (if eventMatches event (scheduleFilters on) then
      fire (.array [eventEnvelope event]) >>= fun _ => eventLoop (scheduleFilters on) 0
      else eventLoop (scheduleFilters on) 0) ⟨⟨[event], []⟩, (), .hearing event⟩ =
      scheduler.advance (fire (.array [eventEnvelope event]) >>= fun _ =>
        eventLoop (scheduleFilters on) 0) ⟨⟨[event], []⟩, (), .hearing event⟩ := by
    rw [if_pos hMatches]
  exact ⟨_, ⟨[.turn .here, .turn .here, .turn .here], congrArg some hTurn⟩, rfl⟩

end Runs

section Judging

variable {to_ : ListenTo} {P : EventFilterDef → Prop} {event : EventMessage}

theorem suffice_of_judges (hJudges : to_.Judges [event])
    (hP : ∀ f ∈ to_.filters, f.Takes event → P f) : to_.Suffice P := by
  obtain ⟨⟨_, f, hLast, hMem, hTakes⟩, hAll⟩ := hJudges
  cases hLast
  cases to_ with
  | one filter => exact ⟨f, hMem, hP f hMem hTakes⟩
  | any filters => exact ⟨f, hMem, hP f hMem hTakes⟩
  | all filters =>
      refine ⟨List.ne_nil_of_mem hMem, fun g hOther => hP g hOther ?_⟩
      obtain ⟨other, hHeard, hOtherTakes⟩ := hAll g hOther
      cases List.mem_singleton.mp hHeard
      exact hOtherTakes

theorem judges_of_suffice {heard : List EventMessage} (hLast : heard.getLast? = some event)
    (hTakes : ∀ f, P f → f.Takes event) (hSuffice : to_.Suffice P) : to_.Judges heard := by
  have hHeard : event ∈ heard := List.mem_of_getLast? hLast
  cases to_ with
  | one filter =>
      obtain ⟨f, hMem, hP⟩ := hSuffice
      exact ⟨⟨event, f, hLast, hMem, hTakes f hP⟩, trivial⟩
  | any filters =>
      obtain ⟨f, hMem, hP⟩ := hSuffice
      exact ⟨⟨event, f, hLast, hMem, hTakes f hP⟩, trivial⟩
  | all filters =>
      obtain ⟨hSome, hAll⟩ := hSuffice
      obtain ⟨f, hMem⟩ := List.exists_mem_of_ne_nil filters hSome
      refine ⟨⟨event, f, hLast, hMem, hTakes f (hAll f hMem)⟩, fun g hOther => ?_⟩
      exact ⟨event, hHeard, hTakes g (hAll g hOther)⟩

theorem eventMatches_of_kept {on : EventConsumption} {with_ : Map} (hKept : with_ ∈ on.kept)
    (hTakes : (eventMessageLike with_).takes event = true) :
    eventMatches event (scheduleFilters on) = true := by
  rw [eventMatches, scheduleFilters_eq, Bool.or_eq_true, List.any_eq_true]
  exact Or.inr ⟨eventMessageLike with_, List.mem_map_of_mem hKept, hTakes⟩

theorem kept_of_eventMatches {on : EventConsumption}
    (hMatches : eventMatches event (scheduleFilters on) = true) :
    on.kept = [] ∨ ∃ with_ ∈ on.kept, (eventMessageLike with_).takes event = true := by
  rw [eventMatches, scheduleFilters_eq, Bool.or_eq_true, List.any_eq_true] at hMatches
  rcases hMatches with hEmpty | ⟨like, hLike, hTakes⟩
  · exact Or.inl (List.map_eq_nil_iff.mp (List.isEmpty_iff.mp hEmpty))
  · obtain ⟨with_, hKept, rfl⟩ := List.mem_map.mp hLike
    exact Or.inr ⟨with_, hKept, hTakes⟩

end Judging

/-- In every run an `on` schedule fires only as a `listen` task would judge its events, exactly
if what the schedule drops of its strategy does not matter. -/
theorem scheduleEvents_iff (on : EventConsumption) :
    (∀ cron fuel w d, scheduler.Reaches (beginEvents cron on fuel w) d →
      ∀ heard ∈ d.2.loc.firings, (compileListenTo on).Judges heard) ↔ on.Faithful := by
  have hFirst : (∀ cron fuel w d, scheduler.Reaches (beginEvents cron on fuel w) d →
      ∀ heard ∈ d.2.loc.firings, (compileListenTo on).Judges heard) →
      ∀ event, eventMatches event (scheduleFilters on) = true →
        (compileListenTo on).Judges [event] := by
    intro hRuns event hMatches
    obtain ⟨d, reached, hFirings⟩ := @beginEvents_first ⟨fun _ => .error (runtimeError "")⟩ _ _ hMatches
    exact hRuns _ _ _ d reached [event] (by simp [hFirings])
  constructor
  · intro hRuns
    constructor
    · intro with_ hKept
      obtain ⟨event, hTakes, hCovers⟩ := exists_strange (compileListenTo on).filters
        ((with_.lookup "type").bind Value.asStr) ((with_.lookup "source").bind Value.asStr)
      exact suffice_of_judges (hFirst hRuns event (eventMatches_of_kept hKept hTakes)) hCovers
    · intro hNone
      obtain ⟨event, _, hCovers⟩ := exists_strange (compileListenTo on).filters none none
      apply suffice_of_judges (hFirst hRuns event _) hCovers
      rw [eventMatches, scheduleFilters_eq, hNone]
      rfl
  · intro faithful cron fuel w d reached heard hFiring
    obtain ⟨event, hLast, hMatches⟩ := beginEvents_fires reached heard hFiring
    rcases kept_of_eventMatches hMatches with hNone | ⟨with_, hKept, hTakes⟩
    · exact judges_of_suffice hLast (fun f covers => covers.takes rfl) (faithful.none hNone)
    · exact judges_of_suffice hLast (fun f covers => covers.takes hTakes) (faithful.kept with_ hKept)

/-- A schedule that waits for two types of events. -/
def bothOrders : EventConsumption :=
  { one := none, any := none
    all := some [{ with_ := some [("type", .string "placed")], correlate := none },
      { with_ := some [("type", .string "paid")], correlate := none }] }

/-- It fires on the first event, which is of neither type. -/
theorem bothOrders_fires_early :
    ∃ d, scheduler.Reaches (beginEvents ⟨fun _ => .error (runtimeError "")⟩ bothOrders 1
        (.hearing (CloudEvent.new "1" "shop" "cancelled").toMessage)) d ∧
      ∃ heard ∈ d.2.loc.firings, ¬ (compileListenTo bothOrders).Judges heard := by
  obtain ⟨d, reached, hFirings⟩ := @beginEvents_first ⟨fun _ => .error (runtimeError "")⟩ bothOrders
    (CloudEvent.new "1" "shop" "cancelled").toMessage rfl
  refine ⟨d, reached, _, by rw [hFirings]; exact List.mem_singleton_self _, ?_⟩
  rintro ⟨⟨event, f, hLast, hMem, hTakes⟩, _⟩
  cases hLast
  have hNone : ∀ f ∈ (compileListenTo bothOrders).filters, (buildMatcher f).matches_
      (CloudEvent.fromMessage (CloudEvent.new "1" "shop" "cancelled").toMessage) = false := by
    decide
  exact Bool.false_ne_true ((hNone f hMem).symm.trans hTakes)

end OwsRuntime
