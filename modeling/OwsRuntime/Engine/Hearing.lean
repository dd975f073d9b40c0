import OwsRuntime.Engine.Listening

/-! What the state of a listen task tells of the events that it has received: which of its
filters have taken one of them, and which of the events have been consumed. -/
namespace OwsRuntime

namespace Listening

variable (l : Listening)

/-- The filter at an index has taken nothing yet, and takes the event when its turn comes. -/
def TakesAt (event : EventMessage) (filters : List (CompiledListenFilter × Bool)) (group : Map)
    (i : Nat) : Prop :=
  ∃ f, filters[i]? = some (f, false) ∧
    (l.takes f event (l.mark event (filters.take i) group).2).isSome = true

/-- Among the events received was this one, and it met a state of this kind. -/
def Met (received : List EventMessage) (event : EventMessage) (P : GatherState → Prop) : Prop :=
  ∃ before after s, received = before ++ event :: after ∧ l.Heard before s ∧ P s

/-- The event for which a filter of the strategy was marked as satisfied. -/
def SatisfiedBy (received : List EventMessage) (i : Nat) (event : EventMessage) : Prop :=
  l.Met received event fun s => l.TakesAt event s.filters s.group i

/-- The event for which a filter of the `until` strategy was marked as satisfied. -/
def UntilBy (received : List EventMessage) (i : Nat) (event : EventMessage) : Prop :=
  l.Met received event fun s =>
    l.TakesAt event s.untilFilters (l.accept s event).1.group i

/-- An event that counts for a strategy that needs one event. -/
def MatchedBy (received : List EventMessage) (event : EventMessage) : Prop :=
  l.Met received event fun s => l.matchesOne s event = true

variable {l} {events : List EventMessage} {event : EventMessage} {P : GatherState → Prop}

/-- What has been met stays met as more events come. -/
theorem Met.append (met : l.Met events event P) (more : List EventMessage) :
    l.Met (events ++ more) event P := by
  obtain ⟨before, after, s, rfl, heard, hP⟩ := met
  exact ⟨before, after ++ more, s, by simp, heard, hP⟩

/-- The last event is met in the state before it. -/
theorem Met.last {s : GatherState} (heard : l.Heard events s) (hP : P s) :
    l.Met (events ++ [event]) event P := ⟨events, [], s, rfl, heard, hP⟩

/-- What is met among events is met before the last one, or is the last one. -/
theorem Met.last_cases {latest : EventMessage} (met : l.Met (events ++ [latest]) event P) :
    l.Met events event P ∨ event = latest ∧ ∃ s, l.Heard events s ∧ P s := by
  obtain ⟨before, after, s, hSplit, heard, hP⟩ := met
  rcases List.eq_nil_or_concat after with rfl | ⟨after, last, rfl⟩
  · obtain ⟨rfl, hEq⟩ := List.append_inj' hSplit rfl
    cases hEq
    exact Or.inr ⟨rfl, s, heard, hP⟩
  · rw [List.concat_eq_append, ← List.cons_append, ← List.append_assoc] at hSplit
    obtain ⟨rfl, hEq⟩ := List.append_inj' hSplit rfl
    exact Or.inl ⟨before, after, s, rfl, heard, hP⟩

/-- Without events, nothing is met. -/
theorem not_met_nil : ¬ l.Met [] event P := by
  rintro ⟨before, after, s, hSplit, _⟩
  cases before <;> cases hSplit

/-- The events received determine the state of the loop, as each event has one effect on it. The
induction is on the events. -/
theorem Heard.unique {s t : GatherState} (first : l.Heard events s) (second : l.Heard events t) :
    s = t := by
  induction first generalizing t with
  | start =>
      generalize hEvents : ([] : List EventMessage) = events at second
      cases second with
      | start => rfl
      | more => simp at hEvents
  | @more earlier s u event heard listening step ih =>
      generalize hEvents : earlier ++ [event] = events at second
      cases second with
      | start => simp at hEvents
      | @more before v _ latest heard' listening' step' =>
          obtain ⟨rfl, hLast⟩ := List.append_inj' hEvents rfl
          cases hLast
          cases ih heard'
          rw [step] at step'
          cases step'
          rfl

section Marks

variable (l) (event : EventMessage) (filters : List (CompiledListenFilter × Bool)) (group : Map)

/-- A filter is marked when it was marked before, or takes the event in the group that the filters
before it have left. -/
theorem mark_getElem? (i : Nat) : (l.mark event filters group).1[i]? =
    filters[i]?.map fun p =>
      (p.1, p.2 || (l.takes p.1 event (l.mark event (filters.take i) group).2).isSome) := by
  induction filters generalizing group i with
  | nil => simp [mark]
  | cons entry rest ih =>
      obtain ⟨f, taken⟩ := entry
      cases taken with
      | true =>
          cases i with
          | zero => simp [mark]
          | succ i => simp [mark, ih]
      | false =>
          cases i with
          | zero => simp [mark]
          | succ i => simp [mark, ih]

/-- The filters themselves stay as they are. -/
theorem mark_map_fst : (l.mark event filters group).1.map Prod.fst = filters.map Prod.fst := by
  induction filters generalizing group with
  | nil => rfl
  | cons entry rest ih =>
      obtain ⟨f, taken⟩ := entry
      cases taken with
      | true => simp [mark, ih]
      | false => simp [mark, ih]

variable {l event filters group} {i : Nat} {f : CompiledListenFilter}

/-- A filter is marked when it was so before, or takes the event. -/
theorem mark_satisfied_iff : (l.mark event filters group).1[i]? = some (f, true) ↔
    filters[i]? = some (f, true) ∨
      filters[i]? = some (f, false) ∧ l.TakesAt event filters group i := by
  rw [mark_getElem?]
  cases hEntry : filters[i]? with
  | none => simp
  | some entry =>
      obtain ⟨g, taken⟩ := entry
      cases taken with
      | true => simp
      | false =>
          simp only [Option.map_some, Bool.false_or, Option.some.injEq, Prod.mk.injEq,
            Bool.false_eq_true, and_false, and_true, false_or]
          constructor
          · rintro ⟨rfl, hTakes⟩
            exact ⟨rfl, g, hEntry, hTakes⟩
          · rintro ⟨rfl, f, hSame, hTakes⟩
            cases hEntry.symm.trans hSame
            exact ⟨rfl, hTakes⟩

/-- The marks change when some filter that had none takes the event, and this is how the loop
notices that the event counts. -/
theorem mark_advances_iff :
    ((l.mark event filters group).1.map Prod.snd != filters.map Prod.snd) = true ↔
      ∃ i, l.TakesAt event filters group i := by
  rw [bne_iff_ne]
  constructor
  · intro hChanged
    by_contra hNone
    apply hChanged
    apply List.ext_getElem?
    intro i
    rw [List.getElem?_map, List.getElem?_map, mark_getElem?]
    cases hEntry : filters[i]? with
    | none => rfl
    | some entry =>
        obtain ⟨f, taken⟩ := entry
        cases taken with
        | true => simp
        | false =>
            have hNot : ¬ (l.takes f event (l.mark event (filters.take i) group).2).isSome = true :=
              fun hTakes => hNone ⟨i, f, hEntry, hTakes⟩
            simpa using hNot
  · rintro ⟨i, f, hEntry, hTakes⟩ hSame
    have hAt := congrArg (·[i]?) hSame
    simp [mark_getElem?, hEntry, hTakes] at hAt

end Marks

section Steps

variable (l) (s : GatherState) (event : EventMessage)

/-- The strategy makes progress with the event. -/
def Chooses : Prop :=
  match l.need with
  | .one => l.matchesOne s event = true
  | .all _ => ∃ i, l.TakesAt event s.filters s.group i

/-- The `until` strategy makes progress with the event. -/
def UntilChooses : Prop := ∃ i, l.TakesAt event s.untilFilters (l.accept s event).1.group i

/-- The flag of an `until` strategy, which changes as it makes progress. -/
def untilFlag : Bool :=
  let marked := (l.mark event s.untilFilters (l.accept s event).1.group).1
  if marked.map Prod.snd != s.untilFilters.map Prod.snd then GatherState.satisfied marked
  else s.untilSatisfied

/-- An event is accepted exactly when the listening chooses it, -/
theorem accept_iff : (l.accept s event).2 = true ↔ l.Chooses s event := by
  rw [accept, Chooses]
  cases l.need with
  | one =>
      simp only
      split <;> simp_all
  | all count => exact mark_advances_iff

/-- and only then it is consumed. -/
theorem accept_consumed : (l.accept s event).1.consumed =
    if (l.accept s event).2 then s.consumed ++ [event] else s.consumed := by
  rw [accept]
  cases l.need with
  | one =>
      simp only
      split <;> simp
  | all count => rfl

/-- The filters that end the listening are not looked at, -/
@[simp] theorem accept_untilFilters : (l.accept s event).1.untilFilters = s.untilFilters := by
  rw [accept]
  cases l.need with
  | one =>
      simp only
      split <;> rfl
  | all count => rfl

/-- and neither is their flag. -/
@[simp] theorem accept_untilSatisfied :
    (l.accept s event).1.untilSatisfied = s.untilSatisfied := by
  rw [accept]
  cases l.need with
  | one =>
      simp only
      split <;> rfl
  | all count => rfl

/-- Where one event is enough, no filter is marked. -/
theorem accept_of_one (hNeed : l.need = .one) : (l.accept s event).1.filters = s.filters ∧
    (l.accept s event).1.group = s.group := by
  rw [accept, hNeed]
  simp only
  split <;> simp

/-- Where all filters need one, those that take the event are marked. -/
theorem accept_of_all {count : Nat} (hNeed : l.need = .all count) :
    (l.accept s event).1.filters = (l.mark event s.filters s.group).1 ∧
      (l.accept s event).1.group = (l.mark event s.filters s.group).2 := by
  rw [accept, hNeed]
  exact ⟨rfl, rfl⟩

/-- No event makes an empty `until` strategy advance, so that it is no special case. -/
theorem acceptUntil_eq (accepted : Bool) : l.acceptUntil s event accepted =
    let marked := l.mark event s.untilFilters s.group
    let advanced := marked.1.map Prod.snd != s.untilFilters.map Prod.snd
    { s with
      untilFilters := marked.1, group := marked.2
      consumed := if advanced && !accepted then s.consumed ++ [event] else s.consumed
      untilSatisfied := if advanced then GatherState.satisfied marked.1 else s.untilSatisfied } := by
  rw [acceptUntil]
  split
  · rename_i hEmpty
    obtain ⟨consumed, filters, untilFilters, untilSatisfied, group⟩ := s
    cases List.isEmpty_iff.mp hEmpty
    simp [mark]
  · cases hAdvanced : (l.mark event s.untilFilters s.group).1.map Prod.snd !=
      s.untilFilters.map Prod.snd with
    | true => cases accepted <;> simp [hAdvanced]
    | false => simp [hAdvanced]

/-- What an event does to the filters is what its acceptance does, -/
@[simp] theorem sort_filters : (l.sort s event).filters = (l.accept s event).1.filters := by
  rw [sort, acceptUntil_eq]

/-- and those that end the listening are marked after that, -/
@[simp] theorem sort_untilFilters : (l.sort s event).untilFilters =
    (l.mark event s.untilFilters (l.accept s event).1.group).1 := by
  rw [sort, acceptUntil_eq, accept_untilFilters]

/-- which settles the group, -/
@[simp] theorem sort_group : (l.sort s event).group =
    (l.mark event s.untilFilters (l.accept s event).1.group).2 := by
  rw [sort, acceptUntil_eq, accept_untilFilters]

/-- and the flag. -/
@[simp] theorem sort_untilSatisfied : (l.sort s event).untilSatisfied = l.untilFlag s event := by
  rw [sort, acceptUntil_eq, accept_untilFilters, accept_untilSatisfied, untilFlag]

variable {l s event}

/-- An event is consumed when it is chosen, by either of the two, -/
theorem sort_consumed_of_chooses (hChooses : l.Chooses s event ∨ l.UntilChooses s event) :
    (l.sort s event).consumed = s.consumed ++ [event] := by
  rw [sort, acceptUntil_eq, accept_untilFilters, accept_consumed]
  cases hAccepted : (l.accept s event).2 with
  | true => simp
  | false =>
      have hUntil : l.UntilChooses s event :=
        hChooses.resolve_left fun h => by simp [(l.accept_iff s event).mpr h] at hAccepted
      simp only [mark_advances_iff.mpr hUntil]
      simp

/-- and is not when neither chooses it. -/
theorem sort_consumed_of_not (hChooses : ¬ l.Chooses s event) (hUntil : ¬ l.UntilChooses s event) :
    (l.sort s event).consumed = s.consumed := by
  have hAccepted : (l.accept s event).2 = false :=
    Bool.eq_false_iff.mpr fun h => hChooses ((l.accept_iff s event).mp h)
  have hAdvanced := Bool.eq_false_iff.mpr fun h => hUntil (mark_advances_iff.mp h)
  rw [sort, acceptUntil_eq, accept_untilFilters, accept_consumed, hAccepted]
  simp only [hAdvanced]
  simp

/-- What an event does to the state. -/
theorem next_cases {t : GatherState} (hNext : l.next s event = .ok t) :
    ∃ stop, l.stops (l.sort s event).consumed = .ok stop ∧
      t = { l.sort s event with untilSatisfied := l.untilFlag s event || stop } := by
  rw [next] at hNext
  cases hStop : l.stops (l.sort s event).consumed with
  | error e =>
      rw [hStop] at hNext
      cases hNext
  | ok stop =>
      rw [hStop] at hNext
      cases hNext
      exact ⟨stop, rfl, by rw [sort_untilSatisfied]⟩

end Steps

section Invariant

variable {s t : GatherState}

/-- The filters stay the same, and those marked are those that have taken an event. -/
structure Marked (filters : List CompiledListenFilter) (marks : List (CompiledListenFilter × Bool))
    (By : Nat → EventMessage → Prop) : Prop where
  same : marks.map Prod.fst = filters
  by_iff : ∀ i f, marks[i]? = some (f, true) ↔ filters[i]? = some f ∧ ∃ event, By i event

/-- No filter is marked at the start. -/
theorem marked_start (filters : List CompiledListenFilter) {By : Nat → EventMessage → Prop}
    (hNone : ∀ i event, ¬ By i event) : Marked filters (filters.map (·, false)) By where
  same := by
    rw [List.map_map]
    exact List.map_id filters
  by_iff := by
    intro i f
    constructor
    · intro hMark
      simp [List.getElem?_map] at hMark
    · rintro ⟨_, event, hBy⟩
      exact absurd hBy (hNone i event)

/-- The marks stand beside the filters, place by place. -/
theorem Marked.getElem? {filters : List CompiledListenFilter}
    {marks : List (CompiledListenFilter × Bool)} {By : Nat → EventMessage → Prop}
    (marked : Marked filters marks By) (i : Nat) : filters[i]? = (marks[i]?).map Prod.fst := by
  rw [← marked.same, List.getElem?_map]

/-- An event marks the filters that take it: from then on they have been taken by that event, and
the others by what they had been before. -/
theorem Marked.step {filters : List CompiledListenFilter} {marks : List (CompiledListenFilter × Bool)}
    {Before By : Nat → EventMessage → Prop} (marked : Marked filters marks Before) {group : Map}
    (hBy : ∀ i e, By i e ↔ Before i e ∨ e = event ∧ l.TakesAt event marks group i) :
    Marked filters (l.mark event marks group).1 By where
  same := (l.mark_map_fst event marks group).trans marked.same
  by_iff := by
    intro i f
    rw [mark_satisfied_iff, marked.by_iff]
    constructor
    · rintro (⟨hFilter, e, hBefore⟩ | ⟨hEntry, hTakes⟩)
      · exact ⟨hFilter, e, (hBy i e).mpr (Or.inl hBefore)⟩
      · exact ⟨by rw [marked.getElem?, hEntry]; rfl, event, (hBy i event).mpr (Or.inr ⟨rfl, hTakes⟩)⟩
    · rintro ⟨hFilter, e, hEvent⟩
      rcases (hBy i e).mp hEvent with hBefore | ⟨_, hTakes⟩
      · exact Or.inl ⟨hFilter, e, hBefore⟩
      · obtain ⟨g, hEntry, hTaken⟩ := hTakes
        have hSame := marked.getElem? i
        rw [hFilter, hEntry] at hSame
        cases hSame
        exact Or.inr ⟨hEntry, g, hEntry, hTaken⟩

/-- The filters are all marked, which is what the loop waits for, when each of them has taken an
event. -/
theorem Marked.satisfied_iff {filters : List CompiledListenFilter}
    {marks : List (CompiledListenFilter × Bool)} {By : Nat → EventMessage → Prop}
    (marked : Marked filters marks By) :
    GatherState.satisfied marks = true ↔ ∀ i < filters.length, ∃ event, By i event := by
  have hLength : marks.length = filters.length := by
    rw [← marked.same, List.length_map]
  rw [GatherState.satisfied, List.all_eq_true]
  constructor
  · intro hAll i hi
    have hEntry : marks[i]? = some (marks[i].1, true) := by
      rw [List.getElem?_eq_getElem (hLength ▸ hi), ← hAll marks[i] (List.getElem_mem _)]
    exact ((marked.by_iff i _).mp hEntry).2
  · intro hEach entry hMem
    obtain ⟨i, hi, rfl⟩ := List.getElem_of_mem hMem
    have hFilter : filters[i]? = some marks[i].1 := by
      rw [marked.getElem?, List.getElem?_eq_getElem hi]
      rfl
    have hMark := (marked.by_iff i _).mpr ⟨hFilter, hEach i (hLength ▸ hi)⟩
    rw [List.getElem?_eq_getElem hi, Option.some.injEq] at hMark
    rw [hMark]

/-- An event that some strategy makes progress with is consumed. -/
def Wanted (received : List EventMessage) (event : EventMessage) : Prop :=
  l.Met received event fun s => l.Chooses s event ∨ l.UntilChooses s event

/-- What the state tells of the events received. -/
structure Kept (l : Listening) (received : List EventMessage) (s : GatherState) : Prop where
  base : ∀ count, l.need = .all count → Marked l.filters s.filters (l.SatisfiedBy received)
  single : l.need = .one → s.filters = l.filters.map (·, false)
  until_ : Marked l.untilFilters s.untilFilters (l.UntilBy received)
  ordered : s.consumed.Sublist received
  consumed_iff : ∀ event, event ∈ s.consumed ↔ l.Wanted received event

/-- What is kept holds at the start of the listening. -/
theorem kept_start : Kept l [] l.start where
  base _ _ := marked_start _ fun _ _ => not_met_nil
  single _ := rfl
  until_ := marked_start _ fun _ _ => not_met_nil
  ordered := List.Sublist.refl _
  consumed_iff event := by
    constructor
    · intro hMem
      cases hMem
    · intro hMet
      exact absurd hMet not_met_nil

/-- Among the events received and one more, an event met its state before or is the last one. -/
theorem met_append_iff {Q : EventMessage → GatherState → Prop} (heard : l.Heard events s)
    (e : EventMessage) : l.Met (events ++ [event]) e (Q e) ↔
      l.Met events e (Q e) ∨ e = event ∧ Q event s := by
  constructor
  · intro met
    rcases met.last_cases with hBefore | ⟨rfl, u, hHeard, hQ⟩
    · exact Or.inl hBefore
    · cases heard.unique hHeard
      exact Or.inr ⟨rfl, hQ⟩
  · rintro (met | ⟨rfl, hQ⟩)
    · exact met.append [event]
    · exact Met.last heard hQ

/-- One event keeps it: a mark is set by an event that was met, and an event is consumed when it was
chosen. -/
theorem Kept.step (kept : Kept l events s) (heard : l.Heard events s)
    (hNext : l.next s event = .ok t) : Kept l (events ++ [event]) t := by
  obtain ⟨stop, _, rfl⟩ := next_cases hNext
  constructor
  · intro count hNeed
    show Marked l.filters (l.sort s event).filters _
    rw [sort_filters, (l.accept_of_all s event hNeed).1]
    exact (kept.base count hNeed).step fun i e =>
      met_append_iff (Q := fun e s => l.TakesAt e s.filters s.group i) heard e
  · intro hNeed
    show (l.sort s event).filters = _
    rw [sort_filters, (l.accept_of_one s event hNeed).1]
    exact kept.single hNeed
  · show Marked l.untilFilters (l.sort s event).untilFilters _
    rw [sort_untilFilters]
    exact kept.until_.step fun i e =>
      met_append_iff (Q := fun e s => l.TakesAt e s.untilFilters (l.accept s e).1.group i) heard e
  · show (l.sort s event).consumed.Sublist _
    by_cases hChooses : l.Chooses s event ∨ l.UntilChooses s event
    · rw [sort_consumed_of_chooses hChooses]
      exact kept.ordered.append (.refl _)
    · rw [not_or] at hChooses
      rw [sort_consumed_of_not hChooses.1 hChooses.2]
      exact kept.ordered.trans (List.sublist_append_left _ _)
  · intro e
    show e ∈ (l.sort s event).consumed ↔ _
    rw [Wanted, met_append_iff heard (Q := fun e s => l.Chooses s e ∨ l.UntilChooses s e), ← Wanted,
      ← kept.consumed_iff]
    by_cases hChooses : l.Chooses s event ∨ l.UntilChooses s event
    · rw [sort_consumed_of_chooses hChooses, List.mem_append, List.mem_singleton]
      simp [hChooses]
    · rw [sort_consumed_of_not (fun h => hChooses (Or.inl h)) fun h => hChooses (Or.inr h)]
      simp [hChooses]

/-- So it holds after any events. The induction is on the events heard. -/
theorem Heard.kept (heard : l.Heard events s) : Kept l events s := by
  induction heard with
  | start => exact kept_start
  | more heard _ hNext ih => exact ih.step heard hNext

/-- The events before those received were received as well, and did not suffice. -/
theorem Heard.before {before after : List EventMessage} {event : EventMessage}
    (heard : l.Heard (before ++ event :: after) s) :
    ∃ t, l.Heard before t ∧ l.complete t = false := by
  generalize hEvents : before ++ event :: after = events at heard
  induction heard generalizing after event with
  | start => simp at hEvents
  | @more earlier s t latest heard listening step ih =>
      rcases List.eq_nil_or_concat after with rfl | ⟨after, last, rfl⟩
      · cases (List.append_inj' hEvents rfl).1
        exact ⟨s, heard, listening⟩
      · rw [List.concat_eq_append, ← List.cons_append, ← List.append_assoc] at hEvents
        exact ih (List.append_inj' hEvents rfl).1

/-- A task that is done with its events has been through the last one of them. -/
theorem Heard.last_cases (heard : l.Heard events t) : events = [] ∧ t = l.start ∨
    ∃ before event s, events = before ++ [event] ∧ l.Heard before s ∧ l.complete s = false ∧
      l.next s event = .ok t := by
  cases heard with
  | start => exact Or.inl ⟨rfl, rfl⟩
  | more heard listening step => exact Or.inr ⟨_, _, _, rfl, heard, listening, step⟩

/-- A listening for all of its filters counts them. -/
theorem need_count {count : Nat} (hNeed : l.need = .all count) : count = l.filters.length := by
  rw [need] at hNeed
  rw [filters]
  cases hTo : l.listen.to_ with
  | all filters =>
      rw [hTo] at hNeed
      cases hNeed
      simp [listenFilters]
  | any filters =>
      rw [hTo] at hNeed
      cases hNeed
  | one filter =>
      rw [hTo] at hNeed
      cases hNeed

/-- A strategy that needs every filter is satisfied when each has taken an event. -/
theorem Kept.satisfied_iff (kept : Kept l events s) {count : Nat} (hNeed : l.need = .all count) :
    (count == 0 || GatherState.satisfied s.filters) = true ↔
      ∀ i < l.filters.length, ∃ event, l.SatisfiedBy events i event := by
  rw [Bool.or_eq_true, beq_iff_eq, (kept.base count hNeed).satisfied_iff, need_count hNeed]
  constructor
  · rintro (hEmpty | hEach) i hi
    · omega
    · exact hEach i hi
  · exact Or.inr

/-- Without an expression, it is the filters of the `until` strategy that end the loop. -/
theorem Heard.untilSatisfied_iff (heard : l.Heard events s) (hSource : l.untilExpression = none) :
    s.untilSatisfied = true ↔
      l.untilFilters ≠ [] ∧ ∀ i < l.untilFilters.length, ∃ event, l.UntilBy events i event := by
  suffices hFlag : s.untilSatisfied =
      (!l.untilFilters.isEmpty && GatherState.satisfied s.untilFilters) by
    rw [hFlag, Bool.and_eq_true, heard.kept.until_.satisfied_iff]
    simp
  induction heard with
  | start =>
      show false = (!l.untilFilters.isEmpty && GatherState.satisfied (l.untilFilters.map (·, false)))
      cases l.untilFilters <;> rfl
  | @more events s t event heard listening hNext ih =>
      obtain ⟨stop, hStop, rfl⟩ := next_cases hNext
      rw [stops, hSource] at hStop
      cases hStop
      show (l.untilFlag s event || false) =
        (!l.untilFilters.isEmpty && GatherState.satisfied (l.sort s event).untilFilters)
      rw [Bool.or_false, untilFlag, sort_untilFilters]
      split
      · rename_i hAdvanced
        obtain ⟨i, f, hEntry, _⟩ := mark_advances_iff.mp hAdvanced
        have hFilter := heard.kept.until_.getElem? i
        rw [hEntry] at hFilter
        cases hFilters : l.untilFilters with
        | nil => simp [hFilters] at hFilter
        | cons first rest => simp
      · rename_i hSame
        rw [ih, GatherState.satisfied, GatherState.satisfied]
        have hMarks : (l.mark event s.untilFilters (l.accept s event).1.group).1.map Prod.snd =
            s.untilFilters.map Prod.snd := by simpa using hSame
        have hAll : ∀ marks : List (CompiledListenFilter × Bool),
            marks.all Prod.snd = (marks.map Prod.snd).all id := by simp [List.all_map]
        rw [hAll, hAll, hMarks]

end Invariant

end Listening
end OwsRuntime
