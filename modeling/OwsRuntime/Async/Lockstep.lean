import OwsRuntime.Async.Endings

/-! Two programs that go in step, choice by choice. The second may run what the first runs
under an alarm, and each of them goes on in its own way when that has returned. -/
namespace Async.Handler

variable {sig : Signature} {α β γ : Type} {h : Handler sig} {allowed : h.Choice → Prop}

open Program

/-- Wherever allowed choices lead the first configuration, the lifted ones lead the second
to a configuration that is alike. It has no other choices there than the first one, lifted. -/
def InStep (allowed : h.Choice → Prop) (lift : h.Choice → h.Choice)
    (Alike : Config sig α → Config sig β → Prop) (c : Config sig α) (d : Config sig β) : Prop :=
  ∀ choices c', (∀ x ∈ choices, allowed x) → h.run c choices = some c' →
    ∃ d', h.run d (choices.map lift) = some d' ∧ Alike c' d' ∧
      ∀ choice, (h.choose d' choice).isSome → ∃ x, choice = lift x ∧ (h.choose c' x).isSome

/-- A simulation step by step keeps two configurations in step. The induction is on the
choices of the run. -/
theorem InStep.of_simulation {lift : h.Choice → h.Choice}
    {Alike R : Config sig α → Config sig β → Prop} {c : Config sig α} {d : Config sig β}
    (start : R c d) (hAlike : ∀ c d, R c d → Alike c d)
    (hOnly : ∀ c d, R c d → ∀ choice, (h.choose d choice).isSome →
      ∃ x, choice = lift x ∧ (h.choose c x).isSome)
    (hStep : ∀ c d, R c d → ∀ x, allowed x → ∀ c', h.choose c x = some c' →
      ∃ d', h.choose d (lift x) = some d' ∧ R c' d') : InStep allowed lift Alike c d := by
  intro choices c' hAllowed hRun
  induction choices generalizing c d with
  | nil =>
      cases hRun
      exact ⟨d, rfl, hAlike _ d start, hOnly _ d start⟩
  | cons x rest ih =>
      rw [run_cons, Option.bind_eq_some_iff] at hRun
      obtain ⟨e, hFirst, hRest⟩ := hRun
      obtain ⟨d₁, hLifted, hNext⟩ := hStep c d start x (hAllowed x List.mem_cons_self) e hFirst
      obtain ⟨d', hMore, hEnd⟩ :=
        ih hNext (fun y hMem => hAllowed y (List.mem_cons_of_mem _ hMem)) hRest
      refine ⟨d', ?_, hEnd⟩
      rw [List.map_cons, run_cons, hLifted]
      exact hMore

/-- A run that has returned has not been under way for longer than to its end. -/
theorem running_of_run {c d : Config sig α} {choices : List h.Choice}
    (hRun : h.run c choices = some d) (hRunning : d.1.value? = none) : c.1.value? = none := by
  cases hValue : c.1.value? with
  | none => rfl
  | some value =>
      obtain ⟨p, σ⟩ := c
      cases eq_done_of_value? hValue
      obtain ⟨w, _, rfl⟩ := Follows.done_cases (Reaches.follows ⟨choices, hRun⟩)
      cases hRunning

/-- The turn in which the program returns ends the run that has led up to it. -/
theorem Follows.ends_step {c d : Config sig α} {choice : h.Choice} {value : α} {τ : State sig}
    (follows : Follows allowed c d) (hRunning : d.1.value? = none) (hAllowed : allowed choice)
    (hLast : h.choose d choice = some (done value, τ)) : Ends allowed c value τ := by
  obtain ⟨choices, hChoices, hRun⟩ := follows
  induction choices generalizing c with
  | nil =>
      cases hRun
      exact .step hRunning hAllowed hLast (.here value τ)
  | cons x rest ih =>
      have hStart := running_of_run hRun hRunning
      rw [run_cons, Option.bind_eq_some_iff] at hRun
      obtain ⟨e, hFirst, hRest⟩ := hRun
      exact .step hStart (hChoices x List.mem_cons_self) hFirst
        (ih (fun y hMem => hChoices y (List.mem_cons_of_mem _ hMem)) hRest)

/-- While the first part of a composition is under way, its run is that of the whole. -/
theorem run_continueWith (f : α → Program sig β) {c d : Config sig α} {choices : List h.Choice}
    (hRun : h.run c choices = some d) (hRunning : d.1.value? = none) :
    h.run (h.continueWith f c) choices = some (h.continueWith f d) := by
  induction choices generalizing c with
  | nil =>
      cases hRun
      rfl
  | cons x rest ih =>
      have hStart := running_of_run hRun hRunning
      rw [run_cons, Option.bind_eq_some_iff] at hRun
      obtain ⟨e, hFirst, hRest⟩ := hRun
      rw [run_cons, choose_continueWith f hStart, hFirst]
      exact ih hRest

section Alarms

variable {alarm : Option sig.Alarm} {next : Option α → Program sig α}

/-- A configuration under an alarm, if there is one. -/
def under (h : Handler sig) (alarm : Option sig.Alarm) (next : Option α → Program sig α)
    (c : Config sig α) : Config sig α :=
  match alarm with
  | none => c
  | some alarm => h.closeRace alarm next c

/-- A choice for what runs under an alarm. -/
def Choice.under (alarm : Option sig.Alarm) (choice : h.Choice) : h.Choice :=
  match alarm with
  | none => choice
  | some _ => choice.within

theorem value?_under {c : Config sig α} (hRunning : c.1.value? = none) :
    (h.under alarm next c).1.value? = none := by
  cases alarm with
  | none => exact hRunning
  | some alarm => simp [under, closeRace, hRunning]

theorem under_state {c : Config sig α} (hRunning : c.1.value? = none) :
    (h.under alarm next c).2 = c.2 := by
  cases alarm with
  | none => rfl
  | some alarm => simp [under, closeRace, hRunning]

/-- An alarm makes no difference to what has returned. -/
theorem under_done (hNext : ∀ value, next (some value) = done value) (value : α) (σ : State sig) :
    h.under alarm next (done value, σ) = (done value, σ) := by
  cases alarm with
  | none => rfl
  | some alarm =>
      show h.advance (next (some value)) σ = _
      rw [hNext]
      rfl

/-- What a program that has not returned can do alone it can do under an alarm, with the choice
passed on to it, and the alarm stays over it. -/
theorem choose_under {c d : Config sig α} (hRunning : c.1.value? = none) {x : h.Choice}
    (hChoose : h.choose c x = some d) :
    h.choose (h.under alarm next c) (x.under alarm) = some (h.under alarm next d) := by
  cases alarm with
  | none => exact hChoose
  | some alarm =>
      have hOpen : h.closeRace alarm next c = (race alarm c.1 next, c.2) := by
        simp [closeRace, hRunning]
      show h.choose (h.closeRace alarm next c) x.within = some (h.closeRace alarm next d)
      rw [hOpen]
      cases x with
      | env e =>
          cases hChoose
          have hMoved : h.closeRace alarm next (c.1, c.2.mapWorld (h.disturb e)) =
              (race alarm c.1 next, c.2.mapWorld (h.disturb e)) := by simp [closeRace, hRunning]
          exact congrArg some hMoved.symm
      | turn move =>
          have hTurn : h.step c.1 move c.2 = some d := hChoose
          show (h.step c.1 move c.2).map (h.closeRace alarm next) = _
          rw [hTurn]
          rfl

/-- Under an alarm there are no more choices, unless it can go off. -/
theorem choose_under_cases {c : Config sig α} (hRunning : c.1.value? = none) {choice : h.Choice}
    (hSome : (h.choose (h.under alarm next c) choice).isSome) :
    (∃ x, choice = x.under alarm ∧ (h.choose c x).isSome) ∨
      alarm.isSome ∧ h.droppable c.1 = true := by
  cases alarm with
  | none => exact Or.inl ⟨choice, rfl, hSome⟩
  | some alarm =>
      obtain ⟨d, hChoose⟩ := Option.isSome_iff_exists.mp hSome
      rcases choose_race hRunning hChoose with ⟨x, e, rfl, hInner, _⟩ | ⟨_, hDrop, _⟩
      · exact Or.inl ⟨x, rfl, Option.isSome_iff_exists.mpr ⟨e, hInner⟩⟩
      · exact Or.inr ⟨rfl, hDrop⟩

/-- An alarm that may go off at any time cuts off what can be dropped. -/
theorem choose_expire {c : Config sig α} {alarm : sig.Alarm} (hRunning : c.1.value? = none)
    (hFires : h.fires alarm c.2.world = true) (hDrop : h.droppable c.1 = true) :
    (h.choose (h.under (some alarm) next c) (.turn .expire)).isSome := by
  have hOpen : h.closeRace alarm next c = (race alarm c.1 next, c.2) := by
    simp [closeRace, hRunning]
  show (h.choose (h.closeRace alarm next c) (.turn .expire)).isSome
  rw [hOpen]
  show (if h.fires alarm c.2.world ∧ h.droppable c.1 then
    some (h.advance (next none) c.2) else none).isSome
  rw [if_pos ⟨hFires, hDrop⟩]
  rfl

theorem run_under {c d : Config sig α} {choices : List h.Choice} (hRun : h.run c choices = some d)
    (hRunning : d.1.value? = none) :
    h.run (h.under alarm next c) (choices.map (·.under alarm)) = some (h.under alarm next d) := by
  induction choices generalizing c with
  | nil =>
      cases hRun
      rfl
  | cons x rest ih =>
      have hStart := running_of_run hRun hRunning
      rw [run_cons, Option.bind_eq_some_iff] at hRun
      obtain ⟨e, hFirst, hRest⟩ := hRun
      rw [List.map_cons, run_cons, choose_under hStart hFirst]
      exact ih hRest

/-- The run that ends the first part of two compositions starts their second parts, with or
without an alarm. -/
theorem Ends.run_under (hNext : ∀ value, next (some value) = done value) {c : Config sig α}
    {value : α} {τ : State sig} (ends : Ends allowed c value τ) :
    ∃ choices, (∀ x ∈ choices, allowed x) ∧ ∀ {β γ : Type} (f : α → Program sig β)
      (g : α → Program sig γ),
        h.run (h.continueWith f c) choices = some (h.advance (f value) τ) ∧
          h.run (h.continueWith g (h.under alarm next c)) (choices.map (·.under alarm)) =
            some (h.advance (g value) τ) := by
  induction ends with
  | here value σ =>
      refine ⟨[], by simp, fun f g => ⟨rfl, ?_⟩⟩
      rw [under_done hNext]
      rfl
  | @step c d choice value τ running hAllowed first rest ih =>
      obtain ⟨choices, hChoices, hRest⟩ := ih
      refine ⟨choice :: choices, ?_, fun f g => ⟨?_, ?_⟩⟩
      · rintro x (_ | ⟨_, hMem⟩)
        · exact hAllowed
        · exact hChoices x hMem
      · rw [run_cons, choose_continueWith f running, first]
        exact (hRest f g).1
      · rw [List.map_cons, run_cons, choose_continueWith g (value?_under running),
          choose_under running first]
        exact (hRest f g).2

end Alarms

end Async.Handler
