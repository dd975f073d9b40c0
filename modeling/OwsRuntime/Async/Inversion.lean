import OwsRuntime.Async.Machine
import Mathlib.Logic.Relation

/-! Runs taken apart along the structure of the program. A run is restricted by the
choices which it may take: those of the environment, and those of the executor. -/
namespace Async.Handler

variable {sig : Signature} {α β γ : Type} {h : Handler sig}

open Program

/-- A choice for the body of a race or of a region, as a choice for the whole. -/
def Choice.within : h.Choice → h.Choice
  | .env e => .env e
  | .turn move => .turn (.inner move)

/-- A run whose choices are all allowed leads from one configuration to the other. -/
def Follows (allowed : h.Choice → Prop) (c d : Config sig α) : Prop :=
  ∃ choices, (∀ choice ∈ choices, allowed choice) ∧ h.run c choices = some d

/-- The environment alone may make the second world of the first. -/
def Drifts (allowed : h.Choice → Prop) : sig.World → sig.World → Prop :=
  Relation.ReflTransGen fun w x => ∃ e, allowed (.env e) ∧ x = h.disturb e w

variable {allowed other : h.Choice → Prop}

theorem Follows.refl (c : Config sig α) : Follows allowed c c := ⟨[], by simp, rfl⟩

theorem Follows.head {c d e : Config sig α} {choice : h.Choice} (hAllowed : allowed choice)
    (first : h.choose c choice = some d) (rest : Follows allowed d e) : Follows allowed c e := by
  obtain ⟨choices, hRest, hRun⟩ := rest
  refine ⟨choice :: choices, ?_, ?_⟩
  · intro x hMem
    rcases List.mem_cons.mp hMem with rfl | hMem
    · exact hAllowed
    · exact hRest x hMem
  · rw [run_cons, first]
    exact hRun

theorem Follows.trans {c d e : Config sig α} (first : Follows allowed c d)
    (second : Follows allowed d e) : Follows allowed c e := by
  obtain ⟨choices, hFirst, hRun⟩ := first
  obtain ⟨more, hMore, hRest⟩ := second
  refine ⟨choices ++ more, ?_, ?_⟩
  · intro x hMem
    exact (List.mem_append.mp hMem).elim (hFirst x) (hMore x)
  · rw [run_append, hRun]
    exact hRest

theorem Follows.mono {c d : Config sig α} (follows : Follows allowed c d)
    (hAllowed : ∀ choice, allowed choice → other choice) : Follows other c d := by
  obtain ⟨choices, hChoices, hRun⟩ := follows
  exact ⟨choices, fun x hMem => hAllowed x (hChoices x hMem), hRun⟩

theorem Follows.reaches {c d : Config sig α} (follows : Follows allowed c d) : h.Reaches c d := by
  obtain ⟨choices, _, hRun⟩ := follows
  exact ⟨choices, hRun⟩

theorem Reaches.follows {c d : Config sig α} (reached : h.Reaches c d) :
    Follows (fun _ : h.Choice => True) c d := by
  obtain ⟨choices, hRun⟩ := reached
  exact ⟨choices, fun _ _ => trivial, hRun⟩

/-- Every run is empty or starts with a choice. -/
theorem Follows.cases_head {c e : Config sig α} (follows : Follows allowed c e) :
    c = e ∨ ∃ choice d, allowed choice ∧ h.choose c choice = some d ∧ Follows allowed d e := by
  obtain ⟨choices, hAllowed, hRun⟩ := follows
  cases choices with
  | nil =>
      cases hRun
      exact Or.inl rfl
  | cons choice rest =>
      rw [run_cons, Option.bind_eq_some_iff] at hRun
      obtain ⟨d, hFirst, hRest⟩ := hRun
      exact Or.inr ⟨choice, d, hAllowed choice List.mem_cons_self, hFirst, rest,
        fun x hMem => hAllowed x (List.mem_cons_of_mem _ hMem), hRest⟩

/-- An invariant of every allowed choice is an invariant of every such run. -/
theorem Follows.induction (Inv : Config sig α → Prop) {c e : Config sig α}
    (follows : Follows allowed c e) (start : Inv c)
    (keep : ∀ c choice d, Inv c → allowed choice → h.choose c choice = some d → Inv d) : Inv e := by
  obtain ⟨choices, hAllowed, hRun⟩ := follows
  induction choices generalizing c with
  | nil =>
      cases hRun
      exact start
  | cons choice rest ih =>
      rw [run_cons, Option.bind_eq_some_iff] at hRun
      obtain ⟨d, hFirst, hRest⟩ := hRun
      exact ih (keep c choice d start (hAllowed _ List.mem_cons_self) hFirst)
        (fun x hMem => hAllowed x (List.mem_cons_of_mem _ hMem)) hRest

/-- The run of a composition stays in its first part, or goes on with the second one. -/
theorem Follows.bind_cases {f : α → Program sig β} {c : Config sig α} {d : Config sig β}
    (follows : Follows allowed (h.continueWith f c) d) :
    (∃ e, Follows allowed c e ∧ e.1.value? = none ∧ d = (e.1.bind f, e.2)) ∨
      ∃ value τ, Follows allowed c (done value, τ) ∧ Follows allowed (h.advance (f value) τ) d := by
  obtain ⟨choices, hAllowed, hRun⟩ := follows
  induction choices generalizing c with
  | nil =>
      cases hRun
      cases hValue : c.1.value? with
      | none => exact Or.inl ⟨c, .refl c, hValue, h.continueWith_of_none f hValue⟩
      | some value =>
          obtain ⟨p, σ⟩ := c
          cases eq_done_of_value? hValue
          exact Or.inr ⟨value, σ, .refl _, .refl _⟩
  | cons choice rest ih =>
      obtain ⟨p, σ⟩ := c
      cases hValue : p.value? with
      | some value =>
          cases eq_done_of_value? hValue
          exact Or.inr ⟨value, σ, .refl _, choice :: rest, hAllowed, hRun⟩
      | none =>
          rw [h.continueWith_of_none f hValue, run_cons, Option.bind_eq_some_iff] at hRun
          obtain ⟨next, hNext, hRest⟩ := hRun
          have hChoice := hAllowed choice List.mem_cons_self
          have hMore : ∀ x ∈ rest, allowed x := fun x hMem => hAllowed x (List.mem_cons_of_mem _ hMem)
          have hStep : ∃ c', h.choose (p, σ) choice = some c' ∧ h.continueWith f c' = next := by
            cases choice with
            | env e =>
                cases hNext
                exact ⟨_, rfl, h.continueWith_of_none f hValue⟩
            | turn move =>
                have hTurn : h.step (p.bind f) move σ = some next := hNext
                rw [h.step_bind p f move σ hValue, Option.map_eq_some_iff] at hTurn
                exact hTurn
          obtain ⟨c', hFirst, rfl⟩ := hStep
          rcases ih hMore hRest with ⟨e, hInner, hRunning, hEq⟩ | ⟨value, τ, hInner, hOuter⟩
          · exact Or.inl ⟨e, hInner.head hChoice hFirst, hRunning, hEq⟩
          · exact Or.inr ⟨value, τ, hInner.head hChoice hFirst, hOuter⟩

/-- A composition that has returned has gone through both of its parts. -/
theorem Follows.bind_done {p : Program sig α} {f : α → Program sig β} {σ τ : State sig} {value : β}
    (follows : Follows allowed (h.advance (p.bind f) σ) (done value, τ)) :
    ∃ first υ, Follows allowed (h.advance p σ) (done first, υ) ∧
      Follows allowed (h.advance (f first) υ) (done value, τ) := by
  rw [h.advance_bind] at follows
  rcases follows.bind_cases with ⟨e, _, hRunning, hEq⟩ | hParts
  · cases hProgram : e.1 with
    | done first => simp [hProgram, value?] at hRunning
    | _ => simp [hProgram, Program.bind] at hEq
  · exact hParts

/-- A program that waits for its request stays there, or performs it some time. -/
theorem Follows.act_cases {a : sig.Act} {next : sig.Resp a → Program sig α} {σ : State sig}
    {d : Config sig α} (follows : Follows allowed (act a next, σ) d) :
    (∃ w, Drifts allowed σ.world w ∧ d = (act a next, { σ with world := w })) ∨
      ∃ w reply τ, Drifts allowed σ.world w ∧
        h.perform a { σ with world := w } = some (reply, τ) ∧
          Follows allowed (h.advance (next reply) τ) d := by
  obtain ⟨choices, hAllowed, hRun⟩ := follows
  induction choices generalizing σ with
  | nil =>
      cases hRun
      exact Or.inl ⟨σ.world, .refl, rfl⟩
  | cons choice rest ih =>
      rw [run_cons, Option.bind_eq_some_iff] at hRun
      obtain ⟨c, hNext, hRest⟩ := hRun
      have hChoice := hAllowed choice List.mem_cons_self
      have hMore : ∀ x ∈ rest, allowed x := fun x hMem => hAllowed x (List.mem_cons_of_mem _ hMem)
      cases choice with
      | env e =>
          cases hNext
          have hDrift : Drifts allowed σ.world (h.disturb e σ.world) := .single ⟨e, hChoice, rfl⟩
          rcases ih hMore hRest with ⟨w, hLater, hEq⟩ | ⟨w, reply, τ, hLater, hPerform, hFollows⟩
          · exact Or.inl ⟨w, hDrift.trans hLater, hEq⟩
          · exact Or.inr ⟨w, reply, τ, hDrift.trans hLater, hPerform, hFollows⟩
      | turn move =>
          cases move with
          | here =>
              have hTurn : (h.perform a σ).map (fun r => h.advance (next r.1) r.2) = some c := hNext
              obtain ⟨⟨reply, τ⟩, hPerform, rfl⟩ := Option.map_eq_some_iff.mp hTurn
              exact Or.inr ⟨σ.world, reply, τ, .refl, hPerform, rest, hMore, hRest⟩
          | _ => cases hNext

/-- A choice for a race whose body is under way is one for its body, or drops it. -/
theorem choose_race {alarm : sig.Alarm} {next : Option β → Program sig α} {c : Config sig β}
    {choice : h.Choice} {d : Config sig α} (hRunning : c.1.value? = none)
    (hChoose : h.choose (h.closeRace alarm next c) choice = some d) :
    (∃ inner e, choice = inner.within ∧ h.choose c inner = some e ∧ d = h.closeRace alarm next e) ∨
      (choice = .turn .expire ∧ h.droppable c.1 = true ∧ d = h.advance (next none) c.2) := by
  have hOpen : h.closeRace alarm next c = (race alarm c.1 next, c.2) := by
    simp [closeRace, hRunning]
  rw [hOpen] at hChoose
  cases choice with
  | env e =>
      cases hChoose
      exact Or.inl ⟨.env e, _, rfl, rfl, by simp [closeRace, hRunning]⟩
  | turn move =>
      cases move with
      | expire =>
          have hTurn : (if h.fires alarm c.2.world ∧ h.droppable c.1
              then some (h.advance (next none) c.2) else none) = some d := hChoose
          split at hTurn <;> cases hTurn
          rename_i hExpires
          exact Or.inr ⟨rfl, hExpires.2, rfl⟩
      | inner move =>
          have hTurn : (h.step c.1 move c.2).map (h.closeRace alarm next) = some d := hChoose
          obtain ⟨e, hFirst, rfl⟩ := Option.map_eq_some_iff.mp hTurn
          exact Or.inl ⟨.turn move, e, rfl, hFirst, rfl⟩
      | _ => cases hChoose

/-- The run of a race stays in its body, goes on after it, or drops it. -/
theorem Follows.race_cases {alarm : sig.Alarm} {next : Option β → Program sig α}
    {c : Config sig β} {d : Config sig α} (follows : Follows allowed (h.closeRace alarm next c) d) :
    (∃ e, Follows (allowed ∘ Choice.within) c e ∧ e.1.value? = none ∧
        d = (race alarm e.1 next, e.2)) ∨
      (∃ b τ, Follows (allowed ∘ Choice.within) c (done b, τ) ∧
        Follows allowed (h.advance (next (some b)) τ) d) ∨
      ∃ e, Follows (allowed ∘ Choice.within) c e ∧
        (e.1.value? = none ∧ h.droppable e.1 = true ∧ allowed (.turn .expire)) ∧
          Follows allowed (h.advance (next none) e.2) d := by
  obtain ⟨choices, hAllowed, hRun⟩ := follows
  induction choices generalizing c with
  | nil =>
      cases hRun
      obtain ⟨p, σ⟩ := c
      cases hValue : p.value? with
      | none => exact Or.inl ⟨(p, σ), .refl _, hValue, by simp [closeRace, hValue]⟩
      | some b =>
          cases eq_done_of_value? hValue
          exact Or.inr (Or.inl ⟨b, σ, .refl _, .refl _⟩)
  | cons choice rest ih =>
      cases hValue : c.1.value? with
      | some b =>
          obtain ⟨p, σ⟩ := c
          cases eq_done_of_value? hValue
          exact Or.inr (Or.inl ⟨b, σ, .refl _, choice :: rest, hAllowed, hRun⟩)
      | none =>
          rw [run_cons, Option.bind_eq_some_iff] at hRun
          obtain ⟨next', hNext, hRest⟩ := hRun
          have hChoice := hAllowed choice List.mem_cons_self
          have hMore : ∀ x ∈ rest, allowed x := fun x hMem => hAllowed x (List.mem_cons_of_mem _ hMem)
          rcases choose_race hValue hNext with ⟨inner, e, rfl, hFirst, rfl⟩ | ⟨rfl, hDrop, rfl⟩
          · rcases ih hMore hRest with ⟨e', hInner, h₁⟩ | ⟨b, τ, hInner, h₁⟩ | ⟨e', hInner, h₁⟩
            · exact Or.inl ⟨e', hInner.head hChoice hFirst, h₁⟩
            · exact Or.inr (Or.inl ⟨b, τ, hInner.head hChoice hFirst, h₁⟩)
            · exact Or.inr (Or.inr ⟨e', hInner.head hChoice hFirst, h₁⟩)
          · exact Or.inr (Or.inr ⟨c, .refl _, ⟨hValue, hDrop, hChoice⟩, rest, hMore, hRest⟩)

/-- A choice for a region whose body is under way is one for its body. -/
theorem choose_region {next : β → Program sig α} {σ : State sig} {c : Config sig β}
    {choice : h.Choice} {d : Config sig α} (hRunning : c.1.value? = none)
    (hChoose : h.choose (h.closeRegion σ next c) choice = some d) :
    ∃ inner e, choice = inner.within ∧ h.choose c inner = some e ∧ d = h.closeRegion σ next e := by
  have hOpen : h.closeRegion σ next c = (region c.2.loc c.2.shared c.1 next, σ.leave c.2) := by
    simp [closeRegion, hRunning]
  rw [hOpen] at hChoose
  cases choice with
  | env e =>
      cases hChoose
      exact ⟨.env e, _, rfl, rfl, by simp [closeRegion, hRunning, State.leave, State.mapWorld]⟩
  | turn move =>
      cases move with
      | inner move =>
          have hTurn : (h.step c.1 move c.2).map (h.closeRegion (σ.leave c.2) next) = some d := hChoose
          obtain ⟨e, hFirst, rfl⟩ := Option.map_eq_some_iff.mp hTurn
          exact ⟨.turn move, e, rfl, hFirst, rfl⟩
      | _ => cases hChoose

/-- The run of a region stays in its body, or goes on after it. -/
theorem Follows.region_cases {next : β → Program sig α} {σ : State sig} {c : Config sig β}
    {d : Config sig α} (follows : Follows allowed (h.closeRegion σ next c) d) :
    (∃ e, Follows (allowed ∘ Choice.within) c e ∧ e.1.value? = none ∧
        d = (region e.2.loc e.2.shared e.1 next, σ.leave e.2)) ∨
      ∃ b τ, Follows (allowed ∘ Choice.within) c (done b, τ) ∧
        Follows allowed (h.advance (next b) (σ.leave τ)) d := by
  obtain ⟨choices, hAllowed, hRun⟩ := follows
  induction choices generalizing c with
  | nil =>
      cases hRun
      obtain ⟨p, σ'⟩ := c
      cases hValue : p.value? with
      | none => exact Or.inl ⟨(p, σ'), .refl _, hValue, by simp [closeRegion, hValue]⟩
      | some b =>
          cases eq_done_of_value? hValue
          exact Or.inr ⟨b, σ', .refl _, .refl _⟩
  | cons choice rest ih =>
      cases hValue : c.1.value? with
      | some b =>
          obtain ⟨p, σ'⟩ := c
          cases eq_done_of_value? hValue
          exact Or.inr ⟨b, σ', .refl _, choice :: rest, hAllowed, hRun⟩
      | none =>
          rw [run_cons, Option.bind_eq_some_iff] at hRun
          obtain ⟨next', hNext, hRest⟩ := hRun
          have hChoice := hAllowed choice List.mem_cons_self
          have hMore : ∀ x ∈ rest, allowed x := fun x hMem => hAllowed x (List.mem_cons_of_mem _ hMem)
          obtain ⟨inner, e, rfl, hFirst, rfl⟩ := choose_region hValue hNext
          rcases ih hMore hRest with ⟨e', hInner, h₁⟩ | ⟨b, τ, hInner, h₁⟩
          · exact Or.inl ⟨e', hInner.head hChoice hFirst, h₁⟩
          · exact Or.inr ⟨b, τ, hInner.head hChoice hFirst, h₁⟩

/-- Branches leave the storage of the task that waits for them alone. The run stays among
them, or goes on when enough of them have finished. -/
theorem Follows.par_cases {count need : Nat} {locs : Fin count → sig.Local}
    {branches : Fin count → Program sig β} {finished : List (Fin count × Option β)}
    {next : List (Fin count × Option β) → Program sig α} {σ : State sig} {d : Config sig α}
    (follows : Follows allowed (par count need locs branches finished next, σ) d) :
    (∃ locs' branches' finished' τ, τ.loc = σ.loc ∧
        d = (par count need locs' branches' finished' next, τ)) ∨
      ∃ locs' branches' finished' τ, τ.loc = σ.loc ∧
        Follows allowed (par count need locs branches finished next, σ)
          (par count need locs' branches' finished' next, τ) ∧
        Follows allowed (h.advance (next finished') τ) d := by
  obtain ⟨choices, hAllowed, hRun⟩ := follows
  induction choices generalizing locs branches finished σ with
  | nil =>
      cases hRun
      exact Or.inl ⟨locs, branches, finished, σ, rfl, rfl⟩
  | cons choice rest ih =>
      rw [run_cons, Option.bind_eq_some_iff] at hRun
      obtain ⟨c, hNext, hRest⟩ := hRun
      have hChoice := hAllowed choice List.mem_cons_self
      have hMore : ∀ x ∈ rest, allowed x := fun x hMem => hAllowed x (List.mem_cons_of_mem _ hMem)
      -- what is left of the run starts among the branches again
      have hAgain : ∀ (τ : State sig) {locs' branches' finished'}, τ.loc = σ.loc →
          c = (par count need locs' branches' finished' next, τ) →
          (∃ locs' branches' finished' τ, τ.loc = σ.loc ∧
            d = (par count need locs' branches' finished' next, τ)) ∨
          ∃ locs' branches' finished' τ, τ.loc = σ.loc ∧
            Follows allowed (par count need locs branches finished next, σ)
              (par count need locs' branches' finished' next, τ) ∧
            Follows allowed (h.advance (next finished') τ) d := by
        rintro τ locs' branches' finished' hLoc rfl
        rcases ih hMore hRest with ⟨l, b, f, υ, hSame, hEq⟩ | ⟨l, b, f, υ, hSame, hFirst, hSecond⟩
        · exact Or.inl ⟨l, b, f, υ, hSame.trans hLoc, hEq⟩
        · exact Or.inr ⟨l, b, f, υ, hSame.trans hLoc, hFirst.head hChoice hNext, hSecond⟩
      cases choice with
      | env e =>
          cases hNext
          exact hAgain (σ.mapWorld (h.disturb e)) rfl rfl
      | turn move =>
          cases move with
          | here =>
              have hTurn : h.step (par count need locs branches finished next) .here σ = some c := hNext
              rw [step] at hTurn
              split at hTurn <;> cases hTurn
              exact Or.inr ⟨locs, branches, finished, σ, rfl, .refl _, rest, hMore, hRest⟩
          | branch index move =>
              have hTurn : h.step (par count need locs branches finished next)
                (.branch index move) σ = some c := hNext
              rw [step] at hTurn
              split at hTurn
              · split at hTurn
                · cases hTurn
                · obtain ⟨inner, _, rfl⟩ := Option.map_eq_some_iff.mp hTurn
                  exact hAgain (inner.2.fork σ.loc) rfl rfl
              · cases hTurn
          | crash index =>
              have hTurn : h.step (par count need locs branches finished next)
                (.crash index) σ = some c := hNext
              rw [step] at hTurn
              split at hTurn
              · split at hTurn <;> cases hTurn
                exact hAgain σ rfl rfl
              · cases hTurn
          | _ => cases hNext

/-- Once a program has returned, only the environment acts: the value and the storage of the program
stay, and the world drifts. -/
theorem Follows.done_cases {value : α} {σ : State sig} {d : Config sig α}
    (follows : Follows allowed (done value, σ) d) :
    ∃ w, Drifts allowed σ.world w ∧ d = (done value, { σ with world := w }) := by
  obtain ⟨choices, hAllowed, hRun⟩ := follows
  induction choices generalizing σ with
  | nil =>
      cases hRun
      exact ⟨σ.world, .refl, rfl⟩
  | cons choice rest ih =>
      rw [run_cons, Option.bind_eq_some_iff] at hRun
      obtain ⟨c, hNext, hRest⟩ := hRun
      have hChoice := hAllowed choice List.mem_cons_self
      cases choice with
      | env e =>
          cases hNext
          obtain ⟨w, hLater, rfl⟩ := ih (fun x hMem => hAllowed x (List.mem_cons_of_mem _ hMem)) hRest
          exact ⟨w, .head ⟨e, hChoice, rfl⟩ hLater, rfl⟩
      | turn move =>
          have hTurn : h.step (done value) move σ = some c := hNext
          rw [h.step_done] at hTurn
          cases hTurn

end Async.Handler
