import OwsRuntime.Async.Inversion

/-! Runs up to the very turn in which the program returns, so that they can be put together
again after they have been taken apart. -/
namespace Async.Handler

variable {sig : Signature} {α β ε : Type} {h : Handler sig} {allowed : h.Choice → Prop}

open Program

/-- A run of allowed choices that stops as soon as the program has returned. -/
inductive Ends (allowed : h.Choice → Prop) {α : Type} : Config sig α → α → State sig → Prop where
  | here (value : α) (σ : State sig) : Ends allowed (done value, σ) value σ
  | step {c d : Config sig α} {choice : h.Choice} {value : α} {τ : State sig}
      (running : c.1.value? = none) (hAllowed : allowed choice) (first : h.choose c choice = some d)
      (rest : Ends allowed d value τ) : Ends allowed c value τ

/-- A program that has returned needs no turn. -/
theorem Ends.of_eq {c : Config sig α} {value : α} {τ : State sig} (hDone : c = (done value, τ)) :
    Ends allowed c value τ := by
  subst hDone
  exact .here value τ

theorem Ends.follows {c : Config sig α} {value : α} {τ : State sig} (ends : Ends allowed c value τ) :
    Follows allowed c (done value, τ) := by
  induction ends with
  | here value σ => exact .refl _
  | step running hAllowed first rest ih => exact ih.head hAllowed first

/-- A run that returns stops somewhere, and only the environment acts after that. -/
theorem Follows.ends {c : Config sig α} {value : α} {τ : State sig}
    (follows : Follows allowed c (done value, τ)) :
    ∃ υ, Ends allowed c value υ ∧ Drifts allowed υ.world τ.world ∧ τ = { υ with world := τ.world } := by
  obtain ⟨choices, hAllowed, hRun⟩ := follows
  induction choices generalizing c with
  | nil =>
      cases hRun
      exact ⟨τ, .here value τ, .refl, rfl⟩
  | cons choice rest ih =>
      cases hValue : c.1.value? with
      | some other =>
          obtain ⟨p, σ⟩ := c
          cases eq_done_of_value? hValue
          obtain ⟨w, hDrift, hSame⟩ := Follows.done_cases ⟨choice :: rest, hAllowed, hRun⟩
          cases hSame
          exact ⟨σ, .here value σ, hDrift, rfl⟩
      | none =>
          rw [run_cons, Option.bind_eq_some_iff] at hRun
          obtain ⟨d, hFirst, hRest⟩ := hRun
          obtain ⟨υ, hEnds, hDrift, hSame⟩ :=
            ih (fun x hMem => hAllowed x (List.mem_cons_of_mem _ hMem)) hRest
          exact ⟨υ, .step hValue (hAllowed _ List.mem_cons_self) hFirst hEnds, hDrift, hSame⟩

/-- With one choice at a time there is one way to return. -/
theorem Ends.unique {only : h.Choice} {c : Config sig α} {value other : α} {τ υ : State sig}
    (ends : Ends (· = only) c value τ) (again : Ends (· = only) c other υ) :
    other = value ∧ υ = τ := by
  induction ends with
  | here value σ =>
      cases again with
      | here => exact ⟨rfl, rfl⟩
      | step running _ _ _ => cases running
  | step running hAllowed first rest ih =>
      cases again with
      | here => cases running
      | step _ hOther firstAgain restAgain =>
          subst hAllowed hOther
          cases first.symm.trans firstAgain
          exact ih restAgain

theorem Ends.done_iff {value other : α} {σ τ : State sig} :
    Ends allowed (done value, σ) other τ ↔ other = value ∧ τ = σ := by
  constructor
  · intro ends
    cases ends with
    | here => exact ⟨rfl, rfl⟩
    | step running _ _ _ => cases running
  · rintro ⟨rfl, rfl⟩
    exact .here _ _

/-- While the first part of a composition is under way, the choices are those of its own. -/
theorem choose_continueWith (f : α → Program sig β) {c : Config sig α} (hRunning : c.1.value? = none)
    (choice : h.Choice) :
    h.choose (h.continueWith f c) choice = (h.choose c choice).map (h.continueWith f) := by
  rw [h.continueWith_of_none f hRunning]
  cases choice with
  | env e =>
      have hMoved := h.continueWith_of_none f (c := (c.1, c.2.mapWorld (h.disturb e))) hRunning
      exact congrArg some hMoved.symm
  | turn move => exact h.step_bind c.1 f move c.2 hRunning

theorem value?_continueWith (f : α → Program sig β) {c : Config sig α}
    (hRunning : c.1.value? = none) : (h.continueWith f c).1.value? = none := by
  rw [h.continueWith_of_none f hRunning]
  cases hProgram : c.1 <;> rw [hProgram] at hRunning <;> first | rfl | cases hRunning

/-- The run of a composition is one of its first part, and then one of the second. -/
theorem Ends.continueWith_iff {f : α → Program sig β} {c : Config sig α} {value : β} {τ : State sig} :
    Ends allowed (h.continueWith f c) value τ ↔
      ∃ a υ, Ends allowed c a υ ∧ Ends allowed (h.advance (f a) υ) value τ := by
  constructor
  · intro ends
    generalize hStart : h.continueWith f c = start at ends
    induction ends generalizing c with
    | here value σ =>
        cases hValue : c.1.value? with
        | none =>
            have hStill := @value?_continueWith _ _ _ h f c hValue
            rw [hStart] at hStill
            cases hStill
        | some a =>
            obtain ⟨p, υ⟩ := c
            cases eq_done_of_value? hValue
            refine ⟨a, υ, .here a υ, ?_⟩
            rw [continueWith_done] at hStart
            rw [hStart]
            exact .here value σ
    | @step start next choice value τ running hAllowed first rest ih =>
        subst hStart
        cases hValue : c.1.value? with
        | none =>
            rw [choose_continueWith f hValue, Option.map_eq_some_iff] at first
            obtain ⟨d, hFirst, hNext⟩ := first
            obtain ⟨a, υ, hEnds, hRest⟩ := ih hNext
            exact ⟨a, υ, .step hValue hAllowed hFirst hEnds, hRest⟩
        | some a =>
            obtain ⟨p, υ⟩ := c
            cases eq_done_of_value? hValue
            exact ⟨a, υ, .here a υ, .step running hAllowed first rest⟩
  · rintro ⟨a, υ, hFirst, hSecond⟩
    induction hFirst with
    | here a υ => exact hSecond
    | step running hAllowed first _ ih =>
        refine .step (value?_continueWith f running) hAllowed ?_ (ih hSecond)
        rw [choose_continueWith f running, first]
        rfl

theorem Ends.bind_iff {p : Program sig α} {f : α → Program sig β} {σ τ : State sig} {value : β} :
    Ends allowed (h.advance (p.bind f) σ) value τ ↔
      ∃ a υ, Ends allowed (h.advance p σ) a υ ∧ Ends allowed (h.advance (f a) υ) value τ := by
  rw [h.advance_bind, Ends.continueWith_iff]

theorem Ends.pure_iff {value : α} {σ τ : State sig} {result : Except ε α} :
    Ends allowed (h.advance (pure value : ExceptT ε (Program sig) α).run σ) result τ ↔
      result = .ok value ∧ τ = σ := Ends.done_iff

/-- A program that may fail, and then another one: either both end, the second where the first one
has left the state, or the first one fails and so does the whole. -/
theorem Ends.seq_iff {p : ExceptT ε (Program sig) α} {f : α → ExceptT ε (Program sig) β}
    {σ τ : State sig} {result : Except ε β} :
    Ends allowed (h.advance (p >>= f).run σ) result τ ↔
      (∃ a υ, Ends allowed (h.advance p.run σ) (.ok a) υ ∧
        Ends allowed (h.advance (f a).run υ) result τ) ∨
      ∃ e, Ends allowed (h.advance p.run σ) (.error e) τ ∧ result = .error e := by
  have hBind : Ends allowed (h.advance (p >>= f).run σ) result τ ↔
      ∃ r υ, Ends allowed (h.advance p.run σ) r υ ∧
        Ends allowed (h.advance (ExceptT.bindCont f r) υ) result τ := Ends.bind_iff
  rw [hBind]
  constructor
  · rintro ⟨r, υ, hFirst, hSecond⟩
    cases r with
    | ok a => exact Or.inl ⟨a, υ, hFirst, hSecond⟩
    | error e =>
        obtain ⟨rfl, rfl⟩ := Ends.done_iff.mp hSecond
        exact Or.inr ⟨e, hFirst, rfl⟩
  · rintro (⟨a, υ, hFirst, hSecond⟩ | ⟨e, hFirst, rfl⟩)
    · exact ⟨.ok a, υ, hFirst, hSecond⟩
    · exact ⟨.error e, τ, hFirst, Ends.done_iff.mpr ⟨rfl, rfl⟩⟩

end Async.Handler
