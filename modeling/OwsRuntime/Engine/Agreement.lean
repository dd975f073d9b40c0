import OwsRuntime.Async.Lockstep
import OwsRuntime.Engine.Turns

/-! When two programs of the engine come to the same: choice by choice they wait together,
return together and return the same, and leave the same effects behind. -/
namespace OwsRuntime

open Async
open Async.Handler (InStep)

/-- Two states are the same but for the ghost notes and what belongs to one task. -/
structure SameEffects (σ τ : EngineState) : Prop where
  world : τ.world = σ.world
  context : τ.shared.context = σ.shared.context
  locked : τ.shared.locked = σ.shared.locked
  ended : τ.shared.ended = σ.shared.ended

namespace SameEffects

variable {σ τ υ : EngineState}

theorem refl (σ : EngineState) : SameEffects σ σ := ⟨rfl, rfl, rfl, rfl⟩

theorem symm (same : SameEffects σ τ) : SameEffects τ σ :=
  ⟨same.world.symm, same.context.symm, same.locked.symm, same.ended.symm⟩

theorem trans (first : SameEffects σ τ) (second : SameEffects τ υ) : SameEffects σ υ :=
  ⟨second.world.trans first.world, second.context.trans first.context,
    second.locked.trans first.locked, second.ended.trans first.ended⟩

theorem note (σ : EngineState) (n : Note) : SameEffects σ (EngineState.note σ n) :=
  ⟨rfl, rfl, rfl, rfl⟩

theorem mapLocal (σ : EngineState) (f : TaskLocal → TaskLocal) :
    SameEffects σ (EngineState.mapLocal f σ) := ⟨rfl, rfl, rfl, rfl⟩

theorem of_noted (noted : σ.Noted τ) : SameEffects σ τ := by
  obtain ⟨notes, hShared⟩ := noted.shared
  refine ⟨noted.world, ?_, ?_, ?_⟩ <;> rw [hShared]

/-- What the environment does to both states keeps them the same. -/
theorem mapWorld (same : SameEffects σ τ) (f : World → World) :
    SameEffects (σ.mapWorld f) (τ.mapWorld f) :=
  ⟨congrArg f same.world, same.context, same.locked, same.ended⟩

end SameEffects

variable {α : Type} {allowed : engine.Choice → Prop}

/-- Both programs are under way, or both have returned and returned the same, and their
effects so far are the same. -/
structure OutcomesAgree (c d : Config engineSig α) : Prop where
  effects : SameEffects c.2 d.2
  outcome : d.1.value? = c.1.value?

/-- What has returned the same stays in step: only the environment acts. -/
theorem inStep_done {lift : engine.Choice → engine.Choice} (hEnv : ∀ e, lift (.env e) = .env e)
    {σ τ : EngineState} (same : SameEffects σ τ) (value : α) :
    InStep allowed lift OutcomesAgree ((.done value, σ) : Config engineSig α) (.done value, τ) := by
  let R : Config engineSig α → Config engineSig α → Prop := fun c d =>
    ∃ σ τ, SameEffects σ τ ∧ c = (.done value, σ) ∧ d = (.done value, τ)
  refine InStep.of_simulation (R := R) ⟨σ, τ, same, rfl, rfl⟩ ?_ ?_ ?_
  · rintro _ _ ⟨σ, τ, same, rfl, rfl⟩
    exact ⟨same, rfl⟩
  · rintro _ _ ⟨σ, τ, _, rfl, rfl⟩ choice hSome
    cases choice with
    | env e => exact ⟨.env e, (hEnv e).symm, rfl⟩
    | turn move => cases hSome
  · rintro _ _ ⟨σ, τ, same, rfl, rfl⟩ x _ c' hChoose
    cases x with
    | env e =>
        cases hChoose
        exact ⟨_, by rw [hEnv]; rfl, _, _, same.mapWorld (disturb e), rfl, rfl⟩
    | turn move => cases hChoose

section Asking

/-- Any choice, where what others answer is a matter of the given class. -/
def repliesWith (behaves : Oracle → Prop) : engine.Choice → Prop
  | .env (.replies oracle) => behaves oracle
  | _ => True

/-- Waits for one answer of others, and returns what it makes of it. -/
structure Asks (p : Program engineSig α) (answer : Oracle → α) : Prop where
  running : p.value? = none
  answered : ∀ σ : EngineState, engine.step p .here σ = some (.done (answer σ.world.oracle), σ)
  only : ∀ (σ : EngineState) move, (engine.step p move σ).isSome → move = .here

variable {p q : Program engineSig α} {answer other : Oracle → α} {behaves : Oracle → Prop}
  {σ τ : EngineState}

theorem Asks.run_now (asks : Asks p answer) (σ : EngineState) :
    engine.run (p, σ) [.turn .here] = some (.done (answer σ.world.oracle), σ) := by
  show (engine.step p .here σ).bind _ = _
  rw [asks.answered]
  rfl

theorem Asks.run_later (asks : Asks p answer) (σ : EngineState) (o : Oracle) :
    engine.run (p, σ) [.env (.replies o), .turn .here] =
      some (.done (answer o), σ.mapWorld (OwsRuntime.disturb (.replies o))) :=
  asks.run_now (σ.mapWorld (OwsRuntime.disturb (.replies o)))

/-- Two programs that ask are waiting for the same answers, or have returned the same. -/
inductive AskingAlike (behaves : Oracle → Prop) (p q : Program engineSig α)
    (answer other : Oracle → α) : Config engineSig α → Config engineSig α → Prop
  | waiting {σ τ : EngineState} (same : SameEffects σ τ)
      (alike : ∀ o, o = σ.world.oracle ∨ behaves o → answer o = other o) :
      AskingAlike behaves p q answer other (p, σ) (q, τ)
  | returned {σ τ : EngineState} (value : α) (same : SameEffects σ τ) :
      AskingAlike behaves p q answer other (.done value, σ) (.done value, τ)

/-- Whatever others answer now, or the environment makes them answer later, is alike. -/
theorem AskingAlike.disturb (same : SameEffects σ τ)
    (alike : ∀ o, o = σ.world.oracle ∨ behaves o → answer o = other o) {e : Disturbance}
    (hAllowed : repliesWith behaves (.env e)) :
    AskingAlike behaves p q answer other (p, σ.mapWorld (OwsRuntime.disturb e))
      (q, τ.mapWorld (OwsRuntime.disturb e)) := by
  refine .waiting (same.mapWorld _) fun o hMay => ?_
  cases e with
  | replies oracle =>
      rcases hMay with rfl | hMay
      · exact alike _ (Or.inr hAllowed)
      · exact alike o (Or.inr hMay)
  | _ => exact alike o hMay

/-- Two programs that make one request each are in step when the same replies come to the same
outcomes. The request itself is made in the same turn by both. -/
theorem inStep_of_asking {c d : Config engineSig α} (asks : Asks p answer) (asksOther : Asks q other)
    (start : AskingAlike behaves p q answer other c d) :
    InStep (repliesWith behaves) id OutcomesAgree c d := by
  refine InStep.of_simulation start ?_ ?_ ?_
  · rintro _ _ (⟨same, _⟩ | ⟨value, same⟩)
    · exact ⟨same, asksOther.running.trans asks.running.symm⟩
    · exact ⟨same, rfl⟩
  · rintro _ _ (@⟨σ, τ, _, _⟩ | ⟨value, same⟩) choice hSome
    · refine ⟨choice, rfl, ?_⟩
      cases choice with
      | env e => rfl
      | turn move =>
          cases asksOther.only τ move hSome
          exact Option.isSome_iff_exists.mpr ⟨_, asks.answered σ⟩
    · cases choice with
      | env e => exact ⟨.env e, rfl, rfl⟩
      | turn move => cases hSome
  · rintro _ _ (@⟨σ, τ, same, alike⟩ | ⟨value, same⟩) choice hAllowed c' hChoose
    · cases choice with
      | env e =>
          cases hChoose
          exact ⟨_, rfl, .disturb same alike hAllowed⟩
      | turn move =>
          cases asks.only σ move (Option.isSome_iff_exists.mpr ⟨_, hChoose⟩)
          cases (asks.answered σ).symm.trans hChoose
          refine ⟨_, asksOther.answered τ, ?_⟩
          rw [same.world, alike _ (Or.inl rfl)]
          exact .returned _ same
    · cases choice with
      | env e =>
          cases hChoose
          exact ⟨_, rfl, .returned value (same.mapWorld (OwsRuntime.disturb e))⟩
      | turn move => cases hChoose

/-- Two programs that ask are in step just if they make the same of every answer that they
may get. -/
theorem inStep_asks_iff (asks : Asks p answer) (asksOther : Asks q other) (same : SameEffects σ τ) :
    InStep (repliesWith behaves) id OutcomesAgree (p, σ) (q, τ) ↔
      ∀ o, o = σ.world.oracle ∨ behaves o → answer o = other o := by
  refine ⟨fun inStep o hMay => ?_, fun alike => inStep_of_asking asks asksOther (.waiting same alike)⟩
  rcases hMay with rfl | hMay
  · obtain ⟨d, hReached, agree, _⟩ := inStep _ _ (by simp [repliesWith]) (asks.run_now σ)
    cases (asksOther.run_now τ).symm.trans hReached
    have hOutcome := (Option.some.inj agree.outcome).symm
    rwa [same.world] at hOutcome
  · obtain ⟨d, hReached, agree, _⟩ := inStep _ _ (by simp [repliesWith, hMay]) (asks.run_later σ o)
    cases (asksOther.run_later τ o).symm.trans hReached
    exact (Option.some.inj agree.outcome).symm

/-- What a call comes to within its turn: it fails, or it asks and returns what it makes of the
answer. -/
abbrev Plan := Except WorkflowError (Oracle → Except WorkflowError Value)

/-- A turn from the first state on has come to what is planned. -/
inductive ComesTo (σ : EngineState) : Config engineSig (Except WorkflowError Value) → Plan → Prop
  | failed {τ : EngineState} (e : WorkflowError) (same : SameEffects σ τ) :
      ComesTo σ (.done (.error e), τ) (.error e)
  | asking {p : Future (Except WorkflowError Value)} {answer : Oracle → Except WorkflowError Value}
      {τ : EngineState} (asks : Asks p answer) (same : SameEffects σ τ) : ComesTo σ (p, τ) (.ok answer)

theorem ComesTo.of_same {c : Config engineSig (Except WorkflowError Value)} {plan : Plan}
    (comes : ComesTo τ c plan) (same : SameEffects σ τ) : ComesTo σ c plan := by
  cases comes with
  | failed e later => exact .failed e (same.trans later)
  | asking asks later => exact .asking asks (same.trans later)

/-- Two plans fail alike, or make the same of all the answers they may get. -/
def Plan.Alike (may : Oracle → Prop) : Plan → Plan → Prop
  | .error e, .error other => e = other
  | .ok answer, .ok other => ∀ o, may o → answer o = other o
  | _, _ => False

/-- What has come to plans that are alike goes in step, and nothing else does. -/
theorem ComesTo.inStep_iff {c d : Config engineSig (Except WorkflowError Value)} {plan second : Plan}
    (left : ComesTo σ c plan) (right : ComesTo σ d second) :
    InStep (repliesWith behaves) id OutcomesAgree c d ↔
      plan.Alike (fun o => o = σ.world.oracle ∨ behaves o) second := by
  cases left with
  | failed e same =>
      cases right with
      | failed other sameOther =>
          constructor
          · intro inStep
            obtain ⟨d, hReached, agree, _⟩ := inStep [] _ (by simp) rfl
            cases hReached
            cases agree.outcome
            rfl
          · rintro rfl
            exact inStep_done (fun _ => rfl) (same.symm.trans sameOther) (Except.error e)
      | asking asks sameOther =>
          refine ⟨fun inStep => ?_, False.elim⟩
          obtain ⟨d, hReached, agree, _⟩ := inStep [] _ (by simp) rfl
          cases hReached
          cases asks.running.symm.trans agree.outcome
  | @asking p answer τ asks same =>
      cases right with
      | failed other sameOther =>
          refine ⟨fun inStep => ?_, False.elim⟩
          obtain ⟨d, hReached, agree, _⟩ := inStep [] _ (by simp) rfl
          cases hReached
          cases agree.outcome.trans asks.running
      | asking asksOther sameOther =>
          rw [inStep_asks_iff asks asksOther (same.symm.trans sameOther), same.world]
          rfl

end Asking

end OwsRuntime
