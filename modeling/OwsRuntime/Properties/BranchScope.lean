import OwsRuntime.Engine.Agreement
import OwsRuntime.Engine.Directives
import OwsRuntime.Engine.Rounds
import OwsRuntime.Engine.Runs
import OwsRuntime.Properties.ParallelBound

/-! A fork branch against a scope with its task alone. The branch runs the task itself, without
what the loop over a scope does around it, so that the two go in step only where that comes to
nothing. -/
namespace OwsRuntime

open Async
open Async.Handler (Ends Follows InStep under)

variable {env : RuntimeInner} {r : Runner} {wf : CompiledWorkflow} {ctx : ExecContext}
  {task : CompiledTask} {input : Value} {allowed : engine.Choice → Prop}

section Directives

/-- A scope sets the flag of the workflow with `end`. -/
theorem afterTask_end {fuel : Nat} {exec : TaskExec} {σ : EngineState}
    (hDirective : finalDirective task exec = .end_) :
    ∃ τ, SameEffects { σ with shared := { σ.shared with ended := true } } τ ∧
      engine.advance (afterTask env r wf ctx [task] none fuel 0 task exec).run σ =
        (.done (.ok exec.output), τ) := by
  rw [afterTask, hDirective]
  exact ⟨_, .note _ .ended, rfl⟩

/-- A scope with one task goes back to it. -/
theorem afterTask_again {fuel : Nat} {exec : TaskExec} {σ : EngineState}
    (hDirective : finalDirective task exec = .goto task.name) :
    engine.advance (afterTask env r wf ctx [task] none fuel 0 task exec).run σ =
      engine.advance (scopeLoop env r wf ctx [task] none fuel 0 exec.output).run
        (EngineState.note σ (.moved [task] 0 0)) := by
  have hFound : [task].findIdx? (fun t => t.name = task.name) = some 0 := by simp
  rw [afterTask, hDirective, followDirective, hFound]
  dsimp only
  rw [bind_assoc, advance_note]
  rfl

/-- A scope with one task has no other one. -/
theorem afterTask_unknown {fuel : Nat} {exec : TaskExec} {σ : EngineState} {name : String}
    (hDirective : finalDirective task exec = .goto name) (hOther : task.name ≠ name) :
    ∃ τ, engine.advance (afterTask env r wf ctx [task] none fuel 0 task exec).run σ =
      (.done (.error (unknownTargetError ctx name)), τ) := by
  have hFound : [task].findIdx? (fun t => t.name = name) = none := by simp [hOther]
  rw [afterTask, hDirective, followDirective, hFound]
  exact ⟨_, rfl⟩

end Directives

section Rounds

/-- The state in which a scope with one task runs it. -/
def EngineState.admitting (σ : EngineState) (task : CompiledTask) : EngineState :=
  EngineState.note σ (.admitted [task] 0)

/-- The task of a scope, from the state in which the scope has come to it. -/
def taskStart (env : RuntimeInner) (r : Runner) (wf : CompiledWorkflow) (ctx : ExecContext)
    (task : CompiledTask) (input : Value) (σ : EngineState) :
    Config engineSig (Except WorkflowError TaskExec) :=
  engine.advance (execTask env r wf ctx task input σ.shared.trace.length).run (σ.admitting task)

/-- The alarm under which a scope runs its task, if there is one. -/
def taskAlarm (ctx : ExecContext) (task : CompiledTask) : Option Alarm :=
  (task.timeout.or ctx.timeout).map .timer

/-- What a scope makes of the task under its alarm. -/
def afterAlarm (ctx : ExecContext) (task : CompiledTask) :
    Option (Except WorkflowError TaskExec) → Future (Except WorkflowError TaskExec)
  | some result => Program.done result
  | none => Program.done (.error ((WorkflowError.timeout (some task.reference)).withExecution
      ctx.executionId))

theorem advance_execTimed_under (σ : EngineState) :
    engine.advance (execTimed env r wf ctx task input σ.shared.trace.length).run (σ.admitting task) =
      under engine (taskAlarm ctx task) (afterAlarm ctx task)
        (taskStart env r wf ctx task input σ) := by
  unfold execTimed taskAlarm
  cases task.timeout.or ctx.timeout with
  | none => rfl
  | some duration =>
      refine (engine.advance_race _ _ _ _).trans ?_
      congr 1
      funext result
      cases result <;> rfl

/-- A scope that runs its task goes on after it, unless the task fails. -/
theorem advance_round {rounds : Nat} {σ : EngineState} (hNot : σ.world.cancelled = false)
    (hGoes : σ.shared.ended = false) :
    engine.advance (scopeLoop env r wf ctx [task] none (rounds + 1) 0 input).run σ =
      engine.continueWith (ExceptT.bindCont (afterTask env r wf ctx [task] none rounds 0 task))
        (under engine (taskAlarm ctx task) (afterAlarm ctx task)
          (taskStart env r wf ctx task input σ)) := by
  rw [scopeLoop_task hNot hGoes rfl, ← advance_execTimed_under]
  exact engine.advance_bind _ _ _

/-- A round that returns within its turn has run a task which has done so. -/
theorem taskStart_of_round {rounds : Nat} {σ τ : EngineState} {output : Value}
    (hRound : engine.continueWith
      (ExceptT.bindCont (afterTask env r wf ctx [task] none rounds 0 task))
      (under engine (taskAlarm ctx task) (afterAlarm ctx task)
        (taskStart env r wf ctx task input σ)) = (.done (.ok output), τ)) :
    ∃ exec φ, taskStart env r wf ctx task input σ = (.done (.ok exec), φ) ∧
      engine.advance (afterTask env r wf ctx [task] none rounds 0 task exec).run φ =
        (.done (.ok output), τ) := by
  generalize taskStart env r wf ctx task input σ = c at hRound
  cases hValue : c.1.value? with
  | none =>
      have hRunning := @Handler.value?_continueWith _ _ _ engine
        (ExceptT.bindCont (afterTask env r wf ctx [task] none rounds 0 task))
        _ (@Handler.value?_under _ _ engine (taskAlarm ctx task) (afterAlarm ctx task) c hValue)
      rw [hRound] at hRunning
      cases hRunning
  | some result =>
      obtain ⟨p, φ⟩ := c
      cases Program.eq_done_of_value? hValue
      rw [Handler.under_done (fun _ => rfl), Handler.continueWith_done] at hRound
      cases result with
      | error e => cases hRound
      | ok exec => exact ⟨exec, φ, rfl, hRound⟩

end Rounds

section Settling

/-- What a scope still does after its task, within the turn, comes to this output and to the
effects of this state. So many rounds are left for it. -/
inductive Settles (env : RuntimeInner) (r : Runner) (wf : CompiledWorkflow) (ctx : ExecContext)
    (task : CompiledTask) (output : Value) (υ : EngineState) : Nat → EngineState → TaskExec → Prop
  | next {rounds : Nat} {φ : EngineState} {exec : TaskExec}
      (hDirective : finalDirective task exec = .continue_) (hNot : φ.world.cancelled = false)
      (hOutput : exec.output = output) (same : SameEffects φ υ) :
      Settles env r wf ctx task output υ (rounds + 1) φ exec
  | exit {rounds : Nat} {φ : EngineState} {exec : TaskExec}
      (hDirective : finalDirective task exec = .exit)
      (hOutput : exec.output = output) (same : SameEffects φ υ) :
      Settles env r wf ctx task output υ rounds φ exec
  | ended {rounds : Nat} {φ : EngineState} {exec : TaskExec}
      (hDirective : finalDirective task exec = .end_) (hOutput : exec.output = output)
      (same : SameEffects { φ with shared := { φ.shared with ended := true } } υ) :
      Settles env r wf ctx task output υ rounds φ exec
  | stopped {rounds : Nat} {φ : EngineState} {exec : TaskExec}
      (hDirective : finalDirective task exec = .goto task.name)
      (hNot : φ.world.cancelled = false) (hEnded : φ.shared.ended = true)
      (hOutput : exec.output = output) (same : SameEffects φ υ) :
      Settles env r wf ctx task output υ (rounds + 1) φ exec
  | again {rounds : Nat} {φ ψ : EngineState} {exec later : TaskExec}
      (hDirective : finalDirective task exec = .goto task.name)
      (hNot : φ.world.cancelled = false) (hGoes : φ.shared.ended = false)
      (hRun : taskStart env r wf ctx task exec.output (EngineState.note φ (.moved [task] 0 0)) =
        (.done (.ok later), ψ))
      (rest : Settles env r wf ctx task output υ rounds ψ later) :
      Settles env r wf ctx task output υ (rounds + 1) φ exec

variable {output : Value} {υ φ τ : EngineState} {rounds : Nat} {exec : TaskExec}

/-- Where a scope settles after its task, it returns within the turn, with this output and to these
effects. The induction is on the rounds that are left. -/
theorem Settles.returns (settles : Settles env r wf ctx task output υ rounds φ exec) :
    ∃ τ, SameEffects υ τ ∧
      engine.advance (afterTask env r wf ctx [task] none rounds 0 task exec).run φ =
        (.done (.ok output), τ) := by
  induction settles with
  | next hDirective hNot hOutput same =>
      subst hOutput
      refine ⟨_, same.symm.trans (.note _ (.moved [task] 0 (0 + 1))), ?_⟩
      rw [afterTask_continue hDirective]
      exact scopeLoop_over hNot (Or.inr rfl)
  | exit hDirective hOutput same =>
      subst hOutput
      exact ⟨_, same.symm.trans (.mapLocal _ _), afterTask_exit hDirective⟩
  | ended hDirective hOutput same =>
      subst hOutput
      obtain ⟨τ, hEffects, hEnd⟩ := afterTask_end hDirective
      exact ⟨τ, same.symm.trans hEffects, hEnd⟩
  | stopped hDirective hNot hEnded hOutput same =>
      subst hOutput
      refine ⟨_, same.symm.trans (.note _ (.moved [task] 0 0)), ?_⟩
      rw [afterTask_again hDirective]
      exact scopeLoop_over hNot (Or.inl hEnded)
  | @again rounds φ ψ exec later hDirective hNot hGoes hRun rest ih =>
      obtain ⟨τ, same, hLater⟩ := ih
      refine ⟨τ, same, (afterTask_again hDirective).trans ?_⟩
      have hRound := @advance_round env r wf ctx task exec.output rounds
        (EngineState.note φ (.moved [task] 0 0)) hNot hGoes
      rw [hRound, hRun, Handler.under_done (fun _ => rfl)]
      exact hLater

/-- Whether a scope goes to its end, after the task or with it, or to the end of the workflow. -/
theorem settles_of_forward (hForward : ∀ name, finalDirective task exec ≠ .goto name)
    (same : SameEffects υ τ)
    (hAfter : engine.advance (afterTask env r wf ctx [task] none rounds 0 task exec).run φ =
      (.done (.ok output), τ)) : Settles env r wf ctx task output υ rounds φ exec := by
  cases hDirective : finalDirective task exec with
  | goto name => exact absurd hDirective (hForward name)
  | exit =>
      rw [afterTask_exit hDirective] at hAfter
      cases hAfter
      exact .exit hDirective rfl ((SameEffects.mapLocal φ _).trans same.symm)
  | end_ =>
      obtain ⟨ψ, hEffects, hEnd⟩ := @afterTask_end env r wf ctx task rounds exec φ hDirective
      cases hEnd.symm.trans hAfter
      exact .ended hDirective rfl (hEffects.trans same.symm)
  | continue_ =>
      rw [afterTask_continue hDirective] at hAfter
      cases rounds with
      | zero => cases hAfter
      | succ rounds =>
          cases hCancelled : φ.world.cancelled with
          | true =>
              have hStop : (EngineState.note φ (.moved [task] 0 (0 + 1))).world.cancelled = true :=
                hCancelled
              rw [scopeLoop_cancelled hStop] at hAfter
              cases hAfter
          | false =>
              have hGoes : (EngineState.note φ (.moved [task] 0 (0 + 1))).world.cancelled = false :=
                hCancelled
              rw [scopeLoop_over hGoes (Or.inr rfl)] at hAfter
              cases hAfter
              exact .next hDirective hCancelled rfl ((SameEffects.note φ _).trans same.symm)

/-- A scope that returns within the turn has settled, or goes back to its task. -/
theorem settles_or_again (same : SameEffects υ τ)
    (hAfter : engine.advance (afterTask env r wf ctx [task] none rounds 0 task exec).run φ =
      (.done (.ok output), τ)) :
    Settles env r wf ctx task output υ rounds φ exec ∨
      finalDirective task exec = .goto task.name ∧
        engine.advance (scopeLoop env r wf ctx [task] none rounds 0 exec.output).run
          (EngineState.note φ (.moved [task] 0 0)) = (.done (.ok output), τ) := by
  by_cases hForward : ∀ name, finalDirective task exec ≠ .goto name
  · exact Or.inl (settles_of_forward hForward same hAfter)
  simp only [ne_eq, not_forall, not_not] at hForward
  obtain ⟨name, hDirective⟩ := hForward
  by_cases hOwn : task.name = name
  · subst hOwn
    exact Or.inr ⟨hDirective, (afterTask_again hDirective).symm.trans hAfter⟩
  · obtain ⟨ψ, hUnknown⟩ := @afterTask_unknown env r wf ctx task rounds exec φ name hDirective hOwn
    cases hUnknown.symm.trans hAfter

/-- What a scope does after its task settles if it returns within the turn. The induction is on
the rounds that are left, of which a scope takes one whenever it goes back to the task. -/
theorem settles_of_returns (same : SameEffects υ τ)
    (hAfter : engine.advance (afterTask env r wf ctx [task] none rounds 0 task exec).run φ =
      (.done (.ok output), τ)) : Settles env r wf ctx task output υ rounds φ exec := by
  induction rounds generalizing φ exec with
  | zero =>
      rcases settles_or_again same hAfter with settles | ⟨_, hLoop⟩
      · exact settles
      · cases hLoop
  | succ rounds ih =>
      rcases settles_or_again same hAfter with settles | ⟨hDirective, hLoop⟩
      · exact settles
      cases hCancelled : φ.world.cancelled with
      | true =>
          have hStop : (EngineState.note φ (.moved [task] 0 0)).world.cancelled = true := hCancelled
          rw [scopeLoop_cancelled hStop] at hLoop
          cases hLoop
      | false =>
          have hNot : (EngineState.note φ (.moved [task] 0 0)).world.cancelled = false := hCancelled
          cases hEnded : φ.shared.ended with
          | true =>
              have hOver : (EngineState.note φ (.moved [task] 0 0)).shared.ended = true := hEnded
              rw [scopeLoop_over hNot (Or.inl hOver)] at hLoop
              cases hLoop
              exact .stopped hDirective hCancelled hEnded rfl ((SameEffects.note φ _).trans same.symm)
          | false =>
              have hGoes : (EngineState.note φ (.moved [task] 0 0)).shared.ended = false := hEnded
              rw [advance_round hNot hGoes] at hLoop
              obtain ⟨later, ψ, hRun, hLater⟩ := taskStart_of_round hLoop
              exact .again hDirective hCancelled hEnded hRun (ih hLater)

end Settling

section Branches

/-- What a branch makes of the result of its task. -/
def branchEnd (task : CompiledTask) :
    Except WorkflowError TaskExec → Future (Except WorkflowError Value)
  | .ok exec => do
      noteBranch task exec
      return .ok exec.output
  | .error e => return .error e

theorem branchEnd_returns (result : Except WorkflowError TaskExec) (φ : EngineState) :
    ∃ τ, SameEffects φ τ ∧
      engine.advance (branchEnd task result) φ = (.done (result.map TaskExec.output), τ) := by
  cases result with
  | error e => exact ⟨φ, .refl φ, rfl⟩
  | ok exec =>
      unfold branchEnd noteBranch
      dsimp only
      split
      · exact ⟨_, .note φ .branchEnded, rfl⟩
      · exact ⟨φ, .refl φ, rfl⟩

/-- A scope with the task alone, from the state in which it starts. -/
def scopeStart (env : RuntimeInner) (fuel : Nat) (wf : CompiledWorkflow) (ctx : ExecContext)
    (task : CompiledTask) (input : Value) (σ : EngineState) :
    Config engineSig (Except WorkflowError Value) :=
  engine.advance ((runner env fuel).scope wf ctx [task] input).run σ

/-- From the turn in which it starts on, the branch goes in step with a scope with its task
alone: both wait together, return together and return the same with the same effects, and
nothing else can act on the scope. The task of the branch has just been admitted, as a scope
would have done; the scope runs it under its alarm, if it has one. -/
def BehavesAsScope (allowed : engine.Choice → Prop) (env : RuntimeInner) (fuel : Nat)
    (wf : CompiledWorkflow) (ctx : ExecContext) (task : CompiledTask) (input : Value)
    (σ : EngineState) : Prop :=
  ∃ c, engine.choose (runBranch (runner env fuel) wf ctx task input σ.shared.trace.length,
      σ.admitting task) (.turn .here) = some c ∧
    InStep allowed (·.under (taskAlarm ctx task)) OutcomesAgree c
      (scopeStart env fuel wf ctx task input σ)

/-- What the task does is all that a scope with it would do. In a cancelled execution it fails
at once as the scope does, and in one that is over it is passed over; otherwise no alarm can
go off while it runs, and whenever it returns the scope has nothing to add. -/
inductive ScopeAddsNothing (allowed : engine.Choice → Prop) (env : RuntimeInner) (r : Runner)
    (wf : CompiledWorkflow) (ctx : ExecContext) (task : CompiledTask) (input : Value)
    (rounds : Nat) (σ : EngineState) : Prop
  | refused {τ : EngineState} (hCancelled : σ.world.cancelled = true)
      (hTask : taskStart env r wf ctx task input σ = (.done (.error ctx.cancelledError), τ))
      (same : SameEffects σ τ)
  | passed {exec : TaskExec} {τ : EngineState} (hNot : σ.world.cancelled = false)
      (hEnded : σ.shared.ended = true)
      (hTask : taskStart env r wf ctx task input σ = (.done (.ok exec), τ))
      (hOutput : exec.output = input) (same : SameEffects σ τ)
  | ran (hNot : σ.world.cancelled = false) (hGoes : σ.shared.ended = false)
      (untimed : ∀ e, Follows allowed (taskStart env r wf ctx task input σ) e →
        e.1.value? = none → (taskAlarm ctx task).isSome → engine.droppable e.1 = false)
      (settles : ∀ exec φ, Ends allowed (taskStart env r wf ctx task input σ) (.ok exec) φ →
        Settles env r wf ctx task exec.output φ rounds φ exec)

variable {fuel : Nat} {σ : EngineState}

theorem runBranch_turn :
    engine.choose (runBranch (runner env (fuel + 1)) wf ctx task input σ.shared.trace.length,
      σ.admitting task) (.turn .here) =
        some (engine.continueWith (branchEnd task)
          (taskStart env (runner env fuel) wf ctx task input σ)) := by
  have hBody : branchBody (runner env (fuel + 1)) wf ctx task input σ.shared.trace.length =
      (execTask env (runner env fuel) wf ctx task input σ.shared.trace.length).run.bind
        (branchEnd task) := by
    refine congrArg (Program.bind _) (funext fun result => ?_)
    cases result <;> rfl
  show some (engine.advance (branchBody _ wf ctx task input _) _) = _
  rw [hBody, engine.advance_bind]
  rfl

theorem under_env (alarm : Option Alarm) (e : engine.Env) :
    (Handler.Choice.env e : engine.Choice).under alarm = .env e := by
  cases alarm <;> rfl

/-- The branch and the scope both wait for the task, or both have returned the same. -/
inductive Together (allowed : engine.Choice → Prop) (env : RuntimeInner) (r : Runner)
    (wf : CompiledWorkflow) (ctx : ExecContext) (task : CompiledTask) (rounds : Nat)
    (start : Config engineSig (Except WorkflowError TaskExec)) :
    Config engineSig (Except WorkflowError Value) →
      Config engineSig (Except WorkflowError Value) → Prop
  | waiting {e : Config engineSig (Except WorkflowError TaskExec)}
      (follows : Follows allowed start e) (running : e.1.value? = none) :
      Together allowed env r wf ctx task rounds start (engine.continueWith (branchEnd task) e)
        (engine.continueWith (ExceptT.bindCont (afterTask env r wf ctx [task] none rounds 0 task))
          (under engine (taskAlarm ctx task) (afterAlarm ctx task) e))
  | returned {σ τ : EngineState} (value : Except WorkflowError Value) (same : SameEffects σ τ) :
      Together allowed env r wf ctx task rounds start (.done value, σ) (.done value, τ)

/-- While the task is under way the branch and the scope wait for it, and when it returns what
the scope still does comes to nothing. -/
theorem together_of_task {rounds : Nat}
    {start e : Config engineSig (Except WorkflowError TaskExec)}
    (settles : ∀ exec φ, Ends allowed start (.ok exec) φ →
      Settles env r wf ctx task exec.output φ rounds φ exec)
    (waiting : e.1.value? = none → Follows allowed start e)
    (returned : ∀ result φ, e = (.done result, φ) → Ends allowed start result φ) :
    Together allowed env r wf ctx task rounds start (engine.continueWith (branchEnd task) e)
      (engine.continueWith (ExceptT.bindCont (afterTask env r wf ctx [task] none rounds 0 task))
        (under engine (taskAlarm ctx task) (afterAlarm ctx task) e)) := by
  cases hValue : e.1.value? with
  | none => exact .waiting (waiting hValue) hValue
  | some result =>
      obtain ⟨p, φ⟩ := e
      cases Program.eq_done_of_value? hValue
      rw [Handler.under_done (fun _ => rfl), Handler.continueWith_done, Handler.continueWith_done]
      obtain ⟨τ, sameBranch, hBranch⟩ := @branchEnd_returns task result φ
      rw [hBranch]
      cases result with
      | error error => exact .returned (.error error) sameBranch.symm
      | ok exec =>
          obtain ⟨υ, sameScope, hScope⟩ := (settles exec φ (returned _ φ rfl)).returns
          have hAfter : engine.advance (ExceptT.bindCont
              (afterTask env r wf ctx [task] none rounds 0 task) (.ok exec)) φ =
                (.done (.ok exec.output), υ) := hScope
          rw [hAfter]
          exact .returned (.ok exec.output) (sameBranch.symm.trans sameScope)

/-- A task that runs without an alarm and settles keeps the branch and the scope in step. -/
theorem inStep_of_settles {rounds : Nat} {start : Config engineSig (Except WorkflowError TaskExec)}
    (untimed : ∀ e, Follows allowed start e → e.1.value? = none → (taskAlarm ctx task).isSome →
      engine.droppable e.1 = false)
    (settles : ∀ exec φ, Ends allowed start (.ok exec) φ →
      Settles env r wf ctx task exec.output φ rounds φ exec) :
    InStep allowed (·.under (taskAlarm ctx task)) OutcomesAgree
      (engine.continueWith (branchEnd task) start)
      (engine.continueWith (ExceptT.bindCont (afterTask env r wf ctx [task] none rounds 0 task))
        (under engine (taskAlarm ctx task) (afterAlarm ctx task) start)) := by
  have hStart := together_of_task settles (fun _ => .refl start) fun _ _ hDone => .of_eq hDone
  refine InStep.of_simulation hStart ?_ ?_ ?_
  · rintro _ _ (@⟨e, follows, running⟩ | ⟨value, same⟩)
    · have hScope := @Handler.value?_under _ _ engine (taskAlarm ctx task) (afterAlarm ctx task) e
        running
      refine ⟨?_, ?_⟩
      · rw [engine.continueWith_of_none _ running, engine.continueWith_of_none _ hScope]
        have hState : (under engine (taskAlarm ctx task) (afterAlarm ctx task) e).2 = e.2 :=
          Handler.under_state running
        exact hState ▸ .refl e.2
      · rw [Handler.value?_continueWith _ running, Handler.value?_continueWith _ hScope]
    · exact ⟨same, rfl⟩
  · rintro _ _ (@⟨e, follows, running⟩ | ⟨value, same⟩) choice hSome
    · rw [Handler.choose_continueWith _ (Handler.value?_under running), Option.isSome_map] at hSome
      rcases Handler.choose_under_cases running hSome with ⟨x, rfl, hTask⟩ | ⟨hAlarm, hDrop⟩
      · refine ⟨x, rfl, ?_⟩
        rw [Handler.choose_continueWith _ running, Option.isSome_map]
        exact hTask
      · rw [untimed e follows running hAlarm] at hDrop
        cases hDrop
    · cases choice with
      | env e => exact ⟨.env e, (under_env _ e).symm, rfl⟩
      | turn move => cases hSome
  · rintro _ _ (@⟨e, follows, running⟩ | ⟨value, same⟩) x hAllowed c' hChoose
    · rw [Handler.choose_continueWith _ running, Option.map_eq_some_iff] at hChoose
      obtain ⟨e', hTask, rfl⟩ := hChoose
      refine ⟨_, ?_, together_of_task settles
        (fun _ => follows.trans (.head hAllowed hTask (.refl e'))) fun result φ hDone => ?_⟩
      · rw [Handler.choose_continueWith _ (Handler.value?_under running),
          Handler.choose_under running hTask]
        rfl
      · exact follows.ends_step running hAllowed (hDone ▸ hTask)
    · cases x with
      | env e =>
          cases hChoose
          exact ⟨_, by rw [under_env]; rfl, .returned value (same.mapWorld (disturb e))⟩
      | turn move => cases hChoose

theorem scopeStart_round (hNot : σ.world.cancelled = false) (hGoes : σ.shared.ended = false) :
    scopeStart env (fuel + 3) wf ctx task input σ =
      engine.continueWith
        (ExceptT.bindCont (afterTask env (runner env (fuel + 2)) wf ctx [task] none (fuel + 1) 0 task))
        (under engine (taskAlarm ctx task) (afterAlarm ctx task)
          (taskStart env (runner env (fuel + 2)) wf ctx task input σ)) :=
  advance_round hNot hGoes

theorem scopeStart_refused (hCancelled : σ.world.cancelled = true) :
    scopeStart env (fuel + 2) wf ctx task input σ =
      (.done (.error ctx.cancelledError), σ.stopped) :=
  scopeLoop_cancelled hCancelled

theorem scopeStart_passed (hNot : σ.world.cancelled = false) (hEnded : σ.shared.ended = true) :
    scopeStart env (fuel + 2) wf ctx task input σ = (.done (.ok input), σ) :=
  scopeLoop_over hNot (Or.inl hEnded)

/-- A branch that returns within its turn has run a task which has done so. -/
theorem taskStart_of_branch {start : Config engineSig (Except WorkflowError TaskExec)}
    {outcome : Except WorkflowError Value} {τ : EngineState}
    (agree : OutcomesAgree (engine.continueWith (branchEnd task) start) (.done outcome, τ)) :
    ∃ result φ, start = (.done result, φ) ∧ result.map TaskExec.output = outcome ∧
      SameEffects τ φ := by
  cases hValue : start.1.value? with
  | none =>
      have hRunning := agree.outcome
      rw [Handler.value?_continueWith _ hValue] at hRunning
      cases hRunning
  | some result =>
      obtain ⟨p, φ⟩ := start
      cases Program.eq_done_of_value? hValue
      obtain ⟨υ, same, hEnd⟩ := @branchEnd_returns task result φ
      rw [Handler.continueWith_done, hEnd] at agree
      cases agree.outcome
      exact ⟨result, φ, rfl, rfl, agree.effects.symm.trans same.symm⟩

/-- In step with the scope, the task of a branch never waits where an alarm of the scope could
drop it. -/
theorem untimed_of_inStep {rounds : Nat} {start : Config engineSig (Except WorkflowError TaskExec)}
    (inStep : InStep allowed (·.under (taskAlarm ctx task)) OutcomesAgree
      (engine.continueWith (branchEnd task) start)
      (engine.continueWith (ExceptT.bindCont (afterTask env r wf ctx [task] none rounds 0 task))
        (under engine (taskAlarm ctx task) (afterAlarm ctx task) start)))
    {e : Config engineSig (Except WorkflowError TaskExec)} (follows : Follows allowed start e)
    (running : e.1.value? = none) (hAlarm : (taskAlarm ctx task).isSome) :
    engine.droppable e.1 = false := by
  obtain ⟨choices, hChoices, hRun⟩ := follows
  obtain ⟨d, hScope, _, hOnly⟩ :=
    inStep choices _ hChoices (Handler.run_continueWith (branchEnd task) hRun running)
  rw [Handler.run_continueWith _ (Handler.run_under hRun running)
    (Handler.value?_under running)] at hScope
  cases hScope
  cases hDrop : engine.droppable e.1 with
  | false => rfl
  | true =>
      unfold taskAlarm at hOnly hAlarm
      cases hDuration : task.timeout.or ctx.timeout with
      | none =>
          rw [hDuration] at hAlarm
          cases hAlarm
      | some duration =>
          rw [hDuration] at hOnly
          have hExpire := @Handler.choose_expire _ _ engine (afterAlarm ctx task) e (.timer duration)
            running rfl hDrop
          -- The scope can time out, and no choice for the branch is that one.
          obtain ⟨x, hLift, _⟩ := hOnly (.turn .expire) (by
            rw [Handler.choose_continueWith _ (Handler.value?_under running), Option.isSome_map]
            exact hExpire)
          cases x <;> cases hLift

/-- In step with the branch, the scope settles whenever the task has returned. -/
theorem settles_of_inStep {rounds : Nat} {start : Config engineSig (Except WorkflowError TaskExec)}
    (inStep : InStep allowed (·.under (taskAlarm ctx task)) OutcomesAgree
      (engine.continueWith (branchEnd task) start)
      (engine.continueWith (ExceptT.bindCont (afterTask env r wf ctx [task] none rounds 0 task))
        (under engine (taskAlarm ctx task) (afterAlarm ctx task) start)))
    {exec : TaskExec} {φ : EngineState} (ends : Ends allowed start (.ok exec) φ) :
    Settles env r wf ctx task exec.output φ rounds φ exec := by
  obtain ⟨choices, hChoices, hRun⟩ :=
    @Ends.run_under _ _ _ _ (taskAlarm ctx task) (afterAlarm ctx task) (fun _ => rfl) _ _ _ ends
  obtain ⟨hBranch, hScope⟩ := hRun (branchEnd task)
    (ExceptT.bindCont (afterTask env r wf ctx [task] none rounds 0 task))
  obtain ⟨⟨p, υ⟩, hReached, agree, _⟩ := inStep choices _ hChoices hBranch
  obtain ⟨τ, same, hEnd⟩ := @branchEnd_returns task (.ok exec) φ
  rw [hEnd] at agree
  cases Program.eq_done_of_value? agree.outcome
  exact settles_of_returns (same.trans agree.effects) (Option.some.inj (hScope.symm.trans hReached))

/-- The directive which a scope follows after a task that has succeeded is one of the task's. -/
theorem finalDirective_of_ends {exec : TaskExec} {φ : EngineState}
    (ends : Ends allowed (taskStart env r wf ctx task input σ) (.ok exec) φ) :
    finalDirective task exec ∈ task.directives := by
  have hLeaves := @execTask_chooses env r wf ctx task input σ.shared.trace.length
    (σ.admitting task).loc
  have follows : Follows allowed (engine.advance (execTask env r wf ctx task input
      σ.shared.trace.length).run (σ.admitting task)) (.done (.ok exec), φ) := ends.follows
  exact finalDirective_mem ((hLeaves.follows trivial follows).2.1 _ rfl exec rfl)

/-- The scope adds nothing, whatever the choices, to a task that has no timeout and that is
followed by the next one or by the end of the scope, if the execution is neither cancelled nor
over when it starts, nor cancelled by the time it returns. -/
theorem scopeAddsNothing_of_plain {rounds : Nat}
    (hTimeout : task.timeout = none ∧ ctx.timeout = none)
    (hDirectives : ∀ d ∈ task.directives, d = .continue_ ∨ d = .exit)
    (hNot : σ.world.cancelled = false) (hGoes : σ.shared.ended = false)
    (hLater : ∀ exec φ, Ends allowed (taskStart env r wf ctx task input σ) (.ok exec) φ →
      φ.world.cancelled = false) :
    ScopeAddsNothing allowed env r wf ctx task input (rounds + 1) σ := by
  refine .ran hNot hGoes (fun e _ _ hAlarm => ?_) fun exec φ ends => ?_
  · rw [taskAlarm, hTimeout.1, hTimeout.2] at hAlarm
    cases hAlarm
  · rcases hDirectives _ (finalDirective_of_ends ends) with hNext | hExit
    · exact .next hNext (hLater exec φ ends) rfl (.refl φ)
    · exact .exit hExit rfl (.refl φ)

end Branches

namespace Sample

/-- A branch that sets nothing. -/
def leaf : CompiledTask := Sample.task "leaf" none (.set (.map []))

def leafContext : ExecContext := executionContext runtime (workflow [] []) "id" .null 0

/-- Only the program acts, and nobody else. -/
def inTurn (choice : engine.Choice) : Prop := choice = .turn .here

theorem leaf_directives : ∀ d ∈ leaf.directives, d = .continue_ ∨ d = .exit := by
  intro d hMem
  exact Or.inl (List.mem_singleton.mp hMem)

/-- The task of the sample ends within its first turn, with the execution not cancelled. -/
theorem leaf_ends :
    ∃ result φ, φ.world.cancelled = false ∧ Ends inTurn
      (taskStart runtime (runner runtime 4) (workflow [] []) leafContext leaf .null
        (idle (workflow [] []) world)) result φ := by
  have hRun : (engine.run (taskStart runtime (runner runtime 4) (workflow [] []) leafContext leaf
      .null (idle (workflow [] []) world)) (List.replicate 6 (.turn .here))).bind
        (fun d => d.1.value?.map fun _ => d.2.world.cancelled) = some false := by decide +kernel
  obtain ⟨⟨p, φ⟩, hReached, hValue⟩ := Option.bind_eq_some_iff.mp hRun
  obtain ⟨result, hDone, hCancelled⟩ := Option.map_eq_some_iff.mp hValue
  cases Program.eq_done_of_value? hDone
  have follows : Follows inTurn _ _ :=
    ⟨_, fun _ hMem => List.eq_of_mem_replicate hMem, hReached⟩
  obtain ⟨υ, ends, hDrift, hSame⟩ := follows.ends
  refine ⟨result, υ, ?_, ends⟩
  -- only the program acts in this run, so that the world is left as it is
  cases hDrift.cases_head with
  | inl hWorld => exact hWorld ▸ hCancelled
  | inr hMoved =>
      obtain ⟨_, ⟨e, hEnv, _⟩, _⟩ := hMoved
      cases hEnv

/-- The execution has been cancelled when the branch starts. -/
def cancelledIdle : EngineState :=
  idle (workflow [] []) { world with cancelled := true }

end Sample

end OwsRuntime
