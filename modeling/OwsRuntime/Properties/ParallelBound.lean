import OwsRuntime.Engine.Runs
import OwsRuntime.Properties.ForkJoin

/-! The limit of the policy on tasks that run in parallel. A fork spawns all its branches at
once, whatever the policy says. -/
namespace OwsRuntime

open Async
open Async.Handler (Awaits Joining)

/-- The branches which a fork has spawned and which have not finished. -/
def unfinished {count : Nat} {β : Type} (finished : List (Fin count × β)) : List (Fin count) :=
  (List.finRange count).filter fun i => ∀ branch ∈ finished, branch.1 ≠ i

/-- The program has not had a turn since it was spawned. -/
def awaitsStart {α : Type} : Program engineSig α → Bool
  | .act .spawned _ => true
  | _ => false

/-- The branches which have had a turn and have not finished. -/
def underway {count : Nat} {α β : Type} (branches : Fin count → Program engineSig α)
    (finished : List (Fin count × β)) : List (Fin count) :=
  (unfinished finished).filter fun i => !awaitsStart (branches i)

/-- In every state of every run, no more branches of the fork than the policy allows are
spawned and not finished. -/
def SpawnedWithin (env : RuntimeInner) (branches : List CompiledTask) (compete : Bool)
    (start : Config engineSig (Except WorkflowError Value)) : Prop :=
  ∀ d finished, engine.Reaches start d → ForkAwaits env branches compete finished d →
    (unfinished finished).length ≤ env.policy.maxParallelTasks

/-- In every state of every run, no more branches of the fork than the policy allows have had
a turn and are not finished. -/
def UnderwayWithin (env : RuntimeInner) (branches : List CompiledTask) (compete : Bool)
    (start : Config engineSig (Except WorkflowError Value)) : Prop :=
  ∀ locs under finished σ,
    engine.Reaches start (.par branches.length (forkNeed branches compete) locs under finished
      (forkOutcome env compete), σ) →
    (underway under finished).length ≤ env.policy.maxParallelTasks

section Counts

variable {count : Nat} {α β : Type} {branches : Fin count → Program engineSig α}
  {finished : List (Fin count × β)}

theorem unfinished_length_le : (unfinished finished).length ≤ count := by
  have hFilter := List.length_filter_le (fun i => decide (∀ branch ∈ finished, branch.1 ≠ i))
    (List.finRange count)
  simpa [unfinished] using hFilter

theorem unfinished_nil : (unfinished ([] : List (Fin count × β))).length = count := by
  simp [unfinished]

theorem underway_length_le : (underway branches finished).length ≤ count :=
  (List.length_filter_le _ _).trans unfinished_length_le

theorem underway_nil (hStarted : ∀ i, awaitsStart (branches i) = false) :
    (underway branches ([] : List (Fin count × β))).length = count := by
  simp [underway, unfinished, hStarted]

end Counts

section Turns

variable {env : RuntimeInner} {r : Runner} {wf : CompiledWorkflow} {ctx : ExecContext}
  {branches : List CompiledTask} {compete : Bool} {input : Value} {position : Nat}
  {σ : EngineState}

/-- What a fork branch runs once it has had its first turn. -/
def branchBody (r : Runner) (wf : CompiledWorkflow) (ctx : ExecContext) (task : CompiledTask)
    (input : Value) (ticket : Nat) : Future (Except WorkflowError Value) := do
  let result ← (r.task wf ctx task input ticket).run
  match result with
  | .ok exec =>
      noteBranch task exec
      return .ok exec.output
  | .error e => return .error e

theorem runBranch_eq (task : CompiledTask) :
    runBranch r wf ctx task input position =
      .act .spawned fun _ => branchBody r wf ctx task input position := rfl

/-- The first turn of the program ends before the program does. -/
def Suspends {α : Type} (p : Program engineSig α) : Prop :=
  ∀ σ, (engine.advance p σ).1.value? = none ∧ awaitsStart (engine.advance p σ).1 = false

/-- The first branches of a fork have had their first turn. -/
def Polled (env : RuntimeInner) (r : Runner) (wf : CompiledWorkflow) (ctx : ExecContext)
    (branches : List CompiledTask) (compete : Bool) (input : Value) (position k : Nat)
    (d : Config engineSig (Except WorkflowError Value)) : Prop :=
  ∃ locs under, d.1 = .par branches.length (forkNeed branches compete) locs under []
      (forkOutcome env compete) ∧
    (∀ i, i.val < k → awaitsStart (under i) = false) ∧
      ∀ i, k ≤ i.val → under i = runBranch r wf ctx (branches.get i) input position

/-- The next branch can take its first turn, whatever the number of those that have taken theirs,
and none of them has finished by that. -/
theorem Polled.turn {k : Nat} {d : Config engineSig (Except WorkflowError Value)}
    (hSuspends : ∀ task ∈ branches, Suspends (branchBody r wf ctx task input position))
    (polled : Polled env r wf ctx branches compete input position k d) (hBound : k < branches.length) :
    ∃ e, engine.choose d (.turn (.branch k .here)) = some e ∧
      Polled env r wf ctx branches compete input position (k + 1) e := by
  obtain ⟨p, σ⟩ := d
  obtain ⟨locs, under, rfl, hStarted, hSpawned⟩ := polled
  have hFirst : ∃ c, engine.step (under ⟨k, hBound⟩) .here (σ.fork (locs ⟨k, hBound⟩)) = some c ∧
      c.1.value? = none ∧ awaitsStart c.1 = false := by
    rw [hSpawned ⟨k, hBound⟩ (Nat.le_refl k)]
    exact ⟨_, rfl, hSuspends _ (List.get_mem branches ⟨k, hBound⟩) _⟩
  obtain ⟨c, hStep, hRunning, hTurn⟩ := hFirst
  refine ⟨Handler.closeBranch σ (forkNeed branches compete) locs under [] (forkOutcome env compete)
    ⟨k, hBound⟩ c, ?_, ?_⟩
  · show engine.step (Program.par _ _ locs under [] _) (.branch k .here) σ = _
    rw [Handler.step, dif_pos hBound, if_neg (by simp), hStep]
    rfl
  · refine ⟨Function.update locs ⟨k, hBound⟩ c.2.loc, Function.update under ⟨k, hBound⟩ c.1, ?_, ?_, ?_⟩
    · rw [Handler.closeBranch, hRunning]
    · intro i hEarlier
      by_cases hSame : i = ⟨k, hBound⟩
      · rw [hSame, Function.update_self]
        exact hTurn
      · rw [Function.update_of_ne hSame]
        have hVal : i.val ≠ k := fun h => hSame (Fin.ext h)
        exact hStarted i (by omega)
    · intro i hLater
      have hOther : i ≠ ⟨k, hBound⟩ := fun h => absurd (congrArg Fin.val h) (by simp; omega)
      rw [Function.update_of_ne hOther]
      exact hSpawned i (by omega)

/-- Some run gives the branches their first turns, one after the other. -/
theorem Polled.reached
    (hSuspends : ∀ task ∈ branches, Suspends (branchBody r wf ctx task input position))
    (hBranches : branches ≠ []) {k : Nat} (hBound : k ≤ branches.length) :
    ∃ d, engine.Reaches (forkStart env r wf ctx branches compete input position σ) d ∧
      Polled env r wf ctx branches compete input position k d := by
  induction k with
  | zero =>
      refine ⟨_, Handler.Reaches.refl engine _, ?_⟩
      rw [forkStart_eq hBranches]
      exact ⟨_, _, rfl, fun i hEarlier => absurd hEarlier (by omega), fun i _ => rfl⟩
  | succ k ih =>
      obtain ⟨d, hReached, polled⟩ := ih (by omega)
      obtain ⟨e, hChoose, hNext⟩ := polled.turn hSuspends (by omega)
      exact ⟨e, hReached.trans ⟨[_], by rw [Handler.run_cons, hChoose]; rfl⟩, hNext⟩

theorem spawnedWithin_iff :
    SpawnedWithin env branches compete (forkStart env r wf ctx branches compete input position σ) ↔
      branches.length ≤ env.policy.maxParallelTasks := by
  constructor
  · intro within
    by_cases hBranches : branches = []
    · simp [hBranches]
    · have hStart := within _ [] (Handler.Reaches.refl engine _) (forkStart_awaits hBranches)
      rwa [unfinished_nil] at hStart
  · intro hFew d finished _ _
    exact unfinished_length_le.trans hFew

theorem underwayWithin_of_le (hFew : branches.length ≤ env.policy.maxParallelTasks) :
    UnderwayWithin env branches compete
      (forkStart env r wf ctx branches compete input position σ) :=
  fun _ _ _ _ _ => underway_length_le.trans hFew

theorem underwayWithin_iff
    (hSuspends : ∀ task ∈ branches, Suspends (branchBody r wf ctx task input position)) :
    UnderwayWithin env branches compete (forkStart env r wf ctx branches compete input position σ) ↔
      branches.length ≤ env.policy.maxParallelTasks := by
  refine ⟨fun within => ?_, underwayWithin_of_le⟩
  by_cases hBranches : branches = []
  · simp [hBranches]
  · obtain ⟨⟨p, τ⟩, hReached, locs, under, rfl, hStarted, _⟩ :=
      @Polled.reached env r wf ctx branches compete input position σ hSuspends hBranches _ (Nat.le_refl _)
    have hAll := within locs under [] τ hReached
    rwa [underway_nil fun i => hStarted i i.isLt] at hAll

end Turns

/-- A task that has neither a guard nor an input transformation or schema. -/
structure PlainEntry (task : CompiledTask) : Prop where
  guard : task.if_ = none
  schema : task.input.schema = none
  transform : task.input.transform = none

/-- A branch waits for the lock of the context before its body runs. -/
theorem plain_suspends {env : RuntimeInner} {fuel : Nat} {wf : CompiledWorkflow} {ctx : ExecContext}
    {task : CompiledTask} {input : Value} {position : Nat} (plain : PlainEntry task)
    (hExtensions : wf.extensions = []) :
    Suspends (branchBody (runner env (fuel + 1)) wf ctx task input position) := by
  obtain ⟨hGuard, hSchema, hTransform⟩ := plain
  have hShape : ∃ next, branchBody (runner env (fuel + 1)) wf ctx task input position =
      .act .getLocal next ∧ ∀ loc, ∃ after, next loc = .act .lockContext after := by
    obtain ⟨_, _, if_, ⟨schema, transform⟩, _, _, _, _, _, _⟩ := task
    obtain ⟨_, _, _, _, _, _, _, _, _, extensions⟩ := wf
    subst hGuard hSchema hTransform hExtensions
    refine ⟨_, rfl, ?_⟩
    rintro ⟨_, applyExtensions, _, _, _⟩
    cases applyExtensions <;> exact ⟨_, rfl⟩
  intro σ
  obtain ⟨next, hBody, hNext⟩ := hShape
  obtain ⟨after, hAfter⟩ := hNext σ.loc
  have hAdvance : engine.advance (branchBody (runner env (fuel + 1)) wf ctx task input position) σ =
      (.act .lockContext after, σ) := by
    rw [hBody, @Handler.advance_act_sync _ _ engine .getLocal next σ σ σ.loc rfl rfl, hAfter]
    exact @Handler.advance_act_of_ne _ _ engine .lockContext after σ (fun h => by cases h)
  rw [hAdvance]
  exact ⟨rfl, rfl⟩

/-- A fork keeps within the limit on tasks that run in parallel, both as regards the branches
that it has spawned and those that have had a turn, if and only if it has no more branches
than that. If the first turn of each branch ends before the branch does, as it is the case with
plain tasks of the engine, those that have had a turn exceed the limit on their own. -/
theorem parallel_bound_iff (env : RuntimeInner) (r : Runner) (wf : CompiledWorkflow)
    (ctx : ExecContext) (branches : List CompiledTask) (compete : Bool) (input : Value)
    (position : Nat) (σ : EngineState) :
    (SpawnedWithin env branches compete
          (forkStart env r wf ctx branches compete input position σ) ∧
        UnderwayWithin env branches compete
          (forkStart env r wf ctx branches compete input position σ) ↔
      branches.length ≤ env.policy.maxParallelTasks) ∧
    ((∀ task ∈ branches, Suspends (branchBody r wf ctx task input position)) →
      (UnderwayWithin env branches compete
          (forkStart env r wf ctx branches compete input position σ) ↔
        branches.length ≤ env.policy.maxParallelTasks)) := by
  refine ⟨⟨fun within => spawnedWithin_iff.mp within.1, fun hFew => ?_⟩, underwayWithin_iff⟩
  exact ⟨spawnedWithin_iff.mpr hFew, underwayWithin_of_le hFew⟩

namespace Sample

/-- A runtime that lets one task run at a time. -/
def serial : RuntimeInner :=
  { runtime with policy := { RuntimePolicy.default with maxParallelTasks := 1 } }

/-- A branch that waits for a second. -/
def pause (name : String) : CompiledTask := task name none (.wait 1000)

/-- A fork of two such branches, about to start. -/
def pauses (compete : Bool) : Config engineSig (Except WorkflowError Value) :=
  forkStart serial (runner serial 3) (workflow [] [])
    (executionContext serial (workflow [] []) "id" .null 0) [pause "a", pause "b"] compete .null 0
    (idle (workflow [] []) world)

theorem pauses_exceed (compete : Bool) :
    ¬ SpawnedWithin serial [pause "a", pause "b"] compete (pauses compete) ∧
      ¬ UnderwayWithin serial [pause "a", pause "b"] compete (pauses compete) := by
  constructor
  · intro within
    exact absurd (spawnedWithin_iff.mp within) (by decide)
  · intro within
    have hSuspends : ∀ task ∈ [pause "a", pause "b"], Suspends (branchBody (runner serial 3)
        (workflow [] []) (executionContext serial (workflow [] []) "id" .null 0) task .null 0) := by
      intro task hMem
      have plain : PlainEntry task := by
        rcases List.mem_pair.mp hMem with rfl | rfl <;> exact ⟨rfl, rfl, rfl⟩
      exact plain_suspends plain rfl
    exact absurd ((underwayWithin_iff hSuspends).mp within) (by decide)

/-- Two branches run at once where the policy allows one, whether they compete or not. -/
theorem pauses_not_bounded :
    ¬ (UnderwayWithin serial [pause "a", pause "b"] false (pauses false) ∨
      UnderwayWithin serial [pause "a", pause "b"] true (pauses true) ∨
      SpawnedWithin serial [pause "a", pause "b"] false (pauses false) ∨
      SpawnedWithin serial [pause "a", pause "b"] true (pauses true)) := by
  rintro (within | within | within | within)
  · exact (pauses_exceed false).2 within
  · exact (pauses_exceed true).2 within
  · exact (pauses_exceed false).1 within
  · exact (pauses_exceed true).1 within

end Sample

end OwsRuntime
