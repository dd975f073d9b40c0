import OwsRuntime.Async.Joining
import OwsRuntime.Engine.Engine

/-! The join of a fork whose branches do not compete: the loop over the branches in the
order in which they finish, and the outputs in the order of their declaration. -/
namespace OwsRuntime

open Async
open Async.Handler (Awaits Joining)

/-- What the loop over the finished branches has filled in: the results by the index of
their branch, and the error that came first. -/
structure JoinedBranches where
  results : List (Option (Except WorkflowError Value))
  firstError : Option WorkflowError

namespace JoinedBranches

def empty (count : Nat) : JoinedBranches :=
  { results := List.replicate count none, firstError := none }

/-- The body of the loop. A branch that has panicked has no result. -/
def join (env : RuntimeInner) {count : Nat} (joined : JoinedBranches) :
    Fin count × Option (Except WorkflowError Value) → JoinedBranches
  | (i, some (.ok value)) =>
      { joined with results := joined.results.set i.val (some (.ok value)) }
  | (i, some (.error e)) =>
      { results := joined.results.set i.val (some (.error e))
        firstError := joined.firstError.or (some e) }
  | (i, none) =>
      { joined with
        firstError := joined.firstError.or
          (some (runtimeError ("fork branch panicked: " ++ env.joinError i))) }

/-- The outputs of the branches. There are none when a result that is unwrapped is missing. -/
def outputs (joined : JoinedBranches) : Option (List Value) :=
  joined.results.mapM fun result => result.map fun r => r.toOption.getD .null

/-- What the task returns, unless it panics. -/
def outcome (joined : JoinedBranches) : Option (Except WorkflowError Value) :=
  match joined.firstError with
  | some e => some (.error e)
  | none => joined.outputs.map fun outputs => .ok (.array outputs)

end JoinedBranches

/-- The loop over the finished branches. -/
def joinLoop (env : RuntimeInner) {count : Nat}
    (finished : List (Fin count × Option (Except WorkflowError Value))) : JoinedBranches :=
  finished.foldl (JoinedBranches.join env) (JoinedBranches.empty count)

section Loop

variable {env : RuntimeInner} {count : Nat}
  {finished : List (Fin count × Option (Except WorkflowError Value))} {i : Fin count}

/-- The result of a branch, if it has one. -/
def branchResult (finished : List (Fin count × Option (Except WorkflowError Value)))
    (i : Fin count) : Option (Except WorkflowError Value) :=
  (finished.find? fun entry => entry.1 = i).bind Prod.snd

theorem branchResult_cons_self (reply : Option (Except WorkflowError Value)) :
    branchResult ((i, reply) :: finished) i = reply := by
  simp [branchResult]

theorem branchResult_cons_of_ne {j : Fin count} (hNe : j ≠ i)
    (reply : Option (Except WorkflowError Value)) :
    branchResult ((j, reply) :: finished) i = branchResult finished i := by
  simp [branchResult, hNe]

theorem branchResult_of_notMem (hNone : i ∉ finished.map Prod.fst) :
    branchResult finished i = none := by
  have hFind : finished.find? (fun entry => entry.1 = i) = none := by
    rw [List.find?_eq_none]
    intro entry hMem hSame
    exact hNone (List.mem_map.mpr ⟨entry, hMem, of_decide_eq_true hSame⟩)
  rw [branchResult, hFind]
  rfl

/-- An entry tells the result of its branch. -/
theorem branchResult_of_mem (once : (finished.map Prod.fst).Nodup)
    {reply : Option (Except WorkflowError Value)} (hMem : (i, reply) ∈ finished) :
    branchResult finished i = reply := by
  induction finished with
  | nil => cases hMem
  | cons entry rest ih =>
      obtain ⟨j, other⟩ := entry
      rw [List.map_cons, List.nodup_cons] at once
      rcases List.mem_cons.mp hMem with hHead | hTail
      · cases hHead
        exact branchResult_cons_self reply
      · have hNe : j ≠ i := by
          rintro rfl
          exact once.1 (List.mem_map.mpr ⟨_, hTail, rfl⟩)
        rw [branchResult_cons_of_ne hNe]
        exact ih once.2 hTail

theorem branchOutput_eq (finished : List (Fin count × Option (Except WorkflowError Value)))
    (i : Fin count) :
    branchOutput finished i =
      match branchResult finished i with
      | some (.ok value) => value
      | _ => .null := rfl

/-- One step of the loop fills the place of its branch, and no other. -/
theorem join_results {joined : JoinedBranches} {before : Option (Except WorkflowError Value)}
    (hBefore : joined.results[i.val]? = some before) (j : Fin count)
    (reply : Option (Except WorkflowError Value)) :
    (joined.join env (j, reply)).results[i.val]? =
      some (if j = i then reply.or before else before) := by
  have hSet : ∀ result : Except WorkflowError Value,
      (joined.results.set j.val (some result))[i.val]? =
        some (if j = i then some result else before) := by
    intro result
    by_cases hSame : j = i
    · subst hSame
      have hBound : j.val < joined.results.length := (List.getElem?_eq_some_iff.mp hBefore).1
      simp [hBound]
    · have hVal : j.val ≠ i.val := fun h => hSame (Fin.ext h)
      rw [List.getElem?_set_ne hVal, hBefore, if_neg hSame]
  match reply with
  | some (.ok value) => exact hSet (.ok value)
  | some (.error e) => exact hSet (.error e)
  | none =>
      rw [Option.none_or, ite_self]
      exact hBefore

theorem foldl_results {joined : JoinedBranches} {before : Option (Except WorkflowError Value)}
    (once : (finished.map Prod.fst).Nodup) (hBefore : joined.results[i.val]? = some before) :
    (finished.foldl (JoinedBranches.join env) joined).results[i.val]? =
      some ((branchResult finished i).or before) := by
  induction finished generalizing joined before with
  | nil => simpa [branchResult] using hBefore
  | cons entry rest ih =>
      obtain ⟨j, reply⟩ := entry
      rw [List.map_cons, List.nodup_cons] at once
      rw [List.foldl_cons, ih once.2 (join_results hBefore j reply)]
      by_cases hSame : j = i
      · subst hSame
        simp [branchResult_of_notMem once.1, branchResult_cons_self]
      · simp [hSame, branchResult_cons_of_ne hSame]

theorem join_length (joined : JoinedBranches) (entry : Fin count × Option (Except WorkflowError Value)) :
    (joined.join env entry).results.length = joined.results.length := by
  match entry with
  | (_, some (.ok _)) => simp [JoinedBranches.join]
  | (_, some (.error _)) => simp [JoinedBranches.join]
  | (_, none) => rfl

theorem foldl_length (joined : JoinedBranches) :
    (finished.foldl (JoinedBranches.join env) joined).results.length = joined.results.length := by
  induction finished generalizing joined with
  | nil => rfl
  | cons entry rest ih => rw [List.foldl_cons, ih, join_length]

theorem foldl_firstError (joined : JoinedBranches) :
    (finished.foldl (JoinedBranches.join env) joined).firstError =
      joined.firstError.or (firstError env finished) := by
  induction finished generalizing joined with
  | nil => simp [firstError]
  | cons entry rest ih =>
      rw [List.foldl_cons, ih]
      match entry with
      | (_, some (.ok _)) => simp [JoinedBranches.join, firstError]
      | (_, some (.error _)) => simp [JoinedBranches.join, firstError]
      | (_, none) => simp [JoinedBranches.join, firstError]

theorem joinLoop_firstError : (joinLoop env finished).firstError = firstError env finished := by
  rw [joinLoop, foldl_firstError]
  simp [JoinedBranches.empty]

/-- The loop leaves each branch's result at the index of the branch. -/
theorem joinLoop_results (once : (finished.map Prod.fst).Nodup) :
    (joinLoop env finished).results = List.ofFn (branchResult finished) := by
  apply List.ext_getElem?
  intro index
  by_cases hBound : index < count
  · have hEmpty : (JoinedBranches.empty count).results[index]? = some none := by
      simp [JoinedBranches.empty, hBound]
    have hFold := @foldl_results env count finished ⟨index, hBound⟩ _ _ once hEmpty
    rw [joinLoop, hFold]
    simp [hBound]
  · have hLength : (joinLoop env finished).results.length = count := by
      rw [joinLoop, foldl_length]
      simp [JoinedBranches.empty]
    rw [List.getElem?_eq_none (by omega), List.getElem?_eq_none (by simp; omega)]

/-- No branch has failed as long as there is no error. -/
theorem firstError_eq_none_iff :
    firstError env finished = none ↔ ∀ entry ∈ finished, ∃ value, entry.2 = some (.ok value) := by
  rw [firstError, List.findSome?_eq_none_iff]
  constructor
  · intro hNone entry hMem
    have hEntry := hNone entry hMem
    match entry with
    | (_, some (.ok value)) => exact ⟨value, rfl⟩
    | (_, some (.error _)) => simp at hEntry
    | (_, none) => simp at hEntry
  · intro hOk entry hMem
    obtain ⟨value, hValue⟩ := hOk entry hMem
    obtain ⟨_, _⟩ := entry
    cases hValue
    rfl

/-- Without an error, every branch has succeeded when all of them have finished. -/
theorem branchResult_of_complete (complete : (finished.map Prod.fst).Perm (List.finRange count))
    (hNone : firstError env finished = none) (i : Fin count) :
    branchResult finished i = some (.ok (branchOutput finished i)) := by
  have once : (finished.map Prod.fst).Nodup := complete.nodup_iff.mpr (List.nodup_finRange count)
  obtain ⟨⟨j, reply⟩, hMem, rfl⟩ := List.mem_map.mp (complete.mem_iff.mpr (List.mem_finRange i))
  obtain ⟨value, rfl⟩ := firstError_eq_none_iff.mp hNone _ hMem
  rw [branchOutput_eq, branchResult_of_mem once hMem]

/-- Once all branches have finished, the loop returns what the task does: no result that
it unwraps is missing. -/
theorem joinLoop_outcome (complete : (finished.map Prod.fst).Perm (List.finRange count)) :
    (joinLoop env finished).outcome = some (joinResult env finished) := by
  have once : (finished.map Prod.fst).Nodup := complete.nodup_iff.mpr (List.nodup_finRange count)
  rw [JoinedBranches.outcome, joinLoop_firstError, joinResult]
  cases hError : firstError env finished with
  | some e => rfl
  | none =>
      have hResults : (joinLoop env finished).results =
          (List.ofFn (branchOutput finished)).map fun value => some (.ok value) := by
        rw [joinLoop_results once, List.map_ofFn]
        congr 1
        funext i
        exact branchResult_of_complete complete hError i
      have hOutputs : (joinLoop env finished).outputs = some (List.ofFn (branchOutput finished)) := by
        rw [JoinedBranches.outputs, hResults, List.mapM_map]
        have hEach : (List.ofFn (branchOutput finished)).mapM
            (fun value => (pure value : Option Value)) = some (List.ofFn (branchOutput finished)) := by
          rw [List.mapM_pure, List.map_id']
          rfl
        exact hEach
      simp [hOutputs]

/-- A fork whose branches have all finished succeeds when each of them has. -/
theorem joinResult_isOk_iff (complete : (finished.map Prod.fst).Perm (List.finRange count)) :
    (∃ output, joinResult env finished = .ok output) ↔
      ∀ i, ∃ output, (i, some (.ok output)) ∈ finished := by
  have hFinished : ∀ i : Fin count, ∃ reply, (i, reply) ∈ finished := by
    intro i
    obtain ⟨⟨j, reply⟩, hMem, rfl⟩ := List.mem_map.mp (complete.mem_iff.mpr (List.mem_finRange i))
    exact ⟨reply, hMem⟩
  rw [joinResult]
  constructor
  · rintro ⟨output, hOk⟩ i
    obtain ⟨reply, hMem⟩ := hFinished i
    cases hError : firstError env finished with
    | some e => simp [hError] at hOk
    | none =>
        obtain ⟨value, rfl⟩ := firstError_eq_none_iff.mp hError _ hMem
        exact ⟨value, hMem⟩
  · intro hAll
    have once : (finished.map Prod.fst).Nodup := complete.nodup_iff.mpr (List.nodup_finRange count)
    have hNone : firstError env finished = none := by
      rw [firstError_eq_none_iff]
      rintro ⟨i, reply⟩ hMem
      obtain ⟨output, hOk⟩ := hAll i
      refine ⟨output, ?_⟩
      rw [← branchResult_of_mem once hMem, branchResult_of_mem once hOk]
    rw [hNone]
    exact ⟨_, rfl⟩

/-- The output of a fork that has succeeded is the array of the outputs of its branches, in
the order of their declaration. -/
theorem joinResult_outputs (complete : (finished.map Prod.fst).Perm (List.finRange count))
    {outputs : Fin count → Value} (hAll : ∀ i, (i, some (.ok (outputs i))) ∈ finished) :
    joinResult env finished = .ok (.array (List.ofFn outputs)) := by
  have once : (finished.map Prod.fst).Nodup := complete.nodup_iff.mpr (List.nodup_finRange count)
  have hOutputs : branchOutput finished = outputs := by
    funext i
    rw [branchOutput_eq, branchResult_of_mem once (hAll i)]
  obtain ⟨output, hOk⟩ := (@joinResult_isOk_iff env count finished complete).mpr
    fun i => ⟨outputs i, hAll i⟩
  rw [joinResult] at hOk ⊢
  cases hError : firstError env finished with
  | some e => simp [hError] at hOk
  | none => rw [hOutputs]

end Loop

section Runs

variable {env : RuntimeInner} {r : Runner} {wf : CompiledWorkflow} {ctx : ExecContext}
  {branches : List CompiledTask} {input : Value} {position : Nat} {σ : EngineState}

/-- How many branches a fork waits for. -/
def forkNeed (branches : List CompiledTask) (compete : Bool) : Nat :=
  if compete then 1 else branches.length

/-- What a fork returns after these branches have finished. -/
def forkOutcome (env : RuntimeInner) {count : Nat} (compete : Bool)
    (finished : List (Fin count × Option (Except WorkflowError Value))) :
    Program engineSig (Except WorkflowError Value) :=
  .done (if compete then competeResult env finished else joinResult env finished)

/-- A fork waits for its branches, of which these have finished. -/
def ForkAwaits (env : RuntimeInner) (branches : List CompiledTask) (compete : Bool)
    (finished : List (Fin branches.length × Option (Except WorkflowError Value)))
    (d : Config engineSig (Except WorkflowError Value)) : Prop :=
  Awaits (forkNeed branches compete) (forkOutcome env compete) finished d

/-- A fork task that is about to start. -/
def forkStart (env : RuntimeInner) (r : Runner) (wf : CompiledWorkflow) (ctx : ExecContext)
    (branches : List CompiledTask) (compete : Bool) (input : Value) (position : Nat)
    (σ : EngineState) : Config engineSig (Except WorkflowError Value) :=
  engine.advance (taskFork env r wf ctx branches compete input position).run σ

/-- A fork spawns all its branches at once. -/
theorem forkStart_eq {compete : Bool} (hBranches : branches ≠ []) :
    forkStart env r wf ctx branches compete input position σ =
      (.par branches.length (forkNeed branches compete) (fun _ => σ.loc)
        (fun i => runBranch r wf ctx (branches.get i) input position) []
        (forkOutcome env compete), σ) := by
  have hSome : branches.isEmpty = false := by simpa using hBranches
  unfold forkStart taskFork
  rw [if_neg (by simp [hSome])]
  cases compete <;> rfl

theorem forkStart_awaits {compete : Bool} (hBranches : branches ≠ []) :
    ForkAwaits env branches compete []
      (forkStart env r wf ctx branches compete input position σ) := by
  rw [forkStart_eq hBranches]
  exact ⟨_, _, rfl, Joining.start fun _ => rfl⟩

/-- A run from the start of a fork returns a result, after its branches have all finished in
this order and with these results. -/
def ForkReturns (env : RuntimeInner) (branches : List CompiledTask)
    (start : Config engineSig (Except WorkflowError Value))
    (finished : List (Fin branches.length × Option (Except WorkflowError Value)))
    (result : Except WorkflowError Value) (τ : EngineState) : Prop :=
  engine.Finishes start result τ ∧
    (finished.map Prod.fst).Perm (List.finRange branches.length) ∧
      (branches ≠ [] → ∃ d, engine.Reaches start d ∧ ForkAwaits env branches false finished d ∧
        engine.Reaches (engine.advance (forkOutcome env false finished) d.2) (.done result, τ))

/-- Every run that returns has joined all the branches before. -/
theorem exists_forkReturns {result : Except WorkflowError Value} {τ : EngineState}
    (finishes : engine.Finishes (forkStart env r wf ctx branches false input position σ) result τ) :
    ∃ finished, ForkReturns env branches (forkStart env r wf ctx branches false input position σ)
      finished result τ := by
  by_cases hBranches : branches = []
  · subst hBranches
    exact ⟨[], finishes, List.Perm.refl _, fun hSome => absurd rfl hSome⟩
  · have hAwaits := @forkStart_awaits env r wf ctx branches input position σ false hBranches
    rcases Handler.Follows.awaits_cases (Handler.Reaches.follows finishes) hAwaits with
      ⟨_, _, _, hWaits, _⟩ | ⟨finished, d, hJoined, hAll, hBefore, hAfter⟩
    · cases hWaits
    · have joining := hJoined
      obtain ⟨_, _, _, joining⟩ := joining
      exact ⟨finished, finishes, joining.all hAll, fun _ =>
        ⟨d, hBefore.reaches, hJoined, hAfter.reaches⟩⟩

theorem ForkReturns.result_eq {finished : List (Fin branches.length × Option (Except WorkflowError Value))}
    {result : Except WorkflowError Value} {τ : EngineState}
    (returns : ForkReturns env branches (forkStart env r wf ctx branches false input position σ)
      finished result τ) : result = joinResult env finished := by
  obtain ⟨finishes, complete, hRun⟩ := returns
  by_cases hBranches : branches = []
  · subst hBranches
    obtain ⟨_, _, hDone⟩ := Handler.Follows.done_cases (Handler.Reaches.follows finishes)
    cases hDone
    have hOutputs := @joinResult_outputs env 0 finished complete (fun i => i.elim0) fun i => i.elim0
    rw [hOutputs]
    rfl
  · obtain ⟨d, _, _, hAfter⟩ := hRun hBranches
    obtain ⟨_, _, hDone⟩ := Handler.Follows.done_cases (Handler.Reaches.follows hAfter)
    cases hDone
    rfl

end Runs

end OwsRuntime
