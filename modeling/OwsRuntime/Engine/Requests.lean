import OwsRuntime.Async.Requests
import OwsRuntime.Engine.Sources

/-! What the engine asks for on behalf of a workflow: which texts it evaluates, which
components it fails to find, whose lifecycle it announces and what it stores. -/
namespace OwsRuntime

open Async Law

/-- The requests which any task may make. -/
def Act.Routine : Act → Prop
  | note (.evaluates _ _ _) => False
  | note (.unresolved _) => False
  | bindVar _ _ => False
  | unbindVar _ => False
  | setApplyExtensions _ => False
  | setScopeExited _ => False
  | stop => False
  | publish (some _) _ => False
  | store _ => False
  | _ => True

/-- The requests that change the storage of a task. -/
def Act.ChangesLocal : Act → Prop
  | bindVar _ _ => True
  | unbindVar _ => True
  | setApplyExtensions _ => True
  | setScopeExited _ => True
  | stop => True
  | _ => False

/-- A request of a task's own turn has a reply at once. -/
theorem sync_performs {a : Act} {σ : EngineState} (hMode : a.mode = .sync) :
    (perform a σ).isSome := by
  cases a with
  | tryContext =>
      rw [perform]
      split <;> rfl
  | setScopeExited by_ => cases by_ <;> rfl
  | _ => first | rfl | cases hMode

/-- The texts may be evaluated. -/
def Evaluates (may : Act → Prop) (sources : List ExpressionSource) : Prop :=
  ∀ source ∈ sources, ∀ input vars, may (.note (.evaluates source input vars))

/-- The requests which the tasks of a workflow make by themselves are allowed. -/
structure Terms (env : RuntimeInner) (wf : CompiledWorkflow) (may : Act → Prop) : Prop where
  routine : ∀ a : Act, a.Routine → may a
  evaluates : ∀ {source}, wf.HasSource source → ∀ input vars,
    may (.note (.evaluates source input vars))
  unresolved : ∀ {name}, wf.Lacks env name → may (.note (.unresolved name))

/-- So are those of its scopes, which bind variables and exit. -/
structure ScopeTerms (env : RuntimeInner) (wf : CompiledWorkflow) (may : Act → Prop) : Prop
    extends Terms env wf may where
  local_ : ∀ a : Act, a.ChangesLocal → may a

variable {L : Law engine} {may : Act → Prop} {env : RuntimeInner} {wf : CompiledWorkflow}
  {ctx : ExecContext} {exprCtx : ExpressionContext} {r : Runner} {α β : Type}

/-- The program makes only requests that are allowed. -/
abbrev Obeys (L : Law engine) (may : Act → Prop) (p : Run α) : Prop := L.AsksOk p may fun _ => True

abbrev FutureObeys (L : Law engine) (may : Act → Prop) (p : Future α) : Prop :=
  L.Asks p may fun _ => True

section Rules

/-- A program that asks only what it may, and that is known to return something, obeys. -/
theorem AsksOk.obeys {p : Run α} {Q : α → Prop} (asks : L.AsksOk p may Q) : Obeys L may p :=
  AsksOk.mono asks fun _ _ => trivial

/-- Returning a value asks for nothing. -/
theorem Obeys.pure {value : α} : Obeys L may (Pure.pure value) := AsksOk.pure trivial

/-- Failing asks for nothing. -/
theorem Obeys.throw {e : WorkflowError} : Obeys L may (throw e : Run α) := AsksOk.throw

/-- A result that is already there asks for nothing. -/
theorem Obeys.ofExcept {result : Except WorkflowError α} : Obeys L may (Run.ofExcept result) :=
  AsksOk.mk fun _ _ => trivial

/-- Programs that obey compose. What follows obeys whatever has been returned. -/
theorem Obeys.seq {p : Run α} {f : α → Run β} (first : Obeys L may p)
    (second : ∀ value, Obeys L may (f value)) : Obeys L may (p >>= f) :=
  AsksOk.seq first fun value _ => second value

/-- A fallible program asks for the same as the one that returns its result. -/
theorem Obeys.run {p : Run α} (obeys : Obeys L may p) : FutureObeys L may p.run :=
  Asks.mono obeys fun _ _ => trivial

/-- An infallible program obeys where failures are possible. -/
theorem Obeys.lift {p : Future α} (obeys : FutureObeys L may p) :
    Obeys L may (liftM p : Run α) := AsksOk.lift obeys

/-- Looking at the outcome of a program asks for nothing more. -/
theorem Obeys.outcome {p : Run α} (obeys : Obeys L may p) : Obeys L may (outcome p) :=
  Obeys.lift obeys.run

/-- Returning a value asks for nothing. -/
theorem FutureObeys.pure {value : α} : FutureObeys L may (Pure.pure value) := trivial

/-- Infallible programs that obey compose. -/
theorem FutureObeys.seq {p : Future α} {f : α → Future β} (first : FutureObeys L may p)
    (second : ∀ value, FutureObeys L may (f value)) : FutureObeys L may (p >>= f) :=
  Asks.seq first fun value _ => second value

/-- A program which returns a result asks for the same as the fallible one that it makes up. -/
theorem FutureObeys.mk {p : Future (Except WorkflowError α)} (obeys : FutureObeys L may p) :
    Obeys L may (ExceptT.mk p) := Asks.mono obeys fun _ _ _ _ => trivial

/-- One request obeys if it may be made. -/
theorem ask_obeys {a : Act} (hMay : may a) : FutureObeys L may (ask a) :=
  (Asks.request hMay).mono fun _ _ => trivial

/-- So does one request of a fallible program. -/
theorem do_obeys {a : Act} (hMay : may a) : Obeys L may (liftM (ask a) : Run a.Resp) :=
  Obeys.lift (ask_obeys hMay)

/-- The requests that every part of the engine may make are no matter of the workflow. -/
theorem ask_routine (terms : Terms env wf may) (a : Act) (hRoutine : a.Routine) :
    FutureObeys L may (ask a) := ask_obeys (terms.routine a hRoutine)

/-- The same where failures are possible. -/
theorem do_routine (terms : Terms env wf may) (a : Act) (hRoutine : a.Routine) :
    Obeys L may (liftM (ask a) : Run a.Resp) := do_obeys (terms.routine a hRoutine)

/-- A note may be taken if it is one of those that are allowed. -/
theorem note_obeys {n : Note} (hMay : may (.note n)) : FutureObeys L may (note n) :=
  FutureObeys.seq (ask_obeys hMay) fun _ => FutureObeys.pure

/-- Fewer sources need fewer permissions. -/
theorem Evaluates.mono {sources fewer : List ExpressionSource} (evaluates : Evaluates may sources)
    (hFewer : ∀ source ∈ fewer, source ∈ sources) : Evaluates may fewer :=
  fun source hMem => evaluates source (hFewer source hMem)

end Rules

section Contexts

/-- Gathering the variables of a task reads the state of the task and the context. -/
theorem variables_obeys (terms : Terms env wf may) (input output : Value) (task : Option Value) :
    FutureObeys L may (ctx.variables_ input output task) := by
  apply FutureObeys.seq (ask_routine terms .tryContext trivial)
  intro context
  exact FutureObeys.seq (ask_routine terms .getLocal trivial) fun _ => FutureObeys.pure

/-- Reading the context takes its lock, reads the cell and releases the lock. -/
theorem readContext_obeys (terms : Terms env wf may) : FutureObeys L may readContext := by
  apply FutureObeys.seq (ask_routine terms .lockContext trivial)
  intro _
  apply FutureObeys.seq (ask_routine terms .readContext trivial)
  intro read
  exact FutureObeys.seq (ask_routine terms .unlockContext trivial) fun _ => FutureObeys.pure

/-- The context of a task is tried first, and `null` taken where it is locked. -/
theorem contextValue_obeys (terms : Terms env wf may) : FutureObeys L may contextValue :=
  FutureObeys.seq (readContext_obeys terms) fun _ => FutureObeys.pure

/-- Writing the context takes its lock, writes the cell and releases the lock. -/
theorem setContext_obeys (terms : Terms env wf may) (source : ContextSource) (value : Value) :
    FutureObeys L may (setContext source value) := by
  apply FutureObeys.seq (ask_routine terms .lockContext trivial)
  intro _
  apply FutureObeys.seq (ask_routine terms (.writeContext source value) trivial)
  intro _
  exact ask_routine terms .unlockContext trivial

/-- A scope that stops asks whether the execution is cancelled, and remembers the answer. -/
theorem stop_obeys (terms : ScopeTerms env wf may) : Obeys L may (ctx.stop : Run α) :=
  Obeys.seq (do_obeys (terms.local_ .stop trivial)) fun _ => Obeys.throw

/-- So does the check in front of a task. -/
theorem failIfCancelled_obeys (terms : ScopeTerms env wf may) :
    Obeys L may ctx.failIfCancelled := by
  apply Obeys.seq (do_routine terms.toTerms .isCancelled trivial)
  intro cancelled
  split
  · exact stop_obeys terms
  · exact Obeys.pure

/-- An expression is evaluated within the turn. All that is asked for is the note of it. -/
theorem evalExpr_obeys {source : String} (hSource : Evaluates may [.expression source])
    (input : Value) (vars : Map) (task : Option CompiledTask) :
    Obeys L may (evalExpr env source input vars task) := by
  have hNote := hSource _ List.mem_cons_self input vars
  exact Obeys.seq (Obeys.lift (note_obeys hNote)) fun _ => Obeys.ofExcept

/-- A string is evaluated within the turn as well, and a value without one is taken as it is. -/
theorem evalInterpolation_obeys {value : Value}
    (hSource : Evaluates may (value.asStr.toList.map .template)) :
    Obeys L may (evalInterpolation env value exprCtx) := by
  unfold evalInterpolation
  split
  · have hNote := hSource _ List.mem_cons_self exprCtx.input exprCtx.asVariableMap
    exact Obeys.seq (Obeys.lift (note_obeys hNote)) fun _ => Obeys.ofExcept
  · exact Obeys.pure

/-- A string that must be one is evaluated, and its value written as a text. -/
theorem interpolateString_obeys {s : String} (hSource : Evaluates may [.template s]) :
    Obeys L may (interpolateString env s exprCtx) :=
  Obeys.seq (evalInterpolation_obeys hSource) fun _ => Obeys.pure

/-- An optional string is evaluated where it is there. -/
theorem interpolateOptString_obeys {s : Option String}
    (hSource : Evaluates may (s.toList.map .template)) :
    Obeys L may (interpolateOptString env s exprCtx) := by
  cases s with
  | none => exact Obeys.pure
  | some s => exact Obeys.seq (interpolateString_obeys hSource) fun _ => Obeys.pure

/-- Strings are evaluated one after the other. The induction is on the list. -/
theorem interpolateStrings_obeys {strings : List String}
    (hSource : Evaluates may (strings.map .template)) :
    Obeys L may (interpolateStrings env exprCtx strings) := by
  induction strings with
  | nil => exact Obeys.pure
  | cons s rest ih =>
      apply Obeys.seq (interpolateString_obeys (hSource.mono (by simp)))
      intro _
      exact Obeys.seq (ih (hSource.mono (by simp_all))) fun _ => Obeys.pure

/-- The values of environment variables are evaluated one after the other. -/
theorem interpolateEnv_obeys {entries : List (String × String)}
    (hSource : Evaluates may ((entries.map Prod.snd).map .template)) :
    Obeys L may (interpolateEnv env exprCtx entries) := by
  induction entries with
  | nil => exact Obeys.pure
  | cons entry rest ih =>
      apply Obeys.seq (interpolateString_obeys (hSource.mono (by simp)))
      intro _
      exact Obeys.seq (ih (hSource.mono (by simp_all))) fun _ => Obeys.pure

/-- The strings among the entries of a map are evaluated one after the other. -/
theorem interpolateEntries_obeys {entries : Map} (hSource : Evaluates may (templates entries)) :
    Obeys L may (interpolateEntries env exprCtx entries) := by
  induction entries with
  | nil => exact Obeys.pure
  | cons entry rest ih =>
      have hFirst : Evaluates may (entry.2.asStr.toList.map .template) := by
        apply hSource.mono
        simp [templates]
        tauto
      apply Obeys.seq (evalInterpolation_obeys hFirst)
      intro _
      refine Obeys.seq (ih (hSource.mono fun source hMem => ?_)) fun _ => Obeys.pure
      exact ((List.sublist_cons_self entry rest).filterMap _).subset hMem

/-- An optional value is evaluated where it is there. -/
theorem interpolateValue_obeys {value : Option Value}
    (hSource : Evaluates may ((value.bind Value.asStr).toList.map .template)) :
    Obeys L may (interpolateValue env value exprCtx) := by
  cases value with
  | none => exact Obeys.pure
  | some v => exact Obeys.seq (evalInterpolation_obeys hSource) fun _ => Obeys.pure

mutual

/-- The strings at any depth of a value are evaluated. The recursion is that of the value. -/
theorem deepInterpolate_obeys : ∀ value : Value,
    Evaluates may (value.strings.map .template) → Obeys L may (deepInterpolate env exprCtx value)
  | .object entries, hSource => by
      rw [deepInterpolate]
      exact Obeys.seq (deepInterpolateEntries_obeys entries hSource) fun _ => Obeys.pure
  | .array items, hSource => by
      rw [deepInterpolate]
      exact Obeys.seq (deepInterpolateItems_obeys items hSource) fun _ => Obeys.pure
  | .string s, hSource => @evalInterpolation_obeys _ _ _ _ (.string s) hSource
  | .null, _ => Obeys.pure
  | .bool _, _ => Obeys.pure
  | .number _, _ => Obeys.pure

/-- Those of the items of an array, in their order. -/
theorem deepInterpolateItems_obeys : ∀ items : List Value,
    Evaluates may ((Value.itemStrings items).map .template) →
      Obeys L may (deepInterpolateItems env exprCtx items)
  | [], _ => Obeys.pure
  | item :: rest, hSource => by
      rw [deepInterpolateItems]
      rw [Value.itemStrings, List.map_append] at hSource
      apply Obeys.seq (deepInterpolate_obeys item (hSource.mono fun _ => List.mem_append_left _))
      intro _
      refine Obeys.seq ?_ fun _ => Obeys.pure
      exact deepInterpolateItems_obeys rest (hSource.mono fun _ => List.mem_append_right _)

/-- Those of the entries of an object, in their order. -/
theorem deepInterpolateEntries_obeys : ∀ entries : List (String × Value),
    Evaluates may ((Value.entryStrings entries).map .template) →
      Obeys L may (deepInterpolateEntries env exprCtx entries)
  | [], _ => Obeys.pure
  | (k, v) :: rest, hSource => by
      rw [deepInterpolateEntries]
      rw [Value.entryStrings, List.map_append] at hSource
      apply Obeys.seq (deepInterpolate_obeys v (hSource.mono fun _ => List.mem_append_left _))
      intro _
      refine Obeys.seq ?_ fun _ => Obeys.pure
      exact deepInterpolateEntries_obeys rest (hSource.mono fun _ => List.mem_append_right _)

end

/-- A call hands its request to the world, or resolves it and sends it. -/
theorem invokeFunction_obeys (terms : Terms env wf may) (invoker : FunctionInvoker)
    (req : FunctionRequest) : Obeys L may (invokeFunction env invoker req) := by
  cases invoker with
  | other id => exact FutureObeys.mk (ask_routine terms (.invoke id req) trivial)
  | http =>
      have hNote := terms.evaluates .arguments req.context.input req.context.asVariableMap
      apply Obeys.seq (Obeys.lift (note_obeys hNote))
      intro _
      apply Obeys.seq Obeys.ofExcept
      intro request
      apply Obeys.seq (do_routine terms (.send request) trivial)
      intro reply
      exact Obeys.ofExcept

end Contexts

section Tasks

/-- What the tasks rely on in the functions that the engine hands them. -/
structure Runner.Obeys (L : Law engine) (env : RuntimeInner) (r : Runner) : Prop where
  scope : ∀ {wf : CompiledWorkflow} {may : Act → Prop} (ctx : ExecContext)
    {tasks : List CompiledTask} (input : Value), ScopeTerms env wf may → wf.HasScope tasks →
      OwsRuntime.Obeys L may (r.scope wf ctx tasks input)
  task : ∀ {wf : CompiledWorkflow} {may : Act → Prop} (ctx : ExecContext) {task : CompiledTask}
    (input : Value) (ticket : Nat), ScopeTerms env wf may → wf.HasTask task →
      OwsRuntime.Obeys L may (r.task wf ctx task input ticket)
  workflow : ∀ {wf : CompiledWorkflow} {may : Act → Prop} (sub : CompiledWorkflow)
    (input : Value), Terms env wf may → OwsRuntime.Obeys L may (r.workflow sub input)

/-- A run without fuel asks for what is never answered. -/
theorem outOfFuel_obeys (terms : Terms env wf may) : Obeys L may (outOfFuel : Run α) := by
  refine FutureObeys.mk (FutureObeys.seq (ask_routine terms .outOfFuel trivial) ?_)
  intro never
  exact nomatch never

/-- A set task evaluates the strings of its map, or its one text. -/
theorem taskSet_obeys {values : SetDef} (hSource : Evaluates may values.sources) :
    Obeys L may (taskSet env values exprCtx) := by
  cases values with
  | expression source => exact @evalInterpolation_obeys _ _ _ _ (.string source) hSource
  | map entries => exact Obeys.seq (interpolateEntries_obeys hSource) fun _ => Obeys.pure

/-- A condition that is there is evaluated, and its value read as a truth value. -/
theorem conditionHolds_obeys {condition : Option String}
    (hSource : Evaluates may (expressions condition.toList)) (input : Value) (vars : Map)
    (absent : Bool) : Obeys L may (conditionHolds env input vars absent condition) := by
  cases condition with
  | none => exact Obeys.pure
  | some source => exact Obeys.seq (evalExpr_obeys hSource _ _ _) fun _ => Obeys.pure

/-- The condition of a loop is evaluated with the variables of the task. -/
theorem whileHolds_obeys (terms : Terms env wf may) {condition : Option String}
    (hSource : Evaluates may (expressions condition.toList)) (bodyInput : Value) :
    Obeys L may (whileHolds env ctx condition bodyInput) := by
  cases condition with
  | none => exact Obeys.pure
  | some source =>
      apply Obeys.seq (Obeys.lift (variables_obeys terms _ _ _))
      intro vars
      exact Obeys.seq (evalExpr_obeys hSource _ _ _) fun _ => Obeys.pure

/-- The iterations of a for task bind and unbind the loop variables and run the body. The induction
is on the items that are left. -/
theorem forItems_obeys (hRunner : r.Obeys L env) (terms : ScopeTerms env wf may) (loop : ForDef)
    {body : List CompiledTask} (hBody : wf.HasScope body)
    (hSource : Evaluates may (expressions loop.while_.toList)) (eachName atName : String)
    (items : List Value) (index : Nat) (bodyInput output : Value) :
    Obeys L may (forItems env r wf ctx loop body eachName atName index items bodyInput output) := by
  induction items generalizing index bodyInput output with
  | nil => exact Obeys.pure
  | cons item rest ih =>
      rw [forItems]
      apply Obeys.seq (failIfCancelled_obeys terms)
      intro _
      apply Obeys.seq (do_obeys (terms.local_ (.bindVar eachName item) trivial))
      intro _
      apply Obeys.seq (do_obeys (terms.local_ (.bindVar atName (.ofNat index)) trivial))
      intro _
      apply Obeys.seq (whileHolds_obeys terms.toTerms hSource _)
      intro holds
      split
      · apply Obeys.seq (hRunner.scope ctx bodyInput terms hBody)
        intro bodyOutput
        apply Obeys.seq (do_routine terms.toTerms .loadEnded trivial)
        intro ended
        split
        · exact Obeys.pure
        · exact ih _ _ _
      · exact Obeys.pure

/-- A for task evaluates its items, and asks for what its iterations do. -/
theorem taskFor_obeys (hRunner : r.Obeys L env) (terms : ScopeTerms env wf may) {loop : ForDef}
    {body : List CompiledTask} (hBody : wf.HasScope body) (hSource : Evaluates may loop.sources)
    (taskInput : Value) : Obeys L may (taskFor env r wf ctx loop body taskInput exprCtx) := by
  have hItems : Evaluates may [.expression loop.in_] :=
    hSource.mono (by simp [ForDef.sources, expressions])
  have hWhile : Evaluates may (expressions loop.while_.toList) :=
    hSource.mono fun _ => List.mem_cons_of_mem _
  unfold taskFor
  apply Obeys.seq (evalExpr_obeys hItems _ _ _)
  intro collection
  apply Obeys.seq Obeys.ofExcept
  intro items
  apply Obeys.seq (forItems_obeys hRunner terms loop hBody hWhile _ _ _ _ _ _)
  intro output
  apply Obeys.seq (do_obeys (terms.local_ (.unbindVar loop.each) trivial))
  intro _
  exact Obeys.seq (do_obeys (terms.local_ _ trivial)) fun _ => Obeys.pure

/-- A branch that ends the workflow by its directive leaves a note. -/
theorem noteBranch_obeys (terms : Terms env wf may) (task : CompiledTask) (exec : TaskExec) :
    FutureObeys L may (noteBranch task exec) := by
  unfold noteBranch
  split
  · exact note_obeys (terms.routine (.note .branchEnded) trivial)
  · exact FutureObeys.pure

/-- A branch is spawned, and asks for what its task does. -/
theorem runBranch_obeys (hRunner : r.Obeys L env) (terms : ScopeTerms env wf may)
    {task : CompiledTask} (hTask : wf.HasTask task) (input : Value) (ticket : Nat) :
    FutureObeys L may (runBranch r wf ctx task input ticket) := by
  apply FutureObeys.seq (ask_routine terms.toTerms .spawned trivial)
  intro _
  apply FutureObeys.seq (hRunner.task ctx input ticket terms hTask).run
  intro result
  cases result with
  | ok exec =>
      exact FutureObeys.seq (noteBranch_obeys terms.toTerms task exec) fun _ => FutureObeys.pure
  | error e => exact FutureObeys.pure

/-- The branches of a fork run side by side. Each of them obeys, and so does what follows the join.
-/
theorem joinBranches_obeys (hRunner : r.Obeys L env) (terms : ScopeTerms env wf may)
    {branches : List CompiledTask} (hBranches : ∀ task ∈ branches, wf.HasTask task)
    (input : Value) (ticket need : Nat) :
    FutureObeys L may (joinBranches r wf ctx branches input ticket need) := by
  apply FutureObeys.seq (ask_routine terms.toTerms .getLocal trivial)
  intro loc
  have hBranch : ∀ i, FutureObeys L may (runBranch r wf ctx (branches.get i) input ticket) :=
    fun i => runBranch_obeys hRunner terms (hBranches _ (List.get_mem _ i)) input ticket
  exact ⟨fun i => ⟨fun h => (by cases h), hBranch i⟩, fun finished => trivial⟩

/-- A fork task asks for what its branches do. -/
theorem taskFork_obeys (hRunner : r.Obeys L env) (terms : ScopeTerms env wf may)
    {branches : List CompiledTask} (hBranches : ∀ task ∈ branches, wf.HasTask task)
    (compete : Bool) (input : Value) (position : Nat) :
    Obeys L may (taskFork env r wf ctx branches compete input position) := by
  have hJoin : ∀ need, Obeys L may (liftM (joinBranches r wf ctx branches input position need)) :=
    fun need => Obeys.lift (joinBranches_obeys hRunner terms hBranches input position need)
  unfold taskFork
  split
  · exact Obeys.pure
  · split
    · exact Obeys.seq (hJoin 1) fun _ => Obeys.ofExcept
    · exact Obeys.seq (hJoin branches.length) fun _ => Obeys.ofExcept

/-- The conditions of a switch are evaluated until one of them holds. -/
theorem matchCases_obeys {cases_ : List SwitchCase}
    (hSource : Evaluates may (cases_.flatMap SwitchCase.sources)) (taskInput : Value)
    (vars : Map) : Obeys L may (matchCases env taskInput vars cases_) := by
  induction cases_ with
  | nil => exact Obeys.pure
  | cons case rest ih =>
      rw [List.flatMap_cons] at hSource
      have hCase : Evaluates may case.sources := hSource.mono fun _ => List.mem_append_left _
      rw [matchCases]
      apply Obeys.seq (conditionHolds_obeys hCase _ _ _)
      intro matched
      split
      · exact Obeys.pure
      · exact ih (hSource.mono fun _ => List.mem_append_right _)

/-- The two conditions of a catch or a retry are evaluated one after the other. -/
theorem conditionsHold_obeys (terms : Terms env wf may) {when exceptWhen : Option String}
    (hSource : Evaluates may (expressions (when.toList ++ exceptWhen.toList))) :
    Obeys L may (conditionsHold env when exceptWhen exprCtx) := by
  rw [expressions, List.map_append] at hSource
  apply Obeys.seq (do_routine terms .getLocal trivial)
  intro loc
  apply Obeys.seq (conditionHolds_obeys (hSource.mono fun _ => List.mem_append_left _) _ _ _)
  intro wanted
  split
  · refine Obeys.seq ?_ fun _ => Obeys.pure
    exact conditionHolds_obeys (hSource.mono fun _ => List.mem_append_right _) _ _ _
  · exact Obeys.pure

/-- Whether an error is caught is asked of the conditions of the catch. -/
theorem catchMatches_obeys (terms : Terms env wf may) {catch_ : CatchDef}
    (hSource : Evaluates may catch_.sources) (err : WorkflowError) :
    Obeys L may (catchMatches env catch_ err exprCtx) := by
  unfold catchMatches
  split
  · refine conditionsHold_obeys terms (hSource.mono fun source hMem => ?_)
    rw [CatchDef.sources, expressions, List.map_append]
    exact List.mem_append_left _ hMem
  · exact Obeys.pure

/-- Whether it is retried is asked of the conditions of the retry. -/
theorem retryable_obeys (terms : Terms env wf may) {catch_ : CatchDef}
    (hSource : Evaluates may catch_.sources) :
    Obeys L may (retryable env catch_.retry exprCtx) := by
  cases hRetry : catch_.retry with
  | none => exact Obeys.pure
  | some policy =>
      refine conditionsHold_obeys terms (hSource.mono fun source hMem => ?_)
      rw [CatchDef.sources, expressions, List.map_append, hRetry]
      apply List.mem_append_right
      simpa [expressions] using hMem

/-- The delay before a retry asks for a random number, if it has a jitter. -/
theorem computeDelay_obeys (terms : Terms env wf may) (retry : RetryPolicyDef) (attempt : Nat) :
    FutureObeys L may (computeDelay retry attempt) := by
  unfold computeDelay
  split
  · exact FutureObeys.pure
  · exact FutureObeys.seq (ask_routine terms (.jitter _) trivial) fun _ => FutureObeys.pure

/-- A wait asks for the sleep, and remembers whether it was cancelled. -/
theorem waitWithCancel_obeys (terms : ScopeTerms env wf may) (duration : Nat) :
    Obeys L may (waitWithCancel ctx duration) := by
  apply Obeys.seq (failIfCancelled_obeys terms)
  intro _
  apply Obeys.seq (do_routine terms.toTerms .notified trivial)
  intro epoch
  apply Obeys.seq (do_routine terms.toTerms (.sleep duration epoch) trivial)
  intro woken
  split
  · exact stop_obeys terms
  · exact Obeys.pure

/-- A handler runs as a scope of the workflow. -/
theorem recover_obeys (hRunner : r.Obeys L env) (terms : ScopeTerms env wf may)
    {handler : Option (List CompiledTask)} (hHandler : ∀ scope ∈ handler, wf.HasScope scope)
    (taskInput : Value) : Obeys L may (tryLoop.recover r wf ctx handler taskInput) := by
  cases handler with
  | none => exact Obeys.pure
  | some scope => exact hRunner.scope ctx taskInput terms (hHandler scope rfl)

/-- A round of a `try` task, when the rounds after it keep to what is allowed. -/
theorem tryRound_obeys (hRunner : r.Obeys L env) (terms : ScopeTerms env wf may)
    {body : List CompiledTask} (hBody : wf.HasScope body) {catch_ : CatchDef}
    (hSource : Evaluates may catch_.sources) {handler : Option (List CompiledTask)}
    (hHandler : ∀ scope ∈ handler, wf.HasScope scope) (taskInput : Value)
    (remaining attempt : Nat)
    (hAgain : ∀ left, remaining = left + 1 →
      Obeys L may (tryLoop env r wf ctx body catch_ handler taskInput exprCtx left (attempt + 1))) :
    Obeys L may (tryLoop env r wf ctx body catch_ handler taskInput exprCtx remaining attempt) := by
  have recovers : Obeys L may (tryLoop.recover r wf ctx handler taskInput) :=
    recover_obeys hRunner terms hHandler taskInput
  rw [tryLoop.eq_def]
  apply Obeys.seq (failIfCancelled_obeys terms)
  intro _
  apply Obeys.seq (hRunner.scope ctx taskInput terms hBody).outcome
  intro result
  cases result with
  | ok output => exact Obeys.pure
  | error err =>
      apply Obeys.seq (do_obeys (terms.local_ (.bindVar _ _) trivial))
      intro _
      apply Obeys.seq (catchMatches_obeys terms.toTerms hSource err)
      intro caught
      split
      · apply Obeys.seq (retryable_obeys terms.toTerms hSource)
        intro again
        split
        · split
          · apply Obeys.seq (Obeys.lift (computeDelay_obeys terms.toTerms _ _))
            intro delay
            apply Obeys.seq (waitWithCancel_obeys terms delay)
            intro _
            exact hAgain _ rfl
          · exact recovers
        · exact recovers
      · exact Obeys.throw

/-- The attempts of a try task run its body, and ask what follows of the conditions of the catch.
The induction is on the attempts that are left. -/
theorem taskTry_obeys (hRunner : r.Obeys L env) (terms : ScopeTerms env wf may)
    {body : List CompiledTask} (hBody : wf.HasScope body) {catch_ : CatchDef}
    (hSource : Evaluates may catch_.sources) {handler : Option (List CompiledTask)}
    (hHandler : ∀ scope ∈ handler, wf.HasScope scope) (taskInput : Value) :
    Obeys L may (taskTry env r wf ctx body catch_ handler taskInput exprCtx) := by
  unfold taskTry
  generalize (catch_.retry.bind (·.attemptCount)).getD 0 = remaining
  generalize 0 = attempt
  induction remaining generalizing attempt with
  | zero => exact tryRound_obeys hRunner terms hBody hSource hHandler _ _ _ fun left h => by omega
  | succ remaining ih =>
      apply tryRound_obeys hRunner terms hBody hSource hHandler
      intro left hLeft
      obtain rfl : remaining = left := by omega
      exact ih (attempt + 1)

/-- The attributes of an event are evaluated in their order. -/
theorem emitAttributes_obeys {attributes : Map}
    (hSource : Evaluates may ((Value.entryStrings attributes).map .template))
    (event : CloudEvent) : Obeys L may (emitAttributes env exprCtx attributes event) := by
  induction attributes generalizing event with
  | nil => exact Obeys.pure
  | cons entry rest ih =>
      rw [Value.entryStrings, List.map_append] at hSource
      have hFirst : Evaluates may (entry.2.strings.map .template) :=
        hSource.mono fun _ => List.mem_append_left _
      apply Obeys.seq (deepInterpolate_obeys entry.2 hFirst)
      intro resolved
      exact ih (hSource.mono fun _ => List.mem_append_right _) _

/-- An emit task asks for an id and the time, evaluates its attributes and publishes the event. -/
theorem taskEmit_obeys (terms : Terms env wf may) {attributes : Map}
    (hSource : Evaluates may ((Value.entryStrings attributes).map .template)) :
    Obeys L may (taskEmit env wf attributes exprCtx) := by
  have hId : ∀ event, FutureObeys L may (withId event) := by
    intro event
    unfold withId
    split
    · exact FutureObeys.seq (ask_routine terms .newUuid trivial) fun _ => FutureObeys.pure
    · exact FutureObeys.pure
  have hTime : ∀ event, FutureObeys L may (withTime env event) := by
    intro event
    unfold withTime
    split
    · exact FutureObeys.seq (ask_routine terms .epochSeconds trivial) fun _ => FutureObeys.pure
    · exact FutureObeys.pure
  apply Obeys.seq (emitAttributes_obeys hSource _)
  intro event
  apply Obeys.seq (Obeys.lift (hId event))
  intro event
  split
  · exact Obeys.throw
  · apply Obeys.seq (Obeys.lift (hTime event))
    intro event
    apply Obeys.seq (FutureObeys.mk (ask_routine terms (.publish none event.toMessage) trivial))
    intro _
    exact Obeys.pure

/-- The correlation keys of a filter are evaluated on the event, one after the other, up to the
first on which the event differs from its group. -/
theorem correlateKeys_obeys {keys : List CorrelationDef}
    (hSource : Evaluates may (keys.flatMap CorrelationDef.sources)) (event : EventMessage)
    (vars trial : Map) : FutureObeys L may (correlateKeys env event vars keys trial) := by
  induction keys generalizing trial with
  | nil => exact FutureObeys.pure
  | cons key rest ih =>
      rw [List.flatMap_cons] at hSource
      have hKey : Evaluates may key.sources := hSource.mono fun _ => List.mem_append_left _
      have hRest := fun trial => ih (hSource.mono fun _ => List.mem_append_right _) trial
      rw [correlateKeys]
      have hFrom : Evaluates may [.expression key.from_] :=
        hKey.mono (by simp [CorrelationDef.sources, expressions])
      apply FutureObeys.seq (evalExpr_obeys hFrom _ _ _).run
      intro result
      split
      · exact FutureObeys.pure
      · split
        · rename_i expect hExpect
          have hExpected : Evaluates may [.expression expect] :=
            hKey.mono (by simp [CorrelationDef.sources, expressions, hExpect])
          apply FutureObeys.seq (evalExpr_obeys hExpected _ _ _).run
          intro want
          split
          · exact FutureObeys.pure
          · split
            · exact hRest _
            · exact FutureObeys.pure
        · split
          · split
            · exact hRest _
            · exact FutureObeys.pure
          · exact hRest _

/-- The texts which a compiled filter evaluates. -/
def CompiledListenFilter.sources (filter : CompiledListenFilter) : List ExpressionSource :=
  filter.correlate.flatMap CorrelationDef.sources

/-- A filter evaluates its correlation keys where the attributes of the event match. -/
theorem filterMatches_obeys {filter : CompiledListenFilter}
    (hSource : Evaluates may filter.sources) (event : EventMessage) (vars group : Map) :
    FutureObeys L may (filterMatches env filter event vars group) := by
  unfold filterMatches
  split
  · exact correlateKeys_obeys hSource event vars group
  · exact FutureObeys.pure

/-- Filters are tried one after the other, until the event passes one. -/
theorem matchesAny_obeys {filters : List CompiledListenFilter}
    (hSource : Evaluates may (filters.flatMap CompiledListenFilter.sources))
    (event : EventMessage) (vars trial : Map) :
    FutureObeys L may (matchesAny env event vars filters trial) := by
  induction filters with
  | nil => exact FutureObeys.pure
  | cons f rest ih =>
      rw [List.flatMap_cons] at hSource
      rw [matchesAny]
      have hFirst : Evaluates may f.sources := hSource.mono fun _ => List.mem_append_left _
      apply FutureObeys.seq (filterMatches_obeys hFirst event vars trial)
      intro found
      split
      · exact FutureObeys.pure
      · exact ih (hSource.mono fun _ => List.mem_append_right _)

/-- Marking keeps the filters and their order, and changes only their marks; all it asks for are the
evaluations of the filters. -/
theorem markSatisfied_asks {filters : List (CompiledListenFilter × Bool)}
    (hSource : Evaluates may ((filters.map Prod.fst).flatMap CompiledListenFilter.sources))
    (event : EventMessage) (vars group : Map) :
    L.Asks (markSatisfied env event vars filters group) may fun marked =>
      marked.1.map Prod.fst = filters.map Prod.fst := by
  induction filters generalizing group with
  | nil => exact rfl
  | cons entry rest ih =>
      obtain ⟨f, satisfied⟩ := entry
      rw [List.map_cons, List.flatMap_cons] at hSource
      have hFirst : Evaluates may f.sources := hSource.mono fun _ => List.mem_append_left _
      have hRest := fun group => ih (hSource.mono fun _ => List.mem_append_right _) group
      cases satisfied with
      | true =>
          rw [markSatisfied]
          exact Asks.seq (hRest group) fun marked hMarked => by simp [Asks, hMarked]
      | false =>
          rw [markSatisfied]
          apply Asks.seq (filterMatches_obeys hFirst event vars group)
          intro found _
          split
          · exact Asks.seq (hRest _) fun marked hMarked => by simp [Asks, hMarked]
          · exact Asks.seq (hRest _) fun marked hMarked => by simp [Asks, hMarked]

/-- The texts which the filters of a listen task evaluate. -/
def GatherState.sources (s : GatherState) : List ExpressionSource :=
  (s.filters.map Prod.fst).flatMap CompiledListenFilter.sources ++
    (s.untilFilters.map Prod.fst).flatMap CompiledListenFilter.sources

/-- Accepting an event evaluates the filters that are left, and leaves the sources of the state as
they are. -/
theorem accept_asks {s : GatherState} (hSource : Evaluates may s.sources) (need : ListenNeed)
    (vars : Map) (event : EventMessage) :
    L.Asks (s.accept env need vars event) may fun accepted => accepted.1.sources = s.sources := by
  have hFilters : Evaluates may ((s.filters.map Prod.fst).flatMap CompiledListenFilter.sources) :=
    hSource.mono fun _ => List.mem_append_left _
  cases need with
  | one =>
      have hOne : FutureObeys L may (s.matchesOne env vars event) := by
        unfold GatherState.matchesOne
        split
        · exact FutureObeys.pure
        · exact matchesAny_obeys hFilters event vars _
      apply Asks.seq hOne
      intro matched _
      split <;> exact rfl
  | all count =>
      apply Asks.seq (markSatisfied_asks hFilters event vars _)
      intro marked hMarked
      simp [Asks, GatherState.sources, hMarked]

/-- So does the check whether the event ends the listening. -/
theorem acceptUntil_asks {s : GatherState} (hSource : Evaluates may s.sources) (vars : Map)
    (event : EventMessage) (accepted : Bool) :
    L.Asks (s.acceptUntil env vars event accepted) may fun t => t.sources = s.sources := by
  unfold GatherState.acceptUntil
  split
  · exact rfl
  · apply Asks.seq (markSatisfied_asks (hSource.mono fun _ => List.mem_append_right _) event vars _)
    intro marked hMarked
    dsimp only
    split <;> simp [Asks, GatherState.sources, hMarked]

/-- The loop of a listen task receives events and tries its filters on them. The induction is on the
fuel, with the sources of the state as the invariant. -/
theorem gatherListenEvents_obeys (terms : ScopeTerms env wf may) {untilExpression : Option String}
    (hUntil : Evaluates may (expressions untilExpression.toList)) (vars : Map) (need : ListenNeed)
    (hasUntil : Bool) (read : String) (fuel : Nat) {s : GatherState}
    (hSource : Evaluates may s.sources) :
    Obeys L may (gatherListenEvents env ctx vars need untilExpression hasUntil read fuel s) := by
  induction fuel generalizing s with
  | zero => exact outOfFuel_obeys terms.toTerms
  | succ fuel ih =>
      rw [gatherListenEvents]
      split
      · exact Obeys.pure
      · apply Obeys.seq (do_routine terms.toTerms .notified trivial)
        intro epoch
        apply Obeys.seq (do_routine terms.toTerms (.receive epoch) trivial)
        intro received
        split
        · exact stop_obeys terms
        · exact Obeys.pure
        · rename_i event
          apply AsksOk.seq (AsksOk.lift (accept_asks hSource need vars event))
          intro accepted hAccepted
          have hSource' : Evaluates may accepted.1.sources := by rwa [hAccepted]
          apply AsksOk.seq (AsksOk.lift (acceptUntil_asks hSource' vars event accepted.2))
          intro t hSame
          apply Obeys.seq (conditionHolds_obeys hUntil _ _ _)
          intro stop
          apply ih
          show Evaluates may t.sources
          rwa [hSame]

/-- The iterations of a listen task bind and unbind the loop variables and run the body. -/
theorem foreachItems_obeys (hRunner : r.Obeys L env) (terms : ScopeTerms env wf may)
    (fe : ListenForeachDef) {body : List CompiledTask} (hBody : wf.HasScope body)
    (atName : String) (items : List Value) (index : Nat) :
    Obeys L may (foreachItems r wf ctx fe body atName index items) := by
  induction items generalizing index with
  | nil => exact Obeys.pure
  | cons item rest ih =>
      rw [foreachItems]
      apply Obeys.seq (failIfCancelled_obeys terms)
      intro _
      apply Obeys.seq (do_obeys (terms.local_ (.bindVar fe.item item) trivial))
      intro _
      apply Obeys.seq (do_obeys (terms.local_ (.bindVar atName (.ofNat index)) trivial))
      intro _
      apply Obeys.seq (hRunner.scope ctx item terms hBody)
      intro output
      apply Obeys.seq (do_obeys (terms.local_ (.unbindVar fe.item) trivial))
      intro _
      apply Obeys.seq (do_obeys (terms.local_ (.unbindVar atName) trivial))
      intro _
      apply Obeys.seq (do_routine terms.toTerms .loadEnded trivial)
      intro ended
      split
      · exact Obeys.pure
      · exact Obeys.seq (ih _) fun _ => Obeys.pure

/-- Compiling the filters of a strategy keeps their sources. -/
theorem buildFilters_sources (filters : List EventFilterDef) :
    (filters.map buildFilter).flatMap CompiledListenFilter.sources =
      filters.flatMap EventFilterDef.sources := by
  rw [List.flatMap_map]
  rfl

/-- So the filters of a listen task have the sources of its strategy. -/
theorem listenFilters_sources (to_ : ListenTo) :
    (listenFilters to_).1.flatMap CompiledListenFilter.sources =
      to_.filters.flatMap EventFilterDef.sources := by
  cases to_ with
  | one filter => exact buildFilters_sources [filter]
  | any filters => exact buildFilters_sources filters
  | all filters => exact buildFilters_sources filters

/-- Waiting for events: the filters and the stop condition are those of the task. -/
theorem gather_obeys (terms : ScopeTerms env wf may) {filters untilFilters : List CompiledListenFilter}
    {untilExpression : Option String}
    (hFilters : Evaluates may (filters.flatMap CompiledListenFilter.sources))
    (hUntilFilters : Evaluates may (untilFilters.flatMap CompiledListenFilter.sources))
    (hUntil : Evaluates may (expressions untilExpression.toList)) (vars : Map) (need : ListenNeed)
    (hasUntil : Bool) (read : String) (fuel : Nat) :
    Obeys L may (gatherListenEvents env ctx vars need untilExpression hasUntil read fuel
      { consumed := [], filters := filters.map (·, false)
        untilFilters := untilFilters.map (·, false), untilSatisfied := false, group := [] }) := by
  refine gatherListenEvents_obeys terms hUntil vars need hasUntil read fuel fun source hMem => ?_
  have hFirst : ∀ list : List CompiledListenFilter,
      (list.map fun f => (f, false)).map Prod.fst = list := by
    intro list
    rw [List.map_map]
    exact List.map_id list
  rw [GatherState.sources, hFirst, hFirst] at hMem
  rcases List.mem_append.mp hMem with hMem | hMem
  · exact hFilters source hMem
  · exact hUntilFilters source hMem

/-- What a listen task does with the events that it has gathered. -/
theorem listenResult_obeys (hRunner : r.Obeys L env) (terms : ScopeTerms env wf may)
    (foreach_ : Option (ListenForeachDef × List CompiledTask)) (values : List Value) :
    (∀ fe ∈ foreach_, wf.HasScope fe.2) → Obeys L may
      (match foreach_ with
      | some (fe, body) => do
          return .array (← foreachItems r wf ctx fe body (fe.at_.getD "index") 0 values)
      | none => return .array values : Run Value) := by
  intro hForeach
  cases foreach_ with
  | none => exact Obeys.pure
  | some fe =>
      refine Obeys.seq ?_ fun _ => Obeys.pure
      exact foreachItems_obeys hRunner terms fe.1 (hForeach fe rfl) _ _ _

/-- A listen task subscribes, gathers its events, and then iterates over them if it has an iterator.
-/
theorem taskListen_obeys (hRunner : r.Obeys L env) (terms : ScopeTerms env wf may)
    {listen : ListenDef} (hSource : Evaluates may listen.sources)
    {foreach_ : Option (ListenForeachDef × List CompiledTask)}
    (hForeach : ∀ fe ∈ foreach_, wf.HasScope fe.2) :
    Obeys L may (taskListen env r wf ctx listen foreach_ exprCtx) := by
  have hFilters : Evaluates may
      ((listenFilters listen.to_).1.flatMap CompiledListenFilter.sources) := by
    rw [listenFilters_sources]
    exact hSource.mono fun _ => List.mem_append_left _
  have hRest : ∀ until_ ∈ listen.until_, Evaluates may until_.sources := by
    intro until_ hUntil
    refine hSource.mono fun _ hMem => List.mem_append_right _ ?_
    exact List.mem_flatMap.mpr ⟨until_, Option.mem_toList.mpr hUntil, hMem⟩
  have hNoFilter : Evaluates may
      (([] : List CompiledListenFilter).flatMap CompiledListenFilter.sources) :=
    fun _ hMem => (by cases hMem)
  have hNoExpression : Evaluates may (expressions (none : Option String).toList) :=
    fun _ hMem => (by cases hMem)
  have hResult := fun values => @listenResult_obeys L may env wf ctx r hRunner terms foreach_ values hForeach
  have hSubscribe : Obeys L may subscribe :=
    FutureObeys.mk (ask_routine terms.toTerms .subscribe trivial)
  unfold taskListen
  apply Obeys.seq hSubscribe
  intro _
  cases hUntil : listen.until_ with
  | none =>
      apply Obeys.seq (gather_obeys terms hFilters hNoFilter hNoExpression _ _ _ _ _)
      intro consumed
      exact hResult _
  | some until_ =>
      cases until_ with
      | expression source =>
          have hThis : Evaluates may (expressions (some source).toList) := hRest _ hUntil
          apply Obeys.seq (gather_obeys terms hFilters hNoFilter hThis _ _ _ _ _)
          intro consumed
          exact hResult _
      | strategy filters =>
          have hThis : Evaluates may
              ((filters.map buildFilter).flatMap CompiledListenFilter.sources) := by
            rw [buildFilters_sources]
            exact hRest _ hUntil
          apply Obeys.seq (gather_obeys terms hFilters hThis hNoExpression _ _ _ _ _)
          intro consumed
          exact hResult _

/-- A call of a function that is not known leaves a note, and fails. -/
theorem unknownFunction_obeys {name : String} (hMay : may (.note (.unresolved name)))
    (message : String) : Obeys L may (unknownFunction name message : Run α) :=
  Obeys.seq (Obeys.lift (note_obeys hMay)) fun _ => Obeys.throw

/-- A call evaluates its own arguments and hands its request over, or leaves the note that the
function is not known. -/
theorem taskCall_obeys (terms : Terms env wf may) {def_ : CallDef}
    (hSource : Evaluates may (templates (def_.with_.getD [])))
    (hLacks : ∀ name, def_.Lacks env wf name → may (.note (.unresolved name))) :
    Obeys L may (taskCall env wf def_ exprCtx) := by
  apply Obeys.seq (interpolateEntries_obeys hSource)
  intro args
  split
  · exact invokeFunction_obeys terms _ _
  · rename_i hOwn
    split
    · rename_i call with_ hReusable
      split
      · exact invokeFunction_obeys terms _ _
      · rename_i hTarget
        exact unknownFunction_obeys (hLacks call (.target hOwn hReusable hTarget)) _
    · rename_i hReusable
      exact unknownFunction_obeys (hLacks def_.call (.function hOwn hReusable)) _

/-- The arguments and the environment of a process are evaluated, the process is run, and its result
is read; only the first of these depends on the texts of the task. -/
theorem processTail_obeys (terms : Terms env wf may) {command arguments : List String}
    {environment : List (String × String)} {stdin : Option String}
    (hSource : Evaluates may (commandSources command arguments environment stdin))
    (request : List String → Option String → List (String × String) → ProcessRequest)
    (return_ : RunReturn) :
    Obeys L may (do
      let args ← interpolateStrings env exprCtx arguments
      let stdin ← interpolateOptString env stdin exprCtx
      let envVars ← interpolateEnv env exprCtx environment
      let result ← runProcess (request args stdin envVars)
      return processOutput result return_) := by
  apply Obeys.seq (interpolateStrings_obeys (hSource.mono (by simp [commandSources]; tauto)))
  intro args
  apply Obeys.seq (interpolateOptString_obeys (hSource.mono (by simp [commandSources]; tauto)))
  intro stdin
  apply Obeys.seq (interpolateEnv_obeys (hSource.mono (by simp [commandSources]; grind)))
  intro envVars
  apply Obeys.seq (FutureObeys.mk (ask_routine terms (.process _) trivial))
  intro result
  exact Obeys.pure

/-- A run task evaluates the texts of its process and hands it to the world, or runs a workflow. -/
theorem taskRun_obeys (hRunner : r.Obeys L env) (terms : Terms env wf may) {run : RunDef}
    (hSource : Evaluates may run.process.sources) (taskInput : Value) :
    Obeys L may (taskRun env r run taskInput exprCtx) := by
  unfold taskRun
  split
  · exact Obeys.pure
  · cases hProcess : run.process with
    | shell command arguments environment stdin =>
        rw [hProcess, RunProcess.sources] at hSource
        apply Obeys.seq (interpolateString_obeys (hSource.mono (by simp [commandSources])))
        intro command
        exact processTail_obeys terms hSource (fun args stdin envVars => .shell command args envVars stdin) _
    | script language code arguments environment stdin =>
        rw [hProcess, RunProcess.sources] at hSource
        apply Obeys.seq (interpolateString_obeys (hSource.mono (by simp [commandSources])))
        intro code
        exact processTail_obeys terms hSource
          (fun args stdin envVars => .script language code args envVars stdin) _
    | container image arguments environment stdin =>
        rw [hProcess, RunProcess.sources] at hSource
        exact processTail_obeys terms hSource
          (fun args stdin envVars => .container image args envVars stdin) _
    | workflow namespace_ name version input =>
        rw [hProcess, RunProcess.sources] at hSource
        apply Obeys.seq (interpolateValue_obeys hSource)
        intro input
        apply Obeys.seq (do_routine terms (.findWorkflow _) trivial)
        intro found
        cases found with
        | none => exact Obeys.throw
        | some sub => exact hRunner.workflow sub _ terms

/-- A raise task whose error is not known leaves a note. -/
theorem noteError_obeys (terms : Terms env wf may) {task : CompiledTask} (hTask : wf.HasTask task)
    {error : ErrorRef} (hKind : task.kind = .raise error) :
    FutureObeys L may (noteError wf error) := by
  unfold noteError
  split
  · rename_i hNone
    exact note_obeys (terms.unresolved (.error hTask hKind (Option.isNone_iff_eq_none.mp hNone)))
  · exact FutureObeys.pure

/-- Within the terms of a workflow, the sources of a task of any kind may be evaluated. -/
theorem Terms.kind (terms : Terms env wf may) {task : CompiledTask} (hTask : wf.HasTask task) :
    Evaluates may task.kind.sources :=
  fun _ hMem => terms.evaluates (.task hTask (List.mem_append_right _ hMem))

/-- The body of a task makes only requests that its workflow allows. -/
theorem dispatch_obeys (hRunner : r.Obeys L env) (terms : ScopeTerms env wf may)
    {task : CompiledTask} (hTask : wf.HasTask task) (taskInput : Value) (position : Nat) :
    Obeys L may (dispatch env r wf ctx task taskInput exprCtx position) := by
  have hPlain : ∀ {output : Run Value}, Obeys L may output → Obeys L may (dispatch.plain output) :=
    fun obeys => Obeys.seq obeys fun _ => Obeys.pure
  have hScope : ∀ scope ∈ task.kind.childScopes, wf.HasScope scope :=
    fun scope hMem => hTask.hasScope hMem
  have hBranch : ∀ inner ∈ task.kind.forkBranches, wf.HasTask inner :=
    fun inner hMem => hTask.branch hMem
  have hSource := terms.kind hTask
  unfold dispatch
  cases hKind : task.kind with
  | set values =>
      rw [hKind] at hSource
      exact hPlain (taskSet_obeys hSource)
  | do_ body =>
      exact hPlain (hRunner.scope ctx _ terms (hScope body (by simp [hKind, CompiledTaskKind.childScopes])))
  | for_ loop body =>
      rw [hKind] at hSource
      exact hPlain (taskFor_obeys hRunner terms
        (hScope body (by simp [hKind, CompiledTaskKind.childScopes])) hSource taskInput)
  | fork branches compete =>
      refine hPlain (taskFork_obeys hRunner terms (fun inner hMem => ?_) compete taskInput position)
      exact hBranch inner (by simpa [hKind, CompiledTaskKind.forkBranches] using hMem)
  | switch cases_ =>
      rw [hKind] at hSource
      exact Obeys.seq (matchCases_obeys hSource taskInput _) fun _ => Obeys.pure
  | try_ body catch_ handler =>
      rw [hKind] at hSource
      refine hPlain (taskTry_obeys hRunner terms
        (hScope body (by simp [hKind, CompiledTaskKind.childScopes])) hSource ?_ taskInput)
      intro scope hMem
      exact hScope scope (by simpa [hKind, CompiledTaskKind.childScopes] using Or.inr hMem)
  | emit event =>
      rw [hKind] at hSource
      exact hPlain (taskEmit_obeys terms.toTerms hSource)
  | listen listen foreach_ =>
      rw [hKind] at hSource
      refine hPlain (taskListen_obeys hRunner terms hSource fun fe hMem => ?_)
      refine hScope fe.2 ?_
      rw [hKind, CompiledTaskKind.childScopes, Option.mem_toList]
      exact Option.mem_map_of_mem Prod.snd hMem
  | raise error =>
      exact Obeys.seq (Obeys.lift (noteError_obeys terms.toTerms hTask hKind)) fun _ => Obeys.throw
  | call def_ =>
      rw [hKind] at hSource
      refine hPlain (taskCall_obeys terms.toTerms hSource fun name hLacks => ?_)
      exact terms.unresolved (.function hTask hKind hLacks)
  | run run =>
      rw [hKind] at hSource
      exact hPlain (taskRun_obeys hRunner terms.toTerms hSource taskInput)
  | wait duration =>
      exact hPlain (Obeys.seq (waitWithCancel_obeys terms duration) fun _ => Obeys.pure)

end Tasks

end OwsRuntime
