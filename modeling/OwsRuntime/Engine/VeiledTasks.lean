import OwsRuntime.Engine.Requests
import OwsRuntime.Engine.Veils

/-! Tasks under a veil. Whatever kind of task it is, it asks for the same under other
secrets, when it is given none of those that differ, or when it calls no function and what
it evaluates does not depend on the secrets. -/
namespace OwsRuntime

open Async Coupling

variable {env : RuntimeInner} {t : String → Option String} {s : List (String × String)}
  {wf : CompiledWorkflow} {r r' : Runner} {ctx : ExecContext} {exprCtx : ExpressionContext}
  {α β : Type} {v w : Map}

/-- The two futures ask for the same, and return the same. -/
abbrev FutureVeil (env : RuntimeInner) (t : String → Option String) (p q : Future α) : Prop :=
  (veils env t).Twins p q Eq

abbrev Veil (env : RuntimeInner) (t : String → Option String) (x y : Run α) : Prop :=
  (veils env t).TwinRuns x y Eq

section Rules

/-- A program that does not look at the store of secrets runs alike under both. -/
theorem veils_reflexive (env : RuntimeInner) (t : String → Option String) :
    (veils env t).Reflexive where
  pairs a := .same a
  replies := fun hReply => eq_of_heq hReply.1
  locals _ := rfl
  shareds e := .refl e

/-- What does not depend on the store of secrets is veiled as it stands. -/
theorem FutureVeil.refl (p : Future α) : FutureVeil env t p p := Twins.refl (veils_reflexive env t) p

/-- Veils compose: what follows only sees what has been returned, which is the same under both
stores. -/
theorem FutureVeil.seq {p q : Future α} {f g : α → Future β} (first : FutureVeil env t p q)
    (second : ∀ value, FutureVeil env t (f value) (g value)) :
    FutureVeil env t (p >>= f) (q >>= g) := by
  apply Twins.bind first
  rintro a b rfl
  exact second a

/-- A fallible program without a look at the store is veiled as it stands. -/
theorem Veil.refl (x : Run α) : Veil env t x x :=
  (Twins.refl (veils_reflexive env t) x.run).mono fun result _ hSame => hSame ▸ .refl result

/-- Veils of fallible programs compose: they fail with the same error, or go on from the same value.
-/
theorem Veil.seq {x y : Run α} {f g : α → Run β} (first : Veil env t x y)
    (second : ∀ value, Veil env t (f value) (g value)) : Veil env t (x >>= f) (y >>= g) := by
  apply TwinRuns.seq first
  rintro a b rfl
  exact second a

/-- A veil of a fallible program is one of the program that returns its result. -/
theorem Veil.run {x y : Run α} (veil : Veil env t x y) : FutureVeil env t x.run y.run :=
  Twins.mono veil fun _ _ hOutcome => hOutcome.eq

/-- An infallible program under a veil stays under it where failures are possible. -/
theorem Veil.lift {p q : Future α} (veil : FutureVeil env t p q) :
    Veil env t (liftM p : Run α) (liftM q) := TwinRuns.lift veil

/-- Looking at the outcome of a program tells no more than the program itself. -/
theorem Veil.outcome {x y : Run α} (veil : Veil env t x y) : Veil env t (outcome x) (outcome y) :=
  Veil.lift veil.run

/-- A program which returns a result is veiled just as the fallible one that it makes up. -/
theorem FutureVeil.mk {p q : Future (Except WorkflowError α)} (veil : FutureVeil env t p q) :
    Veil env t (ExceptT.mk p) (ExceptT.mk q) :=
  Twins.mono veil fun result _ hSame => hSame ▸ .refl result

/-- Notes that differ in the secrets alone. -/
theorem note_veil {n m : Note} (hNote : n.Veiled m) : FutureVeil env t (note n) (note m) :=
  ⟨.note m, _, rfl, .note hNote, fun _ _ _ => .done rfl⟩

/-- A law that allows everything, for what is known of the values alone. -/
def anyLaw : Law engine := ⟨fun _ _ => True, fun _ _ => True, fun _ => True⟩

/-- Where everything may be noted, the evaluation of any sources may be. -/
theorem evaluates_any (sources : List ExpressionSource) :
    Evaluates (fun _ : Act => True) sources := fun _ _ _ _ => trivial

/-- What is known of the value that both return. -/
theorem FutureVeil.and {p q : Future α} {P : α → Prop} (veil : FutureVeil env t p q)
    (asks : anyLaw.Asks p (fun _ => True) P) : (veils env t).Twins p q fun a b => a = b ∧ P a :=
  Twins.and veil (fun _ => trivial) asks

end Rules

section Variables

/-- A variable that both maps get makes no difference. -/
theorem Map.Veiled.insert (veiled : Map.Veiled v w) (key : String) (value : Value) :
    Map.Veiled (Map.insert key value v) (Map.insert key value w) := by
  intro name hName
  by_cases hKey : name = key
  · rw [hKey, Map.lookup_insert_self, Map.lookup_insert_self]
  · rw [Map.lookup_insert_of_ne value v hKey, Map.lookup_insert_of_ne value w hKey]
    exact veiled name hName

/-- The variable `secrets` may get a different value in each of two veiled maps. -/
theorem Map.Veiled.hide (veiled : Map.Veiled v w) (a b : Value) :
    Map.Veiled (Map.insert "secrets" a v) (Map.insert "secrets" b w) := by
  intro name hName
  rw [Map.lookup_insert_of_ne a v hName, Map.lookup_insert_of_ne b w hName]
  exact veiled name hName

/-- Loop variables and the like go into both maps. -/
theorem Map.Veiled.extend (veiled : Map.Veiled v w) (more : Map) :
    Map.Veiled (Map.extend v more) (Map.extend w more) := by
  induction more generalizing v w with
  | nil => exact veiled
  | cons entry rest ih => exact ih (veiled.insert entry.1 entry.2)

/-- The variables of two contexts that differ in their secrets differ in the variable `secrets`
alone. -/
theorem asVariableMap_veiled (exprCtx : ExpressionContext) (s : List (String × String)) :
    Map.Veiled exprCtx.asVariableMap (exprCtx.withSecrets s).asVariableMap := by
  have given : ∀ {v w : Map}, Map.Veiled v w → ∀ (name : String) (value : Option Value),
      Map.Veiled ((value.map fun x => Map.insert name x v).getD v)
        ((value.map fun x => Map.insert name x w).getD w) := by
    intro v w veiled name value
    cases value with
    | none => exact veiled
    | some x => exact veiled.insert name x
  have start : Map.Veiled [] [] := fun _ _ => rfl
  have standard := (((start.insert "context" exprCtx.context).insert "input" exprCtx.input).insert
    "output" exprCtx.output).hide
      (.object (Map.extend [] (exprCtx.secrets.map fun x => (x.1, Value.string x.2))))
      (.object (Map.extend [] (s.map fun x => (x.1, Value.string x.2))))
  exact (given (given (given (given standard "authorization" exprCtx.authorization) "task"
    exprCtx.task) "workflow" exprCtx.workflow) "runtime" exprCtx.runtime).extend exprCtx.extraVars

/-- The texts cannot tell the maps apart: nothing differs between them, or nothing but the
secrets, to which the texts are blind. -/
def Hidden (env : RuntimeInner) (sources : List ExpressionSource) (v w : Map) : Prop :=
  v = w ∨ Map.Veiled v w ∧ ∀ source ∈ sources, env.Blind source

/-- The texts cannot tell other secrets in the context. -/
abbrev ExpressionContext.Hides (env : RuntimeInner) (s : List (String × String))
    (exprCtx : ExpressionContext) (sources : List ExpressionSource) : Prop :=
  Hidden env sources exprCtx.asVariableMap (exprCtx.withSecrets s).asVariableMap

/-- An execution of a workflow cannot tell other secrets in its context. -/
def Shielded (env : RuntimeInner) (s : List (String × String)) (wf : CompiledWorkflow)
    (ctx : ExecContext) : Prop := ctx.secrets = s ∨ wf.Discreet env

variable {sources fewer : List ExpressionSource}

/-- Fewer sources see no more of a difference. -/
theorem Hidden.mono (hidden : Hidden env sources v w)
    (hFewer : ∀ source ∈ fewer, source ∈ sources) : Hidden env fewer v w :=
  hidden.imp_right (And.imp_right fun blind source hMem => blind source (hFewer source hMem))

/-- What neither of two lists of sources sees, both together do not see. -/
theorem Hidden.append {more : List ExpressionSource} (first : Hidden env sources v w)
    (second : Hidden env more v w) : Hidden env (sources ++ more) v w := by
  rcases first with hSame | ⟨veiled, blind⟩
  · exact Or.inl hSame
  · rcases second with hSame | ⟨_, blindMore⟩
    · exact Or.inl hSame
    · refine Or.inr ⟨veiled, fun source hMem => ?_⟩
      rcases List.mem_append.mp hMem with hMem | hMem
      · exact blind source hMem
      · exact blindMore source hMem

/-- Whether no source looks at the secrets or there is no difference, the maps differ in `secrets`
alone. -/
theorem Hidden.veiled (hidden : Hidden env sources v w) : Map.Veiled v w := by
  rcases hidden with rfl | ⟨veiled, _⟩
  · exact fun _ _ => rfl
  · exact veiled

/-- A difference in the secrets stays hidden as variables are added to both maps. -/
theorem Hidden.extend (hidden : Hidden env sources v w) (more : Map) :
    Hidden env sources (Map.extend v more) (Map.extend w more) := by
  rcases hidden with rfl | ⟨veiled, blind⟩
  · exact Or.inl rfl
  · exact Or.inr ⟨veiled.extend more, blind⟩

/-- An expression that does not see the difference has the same value, or fails with the same error.
-/
theorem Hidden.expression {source : String} (hidden : Hidden env [.expression source] v w)
    (input : Value) : env.evaluateSource source input v = env.evaluateSource source input w := by
  rcases hidden with rfl | ⟨veiled, blind⟩
  · rfl
  · exact blind _ List.mem_cons_self input v w veiled

/-- So does a text with expression blocks in it. -/
theorem Hidden.template {source : String} (hidden : Hidden env [.template source] v w)
    (input : Value) : env.expression.evaluateInterpolation source input v =
      env.expression.evaluateInterpolation source input w := by
  rcases hidden with rfl | ⟨veiled, blind⟩
  · rfl
  · exact blind _ List.mem_cons_self input v w veiled

/-- In a shielded execution, no source of the workflow sees the difference between the two stores.
-/
theorem Shielded.hides (shielded : Shielded env s wf ctx) (hSecrets : exprCtx.secrets = ctx.secrets)
    (hSources : ∀ source ∈ sources, wf.HasSource source) : exprCtx.Hides env s sources := by
  rcases shielded with rfl | discreet
  · rw [← hSecrets]
    exact Or.inl rfl
  · exact Or.inr ⟨asVariableMap_veiled exprCtx s, fun source hMem =>
      discreet.blind (hSources source hMem)⟩

end Variables

section Contexts

variable {sources : List ExpressionSource}

/-- The variables of a task are read alike, and what they differ in is hidden from the sources of
the workflow. -/
theorem variables_veil (shielded : Shielded env s wf ctx)
    (hSources : ∀ source ∈ sources, wf.HasSource source) (input output : Value)
    (task : Option Value) :
    (veils env t).Twins (ctx.variables_ input output task)
      ((ctx.withSecrets s).variables_ input output task) (Hidden env sources) := by
  apply Twins.bind (FutureVeil.refl contextValueSync)
  rintro context _ rfl
  apply Twins.bind (FutureVeil.refl (ask .getLocal))
  rintro loc _ rfl
  exact .done ((shielded.hides rfl hSources).extend loc.loopVars)

/-- An expression from which the difference is hidden is evaluated alike under both stores. -/
theorem evalExpr_veil {source : String} (hidden : Hidden env [.expression source] v w)
    (input : Value) (task : Option CompiledTask) :
    Veil env t (evalExpr env source input v task) (evalExpr (env.withSecrets t) source input w task) := by
  have hSame := hidden.expression input
  apply Veil.seq (Veil.lift (note_veil (.evaluates _ input hidden.veiled)))
  intro _
  show Veil env t (Run.ofExcept ((env.evaluateSource source input v).mapError _))
    (Run.ofExcept ((env.evaluateSource source input w).mapError _))
  rw [hSame]
  exact Veil.refl _

/-- So is the string of a value, and a value without one is taken as it is. -/
theorem evalInterpolation_veil {value : Value}
    (hidden : exprCtx.Hides env s (value.asStr.toList.map .template)) :
    Veil env t (evalInterpolation env value exprCtx)
      (evalInterpolation (env.withSecrets t) value (exprCtx.withSecrets s)) := by
  cases value with
  | string text =>
      have hSame := Hidden.template hidden exprCtx.input
      apply Veil.seq (Veil.lift (note_veil (.evaluates (.template text) exprCtx.input hidden.veiled)))
      intro _
      show Veil env t
        (Run.ofExcept ((env.expression.evaluateInterpolation text exprCtx.input _).mapError _))
        (Run.ofExcept ((env.expression.evaluateInterpolation text exprCtx.input _).mapError _))
      rw [hSame]
      exact Veil.refl _
  | _ => exact Veil.refl _

/-- A string is evaluated alike where its one text sees no difference. -/
theorem interpolateString_veil {text : String} (hidden : exprCtx.Hides env s [.template text]) :
    Veil env t (interpolateString env text exprCtx)
      (interpolateString (env.withSecrets t) text (exprCtx.withSecrets s)) :=
  Veil.seq (evalInterpolation_veil hidden) fun _ => Veil.refl _

/-- An optional string is evaluated alike, and its absence is the same under both stores. -/
theorem interpolateOptString_veil {text : Option String}
    (hidden : exprCtx.Hides env s (text.toList.map .template)) :
    Veil env t (interpolateOptString env text exprCtx)
      (interpolateOptString (env.withSecrets t) text (exprCtx.withSecrets s)) := by
  cases text with
  | none => exact Veil.refl _
  | some text => exact Veil.seq (interpolateString_veil hidden) fun _ => Veil.refl _

/-- Strings are evaluated one after the other. The induction is on the list. -/
theorem interpolateStrings_veil {strings : List String}
    (hidden : exprCtx.Hides env s (strings.map .template)) :
    Veil env t (interpolateStrings env exprCtx strings)
      (interpolateStrings (env.withSecrets t) (exprCtx.withSecrets s) strings) := by
  induction strings with
  | nil => exact Veil.refl _
  | cons text rest ih =>
      apply Veil.seq (interpolateString_veil (hidden.mono (by simp)))
      intro _
      exact Veil.seq (ih (hidden.mono (by simp_all))) fun _ => Veil.refl _

/-- The values of environment variables are evaluated alike, their names not at all. -/
theorem interpolateEnv_veil {entries : List (String × String)}
    (hidden : exprCtx.Hides env s ((entries.map Prod.snd).map .template)) :
    Veil env t (interpolateEnv env exprCtx entries)
      (interpolateEnv (env.withSecrets t) (exprCtx.withSecrets s) entries) := by
  induction entries with
  | nil => exact Veil.refl _
  | cons entry rest ih =>
      apply Veil.seq (interpolateString_veil (hidden.mono (by simp)))
      intro _
      exact Veil.seq (ih (hidden.mono (by simp_all))) fun _ => Veil.refl _

/-- The entries of a map are evaluated in their order, each of them alike. -/
theorem interpolateEntries_veil {entries : Map} (hidden : exprCtx.Hides env s (templates entries)) :
    Veil env t (interpolateEntries env exprCtx entries)
      (interpolateEntries (env.withSecrets t) (exprCtx.withSecrets s) entries) := by
  induction entries with
  | nil => exact Veil.refl _
  | cons entry rest ih =>
      have hFirst : exprCtx.Hides env s (entry.2.asStr.toList.map .template) := by
        apply hidden.mono
        simp [templates]
        tauto
      apply Veil.seq (evalInterpolation_veil hFirst)
      intro _
      refine Veil.seq (ih (hidden.mono fun source hMem => ?_)) fun _ => Veil.refl _
      exact ((List.sublist_cons_self entry rest).filterMap _).subset hMem

/-- An optional value is evaluated alike. -/
theorem interpolateValue_veil {value : Option Value}
    (hidden : exprCtx.Hides env s ((value.bind Value.asStr).toList.map .template)) :
    Veil env t (interpolateValue env value exprCtx)
      (interpolateValue (env.withSecrets t) value (exprCtx.withSecrets s)) := by
  cases value with
  | none => exact Veil.refl _
  | some x => exact Veil.seq (evalInterpolation_veil hidden) fun _ => Veil.refl _

mutual

/-- The strings at any depth of a value are evaluated alike. The recursion is that of the value. -/
theorem deepInterpolate_veil : ∀ value : Value, exprCtx.Hides env s (value.strings.map .template) →
    Veil env t (deepInterpolate env exprCtx value)
      (deepInterpolate (env.withSecrets t) (exprCtx.withSecrets s) value)
  | .object entries, hidden => by
      rw [deepInterpolate, deepInterpolate]
      exact Veil.seq (deepInterpolateEntries_veil entries hidden) fun _ => Veil.refl _
  | .array items, hidden => by
      rw [deepInterpolate, deepInterpolate]
      exact Veil.seq (deepInterpolateItems_veil items hidden) fun _ => Veil.refl _
  | .string text, hidden => @evalInterpolation_veil _ _ _ _ (.string text) hidden
  | .null, _ => Veil.refl _
  | .bool _, _ => Veil.refl _
  | .number _, _ => Veil.refl _

/-- The items of an array are evaluated in their order, each of them alike. -/
theorem deepInterpolateItems_veil : ∀ items : List Value,
    exprCtx.Hides env s ((Value.itemStrings items).map .template) →
      Veil env t (deepInterpolateItems env exprCtx items)
        (deepInterpolateItems (env.withSecrets t) (exprCtx.withSecrets s) items)
  | [], _ => Veil.refl _
  | item :: rest, hidden => by
      rw [deepInterpolateItems, deepInterpolateItems]
      rw [Value.itemStrings, List.map_append] at hidden
      apply Veil.seq (deepInterpolate_veil item (hidden.mono fun _ => List.mem_append_left _))
      intro _
      refine Veil.seq ?_ fun _ => Veil.refl _
      exact deepInterpolateItems_veil rest (hidden.mono fun _ => List.mem_append_right _)

/-- The entries of an object are evaluated in their order, each of them alike. -/
theorem deepInterpolateEntries_veil : ∀ entries : List (String × Value),
    exprCtx.Hides env s ((Value.entryStrings entries).map .template) →
      Veil env t (deepInterpolateEntries env exprCtx entries)
        (deepInterpolateEntries (env.withSecrets t) (exprCtx.withSecrets s) entries)
  | [], _ => Veil.refl _
  | (k, x) :: rest, hidden => by
      rw [deepInterpolateEntries, deepInterpolateEntries]
      rw [Value.entryStrings, List.map_append] at hidden
      apply Veil.seq (deepInterpolate_veil x (hidden.mono fun _ => List.mem_append_left _))
      intro _
      refine Veil.seq ?_ fun _ => Veil.refl _
      exact deepInterpolateEntries_veil rest (hidden.mono fun _ => List.mem_append_right _)

end

end Contexts

section Tasks

/-- The sources of a task anywhere in the workflow are sources of the workflow. -/
theorem CompiledWorkflow.HasTask.hasSource {task : CompiledTask} (hTask : wf.HasTask task) :
    ∀ source ∈ task.sources, wf.HasSource source := fun _ hMem => .task hTask hMem

/-- Those of its kind are among them. -/
theorem CompiledWorkflow.HasTask.hasKindSource {task : CompiledTask} (hTask : wf.HasTask task) :
    ∀ source ∈ task.kind.sources, wf.HasSource source :=
  fun source hMem => hTask.hasSource source (List.mem_append_right _ hMem)

/-- The functions that the engine hands to two tasks, as far as they are used for workflows
which cannot tell the secrets apart. -/
structure Runner.Veil (env : RuntimeInner) (t : String → Option String) (r r' : Runner) : Prop where
  events : r'.events = r.events
  scope : ∀ {wf : CompiledWorkflow} (ctx : ExecContext) (s : List (String × String))
    {tasks : List CompiledTask} (input : Value), Shielded env s wf ctx → wf.HasScope tasks →
      OwsRuntime.Veil env t (r.scope wf ctx tasks input) (r'.scope wf (ctx.withSecrets s) tasks input)
  task : ∀ {wf : CompiledWorkflow} (ctx : ExecContext) (s : List (String × String))
    {task : CompiledTask} (input : Value) (ticket : Nat), Shielded env s wf ctx → wf.HasTask task →
      OwsRuntime.Veil env t (r.task wf ctx task input ticket)
        (r'.task wf (ctx.withSecrets s) task input ticket)
  workflow : ∀ {sub : CompiledWorkflow} (input : Value), sub.Indifferent env t →
    OwsRuntime.Veil env t (r.workflow sub input) (r'.workflow sub input)

/-- A set task evaluates its map at any depth, or its one text: alike under both stores, as these
see no difference. -/
theorem taskSet_veil {values : SetDef} (hidden : exprCtx.Hides env s values.sources) :
    Veil env t (taskSet env values exprCtx)
      (taskSet (env.withSecrets t) values (exprCtx.withSecrets s)) := by
  cases values with
  | expression source => exact @evalInterpolation_veil _ _ _ _ (.string source) hidden
  | map entries => exact Veil.seq (interpolateEntries_veil hidden) fun _ => Veil.refl _

/-- A condition from which the difference is hidden holds under both stores or under neither. -/
theorem conditionHolds_veil {condition : Option String}
    (hidden : Hidden env (expressions condition.toList) v w) (input : Value) (absent : Bool) :
    Veil env t (conditionHolds env input v absent condition)
      (conditionHolds (env.withSecrets t) input w absent condition) := by
  cases condition with
  | none => exact Veil.refl _
  | some source => exact Veil.seq (evalExpr_veil hidden input none) fun _ => Veil.refl _

/-- An expression over the variables of a task state. -/
theorem evalVariables_veil (shielded : Shielded env s wf ctx) {source : String}
    (hSource : ∀ x ∈ [ExpressionSource.expression source], wf.HasSource x)
    (input output : Value) (task : Option Value) (subject : Value) (owner : Option CompiledTask) :
    Veil env t
      (do
        let vars ← ctx.variables_ input output task
        evalExpr env source subject vars owner)
      (do
        let vars ← (ctx.withSecrets s).variables_ input output task
        evalExpr (env.withSecrets t) source subject vars owner) := by
  apply TwinRuns.seq (TwinRuns.lift (variables_veil shielded hSource input output task))
  intro v w hidden
  exact evalExpr_veil hidden subject owner

/-- The condition of a loop is evaluated with the variables of the task, which differ in secrets
that it does not see. -/
theorem whileHolds_veil (shielded : Shielded env s wf ctx) {condition : Option String}
    (hSource : ∀ source ∈ expressions condition.toList, wf.HasSource source) (bodyInput : Value) :
    Veil env t (whileHolds env ctx condition bodyInput)
      (whileHolds (env.withSecrets t) (ctx.withSecrets s) condition bodyInput) := by
  cases condition with
  | none => exact Veil.refl _
  | some source =>
      apply TwinRuns.seq (TwinRuns.lift (variables_veil shielded hSource bodyInput .null none))
      intro v w hidden
      exact Veil.seq (evalExpr_veil hidden bodyInput none) fun _ => Veil.refl _

/-- The iterations of a for task under both stores. The induction is on the items that are left;
each iteration runs the body under the runner's own veil. -/
theorem forItems_veil (hRunner : r.Veil env t r') (shielded : Shielded env s wf ctx) {loop : ForDef}
    {body : List CompiledTask} (hBody : wf.HasScope body)
    (hSource : ∀ source ∈ expressions loop.while_.toList, wf.HasSource source)
    (eachName atName : String)
    (items : List Value) (index : Nat) (bodyInput output : Value) :
    Veil env t (forItems env r wf ctx loop body eachName atName index items bodyInput output)
      (forItems (env.withSecrets t) r' wf (ctx.withSecrets s) loop body eachName atName index items
        bodyInput output) := by
  induction items generalizing index bodyInput output with
  | nil => exact Veil.refl _
  | cons item rest ih =>
      rw [forItems, forItems]
      apply Veil.seq (Veil.refl ctx.failIfCancelled)
      intro _
      apply Veil.seq (Veil.refl _)
      intro _
      apply Veil.seq (Veil.refl _)
      intro _
      apply Veil.seq (whileHolds_veil shielded hSource bodyInput)
      intro holds
      split
      · apply Veil.seq (hRunner.scope ctx s bodyInput shielded hBody)
        intro bodyOutput
        apply Veil.seq (Veil.refl _)
        intro ended
        split
        · exact Veil.refl _
        · exact ih _ _ _
      · exact Veil.refl _

/-- The items of a for task are the same under both stores, and so are its iterations. -/
theorem taskFor_veil (hRunner : r.Veil env t r') (shielded : Shielded env s wf ctx) {loop : ForDef}
    {body : List CompiledTask} (hBody : wf.HasScope body)
    (hSource : ∀ source ∈ loop.sources, wf.HasSource source)
    (hSecrets : exprCtx.secrets = ctx.secrets) (taskInput : Value) :
    Veil env t (taskFor env r wf ctx loop body taskInput exprCtx)
      (taskFor (env.withSecrets t) r' wf (ctx.withSecrets s) loop body taskInput
        (exprCtx.withSecrets s)) := by
  have hItems : exprCtx.Hides env s [.expression loop.in_] :=
    (shielded.hides hSecrets hSource).mono (by simp [ForDef.sources, expressions])
  have hWhile : ∀ source ∈ expressions loop.while_.toList, wf.HasSource source :=
    fun source hMem => hSource source (List.mem_cons_of_mem _ hMem)
  unfold taskFor
  apply Veil.seq (evalExpr_veil hItems taskInput none)
  intro collection
  apply Veil.seq (Veil.refl (Run.ofExcept (loopItems env collection)))
  intro items
  apply Veil.seq (forItems_veil hRunner shielded hBody hWhile _ _ _ _ _ _)
  intro output
  exact Veil.refl _

/-- A branch of a fork runs its task under the veil of the runner. -/
theorem runBranch_veil (hRunner : r.Veil env t r') (shielded : Shielded env s wf ctx)
    {task : CompiledTask} (hTask : wf.HasTask task) (input : Value) (ticket : Nat) :
    FutureVeil env t (runBranch r wf ctx task input ticket)
      (runBranch r' wf (ctx.withSecrets s) task input ticket) := by
  apply FutureVeil.seq (FutureVeil.refl _)
  intro _
  apply FutureVeil.seq (hRunner.task ctx s input ticket shielded hTask).run
  intro result
  exact FutureVeil.refl _

/-- Under both stores as many branches are under way, each veiled, and the join takes the same ones
of them. -/
theorem joinBranches_veil (hRunner : r.Veil env t r') (shielded : Shielded env s wf ctx)
    {branches : List CompiledTask} (hBranches : ∀ task ∈ branches, wf.HasTask task)
    (input : Value) (ticket need : Nat) :
    FutureVeil env t (joinBranches r wf ctx branches input ticket need)
      (joinBranches r' wf (ctx.withSecrets s) branches input ticket need) := by
  apply FutureVeil.seq (FutureVeil.refl _)
  intro loc
  refine ⟨_, _, _, _, Eq, rfl, fun _ => rfl, fun i => ?_, .nil, fun f f' alike => .done alike.eq⟩
  exact runBranch_veil hRunner shielded (hBranches _ (List.get_mem _ i)) input ticket

/-- A fork task joins its branches and puts together the outputs of those that have finished. -/
theorem taskFork_veil (hRunner : r.Veil env t r') (shielded : Shielded env s wf ctx)
    {branches : List CompiledTask} (hBranches : ∀ task ∈ branches, wf.HasTask task)
    (compete : Bool) (input : Value) (position : Nat) :
    Veil env t (taskFork env r wf ctx branches compete input position)
      (taskFork (env.withSecrets t) r' wf (ctx.withSecrets s) branches compete input position) := by
  have hJoin : ∀ need, Veil env t (liftM (joinBranches r wf ctx branches input position need))
      (liftM (joinBranches r' wf (ctx.withSecrets s) branches input position need)) := fun need =>
    Veil.lift (joinBranches_veil hRunner shielded hBranches input position need)
  unfold taskFork
  split
  · exact Veil.refl _
  · split
    · exact Veil.seq (hJoin 1) fun finished => Veil.refl (Run.ofExcept (competeResult env finished))
    · exact Veil.seq (hJoin branches.length) fun finished =>
        Veil.refl (Run.ofExcept (joinResult env finished))

/-- The first case whose condition holds is the same under both stores. The induction is on the
cases. -/
theorem matchCases_veil {cases_ : List SwitchCase}
    (hidden : Hidden env (cases_.flatMap SwitchCase.sources) v w) (taskInput : Value) :
    Veil env t (matchCases env taskInput v cases_)
      (matchCases (env.withSecrets t) taskInput w cases_) := by
  induction cases_ with
  | nil => exact Veil.refl _
  | cons case rest ih =>
      rw [List.flatMap_cons] at hidden
      have hCase : Hidden env case.sources v w := hidden.mono fun _ => List.mem_append_left _
      rw [matchCases, matchCases]
      apply Veil.seq (conditionHolds_veil hCase taskInput true)
      intro matched
      split
      · exact Veil.refl _
      · exact ih (hidden.mono fun _ => List.mem_append_right _)

/-- So a switch task chooses the same directive. -/
theorem taskSwitch_veil {cases_ : List SwitchCase}
    (hidden : exprCtx.Hides env s (cases_.flatMap SwitchCase.sources)) (taskInput : Value) :
    Veil env t (taskSwitch env cases_ taskInput exprCtx)
      (taskSwitch (env.withSecrets t) cases_ taskInput (exprCtx.withSecrets s)) :=
  Veil.seq (matchCases_veil hidden taskInput) fun _ => Veil.refl _

/-- The two conditions of a catch or a retry are evaluated one after the other. -/
theorem conditionsHold_veil {when exceptWhen : Option String}
    (hidden : exprCtx.Hides env s (expressions (when.toList ++ exceptWhen.toList))) :
    Veil env t (conditionsHold env when exceptWhen exprCtx)
      (conditionsHold (env.withSecrets t) when exceptWhen (exprCtx.withSecrets s)) := by
  rw [expressions, List.map_append] at hidden
  apply Veil.seq (Veil.refl _)
  intro loc
  have hLoop := Hidden.extend hidden loc.loopVars
  apply Veil.seq (conditionHolds_veil (hLoop.mono fun _ => List.mem_append_left _) .null true)
  intro wanted
  split
  · refine Veil.seq ?_ fun _ => Veil.refl _
    exact conditionHolds_veil (hLoop.mono fun _ => List.mem_append_right _) .null false
  · exact Veil.refl _

/-- An error is caught under both stores or under neither. -/
theorem catchMatches_veil {catch_ : CatchDef} (hidden : exprCtx.Hides env s catch_.sources)
    (err : WorkflowError) :
    Veil env t (catchMatches env catch_ err exprCtx)
      (catchMatches (env.withSecrets t) catch_ err (exprCtx.withSecrets s)) := by
  unfold catchMatches
  split
  · refine conditionsHold_veil (hidden.mono fun source hMem => ?_)
    rw [CatchDef.sources, expressions, List.map_append]
    exact List.mem_append_left _ hMem
  · exact Veil.refl _

/-- So it is retried under both or under neither. -/
theorem retryable_veil {catch_ : CatchDef} (hidden : exprCtx.Hides env s catch_.sources) :
    Veil env t (retryable env catch_.retry exprCtx)
      (retryable (env.withSecrets t) catch_.retry (exprCtx.withSecrets s)) := by
  cases hRetry : catch_.retry with
  | none => exact Veil.refl _
  | some policy =>
      refine conditionsHold_veil (hidden.mono fun source hMem => ?_)
      rw [CatchDef.sources, expressions, List.map_append, hRetry]
      apply List.mem_append_right
      simpa [expressions] using hMem

/-- The handler of a try task is a scope of the workflow, which the runner runs under its veil. -/
theorem recover_veil (hRunner : r.Veil env t r') (shielded : Shielded env s wf ctx)
    {handler : Option (List CompiledTask)} (hHandler : ∀ scope ∈ handler, wf.HasScope scope)
    (taskInput : Value) :
    Veil env t (tryLoop.recover r wf ctx handler taskInput)
      (tryLoop.recover r' wf (ctx.withSecrets s) handler taskInput) := by
  cases handler with
  | none => exact Veil.refl _
  | some scope => exact hRunner.scope ctx s taskInput shielded (hHandler scope rfl)

/-- A round of a `try` task, when the rounds after it are twins. -/
theorem tryRound_veil (hRunner : r.Veil env t r') (shielded : Shielded env s wf ctx)
    {body : List CompiledTask} (hBody : wf.HasScope body) {catch_ : CatchDef}
    (hidden : exprCtx.Hides env s catch_.sources) {handler : Option (List CompiledTask)}
    (hHandler : ∀ scope ∈ handler, wf.HasScope scope) (taskInput : Value)
    (remaining attempt : Nat)
    (hAgain : ∀ left, remaining = left + 1 →
      Veil env t (tryLoop env r wf ctx body catch_ handler taskInput exprCtx left (attempt + 1))
        (tryLoop (env.withSecrets t) r' wf (ctx.withSecrets s) body catch_ handler taskInput
          (exprCtx.withSecrets s) left (attempt + 1))) :
    Veil env t (tryLoop env r wf ctx body catch_ handler taskInput exprCtx remaining attempt)
      (tryLoop (env.withSecrets t) r' wf (ctx.withSecrets s) body catch_ handler taskInput
        (exprCtx.withSecrets s) remaining attempt) := by
  have recovers : Veil env t (tryLoop.recover r wf ctx handler taskInput)
      (tryLoop.recover r' wf (ctx.withSecrets s) handler taskInput) :=
    recover_veil hRunner shielded hHandler taskInput
  rw [tryLoop.eq_def, tryLoop.eq_def]
  apply Veil.seq (Veil.refl ctx.failIfCancelled)
  intro _
  apply Veil.seq (hRunner.scope ctx s taskInput shielded hBody).outcome
  intro result
  cases result with
  | ok output => exact Veil.refl _
  | error err =>
      apply Veil.seq (Veil.refl _)
      intro _
      apply Veil.seq (catchMatches_veil hidden err)
      intro caught
      split
      · apply Veil.seq (retryable_veil hidden)
        intro again
        split
        · split
          · apply Veil.seq (Veil.refl _)
            intro delay
            apply Veil.seq (Veil.refl (waitWithCancel ctx delay))
            intro _
            exact hAgain _ rfl
          · exact recovers
        · exact recovers
      · exact Veil.refl _

/-- The attempts of a try task under both stores: each of them ends alike, is caught alike, and is
followed by the same delay. -/
theorem taskTry_veil (hRunner : r.Veil env t r') (shielded : Shielded env s wf ctx)
    {body : List CompiledTask} (hBody : wf.HasScope body) {catch_ : CatchDef}
    (hidden : exprCtx.Hides env s catch_.sources) {handler : Option (List CompiledTask)}
    (hHandler : ∀ scope ∈ handler, wf.HasScope scope) (taskInput : Value) :
    Veil env t (taskTry env r wf ctx body catch_ handler taskInput exprCtx)
      (taskTry (env.withSecrets t) r' wf (ctx.withSecrets s) body catch_ handler taskInput
        (exprCtx.withSecrets s)) := by
  unfold taskTry
  generalize (catch_.retry.bind (·.attemptCount)).getD 0 = remaining
  generalize 0 = attempt
  induction remaining generalizing attempt with
  | zero => exact tryRound_veil hRunner shielded hBody hidden hHandler _ _ _ fun left h => by omega
  | succ remaining ih =>
      apply tryRound_veil hRunner shielded hBody hidden hHandler
      intro left hLeft
      obtain rfl : remaining = left := by omega
      exact ih (attempt + 1)

/-- The attributes of an event are evaluated in their order. The induction is on the attributes that
are left. -/
theorem emitAttributes_veil {attributes : Map}
    (hidden : exprCtx.Hides env s ((Value.entryStrings attributes).map .template)) (event : CloudEvent) :
    Veil env t (emitAttributes env exprCtx attributes event)
      (emitAttributes (env.withSecrets t) (exprCtx.withSecrets s) attributes event) := by
  induction attributes generalizing event with
  | nil => exact Veil.refl _
  | cons entry rest ih =>
      rw [Value.entryStrings, List.map_append] at hidden
      have hFirst : exprCtx.Hides env s (entry.2.strings.map .template) :=
        hidden.mono fun _ => List.mem_append_left _
      apply Veil.seq (deepInterpolate_veil entry.2 hFirst)
      intro resolved
      exact ih (hidden.mono fun _ => List.mem_append_right _) _

/-- The same event is published under both stores. -/
theorem taskEmit_veil {attributes : Map}
    (hidden : exprCtx.Hides env s ((Value.entryStrings attributes).map .template)) :
    Veil env t (taskEmit env wf attributes exprCtx)
      (taskEmit (env.withSecrets t) wf attributes (exprCtx.withSecrets s)) := by
  apply Veil.seq (emitAttributes_veil hidden _)
  intro event
  exact Veil.refl _

end Tasks

section Listening

/-- The correlation keys of a filter are evaluated on the event, whose values do not depend on the
secrets. -/
theorem correlateKeys_veil {keys : List CorrelationDef}
    (hidden : Hidden env (keys.flatMap CorrelationDef.sources) v w) (event : EventMessage)
    (trial : Map) :
    FutureVeil env t (correlateKeys env event v keys trial)
      (correlateKeys (env.withSecrets t) event w keys trial) := by
  induction keys generalizing trial with
  | nil => exact FutureVeil.refl _
  | cons key rest ih =>
      rw [List.flatMap_cons] at hidden
      have hKey : Hidden env key.sources v w := hidden.mono fun _ => List.mem_append_left _
      have hRest := fun trial => ih (hidden.mono fun _ => List.mem_append_right _) trial
      have hContext : v.lookup "context" = w.lookup "context" := hidden.veiled "context" (by decide)
      rw [correlateKeys, correlateKeys, hContext]
      have hFrom : Hidden env [.expression key.from_] v w :=
        hKey.mono (by simp [CorrelationDef.sources, expressions])
      apply FutureVeil.seq (evalExpr_veil hFrom _ none).run
      intro result
      split
      · exact FutureVeil.refl _
      · split
        · rename_i expect hExpect
          have hExpected : Hidden env [.expression expect] v w :=
            hKey.mono (by simp [CorrelationDef.sources, expressions, hExpect])
          apply FutureVeil.seq (evalExpr_veil hExpected _ none).run
          intro want
          split
          · exact FutureVeil.refl _
          · split
            · exact hRest _
            · exact FutureVeil.refl _
        · split
          · split
            · exact hRest _
            · exact FutureVeil.refl _
          · exact hRest _

/-- An event passes a filter under both stores or under neither, with the same group. -/
theorem filterMatches_veil {filter : CompiledListenFilter} (hidden : Hidden env filter.sources v w)
    (event : EventMessage) (group : Map) :
    FutureVeil env t (filterMatches env filter event v group)
      (filterMatches (env.withSecrets t) filter event w group) := by
  unfold filterMatches
  split
  · exact correlateKeys_veil hidden event group
  · exact FutureVeil.refl _

/-- The first of several filters that an event passes is the same. -/
theorem matchesAny_veil {filters : List CompiledListenFilter}
    (hidden : Hidden env (filters.flatMap CompiledListenFilter.sources) v w) (event : EventMessage)
    (trial : Map) :
    FutureVeil env t (matchesAny env event v filters trial)
      (matchesAny (env.withSecrets t) event w filters trial) := by
  induction filters with
  | nil => exact FutureVeil.refl _
  | cons f rest ih =>
      rw [List.flatMap_cons] at hidden
      have hFirst : Hidden env f.sources v w := hidden.mono fun _ => List.mem_append_left _
      rw [matchesAny, matchesAny]
      apply FutureVeil.seq (filterMatches_veil hFirst event trial)
      intro found
      split
      · exact FutureVeil.refl _
      · exact ih (hidden.mono fun _ => List.mem_append_right _)

/-- The filters that an event satisfies are marked alike. The induction is on the filters. -/
theorem markSatisfied_veil {filters : List (CompiledListenFilter × Bool)}
    (hidden : Hidden env ((filters.map Prod.fst).flatMap CompiledListenFilter.sources) v w)
    (event : EventMessage) (group : Map) :
    FutureVeil env t (markSatisfied env event v filters group)
      (markSatisfied (env.withSecrets t) event w filters group) := by
  induction filters generalizing group with
  | nil => exact FutureVeil.refl _
  | cons entry rest ih =>
      obtain ⟨f, satisfied⟩ := entry
      rw [List.map_cons, List.flatMap_cons] at hidden
      have hFirst : Hidden env f.sources v w := hidden.mono fun _ => List.mem_append_left _
      have hRest := fun group => ih (hidden.mono fun _ => List.mem_append_right _) group
      cases satisfied with
      | true =>
          rw [markSatisfied, markSatisfied]
          exact FutureVeil.seq (hRest group) fun _ => FutureVeil.refl _
      | false =>
          rw [markSatisfied, markSatisfied]
          apply FutureVeil.seq (filterMatches_veil hFirst event group)
          intro found
          split
          · exact FutureVeil.seq (hRest _) fun _ => FutureVeil.refl _
          · exact FutureVeil.seq (hRest _) fun _ => FutureVeil.refl _

/-- An event is accepted alike by a listen task that waits for events. -/
theorem accept_veil {state : GatherState} (hidden : Hidden env state.sources v w) (need : ListenNeed)
    (event : EventMessage) :
    FutureVeil env t (state.accept env need v event)
      (state.accept (env.withSecrets t) need w event) := by
  have hFilters : Hidden env ((state.filters.map Prod.fst).flatMap CompiledListenFilter.sources) v w :=
    hidden.mono fun _ => List.mem_append_left _
  cases need with
  | one =>
      have hOne : FutureVeil env t (state.matchesOne env v event)
          (state.matchesOne (env.withSecrets t) w event) := by
        unfold GatherState.matchesOne
        split
        · exact FutureVeil.refl _
        · exact matchesAny_veil hFilters event _
      exact FutureVeil.seq hOne fun _ => FutureVeil.refl _
  | all count =>
      exact FutureVeil.seq (markSatisfied_veil hFilters event _) fun _ => FutureVeil.refl _

/-- It ends the listening alike. -/
theorem acceptUntil_veil {state : GatherState} (hidden : Hidden env state.sources v w)
    (event : EventMessage) (accepted : Bool) :
    FutureVeil env t (state.acceptUntil env v event accepted)
      (state.acceptUntil (env.withSecrets t) w event accepted) := by
  unfold GatherState.acceptUntil
  split
  · exact FutureVeil.refl _
  · refine FutureVeil.seq ?_ fun _ => FutureVeil.refl _
    exact markSatisfied_veil (hidden.mono fun _ => List.mem_append_right _) event _

/-- The round in which a listen task looks at an event. Its filters stay the same, so that
the rounds after it are twins again. -/
theorem gatherListenEvents_veil {untilExpression : Option String}
    (hUntil : Hidden env (expressions untilExpression.toList) v w) (need : ListenNeed)
    (hasUntil : Bool) (read : String) (fuel : Nat) {state : GatherState}
    (hidden : Hidden env state.sources v w) :
    Veil env t (gatherListenEvents env ctx v need untilExpression hasUntil read fuel state)
      (gatherListenEvents (env.withSecrets t) (ctx.withSecrets s) w need untilExpression hasUntil
        read fuel state) := by
  induction fuel generalizing state with
  | zero => exact Veil.refl _
  | succ fuel ih =>
      rw [gatherListenEvents, gatherListenEvents]
      split
      · exact Veil.refl _
      · apply Veil.seq (Veil.refl _)
        intro epoch
        apply Veil.seq (Veil.refl _)
        intro received
        split
        · exact Veil.refl _
        · exact Veil.refl _
        · rename_i event
          have hAccept := (accept_veil (t := t) hidden need event).and
            (accept_asks (evaluates_any _) need v event)
          apply TwinRuns.seq (TwinRuns.lift hAccept)
          rintro accepted _ ⟨rfl, hAccepted⟩
          have hSame : Hidden env accepted.1.sources v w := by rwa [hAccepted]
          have hAcceptUntil := (acceptUntil_veil (t := t) hSame event accepted.2).and
            (acceptUntil_asks (evaluates_any _) v event accepted.2)
          apply TwinRuns.seq (TwinRuns.lift hAcceptUntil)
          rintro after _ ⟨rfl, hAfter⟩
          apply Veil.seq (conditionHolds_veil hUntil _ false)
          intro stop
          apply ih
          show Hidden env after.sources v w
          rwa [hAfter]

/-- The iterations of a listen task run under the veil of the runner, one item after the other. -/
theorem foreachItems_veil (hRunner : r.Veil env t r') (shielded : Shielded env s wf ctx)
    (fe : ListenForeachDef) {body : List CompiledTask} (hBody : wf.HasScope body)
    (atName : String) (items : List Value) (index : Nat) :
    Veil env t (foreachItems r wf ctx fe body atName index items)
      (foreachItems r' wf (ctx.withSecrets s) fe body atName index items) := by
  induction items generalizing index with
  | nil => exact Veil.refl _
  | cons item rest ih =>
      rw [foreachItems, foreachItems]
      apply Veil.seq (Veil.refl ctx.failIfCancelled)
      intro _
      apply Veil.seq (Veil.refl _)
      intro _
      apply Veil.seq (Veil.refl _)
      intro _
      apply Veil.seq (hRunner.scope ctx s item shielded hBody)
      intro output
      apply Veil.seq (Veil.refl _)
      intro _
      apply Veil.seq (Veil.refl _)
      intro _
      apply Veil.seq (Veil.refl _)
      intro ended
      split
      · exact Veil.refl _
      · exact Veil.seq (ih _) fun _ => Veil.refl _

/-- Waiting for events: the filters and the stop condition are those of the task. -/
theorem gather_veil {filters untilFilters : List CompiledListenFilter}
    {untilExpression : Option String}
    (hFilters : Hidden env (filters.flatMap CompiledListenFilter.sources) v w)
    (hUntilFilters : Hidden env (untilFilters.flatMap CompiledListenFilter.sources) v w)
    (hUntil : Hidden env (expressions untilExpression.toList) v w) (need : ListenNeed)
    (hasUntil : Bool) (read : String) (fuel : Nat) :
    Veil env t
      (gatherListenEvents env ctx v need untilExpression hasUntil read fuel
        { consumed := [], filters := filters.map (·, false)
          untilFilters := untilFilters.map (·, false), untilSatisfied := false, group := [] })
      (gatherListenEvents (env.withSecrets t) (ctx.withSecrets s) w need untilExpression hasUntil
        read fuel
        { consumed := [], filters := filters.map (·, false)
          untilFilters := untilFilters.map (·, false), untilSatisfied := false, group := [] }) := by
  apply gatherListenEvents_veil hUntil
  have hFirst : ∀ list : List CompiledListenFilter,
      (list.map fun f => (f, false)).map Prod.fst = list := by
    intro list
    rw [List.map_map]
    exact List.map_id list
  rw [GatherState.sources, hFirst, hFirst]
  exact hFilters.append hUntilFilters

/-- A listen task gathers the same events, and iterates over the same values. -/
theorem taskListen_veil (hRunner : r.Veil env t r') (shielded : Shielded env s wf ctx)
    {listen : ListenDef} (hidden : exprCtx.Hides env s listen.sources)
    {foreach_ : Option (ListenForeachDef × List CompiledTask)}
    (hForeach : ∀ fe ∈ foreach_, wf.HasScope fe.2) :
    Veil env t (taskListen env r wf ctx listen foreach_ exprCtx)
      (taskListen (env.withSecrets t) r' wf (ctx.withSecrets s) listen foreach_
        (exprCtx.withSecrets s)) := by
  have hFilters : exprCtx.Hides env s
      ((listenFilters listen.to_).1.flatMap CompiledListenFilter.sources) := by
    rw [listenFilters_sources]
    exact hidden.mono fun _ => List.mem_append_left _
  have hRest : ∀ until_ ∈ listen.until_, exprCtx.Hides env s until_.sources := by
    intro until_ hUntil
    refine hidden.mono fun _ hMem => List.mem_append_right _ ?_
    exact List.mem_flatMap.mpr ⟨until_, Option.mem_toList.mpr hUntil, hMem⟩
  have hNoFilter : exprCtx.Hides env s
      (([] : List CompiledListenFilter).flatMap CompiledListenFilter.sources) :=
    Hidden.mono hidden fun _ hMem => (by cases hMem)
  have hNoExpression : exprCtx.Hides env s (expressions (none : Option String).toList) :=
    Hidden.mono hidden fun _ hMem => (by cases hMem)
  have hItems : ∀ fe ∈ foreach_, ∀ (atName : String) (values : List Value),
      Veil env t (foreachItems r wf ctx fe.1 fe.2 atName 0 values)
        (foreachItems r' wf (ctx.withSecrets s) fe.1 fe.2 atName 0 values) :=
    fun fe hFound atName values =>
      foreachItems_veil hRunner shielded fe.1 (hForeach fe hFound) atName values 0
  unfold taskListen
  rw [hRunner.events]
  apply Veil.seq (Veil.refl subscribe)
  intro _
  cases hUntil : listen.until_ with
  | none =>
      apply Veil.seq (gather_veil hFilters hNoFilter hNoExpression _ _ _ _)
      intro consumed
      cases foreach_ with
      | none => exact Veil.refl _
      | some fe => exact Veil.seq (hItems fe rfl _ _) fun _ => Veil.refl _
  | some until_ =>
      cases until_ with
      | expression source =>
          have hThis : exprCtx.Hides env s (expressions (some source).toList) := hRest _ hUntil
          apply Veil.seq (gather_veil hFilters hNoFilter hThis _ _ _ _)
          intro consumed
          cases foreach_ with
          | none => exact Veil.refl _
          | some fe => exact Veil.seq (hItems fe rfl _ _) fun _ => Veil.refl _
      | strategy filters =>
          have hThis : exprCtx.Hides env s
              ((filters.map buildFilter).flatMap CompiledListenFilter.sources) := by
            rw [buildFilters_sources]
            exact hRest _ hUntil
          apply Veil.seq (gather_veil hFilters hThis hNoExpression _ _ _ _)
          intro consumed
          cases foreach_ with
          | none => exact Veil.refl _
          | some fe => exact Veil.seq (hItems fe rfl _ _) fun _ => Veil.refl _

end Listening

section Calls

/-- The templates in a URI are expanded from the input alone, not from the secrets. -/
theorem expandFrom_withSecrets (input : Option Value) (fuel : Nat) (text out : List Char) :
    (env.withSecrets t).expandFrom input fuel text out = env.expandFrom input fuel text out := by
  induction fuel generalizing text out with
  | zero => rfl
  | succ fuel ih =>
      cases text with
      | nil => rfl
      | cons c rest =>
          rw [RuntimeInner.expandFrom, RuntimeInner.expandFrom]
          simp only [ih]
          rfl

/-- The fields of a header or query are resolved by the expression engine, which is the same in both
environments. -/
theorem resolveFields_withSecrets (fields : Map) :
    (env.withSecrets t).resolveFields exprCtx fields = env.resolveFields exprCtx fields := by
  induction fields with
  | nil => rfl
  | cons entry rest ih =>
      rw [RuntimeInner.resolveFields, RuntimeInner.resolveFields, ih]
      rfl

mutual

/-- The strings at any depth of a body are resolved in the given context, whatever the store of the
environment. -/
theorem resolveValue_withSecrets : ∀ value : Value,
    (env.withSecrets t).resolveValue exprCtx value = env.resolveValue exprCtx value
  | .object entries => by
      rw [RuntimeInner.resolveValue, RuntimeInner.resolveValue, resolveEntries_withSecrets entries]
  | .array items => by
      rw [RuntimeInner.resolveValue, RuntimeInner.resolveValue, resolveItems_withSecrets items]
  | .string _ => rfl
  | .null => rfl
  | .bool _ => rfl
  | .number _ => rfl

/-- Those of the items of an array. -/
theorem resolveItems_withSecrets : ∀ items : List Value,
    (env.withSecrets t).resolveItems exprCtx items = env.resolveItems exprCtx items
  | [] => rfl
  | item :: rest => by
      rw [RuntimeInner.resolveItems, RuntimeInner.resolveItems, resolveValue_withSecrets item,
        resolveItems_withSecrets rest]

/-- Those of the entries of an object. -/
theorem resolveEntries_withSecrets : ∀ entries : List (String × Value),
    (env.withSecrets t).resolveEntries exprCtx entries = env.resolveEntries exprCtx entries
  | [] => rfl
  | (k, value) :: rest => by
      rw [RuntimeInner.resolveEntries, RuntimeInner.resolveEntries, resolveValue_withSecrets value,
        resolveEntries_withSecrets rest]

end

/-- The request of the bundled function does not depend on the store: the secrets come in with the
context alone. -/
theorem httpRequest_withSecrets (req : FunctionRequest) :
    (env.withSecrets t).httpRequest req = env.httpRequest req := by
  have hEndpoint : (env.withSecrets t).resolveEndpoint req.context =
      env.resolveEndpoint req.context := by
    funext endpoint
    simp only [RuntimeInner.resolveEndpoint, RuntimeInner.expandUriTemplate, expandFrom_withSecrets]
    rfl
  have hHeaders : (env.withSecrets t).resolveHeaders req.context =
      env.resolveHeaders req.context := by
    funext headers
    simp only [RuntimeInner.resolveHeaders, resolveFields_withSecrets]
  have hQuery : (env.withSecrets t).resolveQuery req.context = env.resolveQuery req.context := by
    funext query
    simp only [RuntimeInner.resolveQuery, resolveFields_withSecrets]
  have hBody : (env.withSecrets t).resolveBody req.context = env.resolveBody req.context := by
    funext body
    simp only [RuntimeInner.resolveBody, resolveValue_withSecrets]
  have hAuth : (env.withSecrets t).applyAuth req.context = env.applyAuth req.context := rfl
  have hNetwork : (env.withSecrets t).enforceNetworkPolicy = env.enforceNetworkPolicy := rfl
  simp only [RuntimeInner.httpRequest, hEndpoint, hHeaders, hQuery, hBody, hAuth, hNetwork]
  rfl

/-- So a function that is called with the same request makes the same request to the world. -/
theorem invokeFunction_veil (invoker : FunctionInvoker) (req : FunctionRequest) :
    Veil env t (invokeFunction env invoker req) (invokeFunction (env.withSecrets t) invoker req) := by
  cases invoker with
  | other id => exact Veil.refl _
  | http =>
      have hRequest : Veil env t (Run.ofExcept (env.httpRequest req))
          (Run.ofExcept ((env.withSecrets t).httpRequest req)) := by
        rw [httpRequest_withSecrets]
        exact Veil.refl _
      apply Veil.seq (Veil.refl _)
      intro _
      apply Veil.seq hRequest
      intro request
      apply Veil.seq (Veil.refl _)
      intro reply
      exact Veil.refl (Run.ofExcept (env.httpResult req.args request reply))

/-- A call is given the same secrets, and so asks for the same. -/
theorem taskCall_veil (wf : CompiledWorkflow) (def_ : CallDef) :
    Veil env t (taskCall env wf def_ exprCtx) (taskCall (env.withSecrets t) wf def_ exprCtx) := by
  have hFunctions : (env.withSecrets t).functions = env.functions := rfl
  unfold taskCall
  rw [hFunctions]
  apply Veil.seq (interpolateEntries_veil (s := exprCtx.secrets) (Or.inl rfl))
  intro args
  split
  · exact invokeFunction_veil _ _
  · split
    · split
      · exact invokeFunction_veil _ _
      · exact Veil.refl _
    · exact Veil.refl _

end Calls

section Dispatch

/-- The arguments and the environment of a process are evaluated alike, so the same process is run,
and its result is read alike. -/
theorem processTail_veil {command arguments : List String} {environment : List (String × String)}
    {stdin : Option String}
    (hidden : exprCtx.Hides env s (commandSources command arguments environment stdin))
    (request : List String → Option String → List (String × String) → ProcessRequest)
    (return_ : RunReturn) :
    Veil env t
      (do
        let args ← interpolateStrings env exprCtx arguments
        let stdin ← interpolateOptString env stdin exprCtx
        let envVars ← interpolateEnv env exprCtx environment
        let result ← runProcess (request args stdin envVars)
        return processOutput result return_)
      (do
        let args ← interpolateStrings (env.withSecrets t) (exprCtx.withSecrets s) arguments
        let stdin ← interpolateOptString (env.withSecrets t) stdin (exprCtx.withSecrets s)
        let envVars ← interpolateEnv (env.withSecrets t) (exprCtx.withSecrets s) environment
        let result ← runProcess (request args stdin envVars)
        return processOutput result return_) := by
  apply Veil.seq (interpolateStrings_veil (hidden.mono (by simp [commandSources]; tauto)))
  intro args
  apply Veil.seq (interpolateOptString_veil (hidden.mono (by simp [commandSources]; tauto)))
  intro stdin
  apply Veil.seq (interpolateEnv_veil (hidden.mono (by simp [commandSources]; grind)))
  intro envVars
  exact Veil.refl _

/-- A workflow that is found is indifferent, so that what runs it is a twin again. -/
theorem findWorkflow_veil (key : String) :
    (veils env t).Twins (findWorkflow key) (findWorkflow key) fun found found' =>
      found = found' ∧ ∀ sub, found = some sub → sub.Indifferent env t :=
  ⟨.findWorkflow key, _, rfl, .same _, fun _ _ hReply => .done ⟨eq_of_heq hReply.1, hReply.2⟩⟩

/-- A process gets the same command, arguments and environment, and a workflow that is run the same
input. -/
theorem taskRun_veil (hRunner : r.Veil env t r') {run : RunDef}
    (hidden : exprCtx.Hides env s run.process.sources) (taskInput : Value) :
    Veil env t (taskRun env r run taskInput exprCtx)
      (taskRun (env.withSecrets t) r' run taskInput (exprCtx.withSecrets s)) := by
  unfold taskRun
  split
  · exact Veil.refl _
  · cases hProcess : run.process with
    | shell command arguments environment stdin =>
        rw [hProcess, RunProcess.sources] at hidden
        apply Veil.seq (interpolateString_veil (hidden.mono (by simp [commandSources])))
        intro command
        exact processTail_veil hidden (fun args stdin envVars => .shell command args envVars stdin) _
    | script language code arguments environment stdin =>
        rw [hProcess, RunProcess.sources] at hidden
        apply Veil.seq (interpolateString_veil (hidden.mono (by simp [commandSources])))
        intro code
        exact processTail_veil hidden
          (fun args stdin envVars => .script language code args envVars stdin) _
    | container image arguments environment stdin =>
        rw [hProcess, RunProcess.sources] at hidden
        exact processTail_veil hidden
          (fun args stdin envVars => .container image args envVars stdin) _
    | workflow namespace_ name version input =>
        rw [hProcess, RunProcess.sources] at hidden
        apply Veil.seq (interpolateValue_veil hidden)
        intro input
        apply TwinRuns.seq (TwinRuns.lift (findWorkflow_veil _))
        rintro found _ ⟨rfl, hIndifferent⟩
        cases found with
        | none => exact Veil.refl _
        | some sub => exact hRunner.workflow _ (hIndifferent sub rfl)

/-- The body of a task asks for the same under other secrets. -/
theorem dispatch_veil (hRunner : r.Veil env t r') (shielded : Shielded env s wf ctx)
    {task : CompiledTask} (hTask : wf.HasTask task) (hSecrets : exprCtx.secrets = ctx.secrets)
    (taskInput : Value) (position : Nat) :
    Veil env t (dispatch env r wf ctx task taskInput exprCtx position)
      (dispatch (env.withSecrets t) r' wf (ctx.withSecrets s) task taskInput
        (exprCtx.withSecrets s) position) := by
  have hPlain : ∀ {x y : Run Value}, Veil env t x y →
      Veil env t (dispatch.plain x) (dispatch.plain y) :=
    fun veil => Veil.seq veil fun _ => Veil.refl _
  have hScope : ∀ scope ∈ task.kind.childScopes, wf.HasScope scope :=
    fun scope hMem => hTask.hasScope hMem
  have hSource := hTask.hasKindSource
  have hidden := shielded.hides hSecrets hSource
  unfold dispatch
  cases hKind : task.kind with
  | set values =>
      rw [hKind] at hidden
      exact hPlain (taskSet_veil hidden)
  | do_ body =>
      refine hPlain (hRunner.scope ctx s _ shielded (hScope body ?_))
      simp [hKind, CompiledTaskKind.childScopes]
  | for_ loop body =>
      rw [hKind] at hSource
      exact hPlain (taskFor_veil hRunner shielded
        (hScope body (by simp [hKind, CompiledTaskKind.childScopes])) hSource hSecrets taskInput)
  | fork branches compete =>
      refine hPlain (taskFork_veil hRunner shielded (fun inner hMem => hTask.branch ?_) compete
        taskInput position)
      simpa [hKind, CompiledTaskKind.forkBranches] using hMem
  | switch cases_ =>
      rw [hKind] at hidden
      exact taskSwitch_veil hidden taskInput
  | try_ body catch_ handler =>
      rw [hKind] at hidden
      refine hPlain (taskTry_veil hRunner shielded
        (hScope body (by simp [hKind, CompiledTaskKind.childScopes])) hidden ?_ taskInput)
      intro scope hMem
      exact hScope scope (by simpa [hKind, CompiledTaskKind.childScopes] using Or.inr hMem)
  | emit event =>
      rw [hKind] at hidden
      exact hPlain (taskEmit_veil hidden)
  | listen listen foreach_ =>
      rw [hKind] at hidden
      refine hPlain (taskListen_veil hRunner shielded hidden fun fe hMem => hScope fe.2 ?_)
      rw [hKind, CompiledTaskKind.childScopes, Option.mem_toList]
      exact Option.mem_map_of_mem Prod.snd hMem
  | raise error => exact Veil.refl _
  | call def_ =>
      rcases shielded with rfl | discreet
      · rw [← hSecrets]
        exact hPlain (taskCall_veil wf def_)
      · exact absurd hKind (discreet.callless hTask)
  | run run =>
      rw [hKind] at hidden
      exact hPlain (taskRun_veil hRunner hidden taskInput)
  | wait duration => exact Veil.refl _

end Dispatch

end OwsRuntime
