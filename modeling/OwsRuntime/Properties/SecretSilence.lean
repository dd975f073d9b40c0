import OwsRuntime.Engine.VeiledRuns
import OwsRuntime.Expressions.References

/-! What a run tells of the secrets. A workflow is given the secrets that it declares, and
no text of it depends on them that does not refer to them. -/
namespace OwsRuntime

open Async Coupling

section Texts

/-- The text of a source, if it is one. -/
def ExpressionSource.text? : ExpressionSource → Option String
  | expression text => some text
  | template text => some text
  | arguments => none

/-- The source does not refer to the secrets. -/
def ExpressionSource.Silent (source : ExpressionSource) : Prop :=
  ∀ text, source.text? = some text → ¬ Jq.reference "secrets" <:+: text.toList

/-- The workflow calls no function, and no text of it refers to the secrets. -/
structure CompiledWorkflow.Reticent (wf : CompiledWorkflow) : Prop where
  silent : ∀ source, wf.HasSource source → source.Silent
  callless : ∀ task def_, wf.HasTask task → task.kind ≠ .call def_

variable {env : RuntimeInner} {platform : Jq.Platform} {v w : Map}

theorem Map.Veiled.agreeIn (veiled : Map.Veiled v w) {text : List Char}
    (hSilent : ¬ Jq.reference "secrets" <:+: text) : Jq.AgreeIn text v w := by
  intro name hName
  apply veiled
  rintro rfl
  exact hSilent hName

/-- A source that does not refer to the secrets is blind to them: its value is the same whatever
they are, as an expression and as a text with blocks. -/
theorem ExpressionSource.Silent.blind (hEngine : env.expression = JqEngine.engine (Jq.language platform))
    {source : ExpressionSource} (silent : source.Silent) : env.Blind source := by
  cases source with
  | arguments => exact trivial
  | expression text =>
      intro input v w veiled
      have agree := veiled.agreeIn (silent text rfl)
      unfold RuntimeInner.evaluateSource
      rw [hEngine]
      cases hCompile : (JqEngine.engine (Jq.language platform)).compile text with
      | error e => rfl
      | ok compiled =>
          have hSource : compiled = ⟨text⟩ := by
            change (JqEngine.prepare (Jq.language platform) text).map _ = _ at hCompile
            cases hPrepare : JqEngine.prepare (Jq.language platform) text with
            | error e => simp [hPrepare, Except.map] at hCompile
            | ok prepared =>
                rw [hPrepare] at hCompile
                cases hCompile
                rfl
          rw [Jq.ok_bind, Jq.ok_bind, hSource]
          exact Jq.evaluate_congr agree input
  | template text =>
      intro input v w veiled
      rw [hEngine]
      exact Jq.evaluateInterpolation_congr (veiled.agreeIn (silent text rfl)) input

theorem CompiledWorkflow.Reticent.discreet
    (hEngine : env.expression = JqEngine.engine (Jq.language platform)) {wf : CompiledWorkflow}
    (reticent : wf.Reticent) : wf.Discreet env :=
  ⟨fun hSource => (reticent.silent _ hSource).blind hEngine, fun hTask => reticent.callless _ _ hTask⟩

end Texts

/-- The value of a text, as an expression or as a text with expressions in it, depends on
the variables to which the text refers, and on no others. -/
theorem value_depends_on_references (platform : Jq.Platform) (source : String) (input : Value)
    (v w : Map) (hAgree : ∀ name, Jq.reference name <:+: source.toList → v.lookup name = w.lookup name) :
    (JqEngine.engine (Jq.language platform)).evaluate ⟨source⟩ input v =
        (JqEngine.engine (Jq.language platform)).evaluate ⟨source⟩ input w ∧
      (JqEngine.engine (Jq.language platform)).evaluateInterpolation source input v =
        (JqEngine.engine (Jq.language platform)).evaluateInterpolation source input w :=
  ⟨Jq.evaluate_congr hAgree input, Jq.evaluateInterpolation_congr hAgree input⟩

section Runs

variable {env : RuntimeInner} {t : String → Option String}

/-- What can be seen of a run from outside: its result, once there is one, the requests
whose replies it waits for, and the world. -/
def seen (c : Config engineSig (Except WorkflowError Value)) :
    Option (Except WorkflowError Value) × List Act × World :=
  (c.1.value?, engine.awaits c.1, c.2.world)

theorem Act.Veiled.eq {a b : Act} (veiled : a.Veiled b) (hMode : a.mode ≠ .sync) : a = b := by
  cases veiled with
  | same a => rfl
  | note hNote => exact absurd rfl hMode

theorem awaits_eq {requests others : List Act} (hVeiled : List.Forall₂ Act.Veiled requests others)
    (hModes : ∀ a ∈ requests, a.mode ≠ .sync) : requests = others := by
  induction hVeiled with
  | nil => rfl
  | cons hFirst _ ih =>
      rw [hFirst.eq (hModes _ List.mem_cons_self), ih fun a hMem => hModes a (List.mem_cons_of_mem _ hMem)]

/-- Twins are seen alike. -/
theorem seen_eq {c d : Config engineSig (Except WorkflowError Value)}
    (twins : ConfigTwins (veils env t) (Outcome Eq) c d) : seen c = seen d := by
  have hValue : c.1.value? = d.1.value? := by
    have hRel := twins.twins.value
    generalize c.1.value? = x at hRel
    generalize d.1.value? = y at hRel
    cases hRel with
    | none => rfl
    | some hOutcome => rw [hOutcome.eq]
  have hAwaits := awaits_eq twins.twins.awaits fun a hMem => Handler.mode_of_mem_awaits hMem
  have hWorld : c.2.world = d.2.world := twins.alike.world.1
  rw [seen, seen, hValue, hAwaits, hWorld]

/-- What is seen of a run is the same under both stores, for every sequence of choices: the programs
are twins, and the environment starts only workflows that are indifferent. -/
theorem runs_seen_eq {entry : EntryPoint} (hEntry : entry.Indifferent env t) (fuel : Nat)
    (wf : CompiledWorkflow) {w : World} (hWorld : ∀ x ∈ w.workflows, x.2.Indifferent env t)
    {choices : List engine.Choice} (hChoices : ∀ e, .env e ∈ choices → e.Indifferent env t) :
    (engine.run (engine.advance (entry.program env fuel).run (idle wf w)) choices).map seen =
      (engine.run (engine.advance (entry.program (env.withSecrets t) fuel).run (idle wf w))
        choices).map seen := by
  have alike : (veils env t).Alike (idle wf w) (idle wf w) := ⟨rfl, .refl _, rfl, hWorld⟩
  have hPermits : ∀ choice ∈ choices, (veils env t).Permits choice := by
    intro choice hMem
    cases choice with
    | env e => exact hChoices e hMem
    | turn move => exact trivial
  have hRun := ((EntryPoint.veil hEntry fuel).advance alike).run hPermits
  generalize engine.run _ choices = x at hRun
  generalize engine.run _ choices = y at hRun
  cases hRun with
  | none => rfl
  | some twins => exact congrArg some (seen_eq twins)

end Runs

/-- Nothing of a run tells secrets apart on which no workflow may depend: a workflow declares
none of those that differ, or it calls no function and refers to no secret in its texts. -/
theorem secrets_leave_no_trace {env : RuntimeInner} {platform : Jq.Platform}
    (hEngine : env.expression = JqEngine.engine (Jq.language platform))
    (secrets : String → Option String) (entry : EntryPoint) (fuel : Nat) (wf : CompiledWorkflow)
    (w : World) (choices : List engine.Choice)
    (hWorkflows : ∀ run : CompiledWorkflow, (∃ input, entry = .execute run input) ∨
      (∃ key, (key, run) ∈ w.workflows) ∨ .env (.register run) ∈ choices →
        (∀ name ∈ run.secrets, env.secrets name = secrets name) ∨ run.Reticent) :
    (engine.run (engine.advance (entry.program env fuel).run (idle wf w)) choices).map seen =
      (engine.run (engine.advance (entry.program (env.withSecrets secrets) fuel).run (idle wf w))
        choices).map seen := by
  have hIndifferent : ∀ run : CompiledWorkflow, (∃ input, entry = .execute run input) ∨
      (∃ key, (key, run) ∈ w.workflows) ∨ .env (.register run) ∈ choices →
        run.Indifferent env secrets :=
    fun run hRun => (hWorkflows run hRun).imp_right fun reticent => reticent.discreet hEngine
  apply runs_seen_eq
  · cases entry with
    | execute run input => exact hIndifferent run (Or.inl ⟨input, rfl⟩)
    | resume executionId => exact trivial
  · exact fun x hMem => hIndifferent x.2 (Or.inr (Or.inl ⟨x.1, hMem⟩))
  · intro e hMem
    cases e with
    | register run => exact hIndifferent run (Or.inr (Or.inr hMem))
    | _ => exact trivial

namespace Sample

/-- A runtime that evaluates expressions, and knows a token. -/
def secretRuntime : RuntimeInner :=
  { runtime with
    expression := JqEngine.engine (Jq.language (Jq.Platform.ascii false))
    secrets := fun _ => some "alpha" }

/-- A task that evaluates a block, over variables with the secrets among them. -/
def greet : CompiledTask := task "greet" none (.set (.expression "${ . }"))

/-- A workflow that declares the token, but does not refer to it. -/
def quiet : CompiledWorkflow := { workflow [greet] [] with secrets := ["token"] }

theorem quiet_task {t : CompiledTask} (hTask : quiet.HasTask t) : t = greet := by
  induction hTask with
  | root hScope hMem =>
      obtain rfl := List.mem_singleton.mp hScope
      exact List.mem_singleton.mp hMem
  | child outer hScope hMem ih =>
      rw [ih] at hScope
      cases hScope
  | branch outer hBranch ih =>
      rw [ih] at hBranch
      cases hBranch

theorem quiet_reticent : quiet.Reticent where
  silent source hSource text hText := by
    cases hSource with
    | arguments => cases hText
    | input hInput => cases hInput
    | output hOutput => cases hOutput
    | extension hExt _ => cases hExt
    | task hTask hMem =>
        rw [quiet_task hTask] at hMem
        obtain rfl := List.mem_singleton.mp hMem
        cases hText
        decide
  callless t def_ hTask hKind := by
    rw [quiet_task hTask] at hKind
    cases hKind

/-- The turns of an execution of this workflow up to its result: the caller spawns it, and it takes
all the others. -/
def greeting : List engine.Choice :=
  .turn .here :: List.replicate 15 (.turn (.inner (.inner (.inner .here))))

/-- The whole execution is seen alike under both stores. Its task is evaluated on the way, and its
value is the result. -/
theorem secrets_leave_no_trace_quiet :
    (engine.run (engine.advance ((EntryPoint.execute quiet (.string "Ada")).program
        secretRuntime 8).run (idle quiet world)) greeting).map seen =
      (engine.run (engine.advance ((EntryPoint.execute quiet (.string "Ada")).program
        (secretRuntime.withSecrets fun _ => some "omega") 8).run (idle quiet world))
        greeting).map seen ∧
    (engine.run (engine.advance ((EntryPoint.execute quiet (.string "Ada")).program
        secretRuntime 8).run (idle quiet world)) greeting).map (·.1.value?) =
      some (some (.ok (.string "Ada"))) := by
  refine ⟨?_, by decide +kernel⟩
  refine secrets_leave_no_trace rfl (fun _ => some "omega") (.execute quiet (.string "Ada")) 8 quiet
    world greeting fun run hRun => Or.inr ?_
  rcases hRun with ⟨input, hSame⟩ | ⟨key, hMem⟩ | hMem
  · cases hSame
    exact quiet_reticent
  · cases hMem
  · rw [greeting, List.mem_cons, List.mem_replicate] at hMem
    rcases hMem with hMem | ⟨_, hMem⟩ <;> cases hMem

/-- A text that refers to the input is blind to the secrets, whichever way it is evaluated. -/
theorem value_depends_on_references_quiet :
    (JqEngine.engine (Jq.language (Jq.Platform.ascii false))).evaluate ⟨"$input"⟩ .null
          [("input", .null), ("secrets", .string "alpha")] =
        (JqEngine.engine (Jq.language (Jq.Platform.ascii false))).evaluate ⟨"$input"⟩ .null
          [("input", .null), ("secrets", .string "omega")] ∧
      (JqEngine.engine (Jq.language (Jq.Platform.ascii false))).evaluateInterpolation "$input" .null
          [("input", .null), ("secrets", .string "alpha")] =
        (JqEngine.engine (Jq.language (Jq.Platform.ascii false))).evaluateInterpolation "$input" .null
          [("input", .null), ("secrets", .string "omega")] := by
  refine value_depends_on_references (Jq.Platform.ascii false) "$input" .null
    [("input", .null), ("secrets", .string "alpha")]
    [("input", .null), ("secrets", .string "omega")] fun name hName => ?_
  have hOther : (name == "secrets") = false := by
    refine beq_false_of_ne ?_
    rintro rfl
    exact absurd hName (by decide)
  rw [List.lookup_cons, List.lookup_cons, List.lookup_cons, List.lookup_cons, hOther]

end Sample

end OwsRuntime
