import OwsRuntime.Async.Twins
import OwsRuntime.Engine.Sources

/-! Runs that differ in the secrets alone. What an execution asks for is compared with what
it asks for under other secrets: only the variables in the notes on evaluations may differ,
and there only the secrets. -/
namespace OwsRuntime

open Async Coupling

/-- The maps agree on every variable but the secrets. -/
def Map.Veiled (v w : Map) : Prop := ∀ name ≠ "secrets", v.lookup name = w.lookup name

/-- The value of a text does not depend on the secrets. The arguments of the `http`
function are data. -/
def RuntimeInner.Blind (env : RuntimeInner) : ExpressionSource → Prop
  | .expression source => ∀ input v w, Map.Veiled v w →
      env.evaluateSource source input v = env.evaluateSource source input w
  | .template source => ∀ input v w, Map.Veiled v w →
      env.expression.evaluateInterpolation source input v =
        env.expression.evaluateInterpolation source input w
  | .arguments => True

/-- A workflow that neither evaluates a text which depends on the secrets nor calls a
function, as functions are given the secrets. -/
structure CompiledWorkflow.Discreet (env : RuntimeInner) (wf : CompiledWorkflow) : Prop where
  blind : ∀ {source}, wf.HasSource source → env.Blind source
  callless : ∀ {task def_}, wf.HasTask task → task.kind ≠ .call def_

def RuntimeInner.withSecrets (env : RuntimeInner) (secrets : String → Option String) :
    RuntimeInner := { env with secrets }

def ExecContext.withSecrets (ctx : ExecContext) (secrets : List (String × String)) : ExecContext :=
  { ctx with secrets }

def ExpressionContext.withSecrets (ctx : ExpressionContext) (secrets : List (String × String)) :
    ExpressionContext := { ctx with secrets }

/-- The notes are the same, up to the secrets that an evaluation sees. -/
inductive Note.Veiled : Note → Note → Prop where
  | same (n : Note) : Note.Veiled n n
  | evaluates (source : ExpressionSource) (input : Value) {v w : Map} (hVars : Map.Veiled v w) :
      Note.Veiled (.evaluates source input v) (.evaluates source input w)

inductive Act.Veiled : Act → Act → Prop where
  | same (a : Act) : Act.Veiled a a
  | note {n m : Note} (hNote : n.Veiled m) : Act.Veiled (.note n) (.note m)

def Entry.Veiled (x y : Entry) : Prop := x.note.Veiled y.note ∧ x.cancelled = y.cancelled

/-- The executions are the same, up to their traces. -/
structure Execution.Veiled (e f : Execution) : Prop where
  same : f = { e with trace := f.trace }
  trace : List.Forall₂ Entry.Veiled e.trace f.trace

/-- The workflow declares no secret that differs, or does not depend on the secrets. -/
def CompiledWorkflow.Indifferent (env : RuntimeInner) (t : String → Option String)
    (wf : CompiledWorkflow) : Prop :=
  (∀ name ∈ wf.secrets, env.secrets name = t name) ∨ wf.Discreet env

/-- A workflow that is found is indifferent to the secrets that differ. -/
def Act.FindsIndifferent (env : RuntimeInner) (t : String → Option String) :
    (a : Act) → a.Resp → Prop
  | .findWorkflow _, found => ∀ wf, found = some wf → wf.Indifferent env t
  | _, _ => True

/-- Only such workflows are registered meanwhile. -/
def Disturbance.Indifferent (env : RuntimeInner) (t : String → Option String) : Disturbance → Prop
  | .register wf => wf.Indifferent env t
  | _ => True

section Coupling

variable {e f : Execution} {env : RuntimeInner} {t : String → Option String}

theorem Execution.Veiled.refl (e : Execution) : e.Veiled e :=
  ⟨rfl, List.forall₂_same.mpr fun _ _ => ⟨.same _, rfl⟩⟩

theorem Execution.Veiled.log (veiled : e.Veiled f) {n m : Note} (hNote : n.Veiled m)
    (cancelled : Bool) : (e.log ⟨n, cancelled⟩).Veiled (f.log ⟨m, cancelled⟩) := by
  refine ⟨?_, List.rel_append veiled.trace (.cons ⟨hNote, rfl⟩ .nil)⟩
  rw [veiled.same]
  rfl

theorem Execution.Veiled.context_eq (veiled : e.Veiled f) : f.context = e.context := by
  rw [veiled.same]

theorem Execution.Veiled.ended_eq (veiled : e.Veiled f) : f.ended = e.ended := by
  rw [veiled.same]

theorem Execution.Veiled.locked_eq (veiled : e.Veiled f) : f.locked = e.locked := by
  rw [veiled.same]

theorem Execution.Veiled.context (veiled : e.Veiled f) (context : Value) :
    { e with context }.Veiled { f with context } := ⟨by rw [veiled.same], veiled.trace⟩

theorem Execution.Veiled.ended (veiled : e.Veiled f) (ended : Bool) :
    { e with ended }.Veiled { f with ended } := ⟨by rw [veiled.same], veiled.trace⟩

theorem Execution.Veiled.locked (veiled : e.Veiled f) (locked : Bool) :
    { e with locked }.Veiled { f with locked } := ⟨by rw [veiled.same], veiled.trace⟩

/-- The world is the same, and its workflows are indifferent to the secrets that differ. -/
def World.Alike (env : RuntimeInner) (t : String → Option String) (v w : World) : Prop :=
  v = w ∧ ∀ entry ∈ v.workflows, entry.2.Indifferent env t

abbrev EngineState.Alike (env : RuntimeInner) (t : String → Option String) (σ τ : EngineState) :
    Prop := @State.Alike engineSig Eq Execution.Veiled (World.Alike env t) σ τ

theorem lookup_indifferent {workflows : List (String × CompiledWorkflow)}
    (hWorkflows : ∀ entry ∈ workflows, entry.2.Indifferent env t) {key : String} {wf : CompiledWorkflow}
    (hFound : workflows.lookup key = some wf) : wf.Indifferent env t := by
  induction workflows with
  | nil => cases hFound
  | cons entry rest ih =>
      obtain ⟨k, first⟩ := entry
      rw [List.lookup_cons] at hFound
      split at hFound
      · cases hFound
        exact hWorkflows (k, wf) List.mem_cons_self
      · exact ih (fun other hMem => hWorkflows other (List.mem_cons_of_mem _ hMem)) hFound

/-- What corresponding requests do. -/
def Performed (env : RuntimeInner) (t : String → Option String) (a b : Act) (x : a.Resp × EngineState)
    (y : b.Resp × EngineState) : Prop :=
  (HEq x.1 y.1 ∧ a.FindsIndifferent env t x.1) ∧ EngineState.Alike env t x.2 y.2

/-- A request that corresponds to itself has corresponding effects. There is a case for each
request: it is answered from what both stores have in common, and notes are taken in both traces. -/
theorem perform_same {σ τ : EngineState} (alike : EngineState.Alike env t σ τ) (a : Act) :
    Option.Rel (Performed env t a a) (perform a σ) (perform a τ) := by
  obtain ⟨loc, shared, world⟩ := σ
  obtain ⟨loc', shared', world'⟩ := τ
  obtain ⟨hLoc, hShared, hWorld, hWorkflows⟩ := alike
  cases hLoc
  cases hWorld
  have hLength := hShared.trace.length_eq
  have hContext : shared'.context = shared.context := hShared.context_eq
  have hEnded : shared'.ended = shared.ended := hShared.ended_eq
  have hLocked : shared'.locked = shared.locked := hShared.locked_eq
  have kept : ∀ (l : TaskLocal) (w : World), w.workflows = world.workflows →
      EngineState.Alike env t ⟨l, shared, w⟩ ⟨l, shared', w⟩ :=
    fun l w hSame => ⟨rfl, hShared, rfl, by rwa [hSame]⟩
  have noted : ∀ (n : Note) (l : TaskLocal) (w : World), w.workflows = world.workflows →
      EngineState.Alike env t ⟨l, shared.log ⟨n, world.cancelled⟩, w⟩
        ⟨l, shared'.log ⟨n, world.cancelled⟩, w⟩ :=
    fun n l w hSame => ⟨rfl, hShared.log (.same n) _, rfl, by rwa [hSame]⟩
  cases a with
  | note n => exact .some ⟨⟨heq_of_eq hLength, trivial⟩, noted n loc world rfl⟩
  | loadEnded => exact .some ⟨⟨heq_of_eq hEnded.symm, trivial⟩, kept loc world rfl⟩
  | storeEnded =>
      exact .some ⟨⟨HEq.rfl, trivial⟩, rfl, (hShared.ended true).log (.same _) _, rfl, hWorkflows⟩
  | bindVar name value => exact .some ⟨⟨HEq.rfl, trivial⟩, noted _ _ world rfl⟩
  | setScopeExited by_ =>
      cases by_ with
      | none => exact .some ⟨⟨HEq.rfl, trivial⟩, kept _ world rfl⟩
      | some tasks => exact .some ⟨⟨HEq.rfl, trivial⟩, kept _ world rfl⟩
  | tryContext =>
      simp only [perform, hLocked, hContext]
      split
      · exact .some ⟨⟨HEq.rfl, trivial⟩, noted _ loc world rfl⟩
      · exact .some ⟨⟨HEq.rfl, trivial⟩, kept loc world rfl⟩
  | readContext =>
      simp only [perform, hContext]
      exact .some ⟨⟨heq_of_eq (by rw [hLength]), trivial⟩, noted _ loc world rfl⟩
  | writeContext source value =>
      exact .some ⟨⟨HEq.rfl, trivial⟩, rfl, (hShared.context value).log (.same _) _, rfl, hWorkflows⟩
  | findWorkflow key =>
      exact .some ⟨⟨HEq.rfl, fun wf hFound => lookup_indifferent hWorkflows hFound⟩, kept loc world rfl⟩
  | unlockContext =>
      exact .some ⟨⟨HEq.rfl, trivial⟩, rfl, hShared.locked false, rfl, hWorkflows⟩
  | lockContext =>
      simp only [perform, hLocked]
      split
      · exact .none
      · exact .some ⟨⟨HEq.rfl, trivial⟩, rfl, hShared.locked true, rfl, hWorkflows⟩
  | receive epoch =>
      simp only [perform]
      cases world.woken world.oracle.event epoch with
      | none => exact .none
      | some reply => exact .some ⟨⟨HEq.rfl, trivial⟩, kept loc world rfl⟩
  | sleep duration epoch =>
      simp only [perform]
      cases world.woken _ epoch with
      | none => exact .none
      | some reply => exact .some ⟨⟨HEq.rfl, trivial⟩, kept loc world rfl⟩
  | store op =>
      simp only [perform]
      cases world.oracle.store with
      | error e => exact .some ⟨⟨HEq.rfl, trivial⟩, kept loc _ rfl⟩
      | ok reply =>
          cases op.record? with
          | none => exact .some ⟨⟨HEq.rfl, trivial⟩, kept loc _ rfl⟩
          | some record => exact .some ⟨⟨HEq.rfl, trivial⟩, noted _ loc _ rfl⟩
  | load executionId =>
      simp only [perform]
      cases world.oracle.store with
      | error e => exact .some ⟨⟨HEq.rfl, trivial⟩, kept loc world rfl⟩
      | ok reply => exact .some ⟨⟨HEq.rfl, trivial⟩, kept loc world rfl⟩
  | outOfFuel => exact .none
  | _ => exact .some ⟨⟨HEq.rfl, trivial⟩, kept _ _ rfl⟩

/-- The coupling of runs that differ in the secrets alone. -/
def veils (env : RuntimeInner) (t : String → Option String) : Coupling engine where
  pairs := Act.Veiled
  replies := fun a b reply reply' => HEq reply reply' ∧ a.FindsIndifferent env t reply
  locals := Eq
  shareds := Execution.Veiled
  worlds := World.Alike env t
  allowed := Disturbance.Indifferent env t
  mode_eq := by
    rintro a b (⟨⟩ | ⟨⟩) <;> rfl
  perform := by
    rintro a b σ τ (⟨a⟩ | ⟨hNote⟩) alike
    · exact perform_same alike a
    · obtain ⟨hLoc, hShared, hWorld, hWorkflows⟩ := alike
      refine .some ⟨⟨heq_of_eq hShared.trace.length_eq, trivial⟩, hLoc, ?_, hWorld, hWorkflows⟩
      have hCancelled : σ.world.cancelled = τ.world.cancelled := congrArg World.cancelled hWorld
      show (σ.shared.log ⟨_, σ.world.cancelled⟩).Veiled (τ.shared.log ⟨_, τ.world.cancelled⟩)
      rw [hCancelled]
      exact hShared.log hNote _
  fires := by
    rintro alarm v w ⟨rfl, _⟩
    rfl
  disturb := by
    rintro e v w hAllowed ⟨rfl, hWorkflows⟩
    refine ⟨rfl, ?_⟩
    cases e with
    | register wf =>
        intro entry hMem
        rcases List.mem_cons.mp hMem with rfl | hMem
        · exact hAllowed
        · exact hWorkflows entry hMem
    | _ => exact hWorkflows

end Coupling

end OwsRuntime
