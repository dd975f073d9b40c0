import OwsRuntime.Engine.EngineRequests
import OwsRuntime.Engine.Runs

/-! What the notes of an execution say of its workflow: the engine evaluates no other
texts than those of the workflow, and fails to find only components which the
workflow refers to and lacks. -/
namespace OwsRuntime

open Async Law

variable {env : RuntimeInner}

/-- A text that is evaluated is one of the workflow, and a name that is not known is
one which it lacks. -/
def Note.Accurate (env : RuntimeInner) (wf : CompiledWorkflow) : Note → Prop
  | evaluates source _ _ => wf.HasSource source
  | unresolved name => wf.Lacks env name
  | _ => True

def Execution.Accurate (env : RuntimeInner) (e : Execution) : Prop :=
  ∀ entry ∈ e.trace, entry.note.Accurate env e.workflow

/-- What a request leaves of the shared state: its workflow and its id, and a trace in
which new notes are those asked for, or tell of the context, the variables, the stop
flag and the records. -/
structure Logged (a : Act) (e f : Execution) : Prop where
  workflow : f.workflow = e.workflow
  executionId : f.executionId = e.executionId
  trace : ∀ entry ∈ f.trace, entry ∈ e.trace ∨ a = .note entry.note ∨
    ∀ env wf, entry.note.Accurate env wf

theorem Logged.same {a : Act} {e : Execution} : Logged a e e :=
  ⟨rfl, rfl, fun _ => Or.inl⟩

theorem Logged.log {a : Act} {e : Execution} {entry : Entry}
    (hEntry : a = .note entry.note ∨ ∀ env wf, entry.note.Accurate env wf) :
    Logged a e (e.log entry) := by
  refine ⟨rfl, rfl, fun other hMem => ?_⟩
  rcases List.mem_append.mp hMem with hOld | hNew
  · exact Or.inl hOld
  · obtain rfl := List.mem_singleton.mp hNew
    exact Or.inr hEntry

/-- A request leaves the workflow and the id as they are, and the only new notes in the trace are
those it asks for, or such as hold of every workflow. -/
theorem perform_logged {a : Act} {σ τ : EngineState} {reply : a.Resp}
    (hPerform : perform a σ = some (reply, τ)) : Logged a σ.shared τ.shared := by
  cases a with
  | note n =>
      cases hPerform
      exact Logged.log (Or.inl rfl)
  | storeEnded =>
      cases hPerform
      have logged : Logged .storeEnded σ.shared (σ.shared.log ⟨.ended, σ.world.cancelled⟩) :=
        Logged.log (Or.inr fun _ _ => trivial)
      exact ⟨rfl, rfl, logged.trace⟩
  | bindVar name value =>
      cases hPerform
      exact Logged.log (Or.inr fun _ _ => trivial)
  | setScopeExited by_ => cases by_ <;> cases hPerform <;> exact Logged.same
  | tryContext =>
      rw [perform] at hPerform
      split at hPerform <;> cases hPerform
      · exact Logged.log (Or.inr fun _ _ => trivial)
      · exact Logged.same
  | readContext =>
      cases hPerform
      exact Logged.log (Or.inr fun _ _ => trivial)
  | writeContext source value =>
      cases hPerform
      have logged : Logged (.writeContext source value) σ.shared
          (σ.shared.log ⟨.contextWritten source value, σ.world.cancelled⟩) :=
        Logged.log (Or.inr fun _ _ => trivial)
      exact ⟨rfl, rfl, logged.trace⟩
  | unlockContext =>
      cases hPerform
      exact ⟨rfl, rfl, fun _ => Or.inl⟩
  | lockContext =>
      rw [perform] at hPerform
      split at hPerform <;> cases hPerform
      exact ⟨rfl, rfl, fun _ => Or.inl⟩
  | store op =>
      rw [perform] at hPerform
      split at hPerform <;> cases hPerform
      · exact Logged.same
      · cases hRecord : op.record? with
        | none => exact Logged.same
        | some record => exact Logged.log (Or.inr fun _ _ => trivial)
  | load executionId =>
      rw [perform] at hPerform
      split at hPerform <;> cases hPerform <;> exact Logged.same
  | receive epoch =>
      obtain ⟨r, _, hEq⟩ := Option.map_eq_some_iff.mp hPerform
      cases hEq
      exact Logged.same
  | sleep duration epoch =>
      obtain ⟨r, _, hEq⟩ := Option.map_eq_some_iff.mp hPerform
      cases hEq
      exact Logged.same
  | outOfFuel => cases hPerform
  | _ =>
      cases hPerform
      exact Logged.same

/-- The engine takes accurate notes only. -/
def noteLaw (env : RuntimeInner) : Law engine where
  may e a := ∀ n, a = .note n → n.Accurate env e.workflow
  fits _ _ := True
  enters e := e.trace = []

def noteLaw_upheld (env : RuntimeInner) : (noteLaw env).Upheld where
  inv := Execution.Accurate env
  stable _ := True
  moves _ _ := True
  moves_refl _ := trivial
  moves_trans _ _ := trivial
  inv_of_enters := by
    intro e hEmpty entry hEntry
    rw [hEmpty] at hEntry
    cases hEntry
  may_perform := by
    intro a σ reply τ hPerform
    funext other
    show (∀ n : Note, other = .note n → n.Accurate env τ.shared.workflow) = _
    rw [(perform_logged hPerform).workflow]
    rfl
  perform_ok := by
    intro a σ reply τ hInv _ hMay hPerform
    have logged := perform_logged hPerform
    refine ⟨trivial, fun entry hEntry => ?_, trivial, trivial⟩
    rw [logged.workflow]
    rcases logged.trace entry hEntry with hOld | hAsked | hQuiet
    · exact hInv entry hOld
    · exact hMay _ hAsked
    · exact hQuiet env _
  env_ok _ _ := ⟨trivial, trivial⟩
  sync_ok hMode _ := sync_performs hMode

/-- The law of notes allows all that an execution may ask for: its notes say of a task what the
workflow says of it. -/
theorem noteLaw_terms (env : RuntimeInner) (wf : CompiledWorkflow) (executionId : String)
    {e : Execution} (hWorkflow : e.workflow = wf) :
    ExecutionTerms env wf executionId ((noteLaw env).may e) where
  routine := by
    rintro a hRoutine n rfl
    cases n <;> trivial
  evaluates := by
    intro source hSource input vars n hNote
    cases hNote
    rw [hWorkflow]
    exact hSource
  unresolved := by
    intro name hName n hNote
    cases hNote
    rw [hWorkflow]
    exact hName
  local_ := by
    rintro a hChanges n rfl
    cases hChanges
  started := by
    intro time n hNote
    cases hNote
  completed := by
    intro time n hNote
    cases hNote
  stores := by
    intro op _ n hNote
    cases hNote

theorem noteLaw_admits (env : RuntimeInner) (executionId : String) :
    Admits (noteLaw env) env executionId :=
  ⟨fun _ _ => rfl, fun wf _ => noteLaw_terms env wf executionId rfl⟩

theorem noteLaw_opens {e : Execution} (a : Act) (hOpens : a.Opens) : (noteLaw env).may e a := by
  rintro n rfl
  cases hOpens

theorem EntryPoint.obeys (fuel : Nat) (entry : EntryPoint) {e : Execution} :
    Obeys (noteLaw env) ((noteLaw env).may e) (entry.program env fuel) := by
  have nests : Nests (noteLaw env) env := fun executionId _ => noteLaw_admits env executionId
  cases entry with
  | execute wf input => exact execute_obeys nests noteLaw_opens fuel input
  | resume executionId =>
      exact resume_obeys nests noteLaw_opens fuel fun record _ => noteLaw_admits env _

theorem beginExecution_obeys {fuel : Nat} {wf : CompiledWorkflow} {ctx : ExecContext}
    {rawInput : Value} {startedAt : Int} {resume : Option ResumeState} :
    Obeys (noteLaw env) ((noteLaw env).may (Execution.fresh wf ctx.executionId (startIndex resume)))
      (executeBody env (runner env fuel) fuel wf ctx rawInput startedAt resume) := by
  have nests : Nests (noteLaw env) env := fun executionId _ => noteLaw_admits env executionId
  exact executeBody_obeys (runner_obeys nests fuel) (noteLaw_terms env wf _ rfl) rawInput startedAt
    fuel resume

theorem noteLaw_fit {l : TaskLocal} {e : Execution} {w : World} (hEmpty : e.trace = []) :
    (noteLaw_upheld env).Fit ((noteLaw env).may e) ⟨l, e, w⟩ :=
  ⟨rfl, (noteLaw_upheld env).inv_of_enters hEmpty, trivial⟩

/-- Every note of every execution is accurate. -/
theorem Execution.Arises.accurate {e : Execution} (arises : e.Arises env) : e.Accurate env := by
  cases arises with
  | within reached hRegion =>
      have hAll := Asks.regions (EntryPoint.obeys _ _) (noteLaw_fit rfl) reached
      exact hAll.of_hasRegion hRegion
  | own reached => exact (Asks.reaches beginExecution_obeys (noteLaw_fit rfl) reached).1.inv
  | nested reached hRegion =>
      have hAll := Asks.regions beginExecution_obeys (noteLaw_fit rfl) reached
      exact hAll.of_hasRegion hRegion

end OwsRuntime
