import OwsRuntime.Registration

/-! The registry of a runtime. Workflows are kept under the joined text of their identity,
and the run task and the resumption of an execution look them up under such a text. -/
namespace OwsRuntime

/-- The registered workflows under their keys. The entry that counts for a key is the first. -/
abbrev Registry := List (String × CompiledWorkflow)

namespace Registry

/-- `RuntimeInner::workflow`. -/
def workflow (registry : Registry) (key : String) : Option CompiledWorkflow := registry.lookup key

/-- `RuntimeInner::register`. -/
def register (registry : Registry) (wf : CompiledWorkflow) : Registry := (wf.id.key, wf) :: registry

/-- The executor of the engine looks workflows up in the registry. -/
theorem perform_findWorkflow (key : String) (σ : EngineState) :
    perform (.findWorkflow key) σ = some (workflow σ.world.workflows key, σ) := rfl

/-- Workflows may be registered at any time during a run. -/
theorem disturb_register (wf : CompiledWorkflow) (w : World) :
    (disturb (.register wf) w).workflows = register w.workflows wf := rfl

end Registry

/-- `Runtime::register_definition`. A definition that is not accepted changes nothing. -/
def registerCall (env : RuntimeInner) (compileEnv : CompileEnv) (registry : Registry)
    (definition : WorkflowDefinition) : Registry :=
  match registerDefinition env compileEnv definition with
  | .ok wf => registry.register wf
  | .error _ => registry

/-- The registry after a sequence of calls. -/
def registryAfter (env : RuntimeInner) (compileEnv : CompileEnv)
    (calls : List WorkflowDefinition) : Registry :=
  calls.foldl (registerCall env compileEnv) []

/-- The workflows of the accepted definitions, in the order of their calls. -/
def acceptedWorkflows (env : RuntimeInner) (compileEnv : CompileEnv)
    (calls : List WorkflowDefinition) : List CompiledWorkflow :=
  calls.filterMap fun definition => (registerDefinition env compileEnv definition).toOption

/-- An identity whose namespace and name are identifiers, as validation demands. -/
structure WorkflowId.Valid (id : WorkflowId) : Prop where
  namespace_ : isIdentifier id.namespace_ = true
  name : isIdentifier id.name = true

section Identities

variable {env : RuntimeInner} {compileEnv : CompileEnv} {definition : WorkflowDefinition}
  {wf : CompiledWorkflow} {calls : List WorkflowDefinition}

theorem isIdentifier_of_documentIssues {document : DocumentDefinition}
    (hIssues : documentIssues document = []) :
    isIdentifier document.namespace_ = true ∧ isIdentifier document.name = true := by
  simp only [documentIssues, List.append_eq_nil_iff] at hIssues
  obtain ⟨⟨⟨⟨-, hName⟩, hNamespace⟩, -⟩, -⟩ := hIssues
  constructor
  · by_contra hNot
    rw [if_neg hNot] at hNamespace
    cases hNamespace
  · by_contra hNot
    rw [if_neg hNot] at hName
    cases hName

/-- A compiled workflow has the identity of its document, which has been validated. -/
theorem valid_of_compile (hCompile : compile compileEnv definition = .ok wf) : wf.id.Valid := by
  rw [compile] at hCompile
  by_cases hIssues : (validate definition).isEmpty
  · rw [List.isEmpty_iff] at hIssues
    have hDocument : documentIssues definition.document = [] :=
      (List.append_eq_nil_iff.mp (List.append_eq_nil_iff.mp hIssues).1).1
    obtain ⟨hNamespace, hName⟩ := isIdentifier_of_documentIssues hDocument
    simp only [hIssues, List.isEmpty_nil, Bool.not_true, Bool.false_eq_true, if_false] at hCompile
    obtain ⟨_, -, hCompile⟩ := bind_eq_ok hCompile
    obtain ⟨_, -, hCompile⟩ := bind_eq_ok hCompile
    obtain ⟨_, -, hCompile⟩ := bind_eq_ok hCompile
    obtain ⟨_, -, hCompile⟩ := bind_eq_ok hCompile
    cases hCompile
    exact ⟨hNamespace, hName⟩
  · rw [Bool.not_eq_true] at hIssues
    simp only [hIssues, Bool.not_false, if_true] at hCompile
    cases hCompile

theorem valid_of_accepted (hMem : wf ∈ acceptedWorkflows env compileEnv calls) : wf.id.Valid := by
  obtain ⟨definition, -, hAccepted⟩ := List.mem_filterMap.mp hMem
  exact valid_of_compile (registered_of_registerDefinition (eq_ok_of_toOption hAccepted)).compiled

/-- The registry holds the accepted workflows, the last one first. -/
theorem registryAfter_eq (env : RuntimeInner) (compileEnv : CompileEnv)
    (calls : List WorkflowDefinition) : registryAfter env compileEnv calls =
      (acceptedWorkflows env compileEnv calls).reverse.map fun wf => (wf.id.key, wf) := by
  have hFold : ∀ (registry : Registry) (calls : List WorkflowDefinition),
      calls.foldl (registerCall env compileEnv) registry =
        ((acceptedWorkflows env compileEnv calls).reverse.map fun wf => (wf.id.key, wf)) ++
          registry := by
    intro registry calls
    induction calls generalizing registry with
    | nil => rfl
    | cons definition rest ih =>
        rw [List.foldl_cons, ih, registerCall]
        cases hResult : registerDefinition env compileEnv definition with
        | ok wf => simp [acceptedWorkflows, hResult, Except.toOption, Registry.register]
        | error e => simp [acceptedWorkflows, hResult, Except.toOption]
  rw [registryAfter, hFold, List.append_nil]

end Identities

section Keys

theorem slash_notMem_of_isIdentifier {value : String} (hIdentifier : isIdentifier value = true) :
    '/' ∉ value.toList := by
  rw [isIdentifier] at hIdentifier
  intro hMem
  cases hText : value.toList with
  | nil =>
      rw [hText] at hMem
      cases hMem
  | cons c rest =>
      rw [hText] at hIdentifier hMem
      rw [Bool.and_eq_true, List.all_eq_true] at hIdentifier
      rcases List.mem_cons.mp hMem with rfl | hRest
      · exact absurd hIdentifier.1 (by decide)
      · exact absurd (hIdentifier.2 _ hRest) (by decide)

/-- A text without slashes before a slash is determined by the whole. -/
theorem split_at_slash {p q n m : List Char} (hP : '/' ∉ p) (hN : '/' ∉ n)
    (hSame : p ++ '/' :: q = n ++ '/' :: m) : p = n ∧ q = m := by
  induction p generalizing n with
  | nil =>
      cases n with
      | nil => exact ⟨rfl, (List.cons.inj hSame).2⟩
      | cons c n =>
          have hHead : '/' = c := (List.cons.inj hSame).1
          exact absurd (hHead ▸ List.mem_cons_self) hN
  | cons c p ih =>
      cases n with
      | nil =>
          have hHead : c = '/' := (List.cons.inj hSame).1
          exact absurd (hHead ▸ List.mem_cons_self) hP
      | cons d n =>
          rw [List.cons_append, List.cons_append, List.cons.injEq] at hSame
          obtain ⟨rfl, hTail⟩ := hSame
          rw [List.mem_cons, not_or] at hP hN
          obtain ⟨rfl, rfl⟩ := ih hP.2 hN.2 hTail
          exact ⟨rfl, rfl⟩

/-- The version of a registered identity begins with what the requested one has in its
namespace or its name after the registered name. -/
def WorkflowId.Overlaps (registered requested : WorkflowId) : Prop :=
  ∃ rest, requested.namespace_ ++ "/" ++ requested.name =
      registered.namespace_ ++ "/" ++ registered.name ++ "/" ++ rest ∧
    registered.version = rest ++ "/" ++ requested.version

end Keys

end OwsRuntime
