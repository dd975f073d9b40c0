import OwsRuntime.CompileScopes
import OwsRuntime.Properties.ExpressionSyntax
import OwsRuntime.Registry

/-! Integrity of the registry. Keys are the joined texts of identities. Those of registered
workflows determine the identity, while the parts of a requested one may have slashes. -/
namespace OwsRuntime

variable {registered requested other : WorkflowId}

theorem toList_key (id : WorkflowId) : id.key.toList =
    (id.namespace_.toList ++ '/' :: id.name.toList) ++ '/' :: id.version.toList := by
  simp [WorkflowId.key, String.toList_append]

theorem count_slash_of_valid (valid : registered.Valid) :
    (registered.namespace_.toList ++ '/' :: registered.name.toList).count '/' = 1 := by
  rw [List.count_append, List.count_cons_self,
    List.count_eq_zero.mpr (slash_notMem_of_isIdentifier valid.namespace_),
    List.count_eq_zero.mpr (slash_notMem_of_isIdentifier valid.name)]

/-- Namespaces and names that are joined to the same text, one pair being identifiers. -/
theorem eq_of_joined (valid : registered.Valid)
    (hJoined : requested.namespace_.toList ++ '/' :: requested.name.toList =
      registered.namespace_.toList ++ '/' :: registered.name.toList) :
    requested.namespace_ = registered.namespace_ ∧ requested.name = registered.name := by
  have hCount := count_slash_of_valid valid
  rw [← hJoined, List.count_append, List.count_cons_self] at hCount
  have hNamespace : '/' ∉ requested.namespace_.toList := List.count_eq_zero.mp (by omega)
  obtain ⟨hFirst, hSecond⟩ :=
    split_at_slash hNamespace (slash_notMem_of_isIdentifier valid.namespace_) hJoined
  exact ⟨String.toList_inj.mp hFirst, String.toList_inj.mp hSecond⟩

theorem toList_overlaps : registered.Overlaps requested ↔ ∃ rest : List Char,
    requested.namespace_.toList ++ '/' :: requested.name.toList =
      (registered.namespace_.toList ++ '/' :: registered.name.toList) ++ '/' :: rest ∧
    registered.version.toList = rest ++ '/' :: requested.version.toList := by
  constructor
  · rintro ⟨rest, hName, hVersion⟩
    refine ⟨rest.toList, ?_, ?_⟩
    · simpa [String.toList_append] using congrArg String.toList hName
    · simpa [String.toList_append] using congrArg String.toList hVersion
  · rintro ⟨rest, hName, hVersion⟩
    refine ⟨String.ofList rest, ?_, ?_⟩
    · apply String.toList_inj.mp
      simpa [String.toList_append] using hName
    · apply String.toList_inj.mp
      simpa [String.toList_append] using hVersion

/-- The key of a registered identity is that of a requested one when both are the same, or
when they overlap. The cases are where the last slash but the version's stands. -/
theorem key_eq_iff (valid : registered.Valid) :
    registered.key = requested.key ↔ registered = requested ∨ registered.Overlaps requested := by
  rw [← String.toList_inj, toList_key, toList_key, toList_overlaps]
  constructor
  · intro hKey
    rcases List.append_eq_append_iff.mp hKey with ⟨more, hLong, hVersion⟩ | ⟨more, hShort, hVersion⟩
    · cases more with
      | nil =>
          rw [List.append_nil] at hLong
          obtain ⟨hNamespace, hName⟩ := eq_of_joined valid hLong
          have hSame : registered.version = requested.version :=
            String.toList_inj.mp (List.cons.inj hVersion).2
          left
          cases registered
          cases requested
          simp_all
      | cons c rest =>
          rw [List.cons_append, List.cons.injEq] at hVersion
          obtain ⟨rfl, hVersion⟩ := hVersion
          exact Or.inr ⟨rest, hLong, hVersion⟩
    · cases more with
      | nil =>
          rw [List.append_nil] at hShort
          obtain ⟨hNamespace, hName⟩ := eq_of_joined valid hShort.symm
          have hSame : requested.version = registered.version :=
            String.toList_inj.mp (List.cons.inj hVersion).2
          left
          cases registered
          cases requested
          simp_all
      | cons c rest =>
          -- The registered part would have two slashes.
          rw [List.cons_append, List.cons.injEq] at hVersion
          have hCount := count_slash_of_valid valid
          rw [hShort, ← hVersion.1, List.count_append, List.count_append, List.count_cons_self,
            List.count_cons_self] at hCount
          omega
  · rintro (rfl | ⟨rest, hName, hVersion⟩)
    · rfl
    · rw [hName, hVersion]
      simp

theorem WorkflowId.Overlaps.ne (overlaps : registered.Overlaps requested) : registered ≠ requested := by
  rintro rfl
  obtain ⟨rest, -, hVersion⟩ := overlaps
  have hLength := congrArg String.length hVersion
  simp only [String.length_append] at hLength
  have hSlash : "/".length = 1 := rfl
  omega

/-- Two identities that can be registered have different keys when they differ. -/
theorem eq_of_key_eq (valid : registered.Valid) (valid' : other.Valid)
    (hKey : registered.key = other.key) : registered = other := by
  rcases (key_eq_iff valid).mp hKey with hSame | hOverlaps
  · exact hSame
  · obtain ⟨rest, hName, -⟩ := toList_overlaps.mp hOverlaps
    have hCount := count_slash_of_valid valid'
    rw [hName, List.count_append, List.count_cons_self, count_slash_of_valid valid] at hCount
    omega

section Lookups

variable {env : RuntimeInner} {compileEnv : CompileEnv} {calls : List WorkflowDefinition}
  {definition : WorkflowDefinition} {wf : CompiledWorkflow} {id : WorkflowId}

/-- The last accepted workflow with an identity. -/
def lastRegistered (env : RuntimeInner) (compileEnv : CompileEnv) (calls : List WorkflowDefinition)
    (id : WorkflowId) : Option CompiledWorkflow :=
  (acceptedWorkflows env compileEnv calls).reverse.find? fun wf => wf.id = id

/-- A request finds the last workflow that has been registered with exactly its identity. -/
def FindsLast (env : RuntimeInner) (compileEnv : CompileEnv) (calls : List WorkflowDefinition)
    (id : WorkflowId) : Prop :=
  (registryAfter env compileEnv calls).workflow id.key = lastRegistered env compileEnv calls id

theorem workflow_registryAfter (key : String) :
    (registryAfter env compileEnv calls).workflow key =
      (acceptedWorkflows env compileEnv calls).reverse.find? fun wf => wf.id.key = key := by
  rw [registryAfter_eq, Registry.workflow]
  induction (acceptedWorkflows env compileEnv calls).reverse with
  | nil => rfl
  | cons wf rest ih =>
      by_cases hKey : wf.id.key = key
      · simp [hKey]
      · have hOther : (key == wf.id.key) = false := beq_eq_false_iff_ne.mpr (Ne.symm hKey)
        simp only [List.map_cons, List.lookup_cons, hOther, List.find?_cons, hKey, decide_false]
        exact ih

theorem find?_congr_of_mem {α : Type} {p q : α → Bool} {l : List α} (hSame : ∀ a ∈ l, p a = q a) :
    l.find? p = l.find? q := by
  induction l with
  | nil => rfl
  | cons a rest ih =>
      rw [List.find?_cons, List.find?_cons, hSame a List.mem_cons_self,
        ih fun b hB => hSame b (List.mem_cons_of_mem _ hB)]

/-- A request finds what has its identity unless a registered identity overlaps with it. -/
theorem findsLast_of_disjoint
    (disjoint : ∀ wf ∈ acceptedWorkflows env compileEnv calls, ¬ wf.id.Overlaps id) :
    FindsLast env compileEnv calls id := by
  rw [FindsLast, workflow_registryAfter, lastRegistered]
  apply find?_congr_of_mem
  intro wf hMem
  rw [List.mem_reverse] at hMem
  rw [decide_eq_decide, key_eq_iff (valid_of_accepted hMem), or_iff_left (disjoint wf hMem)]

/-- A request that finds what has its identity overlaps with no registered identity. -/
theorem disjoint_of_findsLast (finds : FindsLast env compileEnv calls id)
    (hMem : wf ∈ acceptedWorkflows env compileEnv calls) : ¬ wf.id.Overlaps id := by
  intro overlaps
  have hValid : wf.id.Valid := valid_of_accepted hMem
  have hKey : wf.id.key = id.key := (key_eq_iff hValid).mpr (Or.inr overlaps)
  rw [FindsLast, workflow_registryAfter] at finds
  have hSome : ((acceptedWorkflows env compileEnv calls).reverse.find? fun wf => wf.id.key = id.key).isSome := by
    rw [List.find?_isSome]
    exact ⟨wf, List.mem_reverse.mpr hMem, by simpa using hKey⟩
  obtain ⟨found, hFound⟩ := Option.isSome_iff_exists.mp hSome
  rw [finds, lastRegistered] at hFound
  have hId : found.id = id := by simpa using List.find?_some hFound
  have hAccepted := List.mem_reverse.mp (List.mem_of_find?_eq_some hFound)
  have hSame : wf.id = found.id := by
    apply eq_of_key_eq hValid (valid_of_accepted hAccepted)
    rw [hId, hKey]
  exact overlaps.ne (hSame.trans hId)

/-- An identity which can be registered overlaps with no registered one. -/
theorem not_overlaps_of_valid (valid : registered.Valid) (valid' : other.Valid) :
    ¬ registered.Overlaps other := by
  intro overlaps
  exact overlaps.ne (eq_of_key_eq valid valid' ((key_eq_iff valid).mpr (Or.inr overlaps)))

theorem acceptedWorkflows_append (more : List WorkflowDefinition) :
    acceptedWorkflows env compileEnv (calls ++ more) =
      acceptedWorkflows env compileEnv calls ++ acceptedWorkflows env compileEnv more :=
  List.filterMap_append

/-- Registering a workflow leaves what is found for every other identity that can be registered. -/
theorem workflow_registerCall_of_ne {new : CompiledWorkflow}
    (hRegister : registerDefinition env compileEnv definition = .ok new) (valid : id.Valid)
    (hNe : new.id ≠ id) :
    (registryAfter env compileEnv (calls ++ [definition])).workflow id.key =
      (registryAfter env compileEnv calls).workflow id.key := by
  have hNew : new.id.Valid := valid_of_compile (registered_of_registerDefinition hRegister).compiled
  have hKey : new.id.key ≠ id.key := fun hKey => hNe (eq_of_key_eq hNew valid hKey)
  have hSingle : acceptedWorkflows env compileEnv [definition] = [new] := by
    simp [acceptedWorkflows, hRegister, Except.toOption]
  rw [workflow_registryAfter, workflow_registryAfter, acceptedWorkflows_append, hSingle,
    List.reverse_append, List.reverse_singleton, List.singleton_append, List.find?_cons]
  simp [hKey]

end Lookups

/-- A request finds the last workflow registered with its identity exactly when no registered
identity overlaps with it. The identity of a workflow that compiles, which is what an
execution stores for its resumption, always does, and registering a workflow replaces only
one with its own identity. -/
theorem findsLast_iff (env : RuntimeInner) (compileEnv : CompileEnv)
    (calls : List WorkflowDefinition) (requested : WorkflowId) :
    (FindsLast env compileEnv calls requested ↔
      ∀ wf ∈ acceptedWorkflows env compileEnv calls, ¬ wf.id.Overlaps requested) ∧
    (∀ definition wf, compile compileEnv definition = .ok wf →
      FindsLast env compileEnv calls wf.id) ∧
    ∀ definition new, registerDefinition env compileEnv definition = .ok new →
      ∀ wf ∈ acceptedWorkflows env compileEnv calls, new.id ≠ wf.id →
        (registryAfter env compileEnv (calls ++ [definition])).workflow wf.id.key =
          (registryAfter env compileEnv calls).workflow wf.id.key := by
  refine ⟨⟨fun finds wf hMem => disjoint_of_findsLast finds hMem, findsLast_of_disjoint⟩, ?_, ?_⟩
  · intro definition wf hCompile
    apply findsLast_of_disjoint
    intro found hMem
    exact not_overlaps_of_valid (valid_of_accepted hMem) (valid_of_compile hCompile)
  · intro definition new hRegister wf hMem hNe
    exact workflow_registerCall_of_ne hRegister (valid_of_accepted hMem) hNe

namespace Sample

/-- A workflow whose version has a slash. -/
def versioned : WorkflowDefinition :=
  let plain := definition [[("wait", .set (fields none) (.map []))]]
  { plain with document := { plain.document with namespace_ := "ns", name := "wf", version := "1/2" } }

end Sample

/-- The request for version 2 of `wf/1` finds version 1/2 of `wf`. -/
theorem versioned_found : ¬ ∀ env compileEnv calls requested,
    FindsLast env compileEnv calls requested := by
  intro hAll
  have finds := hAll Sample.runtime Sample.compileEnv [Sample.versioned] ⟨"ns", "wf/1", "2"⟩
  have hFound : ((registryAfter Sample.runtime Sample.compileEnv [Sample.versioned]).workflow
      (WorkflowId.key ⟨"ns", "wf/1", "2"⟩)).isSome = true := by decide +kernel
  have hNone : (lastRegistered Sample.runtime Sample.compileEnv [Sample.versioned]
      ⟨"ns", "wf/1", "2"⟩).isSome = false := by decide +kernel
  rw [finds, hNone] at hFound
  cases hFound

end OwsRuntime
