import OwsRuntime.Properties.FlowTargets
import OwsRuntime.Properties.Reachability

/-! When the validator accepts a definition: each scope which it visits must be
clean by itself. -/
namespace OwsRuntime

/-- A task is without issues of its own, its directive and its scopes apart. -/
def TaskDefinition.ownClean : TaskDefinition → Bool
  | for_ _ loop _ _ => !loop.in_.isEmpty
  | switch _ cases => (validateSwitch cases "").isEmpty
  | _ => true

/-- The graph of a scope has no issues. -/
def Explored (tasks : TaskScope) : Prop :=
  (∃ entry ∈ scopeEntries tasks, isTry entry.2 = true) ∨
    ∀ index < (scopeNames tasks).length, index ∈ reachableTasks tasks

/-- A scope is without issues, those of the scopes within it apart. -/
structure LocallyClean (tasks : TaskScope) : Prop where
  names : ∀ name ∈ scopeNames tasks, isIdentifier name = true
  nodup : (scopeNames tasks).Nodup
  targets : ∀ entry ∈ scopeEntries tasks, ∀ target ∈ entry.2.common.then_, TargetIn tasks target
  own : ∀ entry ∈ scopeEntries tasks, entry.2.ownClean = true
  explored : Explored tasks

section Local

variable {tasks : TaskScope} {pointer : String}

/-- There is nothing to say of the names of a scope when each is an identifier, none comes twice,
and none has been seen before. The induction is on the names. -/
theorem nameIssues_eq_nil_iff {index : Nat} {seen names : List String} :
    nameIssues pointer index seen names = [] ↔
      (∀ name ∈ names, isIdentifier name = true) ∧ names.Nodup ∧ ∀ name ∈ names, name ∉ seen := by
  induction names generalizing index seen with
  | nil => simp [nameIssues]
  | cons name rest ih =>
      rw [nameIssues, List.append_eq_nil_iff, List.append_eq_nil_iff, ih]
      have hName : (if isIdentifier name = true then ([] : List ValidationIssue) else
          [(ValidationIssue.new "task.name.invalid" ("task name `" ++ name ++
            "` must be a valid OWS identifier")).at_
              (pointer ++ "/" ++ toString index ++ "/" ++ name)]) = [] ↔
            isIdentifier name = true := by
        split <;> simp_all
      have hSeen : (if name ∈ seen then
          [(ValidationIssue.new "task.name.duplicate" ("task name `" ++ name ++
            "` is duplicated in this scope")).at_
              (pointer ++ "/" ++ toString index ++ "/" ++ name)]
          else ([] : List ValidationIssue)) = [] ↔ name ∉ seen := by
        split <;> simp_all
      rw [hName, hSeen]
      simp only [List.mem_cons, forall_eq_or_imp, List.nodup_cons, not_or]
      constructor
      · rintro ⟨⟨hValid, hNew⟩, hRest, hNodup, hOther⟩
        exact ⟨⟨hValid, hRest⟩, ⟨fun hMem => (hOther name hMem).1 rfl, hNodup⟩, hNew,
          fun other hMem => (hOther other hMem).2⟩
      · rintro ⟨⟨hValid, hRest⟩, ⟨hFirst, hNodup⟩, hNew, hOther⟩
        refine ⟨⟨hValid, hNew⟩, hRest, hNodup, ?_⟩
        intro other hMem
        exact ⟨fun hEq => hFirst (hEq ▸ hMem), hOther other hMem⟩

theorem thenIssues_eq_nil_iff {task : TaskDefinition} :
    thenIssues (scopeNames tasks) task pointer = [] ↔
      ∀ target ∈ task.common.then_, TargetIn tasks target := by
  constructor
  · intro hIssues target hTarget
    exact targetIn_of_thenIssues hIssues hTarget
  · intro hTargets
    rw [thenIssues, commonThen]
    cases hThen : task.common.then_ with
    | none => rfl
    | some target =>
        dsimp only
        rcases hTargets target hThen with h | h | h | hMem
        · simp [h]
        · simp [h]
        · simp [h]
        · simp [hMem]

/-- Whether anything is wrong with the cases of a switch does not depend on the place where they
stand. -/
theorem switchCaseIssues_nil_of_nil {other : String} {defaultSeen : Bool}
    {cases_ : List (String × SwitchCaseDefinition)}
    (hNone : switchCaseIssues pointer defaultSeen cases_ = []) :
    switchCaseIssues other defaultSeen cases_ = [] := by
  induction cases_ generalizing defaultSeen with
  | nil => rfl
  | cons named rest ih =>
      rw [switchCaseIssues, List.append_eq_nil_iff, List.append_eq_nil_iff] at hNone
      obtain ⟨⟨hDefault, hThen⟩, hRest⟩ := hNone
      rw [switchCaseIssues, ih hRest, List.append_nil, List.append_eq_nil_iff]
      constructor
      · split at hDefault
        · cases hDefault
        · rename_i h
          rw [if_neg h]
      · split at hThen
        · cases hThen
        · rename_i h
          rw [if_neg h]

theorem validateSwitch_nil_of_nil {other : String}
    {cases_ : List (List (String × SwitchCaseDefinition))}
    (hNone : validateSwitch cases_ pointer = []) : validateSwitch cases_ other = [] := by
  unfold validateSwitch at hNone ⊢
  split at hNone
  · cases hNone
  · rename_i h
    rw [if_neg h]
    exact switchCaseIssues_nil_of_nil hNone

theorem hasRecoveryScope_iff :
    (tasks.any fun entry => match entry.head? with
      | some (_, task) => isTry task
      | none => false) = true ↔ ∃ entry ∈ scopeEntries tasks, isTry entry.2 = true := by
  rw [List.any_eq_true]
  constructor
  · rintro ⟨named, hMem, hTry⟩
    cases named with
    | nil => cases hTry
    | cons entry others => exact ⟨entry, List.mem_filterMap.mpr ⟨_, hMem, rfl⟩, hTry⟩
  · rintro ⟨entry, hMem, hTry⟩
    obtain ⟨named, hNamed, hHead⟩ := List.mem_filterMap.mp hMem
    refine ⟨named, hNamed, ?_⟩
    rw [hHead]
    exact hTry

/-- The validator has no task to report as unreachable exactly when it has explored all of the
scope. -/
theorem validateReachability_eq_nil_iff :
    validateReachability tasks pointer = [] ↔ Explored tasks := by
  unfold validateReachability
  dsimp only
  cases hEmpty : (scopeNames tasks).isEmpty with
  | true =>
      rw [List.isEmpty_iff] at hEmpty
      simp [Explored, hEmpty]
  | false =>
      rw [if_neg Bool.false_ne_true, List.filterMap_eq_nil_iff, Explored, ← hasRecoveryScope_iff]
      cases hTry : tasks.any fun entry => match entry.head? with
        | some (_, task) => isTry task
        | none => false with
      | true => simp
      | false =>
          simp only [Bool.false_eq_true, false_or, Bool.not_false, and_true]
          constructor
          · intro hNone index hIndex
            have hMem : ((scopeNames tasks)[index], index) ∈ (scopeNames tasks).zipIdx :=
              List.mem_zipIdx_iff_getElem?.mpr (List.getElem?_eq_getElem hIndex)
            have hSome := hNone _ hMem
            dsimp only at hSome
            split at hSome
            · cases hSome
            · rename_i hFound
              exact not_not.mp hFound
          · rintro hAll ⟨name, index⟩ hMem
            have hIndex := (List.getElem?_eq_some_iff.mp (List.mem_zipIdx_iff_getElem?.mp hMem)).1
            dsimp only
            rw [if_neg (not_not.mpr (hAll index hIndex))]

end Local

section Scopes

variable {tasks inner : TaskScope} {task : TaskDefinition} {pointer : String}

theorem ownClean_of_validateNested (hValid : validateNested pointer task = []) :
    task.ownClean = true := by
  cases task with
  | for_ common loop while_ body =>
      rw [validateNested, List.append_eq_nil_iff] at hValid
      have hIn := hValid.1
      split at hIn
      · cases hIn
      · rename_i h
        simpa [TaskDefinition.ownClean] using h
  | switch common cases_ =>
      rw [validateNested] at hValid
      rw [TaskDefinition.ownClean, List.isEmpty_iff]
      exact validateSwitch_nil_of_nil hValid
  | _ => rfl

theorem locallyClean_of_validateTaskScope (hValid : validateTaskScope tasks pointer = []) :
    LocallyClean tasks := by
  have hEntries := validateTaskScope_entries hValid
  rw [validateTaskScope, scopeIssues, List.append_eq_nil_iff, List.append_eq_nil_iff,
    nameIssues_eq_nil_iff, validateReachability_eq_nil_iff] at hValid
  obtain ⟨⟨⟨hNames, hNodup, _⟩, _⟩, hExplored⟩ := hValid
  refine ⟨hNames, hNodup, ?_, ?_, hExplored⟩
  · intro entry hEntry
    exact thenIssues_eq_nil_iff.mp (validateEntry_of_scope hEntries hEntry).1
  · intro entry hEntry
    exact ownClean_of_validateNested (validateEntry_of_scope hEntries hEntry).2

/-- What the validator has to find of a scope: it and all the scopes within it
are clean. -/
def ScopesClean (tasks : TaskScope) : Prop :=
  ∀ inner, Nested TaskDefinition.checkedScopes [tasks] inner → LocallyClean inner

/-- The scopes within a scope within another one are within it, too. -/
theorem Nested.within {middle : TaskScope}
    (outer : Nested TaskDefinition.checkedScopes [tasks] middle)
    (nested : Nested TaskDefinition.checkedScopes [middle] inner) :
    Nested TaskDefinition.checkedScopes [tasks] inner := by
  induction nested with
  | root h =>
      obtain rfl := List.mem_singleton.mp h
      exact outer
  | child _ hEntry hInner ih => exact ih.child hEntry hInner

theorem ScopesClean.child (clean : ScopesClean tasks) {entry : String × TaskDefinition}
    (hEntry : entry ∈ scopeEntries tasks) (hInner : inner ∈ entry.2.checkedScopes) :
    ScopesClean inner := by
  intro other nested
  have hOuter : Nested TaskDefinition.checkedScopes [tasks] inner :=
    (Nested.root (List.mem_singleton.mpr rfl)).child hEntry hInner
  exact clean other (hOuter.within nested)

theorem ScopesClean.here (clean : ScopesClean tasks) : LocallyClean tasks :=
  clean tasks (.root (List.mem_singleton.mpr rfl))

/-- Some entries of a scope are clean, with the scopes within them. -/
structure EntriesClean (scope : TaskScope) (entries : List (List (String × TaskDefinition))) :
    Prop where
  targets : ∀ entry ∈ scopeEntries entries, ∀ target ∈ entry.2.common.then_, TargetIn scope target
  own : ∀ entry ∈ scopeEntries entries, entry.2.ownClean = true
  scopes : ∀ entry ∈ scopeEntries entries, ∀ inner ∈ entry.2.checkedScopes, ScopesClean inner

theorem ScopesClean.entries (clean : ScopesClean tasks) : EntriesClean tasks tasks :=
  ⟨clean.here.targets, clean.here.own, fun _ hEntry _ hInner => clean.child hEntry hInner⟩

theorem scopeIssues_eq_nil (clean : LocallyClean tasks)
    (hEntries : validateEntries (scopeNames tasks) pointer tasks = []) :
    scopeIssues tasks pointer (validateEntries (scopeNames tasks) pointer tasks) = [] := by
  rw [scopeIssues, hEntries, List.append_nil, List.append_eq_nil_iff]
  constructor
  · exact nameIssues_eq_nil_iff.mpr ⟨clean.names, clean.nodup, fun _ _ => List.not_mem_nil⟩
  · exact validateReachability_eq_nil_iff.mpr clean.explored

mutual

/-- By recursion on the definition: where all scopes are clean, there are no issues. -/
theorem validateNested_eq_nil : ∀ (task : TaskDefinition) (pointer : String),
    task.ownClean = true → (∀ inner ∈ task.checkedScopes, ScopesClean inner) →
      validateNested pointer task = []
  | .do_ _ tasks, pointer, _, hClean => by
      have clean : ScopesClean tasks := hClean tasks List.mem_cons_self
      rw [validateNested]
      exact scopeIssues_eq_nil clean.here (validateEntries_eq_nil tasks tasks _ clean.entries)
  | .for_ _ loop _ tasks, pointer, hOwn, hClean => by
      have clean : ScopesClean tasks := hClean tasks List.mem_cons_self
      rw [validateNested]
      have hIn : loop.in_.isEmpty = false := by simpa [TaskDefinition.ownClean] using hOwn
      rw [hIn, if_neg Bool.false_ne_true, List.nil_append]
      exact scopeIssues_eq_nil clean.here (validateEntries_eq_nil tasks tasks _ clean.entries)
  | .fork _ branches _, pointer, _, hClean => by
      have clean : ScopesClean branches := hClean branches List.mem_cons_self
      rw [validateNested]
      exact scopeIssues_eq_nil clean.here (validateEntries_eq_nil branches branches _ clean.entries)
  | .try_ _ tasks _ handler, pointer, _, hClean => by
      have clean : ScopesClean tasks := hClean tasks List.mem_cons_self
      rw [validateNested, List.append_eq_nil_iff]
      constructor
      · exact scopeIssues_eq_nil clean.here (validateEntries_eq_nil tasks tasks _ clean.entries)
      · exact validateHandler_eq_nil handler _ fun inner hInner =>
          hClean inner (List.mem_cons_of_mem _ (Option.mem_toList.mpr hInner))
  | .switch _ cases_, pointer, hOwn, _ => by
      rw [validateNested]
      rw [TaskDefinition.ownClean, List.isEmpty_iff] at hOwn
      exact validateSwitch_nil_of_nil hOwn
  | .call .., _, _, _ => by rw [validateNested]
  | .emit .., _, _, _ => by rw [validateNested]
  | .listen .., _, _, _ => by rw [validateNested]
  | .raise .., _, _, _ => by rw [validateNested]
  | .run .., _, _, _ => by rw [validateNested]
  | .set .., _, _, _ => by rw [validateNested]
  | .wait .., _, _, _ => by rw [validateNested]

theorem validateHandler_eq_nil : ∀ (handler : Option TaskScope) (pointer : String),
    (∀ inner ∈ handler, ScopesClean inner) → validateHandler pointer handler = []
  | none, _, _ => by rw [validateHandler]
  | some tasks, pointer, hClean => by
      have clean : ScopesClean tasks := hClean tasks rfl
      rw [validateHandler]
      exact scopeIssues_eq_nil clean.here (validateEntries_eq_nil tasks tasks _ clean.entries)

/-- There is nothing to report of clean entries, wherever they stand. The recursion is on the
entries and on the scopes within their tasks. -/
theorem validateEntries_eq_nil : ∀ (entries : List (List (String × TaskDefinition)))
    (scope : TaskScope) (pointer : String),
    EntriesClean scope entries → validateEntries (scopeNames scope) pointer entries = []
  | [], _, _, _ => by rw [validateEntries]
  | [] :: rest, scope, pointer, clean => by
      rw [validateEntries, validateEntry, List.nil_append]
      exact validateEntries_eq_nil rest scope pointer ⟨clean.targets, clean.own, clean.scopes⟩
  | ((name, task) :: others) :: rest, scope, pointer, clean => by
      have hHead : (name, task) ∈ scopeEntries (((name, task) :: others) :: rest) := by
        simp [scopeEntries]
      have hTail : ∀ entry ∈ scopeEntries rest,
          entry ∈ scopeEntries (((name, task) :: others) :: rest) := by
        intro entry hEntry
        rw [scopeEntries, List.filterMap_cons]
        exact List.mem_cons_of_mem _ hEntry
      rw [validateEntries, validateEntry, thenIssues_eq_nil_iff.mpr (clean.targets _ hHead),
        validateNested_eq_nil task _ (clean.own _ hHead) (clean.scopes _ hHead), List.append_nil,
        List.nil_append]
      apply validateEntries_eq_nil rest scope pointer
      exact ⟨fun entry h => clean.targets entry (hTail entry h),
        fun entry h => clean.own entry (hTail entry h),
        fun entry h => clean.scopes entry (hTail entry h)⟩

end

/-- The validator finds no issue in a scope if and only if all scopes are clean. -/
theorem validateTaskScope_eq_nil_iff : validateTaskScope tasks pointer = [] ↔ ScopesClean tasks := by
  constructor
  · intro hValid inner nested
    have hPlace : ∃ place, validateTaskScope inner place = [] := by
      induction nested with
      | root h =>
          obtain rfl := List.mem_singleton.mp h
          exact ⟨pointer, hValid⟩
      | child _ hEntry hInner ih =>
          obtain ⟨place, hScope⟩ := ih
          have hEntries := validateEntry_of_scope (validateTaskScope_entries hScope) hEntry
          exact validateTaskScope_of_nested hEntries.2 hInner
    obtain ⟨place, hScope⟩ := hPlace
    exact locallyClean_of_validateTaskScope hScope
  · intro clean
    exact scopeIssues_eq_nil clean.here (validateEntries_eq_nil tasks tasks _ clean.entries)

end Scopes

/-- The validator accepts a definition if and only if its document is in order and
all its scopes are clean. -/
theorem validate_eq_nil_iff {definition : WorkflowDefinition} :
    validate definition = [] ↔
      documentIssues definition.document = [] ∧ definition.do_ ≠ [] ∧
        ScopesClean definition.do_ := by
  rw [validate, List.append_eq_nil_iff, List.append_eq_nil_iff, validateTaskScope_eq_nil_iff,
    and_assoc]
  have hTasks : (if definition.do_.isEmpty then
      [(ValidationIssue.new "do.empty" "workflow must define at least one task").at_ "/do"]
      else ([] : List ValidationIssue)) = [] ↔ definition.do_ ≠ [] := by
    cases definition.do_ <;> simp
  rw [hTasks]

end OwsRuntime
