import OwsRuntime.Properties.Acceptance

/-! The order of the branches of a fork. The engine runs them in parallel, but the
validator explores them as if each one fell through to the next. -/
namespace OwsRuntime

/-- The graph of a scope lets the task be followed by the one after it. -/
def fallsThrough (task : TaskDefinition) : Prop :=
  commonThen task = some "continue" ∨ (commonIf task).isSome ∨
    some "continue" ∈ switchDirectives task ∨
      (isSwitch task ∧ none ∉ switchDirectives task ∧ commonThen task = none) ∨
        (commonThen task = none ∧ ∀ then_ ∈ switchDirectives task, then_ = none)

/-- A directive of the task names another task. -/
def NamesTarget (task : TaskDefinition) (name : String) : Prop :=
  (commonThen task = some name ∨ some name ∈ switchDirectives task) ∧
    name ≠ "continue" ∧ name ≠ "exit" ∧ name ≠ "end"

/-- A branch has a directive that names the other. -/
def BranchNames (branches : TaskScope) (name other : String) : Prop :=
  ∃ task, (name, task) ∈ scopeEntries branches ∧ NamesTarget task other

/-- No order hides a branch of the fork: there is one branch at most, or a try task
among them; or else no entry is empty, and each branch which does not fall through
leads to all of them by the names in its directives. -/
def OrderFree (branches : TaskScope) : Prop :=
  (scopeNames branches).length ≤ 1 ∨ (∃ entry ∈ scopeEntries branches, isTry entry.2 = true) ∨
    ([] ∉ branches ∧ ∀ entry ∈ scopeEntries branches, fallsThrough entry.2 ∨
      ∀ name ∈ scopeNames branches, Relation.ReflTransGen (BranchNames branches) entry.1 name)

mutual

/-- One fork, at some depth within a task, has its branches in another order. -/
inductive TaskReorders : TaskDefinition → TaskDefinition → Prop where
  | branches {common : TaskDefinitionFields} {branches branches' : TaskScope} {compete : Bool}
      (perm : branches.Perm branches') :
      TaskReorders (.fork common branches compete) (.fork common branches' compete)
  | fork {common : TaskDefinitionFields} {branches branches' : TaskScope} {compete : Bool}
      (inner : ScopeReorders branches branches') :
      TaskReorders (.fork common branches compete) (.fork common branches' compete)
  | do_ {common : TaskDefinitionFields} {tasks tasks' : TaskScope}
      (inner : ScopeReorders tasks tasks') : TaskReorders (.do_ common tasks) (.do_ common tasks')
  | for_ {common : TaskDefinitionFields} {loop : ForLoopDefinition} {while_ : Option String}
      {tasks tasks' : TaskScope} (inner : ScopeReorders tasks tasks') :
      TaskReorders (.for_ common loop while_ tasks) (.for_ common loop while_ tasks')
  | listen {common : TaskDefinitionFields} {listen : ListenDefinition}
      {foreach_ : Option ForeachDefinition} {tasks tasks' : TaskScope}
      (inner : ScopeReorders tasks tasks') :
      TaskReorders (.listen common listen foreach_ (some tasks))
        (.listen common listen foreach_ (some tasks'))
  | try_ {common : TaskDefinitionFields} {tasks tasks' : TaskScope} {catch_ : CatchDefinition}
      {handler : Option TaskScope} (inner : ScopeReorders tasks tasks') :
      TaskReorders (.try_ common tasks catch_ handler) (.try_ common tasks' catch_ handler)
  | handler {common : TaskDefinitionFields} {body : TaskScope} {catch_ : CatchDefinition}
      {tasks tasks' : TaskScope} (inner : ScopeReorders tasks tasks') :
      TaskReorders (.try_ common body catch_ (some tasks)) (.try_ common body catch_ (some tasks'))

inductive ScopeReorders : TaskScope → TaskScope → Prop where
  | entry {before after : TaskScope} {first others : List (String × TaskDefinition)}
      {name : String} {task task' : TaskDefinition} (inner : TaskReorders task task') :
      ScopeReorders (before ++ (first ++ (name, task) :: others) :: after)
        (before ++ (first ++ (name, task') :: others) :: after)

end

/-- One fork within the reusable components has its branches in another order. -/
inductive ComponentDefinitionCollection.Reorders : ComponentDefinitionCollection →
    ComponentDefinitionCollection → Prop where
  | function {use_ : ComponentDefinitionCollection} {before after : List (String × TaskDefinition)}
      {name : String} {task task' : TaskDefinition}
      (hFunctions : use_.functions = some (before ++ (name, task) :: after))
      (inner : TaskReorders task task') :
      Reorders use_ { use_ with functions := some (before ++ (name, task') :: after) }
  | before {use_ : ComponentDefinitionCollection} {earlier later : List (List (String × ExtensionDefinition))}
      {first others : List (String × ExtensionDefinition)} {name : String} {ext : ExtensionDefinition}
      {tasks tasks' : TaskScope}
      (hExtensions : use_.extensions = some (earlier ++ (first ++ (name, ext) :: others) :: later))
      (hBefore : ext.before = some tasks) (inner : ScopeReorders tasks tasks') :
      Reorders use_ { use_ with
        extensions := some (earlier ++
          (first ++ (name, { ext with before := some tasks' }) :: others) :: later) }
  | after {use_ : ComponentDefinitionCollection} {earlier later : List (List (String × ExtensionDefinition))}
      {first others : List (String × ExtensionDefinition)} {name : String} {ext : ExtensionDefinition}
      {tasks tasks' : TaskScope}
      (hExtensions : use_.extensions = some (earlier ++ (first ++ (name, ext) :: others) :: later))
      (hAfter : ext.after = some tasks) (inner : ScopeReorders tasks tasks') :
      Reorders use_ { use_ with
        extensions := some (earlier ++
          (first ++ (name, { ext with after := some tasks' }) :: others) :: later) }

/-- One fork of a definition has its branches in another order. -/
inductive WorkflowDefinition.Reorders : WorkflowDefinition → WorkflowDefinition → Prop where
  | do_ {definition : WorkflowDefinition} {tasks : TaskScope}
      (inner : ScopeReorders definition.do_ tasks) :
      Reorders definition { definition with do_ := tasks }
  | use_ {definition : WorkflowDefinition} {use_ use' : ComponentDefinitionCollection}
      (hUse : definition.use_ = some use_) (inner : use_.Reorders use') :
      Reorders definition { definition with use_ := some use' }

/-- The forks of a definition have their branches in another order, any of them. -/
def WorkflowDefinition.Reordered : WorkflowDefinition → WorkflowDefinition → Prop :=
  Relation.ReflTransGen WorkflowDefinition.Reorders

/-- The verdict of the validator is the same for every order of the branches. -/
def OrderIndependent (definition : WorkflowDefinition) : Prop :=
  ∀ other, definition.Reordered other → (validate other = [] ↔ validate definition = [])

/-- No fork which the validator visits has an order that hides a branch. -/
def ForksOrderFree (definition : WorkflowDefinition) : Prop :=
  ∀ tasks, Nested TaskDefinition.checkedScopes [definition.do_] tasks →
    ∀ name common branches compete, (name, .fork common branches compete) ∈ scopeEntries tasks →
      OrderFree branches

section Symmetry

/-- An order of branches that has been changed can be changed back, at any depth. The induction is
on where the change is. -/
theorem ScopeReorders.symm {tasks tasks' : TaskScope} (reorders : ScopeReorders tasks tasks') :
    ScopeReorders tasks' tasks := by
  apply @ScopeReorders.rec (fun task task' _ => TaskReorders task' task)
    (fun tasks tasks' _ => ScopeReorders tasks' tasks) _ _ _ _ _ _ _ _ _ _ reorders
  · intro _ _ _ _ perm
    exact .branches perm.symm
  · intro _ _ _ _ _ ih
    exact .fork ih
  · intro _ _ _ _ ih
    exact .do_ ih
  · intro _ _ _ _ _ _ ih
    exact .for_ ih
  · intro _ _ _ _ _ _ ih
    exact .listen ih
  · intro _ _ _ _ _ _ ih
    exact .try_ ih
  · intro _ _ _ _ _ _ ih
    exact .handler ih
  · intro _ _ _ _ _ _ _ _ ih
    exact .entry ih

end Symmetry

section Edges

variable {names : List String} {index next : Nat} {task : TaskDefinition}

/-- The edge that a directive adds: to the next task, to none, or to the one of that name. -/
theorem mem_addEdge_iff {then_ : String} :
    next ∈ addEdge names index then_ ↔
      (then_ = "continue" ∧ next = index + 1) ∨
        (then_ ≠ "continue" ∧ then_ ≠ "exit" ∧ then_ ≠ "end") ∧ names.idxOf? then_ = some next := by
  unfold addEdge
  by_cases hContinue : then_ = "continue"
  · simp [hContinue]
  · rw [if_neg hContinue]
    by_cases hOver : then_ = "exit" ∨ then_ = "end"
    · rw [if_pos hOver]
      rcases hOver with rfl | rfl <;> simp
    · rw [if_neg hOver]
      rw [not_or] at hOver
      simp [hContinue, hOver]

theorem any_isNone_iff {α : Type} {list : List (Option α)} :
    list.any Option.isNone = true ↔ none ∈ list := by
  simp [List.any_eq_true]

theorem any_isSome_eq_false_iff {α : Type} {list : List (Option α)} :
    list.any Option.isSome = false ↔ ∀ a ∈ list, a = none := by
  simp [List.any_eq_false]

/-- The edges from a task: to the next one, and to those which it names. -/
theorem mem_reachabilityEdges_iff :
    next ∈ reachabilityEdges names index task ↔
      (fallsThrough task ∧ next = index + 1) ∨
        ∃ name, NamesTarget task name ∧ names.idxOf? name = some next := by
  constructor
  · intro hNext
    unfold reachabilityEdges at hNext
    simp only [List.mem_append] at hNext
    rcases hNext with (((hThen | hGuard) | hCase) | hNoMatch) | hImplicit
    · cases hCommon : commonThen task with
      | none => simp [hCommon] at hThen
      | some then_ =>
          rw [hCommon] at hThen
          rcases mem_addEdge_iff.mp hThen with ⟨rfl, hEq⟩ | ⟨hNamed, hIndex⟩
          · exact Or.inl ⟨Or.inl hCommon, hEq⟩
          · exact Or.inr ⟨then_, ⟨Or.inl hCommon, hNamed⟩, hIndex⟩
    · split at hGuard
      · rename_i hIf
        exact Or.inl ⟨Or.inr (Or.inl hIf), List.mem_singleton.mp hGuard⟩
      · cases hGuard
    · obtain ⟨then_, hMem, hEdge⟩ := List.mem_flatMap.mp hCase
      have hListed : some then_ ∈ switchDirectives task := by simpa using hMem
      rcases mem_addEdge_iff.mp hEdge with ⟨rfl, hEq⟩ | ⟨hNamed, hIndex⟩
      · exact Or.inl ⟨Or.inr (Or.inr (Or.inl hListed)), hEq⟩
      · exact Or.inr ⟨then_, ⟨Or.inr hListed, hNamed⟩, hIndex⟩
    · split at hNoMatch
      · rename_i hSwitch
        obtain ⟨hIs, hFull, hCommon⟩ := hSwitch
        have hNone : none ∉ switchDirectives task := by
          rw [← any_isNone_iff]
          intro hAny
          simp [hAny] at hFull
        rw [Option.isNone_iff_eq_none] at hCommon
        exact Or.inl ⟨Or.inr (Or.inr (Or.inr (Or.inl ⟨hIs, hNone, hCommon⟩))),
          List.mem_singleton.mp hNoMatch⟩
      · cases hNoMatch
    · split at hImplicit
      · cases hImplicit
      · rename_i hExplicit
        rw [Bool.not_eq_true, Bool.or_eq_false_iff, any_isSome_eq_false_iff,
          Option.isSome_eq_false_iff, Option.isNone_iff_eq_none] at hExplicit
        exact Or.inl ⟨Or.inr (Or.inr (Or.inr (Or.inr hExplicit))), List.mem_singleton.mp hImplicit⟩
  · rintro (⟨hFalls, rfl⟩ | ⟨name, ⟨hThen | hCase, hNamed⟩, hIndex⟩)
    · unfold reachabilityEdges
      simp only [List.mem_append]
      rcases hFalls with hThen | hIf | hCase | ⟨hIs, hFull, hCommon⟩ | ⟨hCommon, hCases⟩
      · rw [hThen]
        exact Or.inl (Or.inl (Or.inl (Or.inl (mem_addEdge_iff.mpr (Or.inl ⟨rfl, rfl⟩)))))
      · simp [hIf]
      · refine Or.inl (Or.inl (Or.inr (List.mem_flatMap.mpr ⟨"continue", ?_, ?_⟩)))
        · simpa using hCase
        · exact mem_addEdge_iff.mpr (Or.inl ⟨rfl, rfl⟩)
      · rw [← any_isNone_iff, Bool.not_eq_true] at hFull
        simp [hIs, hFull, hCommon]
      · rw [← any_isSome_eq_false_iff] at hCases
        simp [hCommon, hCases]
    · exact mem_edges_of_then hThen (mem_addEdge_iff.mpr (Or.inr ⟨hNamed, hIndex⟩))
    · exact mem_edges_of_case hCase (mem_addEdge_iff.mpr (Or.inr ⟨hNamed, hIndex⟩))

end Edges

section Positions

variable {tasks : TaskScope} {index next : Nat}

/-- Where no entry of a scope is empty, the entries are the heads of the list, place by place. -/
theorem getElem?_scopeEntries_of_full (hFull : [] ∉ tasks) (index : Nat) :
    (scopeEntries tasks)[index]? = tasks[index]?.bind List.head? := by
  induction tasks generalizing index with
  | nil => rfl
  | cons entry rest ih =>
      rw [List.mem_cons, not_or] at hFull
      cases entry with
      | nil => exact absurd rfl hFull.1
      | cons named others =>
          rw [scopeEntries, List.filterMap_cons]
          cases index with
          | zero => rfl
          | succ index => exact ih hFull.2 index

/-- So the edges from a place are those of the task that stands there. -/
theorem scopeEdges_of_full (hFull : [] ∉ tasks) {entry : String × TaskDefinition}
    (hEntry : (scopeEntries tasks)[index]? = some entry) :
    scopeEdges tasks index = reachabilityEdges (scopeNames tasks) index entry.2 := by
  rw [getElem?_scopeEntries_of_full hFull] at hEntry
  rw [scopeEdges, hEntry]

/-- The task at a position, by its name. -/
theorem getElem?_scopeNames {entry : String × TaskDefinition}
    (hEntry : (scopeEntries tasks)[index]? = some entry) :
    (scopeNames tasks)[index]? = some entry.1 := by
  rw [scopeNames, List.getElem?_map, hEntry]
  rfl

/-- There is a task behind every name of a scope. -/
theorem exists_scopeEntry {name : String} (hName : (scopeNames tasks)[index]? = some name) :
    ∃ task, (scopeEntries tasks)[index]? = some (name, task) := by
  rw [scopeNames, List.getElem?_map, Option.map_eq_some_iff] at hName
  obtain ⟨⟨_, task⟩, hEntry, rfl⟩ := hName
  exact ⟨task, hEntry⟩

/-- A place at which something stands is within the list. -/
theorem lt_of_getElem? {α : Type} {list : List α} {a : α} (hAt : list[index]? = some a) :
    index < list.length := (List.getElem?_eq_some_iff.mp hAt).1

/-- One task of a scope is explored from the other. -/
def Explores (tasks : TaskScope) (index next : Nat) : Prop :=
  next ∈ scopeEdges tasks index ∧ next < (scopeNames tasks).length

/-- A branch which names another leads the validator to it, as names are unique. -/
theorem explores_of_named (hFull : [] ∉ tasks) (hNodup : (scopeNames tasks).Nodup)
    {name other : String} (hNames : BranchNames tasks name other)
    (hName : (scopeNames tasks)[index]? = some name)
    (hOther : (scopeNames tasks)[next]? = some other) : Explores tasks index next := by
  obtain ⟨task, hMem, hTarget⟩ := hNames
  obtain ⟨place, hAt⟩ := List.mem_iff_getElem?.mp hMem
  have hPlace : (scopeNames tasks)[place]? = some name := getElem?_scopeNames hAt
  obtain rfl : index = place :=
    (List.getElem?_inj (lt_of_getElem? hName) hNodup).mp (hName.trans hPlace.symm)
  have hIndex : (scopeNames tasks).idxOf? other = some next := by
    obtain ⟨hLt, hGet⟩ := List.getElem?_eq_some_iff.mp hOther
    rw [List.idxOf?_eq_some_iff]
    refine ⟨hLt, hGet, ?_⟩
    intro earlier hEarlier hSame
    have hBound : earlier < (scopeNames tasks).length := by omega
    have hSame? : (scopeNames tasks)[earlier]? = some other :=
      List.getElem?_eq_some_iff.mpr ⟨hBound, hSame⟩
    have hEq := (List.getElem?_inj hBound hNodup).mp (hSame?.trans hOther.symm)
    omega
  refine ⟨?_, lt_of_getElem? hOther⟩
  rw [scopeEdges_of_full hFull hAt]
  exact mem_reachabilityEdges_iff.mpr (Or.inr ⟨other, hTarget, hIndex⟩)

/-- Names lead where the exploration goes. -/
theorem explores_of_names (hFull : [] ∉ tasks) (hNodup : (scopeNames tasks).Nodup)
    {name other : String} (path : Relation.ReflTransGen (BranchNames tasks) name other)
    (hName : (scopeNames tasks)[index]? = some name)
    (hOther : (scopeNames tasks)[next]? = some other) :
    Relation.ReflTransGen (Explores tasks) index next := by
  induction path generalizing next with
  | refl =>
      obtain rfl : index = next :=
        (List.getElem?_inj (lt_of_getElem? hName) hNodup).mp (hName.trans hOther.symm)
      exact Relation.ReflTransGen.refl
  | @tail middle last _ hNames ih =>
      have hEntry := hNames
      obtain ⟨task, hMem, _⟩ := hEntry
      obtain ⟨place, hAt⟩ := List.mem_iff_getElem?.mp hMem
      have hPlace : (scopeNames tasks)[place]? = some middle := getElem?_scopeNames hAt
      exact (ih hPlace).tail (explores_of_named hFull hNodup hNames hPlace hOther)

/-- A branch which falls through leads it to the next. -/
theorem explores_next (hFull : [] ∉ tasks) {entry : String × TaskDefinition}
    (hEntry : (scopeEntries tasks)[index]? = some entry) (hFalls : fallsThrough entry.2)
    (hNext : index + 1 < (scopeNames tasks).length) : Explores tasks index (index + 1) := by
  refine ⟨?_, hNext⟩
  rw [scopeEdges_of_full hFull hEntry]
  exact mem_reachabilityEdges_iff.mpr (Or.inl ⟨hFalls, rfl⟩)

/-- The exploration goes through the branches up to the first which does not fall
through, and from there to all of them. -/
theorem explores_all (hFull : [] ∉ tasks) (hNodup : (scopeNames tasks).Nodup)
    (hLeads : ∀ entry ∈ scopeEntries tasks, fallsThrough entry.2 ∨
      ∀ name ∈ scopeNames tasks, Relation.ReflTransGen (BranchNames tasks) entry.1 name)
    (hIndex : index < (scopeNames tasks).length) :
    Relation.ReflTransGen (Explores tasks) 0 index := by
  induction index with
  | zero => exact Relation.ReflTransGen.refl
  | succ index ih =>
      have path := ih (by omega)
      obtain ⟨task, hEntry⟩ := exists_scopeEntry
        (List.getElem?_eq_getElem (show index < (scopeNames tasks).length by omega))
      rcases hLeads _ (List.mem_of_getElem? hEntry) with hFalls | hAll
      · exact path.tail (explores_next hFull hEntry hFalls hIndex)
      · have hName := List.getElem?_eq_getElem hIndex
        have hLeadsTo := hAll _ (List.mem_of_getElem? hName)
        exact path.trans (explores_of_names hFull hNodup hLeadsTo (getElem?_scopeNames hEntry) hName)

/-- Where the condition holds, every branch is explored in the order given: either one falls through
to the next, or the names lead on from it. -/
theorem OrderFree.explored (free : OrderFree tasks) (hNodup : (scopeNames tasks).Nodup) :
    Explored tasks := by
  rcases free with hFew | hTry | ⟨hFull, hLeads⟩
  · refine Or.inr fun index hIndex => ?_
    obtain rfl : index = 0 := by omega
    exact mem_reachableTasks_of_path hIndex Relation.ReflTransGen.refl
  · exact Or.inl hTry
  · refine Or.inr fun index hIndex => ?_
    exact mem_reachableTasks_of_path (by omega) (explores_all hFull hNodup hLeads hIndex)

end Positions

section Hidden

variable {tasks : TaskScope} {index next : Nat}

/-- The entries of two scopes joined are the entries of both. -/
theorem scopeEntries_append (first second : TaskScope) :
    scopeEntries (first ++ second) = scopeEntries first ++ scopeEntries second :=
  List.filterMap_append

/-- Branches in another order have the same entries in another order, -/
theorem scopeEntries_perm {tasks' : TaskScope} (perm : tasks.Perm tasks') :
    (scopeEntries tasks).Perm (scopeEntries tasks') := perm.filterMap _

/-- and the same names. -/
theorem scopeNames_perm {tasks' : TaskScope} (perm : tasks.Perm tasks') :
    (scopeNames tasks).Perm (scopeNames tasks') := (scopeEntries_perm perm).map _

/-- Every name is that of the first task of an entry. -/
theorem exists_head_of_mem_scopeNames {name : String} (hName : name ∈ scopeNames tasks) :
    ∃ entry ∈ tasks, ∃ head ∈ entry.head?, head.1 = name := by
  obtain ⟨head, hHead, rfl⟩ := List.mem_map.mp hName
  obtain ⟨entry, hEntry, hAt⟩ := List.mem_filterMap.mp hHead
  exact ⟨entry, hEntry, head, hAt, rfl⟩

/-- An empty entry at the front hides all others. -/
theorem not_explored_of_nil {rest : TaskScope} (hTwo : 1 < (scopeNames ([] :: rest)).length)
    (hTry : ∀ entry ∈ scopeEntries ([] :: rest), isTry entry.2 = false) :
    ¬ Explored ([] :: rest) := by
  rintro (⟨entry, hMem, hIs⟩ | hAll)
  · rw [hTry entry hMem] at hIs
    cases hIs
  · have path := path_of_mem_reachableTasks (hAll 1 hTwo)
    rcases path.cases_head with hEq | ⟨next, hEdge, _⟩
    · cases hEq
    · cases hEdge

/-- The exploration stays among the first task and those from a place on, when the
first one does not fall through and none of these names a task before the place. -/
theorem place_le_of_explores {place : Nat} (hFull : [] ∉ tasks)
    (hFirst : ∀ entry, (scopeEntries tasks)[0]? = some entry → ¬ fallsThrough entry.2)
    (hNamed : ∀ index entry name next, index = 0 ∨ place ≤ index →
      (scopeEntries tasks)[index]? = some entry → NamesTarget entry.2 name →
        (scopeNames tasks)[next]? = some name → next = 0 ∨ place ≤ next)
    (path : Relation.ReflTransGen (fun a b => b ∈ scopeEdges tasks a) 0 index) :
    index = 0 ∨ place ≤ index := by
  induction path with
  | refl => exact Or.inl rfl
  | @tail middle last _ hEdge ih =>
      rw [scopeEdges, ← getElem?_scopeEntries_of_full hFull] at hEdge
      cases hEntry : (scopeEntries tasks)[middle]? with
      | none =>
          rw [hEntry] at hEdge
          cases hEdge
      | some entry =>
          rw [hEntry] at hEdge
          rcases mem_reachabilityEdges_iff.mp hEdge with ⟨hFalls, rfl⟩ | ⟨name, hName, hIndex⟩
          · rcases ih with rfl | hPlace
            · exact absurd hFalls (hFirst entry hEntry)
            · exact Or.inr (by omega)
          · obtain ⟨hLt, hGet, _⟩ := List.idxOf?_eq_some_iff.mp hIndex
            exact hNamed middle entry name last ih hEntry hName
              (List.getElem?_eq_some_iff.mpr ⟨hLt, hGet⟩)

/-- Where those that do not lead on stand together behind the first, to lead on is a matter of the
place. -/
theorem leads_iff_place {α : Type} {leads : α → Prop} {first a : α} {apart joined : List α}
    (hFirst : leads first) (hApart : ∀ b ∈ apart, ¬ leads b) (hJoined : ∀ b ∈ joined, leads b)
    (hAt : (first :: (apart ++ joined))[index]? = some a) :
    leads a ↔ index = 0 ∨ apart.length + 1 ≤ index := by
  cases index with
  | zero =>
      cases hAt
      simp [hFirst]
  | succ index =>
      rw [List.getElem?_cons_succ] at hAt
      by_cases hSide : index < apart.length
      · rw [List.getElem?_append_left hSide] at hAt
        have hNot := hApart a (List.mem_of_getElem? hAt)
        constructor
        · intro hLeads
          exact absurd hLeads hNot
        · omega
      · rw [List.getElem?_append_right (by omega)] at hAt
        have hLeads := hJoined a (List.mem_of_getElem? hAt)
        constructor
        · intro _
          exact Or.inr (by omega)
        · intro _
          exact hLeads

/-- A branch that neither falls through nor leads to all others hides one of them
when it stands first and those to which it leads stand last. -/
theorem not_explored_of_front {name missed : String} {task : TaskDefinition}
    {others : List (String × TaskDefinition)} {apart joined : TaskScope} (leads : String → Prop)
    (hTasks : tasks = ((name, task) :: others) :: (apart ++ joined)) (hFull : [] ∉ tasks)
    (hTry : ∀ entry ∈ scopeEntries tasks, isTry entry.2 = false) (hFalls : ¬ fallsThrough task)
    (hName : leads name)
    (hClosed : ∀ entry ∈ scopeEntries tasks, ∀ target, leads entry.1 →
      NamesTarget entry.2 target → leads target)
    (hApart : ∀ other ∈ scopeNames apart, ¬ leads other)
    (hJoined : ∀ other ∈ scopeNames joined, leads other) (hMissed : missed ∈ scopeNames tasks)
    (hNot : ¬ leads missed) : ¬ Explored tasks := by
  have hNames : scopeNames tasks = name :: (scopeNames apart ++ scopeNames joined) := by
    rw [hTasks]
    simp [scopeNames, scopeEntries]
  have hPlace : ∀ {index other}, (scopeNames tasks)[index]? = some other →
      (leads other ↔ index = 0 ∨ (scopeNames apart).length + 1 ≤ index) := by
    intro index other hAt
    rw [hNames] at hAt
    exact leads_iff_place hName hApart hJoined hAt
  rintro (⟨entry, hMem, hIs⟩ | hAll)
  · rw [hTry entry hMem] at hIs
    cases hIs
  · obtain ⟨index, hAt⟩ := List.mem_iff_getElem?.mp hMissed
    have path := path_of_mem_reachableTasks (hAll index (lt_of_getElem? hAt))
    apply hNot
    rw [hPlace hAt]
    apply place_le_of_explores hFull _ _ path
    · intro entry hEntry
      rw [hTasks] at hEntry
      cases hEntry
      exact hFalls
    · intro index entry target next hWithin hEntry hTarget hNext
      have hLeads := (hPlace (getElem?_scopeNames hEntry)).mpr hWithin
      exact (hPlace hNext).mp (hClosed entry (List.mem_of_getElem? hEntry) target hLeads hTarget)

/-- A fork whose branches are not free has an order that hides one of them. -/
theorem exists_hiding_order {branches : TaskScope} (hFree : ¬ OrderFree branches)  :
    ∃ branches' : TaskScope, branches.Perm branches' ∧ ¬ Explored branches' := by
  unfold OrderFree at hFree
  rw [not_or, not_or] at hFree
  obtain ⟨hTwo, hTry, hFree⟩ := hFree
  have hTries : ∀ {branches' : TaskScope}, branches.Perm branches' →
      ∀ entry ∈ scopeEntries branches', isTry entry.2 = false := by
    intro branches' perm entry hEntry
    by_contra hIs
    exact hTry ⟨entry, (scopeEntries_perm perm).mem_iff.mpr hEntry, by simpa using hIs⟩
  by_cases hFull : [] ∈ branches
  · obtain ⟨before, after, rfl⟩ := List.append_of_mem hFull
    have perm : (before ++ [] :: after).Perm ([] :: (before ++ after)) := List.perm_middle
    refine ⟨_, perm, not_explored_of_nil ?_ (hTries perm)⟩
    rw [← (scopeNames_perm perm).length_eq]
    omega
  · have hSome : ∃ entry ∈ scopeEntries branches, ¬ fallsThrough entry.2 ∧
        ∃ missed ∈ scopeNames branches,
          ¬ Relation.ReflTransGen (BranchNames branches) entry.1 missed := by
      by_contra hNone
      apply hFree
      refine ⟨hFull, fun entry hEntry => ?_⟩
      by_contra hOther
      rw [not_or] at hOther
      refine hNone ⟨entry, hEntry, hOther.1, ?_⟩
      by_contra hAll
      exact hOther.2 fun missed hMissed => by_contra fun hNot => hAll ⟨missed, hMissed, hNot⟩
    obtain ⟨⟨name, task⟩, hEntry, hFalls, missed, hMissed, hNot⟩ := hSome
    obtain ⟨front, hFront, hHead⟩ := List.mem_filterMap.mp hEntry
    obtain ⟨others, rfl⟩ : ∃ others, front = (name, task) :: others := by
      cases front with
      | nil => cases hHead
      | cons first others =>
          cases hHead
          exact ⟨others, rfl⟩
    obtain ⟨before, after, hSplit⟩ := List.append_of_mem hFront
    classical
    let leads := Relation.ReflTransGen (BranchNames branches) name
    let joins : List (String × TaskDefinition) → Bool := fun entry =>
      decide (∃ named ∈ entry.head?, leads named.1)
    have perm : branches.Perm (((name, task) :: others) ::
        ((before ++ after).filter (fun entry => !joins entry) ++ (before ++ after).filter joins)) := by
      rw [hSplit]
      refine List.perm_middle.trans (List.Perm.cons _ ?_)
      exact (List.perm_append_comm.trans (List.filter_append_perm joins _)).symm
    refine ⟨_, perm, not_explored_of_front leads rfl ?_ (hTries perm) hFalls .refl ?_ ?_ ?_
      ((scopeNames_perm perm).mem_iff.mp hMissed) hNot⟩
    · exact fun hNil => hFull (perm.mem_iff.mpr hNil)
    · intro entry hMem target hLeads hTarget
      exact hLeads.tail ⟨entry.2, (scopeEntries_perm perm).mem_iff.mpr hMem, hTarget⟩
    · intro other hOther hLeads
      obtain ⟨entry, hEntry, head, hHead, rfl⟩ := exists_head_of_mem_scopeNames hOther
      have hJoins := (List.mem_filter.mp hEntry).2
      simp only [joins, Bool.not_eq_true', decide_eq_false_iff_not] at hJoins
      exact hJoins ⟨head, hHead, hLeads⟩
    · intro other hOther
      obtain ⟨entry, hEntry, head, hHead, rfl⟩ := exists_head_of_mem_scopeNames hOther
      obtain ⟨named, hNamed, hLeads⟩ := of_decide_eq_true (List.mem_filter.mp hEntry).2
      rw [Option.mem_def] at hHead hNamed
      rw [hNamed, Option.some.injEq] at hHead
      exact hHead ▸ hLeads

end Hidden

section Turning

/-- The tasks are the same as far as their own scope is concerned. -/
structure TaskDefinition.Alike (task task' : TaskDefinition) : Prop where
  common : task'.common = task.common
  directives : switchDirectives task' = switchDirectives task
  isTry : isTry task' = isTry task
  isSwitch : isSwitch task' = isSwitch task
  own : task'.ownClean = task.ownClean

/-- A task is like itself. -/
theorem TaskDefinition.Alike.refl (task : TaskDefinition) : task.Alike task :=
  ⟨rfl, rfl, rfl, rfl, rfl⟩

/-- A task with a fork in another order inside is like the one before: the validator sees its kind
and its directives. -/
theorem TaskReorders.alike {task task' : TaskDefinition} (reorders : TaskReorders task task') :
    task.Alike task' := by
  cases reorders <;> exact ⟨rfl, rfl, rfl, rfl, rfl⟩

/-- The entries of a scope keep their names, and their tasks are alike. -/
def EntryAlike (entry entry' : String × TaskDefinition) : Prop :=
  entry'.1 = entry.1 ∧ entry.2.Alike entry'.2

/-- The scopes have the same names and alike tasks, in some order. -/
structure SameEntries (tasks tasks' : TaskScope) : Prop where
  length : (scopeNames tasks').length = (scopeNames tasks).length
  nil : [] ∈ tasks' → [] ∈ tasks
  forth : ∀ entry ∈ scopeEntries tasks, ∃ entry' ∈ scopeEntries tasks', EntryAlike entry entry'
  back : ∀ entry' ∈ scopeEntries tasks', ∃ entry ∈ scopeEntries tasks, EntryAlike entry entry'

variable {tasks tasks' : TaskScope} {task task' : TaskDefinition}

/-- Tasks that are alike fall through alike, -/
theorem TaskDefinition.Alike.fallsThrough_iff (alike : task.Alike task') :
    fallsThrough task' ↔ fallsThrough task := by
  unfold fallsThrough commonThen commonIf
  rw [alike.common, alike.directives, alike.isSwitch]

/-- name the same targets, -/
theorem TaskDefinition.Alike.namesTarget_iff (alike : task.Alike task') {name : String} :
    NamesTarget task' name ↔ NamesTarget task name := by
  unfold NamesTarget commonThen
  rw [alike.common, alike.directives]

/-- and so have the same edges. -/
theorem TaskDefinition.Alike.reachabilityEdges_eq (alike : task.Alike task')
    (names : List String) (index : Nat) :
    reachabilityEdges names index task' = reachabilityEdges names index task := by
  unfold reachabilityEdges commonThen commonIf
  rw [alike.common, alike.directives, alike.isSwitch]

/-- Another order has the same entries. -/
theorem SameEntries.of_perm (perm : tasks.Perm tasks') : SameEntries tasks tasks' := by
  have hMem : ∀ entry, entry ∈ scopeEntries tasks ↔ entry ∈ scopeEntries tasks' :=
    fun entry => (scopeEntries_perm perm).mem_iff
  refine ⟨(scopeNames_perm perm).length_eq.symm, perm.mem_iff.mpr, ?_, ?_⟩
  · intro entry hEntry
    exact ⟨entry, (hMem entry).mp hEntry, rfl, .refl _⟩
  · intro entry hEntry
    exact ⟨entry, (hMem entry).mpr hEntry, rfl, .refl _⟩

/-- The condition on the branches does not look at their order, -/
theorem OrderFree.of_sameEntries (same : SameEntries tasks tasks') (free : OrderFree tasks) :
    OrderFree tasks' := by
  rcases free with hFew | ⟨entry, hEntry, hTry⟩ | ⟨hFull, hLeads⟩
  · exact Or.inl (same.length ▸ hFew)
  · obtain ⟨entry', hMem, _, alike⟩ := same.forth entry hEntry
    exact Or.inr (Or.inl ⟨entry', hMem, alike.isTry.trans hTry⟩)
  · have hNames : ∀ {name other}, BranchNames tasks name other → BranchNames tasks' name other := by
      rintro name other ⟨task, hMem, hTarget⟩
      obtain ⟨⟨_, task'⟩, hMem', rfl, alike⟩ := same.forth _ hMem
      exact ⟨task', hMem', alike.namesTarget_iff.mpr hTarget⟩
    refine Or.inr (Or.inr ⟨fun hNil => hFull (same.nil hNil), fun entry' hEntry' => ?_⟩)
    obtain ⟨entry, hEntry, hName, alike⟩ := same.back entry' hEntry'
    rcases hLeads entry hEntry with hFalls | hAll
    · exact Or.inl (alike.fallsThrough_iff.mpr hFalls)
    · refine Or.inr fun name hMem => ?_
      obtain ⟨named', hNamed', rfl⟩ := List.mem_map.mp hMem
      obtain ⟨named, hNamed, hEq, _⟩ := same.back named' hNamed'
      rw [hName, hEq]
      exact (hAll named.1 (List.mem_map_of_mem hNamed)).lift id fun _ _ names => hNames names

/-- The heads of an entry of a scope, before and after a fork within it is reordered. -/
def HeadReorders (head head' : Option (String × TaskDefinition)) : Prop :=
  head = head' ∨ ∃ name task task', head = some (name, task) ∧ head' = some (name, task') ∧
    TaskReorders task task'

/-- nor at what is inside of them. -/
theorem HeadReorders.alike {head head' : Option (String × TaskDefinition)}
    (reorders : HeadReorders head head') : Option.Rel EntryAlike head head' := by
  rcases reorders with rfl | ⟨name, task, task', rfl, rfl, inner⟩
  · cases head with
    | none => exact .none
    | some entry => exact .some ⟨rfl, .refl _⟩
  · exact .some ⟨rfl, inner.alike⟩

/-- A reordered scope differs in one place. -/
theorem ScopeReorders.split (reorders : ScopeReorders tasks tasks') :
    ∃ (before after : TaskScope) (entry entry' : List (String × TaskDefinition)),
      tasks = before ++ entry :: after ∧ tasks' = before ++ entry' :: after ∧
        (entry' = [] → entry = []) ∧ HeadReorders entry.head? entry'.head? := by
  cases reorders with
  | @entry before after first others name task task' inner =>
      refine ⟨before, after, _, _, rfl, rfl, by simp, ?_⟩
      cases first with
      | nil => exact Or.inr ⟨name, task, task', rfl, rfl, inner⟩
      | cons head rest => exact Or.inl rfl

/-- The entries of a scope around one of them. -/
theorem scopeEntries_middle (before after : TaskScope) (entry : List (String × TaskDefinition)) :
    scopeEntries (before ++ entry :: after) =
      scopeEntries before ++ (entry.head?.toList ++ scopeEntries after) := by
  rw [scopeEntries_append]
  cases entry <;> rfl

/-- Each entry of a reordered scope was there before, or has a fork reordered. -/
theorem ScopeReorders.entries (reorders : ScopeReorders tasks tasks')
    {entry' : String × TaskDefinition} (hEntry : entry' ∈ scopeEntries tasks') :
    ∃ entry ∈ scopeEntries tasks, HeadReorders (some entry) (some entry') := by
  obtain ⟨before, after, old, new, rfl, rfl, _, hHead⟩ := reorders.split
  rw [scopeEntries_middle, List.mem_append, List.mem_append] at hEntry
  rw [scopeEntries_middle]
  rcases hEntry with hBefore | hHere | hAfter
  · exact ⟨entry', List.mem_append_left _ hBefore, Or.inl rfl⟩
  · rw [Option.mem_toList] at hHere
    rw [hHere] at hHead
    cases hOld : old.head? with
    | none =>
        rw [hOld] at hHead
        rcases hHead with hEq | ⟨_, _, _, hEq, _⟩ <;> cases hEq
    | some entry =>
        rw [hOld] at hHead
        exact ⟨entry, by simp, hHead⟩
  · exact ⟨entry', by simp [hAfter], Or.inl rfl⟩

/-- The entry that was reordered inside keeps its name and its directives. -/
theorem HeadReorders.entryAlike {entry entry' : String × TaskDefinition}
    (reorders : HeadReorders (some entry) (some entry')) : EntryAlike entry entry' := by
  cases reorders.alike with
  | some alike => exact alike

/-- A scope in which a fork has been reordered keeps its names in their order. -/
theorem ScopeReorders.scopeNames_eq (reorders : ScopeReorders tasks tasks') :
    scopeNames tasks' = scopeNames tasks := by
  obtain ⟨before, after, old, new, rfl, rfl, _, hHead⟩ := reorders.split
  rw [scopeNames, scopeNames, scopeEntries_middle, scopeEntries_middle]
  rcases hHead with hEq | ⟨name, task, task', hOld, hNew, _⟩
  · rw [hEq]
  · rw [hOld, hNew]
    simp

/-- To be alike is symmetric. -/
theorem EntryAlike.symm {entry entry' : String × TaskDefinition} (alike : EntryAlike entry entry') :
    EntryAlike entry' entry :=
  ⟨alike.1.symm, alike.2.common.symm, alike.2.directives.symm, alike.2.isTry.symm,
    alike.2.isSwitch.symm, alike.2.own.symm⟩

/-- Such a scope has the same entries, up to what is inside of them. -/
theorem ScopeReorders.sameEntries (reorders : ScopeReorders tasks tasks') :
    SameEntries tasks tasks' := by
  refine ⟨congrArg List.length reorders.scopeNames_eq, ?_, ?_, ?_⟩
  · obtain ⟨before, after, old, new, rfl, rfl, hNil, _⟩ := reorders.split
    intro hMem
    rcases List.mem_append.mp hMem with hBefore | hRest
    · exact List.mem_append_left _ hBefore
    · rcases List.mem_cons.mp hRest with hHere | hAfter
      · simp [hNil hHere.symm]
      · simp [hAfter]
  · intro entry hEntry
    obtain ⟨entry', hEntry', hHead⟩ := reorders.symm.entries hEntry
    exact ⟨entry', hEntry', hHead.entryAlike.symm⟩
  · intro entry' hEntry'
    obtain ⟨entry, hEntry, hHead⟩ := reorders.entries hEntry'
    exact ⟨entry, hEntry, hHead.entryAlike⟩

/-- A scope in which a fork has been reordered has the same edges: the task with the fork in it
keeps its directives, and all other tasks are the same. -/
theorem ScopeReorders.scopeEdges_eq (reorders : ScopeReorders tasks tasks') :
    scopeEdges tasks' = scopeEdges tasks := by
  have hNames := reorders.scopeNames_eq
  have hHeads : ∀ index : Nat, Option.Rel EntryAlike (tasks[index]?.bind List.head?)
      (tasks'[index]?.bind List.head?) := by
    intro index
    obtain ⟨before, after, old, new, rfl, rfl, _, hHead⟩ := reorders.split
    by_cases hBefore : index < before.length
    · rw [List.getElem?_append_left hBefore, List.getElem?_append_left hBefore]
      exact HeadReorders.alike (Or.inl rfl)
    · rw [List.getElem?_append_right (by omega), List.getElem?_append_right (by omega)]
      cases index - before.length with
      | zero => exact hHead.alike
      | succ index => exact HeadReorders.alike (Or.inl rfl)
  funext index
  have hHead := hHeads index
  unfold scopeEdges
  cases hOld : tasks[index]?.bind List.head? with
  | none =>
      rw [hOld] at hHead
      cases hNew : tasks'[index]?.bind List.head? with
      | none => rfl
      | some entry' =>
          rw [hNew] at hHead
          cases hHead
  | some entry =>
      rw [hOld] at hHead
      cases hNew : tasks'[index]?.bind List.head? with
      | none =>
          rw [hNew] at hHead
          cases hHead
      | some entry' =>
          rw [hNew] at hHead
          cases hHead with
          | some alike =>
              dsimp only
              rw [hNames]
              exact alike.2.reachabilityEdges_eq _ _

/-- and so all of it is explored in both orders or in neither. -/
theorem ScopeReorders.explored (reorders : ScopeReorders tasks tasks') (explored : Explored tasks) :
    Explored tasks' := by
  have hFound : reachableTasks tasks' = reachableTasks tasks := by
    unfold reachableTasks
    rw [exploreScope_eq_explore, exploreScope_eq_explore, explorationFuel_eq, explorationFuel_eq,
      reorders.scopeNames_eq, reorders.scopeEdges_eq]
  rcases explored with ⟨entry, hEntry, hTry⟩ | hAll
  · obtain ⟨entry', hMem, _, alike⟩ := reorders.sameEntries.forth entry hEntry
    exact Or.inl ⟨entry', hMem, alike.isTry.trans hTry⟩
  · rw [← hFound, ← reorders.scopeNames_eq] at hAll
    exact Or.inr hAll

/-- How a scope that the validator visits differs after a fork has been reordered: a
fork within it is, or it holds the branches of a fork itself. -/
inductive Turns : TaskScope → TaskScope → Prop where
  | same (tasks : TaskScope) : Turns tasks tasks
  | within {tasks tasks' : TaskScope} (reorders : ScopeReorders tasks tasks') : Turns tasks tasks'
  | branches {tasks tasks' : TaskScope} (free : OrderFree tasks) (perm : tasks.Perm tasks') :
      Turns tasks tasks'

/-- What may be turned around in a scope leaves its entries alike, -/
theorem Turns.sameEntries (turns : Turns tasks tasks') : SameEntries tasks tasks' := by
  cases turns with
  | same => exact .of_perm (List.Perm.refl _)
  | within reorders => exact reorders.sameEntries
  | branches _ perm => exact .of_perm perm

/-- with the same names. -/
theorem Turns.names_perm (turns : Turns tasks tasks') :
    (scopeNames tasks').Perm (scopeNames tasks) := by
  cases turns with
  | same => exact List.Perm.refl _
  | within reorders => exact reorders.scopeNames_eq ▸ List.Perm.refl _
  | branches _ perm => exact (scopeNames_perm perm).symm

/-- What the validator checks at each task by itself does not depend on the order. -/
theorem Turns.locallyClean (turns : Turns tasks tasks') (clean : LocallyClean tasks) :
    LocallyClean tasks' := by
  have hNames := turns.names_perm
  have hNodup : (scopeNames tasks').Nodup := hNames.nodup_iff.mpr clean.nodup
  refine ⟨fun name hName => clean.names name (hNames.mem_iff.mp hName), hNodup, ?_, ?_, ?_⟩
  · intro entry' hEntry' target hTarget
    obtain ⟨entry, hEntry, _, alike⟩ := turns.sameEntries.back entry' hEntry'
    rw [alike.common] at hTarget
    have hIn := clean.targets entry hEntry target hTarget
    unfold TargetIn at hIn ⊢
    rw [hNames.mem_iff]
    exact hIn
  · intro entry' hEntry'
    obtain ⟨entry, hEntry, _, alike⟩ := turns.sameEntries.back entry' hEntry'
    exact alike.own.trans (clean.own entry hEntry)
  · cases turns with
    | same => exact clean.explored
    | within reorders => exact reorders.explored clean.explored
    | branches free perm => exact (free.of_sameEntries (.of_perm perm)).explored hNodup

/-- The scopes of a task whose fork has been reordered are those of the task before: the same ones,
one with a fork reordered inside, or the branches in another order. -/
theorem TaskReorders.scopes {task task' : TaskDefinition} (reorders : TaskReorders task task')
    (hFree : ∀ common branches compete, task = .fork common branches compete → OrderFree branches)
    {inner' : TaskScope} (hInner : inner' ∈ task'.checkedScopes) :
    ∃ inner ∈ task.checkedScopes, Turns inner inner' := by
  cases reorders with
  | branches perm =>
      obtain rfl := List.mem_singleton.mp hInner
      exact ⟨_, List.mem_cons_self, .branches (hFree _ _ _ rfl) perm⟩
  | listen inner => cases hInner
  | try_ inner =>
      rcases List.mem_cons.mp hInner with rfl | hHandler
      · exact ⟨_, List.mem_cons_self, .within inner⟩
      · exact ⟨inner', List.mem_cons_of_mem _ hHandler, .same _⟩
  | handler inner =>
      rcases List.mem_cons.mp hInner with rfl | hHandler
      · exact ⟨inner', List.mem_cons_self, .same _⟩
      · obtain rfl := List.mem_singleton.mp hHandler
        exact ⟨_, List.mem_cons_of_mem _ (List.mem_singleton.mpr rfl), .within inner⟩
  | fork inner =>
      obtain rfl := List.mem_singleton.mp hInner
      exact ⟨_, List.mem_cons_self, .within inner⟩
  | do_ inner =>
      obtain rfl := List.mem_singleton.mp hInner
      exact ⟨_, List.mem_cons_self, .within inner⟩
  | for_ inner =>
      obtain rfl := List.mem_singleton.mp hInner
      exact ⟨_, List.mem_cons_self, .within inner⟩

/-- The forks among the tasks of a scope have no order that hides a branch. -/
def EntriesOrderFree (tasks : TaskScope) : Prop :=
  ∀ name common branches compete, (name, .fork common branches compete) ∈ scopeEntries tasks →
    OrderFree branches

/-- The entries of a scope whose fork, or whose branches, have been reordered. -/
theorem Turns.entries (turns : Turns tasks tasks') {entry' : String × TaskDefinition}
    (hEntry : entry' ∈ scopeEntries tasks') :
    ∃ entry ∈ scopeEntries tasks, HeadReorders (some entry) (some entry') := by
  cases turns with
  | same => exact ⟨entry', hEntry, Or.inl rfl⟩
  | within reorders => exact reorders.entries hEntry
  | branches _ perm => exact ⟨entry', (scopeEntries_perm perm).mem_iff.mpr hEntry, Or.inl rfl⟩

/-- The condition on all forks is kept when some of them are turned. -/
theorem EntriesOrderFree.turns (free : EntriesOrderFree tasks) (turns : Turns tasks tasks') :
    EntriesOrderFree tasks' := by
  intro name common branches compete hMem
  obtain ⟨entry, hEntry, hHead⟩ := turns.entries hMem
  rcases hHead with hEq | ⟨_, task, _, hOld, hNew, inner⟩
  · cases hEq
    exact free name common branches compete hEntry
  · cases hOld
    cases hNew
    cases inner with
    | branches perm => exact (free _ _ _ _ hEntry).of_sameEntries (.of_perm perm)
    | fork inner => exact (free _ _ _ _ hEntry).of_sameEntries inner.sameEntries

variable {definition other : WorkflowDefinition}

/-- Each scope which the validator visits after a fork has been reordered is one that
it visits before, or has turned out of one. -/
theorem Nested.turns (free : ForksOrderFree definition) (turns : Turns definition.do_ other.do_)
    {inner' : TaskScope} (nested : Nested TaskDefinition.checkedScopes [other.do_] inner') :
    ∃ inner, Nested TaskDefinition.checkedScopes [definition.do_] inner ∧ Turns inner inner' := by
  induction nested with
  | root hRoot =>
      obtain rfl := List.mem_singleton.mp hRoot
      exact ⟨_, .root List.mem_cons_self, turns⟩
  | child _ hEntry' hInner' ih =>
      obtain ⟨outer, nested, outerTurns⟩ := ih
      obtain ⟨entry, hEntry, hHead⟩ := outerTurns.entries hEntry'
      rcases hHead with hEq | ⟨name, task, _, hOld, hNew, reorders⟩
      · cases hEq
        exact ⟨_, nested.child hEntry hInner', .same _⟩
      · cases hOld
        cases hNew
        have hForks : ∀ common branches compete, task = .fork common branches compete →
            OrderFree branches := by
          rintro common branches compete rfl
          exact free outer nested name common branches compete hEntry
        obtain ⟨inner, hInner, innerTurns⟩ := reorders.scopes hForks hInner'
        exact ⟨inner, nested.child hEntry hInner, innerTurns⟩

/-- To reorder one fork of a definition turns its scopes, and can be undone. -/
theorem WorkflowDefinition.Reorders.turns (reorders : definition.Reorders other) :
    other.document = definition.document ∧ Turns definition.do_ other.do_ ∧
      Turns other.do_ definition.do_ := by
  cases reorders with
  | do_ inner => exact ⟨rfl, .within inner, .within inner.symm⟩
  | use_ => exact ⟨rfl, .same _, .same _⟩

/-- A scope with tasks keeps them. -/
theorem Turns.ne_nil (turns : Turns tasks tasks') (hTasks : tasks ≠ []) : tasks' ≠ [] := by
  cases turns with
  | same => exact hTasks
  | within reorders =>
      obtain ⟨before, after, old, new, _, rfl, _⟩ := reorders.split
      simp
  | branches _ perm =>
      rintro rfl
      exact hTasks perm.eq_nil

/-- A definition stays free, and accepted if it was, when its scopes turn. -/
theorem ForksOrderFree.turns (free : ForksOrderFree definition)
    (hDocument : other.document = definition.document) (turns : Turns definition.do_ other.do_) :
    ForksOrderFree other ∧ (validate definition = [] → validate other = []) := by
  constructor
  · intro tasks' nested'
    obtain ⟨tasks, nested, scopeTurns⟩ := Nested.turns free turns nested'
    exact EntriesOrderFree.turns (free tasks nested) scopeTurns
  · rw [validate_eq_nil_iff, validate_eq_nil_iff, hDocument]
    rintro ⟨hValid, hTasks, hClean⟩
    refine ⟨hValid, turns.ne_nil hTasks, ?_⟩
    intro inner' nested'
    obtain ⟨inner, nested, scopeTurns⟩ := Nested.turns free turns nested'
    exact scopeTurns.locallyClean (hClean inner nested)

/-- By induction on the reorderings: the verdict stays the same throughout. -/
theorem ForksOrderFree.orderIndependent (free : ForksOrderFree definition) :
    OrderIndependent definition := by
  intro other reordered
  have hBoth : ForksOrderFree other ∧ (validate other = [] ↔ validate definition = []) := by
    induction reordered with
    | refl => exact ⟨free, Iff.rfl⟩
    | @tail middle last _ reorders ih =>
        obtain ⟨middleFree, hMiddle⟩ := ih
        obtain ⟨hDocument, forth, back⟩ := reorders.turns
        obtain ⟨lastFree, hForth⟩ := middleFree.turns hDocument forth
        have hBack := (lastFree.turns hDocument.symm back).2
        exact ⟨lastFree, Iff.trans ⟨hBack, hForth⟩ hMiddle⟩
  exact hBoth.2

end Turning

section Contexts

variable {definition : WorkflowDefinition} {tasks tasks' : TaskScope}

/-- A fork inside an entry of a scope can be reordered within that scope. -/
theorem ScopeReorders.of_mem {name : String} {task task' : TaskDefinition}
    (hEntry : (name, task) ∈ scopeEntries tasks) (reorders : TaskReorders task task') :
    ∃ tasks', ScopeReorders tasks tasks' ∧ (name, task') ∈ scopeEntries tasks' := by
  obtain ⟨entry, hMem, hHead⟩ := List.mem_filterMap.mp hEntry
  obtain ⟨others, rfl⟩ : ∃ others, entry = (name, task) :: others := by
    cases entry with
    | nil => cases hHead
    | cons first others =>
        cases hHead
        exact ⟨others, rfl⟩
  obtain ⟨before, after, rfl⟩ := List.append_of_mem hMem
  refine ⟨before ++ ((name, task') :: others) :: after, ?_, ?_⟩
  · exact @ScopeReorders.entry before after [] others name task task' reorders
  · rw [scopeEntries_middle]
    simp

/-- A fork in a scope of a task can be reordered within the task: these scopes are the ones which
the validator visits. -/
theorem TaskReorders.of_checkedScope {task : TaskDefinition} (hInner : tasks ∈ task.checkedScopes)
    (reorders : ScopeReorders tasks tasks') :
    ∃ task', TaskReorders task task' ∧ tasks' ∈ task'.checkedScopes := by
  cases task with
  | do_ common body =>
      obtain rfl := List.mem_singleton.mp hInner
      exact ⟨_, .do_ reorders, List.mem_cons_self⟩
  | for_ common loop while_ body =>
      obtain rfl := List.mem_singleton.mp hInner
      exact ⟨_, .for_ reorders, List.mem_cons_self⟩
  | fork common branches compete =>
      obtain rfl := List.mem_singleton.mp hInner
      exact ⟨_, .fork reorders, List.mem_cons_self⟩
  | try_ common body catch_ handler =>
      rcases List.mem_cons.mp hInner with rfl | hHandler
      · exact ⟨_, .try_ reorders, List.mem_cons_self⟩
      · obtain rfl := Option.mem_toList.mp hHandler
        exact ⟨_, .handler reorders, List.mem_cons_of_mem _ (List.mem_singleton.mpr rfl)⟩
  | _ => cases hInner

/-- A reordering within a visited scope is one of the definition. -/
theorem Nested.reorders (nested : Nested TaskDefinition.checkedScopes [definition.do_] tasks)
    (reorders : ScopeReorders tasks tasks') :
    ∃ other, definition.Reorders other ∧
      Nested TaskDefinition.checkedScopes [other.do_] tasks' := by
  induction nested generalizing tasks' with
  | root hRoot =>
      obtain rfl := List.mem_singleton.mp hRoot
      exact ⟨_, .do_ reorders, .root (List.mem_singleton.mpr rfl)⟩
  | @child outer inner entry _ hEntry hInner ih =>
      obtain ⟨task', taskReorders, hMem⟩ := TaskReorders.of_checkedScope hInner reorders
      obtain ⟨outer', outerReorders, hEntry'⟩ := ScopeReorders.of_mem hEntry taskReorders
      obtain ⟨other, definitionReorders, nested'⟩ := ih outerReorders
      exact ⟨other, definitionReorders, nested'.child hEntry' hMem⟩

/-- When a fork is not free, some order of its branches is rejected. -/
theorem exists_rejected_order (hFree : ¬ ForksOrderFree definition) :
    ∃ other, definition.Reorders other ∧ validate other ≠ [] := by
  unfold ForksOrderFree at hFree
  push Not at hFree
  obtain ⟨tasks, nested, name, common, branches, compete, hEntry, hNot⟩ := hFree
  obtain ⟨branches', perm, hHidden⟩ := exists_hiding_order hNot
  have taskReorders : TaskReorders (.fork common branches compete) (.fork common branches' compete) :=
    .branches perm
  obtain ⟨tasks', reorders, hEntry'⟩ := ScopeReorders.of_mem hEntry taskReorders
  obtain ⟨other, definitionReorders, nested'⟩ := nested.reorders reorders
  refine ⟨other, definitionReorders, fun hValid => hHidden ?_⟩
  exact ((validate_eq_nil_iff.mp hValid).2.2 branches'
    (nested'.child hEntry' List.mem_cons_self)).explored

/-- The verdict of the validator is the same for every order of the branches if and
only if no fork has an order that hides a branch, or every order is rejected. -/
theorem WorkflowDefinition.orderIndependent_iff (definition : WorkflowDefinition) :
    OrderIndependent definition ↔
      ForksOrderFree definition ∨ ∀ other, definition.Reordered other → validate other ≠ [] := by
  constructor
  · intro independent
    by_cases hFree : ForksOrderFree definition
    · exact Or.inl hFree
    · obtain ⟨other, reorders, hRejected⟩ := exists_rejected_order hFree
      refine Or.inr fun another reordered hValid => hRejected ?_
      rw [independent other (Relation.ReflTransGen.single reorders)]
      exact (independent another reordered).mp hValid
  · rintro (free | hRejected)
    · exact free.orderIndependent
    · intro other reordered
      have hSelf := hRejected definition Relation.ReflTransGen.refl
      exact ⟨fun hValid => absurd hValid (hRejected other reordered), fun hValid => absurd hValid hSelf⟩

end Contexts

/-- A definition with a fork, for examples. -/
def forking (branches : TaskScope) : WorkflowDefinition :=
  Sample.definition [[("parallel", .fork (Sample.fields none) branches false)]]

def endingBranch : List (String × TaskDefinition) :=
  [("stop", .set (Sample.fields (some "end")) (.map []))]

def plainBranch : List (String × TaskDefinition) := [("plain", .set (Sample.fields none) (.map []))]

/-- The branch that ends the workflow hides the one after it, but not the one before. -/
theorem forking_not_orderIndependent : ¬ OrderIndependent (forking [plainBranch, endingBranch]) := by
  intro independent
  have hAccepted : validate (forking [plainBranch, endingBranch]) = [] := by decide +kernel
  have hRejected : validate (forking [endingBranch, plainBranch]) ≠ [] := by decide +kernel
  have perm : [plainBranch, endingBranch].Perm [endingBranch, plainBranch] := List.Perm.swap _ _ _
  have reorders : ScopeReorders (forking [plainBranch, endingBranch]).do_
      (forking [endingBranch, plainBranch]).do_ :=
    @ScopeReorders.entry [] [] [] [] "parallel" _ _ (.branches perm)
  apply hRejected
  exact (independent _ (Relation.ReflTransGen.single (.do_ reorders))).mpr hAccepted

end OwsRuntime
