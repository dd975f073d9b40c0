import OwsRuntime.CompileScopes
import OwsRuntime.Engine.Runs
import OwsRuntime.Graph.Worklist

/-! Reachability within a scope. The validator explores a graph of the tasks of a
scope, and the engine moves along its edges only. -/
namespace OwsRuntime

open Async

/-- Every entry of the scope holds one task, and every switch case has a `then`. -/
structure Sequential (tasks : TaskScope) : Prop where
  single : ∀ entry ∈ tasks, entry.length = 1
  cases_ : ∀ entry ∈ scopeEntries tasks, ∀ then_ ∈ switchDirectives entry.2, then_.isSome

section Edges

variable {env : CompileEnv} {components : Option ComponentDefinitionCollection}
  {tasks : TaskScope} {scope : List CompiledTask} {index next : Nat}

theorem Sequential.getElem?_scopeEntries (sequential : Sequential tasks) (index : Nat) :
    (scopeEntries tasks)[index]? = tasks[index]?.bind List.head? := by
  have hSingle := sequential.single
  clear sequential
  induction tasks generalizing index with
  | nil => rfl
  | cons entry rest ih =>
      obtain ⟨named, rfl⟩ := List.length_eq_one_iff.mp (hSingle entry List.mem_cons_self)
      rw [scopeEntries, List.filterMap_cons]
      cases index with
      | zero => rfl
      | succ index => exact ih index fun other hOther => hSingle other (List.mem_cons_of_mem _ hOther)

/-- Where a `then` leads at run time, the validator has drawn an edge to, as both read the text of
it in the same way. -/
theorem mem_addEdge_of_target {then_ : String} (hNames : scope.map CompiledTask.name = scopeNames tasks)
    (hTarget : (parseDirective then_).target? scope index = some next) :
    next ∈ addEdge (scopeNames tasks) index then_ := by
  unfold parseDirective at hTarget
  unfold addEdge
  split at hTarget
  · rename_i hContinue
    rw [if_pos hContinue]
    exact List.mem_singleton.mpr (Option.some.inj hTarget).symm
  · rename_i hContinue
    split at hTarget
    · cases hTarget
    · rename_i hExit
      split at hTarget
      · cases hTarget
      · rename_i hEnd
        rw [if_neg hContinue, if_neg (not_or.mpr ⟨hExit, hEnd⟩), Option.mem_toList, ← hNames,
          List.idxOf?, List.findIdx?_map]
        exact hTarget

variable {names : List String} {definition : TaskDefinition} {target : String}

theorem mem_edges_of_then (hThen : commonThen definition = some target)
    (hEdge : next ∈ addEdge names index target) :
    next ∈ reachabilityEdges names index definition := by
  unfold reachabilityEdges
  rw [hThen]
  simp [hEdge]

theorem mem_edges_of_case (hCase : some target ∈ switchDirectives definition)
    (hEdge : next ∈ addEdge names index target) :
    next ∈ reachabilityEdges names index definition := by
  unfold reachabilityEdges
  simp only [List.mem_append, List.mem_flatMap, List.mem_filterMap]
  exact Or.inl (Or.inl (Or.inr ⟨target, ⟨some target, hCase, rfl⟩, hEdge⟩))

theorem switchDirectives_of_not_switch (hSwitch : isSwitch definition = false) :
    switchDirectives definition = [] := by
  cases definition with
  | switch => cases hSwitch
  | _ => rfl

/-- Without a `then`, the validator lets a task fall through, a switch as well, for
the case that none of its cases matches. -/
theorem mem_edges_of_fallthrough (hThen : commonThen definition = none)
    (hCases : ∀ then_ ∈ switchDirectives definition, then_.isSome) :
    index + 1 ∈ reachabilityEdges names index definition := by
  have hFallthrough : (switchDirectives definition).any Option.isNone = false := by
    rw [List.any_eq_false]
    intro then_ hMem
    rw [Option.isNone_iff_eq_none]
    exact Option.isSome_iff_ne_none.mp (hCases then_ hMem)
  unfold reachabilityEdges
  rw [hThen]
  by_cases hSwitch : isSwitch definition
  · simp [hSwitch, hFallthrough]
  · simp [switchDirectives_of_not_switch (by simpa using hSwitch)]

/-- Every way to follow a task is an edge of the graph. -/
theorem mem_reachabilityEdges {entry : String × TaskDefinition} {task : CompiledTask}
    (hNames : scope.map CompiledTask.name = scopeNames tasks)
    (compiled : CompiledFrom env components entry task)
    (hCases : ∀ then_ ∈ switchDirectives entry.2, then_.isSome) {d : FlowDirective}
    (hDirective : d ∈ task.directives) (hTarget : d.target? scope index = some next) :
    next ∈ reachabilityEdges (scopeNames tasks) index entry.2 := by
  rcases List.mem_cons.mp hDirective with rfl | hChosen
  · rw [compiled.then_] at hTarget
    cases hThen : entry.2.common.then_ with
    | some target =>
        rw [hThen] at hTarget
        exact mem_edges_of_then hThen (mem_addEdge_of_target hNames hTarget)
    | none =>
        rw [hThen] at hTarget
        obtain rfl := Option.some.inj hTarget
        exact mem_edges_of_fallthrough hThen hCases
  · obtain ⟨case, hMem, rfl⟩ := List.mem_map.mp hChosen
    obtain ⟨reference, hKind⟩ := compiled.kind
    have hListed : case.then_ ∈ switchDirectives entry.2 := by
      rw [← (compileKind_ok hKind).cases_]
      exact List.mem_map_of_mem hMem
    obtain ⟨target, hThen⟩ := Option.isSome_iff_exists.mp (hCases _ hListed)
    rw [SwitchCase.directive, hThen] at hTarget
    exact mem_edges_of_case (hThen ▸ hListed) (mem_addEdge_of_target hNames hTarget)

/-- The graph draws an edge from one task of the scope to the other. -/
def Edge (tasks : TaskScope) (index next : Nat) : Prop :=
  ∃ entry, (scopeEntries tasks)[index]? = some entry ∧
    next ∈ reachabilityEdges (scopeNames tasks) index entry.2

theorem Successor.edge (sequential : Sequential tasks)
    (compiles : CompilesTo env components tasks scope) (successor : Successor scope index next) :
    Edge tasks index next := by
  obtain ⟨task, hTask, d, hDirective, hTarget⟩ := successor
  obtain ⟨entry, hEntry, compiled⟩ := compiles.getElem? hTask
  have hCases := sequential.cases_ entry (List.mem_of_getElem? hEntry)
  exact ⟨entry, hEntry, mem_reachabilityEdges compiles.names compiled hCases hDirective hTarget⟩

end Edges

section Exploration

variable {tasks : TaskScope} {index next : Nat}

/-- The edges from a task of the scope. -/
def scopeEdges (tasks : TaskScope) (index : Nat) : List Nat :=
  match tasks[index]?.bind List.head? with
  | none => []
  | some (_, task) => reachabilityEdges (scopeNames tasks) index task

/-- The validator explores the graph of the scope. -/
theorem exploreScope_eq_explore (fuel : Nat) (found pending : List Nat) :
    exploreScope tasks fuel found pending =
      Graph.explore (· < (scopeNames tasks).length) (scopeEdges tasks) fuel found pending := by
  induction fuel generalizing found pending with
  | zero => rfl
  | succ fuel ih =>
      cases pending with
      | nil => rfl
      | cons index pending =>
          rw [exploreScope, Graph.explore]
          simp only [Nat.not_lt]
          by_cases hSkip : (scopeNames tasks).length ≤ index ∨ index ∈ found
          · rw [if_pos hSkip, if_pos hSkip, ih]
          · rw [if_neg hSkip, if_neg hSkip, scopeEdges]
            cases hEntry : tasks[index]?.bind List.head? with
            | none => simp [ih]
            | some named => simp [ih]

theorem explorationFuel_eq :
    explorationFuel tasks =
      2 + Graph.pushes (scopeEdges tasks) (List.range (scopeNames tasks).length) [] := by
  rw [explorationFuel, Graph.pushes]
  congr 2
  simp only [List.not_mem_nil, not_false_eq_true, decide_true, List.filter_true]
  apply List.map_congr_left
  intro index _
  rw [scopeEdges]
  cases tasks[index]?.bind List.head? <;> rfl

theorem Edge.mem_scopeEdges (sequential : Sequential tasks) (edge : Edge tasks index next) :
    next ∈ scopeEdges tasks index := by
  obtain ⟨entry, hEntry, hNext⟩ := edge
  rw [sequential.getElem?_scopeEntries] at hEntry
  rw [scopeEdges, hEntry]
  exact hNext

theorem Edge.lt_length (edge : Edge tasks index next) : index < (scopeNames tasks).length := by
  obtain ⟨entry, hEntry, _⟩ := edge
  rw [scopeNames, List.length_map]
  exact (List.getElem?_eq_some_iff.mp hEntry).1

/-- The exploration comes to an end, and misses no task that a path leads to. -/
theorem mem_reachableTasks_of_path (hStart : 0 < (scopeNames tasks).length)
    (path : Relation.ReflTransGen
      (fun a b => b ∈ scopeEdges tasks a ∧ b < (scopeNames tasks).length) 0 index) :
    index ∈ reachableTasks tasks := by
  have hNodes : ∀ other, other < (scopeNames tasks).length →
      other ∈ List.range (scopeNames tasks).length := fun _ h => List.mem_range.mpr h
  have hFuel : 1 + Graph.pushes (scopeEdges tasks) (List.range (scopeNames tasks).length) [] ≤
      explorationFuel tasks := by
    rw [explorationFuel_eq]
    omega
  rw [reachableTasks, exploreScope_eq_explore]
  exact Graph.mem_explore_of_path List.nodup_range hNodes hFuel hStart path

/-- The exploration finds only tasks that a path leads to within the scope. -/
theorem scopePath_of_mem_reachableTasks (hMem : index ∈ reachableTasks tasks) :
    Relation.ReflTransGen
      (fun a b => b ∈ scopeEdges tasks a ∧ b < (scopeNames tasks).length) 0 index := by
  rw [reachableTasks, exploreScope_eq_explore] at hMem
  rcases Graph.path_of_mem_explore hMem with hFound | ⟨start, hPending, _, path⟩
  · cases hFound
  · obtain rfl := List.mem_singleton.mp hPending
    exact path

theorem path_of_mem_reachableTasks (hMem : index ∈ reachableTasks tasks) :
    Relation.ReflTransGen (fun a b => b ∈ scopeEdges tasks a) 0 index :=
  Relation.ReflTransGen.mono (fun _ _ hEdge => hEdge.1) _ _ (scopePath_of_mem_reachableTasks hMem)

theorem mem_reachableTasks (sequential : Sequential tasks)
    (path : Relation.ReflTransGen (Edge tasks) 0 index) (hIndex : index < (scopeNames tasks).length) :
    index ∈ reachableTasks tasks := by
  apply mem_reachableTasks_of_path (by omega)
  induction path with
  | refl => exact Relation.ReflTransGen.refl
  | tail _ edge ih =>
      exact (ih edge.lt_length).tail ⟨edge.mem_scopeEdges sequential, hIndex⟩

/-- Every issue of the graph is about a task that the exploration has missed. -/
theorem unreachable_of_issue {pointer : String} {issue : ValidationIssue}
    (hIssue : issue ∈ validateReachability tasks pointer) :
    ∃ index name, (scopeNames tasks)[index]? = some name ∧ index ∉ reachableTasks tasks ∧
      issue.code = "flow.unreachable" ∧
        issue.pointer = some (pointer ++ "/" ++ toString index ++ "/" ++ name) := by
  unfold validateReachability at hIssue
  dsimp only at hIssue
  split at hIssue
  · cases hIssue
  · obtain ⟨⟨name, index⟩, hMem, hSome⟩ := List.mem_filterMap.mp hIssue
    dsimp only at hSome
    split at hSome
    · rename_i hMissed
      obtain rfl := Option.some.inj hSome
      exact ⟨index, name, List.mem_zipIdx_iff_getElem?.mp hMem, hMissed.1, rfl, rfl⟩
    · cases hSome

end Exploration

/-- An execution that starts afresh, or where an earlier one of the same workflow
has left a record. -/
inductive Execution.Continued : Execution → Prop where
  | fresh {env : RuntimeInner} {e : Execution} (arises : e.Arises env) (hStart : e.start = 0) :
      Continued e
  | resumed {env : RuntimeInner} {e earlier : Execution} {record : ExecutionRecord}
      (arises : e.Arises env) (prior : Continued earlier) (hWorkflow : earlier.workflow = e.workflow)
      (hRecord : Noted (.recorded record) earlier.trace) (hPhase : record.phase.isTerminal = false)
      (hStart : e.start = (resumeState record).nextIndex) : Continued e

theorem Execution.Continued.arises {e : Execution} (continued : e.Continued) :
    ∃ env, e.Arises env := by
  cases continued with
  | fresh arises _ => exact ⟨_, arises⟩
  | resumed arises => exact ⟨_, arises⟩

/-- The task with which an execution starts can be come to from the first one. -/
theorem Execution.Continued.leads_start {e : Execution} (continued : e.Continued) :
    Leads e.workflow.tasks 0 e.start := by
  induction continued with
  | fresh _ hStart =>
      rw [hStart]
      exact Relation.ReflTransGen.refl
  | resumed _ prior hWorkflow hRecord hPhase hStart ih =>
      obtain ⟨env, arises⟩ := prior.arises
      obtain ⟨entry, hEntry, hNote⟩ := hRecord
      obtain ⟨past, later, hTrace⟩ := List.append_of_mem hEntry
      have hJustified := arises.faithful.accounted.split hTrace
      rw [Justified, hNote] at hJustified
      have hEntered := hJustified.2.2.2.resolve_left (by simp [hPhase])
      rw [hStart, ← hWorkflow]
      rcases hEntered with hLeads | ⟨_, hLeads⟩
      · exact hLeads
      · exact ih.trans hLeads

theorem Execution.Continued.leads {e : Execution} (continued : e.Continued)
    {tasks : List CompiledTask} {index : Nat} (entered : Entered e.workflow e.start tasks index) :
    Leads tasks 0 index := by
  rcases entered with hLeads | ⟨rfl, hLeads⟩
  · exact hLeads
  · exact continued.leads_start.trans hLeads

/-- The engine moves along the edges of the graph of a scope. -/
def MovesAlong (tasks : TaskScope) (scope : List CompiledTask) (trace : List Entry) : Prop :=
  ∀ entry ∈ trace, ∀ index next, entry.note = .moved scope index next → Edge tasks index next

/-- The engine runs only tasks of a scope that the validator has found, and none
that it reports as unreachable. -/
structure RunsFound (tasks : TaskScope) (scope : List CompiledTask) (trace : List Entry) :
    Prop where
  found : ∀ entry ∈ trace, ∀ index, entry.note = .admitted scope index →
    index ∈ reachableTasks tasks
  unreported : ∀ pointer, ∀ issue ∈ validateReachability tasks pointer, ∃ index name,
    (scopeNames tasks)[index]? = some name ∧
      issue.pointer = some (pointer ++ "/" ++ toString index ++ "/" ++ name) ∧
        ∀ entry ∈ trace, entry.note ≠ .admitted scope index

section Runs

variable {runtime : RuntimeInner} {e : Execution} {env : CompileEnv}
  {components : Option ComponentDefinitionCollection} {tasks : TaskScope} {scope : List CompiledTask}

theorem Execution.Arises.justified (arises : e.Arises runtime) {entry : Entry}
    (hEntry : entry ∈ e.trace) : ∃ past, Justified e.workflow e.start past entry := by
  obtain ⟨past, later, hTrace⟩ := List.append_of_mem hEntry
  exact ⟨past, arises.faithful.accounted.split hTrace⟩

theorem Execution.Arises.movesAlong (arises : e.Arises runtime)
    (compiles : CompilesTo env components tasks scope) (sequential : Sequential tasks) :
    MovesAlong tasks scope e.trace := by
  intro entry hEntry index next hNote
  obtain ⟨past, justified⟩ := arises.justified hEntry
  rw [Justified, hNote] at justified
  exact justified.2.2.edge sequential compiles

/-- An execution that starts afresh, or from a record that such a one has left, runs only what the
exploration has found: the record names a task that was reached. -/
theorem Execution.Continued.runsFound (continued : e.Continued)
    (compiles : CompilesTo env components tasks scope) (sequential : Sequential tasks) :
    RunsFound tasks scope e.trace := by
  obtain ⟨_, arises⟩ := continued.arises
  have hFound : ∀ entry ∈ e.trace, ∀ index, entry.note = .admitted scope index →
      index ∈ reachableTasks tasks := by
    intro entry hEntry index hNote
    obtain ⟨past, justified⟩ := arises.justified hEntry
    rw [Justified, hNote] at justified
    obtain ⟨_, _, _, hIndex, hEntered⟩ := justified
    apply mem_reachableTasks sequential
    · have hLeads := continued.leads hEntered
      exact hLeads.lift id fun _ _ successor => successor.edge sequential compiles
    · rw [← compiles.names, List.length_map]
      exact hIndex
  refine ⟨hFound, ?_⟩
  intro pointer issue hIssue
  obtain ⟨index, name, hName, hMissed, _, hPointer⟩ := unreachable_of_issue hIssue
  refine ⟨index, name, hName, hPointer, ?_⟩
  intro entry hEntry hNote
  exact hMissed (hFound entry hEntry index hNote)

/-- In every run, the engine moves along the edges of the graph that the validator
draws; and it never runs a task that the validator reports as unreachable, whether
the run starts afresh or from a record that such a run has left. -/
theorem Execution.Arises.withinGraph (arises : e.Arises runtime)
    (compiles : CompilesTo env components tasks scope) (sequential : Sequential tasks) :
    MovesAlong tasks scope e.trace ∧ (e.Continued → RunsFound tasks scope e.trace) :=
  ⟨arises.movesAlong compiles sequential, fun continued => continued.runsFound compiles sequential⟩

end Runs

/-- A scope whose first task leads past the second one. -/
def skipping : TaskScope :=
  [[("first", .set (Sample.fields (some "third")) (.map []))],
    [("second", .set (Sample.fields none) (.map []))],
    [("third", .switch (Sample.fields none) [[("default", { when := none, then_ := some "exit" })]])]]

/-- The positions of the tasks that an execution has run. -/
def Execution.admissions (e : Execution) : List Nat :=
  e.trace.filterMap fun entry => match entry.note with
    | .admitted _ index => some index
    | _ => none

/-- The second task is reported, and the execution runs the first and the third one. -/
theorem withinGraph_skipping :
    ∃ e : Execution, ∃ scope : List CompiledTask, e.admissions = [0, 2] ∧
      (validateReachability skipping "/do").map ValidationIssue.pointer =
        [some "/do/1/second"] ∧
      MovesAlong skipping scope e.trace ∧ RunsFound skipping scope e.trace := by
  have sequential : Sequential skipping := ⟨by decide +kernel, by decide +kernel⟩
  have hRun : ((Sample.compileEnv.compileEntries none "/do" 0 skipping).toOption.bind fun scope =>
      (engine.run (Sample.begin_ (Sample.workflow scope []) .null) (List.replicate 21 (.turn .here))).map
        fun d => d.2.shared.admissions) = some [0, 2] := by decide +kernel
  obtain ⟨scope, hCompile, hRun⟩ := Option.bind_eq_some_iff.mp hRun
  obtain ⟨e, arises, ⟨_, hStart⟩, hAdmissions⟩ := Sample.arises_of_run hRun
  have compiles : CompilesTo Sample.compileEnv none skipping scope :=
    ⟨_, _, eq_ok_of_toOption hCompile⟩
  obtain ⟨hMoves, hFound⟩ := arises.withinGraph compiles sequential
  exact ⟨e, scope, hAdmissions, by decide +kernel, hMoves, hFound (.fresh arises hStart)⟩

end OwsRuntime
