import OwsRuntime.Properties.Acceptance

/-! Where the issues of the validator belong. Each is reported of a task of some scope, or
of a part of one. Its site tells where that is in the definition, and how the compiler refers
to the task. -/
namespace OwsRuntime

/-- The scopes that are validated within a task, with the fields which hold them. -/
def TaskDefinition.subscopes : TaskDefinition → List (List String × TaskScope)
  | do_ _ tasks => [(["do"], tasks)]
  | for_ _ _ _ tasks => [(["do"], tasks)]
  | fork _ branches _ => [(["fork", "branches"], branches)]
  | try_ _ tasks _ handler =>
      (["try"], tasks) :: handler.toList.map fun tasks => (["catch", "do"], tasks)
  | _ => []

/-- The fields, with a slash before each. -/
def slashed (fields : List String) : String :=
  fields.foldr (fun field rest => "/" ++ field ++ rest) ""

/-- The entry is the first of the map at a raw index. Its own index counts the maps before
it that are not empty. -/
structure Placed {α : Type} (maps : List (List α)) (raw index : Nat) (entry : α) : Prop where
  head : maps[raw]?.bind List.head? = some entry
  index : index = ((maps.take raw).filterMap List.head?).length

/-- No path of the graph of a scope leads to this task, and the scope has no recovery. -/
structure Missed (tasks : TaskScope) (index : Nat) : Prop where
  noPath : ¬ Relation.ReflTransGen
    (fun a b => b ∈ scopeEdges tasks a ∧ b < (scopeNames tasks).length) 0 index
  noTry : ∀ entry ∈ scopeEntries tasks, isTry entry.2 = false

/-- What may be wrong with an entry of a scope, as the code and the message of an issue. -/
inductive EntryIssue (tasks : TaskScope) (index : Nat) (name : String) : String → String → Prop where
  | invalid (hName : isIdentifier name = false) :
      EntryIssue tasks index name "task.name.invalid"
        ("task name `" ++ name ++ "` must be a valid OWS identifier")
  | duplicate (hName : name ∈ (scopeNames tasks).take index) :
      EntryIssue tasks index name "task.name.duplicate"
        ("task name `" ++ name ++ "` is duplicated in this scope")
  | unreachable (missed : Missed tasks index) :
      EntryIssue tasks index name "flow.unreachable"
        ("task `" ++ name ++ "` cannot be reached from the scope entry")

/-- What may be wrong with a task by itself. The fields lead to the offending part of the
task, and the text is what the validator appends to its pointer of the task. -/
inductive OwnIssue : TaskDefinition → String → String → List String → String → Prop where
  | forIn {common : TaskDefinitionFields} {loop : ForLoopDefinition} {while_ : Option String}
      {body : TaskScope} (hIn : loop.in_.isEmpty) :
      OwnIssue (.for_ common loop while_ body) "for.in.required"
        "for loop must define an `in` collection" ["for", "in"] "/for/in"
  | switchEmpty {common : TaskDefinitionFields} :
      OwnIssue (.switch common []) "switch.empty" "switch must define at least one case" [] ""
  | multipleDefault {common : TaskDefinitionFields}
      {cases_ : List (List (String × SwitchCaseDefinition))} {raw index : Nat} {name : String}
      {case : SwitchCaseDefinition} (placed : Placed cases_ raw index (name, case))
      (hWhen : case.when = none)
      (hBefore : ∃ other ∈ (cases_.filterMap List.head?).take index, other.2.when = none) :
      OwnIssue (.switch common cases_) "switch.multiple-default"
        "switch may only have one default case" ["switch", toString raw, name] ("/" ++ name)
  | thenRequired {common : TaskDefinitionFields}
      {cases_ : List (List (String × SwitchCaseDefinition))} {raw index : Nat} {name : String}
      {case : SwitchCaseDefinition} (placed : Placed cases_ raw index (name, case))
      (hThen : case.then_ = none) :
      OwnIssue (.switch common cases_) "switch.then.required"
        "switch case must define a `then` directive" ["switch", toString raw, name] ("/" ++ name)

/-- What may be wrong with a task of a scope. -/
inductive TaskIssue (tasks : TaskScope) (task : TaskDefinition) :
    String → String → List String → String → Prop where
  | then_ {target : String} (hThen : task.common.then_ = some target)
      (hTarget : ¬ TargetIn tasks target) :
      TaskIssue tasks task "flow.unknown-target"
        ("flow directive `" ++ target ++ "` does not match any task in scope") ["then"] "/then"
  | own {code message : String} {fields : List String} {suffix : String}
      (hOwn : OwnIssue task code message fields suffix) :
      TaskIssue tasks task code message fields suffix

/-- Where an issue belongs: its task, the way to it in the definition and from there to the
offending part, and what the compiler calls the task. -/
structure Site where
  entry : String × TaskDefinition
  taskPlace : List String
  fields : List String
  reference : String

def Site.place (site : Site) : List String := site.taskPlace ++ site.fields

def issueAt (pointer code message : String) : ValidationIssue :=
  (ValidationIssue.new code message).at_ pointer

/-- The issues that are reported of a scope, at their sites. The scope has a pointer for the
validator, a base reference for the compiler and a place in the definition. -/
inductive Reports : TaskScope → String → String → List String → ValidationIssue → Site → Prop where
  | entry {tasks : TaskScope} {pointer base : String} {place : List String} {raw index : Nat}
      {name : String} {task : TaskDefinition} {code message : String}
      (placed : Placed tasks raw index (name, task))
      (hIssue : EntryIssue tasks index name code message) :
      Reports tasks pointer base place
        (issueAt (pointer ++ "/" ++ toString index ++ "/" ++ name) code message)
        { entry := (name, task), taskPlace := place ++ [toString raw, name], fields := []
          reference := base ++ "/" ++ toString index ++ "/" ++ name }
  | task {tasks : TaskScope} {pointer base : String} {place : List String} {raw index : Nat}
      {name : String} {task : TaskDefinition} {code message : String} {fields : List String}
      {suffix : String} (placed : Placed tasks raw index (name, task))
      (hIssue : TaskIssue tasks task code message fields suffix) :
      Reports tasks pointer base place
        (issueAt (pointer ++ "/" ++ name ++ suffix) code message)
        { entry := (name, task), taskPlace := place ++ [toString raw, name], fields
          reference := base ++ "/" ++ toString index ++ "/" ++ name }
  | inner {tasks : TaskScope} {pointer base : String} {place : List String} {raw index : Nat}
      {name : String} {task : TaskDefinition} {fields : List String} {body : TaskScope}
      {issue : ValidationIssue} {site : Site} (placed : Placed tasks raw index (name, task))
      (hInner : (fields, body) ∈ task.subscopes)
      (hIssue : Reports body (pointer ++ "/" ++ name ++ slashed fields)
        (base ++ "/" ++ toString index ++ "/" ++ name ++ slashed fields)
        (place ++ [toString raw, name] ++ fields) issue site) :
      Reports tasks pointer base place issue site

section Local

variable {tasks : TaskScope} {task : TaskDefinition} {pointer : String} {issue : ValidationIssue}

theorem Placed.le {α : Type} {maps : List (List α)} {raw index : Nat} {entry : α}
    (placed : Placed maps raw index entry) : index ≤ raw := by
  rw [placed.index]
  exact (List.length_filterMap_le _ _).trans (List.length_take_le raw maps)

/-- The entries that count, in order: the one at a place is the head of a map that is not empty, and
the place is the number of such maps before it. -/
theorem getElem?_heads_iff {α : Type} {maps : List (List α)} {index : Nat} {entry : α} :
    (maps.filterMap List.head?)[index]? = some entry ↔ ∃ raw, Placed maps raw index entry := by
  induction maps generalizing index with
  | nil =>
      constructor
      · intro h
        cases h
      · rintro ⟨raw, placed⟩
        cases placed.head
  | cons map rest ih =>
      have hLater : ∀ {raw k : Nat},
        Placed (map :: rest) (raw + 1) (k + map.head?.toList.length) entry ↔
          Placed rest raw k entry := by
        intro raw k
        have hCount : ((map :: rest).take (raw + 1)).filterMap List.head? =
            map.head?.toList ++ (rest.take raw).filterMap List.head? := by
          rw [List.take_succ_cons, List.filterMap_cons]
          cases map.head? <;> rfl
        constructor
        · rintro ⟨hHead, hIndex⟩
          rw [hCount, List.length_append] at hIndex
          exact ⟨hHead, by omega⟩
        · rintro ⟨hHead, hIndex⟩
          refine ⟨hHead, ?_⟩
          rw [hCount, List.length_append, hIndex, Nat.add_comm]
      cases map with
      | nil =>
          rw [List.filterMap_cons]
          refine Iff.trans ih ⟨fun ⟨raw, placed⟩ => ⟨raw + 1, hLater.mpr placed⟩, ?_⟩
          rintro ⟨raw, placed⟩
          cases raw with
          | zero => cases placed.head
          | succ raw => exact ⟨raw, hLater.mp placed⟩
      | cons head others =>
          rw [List.filterMap_cons]
          cases index with
          | zero =>
              constructor
              · intro h
                exact ⟨0, h, rfl⟩
              · rintro ⟨raw, placed⟩
                cases raw with
                | zero => exact placed.head
                | succ raw => cases placed.index
          | succ index =>
              refine Iff.trans ih ⟨fun ⟨raw, placed⟩ => ⟨raw + 1, hLater.mpr placed⟩, ?_⟩
              rintro ⟨raw, placed⟩
              cases raw with
              | zero => cases placed.index
              | succ raw => exact ⟨raw, hLater.mp placed⟩

/-- The issues about names: a name that is no identifier, and one that has been seen before, each
reported at its own place. The induction is on the names. -/
theorem mem_nameIssues {first : Nat} {seen names : List String} :
    issue ∈ nameIssues pointer first seen names ↔ ∃ k name, names[k]? = some name ∧
      ((isIdentifier name = false ∧
          issue = issueAt (pointer ++ "/" ++ toString (first + k) ++ "/" ++ name) "task.name.invalid"
            ("task name `" ++ name ++ "` must be a valid OWS identifier")) ∨
        ((name ∈ seen ∨ name ∈ names.take k) ∧
          issue = issueAt (pointer ++ "/" ++ toString (first + k) ++ "/" ++ name) "task.name.duplicate"
            ("task name `" ++ name ++ "` is duplicated in this scope"))) := by
  induction names generalizing first seen with
  | nil => simp [nameIssues]
  | cons head rest ih =>
      rw [nameIssues, List.mem_append, List.mem_append, ih]
      constructor
      · rintro ((hInvalid | hAgain) | ⟨k, name, hName, hIssue⟩)
        · split at hInvalid
          · cases hInvalid
          · rename_i hHead
            exact ⟨0, head, rfl, Or.inl ⟨by simpa using hHead, List.mem_singleton.mp hInvalid⟩⟩
        · split at hAgain
          · rename_i hSeen
            exact ⟨0, head, rfl, Or.inr ⟨Or.inl hSeen, List.mem_singleton.mp hAgain⟩⟩
          · cases hAgain
        · refine ⟨k + 1, name, hName, ?_⟩
          have hPlace : first + 1 + k = first + (k + 1) := by omega
          rw [hPlace] at hIssue
          refine hIssue.imp id (And.imp_left fun hSeen => ?_)
          rw [List.take_succ_cons, List.mem_cons]
          rcases hSeen with hSeen | hBefore
          · rcases List.mem_cons.mp hSeen with hHead | hSeen
            · exact Or.inr (Or.inl hHead)
            · exact Or.inl hSeen
          · exact Or.inr (Or.inr hBefore)
      · rintro ⟨k, name, hName, hIssue⟩
        cases k with
        | zero =>
            cases hName
            rcases hIssue with ⟨hInvalid, rfl⟩ | ⟨hSeen, rfl⟩
            · refine Or.inl (Or.inl ?_)
              rw [hInvalid]
              exact List.mem_singleton.mpr rfl
            · refine Or.inl (Or.inr ?_)
              rw [if_pos (hSeen.resolve_right List.not_mem_nil)]
              exact List.mem_singleton.mpr rfl
        | succ k =>
            refine Or.inr ⟨k, name, hName, ?_⟩
            have hPlace : first + (k + 1) = first + 1 + k := by omega
            rw [hPlace] at hIssue
            refine hIssue.imp id (And.imp_left fun hSeen => ?_)
            rw [List.take_succ_cons, List.mem_cons] at hSeen
            rw [List.mem_cons]
            rcases hSeen with hSeen | hHead | hBefore
            · exact Or.inl (Or.inr hSeen)
            · exact Or.inl (Or.inl hHead)
            · exact Or.inr hBefore

theorem missed_iff {index : Nat} (hIndex : index < (scopeNames tasks).length) :
    Missed tasks index ↔ index ∉ reachableTasks tasks ∧
      ¬ ∃ entry ∈ scopeEntries tasks, isTry entry.2 = true := by
  have hStart : 0 < (scopeNames tasks).length := by omega
  have hPath : index ∈ reachableTasks tasks ↔ Relation.ReflTransGen
      (fun a b => b ∈ scopeEdges tasks a ∧ b < (scopeNames tasks).length) 0 index :=
    ⟨scopePath_of_mem_reachableTasks, mem_reachableTasks_of_path hStart⟩
  rw [hPath]
  constructor
  · rintro ⟨hNoPath, hNoTry⟩
    refine ⟨hNoPath, fun ⟨entry, hEntry, hTry⟩ => ?_⟩
    rw [hNoTry entry hEntry] at hTry
    cases hTry
  · rintro ⟨hNoPath, hNoTry⟩
    exact ⟨hNoPath, fun entry hEntry => by simpa using fun hTry => hNoTry ⟨entry, hEntry, hTry⟩⟩

/-- The issues about tasks that cannot be reached: one for each task that the exploration has
missed, under its index and its name. -/
theorem mem_validateReachability : issue ∈ validateReachability tasks pointer ↔
    ∃ index name, (scopeNames tasks)[index]? = some name ∧ Missed tasks index ∧
      issue = issueAt (pointer ++ "/" ++ toString index ++ "/" ++ name) "flow.unreachable"
        ("task `" ++ name ++ "` cannot be reached from the scope entry") := by
  have hMissed : ∀ {index name}, (scopeNames tasks)[index]? = some name →
      (Missed tasks index ↔ index ∉ reachableTasks tasks ∧
        ¬ ∃ entry ∈ scopeEntries tasks, isTry entry.2 = true) :=
    fun hName => missed_iff (List.getElem?_eq_some_iff.mp hName).1
  unfold validateReachability
  dsimp only
  cases hEmpty : (scopeNames tasks).isEmpty with
  | true =>
      rw [List.isEmpty_iff] at hEmpty
      simp [hEmpty]
  | false =>
      rw [if_neg Bool.false_ne_true, List.mem_filterMap]
      constructor
      · rintro ⟨⟨name, index⟩, hMem, hSome⟩
        have hName := List.mem_zipIdx_iff_getElem?.mp hMem
        dsimp only at hSome
        split at hSome
        · rename_i hFound
          refine ⟨index, name, hName, (hMissed hName).mpr ⟨hFound.1, ?_⟩,
            (Option.some.inj hSome).symm⟩
          rw [← hasRecoveryScope_iff]
          exact fun hTry => Bool.false_ne_true (((Bool.not_eq_true' _).mp hFound.2).symm.trans hTry)
        · cases hSome
      · rintro ⟨index, name, hName, missed, rfl⟩
        obtain ⟨hFound, hTry⟩ := (hMissed hName).mp missed
        rw [← hasRecoveryScope_iff] at hTry
        exact ⟨(name, index), List.mem_zipIdx_iff_getElem?.mpr hName,
          if_pos ⟨hFound, (Bool.not_eq_true' _).mpr (Bool.not_eq_true _ ▸ hTry)⟩⟩

/-- The issue about a directive: its target is neither a keyword nor a task of the scope. -/
theorem mem_thenIssues : issue ∈ thenIssues (scopeNames tasks) task pointer ↔
    ∃ target, task.common.then_ = some target ∧ ¬ TargetIn tasks target ∧
      issue = issueAt (pointer ++ "/then") "flow.unknown-target"
        ("flow directive `" ++ target ++ "` does not match any task in scope") := by
  rw [thenIssues, commonThen]
  cases hThen : task.common.then_ with
  | none => simp
  | some target =>
      dsimp only
      by_cases hTarget : TargetIn tasks target
      · have hNone : thenIssues (scopeNames tasks) task pointer = [] := by
          refine thenIssues_eq_nil_iff.mpr fun other hOther => ?_
          cases hThen.symm.trans hOther
          exact hTarget
        rw [thenIssues, commonThen, hThen] at hNone
        dsimp only at hNone
        rw [hNone]
        constructor
        · intro h
          cases h
        · rintro ⟨other, hOther, hNot, _⟩
          cases hOther
          exact absurd hTarget hNot
      · have hNot := hTarget
        simp only [TargetIn, not_or] at hNot
        obtain ⟨hContinue, hExit, hEnd, hName⟩ := hNot
        rw [if_neg (by simp [hContinue, hExit, hEnd]), if_neg hName, List.mem_singleton]
        constructor
        · rintro rfl
          exact ⟨target, rfl, hTarget, rfl⟩
        · rintro ⟨other, hOther, _, rfl⟩
          cases hOther
          rfl

/-- The issues about the cases of a switch: a default that is not the first one, and a directive
without a text. The induction is on the cases. -/
theorem mem_switchCaseIssues {defaultSeen : Bool} {entries : List (String × SwitchCaseDefinition)} :
    issue ∈ switchCaseIssues pointer defaultSeen entries ↔ ∃ k name case,
      entries[k]? = some (name, case) ∧
        ((case.when = none ∧ (defaultSeen = true ∨ ∃ other ∈ entries.take k, other.2.when = none) ∧
          issue = issueAt (pointer ++ "/" ++ name) "switch.multiple-default"
            "switch may only have one default case") ∨
        (case.then_ = none ∧ issue = issueAt (pointer ++ "/" ++ name) "switch.then.required"
            "switch case must define a `then` directive")) := by
  induction entries generalizing defaultSeen with
  | nil => simp [switchCaseIssues]
  | cons head rest ih =>
      obtain ⟨first, case⟩ := head
      rw [switchCaseIssues, List.mem_append, List.mem_append, ih]
      constructor
      · rintro ((hDefault | hThen) | ⟨k, name, other, hCase, hIssue⟩)
        · split at hDefault
          · rename_i hSeen
            exact ⟨0, first, case, rfl, Or.inl ⟨Option.isNone_iff_eq_none.mp hSeen.1, Or.inl hSeen.2,
              List.mem_singleton.mp hDefault⟩⟩
          · cases hDefault
        · split at hThen
          · rename_i hNone
            exact ⟨0, first, case, rfl, Or.inr ⟨Option.isNone_iff_eq_none.mp hNone,
              List.mem_singleton.mp hThen⟩⟩
          · cases hThen
        · refine ⟨k + 1, name, other, hCase, hIssue.imp ?_ id⟩
          rintro ⟨hWhen, hSeen, hIs⟩
          refine ⟨hWhen, ?_, hIs⟩
          rw [Bool.or_eq_true, Option.isNone_iff_eq_none] at hSeen
          simp only [List.take_succ_cons, List.mem_cons, exists_eq_or_imp]
          tauto
      · rintro ⟨k, name, other, hCase, hIssue⟩
        cases k with
        | zero =>
            cases hCase
            rcases hIssue with ⟨hWhen, hSeen, rfl⟩ | ⟨hThen, rfl⟩
            · refine Or.inl (Or.inl ?_)
              have hBefore : defaultSeen = true := by simpa using hSeen
              rw [hWhen, hBefore]
              exact List.mem_singleton.mpr rfl
            · refine Or.inl (Or.inr ?_)
              rw [hThen]
              exact List.mem_singleton.mpr rfl
        | succ k =>
            refine Or.inr ⟨k, name, other, hCase, hIssue.imp ?_ id⟩
            rintro ⟨hWhen, hSeen, hIs⟩
            refine ⟨hWhen, ?_, hIs⟩
            simp only [List.take_succ_cons, List.mem_cons, exists_eq_or_imp] at hSeen
            rw [Bool.or_eq_true, Option.isNone_iff_eq_none]
            tauto

/-- The issues about a switch by itself are those of its cases and the one about having none, each
reported under the place of the task. -/
theorem mem_validateSwitch {cases_ : List (List (String × SwitchCaseDefinition))}
    (common : TaskDefinitionFields) : issue ∈ validateSwitch cases_ pointer ↔
      ∃ code message fields suffix, OwnIssue (.switch common cases_) code message fields suffix ∧
        issue = issueAt (pointer ++ suffix) code message := by
  unfold validateSwitch
  cases cases_ with
  | nil =>
      constructor
      · intro h
        refine ⟨_, _, _, _, .switchEmpty, ?_⟩
        rw [String.append_empty]
        exact List.mem_singleton.mp h
      · rintro ⟨_, _, _, _, own, rfl⟩
        cases own with
        | switchEmpty =>
            rw [String.append_empty]
            exact List.mem_singleton.mpr rfl
        | multipleDefault placed => cases placed.head
        | thenRequired placed => cases placed.head
  | cons first rest =>
      rw [if_neg (by simp), mem_switchCaseIssues]
      constructor
      · rintro ⟨k, name, case, hCase, hIssue⟩
        obtain ⟨raw, placed⟩ := getElem?_heads_iff.mp hCase
        rcases hIssue with ⟨hWhen, hBefore, rfl⟩ | ⟨hThen, rfl⟩
        · refine ⟨_, _, _, _, .multipleDefault placed hWhen (by simpa using hBefore), ?_⟩
          rw [String.append_assoc]
        · refine ⟨_, _, _, _, .thenRequired placed hThen, ?_⟩
          rw [String.append_assoc]
      · rintro ⟨_, _, _, _, own, rfl⟩
        cases own with
        | multipleDefault placed hWhen hBefore =>
            refine ⟨_, _, _, getElem?_heads_iff.mpr ⟨_, placed⟩, Or.inl ⟨hWhen, Or.inr hBefore, ?_⟩⟩
            rw [String.append_assoc]
        | thenRequired placed hThen =>
            refine ⟨_, _, _, getElem?_heads_iff.mpr ⟨_, placed⟩, Or.inr ⟨hThen, ?_⟩⟩
            rw [String.append_assoc]

/-- The issues of a task by itself, and those of the scopes within it. -/
theorem mem_validateNested : issue ∈ validateNested pointer task ↔
    (∃ code message fields suffix, OwnIssue task code message fields suffix ∧
      issue = issueAt (pointer ++ suffix) code message) ∨
    ∃ fields body, (fields, body) ∈ task.subscopes ∧
      issue ∈ validateTaskScope body (pointer ++ slashed fields) := by
  have hPlain : ∀ {task : TaskDefinition}, (∀ {code message fields suffix},
      ¬ OwnIssue task code message fields suffix) →
        ∀ p : Prop, ((∃ code message fields suffix, OwnIssue task code message fields suffix ∧
          issue = issueAt (pointer ++ suffix) code message) ∨ p) ↔ p := by
    intro task hNone p
    refine or_iff_right ?_
    rintro ⟨_, _, _, _, own, _⟩
    exact hNone own
  cases task with
  | do_ common body =>
      rw [hPlain (by intro _ _ _ _ own; cases own), validateNested]
      simp [TaskDefinition.subscopes, slashed, validateTaskScope]
  | for_ common loop while_ body =>
      rw [validateNested, List.mem_append]
      apply or_congr
      · constructor
        · intro h
          split at h
          · rename_i hIn
            exact ⟨_, _, _, _, .forIn hIn, List.mem_singleton.mp h⟩
          · cases h
        · rintro ⟨_, _, _, _, own, rfl⟩
          cases own with
          | forIn hIn =>
              rw [if_pos hIn]
              exact List.mem_singleton.mpr rfl
      · simp [TaskDefinition.subscopes, slashed, validateTaskScope]
  | fork common branches compete =>
      rw [hPlain (by intro _ _ _ _ own; cases own), validateNested]
      simp [TaskDefinition.subscopes, slashed, validateTaskScope]
  | try_ common body catch_ handler =>
      rw [hPlain (by intro _ _ _ _ own; cases own), validateNested]
      cases handler <;>
        simp [TaskDefinition.subscopes, slashed, validateTaskScope, validateHandler, or_and_right,
          exists_or]
  | switch common cases_ =>
      rw [validateNested, mem_validateSwitch common]
      simp [TaskDefinition.subscopes]
  | _ =>
      rw [hPlain (by intro _ _ _ _ own; cases own), validateNested]
      simp [TaskDefinition.subscopes]

theorem mem_validateEntries {targets : List String} :
    issue ∈ validateEntries targets pointer tasks ↔ ∃ entry ∈ scopeEntries tasks,
      issue ∈ thenIssues targets entry.2 (pointer ++ "/" ++ entry.1) ∨
        issue ∈ validateNested (pointer ++ "/" ++ entry.1) entry.2 := by
  induction tasks with
  | nil => simp [validateEntries, scopeEntries]
  | cons named rest ih =>
      rw [validateEntries, List.mem_append, ih]
      cases named with
      | nil =>
          rw [validateEntry]
          exact or_iff_right List.not_mem_nil
      | cons first others =>
          have hEntries :
              scopeEntries ((first :: others) :: rest) = first :: scopeEntries rest := rfl
          rw [validateEntry, hEntries, List.mem_append]
          simp only [List.mem_cons, exists_eq_or_imp]

/-- The issues of the tasks of a scope: those of each task by itself, and those of the scopes within
it, at the place of the task. -/
theorem mem_validateEntries_iff :
    issue ∈ validateEntries (scopeNames tasks) pointer tasks ↔
      ∃ raw index name task, Placed tasks raw index (name, task) ∧
        ((∃ code message fields suffix, TaskIssue tasks task code message fields suffix ∧
          issue = issueAt (pointer ++ "/" ++ name ++ suffix) code message) ∨
        ∃ fields body, (fields, body) ∈ task.subscopes ∧
          issue ∈ validateTaskScope body (pointer ++ "/" ++ name ++ slashed fields)) := by
  have hTask : ∀ (task : TaskDefinition) (place : String),
      (issue ∈ thenIssues (scopeNames tasks) task place ∨ issue ∈ validateNested place task) ↔
        ((∃ code message fields suffix, TaskIssue tasks task code message fields suffix ∧
          issue = issueAt (place ++ suffix) code message) ∨
        ∃ fields body, (fields, body) ∈ task.subscopes ∧
          issue ∈ validateTaskScope body (place ++ slashed fields)) := by
    intro task place
    rw [mem_thenIssues, mem_validateNested, ← or_assoc]
    refine or_congr_left ⟨?_, ?_⟩
    · rintro (⟨target, hThen, hTarget, hIs⟩ | ⟨_, _, _, _, own, hIs⟩)
      · exact ⟨_, _, _, _, .then_ hThen hTarget, hIs⟩
      · exact ⟨_, _, _, _, .own own, hIs⟩
    · rintro ⟨_, _, _, _, hIssue, hIs⟩
      cases hIssue with
      | then_ hThen hTarget => exact Or.inl ⟨_, hThen, hTarget, hIs⟩
      | own own => exact Or.inr ⟨_, _, _, _, own, hIs⟩
  rw [mem_validateEntries]
  constructor
  · rintro ⟨⟨name, task⟩, hEntry, hIssue⟩
    obtain ⟨index, hIndex⟩ := List.mem_iff_getElem?.mp hEntry
    obtain ⟨raw, placed⟩ := getElem?_heads_iff.mp hIndex
    exact ⟨raw, index, name, task, placed, (hTask _ _).mp hIssue⟩
  · rintro ⟨raw, index, name, task, placed, hIssue⟩
    have hEntry := List.mem_of_getElem? (getElem?_heads_iff.mpr ⟨raw, placed⟩)
    exact ⟨(name, task), hEntry, (hTask _ _).mpr hIssue⟩

/-- The issues of a scope: those of its entries, and those of its tasks. -/
theorem mem_validateTaskScope : issue ∈ validateTaskScope tasks pointer ↔
    (∃ raw index name task code message, Placed tasks raw index (name, task) ∧
      EntryIssue tasks index name code message ∧
        issue = issueAt (pointer ++ "/" ++ toString index ++ "/" ++ name) code message) ∨
      issue ∈ validateEntries (scopeNames tasks) pointer tasks := by
  have hPlaced : ∀ {index name}, (scopeNames tasks)[index]? = some name →
      ∃ raw task, Placed tasks raw index (name, task) := by
    intro index name hName
    rw [scopeNames, List.getElem?_map, Option.map_eq_some_iff] at hName
    obtain ⟨entry, hEntry, rfl⟩ := hName
    obtain ⟨raw, placed⟩ := getElem?_heads_iff.mp hEntry
    exact ⟨raw, entry.2, placed⟩
  have hNamed : ∀ {raw index name task}, Placed tasks raw index (name, task) →
      (scopeNames tasks)[index]? = some name := by
    intro raw index name task placed
    have hEntry := getElem?_heads_iff.mpr ⟨raw, placed⟩
    rw [scopeNames, List.getElem?_map]
    exact congrArg (Option.map Prod.fst) hEntry
  rw [validateTaskScope, scopeIssues, List.mem_append, List.mem_append, mem_nameIssues,
    mem_validateReachability]
  constructor
  · rintro ((⟨index, name, hName, hIssue⟩ | hIssue) | ⟨index, name, hName, missed, hIs⟩)
    · obtain ⟨raw, task, placed⟩ := hPlaced hName
      rw [Nat.zero_add] at hIssue
      rcases hIssue with ⟨hInvalid, hIs⟩ | ⟨hSeen, hIs⟩
      · exact Or.inl ⟨raw, index, name, task, _, _, placed, .invalid hInvalid, hIs⟩
      · exact Or.inl ⟨raw, index, name, task, _, _, placed,
          .duplicate (hSeen.resolve_left List.not_mem_nil), hIs⟩
    · exact Or.inr hIssue
    · obtain ⟨raw, task, placed⟩ := hPlaced hName
      exact Or.inl ⟨raw, index, name, task, _, _, placed, .unreachable missed, hIs⟩
  · rintro (⟨raw, index, name, task, _, _, placed, hIssue, rfl⟩ | hIssue)
    · have hName := hNamed placed
      cases hIssue with
      | invalid hInvalid =>
          refine Or.inl (Or.inl ⟨index, name, hName, Or.inl ⟨hInvalid, ?_⟩⟩)
          rw [Nat.zero_add]
      | duplicate hSeen =>
          refine Or.inl (Or.inl ⟨index, name, hName, Or.inr ⟨Or.inr hSeen, ?_⟩⟩)
          rw [Nat.zero_add]
      | unreachable missed => exact Or.inr ⟨index, name, hName, missed, rfl⟩
    · exact Or.inl (Or.inr hIssue)

end Local

section Sites

variable {tasks : TaskScope} {pointer base : String} {place : List String}
  {issue : ValidationIssue} {site : Site}

/-- What is reported at a site is an issue of the validator. -/
theorem Reports.mem (reports : Reports tasks pointer base place issue site) :
    issue ∈ validateTaskScope tasks pointer := by
  induction reports with
  | entry placed hIssue =>
      exact mem_validateTaskScope.mpr (Or.inl ⟨_, _, _, _, _, _, placed, hIssue, rfl⟩)
  | task placed hIssue =>
      refine mem_validateTaskScope.mpr (Or.inr (mem_validateEntries_iff.mpr ?_))
      exact ⟨_, _, _, _, placed, Or.inl ⟨_, _, _, _, hIssue, rfl⟩⟩
  | inner placed hInner _ ih =>
      refine mem_validateTaskScope.mpr (Or.inr (mem_validateEntries_iff.mpr ?_))
      exact ⟨_, _, _, _, placed, Or.inr ⟨_, _, hInner, ih⟩⟩

theorem Placed.mem {α : Type} {maps : List (List α)} {raw index : Nat} {entry : α}
    (placed : Placed maps raw index entry) : ∃ map ∈ maps, entry ∈ map := by
  obtain ⟨map, hMap, hHead⟩ := Option.bind_eq_some_iff.mp placed.head
  exact ⟨map, List.mem_of_getElem? hMap, List.mem_of_mem_head? hHead⟩

theorem sizeOf_task_lt {raw index : Nat} {name : String} {task : TaskDefinition}
    (placed : Placed tasks raw index (name, task)) : sizeOf task < sizeOf tasks := by
  obtain ⟨map, hMap, hEntry⟩ := placed.mem
  have hOuter := List.sizeOf_lt_of_mem hMap
  have hInner := List.sizeOf_lt_of_mem hEntry
  have hPair : sizeOf (name, task) = 1 + sizeOf name + sizeOf task := rfl
  omega

/-- A scope within a task is smaller than the task, which is what the recursion into it rests on. -/
theorem sizeOf_subscope_lt {task : TaskDefinition} {fields : List String} {body : TaskScope}
    (hInner : (fields, body) ∈ task.subscopes) : sizeOf body < sizeOf task := by
  cases task with
  | try_ common tasks catch_ handler =>
      rcases List.mem_cons.mp hInner with hTasks | hHandler
      · cases hTasks
        rw [TaskDefinition.try_.sizeOf_spec]
        omega
      · obtain ⟨scope, hScope, hEq⟩ := List.mem_map.mp hHandler
        cases hEq
        rw [Option.mem_toList.mp hScope, TaskDefinition.try_.sizeOf_spec, Option.some.sizeOf_spec]
        omega
  | do_ common tasks =>
      cases List.mem_singleton.mp hInner
      rw [TaskDefinition.do_.sizeOf_spec]
      omega
  | for_ common loop while_ tasks =>
      cases List.mem_singleton.mp hInner
      rw [TaskDefinition.for_.sizeOf_spec]
      omega
  | fork common branches compete =>
      cases List.mem_singleton.mp hInner
      rw [TaskDefinition.fork.sizeOf_spec]
      omega
  | _ => cases hInner

/-- By recursion on the scope: every issue of the validator has a site. -/
theorem exists_site (tasks : TaskScope) (pointer base : String) (place : List String)
    {issue : ValidationIssue} (hIssue : issue ∈ validateTaskScope tasks pointer) :
    ∃ site, Reports tasks pointer base place issue site := by
  rcases mem_validateTaskScope.mp hIssue with
    ⟨raw, index, name, task, code, message, placed, hEntry, rfl⟩ | hEntries
  · exact ⟨_, .entry placed hEntry⟩
  · obtain ⟨raw, index, name, task, placed, hTask | ⟨fields, body, hInner, hBody⟩⟩ :=
      mem_validateEntries_iff.mp hEntries
    · obtain ⟨code, message, fields, suffix, hTask, rfl⟩ := hTask
      exact ⟨_, .task placed hTask⟩
    · have hSmaller : sizeOf body < sizeOf tasks :=
        (sizeOf_subscope_lt hInner).trans (sizeOf_task_lt placed)
      obtain ⟨site, reports⟩ := exists_site body _
        (base ++ "/" ++ toString index ++ "/" ++ name ++ slashed fields)
        (place ++ [toString raw, name] ++ fields) hBody
      exact ⟨site, .inner placed hInner reports⟩
termination_by sizeOf tasks

/-- The sites are those of the issues which the validator reports of a scope. -/
theorem mem_validateTaskScope_iff_reports : issue ∈ validateTaskScope tasks pointer ↔
    ∃ site, Reports tasks pointer base place issue site :=
  ⟨exists_site tasks pointer base place, fun ⟨_, reports⟩ => reports.mem⟩

end Sites

end OwsRuntime
