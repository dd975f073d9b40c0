import OwsRuntime.Dsl.Definition
import Mathlib.Data.List.Basic

/-! Semantic validation of workflow definitions: document fields, task names,
flow targets and the reachability of tasks within a scope. -/
namespace OwsRuntime

/-- A validation issue. The pointer names the offending component. -/
structure ValidationIssue where
  code : String
  message : String
  pointer : Option String
deriving DecidableEq, Repr

def ValidationIssue.new (code message : String) : ValidationIssue :=
  { code, message, pointer := none }

def ValidationIssue.at_ (issue : ValidationIssue) (pointer : String) : ValidationIssue :=
  { issue with pointer := some pointer }

/-- The name and the task of each entry of a scope. Empty entries are skipped. -/
def scopeEntries (tasks : TaskScope) : List (String × TaskDefinition) :=
  tasks.filterMap List.head?

def scopeNames (tasks : TaskScope) : List String := (scopeEntries tasks).map Prod.fst

def commonThen (task : TaskDefinition) : Option String := task.common.then_

def commonIf (task : TaskDefinition) : Option String := task.common.if_

/-- The pattern `^[A-Za-z_][A-Za-z0-9_-]*$`. -/
def isIdentifier (value : String) : Bool :=
  match value.toList with
  | [] => false
  | c :: rest =>
      (isAsciiLetter c || c = '_') &&
        rest.all fun d => isAsciiLetter d || isAsciiDigit d || d = '_' || d = '-'
where
  isAsciiLetter (c : Char) : Bool := ('A' ≤ c ∧ c ≤ 'Z') ∨ ('a' ≤ c ∧ c ≤ 'z')
  isAsciiDigit (c : Char) : Bool := '0' ≤ c ∧ c ≤ '9'

/-- The issues of the names of a scope, `seen` being the names before them. -/
def nameIssues (pointer : String) : Nat → List String → List String → List ValidationIssue
  | _, _, [] => []
  | index, seen, name :: rest =>
      let place := pointer ++ "/" ++ toString index ++ "/" ++ name
      (if isIdentifier name then []
        else [(ValidationIssue.new "task.name.invalid"
          ("task name `" ++ name ++ "` must be a valid OWS identifier")).at_ place]) ++
      (if name ∈ seen then
        [(ValidationIssue.new "task.name.duplicate"
          ("task name `" ++ name ++ "` is duplicated in this scope")).at_ place]
        else []) ++
      nameIssues pointer (index + 1) (name :: seen) rest

/-- The issue of a task's own flow directive. -/
def thenIssues (targets : List String) (task : TaskDefinition) (pointer : String) :
    List ValidationIssue :=
  match commonThen task with
  | none => []
  | some other =>
      if other = "continue" ∨ other = "exit" ∨ other = "end" then []
      else if other ∈ targets then []
      else [(ValidationIssue.new "flow.unknown-target"
        ("flow directive `" ++ other ++ "` does not match any task in scope")).at_
          (pointer ++ "/then")]

/-- The edges which a flow directive adds to the graph of a scope. -/
def addEdge (names : List String) (current : Nat) (then_ : String) : List Nat :=
  if then_ = "continue" then [current + 1]
  else if then_ = "exit" ∨ then_ = "end" then []
  else (names.idxOf? then_).toList

/-- The directives of the cases of a switch task. `none` is a case without one. -/
def switchDirectives : TaskDefinition → List (Option String)
  | .switch _ cases => (cases.filterMap List.head?).map fun case => case.2.then_
  | _ => []

def isSwitch : TaskDefinition → Bool
  | .switch .. => true
  | _ => false

def isTry : TaskDefinition → Bool
  | .try_ .. => true
  | _ => false

/-- What the exploration pushes for one task of the graph, in order. -/
def reachabilityEdges (names : List String) (index : Nat) (task : TaskDefinition) : List Nat :=
  let thenEdges := match commonThen task with
    | some then_ => addEdge names index then_
    | none => []
  let guardEdges := if (commonIf task).isSome then [index + 1] else []
  let directives := switchDirectives task
  let caseEdges := (directives.filterMap id).flatMap (addEdge names index)
  let hasFallthrough := directives.any Option.isNone
  let noMatchEdges :=
    if isSwitch task ∧ !hasFallthrough ∧ (commonThen task).isNone then [index + 1] else []
  let explicit := (commonThen task).isSome || directives.any Option.isSome
  thenEdges ++ guardEdges ++ caseEdges ++ noMatchEdges ++ (if explicit then [] else [index + 1])

/-- The tasks found from the pending ones. Each round takes the last pending
index, and adds its edges when it is new. -/
def exploreScope (tasks : TaskScope) : Nat → List Nat → List Nat → List Nat
  | 0, reachable, _ => reachable
  | _ + 1, reachable, [] => reachable
  | fuel + 1, reachable, index :: pending =>
      let names := scopeNames tasks
      if names.length ≤ index ∨ index ∈ reachable then exploreScope tasks fuel reachable pending
      else
        match (tasks[index]?.bind List.head?) with
        | none => exploreScope tasks fuel (index :: reachable) pending
        | some (_, task) =>
            exploreScope tasks fuel (index :: reachable)
              ((reachabilityEdges names index task).reverse ++ pending)

/-- Rounds which the exploration of a scope can take: one for each push. -/
def explorationFuel (tasks : TaskScope) : Nat :=
  let names := scopeNames tasks
  2 + ((List.range names.length).map fun index =>
    match (tasks[index]?.bind List.head?) with
    | none => 0
    | some (_, task) => (reachabilityEdges names index task).length).sum

def reachableTasks (tasks : TaskScope) : List Nat :=
  exploreScope tasks (explorationFuel tasks) [] [0]

/-- The issues of the graph of a scope. -/
def validateReachability (tasks : TaskScope) (pointer : String) : List ValidationIssue :=
  let names := scopeNames tasks
  if names.isEmpty then []
  else
    let reachable := reachableTasks tasks
    let hasRecoveryScope := tasks.any fun entry =>
      match entry.head? with
      | some (_, task) => isTry task
      | none => false
    names.zipIdx.filterMap fun (name, index) =>
      if index ∉ reachable ∧ !hasRecoveryScope then
        some ((ValidationIssue.new "flow.unreachable"
          ("task `" ++ name ++ "` cannot be reached from the scope entry")).at_
            (pointer ++ "/" ++ toString index ++ "/" ++ name))
      else none

/-- The issues of the cases of a switch. `defaultSeen` tells whether a case
without a condition came before. -/
def switchCaseIssues (pointer : String) :
    Bool → List (String × SwitchCaseDefinition) → List ValidationIssue
  | _, [] => []
  | defaultSeen, (name, case) :: rest =>
      (if case.when.isNone ∧ defaultSeen then
        [(ValidationIssue.new "switch.multiple-default"
          "switch may only have one default case").at_ (pointer ++ "/" ++ name)]
        else []) ++
      (if case.then_.isNone then
        [(ValidationIssue.new "switch.then.required"
          "switch case must define a `then` directive").at_ (pointer ++ "/" ++ name)]
        else []) ++
      switchCaseIssues pointer (defaultSeen || case.when.isNone) rest

def validateSwitch (cases : List (List (String × SwitchCaseDefinition))) (pointer : String) :
    List ValidationIssue :=
  if cases.isEmpty then
    [(ValidationIssue.new "switch.empty" "switch must define at least one case").at_ pointer]
  else switchCaseIssues pointer false (cases.filterMap List.head?)

/-- The issues of a scope, given those of its tasks. -/
def scopeIssues (tasks : TaskScope) (pointer : String) (taskIssues : List ValidationIssue) :
    List ValidationIssue :=
  nameIssues pointer 0 [] (scopeNames tasks) ++ taskIssues ++ validateReachability tasks pointer

mutual

/-- The issues of the scopes nested in a task. -/
def validateNested (pointer : String) : TaskDefinition → List ValidationIssue
  | .do_ _ tasks =>
      scopeIssues tasks (pointer ++ "/do") (validateEntries (scopeNames tasks) (pointer ++ "/do") tasks)
  | .for_ _ loop _ tasks =>
      (if loop.in_.isEmpty then
        [(ValidationIssue.new "for.in.required" "for loop must define an `in` collection").at_
          (pointer ++ "/for/in")]
        else []) ++
      scopeIssues tasks (pointer ++ "/do") (validateEntries (scopeNames tasks) (pointer ++ "/do") tasks)
  | .fork _ branches _ =>
      scopeIssues branches (pointer ++ "/fork/branches")
        (validateEntries (scopeNames branches) (pointer ++ "/fork/branches") branches)
  | .try_ _ tasks _ handler =>
      scopeIssues tasks (pointer ++ "/try")
        (validateEntries (scopeNames tasks) (pointer ++ "/try") tasks) ++
      validateHandler (pointer ++ "/catch/do") handler
  | .switch _ cases => validateSwitch cases pointer
  | .call .. => []
  | .emit .. => []
  | .listen .. => []
  | .raise .. => []
  | .run .. => []
  | .set .. => []
  | .wait .. => []

def validateHandler (pointer : String) : Option TaskScope → List ValidationIssue
  | none => []
  | some tasks =>
      scopeIssues tasks pointer (validateEntries (scopeNames tasks) pointer tasks)

/-- The issues of the tasks of a scope. -/
def validateEntries (targets : List String) (pointer : String) :
    List (List (String × TaskDefinition)) → List ValidationIssue
  | [] => []
  | entry :: rest => validateEntry targets pointer entry ++ validateEntries targets pointer rest

def validateEntry (targets : List String) (pointer : String) :
    List (String × TaskDefinition) → List ValidationIssue
  | [] => []
  | (name, task) :: _ =>
      thenIssues targets task (pointer ++ "/" ++ name) ++
        validateNested (pointer ++ "/" ++ name) task

end

/-- Recursively validates a scope of tasks. -/
def validateTaskScope (tasks : TaskScope) (pointer : String) : List ValidationIssue :=
  scopeIssues tasks pointer (validateEntries (scopeNames tasks) pointer tasks)

def documentIssues (document : DocumentDefinition) : List ValidationIssue :=
  (if document.name.isEmpty then
    [(ValidationIssue.new "document.name.required" "workflow name must not be empty").at_
      "/document/name"] else []) ++
  (if isIdentifier document.name then [] else
    [(ValidationIssue.new "document.name.invalid"
      "workflow name must be a valid OWS identifier").at_ "/document/name"]) ++
  (if isIdentifier document.namespace_ then [] else
    [(ValidationIssue.new "document.namespace.invalid"
      "workflow namespace must be a valid OWS identifier").at_ "/document/namespace"]) ++
  (if document.version.isEmpty then
    [(ValidationIssue.new "document.version.required" "workflow version must not be empty").at_
      "/document/version"] else []) ++
  (if document.dsl.isEmpty then
    [(ValidationIssue.new "document.dsl.required" "DSL version must not be empty").at_
      "/document/dsl"]
  else if "1.".toList.isPrefixOf document.dsl.toList then []
  else [(ValidationIssue.new "document.dsl.unsupported"
    ("unsupported DSL version `" ++ document.dsl ++ "`")).at_ "/document/dsl"])

/-- Validates a workflow definition. It is valid when there are no issues. -/
def validate (definition : WorkflowDefinition) : List ValidationIssue :=
  documentIssues definition.document ++
  (if definition.do_.isEmpty then
    [(ValidationIssue.new "do.empty" "workflow must define at least one task").at_ "/do"]
    else []) ++
  validateTaskScope definition.do_ "/do"

end OwsRuntime
