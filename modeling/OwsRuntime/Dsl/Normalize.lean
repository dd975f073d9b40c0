import OwsRuntime.Core.Value

/-! Normalization of definitions, before they are decoded. The SDK model has no
default for `fork.compete`, and takes the collection of a loop as a string. The
keys of an object are unique, so that a field is changed wherever it is found. -/
namespace OwsRuntime

/-- Encode an inline collection of a loop as its JSON text. -/
def encodeIn (text : Value → String) : Map → Map
  | [] => []
  | ("in", .string s) :: rest => ("in", .string s) :: encodeIn text rest
  | ("in", collection) :: rest => ("in", .string (text collection)) :: encodeIn text rest
  | field :: rest => field :: encodeIn text rest

/-- The default of `fork.compete`. -/
def insertCompete (fork : Map) : Map :=
  if (fork.lookup "compete").isSome then fork else Map.insert "compete" (.bool false) fork

section Scopes

-- The text of an inline collection.
variable (text : Value → String)

mutual

/-- Normalize a task. -/
def normalizeScope : Value → Value
  | .object map => .object (normalizeFields map)
  | other => other

def normalizeFields : List (String × Value) → List (String × Value)
  | [] => []
  | (key, value) :: rest => (key, normalizeField key value) :: normalizeFields rest

def normalizeField (key : String) : Value → Value
  | .array tasks =>
      if key = "do" ∨ key = "try" then .array (normalizeTasks tasks) else .array tasks
  | .object map =>
      if key = "for" then .object (encodeIn text map)
      else if key = "catch" then .object (normalizeList "do" map)
      -- The branches are another field than the one which is inserted.
      else if key = "fork" then .object (insertCompete (normalizeList "branches" map))
      else .object map
  | other => other

/-- Normalize the tasks of a list that is a field of an object. -/
def normalizeList (list : String) : List (String × Value) → List (String × Value)
  | [] => []
  | (key, .array tasks) :: rest =>
      (key, if key = list then .array (normalizeTasks tasks) else .array tasks) ::
        normalizeList list rest
  | (key, other) :: rest => (key, other) :: normalizeList list rest

def normalizeTasks : List Value → List Value
  | [] => []
  | task :: rest => normalizeTask task :: normalizeTasks rest

/-- Normalize the tasks of one entry of a list. -/
def normalizeTask : Value → Value
  | .object map => .object (normalizeEntries map)
  | other => other

def normalizeEntries : List (String × Value) → List (String × Value)
  | [] => []
  | (name, task) :: rest => (name, normalizeScope task) :: normalizeEntries rest

end

/-- Apply the defaults which the SDK model does not express. -/
def normalizeDefinition (value : Value) : Value := normalizeScope text value

end Scopes

end OwsRuntime
