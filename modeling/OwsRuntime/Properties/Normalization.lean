import OwsRuntime.Core.Equality
import OwsRuntime.Dsl.Normalize

/-! Which tasks normalization reaches. It walks the lists `do`, `try`, `catch.do`
and `fork.branches` of a task; the compiler also takes tasks from the bodies of
listen iterators, from extensions and from reusable functions, and it knows no
loop, fork or try block of the document itself. -/
namespace OwsRuntime

/-- What a part of a document is taken for. -/
inductive Place where
  | definition
  | components
  | extensions
  | extensionEntry
  | extension
  | functions
  | tasks
  | entry
  | task
  | handler
  | fork
  | loop
  | collection
  | data
deriving DecidableEq

namespace Place

/-- The field of an object, as the compiler takes it. -/
def field (key : String) : Place → Place
  | definition => if key = "do" then tasks else if key = "use" then components else data
  | components =>
      if key = "extensions" then extensions else if key = "functions" then functions else data
  | extensionEntry => extension
  | extension => if key = "before" ∨ key = "after" then tasks else data
  | functions => task
  | entry => task
  | task =>
      if key = "do" ∨ key = "try" then tasks
      else if key = "catch" ∨ key = "foreach" then handler
      else if key = "fork" then fork
      else if key = "for" then loop
      else data
  | handler => if key = "do" then tasks else data
  | fork => if key = "branches" then tasks else data
  | loop => if key = "in" then collection else data
  | extensions => data
  | tasks => data
  | collection => data
  | data => data

/-- The field of an object, as normalization takes it. -/
def visited (key : String) (place : Place) : Place :=
  if place = task ∧ key = "foreach" then data else place.field key

def item : Place → Place
  | extensions => extensionEntry
  | tasks => entry
  | _ => data

end Place

section Reached

variable {π : Type} (field : String → π → π) (item : π → π)

/-- The parts of a value, with what they are taken for. -/
inductive Reached (place : π) (root : Value) : π → Value → Prop where
  | here : Reached place root place root
  | field {other : π} {map : Map} {key : String} {value : Value}
      (prior : Reached place root other (.object map)) (hField : (key, value) ∈ map) :
      Reached place root (field key other) value
  | item {other : π} {items : List Value} {value : Value}
      (prior : Reached place root other (.array items)) (hItem : value ∈ items) :
      Reached place root (item other) value

variable {field item} {P : π → Value → Prop} {place : π}

/-- What is reached from a part is reached from the whole. -/
theorem Reached.trans {middle last : π} {root value final : Value}
    (first : Reached field item place root middle value)
    (second : Reached field item middle value last final) :
    Reached field item place root last final := by
  induction second with
  | here => exact first
  | field _ hField ih => exact ih.field hField
  | item _ hItem ih => exact ih.item hItem

/-- From an object, what is reached is the object itself or lies within one of its fields. -/
theorem Reached.of_object {other : π} {map : Map} {value : Value}
    (reached : Reached field item place (.object map) other value) :
    (other = place ∧ value = .object map) ∨
      ∃ e ∈ map, Reached field item (field e.1 place) e.2 other value := by
  induction reached with
  | here => exact Or.inl ⟨rfl, rfl⟩
  | field prior hField ih =>
      rcases ih with ⟨rfl, hSame⟩ | ⟨e, he, within⟩
      · injection hSame with hMap
        subst hMap
        exact Or.inr ⟨_, hField, .here⟩
      · exact Or.inr ⟨e, he, within.field hField⟩
  | item prior hItem ih =>
      rcases ih with ⟨rfl, hSame⟩ | ⟨e, he, within⟩
      · cases hSame
      · exact Or.inr ⟨e, he, within.item hItem⟩

/-- From an array, it is the array itself or lies within one of its items. -/
theorem Reached.of_array {other : π} {items : List Value} {value : Value}
    (reached : Reached field item place (.array items) other value) :
    (other = place ∧ value = .array items) ∨
      ∃ v ∈ items, Reached field item (item place) v other value := by
  induction reached with
  | here => exact Or.inl ⟨rfl, rfl⟩
  | field prior hField ih =>
      rcases ih with ⟨rfl, hSame⟩ | ⟨v, hv, within⟩
      · cases hSame
      · exact Or.inr ⟨v, hv, within.field hField⟩
  | item prior hItem ih =>
      rcases ih with ⟨rfl, hSame⟩ | ⟨v, hv, within⟩
      · injection hSame with hItems
        subst hItems
        exact Or.inr ⟨_, hItem, .here⟩
      · exact Or.inr ⟨v, hv, within.item hItem⟩

/-- So a property of all that is reached from an object is one of the object and of what is reached
from its fields, -/
theorem forall_reached_object {map : Map} :
    (∀ other value, Reached field item place (.object map) other value → P other value) ↔
      P place (.object map) ∧ ∀ e ∈ map, ∀ other value,
        Reached field item (field e.1 place) e.2 other value → P other value := by
  constructor
  · intro hAll
    refine ⟨hAll _ _ .here, fun e he other value within => ?_⟩
    exact hAll _ _ ((Reached.here.field he).trans within)
  · intro ⟨hHere, hFields⟩ other value within
    rcases within.of_object with ⟨rfl, rfl⟩ | ⟨e, he, within⟩
    · exact hHere
    · exact hFields e he other value within

/-- and in the same way for an array. -/
theorem forall_reached_array {items : List Value} :
    (∀ other value, Reached field item place (.array items) other value → P other value) ↔
      P place (.array items) ∧ ∀ v ∈ items, ∀ other value,
        Reached field item (item place) v other value → P other value := by
  constructor
  · intro hAll
    refine ⟨hAll _ _ .here, fun v hv other value within => ?_⟩
    exact hAll _ _ ((Reached.here.item hv).trans within)
  · intro ⟨hHere, hItems⟩ other value within
    rcases within.of_array with ⟨rfl, rfl⟩ | ⟨v, hv, within⟩
    · exact hHere
    · exact hItems v hv other value within

/-- A value which is neither an array nor an object. -/
theorem forall_reached_leaf {root : Value} (hArray : ∀ items, root ≠ .array items)
    (hObject : ∀ map, root ≠ .object map) :
    (∀ other value, Reached field item place root other value → P other value) ↔
      P place root := by
  constructor
  · intro hAll
    exact hAll _ _ .here
  · intro hHere other value within
    have hSame : other = place ∧ value = root := by
      induction within with
      | here => exact ⟨rfl, rfl⟩
      | field _ _ ih => exact absurd ih.2.symm (hObject _)
      | item _ _ ih => exact absurd ih.2.symm (hArray _)
    rw [hSame.1, hSame.2]
    exact hHere

end Reached

def HasCompete (fork : Map) : Prop := (fork.lookup "compete").isSome = true

/-- A part of a document has what is required of what it is taken for. -/
structure Orderly (place : Place) (value : Value) : Prop where
  collection : place = .collection → value.asStr.isSome = true
  fork : place = .fork → ∀ map, value = .object map → HasCompete map

/-- In every list of tasks that is compiled, all forks and loops are in order. -/
def AllOrderly (document : Value) : Prop :=
  ∀ place value, Reached Place.field Place.item .definition document place value →
    Orderly place value

section Walks

variable (text : Value → String) (next : String → Place → Place)

/-- The defaults of an object. -/
def Place.defaults (place : Place) (map : Map) : Map :=
  if place = fork then insertCompete map else map

mutual

/-- Put in order what is found from a place of a document, and nothing else. -/
def walk (place : Place) : Value → Value
  | .array items =>
      if place = .collection then .string (text (.array items))
      else .array (walkItems place.item items)
  | .object map =>
      if place = .collection then .string (text (.object map))
      else .object (place.defaults (walkFields place map))
  | .string s => .string s
  | other => if place = .collection then .string (text other) else other

def walkItems (place : Place) : List Value → List Value
  | [] => []
  | value :: rest => walk place value :: walkItems place rest

def walkFields (place : Place) : List (String × Value) → List (String × Value)
  | [] => []
  | (key, value) :: rest => (key, walk (next key place) value) :: walkFields place rest

end

end Walks

/-- A document is normalized to another one: the forks and loops of all tasks that
are compiled are in order, nothing else is changed, and nothing is left to change. -/
structure NormalizedTo (text : Value → String) (document normalized : Value) : Prop where
  orderly : AllOrderly normalized
  changes : normalized = walk text Place.field .definition document
  stable : normalizeDefinition text normalized = normalized

/-- What normalization and the compiler take a part of a document for, where they
differ, makes no difference for it. -/
structure Alike (places : Place × Place) (value : Value) : Prop where
  collection : (places.1 = .collection ↔ places.2 = .collection) ∨ value.asStr.isSome = true
  fork : (places.1 = .fork ↔ places.2 = .fork) ∨ ∀ map, value = .object map → HasCompete map

/-- Normalization walks the document itself like a task. -/
def AllAlike (document : Value) : Prop :=
  ∀ places value,
    Reached (fun key p => (Place.visited key p.1, Place.field key p.2))
      (fun p => (p.1.item, p.2.item)) (.task, .definition) document places value →
    Alike places value

section Walks

variable {text : Value → String} {next : String → Place → Place}

/-- The items of an array are walked one by one, -/
theorem walkItems_eq_map (place : Place) (items : List Value) :
    walkItems text next place items = items.map (walk text next place) := by
  induction items with
  | nil => rfl
  | cons value rest ih => rw [walkItems, ih, List.map_cons]

/-- and so are the fields of an object. -/
theorem walkFields_eq_map (place : Place) (map : Map) :
    walkFields text next place map =
      map.map fun e => (e.1, walk text next (next e.1 place) e.2) := by
  induction map with
  | nil => rfl
  | cons e rest ih => rw [walkFields, ih, List.map_cons]

/-- A walk neither adds nor removes a field. -/
@[simp] theorem lookup_walkFields_isSome (place : Place) (map : Map) (key : String) :
    ((walkFields text next place map).lookup key).isSome = (map.lookup key).isSome := by
  induction map with
  | nil => rfl
  | cons e rest ih =>
      rw [walkFields, List.lookup_cons, List.lookup_cons]
      split
      · rfl
      · exact ih

/-- What normalization and the compiler take for a collection or for data has no
parts for them. -/
structure Inert (next : String → Place → Place) : Prop where
  collection : ∀ key, next key .collection = .data
  data : ∀ key, next key .data = .data
  compete : next "compete" .fork = .data

/-- What is data to the compiler has only data in it, -/
theorem inert_field : Inert Place.field := ⟨fun _ => rfl, fun _ => rfl, rfl⟩

/-- and so has what is data to normalization. -/
theorem inert_visited : Inert Place.visited := ⟨fun _ => rfl, fun _ => rfl, rfl⟩

/-- So a walk leaves data as it is. The recursion is that of the value, -/
theorem walk_data (inert : Inert next) (value : Value) : walk text next .data value = value := by
  induction value using Value.induction with
  | array items ih =>
      rw [walk, if_neg (by decide), walkItems_eq_map]
      exact congrArg Value.array (List.map_congr_left ih |>.trans (List.map_id' items))
  | object map ih =>
      rw [walk, if_neg (by decide), walkFields_eq_map, Place.defaults, if_neg (by decide)]
      have hFields : ∀ e ∈ map, (e.1, walk text next (next e.1 .data) e.2) = e := by
        intro e he
        rw [inert.data, ih e he]
      exact congrArg Value.object ((List.map_congr_left hFields).trans (List.map_id' map))
  | _ => rfl

/-- and an array whose items are data is left as it is, too. -/
theorem walk_array (inert : Inert next) {place : Place} (hPlace : place ≠ .collection)
    (hItem : place.item = .data) (items : List Value) :
    walk text next place (.array items) = .array items := by
  rw [walk, if_neg hPlace, walkItems_eq_map, hItem]
  have hItems : items.map (walk text next .data) = items.map id :=
    List.map_congr_left fun v _ => walk_data inert v
  rw [List.map_id] at hItems
  exact congrArg Value.array hItems

/-- An object is walked field by field, and gets the defaults of its place. -/
theorem walk_object {place : Place} (hPlace : place ≠ .collection) (map : Map) :
    walk text next place (.object map) =
      .object (place.defaults (walkFields text next place map)) := by
  rw [walk, if_neg hPlace]

end Walks

section Normalization

variable {text : Value → String}

/-- A list of tasks that is no array is left as it is. -/
theorem walk_list {place : Place} (hPlace : place = .tasks ∨ place = .data) {value : Value}
    (hArray : ∀ items, value ≠ .array items) : walk text Place.visited place value = value := by
  rcases hPlace with rfl | rfl
  · cases value with
    | array items => exact absurd rfl (hArray items)
    | object map =>
        rw [walk_object (by decide), Place.defaults, if_neg (by decide)]
        have hFields : walkFields text Place.visited .tasks map =
            walkFields text Place.visited .data map := by
          rw [walkFields_eq_map, walkFields_eq_map]
          rfl
        have hData : walk text Place.visited .data (.object map) = .object map :=
          walk_data inert_visited _
        rw [walk_object (by decide), Place.defaults, if_neg (by decide)] at hData
        rw [hFields, hData]
    | _ => rfl
  · exact walk_data inert_visited value

/-- What normalization takes a field of a task for. -/
theorem visited_task (key : String) : Place.visited key .task =
    if key = "do" ∨ key = "try" then .tasks else if key = "for" then .loop
    else if key = "catch" then .handler else if key = "fork" then .fork else .data := by
  rw [Place.visited, Place.field]
  split_ifs <;> simp_all

/-- The text of a loop's collection is put in by the walk of its fields. -/
theorem encodeIn_eq_walkFields (map : Map) :
    encodeIn text map = walkFields text Place.visited .loop map := by
  induction map with
  | nil => rfl
  | cons e rest ih =>
      obtain ⟨key, value⟩ := e
      rw [walkFields, ← ih]
      by_cases hKey : key = "in"
      · subst hKey
        have hPlace : Place.visited "in" .loop = .collection := rfl
        rw [hPlace]
        cases value <;> rfl
      · have hPlace : Place.visited key .loop = .data := by
          simp [Place.visited, Place.field, hKey]
        rw [hPlace, walk_data inert_visited, encodeIn]
        all_goals
          intros
          simp_all

/-- A block has one list of tasks, and data beside it. -/
theorem list_or_data {place : Place} {list : String}
    (hPlace : ∀ key, Place.visited key place = if key = list then .tasks else .data) (key : String) :
    Place.visited key place = .tasks ∨ Place.visited key place = .data := by
  rw [hPlace]
  split_ifs
  · exact Or.inl rfl
  · exact Or.inr rfl

mutual

/-- By recursion on the document: normalization is a walk over what it visits. -/
theorem normalizeScope_eq_walk : ∀ value : Value,
    normalizeScope text value = walk text Place.visited .task value
  | .object map => by
      rw [normalizeScope, normalizeFields_eq_walk map, walk, if_neg (by decide), Place.defaults,
        if_neg (by decide)]
  | .array items => by
      rw [normalizeScope, walk_array inert_visited (by decide) rfl]
      nofun
  | .null => rfl
  | .bool _ => rfl
  | .number _ => rfl
  | .string _ => rfl

/-- Normalization is the walk of what it visits. The recursion is that of its own functions: the
fields of a task, -/
theorem normalizeFields_eq_walk : ∀ map : List (String × Value),
    normalizeFields text map = walkFields text Place.visited .task map
  | [] => rfl
  | (key, value) :: rest => by
      rw [normalizeFields, walkFields, normalizeField_eq_walk key value,
        normalizeFields_eq_walk rest]

/-- Normalization takes a field of a task as the walk does: as a list of tasks, as the block of a
try, a catch or a fork, or as data. -/
theorem normalizeField_eq_walk (key : String) : ∀ value : Value,
    normalizeField text key value = walk text Place.visited (Place.visited key .task) value
  | .array tasks => by
      rw [normalizeField, visited_task]
      by_cases hList : key = "do" ∨ key = "try"
      · rw [if_pos hList, if_pos hList, normalizeTasks_eq_walk tasks, walk, if_neg (by decide)]
        rfl
      · rw [if_neg hList, if_neg hList]
        split_ifs <;> exact (walk_array inert_visited (by decide) rfl tasks).symm
  | .object map => by
      have hHandler : ∀ key, Place.visited key .handler =
          if key = "do" then .tasks else .data := by simp [Place.visited, Place.field]
      have hFork : ∀ key, Place.visited key .fork =
          if key = "branches" then .tasks else .data := by simp [Place.visited, Place.field]
      have hHandlerWalk := normalizeList_eq_walk "do" .handler hHandler (list_or_data hHandler) map
      have hForkWalk := normalizeList_eq_walk "branches" .fork hFork (list_or_data hFork) map
      rw [normalizeField, visited_task, encodeIn_eq_walkFields, hHandlerWalk, hForkWalk]
      by_cases hList : key = "do" ∨ key = "try"
      · have hWalk : walk text Place.visited .tasks (.object map) = .object map :=
          walk_list (Or.inl rfl) nofun
        rw [if_pos hList, hWalk]
        rcases hList with rfl | rfl <;> rfl
      · rw [if_neg hList]
        by_cases hLoop : key = "for"
        · rw [if_pos hLoop, if_pos hLoop]
          rfl
        · rw [if_neg hLoop, if_neg hLoop]
          by_cases hCatch : key = "catch"
          · rw [if_pos hCatch, if_pos hCatch]
            rfl
          · rw [if_neg hCatch, if_neg hCatch]
            by_cases hKey : key = "fork"
            · rw [if_pos hKey, if_pos hKey]
              rfl
            · rw [if_neg hKey, if_neg hKey, walk_data inert_visited]
  | .null => by
      rw [normalizeField, visited_task]
      · split_ifs <;> rfl
      · nofun
      · nofun
  | .bool _ => by
      rw [normalizeField, visited_task]
      · split_ifs <;> rfl
      · nofun
      · nofun
  | .number _ => by
      rw [normalizeField, visited_task]
      · split_ifs <;> rfl
      · nofun
      · nofun
  | .string _ => rfl

/-- Within a block it takes the one list of tasks, and leaves the fields beside it as they are. The
recursion is on the fields. -/
theorem normalizeList_eq_walk (list : String) (place : Place)
    (hPlace : ∀ key, Place.visited key place = if key = list then .tasks else .data)
    (hList : ∀ key, Place.visited key place = .tasks ∨ Place.visited key place = .data) :
    ∀ map : List (String × Value),
      normalizeList text list map = walkFields text Place.visited place map
  | [] => rfl
  | (key, .array tasks) :: rest => by
      rw [normalizeList, walkFields, normalizeList_eq_walk list place hPlace hList rest, hPlace]
      by_cases hKey : key = list
      · rw [if_pos hKey, if_pos hKey, normalizeTasks_eq_walk tasks, walk, if_neg (by decide)]
        rfl
      · rw [if_neg hKey, if_neg hKey, walk_data inert_visited]
  | (key, .object map) :: rest => by
      have hWalk : walk text Place.visited (Place.visited key place) (.object map) = .object map :=
        walk_list (hList key) nofun
      rw [normalizeList, walkFields, normalizeList_eq_walk list place hPlace hList rest, hWalk]
      nofun
  | (key, .null) :: rest => by
      have hWalk : walk text Place.visited (Place.visited key place) (.null) = .null :=
        walk_list (hList key) nofun
      rw [normalizeList, walkFields, normalizeList_eq_walk list place hPlace hList rest, hWalk]
      nofun
  | (key, .bool b) :: rest => by
      have hWalk : walk text Place.visited (Place.visited key place) (.bool b) = .bool b :=
        walk_list (hList key) nofun
      rw [normalizeList, walkFields, normalizeList_eq_walk list place hPlace hList rest, hWalk]
      nofun
  | (key, .number n) :: rest => by
      have hWalk : walk text Place.visited (Place.visited key place) (.number n) = .number n :=
        walk_list (hList key) nofun
      rw [normalizeList, walkFields, normalizeList_eq_walk list place hPlace hList rest, hWalk]
      nofun
  | (key, .string s) :: rest => by
      have hWalk : walk text Place.visited (Place.visited key place) (.string s) = .string s :=
        walk_list (hList key) nofun
      rw [normalizeList, walkFields, normalizeList_eq_walk list place hPlace hList rest, hWalk]
      nofun

/-- the tasks of a list, -/
theorem normalizeTasks_eq_walk : ∀ tasks : List Value,
    normalizeTasks text tasks = walkItems text Place.visited .entry tasks
  | [] => rfl
  | task :: rest => by
      rw [normalizeTasks, walkItems, normalizeTask_eq_walk task, normalizeTasks_eq_walk rest]

/-- one task, -/
theorem normalizeTask_eq_walk : ∀ task : Value,
    normalizeTask text task = walk text Place.visited .entry task
  | .object map => by
      rw [normalizeTask, normalizeEntries_eq_walk map, walk, if_neg (by decide), Place.defaults,
        if_neg (by decide)]
  | .array items => by
      rw [normalizeTask, walk_array inert_visited (by decide) rfl]
      nofun
  | .null => rfl
  | .bool _ => rfl
  | .number _ => rfl
  | .string _ => rfl

/-- and its entries. -/
theorem normalizeEntries_eq_walk : ∀ map : List (String × Value),
    normalizeEntries text map = walkFields text Place.visited .entry map
  | [] => rfl
  | (name, task) :: rest => by
      rw [normalizeEntries, walkFields, normalizeScope_eq_walk task,
        normalizeEntries_eq_walk rest]
      rfl

end

end Normalization

section Differences

variable {text : Value → String} {f g : String → Place → Place}

/-- A new key makes a map longer. -/
theorem length_insert_of_lookup {map : Map} {key : String} {value : Value}
    (hNone : map.lookup key = none) : (Map.insert key value map).length = map.length + 1 := by
  induction map with
  | nil => rfl
  | cons e rest ih =>
      obtain ⟨k, v⟩ := e
      have hKey : key ≠ k := by
        rintro rfl
        simp at hNone
      rw [Map.lookup_cons_of_ne v rest hKey] at hNone
      rw [Map.insert, if_neg hKey]
      split_ifs
      · rfl
      · rw [List.length_cons, List.length_cons, ih hNone]

/-- Maps with the same keys are the same when they are so with a new field. -/
theorem eq_of_insert_eq {key : String} {value : Value} : ∀ {first second : Map},
    first.map Prod.fst = second.map Prod.fst → first.lookup key = none →
      Map.insert key value first = Map.insert key value second → first = second
  | [], [], _, _, _ => rfl
  | [], _ :: _, hKeys, _, _ => by cases hKeys
  | _ :: _, [], hKeys, _, _ => by cases hKeys
  | (k, v) :: rest, (l, w) :: more, hKeys, hNone, hInsert => by
      rw [List.map_cons, List.map_cons, List.cons.injEq] at hKeys
      obtain ⟨hSame, hKeys⟩ := hKeys
      change k = l at hSame
      subst hSame
      have hKey : key ≠ k := by
        rintro rfl
        simp at hNone
      rw [Map.lookup_cons_of_ne v rest hKey] at hNone
      rw [Map.insert, Map.insert, if_neg hKey, if_neg hKey] at hInsert
      split_ifs at hInsert
      · exact (List.cons.injEq _ _ _ _ ▸ hInsert).2
      · rw [List.cons.injEq] at hInsert
        rw [hInsert.1, eq_of_insert_eq hKeys hNone hInsert.2]

/-- A fork that says whether its branches compete is left as it is, -/
theorem insertCompete_of_has {map : Map} (hHas : HasCompete map) : insertCompete map = map :=
  if_pos hHas

/-- and any other gets the default. -/
theorem insertCompete_of_not_has {map : Map} (hHas : ¬ HasCompete map) :
    insertCompete map = Map.insert "compete" (.bool false) map :=
  if_neg hHas

/-- Such a fork has nothing under the key, -/
theorem lookup_of_not_has {map : Map} (hHas : ¬ HasCompete map) :
    map.lookup "compete" = none := by
  rw [HasCompete, Option.not_isSome_iff_eq_none] at hHas
  exact hHas

/-- so it gets longer. -/
theorem length_insertCompete {map : Map} (hHas : ¬ HasCompete map) :
    (insertCompete map).length = map.length + 1 := by
  rw [insertCompete_of_not_has hHas]
  exact length_insert_of_lookup (lookup_of_not_has hHas)

/-- With the default, two forks with the same keys are the same when they were, -/
theorem insertCompete_inj {first second : Map} (hKeys : first.map Prod.fst = second.map Prod.fst)
    (hHas : HasCompete first ↔ HasCompete second) :
    insertCompete first = insertCompete second ↔ first = second := by
  constructor
  · intro hSame
    by_cases hFirst : HasCompete first
    · rwa [insertCompete_of_has hFirst, insertCompete_of_has (hHas.mp hFirst)] at hSame
    · have hSecond : ¬ HasCompete second := fun h => hFirst (hHas.mpr h)
      rw [insertCompete_of_not_has hFirst, insertCompete_of_not_has hSecond] at hSame
      exact eq_of_insert_eq hKeys (lookup_of_not_has hFirst) hSame
  · intro hSame
    rw [hSame]

/-- and one of them is as the other was before only when it had the key. -/
theorem insertCompete_eq_iff {first second : Map}
    (hKeys : first.map Prod.fst = second.map Prod.fst) :
    insertCompete first = second ↔ HasCompete first ∧ first = second := by
  by_cases hHas : HasCompete first
  · rw [insertCompete_of_has hHas]
    exact ⟨fun h => ⟨hHas, h⟩, fun h => h.2⟩
  · have hLength := length_insertCompete hHas
    have hSame := congrArg List.length hKeys
    rw [List.length_map, List.length_map] at hSame
    constructor
    · intro hInsert
      rw [hInsert] at hLength
      omega
    · intro h
      exact absurd h.1 hHas

/-- A walk keeps the keys of an object, -/
theorem keys_walkFields (place : Place) (map : Map) :
    (walkFields text f place map).map Prod.fst = map.map Prod.fst := by
  rw [walkFields_eq_map, List.map_map]
  rfl

/-- so also whether a fork has said that its branches compete. -/
theorem hasCompete_walkFields (place : Place) (map : Map) :
    HasCompete (walkFields text f place map) ↔ HasCompete map := by
  rw [HasCompete, HasCompete, lookup_walkFields_isSome]

/-- Two walks put the same defaults in when both take the object for a fork, or neither does, or the
key is there already. -/
theorem defaults_eq_iff (p q : Place) (map : Map) :
    p.defaults (walkFields text f p map) = q.defaults (walkFields text g q map) ↔
      ((p = .fork ↔ q = .fork) ∨ HasCompete map) ∧
        walkFields text f p map = walkFields text g q map := by
  have hKeys : (walkFields text f p map).map Prod.fst = (walkFields text g q map).map Prod.fst := by
    rw [keys_walkFields, keys_walkFields]
  have hBoth : HasCompete (walkFields text f p map) ↔ HasCompete (walkFields text g q map) := by
    rw [hasCompete_walkFields, hasCompete_walkFields]
  rw [Place.defaults, Place.defaults]
  split_ifs with hFirst hSecond hSecond
  · simp only [hFirst, hSecond, true_or, true_and]
    subst hFirst hSecond
    exact insertCompete_inj hKeys hBoth
  · rw [insertCompete_eq_iff hKeys, hasCompete_walkFields]
    simp [hFirst, hSecond]
  · rw [eq_comm, insertCompete_eq_iff hKeys.symm, hasCompete_walkFields]
    simp [hFirst, hSecond, eq_comm]
  · simp [hFirst, hSecond]

/-- What two walks take a part of a document for. -/
abbrev ReachedBoth (f g : String → Place → Place) (places : Place × Place) (root : Value) :
    Place × Place → Value → Prop :=
  Reached (fun key p => (f key p.1, g key p.2)) (fun p => (p.1.item, p.2.item)) places root

/-- Nothing is taken for anything below a collection, or below data. -/
theorem ReachedBoth.same (hf : Inert f) (hg : Inert g) {root value : Value} {place : Place}
    {places : Place × Place} (hPlace : place = .collection ∨ place = .data)
    (reached : ReachedBoth f g (place, place) root places value) :
    places = (.collection, .collection) ∨ places = (.data, .data) := by
  induction reached with
  | here => exact hPlace.imp (fun h => by rw [h]) fun h => by rw [h]
  | field _ _ ih =>
      rcases ih with ih | ih
      · rw [ih, hf.collection, hg.collection]
        exact Or.inr rfl
      · rw [ih, hf.data, hg.data]
        exact Or.inr rfl
  | item _ _ ih => rcases ih with ih | ih <;> rw [ih] <;> exact Or.inr rfl

/-- Two walks that take a value for the same are alike on it. -/
theorem alike_same (place : Place) (value : Value) : Alike (place, place) value :=
  ⟨Or.inl Iff.rfl, Or.inl Iff.rfl⟩

/-- The collection of a loop becomes a text, -/
theorem walk_collection {value : Value} (hString : value.asStr = none) :
    walk text f .collection value = .string (text value) := by
  cases value with
  | string s => cases hString
  | array items => rw [walk, if_pos rfl]
  | object map => rw [walk, if_pos rfl]
  | _ => rfl

/-- and nothing else becomes one or stops being one. -/
theorem asStr_walk {place : Place} {value : Value} (hPlace : place ≠ .collection) :
    (walk text f place value).asStr = value.asStr := by
  cases value with
  | array items =>
      rw [walk, if_neg hPlace]
      rfl
  | object map =>
      rw [walk, if_neg hPlace]
      rfl
  | string s => rfl
  | null =>
      rw [walk, if_neg hPlace] <;> nofun
  | bool b =>
      rw [walk, if_neg hPlace] <;> nofun
  | number n =>
      rw [walk, if_neg hPlace] <;> nofun

/-- Where one of two walks finds a collection, the other one has to, too. -/
theorem walk_collection_iff (hf : Inert f) (hg : Inert g) {root : Value}
    (hString : root.asStr = none) {p q : Place} (hPlace : p = .collection ∨ q = .collection) :
    walk text f p root = walk text g q root ↔
      ∀ places value, ReachedBoth f g (p, q) root places value → Alike places value := by
  by_cases hSame : p = q
  · subst hSame
    have hCollection : p = .collection := hPlace.elim id id
    subst hCollection
    refine iff_of_true (by rw [walk_collection hString, walk_collection hString]) ?_
    intro places value reached
    rcases reached.same hf hg (Or.inl rfl) with h | h <;> rw [h] <;> exact alike_same _ _
  · refine iff_of_false ?_ ?_
    · intro hWalk
      have hText := congrArg Value.asStr hWalk
      rcases hPlace with rfl | rfl
      · rw [walk_collection hString, asStr_walk (Ne.symm hSame), hString] at hText
        cases hText
      · rw [walk_collection hString, asStr_walk hSame, hString] at hText
        cases hText
    · intro hAlike
      rcases (hAlike _ _ .here).collection with hBoth | hText
      · rcases hPlace with rfl | rfl
        · exact hSame (hBoth.mp rfl).symm
        · exact hSame (hBoth.mpr rfl)
      · rw [hString] at hText
        cases hText

/-- A value without parts is left as it is where it is no collection. -/
theorem walk_leaf_iff (hf : Inert f) (hg : Inert g) {root : Value} (hString : root.asStr = none)
    (hArray : ∀ items, root ≠ .array items) (hObject : ∀ map, root ≠ .object map) (p q : Place) :
    walk text f p root = walk text g q root ↔
      ∀ places value, ReachedBoth f g (p, q) root places value → Alike places value := by
  by_cases hPlace : p = .collection ∨ q = .collection
  · exact walk_collection_iff hf hg hString hPlace
  · rw [not_or] at hPlace
    have hWalk : ∀ {next : String → Place → Place} {place : Place}, place ≠ .collection →
        walk text next place root = root := by
      intro next place hOther
      cases root with
      | string s => cases hString
      | array items => exact absurd rfl (hArray items)
      | object map => exact absurd rfl (hObject map)
      | null => exact if_neg hOther
      | bool b => exact if_neg hOther
      | number n => exact if_neg hOther
    rw [forall_reached_leaf hArray hObject, hWalk hPlace.1, hWalk hPlace.2]
    refine iff_of_true rfl ⟨Or.inl (iff_of_false hPlace.1 hPlace.2), Or.inr fun map hMap => ?_⟩
    exact absurd hMap (hObject map)

/-- Two walks over a document give the same if and only if what they differ in
makes no difference. -/
theorem walk_eq_walk_iff (hf : Inert f) (hg : Inert g) (root : Value) : ∀ p q : Place,
    walk text f p root = walk text g q root ↔
      ∀ places value, ReachedBoth f g (p, q) root places value → Alike places value := by
  induction root using Value.induction with
  | string s =>
      intro p q
      rw [forall_reached_leaf (fun _ => (by nofun)) (fun _ => (by nofun))]
      exact iff_of_true rfl ⟨Or.inr rfl, Or.inr fun _ => (by nofun)⟩
  | array items ih =>
      intro p q
      by_cases hPlace : p = .collection ∨ q = .collection
      · exact walk_collection_iff hf hg rfl hPlace
      · rw [forall_reached_array]
        rw [not_or] at hPlace
        rw [walk, walk, if_neg hPlace.1, if_neg hPlace.2, Value.array.injEq, walkItems_eq_map,
          walkItems_eq_map, List.map_inj_left]
        constructor
        · intro hItems
          refine ⟨⟨Or.inl (iff_of_false hPlace.1 hPlace.2), Or.inr fun _ => (by nofun)⟩, ?_⟩
          intro v hv
          exact (ih v hv _ _).mp (hItems v hv)
        · intro hItems v hv
          exact (ih v hv _ _).mpr (hItems.2 v hv)
  | object map ih =>
      intro p q
      by_cases hPlace : p = .collection ∨ q = .collection
      · exact walk_collection_iff hf hg rfl hPlace
      · rw [forall_reached_object]
        rw [not_or] at hPlace
        rw [walk, walk, if_neg hPlace.1, if_neg hPlace.2, Value.object.injEq, defaults_eq_iff,
          walkFields_eq_map, walkFields_eq_map, List.map_inj_left]
        constructor
        · intro ⟨hFork, hFields⟩
          refine ⟨⟨Or.inl (iff_of_false hPlace.1 hPlace.2), hFork.imp id ?_⟩, ?_⟩
          · intro hHas other hOther
            injection hOther with hMap
            rwa [← hMap]
          · intro e he
            have hField := hFields e he
            rw [Prod.mk.injEq] at hField
            exact (ih e he _ _).mp hField.2
        · intro ⟨hHere, hFields⟩
          refine ⟨hHere.fork.imp id fun hHas => hHas map rfl, fun e he => ?_⟩
          rw [(ih e he _ _).mpr (hFields e he)]
  | null => exact walk_leaf_iff hf hg rfl (fun _ => (by nofun)) fun _ => (by nofun)
  | bool b => exact walk_leaf_iff hf hg rfl (fun _ => (by nofun)) fun _ => (by nofun)
  | number n => exact walk_leaf_iff hf hg rfl (fun _ => (by nofun)) fun _ => (by nofun)

end Differences

section Results

variable {text : Value → String} {next : String → Place → Place}

/-- With its default, a fork says whether its branches compete. -/
theorem hasCompete_insertCompete (map : Map) : HasCompete (insertCompete map) := by
  by_cases hHas : HasCompete map
  · rwa [insertCompete_of_has hHas]
  · rw [insertCompete_of_not_has hHas, HasCompete, Map.lookup_insert_self]
    rfl

/-- A field of an object that was walked over, with what it is taken for. -/
theorem mem_defaults {place : Place} {map : Map} {e : String × Value}
    (he : e ∈ place.defaults (walkFields text next place map)) :
    (∃ original ∈ map, e = (original.1, walk text next (next original.1 place) original.2)) ∨
      (place = .fork ∧ e = ("compete", .bool false)) := by
  have hOld : e ∈ walkFields text next place map →
      ∃ original ∈ map, e = (original.1, walk text next (next original.1 place) original.2) := by
    intro hMem
    rw [walkFields_eq_map] at hMem
    obtain ⟨original, hOriginal, hSame⟩ := List.mem_map.mp hMem
    exact ⟨original, hOriginal, hSame.symm⟩
  rw [Place.defaults] at he
  split_ifs at he with hFork
  · by_cases hHas : HasCompete (walkFields text next place map)
    · rw [insertCompete_of_has hHas] at he
      exact Or.inl (hOld he)
    · rw [insertCompete_of_not_has hHas] at he
      exact (Map.mem_insert he).elim (fun h => Or.inr ⟨hFork, h⟩) fun h => Or.inl (hOld h)
  · exact Or.inl (hOld he)

/-- A text is in order, whatever it is taken for. -/
theorem orderly_string (place : Place) (s : String) : Orderly place (.string s) :=
  ⟨fun _ => rfl, fun _ _ => (by nofun)⟩

/-- A collection that is walked over is a string. -/
theorem walk_collection_eq (value : Value) : ∃ s, walk text next .collection value = .string s := by
  cases value with
  | string s => exact ⟨s, rfl⟩
  | array items => exact ⟨_, walk_collection rfl⟩
  | object map => exact ⟨_, walk_collection rfl⟩
  | null => exact ⟨_, rfl⟩
  | bool b => exact ⟨_, rfl⟩
  | number n => exact ⟨_, rfl⟩

/-- A walk leaves a scalar as it is, unless it is a collection. -/
theorem walk_of_leaf {root : Value} (hArray : ∀ items, root ≠ .array items)
    (hObject : ∀ map, root ≠ .object map) {place : Place} (hPlace : place ≠ .collection) :
    walk text next place root = root := by
  cases root with
  | string s => rfl
  | array items => exact absurd rfl (hArray items)
  | object map => exact absurd rfl (hObject map)
  | null => exact if_neg hPlace
  | bool b => exact if_neg hPlace
  | number n => exact if_neg hPlace

/-- After a walk, all that it reaches is in order: each fork says whether its branches compete, and
each collection is a text. The induction is on the value. -/
theorem orderly_walk (inert : Inert next) (root : Value) : ∀ start place value,
    Reached next Place.item start (walk text next start root) place value →
      Orderly place value := by
  have hLeaf : ∀ {leaf : Value} (start : Place), (∀ items, leaf ≠ .array items) →
      (∀ map, leaf ≠ .object map) → ∀ place value,
      Reached next Place.item start (walk text next start leaf) place value →
        Orderly place value := by
    intro leaf start hArray hObject
    by_cases hStart : start = .collection
    · subst hStart
      obtain ⟨s, hString⟩ := @walk_collection_eq text next leaf
      rw [hString, forall_reached_leaf (fun _ => (by nofun)) (fun _ => (by nofun))]
      exact orderly_string _ s
    · rw [walk_of_leaf hArray hObject hStart, forall_reached_leaf hArray hObject]
      exact ⟨fun h => absurd h hStart, fun _ map hMap => absurd hMap (hObject map)⟩
  induction root using Value.induction with
  | array items ih =>
      intro start
      by_cases hStart : start = .collection
      · subst hStart
        rw [walk_collection rfl, forall_reached_leaf (fun _ => (by nofun)) (fun _ => (by nofun))]
        exact orderly_string _ _
      · rw [walk, if_neg hStart, walkItems_eq_map, forall_reached_array]
        refine ⟨⟨fun h => absurd h hStart, fun _ _ => (by nofun)⟩, fun v hv => ?_⟩
        obtain ⟨original, hOriginal, rfl⟩ := List.mem_map.mp hv
        exact ih original hOriginal _
  | object map ih =>
      intro start
      by_cases hStart : start = .collection
      · subst hStart
        rw [walk_collection rfl, forall_reached_leaf (fun _ => (by nofun)) (fun _ => (by nofun))]
        exact orderly_string _ _
      · rw [walk_object hStart, forall_reached_object]
        refine ⟨⟨fun h => absurd h hStart, ?_⟩, fun e he => ?_⟩
        · intro hFork other hOther
          injection hOther with hMap
          subst hFork hMap
          exact hasCompete_insertCompete _
        · rcases mem_defaults he with ⟨original, hOriginal, rfl⟩ | ⟨rfl, rfl⟩
          · exact ih original hOriginal _
          · -- The default that was added is no collection.
            have hBool := @hLeaf (.bool false) (next "compete" .fork) (fun _ => (by nofun))
              fun _ => (by nofun)
            rwa [walk_of_leaf (fun _ => (by nofun)) (fun _ => (by nofun))
              (by rw [inert.compete]; decide)] at hBool
  | null => exact fun start => hLeaf start (fun _ => (by nofun)) fun _ => (by nofun)
  | bool b => exact fun start => hLeaf start (fun _ => (by nofun)) fun _ => (by nofun)
  | number n => exact fun start => hLeaf start (fun _ => (by nofun)) fun _ => (by nofun)
  | string s => exact fun start => hLeaf start (fun _ => (by nofun)) fun _ => (by nofun)

/-- A second walk changes nothing: the defaults are there, and the collections are texts already.
The induction is on the value. -/
theorem walk_walk (inert : Inert next) (root : Value) : ∀ place : Place,
    walk text next place (walk text next place root) = walk text next place root := by
  have hCollection : ∀ value : Value, walk text next .collection
      (walk text next .collection value) = walk text next .collection value := by
    intro value
    obtain ⟨s, hString⟩ := @walk_collection_eq text next value
    rw [hString]
    rfl
  have hLeaf : ∀ {leaf : Value} (place : Place), (∀ items, leaf ≠ .array items) →
      (∀ map, leaf ≠ .object map) →
      walk text next place (walk text next place leaf) = walk text next place leaf := by
    intro leaf place hArray hObject
    by_cases hPlace : place = .collection
    · subst hPlace
      exact hCollection leaf
    · rw [walk_of_leaf hArray hObject hPlace, walk_of_leaf hArray hObject hPlace]
  induction root using Value.induction with
  | array items ih =>
      intro place
      by_cases hPlace : place = .collection
      · subst hPlace
        exact hCollection _
      · rw [walk, if_neg hPlace, walk, if_neg hPlace, walkItems_eq_map, walkItems_eq_map,
          List.map_map]
        exact congrArg Value.array (List.map_congr_left fun v hv => ih v hv _)
  | object map ih =>
      intro place
      by_cases hPlace : place = .collection
      · subst hPlace
        exact hCollection _
      · have hFields : walkFields text next place
            (place.defaults (walkFields text next place map)) =
              place.defaults (walkFields text next place map) := by
          rw [walkFields_eq_map]
          refine (List.map_congr_left fun e he => ?_).trans (List.map_id' _)
          rcases mem_defaults he with ⟨original, hOriginal, rfl⟩ | ⟨rfl, rfl⟩
          · rw [ih original hOriginal]
          · rw [walk_of_leaf (fun _ => (by nofun)) (fun _ => (by nofun))
              (by rw [inert.compete]; decide)]
        rw [walk_object hPlace, walk_object hPlace, hFields]
        refine congrArg Value.object ?_
        by_cases hFork : place = .fork
        · subst hFork
          exact insertCompete_of_has (hasCompete_insertCompete _)
        · rw [Place.defaults, if_neg hFork]
  | null => exact fun place => hLeaf place (fun _ => (by nofun)) fun _ => (by nofun)
  | bool b => exact fun place => hLeaf place (fun _ => (by nofun)) fun _ => (by nofun)
  | number n => exact fun place => hLeaf place (fun _ => (by nofun)) fun _ => (by nofun)
  | string s => exact fun place => hLeaf place (fun _ => (by nofun)) fun _ => (by nofun)

/-- Normalization is complete for the documents where what it does not visit, or
visits without need, makes no difference. -/
theorem normalizedTo_iff (text : Value → String) (document : Value) :
    NormalizedTo text document (normalizeDefinition text document) ↔ AllAlike document := by
  have hCode : normalizeDefinition text document =
      walk text Place.visited .task document := normalizeScope_eq_walk document
  have hWalks := @walk_eq_walk_iff text _ _ inert_visited inert_field document .task .definition
  constructor
  · intro normalized
    exact hWalks.mp (hCode.symm.trans normalized.changes)
  · intro alike
    have hChanges := hCode.trans (hWalks.mpr alike)
    refine ⟨?_, hChanges, ?_⟩
    · rw [hChanges]
      exact orderly_walk inert_field document .definition
    · rw [hCode, normalizeDefinition, normalizeScope_eq_walk]
      exact walk_walk inert_visited document .task

end Results

namespace Sample

/-- A task with a fork. -/
def forking : Value := .object [("fork", .object [("branches", .array [])])]

/-- A listen task whose iterator has a task with a fork. -/
def hearing : Value :=
  .object [("do", .array [.object [("hear", .object
    [("foreach", .object [("do", .array [.object [("spread", forking)]])])])]])]

end Sample

/-- The fork within a listen iterator gets no default. -/
theorem hearing_not_normalizedTo : ¬ NormalizedTo (Value.display fun _ => "") Sample.hearing
    (normalizeDefinition (Value.display fun _ => "") Sample.hearing) := by
  intro normalized
  have hDiffers : normalizeDefinition (Value.display fun _ => "") Sample.hearing ≠
      walk (Value.display fun _ => "") Place.field .definition Sample.hearing := by decide +kernel
  exact hDiffers normalized.changes

end OwsRuntime
