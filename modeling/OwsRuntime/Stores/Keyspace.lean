import Mathlib.Data.List.Basic
import Mathlib.Logic.Function.Basic

/-! The keyspace of a key-value server: a key holds a string, or a list of strings. -/
namespace Keyspaces

inductive Stored where
  | string (text : String)
  | list (items : List String)
deriving DecidableEq, Repr

/-- A command on a key that holds an entry of the other kind fails. -/
inductive CommandFault where
  | wrongType
deriving DecidableEq, Repr

def CommandFault.message : CommandFault → String
  | wrongType => "WRONGTYPE: Operation against a key holding the wrong kind of value"

/-- What the keys hold. A key without an entry does not exist. -/
structure Keyspace where
  entry : String → Option Stored

namespace Keyspace

def empty : Keyspace := ⟨fun _ => none⟩

def put (space : Keyspace) (key : String) (entry : Stored) : Keyspace :=
  ⟨Function.update space.entry key (some entry)⟩

/-- `SET`, which replaces an entry of either kind. -/
def set (space : Keyspace) (key text : String) : Keyspace := space.put key (.string text)

/-- `GET`. -/
def get (space : Keyspace) (key : String) : Except CommandFault (Option String) :=
  match space.entry key with
  | none => .ok none
  | some (.string text) => .ok (some text)
  | some (.list _) => .error .wrongType

/-- `RPUSH` of one item, which creates the list where there is none. -/
def rpush (space : Keyspace) (key text : String) : Except CommandFault Keyspace :=
  match space.entry key with
  | none => .ok (space.put key (.list [text]))
  | some (.list items) => .ok (space.put key (.list (items ++ [text])))
  | some (.string _) => .error .wrongType

/-- An index, counted from the end where it is negative. -/
def position (length : Nat) (index : Int) : Int := if index < 0 then index + length else index

/-- The items from one index to another, both included. -/
def slice (items : List String) (start stop : Int) : List String :=
  (items.take (position items.length stop + 1).toNat).drop (position items.length start).toNat

/-- `LRANGE`. -/
def lrange (space : Keyspace) (key : String) (start stop : Int) : Except CommandFault (List String) :=
  match space.entry key with
  | none => .ok []
  | some (.list items) => .ok (slice items start stop)
  | some (.string _) => .error .wrongType

@[simp] theorem entry_put (space : Keyspace) (key : String) (entry : Stored) :
    (space.put key entry).entry key = some entry := Function.update_self ..

theorem entry_put_of_ne (space : Keyspace) {key other : String} (entry : Stored) (hNe : other ≠ key) :
    (space.put key entry).entry other = space.entry other := Function.update_of_ne hNe ..

/-- From the first index to the last one: everything. -/
theorem slice_all (items : List String) : slice items 0 (-1) = items := by
  have hStop : (position items.length (-1) + 1).toNat = items.length := by
    rw [position, if_pos (by decide)]
    omega
  have hStart : (position items.length 0).toNat = 0 := by
    rw [position, if_neg (by decide)]
    rfl
  rw [slice, hStop, hStart, List.take_length, List.drop_zero]

/-- The string of a key. -/
def text (space : Keyspace) (key : String) : Option String :=
  match space.entry key with
  | some (.string text) => some text
  | _ => none

/-- The items of a key. -/
def items (space : Keyspace) (key : String) : List String :=
  match space.entry key with
  | some (.list items) => items
  | _ => []

variable {space : Keyspace} {key : String}

theorem text_put_string (written : String) :
    (space.put key (.string written)).text = Function.update space.text key (some written) := by
  funext other
  by_cases hSame : other = key
  · subst hSame
    rw [text, entry_put, Function.update_self]
  · rw [text, entry_put_of_ne _ _ hSame, Function.update_of_ne hSame, text]

theorem items_put_list (pushed : List String) :
    (space.put key (.list pushed)).items = Function.update space.items key pushed := by
  funext other
  by_cases hSame : other = key
  · subst hSame
    rw [items, entry_put, Function.update_self]
  · rw [items, entry_put_of_ne _ _ hSame, Function.update_of_ne hSame, items]

theorem items_put_of_ne {other : String} (entry : Stored) (hNe : other ≠ key) :
    (space.put key entry).items other = space.items other := by
  rw [items, entry_put_of_ne _ _ hNe, items]

theorem text_put_of_ne {other : String} (entry : Stored) (hNe : other ≠ key) :
    (space.put key entry).text other = space.text other := by
  rw [text, entry_put_of_ne _ _ hNe, text]

theorem text_of_get {found : Option String} (hGet : space.get key = .ok found) :
    found = space.text key := by
  rw [get] at hGet
  rw [text]
  split at hGet
  · cases hGet
    simp [*]
  · cases hGet
    simp [*]
  · cases hGet

/-- Pushing an item puts it after the others. -/
theorem rpush_ok {item : String} {pushed : Keyspace} (hPush : space.rpush key item = .ok pushed) :
    pushed = space.put key (.list (space.items key ++ [item])) := by
  rw [rpush] at hPush
  rw [items]
  split at hPush
  · cases hPush
    simp [*]
  · cases hPush
    simp [*]
  · cases hPush

theorem items_of_lrange {found : List String} (hRange : space.lrange key 0 (-1) = .ok found) :
    found = space.items key := by
  rw [lrange] at hRange
  rw [items]
  split at hRange
  · cases hRange
    simp [*]
  · cases hRange
    simp [*, slice_all]
  · cases hRange

end Keyspace

end Keyspaces
