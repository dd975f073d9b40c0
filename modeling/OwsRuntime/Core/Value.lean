import Mathlib.Algebra.Group.Int.Defs
import Mathlib.Algebra.GroupWithZero.Nat
import Mathlib.Data.List.Basic

/-! JSON values, as `serde_json` represents them. Objects are association lists
ordered by key, which is how its map type iterates. -/
namespace OwsRuntime

/-- A finite binary64 number `± mantissa * 2 ^ exponent`. The mantissa is odd,
or both it and the exponent are zero, so that equal numbers have equal fields,
up to the sign of zero. -/
structure F64 where
  negative : Bool
  mantissa : Nat
  exponent : Int
  bound : mantissa < 2 ^ 53
  normal : mantissa % 2 = 1 ∨ (mantissa = 0 ∧ exponent = 0)
deriving DecidableEq, Repr

/-- A JSON number. Integers keep their exact value. -/
inductive Number where
  | int (n : Int)
  | float (x : F64)
deriving DecidableEq, Repr

inductive Value where
  | null
  | bool (b : Bool)
  | number (n : Number)
  | string (s : String)
  | array (items : List Value)
  | object (entries : List (String × Value))
deriving Repr

/-- A JSON object, and also the map types of the runtime. A map whose iteration
order the runtime does not fix is a list in any order. -/
abbrev Map := List (String × Value)

namespace Value

mutual

/-- Structural equality, as `==` on `serde_json` values. -/
def beq : Value → Value → Bool
  | null, null => true
  | bool a, bool b => a == b
  | number a, number b => a == b
  | string a, string b => a == b
  | array a, array b => beqItems a b
  | object a, object b => beqEntries a b
  | _, _ => false

def beqItems : List Value → List Value → Bool
  | [], [] => true
  | a :: as, b :: bs => beq a b && beqItems as bs
  | _, _ => false

def beqEntries : List (String × Value) → List (String × Value) → Bool
  | [], [] => true
  | (k, a) :: as, (l, b) :: bs => k == l && beq a b && beqEntries as bs
  | _, _ => false

end

mutual

theorem eq_of_beq : ∀ {a b : Value}, beq a b = true → a = b
  | null, b, h => by cases b <;> simp_all [beq]
  | bool _, b, h => by cases b <;> simp_all [beq]
  | number _, b, h => by cases b <;> simp_all [beq]
  | string _, b, h => by cases b <;> simp_all [beq]
  | array as, b, h => by
      cases b <;> simp only [beq, Bool.false_eq_true] at h
      rw [items_eq_of_beq h]
  | object as, b, h => by
      cases b <;> simp only [beq, Bool.false_eq_true] at h
      rw [entries_eq_of_beq h]

theorem items_eq_of_beq : ∀ {as bs : List Value}, beqItems as bs = true → as = bs
  | [], bs, h => by cases bs <;> simp_all [beqItems]
  | a :: as, bs, h => by
      cases bs with
      | nil => simp [beqItems] at h
      | cons b bs =>
          simp only [beqItems, Bool.and_eq_true] at h
          rw [eq_of_beq h.1, items_eq_of_beq h.2]

theorem entries_eq_of_beq : ∀ {as bs : List (String × Value)}, beqEntries as bs = true → as = bs
  | [], bs, h => by cases bs <;> simp_all [beqEntries]
  | (k, a) :: as, bs, h => by
      cases bs with
      | nil => simp [beqEntries] at h
      | cons b bs =>
          obtain ⟨l, b⟩ := b
          simp only [beqEntries, Bool.and_eq_true, beq_iff_eq] at h
          rw [h.1.1, eq_of_beq h.1.2, entries_eq_of_beq h.2]

end

mutual

theorem beq_refl : ∀ a : Value, beq a a = true
  | null => rfl
  | bool _ => by simp [beq]
  | number _ => by simp [beq]
  | string _ => by simp [beq]
  | array as => beqItems_refl as
  | object as => beqEntries_refl as

theorem beqItems_refl : ∀ as : List Value, beqItems as as = true
  | [] => rfl
  | a :: as => by rw [beqItems, beq_refl a, beqItems_refl as, Bool.and_self]

theorem beqEntries_refl : ∀ as : List (String × Value), beqEntries as as = true
  | [] => rfl
  | (k, a) :: as => by simp [beqEntries, beq_refl a, beqEntries_refl as]

end

instance : DecidableEq Value := fun a b =>
  decidable_of_iff (beq a b = true) ⟨eq_of_beq, fun h => h ▸ beq_refl a⟩

instance : Inhabited Value := ⟨null⟩

/-- A JSON string, when the value is one. -/
def asStr : Value → Option String
  | string s => some s
  | _ => none

/-- An unsigned integer, when the value is one. -/
def asU64 : Value → Option Nat
  | number (.int (.ofNat n)) => if n < 2 ^ 64 then some n else none
  | _ => none

/-- A field of an object, or an absent one for any other value. -/
def get? (key : String) : Value → Option Value
  | object entries => entries.lookup key
  | _ => none

/-- One character of a string literal. -/
def escapeChar (c : Char) : String :=
  if c = '"' then "\\\""
  else if c = '\\' then "\\\\"
  else if c = '\n' then "\\n"
  else if c = '\r' then "\\r"
  else if c = '\t' then "\\t"
  else if c.toNat = 8 then "\\b"
  else if c.toNat = 12 then "\\f"
  else if c.toNat < 32 then
    "\\u00" ++ String.ofList [Nat.digitChar (c.toNat / 16), Nat.digitChar (c.toNat % 16)]
  else String.singleton c

def quote (s : String) : String := "\"" ++ String.join (s.toList.map escapeChar) ++ "\""

mutual

/-- Compact JSON text. The text of a float is given by `formatFloat`. -/
def display (formatFloat : F64 → String) : Value → String
  | null => "null"
  | bool b => if b then "true" else "false"
  | number (.int n) => toString n
  | number (.float x) => formatFloat x
  | string s => quote s
  | array items => "[" ++ displayItems formatFloat items ++ "]"
  | object entries => "\x7b" ++ displayEntries formatFloat entries ++ "\x7d"

def displayItems (formatFloat : F64 → String) : List Value → String
  | [] => ""
  | [item] => display formatFloat item
  | item :: rest => display formatFloat item ++ "," ++ displayItems formatFloat rest

def displayEntries (formatFloat : F64 → String) : List (String × Value) → String
  | [] => ""
  | [(k, v)] => quote k ++ ":" ++ display formatFloat v
  | (k, v) :: rest =>
      quote k ++ ":" ++ display formatFloat v ++ "," ++ displayEntries formatFloat rest

end

def ofNat (n : Nat) : Value := number (.int n)

def ofInt (n : Int) : Value := number (.int n)

end Value

namespace Map

/-- Insert into an ordered map. An entry with the same key is replaced. -/
def insert {α : Type} (key : String) (value : α) : List (String × α) → List (String × α)
  | [] => [(key, value)]
  | (k, v) :: rest =>
      if key = k then (key, value) :: rest
      else if key < k then (key, value) :: (k, v) :: rest
      else (k, v) :: insert key value rest

def remove {α : Type} (key : String) (map : List (String × α)) : List (String × α) :=
  map.filter fun entry => entry.1 != key

/-- Insert every entry of `more`, in its order. -/
def extend {α : Type} (map more : List (String × α)) : List (String × α) :=
  more.foldl (fun m entry => insert entry.1 entry.2 m) map

variable {α : Type}

theorem lookup_cons_of_ne {key k : String} (v : α) (rest : List (String × α)) (hne : key ≠ k) :
    ((k, v) :: rest).lookup key = rest.lookup key := by
  have hFalse : (key == k) = false := beq_eq_false_iff_ne.mpr hne
  rw [List.lookup_cons, hFalse]

@[simp] theorem lookup_insert_self (key : String) (value : α) (map : List (String × α)) :
    (insert key value map).lookup key = some value := by
  induction map with
  | nil => simp [insert]
  | cons entry rest ih =>
      obtain ⟨k, v⟩ := entry
      rw [insert]
      split
      · simp
      · rename_i hne
        split
        · simp
        · rw [lookup_cons_of_ne v _ hne]
          exact ih

theorem lookup_insert_of_ne {key key' : String} (value : α) (map : List (String × α))
    (hne : key' ≠ key) : (insert key value map).lookup key' = map.lookup key' := by
  induction map with
  | nil => exact lookup_cons_of_ne value [] hne
  | cons entry rest ih =>
      obtain ⟨k, v⟩ := entry
      rw [insert]
      split
      · rename_i hk
        subst hk
        rw [lookup_cons_of_ne value rest hne, lookup_cons_of_ne v rest hne]
      · split
        · exact lookup_cons_of_ne value _ hne
        · rw [List.lookup_cons, List.lookup_cons, ih]

/-- To insert an entry again changes nothing: it stands where it was put the first time, and takes
its own place. -/
theorem insert_insert (key : String) (value : α) (map : List (String × α)) :
    insert key value (insert key value map) = insert key value map := by
  induction map with
  | nil => simp [insert]
  | cons entry rest ih =>
      obtain ⟨k, v⟩ := entry
      rw [insert]
      split
      · simp [insert]
      · rename_i hne
        split
        · simp [insert]
        · rename_i hLess
          rw [insert, if_neg hne, if_neg hLess, ih]

theorem mem_insert {entry : String × α} {key : String} {value : α} {map : List (String × α)}
    (h : entry ∈ insert key value map) : entry = (key, value) ∨ entry ∈ map := by
  induction map with
  | nil => simpa [insert] using h
  | cons first rest ih =>
      obtain ⟨k, v⟩ := first
      rw [insert] at h
      split at h
      · rcases List.mem_cons.mp h with h | h
        · exact Or.inl h
        · exact Or.inr (List.mem_cons_of_mem _ h)
      · split at h
        · exact List.mem_cons.mp h
        · rcases List.mem_cons.mp h with h | h
          · exact Or.inr (h ▸ List.mem_cons_self)
          · exact (ih h).imp id (List.mem_cons_of_mem _)

theorem mem_of_mem_remove {entry : String × α} {key : String} {map : List (String × α)}
    (h : entry ∈ remove key map) : entry ∈ map :=
  (List.mem_filter.mp h).1

end Map
end OwsRuntime
