import Mathlib.Algebra.GroupWithZero.Nat
import Mathlib.Algebra.Order.BigOperators.Group.List
import Mathlib.Algebra.Order.Group.Nat
import OwsRuntime.Core.Value

/-! JSON pointers: their reference tokens, how long a pointer to a list of tokens has to be,
and what the tokens lead to in a value. -/
namespace JsonPointer

/-- Reads `~1` as a slash and `~0` as a tilde. -/
def unescape : List Char → List Char
  | [] => []
  | '~' :: '0' :: rest => '~' :: unescape rest
  | '~' :: '1' :: rest => '/' :: unescape rest
  | c :: rest => c :: unescape rest

/-- The reference tokens of a pointer. A text that starts with something else than a slash
is no pointer. -/
def tokens (pointer : String) : Option (List String) :=
  match pointer.toList with
  | [] => some []
  | c :: rest =>
      if c = '/' then some ((rest.splitOn '/').map fun piece => String.ofList (unescape piece))
      else none

/-- A token which stands for itself in a pointer. -/
def Plain (token : String) : Prop := '/' ∉ token.toList ∧ unescape token.toList = token.toList

instance (token : String) : Decidable (Plain token) := inferInstanceAs (Decidable (_ ∧ _))

/-- The length of the tokens, with a slash before each. -/
def weight (tokens : List String) : Nat := (tokens.map fun token => token.length + 1).sum

@[simp] theorem weight_nil : weight [] = 0 := rfl

@[simp] theorem weight_cons (token : String) (rest : List String) :
    weight (token :: rest) = token.length + 1 + weight rest := by
  simp [weight]

@[simp] theorem weight_append (first second : List String) :
    weight (first ++ second) = weight first + weight second := by
  simp [weight]

theorem length_unescape_le (text : List Char) : (unescape text).length ≤ text.length := by
  fun_induction unescape text <;> simp_all <;> omega

theorem unescape_eq_self {text : List Char} (hTilde : '~' ∉ text) : unescape text = text := by
  fun_induction unescape text with
  | case1 => rfl
  | case2 rest => simp at hTilde
  | case3 rest => simp at hTilde
  | case4 c rest _ _ ih => rw [ih fun h => hTilde (List.mem_cons_of_mem _ h)]

theorem length_splitOn (c : Char) (text : List Char) :
    ((text.splitOn c).map fun piece => piece.length + 1).sum = text.length + 1 := by
  induction text with
  | nil => rfl
  | cons d rest ih =>
      rw [List.splitOn_cons_eq_if_modifyHead]
      split
      · simp [ih, Nat.add_comm]
      · obtain ⟨piece, more, hSplit⟩ := List.exists_cons_of_ne_nil (List.splitOn_ne_nil c rest)
        rw [hSplit] at ih ⊢
        simp only [List.modifyHead_cons, List.map_cons, List.sum_cons, List.length_cons] at ih ⊢
        omega

/-- The tokens of a pointer are no longer than its text. -/
theorem weight_tokens {pointer : String} {list : List String} (h : tokens pointer = some list) :
    weight list ≤ pointer.length := by
  rw [← String.length_toList]
  unfold tokens at h
  split at h
  · cases h
    exact Nat.zero_le _
  · rename_i c rest hText
    split at h
    · cases h
      rw [hText, weight, List.map_map, List.length_cons, ← length_splitOn '/' rest]
      refine List.sum_le_sum fun piece _ => ?_
      simpa using length_unescape_le piece
    · cases h

/-- A plain token at the front of a pointer. -/
theorem tokens_plain {token : String} (plain : Plain token) (rest : String) :
    tokens ("/" ++ token ++ "/" ++ rest) = (tokens ("/" ++ rest)).map (token :: ·) := by
  have hText : ("/" ++ token ++ "/" ++ rest).toList =
      '/' :: (token.toList ++ '/' :: rest.toList) := by
    simp
  have hRest : ("/" ++ rest).toList = '/' :: rest.toList := by simp
  rw [tokens, tokens, hText, hRest]
  simp [List.splitOn_append_cons_self_of_not_mem plain.1, plain.2]

/-- A pointer of one token is that token after a slash, when it contains neither a slash nor an
escape. -/
theorem tokens_single_iff {token : String} :
    tokens ("/" ++ token) = some [token] ↔ Plain token := by
  have hText : ("/" ++ token).toList = '/' :: token.toList := by simp
  rw [tokens, hText]
  simp only [if_true, Option.some.injEq]
  constructor
  · intro h
    have hOne : (token.toList.splitOn '/').length = 1 := by
      rw [← List.length_map, h]
      rfl
    obtain ⟨piece, hPiece⟩ := List.length_eq_one_iff.mp hOne
    have hWhole : ['/'].intercalate (token.toList.splitOn '/') = token.toList :=
      List.intercalate_splitOn '/'
    rw [hPiece, List.intercalate_singleton] at hWhole
    subst hWhole
    constructor
    · intro hSlash
      obtain ⟨first, rest, hSplit⟩ := List.append_of_mem hSlash
      rw [hSplit, List.splitOn_append_cons_self, List.length_append] at hOne
      have hFirst := List.length_pos_of_ne_nil (List.splitOn_ne_nil '/' first)
      have hRest := List.length_pos_of_ne_nil (List.splitOn_ne_nil '/' rest)
      omega
    · rw [hPiece, List.map_singleton, List.singleton_inj] at h
      rw [← String.toList_inj] at h
      simpa using h
  · intro plain
    rw [List.splitOn_eq_singleton plain.1, List.map_singleton, plain.2, String.ofList_toList]

theorem length_toString_mono {index raw : Nat} (hLe : index ≤ raw) :
    (toString index).length ≤ (toString raw).length := by
  have hBelow : raw < 10 ^ raw.repr.length :=
    (Nat.length_repr_le_iff Nat.length_repr_pos).mp (Nat.le_refl _)
  exact (Nat.length_repr_le_iff Nat.length_repr_pos).mpr (hLe.trans_lt hBelow)

theorem toString_injective {index raw : Nat} (hSame : toString index = toString raw) :
    index = raw := by
  have hDigits : Nat.toDigits 10 index = Nat.toDigits 10 raw := by
    rw [← Nat.toList_repr, ← Nat.toList_repr]
    exact congrArg String.toList hSame
  rw [← @Nat.ofDigitChars_ten_toDigits index, hDigits, Nat.ofDigitChars_ten_toDigits]

theorem plain_toString (index : Nat) : Plain (toString index) := by
  have hDigit : ∀ c ∈ (toString index).toList, c.isDigit = true := by
    intro c hc
    rw [Nat.toString_eq_repr, Nat.toList_repr] at hc
    exact Nat.isDigit_of_mem_toDigits (by decide) (by decide) hc
  constructor
  · intro hSlash
    exact absurd (hDigit _ hSlash) (by decide)
  · refine unescape_eq_self fun hTilde => ?_
    exact absurd (hDigit _ hTilde) (by decide)

end JsonPointer

namespace OwsRuntime
namespace Value

open JsonPointer

/-- The values within a value. The tokens of the items of an array are their indices. -/
def members : Value → Map
  | .object entries => entries
  | .array items => items.zipIdx.map fun item => (toString item.2, item.1)
  | _ => []

/-- The value which a list of reference tokens leads to. -/
def resolve (value : Value) : List String → Option Value
  | [] => some value
  | token :: rest => (value.members.lookup token).bind fun inner => inner.resolve rest

theorem resolve_append (value : Value) (first second : List String) :
    value.resolve (first ++ second) =
      (value.resolve first).bind fun inner => inner.resolve second := by
  induction first generalizing value with
  | nil => rfl
  | cons token rest ih =>
      rw [List.cons_append, Value.resolve, Value.resolve]
      cases value.members.lookup token with
      | none => rfl
      | some inner => exact ih inner

/-- The members of an array are its items under their indices, so a lookup of an index finds the
item there and nothing after the last one. -/
theorem lookup_members (items : List Value) (k : Nat) :
    (Value.array items).members.lookup (toString k) = items[k]? := by
  have hFrom : ∀ start, ((items.zipIdx start).map fun item => (toString item.2, item.1)).lookup
      (toString (start + k)) = items[k]? := by
    induction items generalizing k with
    | nil => simp
    | cons first rest ih =>
        intro start
        rw [List.zipIdx_cons, List.map_cons]
        cases k with
        | zero => simp
        | succ k =>
            have hOther : toString (start + (k + 1)) ≠ toString start := fun hSame =>
              absurd (toString_injective hSame) (by omega)
            have hPlace : start + (k + 1) = start + 1 + k := by omega
            rw [List.lookup_cons, beq_eq_false_iff_ne.mpr hOther, hPlace]
            exact ih k (start + 1)
  have hAll := hFrom 0
  rw [Nat.zero_add] at hAll
  exact hAll

end Value
end OwsRuntime
