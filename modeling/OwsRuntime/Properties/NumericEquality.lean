import OwsRuntime.Core.Equality
import OwsRuntime.Engine.Attempts
import OwsRuntime.Engine.Listening
import OwsRuntime.Expressions.JsonText
import OwsRuntime.Properties.IntegerArithmetic

/-! Equality compares numbers as doubles. It tells integers apart that are not nearest to the
same double. -/
namespace OwsRuntime

open Jq

/-- A value whose numbers are 64-bit integers. The keys of an object are in order, as they are
in every JSON value. -/
inductive IntegerValue : Value → Prop where
  | null : IntegerValue .null
  | bool (b : Bool) : IntegerValue (.bool b)
  | int {n : Int} (hRange : InI64 n) : IntegerValue (.number (.int n))
  | string (s : String) : IntegerValue (.string s)
  | array {items : List Value} (hItems : ∀ item ∈ items, IntegerValue item) :
      IntegerValue (.array items)
  | object {entries : List (String × Value)} (hKeys : entries.Pairwise fun a b => a.1 < b.1)
      (hEntries : ∀ entry ∈ entries, IntegerValue entry.2) : IntegerValue (.object entries)

namespace Value

mutual

/-- A value with every number in it replaced by the nearest double. -/
def rounded : Value → Value
  | number n => number (.float n.asF64)
  | array items => array (roundedItems items)
  | object entries => object (roundedEntries entries)
  | v => v

def roundedItems : List Value → List Value
  | [] => []
  | v :: rest => rounded v :: roundedItems rest

def roundedEntries : List (String × Value) → List (String × Value)
  | [] => []
  | (k, v) :: rest => (k, rounded v) :: roundedEntries rest

end

theorem roundedItems_eq (items : List Value) : roundedItems items = items.map rounded := by
  induction items with
  | nil => rfl
  | cons v rest ih => rw [roundedItems, ih, List.map_cons]

theorem roundedEntries_eq (entries : List (String × Value)) :
    roundedEntries entries = entries.map fun entry => (entry.1, rounded entry.2) := by
  induction entries with
  | nil => rfl
  | cons entry rest ih => rw [roundedEntries, ih, List.map_cons]

end Value

section Numbers

variable {x y : F64} {m n : Int}

theorem normalize_zero {negative : Bool} {fuel m : Nat} {e : Int}
    (hZero : (F64.normalize negative fuel m e).mantissa = 0) :
    F64.normalize negative fuel m e = F64.zero := by
  induction fuel generalizing m e with
  | zero => rfl
  | succ fuel ih =>
      rw [F64.normalize] at hZero ⊢
      split at hZero
      · rename_i hOdd
        simp only at hZero
        rw [hZero] at hOdd
        exact absurd hOdd.1 (by decide)
      · rename_i hEven
        rw [dif_neg hEven]
        exact ih hZero

/-- There is one zero among the doubles that integers are rounded to. -/
theorem ofInt_zero (hZero : (F64.ofInt n).mantissa = 0) : F64.ofInt n = F64.zero := by
  rw [F64.ofInt] at hZero ⊢
  split at hZero <;> rename_i hLess <;> simp only [hLess] at hZero ⊢ <;> exact normalize_zero hZero

theorem F64.ext_fields (hNegative : x.negative = y.negative) (hMantissa : x.mantissa = y.mantissa)
    (hExponent : x.exponent = y.exponent) : x = y := by
  cases x
  cases y
  simp_all

theorem ofInt_eq_iff : (F64.ofInt m).eq (F64.ofInt n) = true ↔ F64.ofInt m = F64.ofInt n := by
  constructor
  · intro hEqual
    obtain ⟨⟨hMantissa, hExponent⟩, hSign⟩ := F64.eq_iff.mp hEqual
    rcases hSign with hSign | hZero
    · exact F64.ext_fields hSign hMantissa hExponent
    · rw [ofInt_zero hZero, ofInt_zero (hMantissa ▸ hZero)]
  · intro hSame
    rw [hSame]
    simp [F64.eq]

end Numbers

section Values

variable {x y : List (String × Value)} {items others : List Value} {a b : Value}

/-- Two objects in the order of their keys are the same if they have the same entries. -/
theorem eq_of_entries (hx : x.Pairwise fun a b => a.1 < b.1) (hy : y.Pairwise fun a b => a.1 < b.1)
    (hSubset : x ⊆ y) (hLength : x.length = y.length) : x = y := by
  have hNodup : x.Nodup := by
    refine hx.imp fun hLess hSame => ?_
    rw [hSame] at hLess
    exact String.lt_irrefl _ hLess
  have hPerm := (List.subperm_of_subset hNodup hSubset).perm_of_length_le hLength.ge
  refine hPerm.eq_of_pairwise (fun e f _ _ h h' => ?_) hx hy
  exact absurd (String.lt_trans h h') (String.lt_irrefl _)

theorem pairwise_rounded (hx : x.Pairwise fun a b => a.1 < b.1) :
    (Value.roundedEntries x).Pairwise fun a b => a.1 < b.1 := by
  rw [Value.roundedEntries_eq]
  exact List.pairwise_map.mpr hx

theorem mem_rounded {k : String} {v : Value} : (k, v) ∈ Value.roundedEntries x ↔
    ∃ u, (k, u) ∈ x ∧ u.rounded = v := by
  rw [Value.roundedEntries_eq, List.mem_map]
  constructor
  · rintro ⟨⟨l, u⟩, hMem, hEntry⟩
    cases hEntry
    exact ⟨u, hMem, rfl⟩
  · rintro ⟨u, hMem, rfl⟩
    exact ⟨(k, u), hMem, rfl⟩

theorem length_roundedEntries : (Value.roundedEntries x).length = x.length := by
  rw [Value.roundedEntries_eq, List.length_map]

/-- Two objects with their keys in order are equal if they agree after rounding, given that this is
so for each of their values. -/
theorem entriesEqual_rounded (hx : x.Pairwise fun a b => a.1 < b.1)
    (hy : y.Pairwise fun a b => a.1 < b.1)
    (ih : ∀ e ∈ x, ∀ f ∈ y, valuesEqual e.2 f.2 = true ↔ e.2.rounded = f.2.rounded) :
    valuesEqual (.object x) (.object y) = true ↔
      Value.roundedEntries x = Value.roundedEntries y := by
  rw [valuesEqual, Bool.and_eq_true, beq_iff_eq, entriesEqual_iff]
  constructor
  · rintro ⟨hLength, hEntries⟩
    refine eq_of_entries (pairwise_rounded hx) (pairwise_rounded hy) ?_
      (by rw [length_roundedEntries, length_roundedEntries, hLength])
    rintro ⟨k, v⟩ hMem
    obtain ⟨u, hEntry, rfl⟩ := mem_rounded.mp hMem
    obtain ⟨w, hLookup, hEqual⟩ := hEntries (k, u) hEntry
    have hOther := Map.mem_of_lookup hLookup
    exact mem_rounded.mpr ⟨w, hOther, ((ih _ hEntry _ hOther).mp hEqual).symm⟩
  · intro hSame
    refine ⟨by rw [← length_roundedEntries, hSame, length_roundedEntries], fun e hEntry => ?_⟩
    have hMem : (e.1, e.2.rounded) ∈ Value.roundedEntries y :=
      hSame ▸ mem_rounded.mpr ⟨e.2, hEntry, rfl⟩
    obtain ⟨w, hOther, hRounded⟩ := mem_rounded.mp hMem
    exact ⟨w, Map.lookup_of_mem (Map.nodup_of_sorted hy) hOther,
      (ih _ hEntry _ hOther).mpr hRounded.symm⟩

/-- Arrays are equal when their rounded items are the same, one by one, given that this is so for
each of the items. -/
theorem itemsEqual_rounded
    (ih : ∀ v ∈ items, ∀ w ∈ others, valuesEqual v w = true ↔ v.rounded = w.rounded) :
    valuesEqual (.array items) (.array others) = true ↔
      items.map Value.rounded = others.map Value.rounded := by
  rw [valuesEqual, Bool.and_eq_true, beq_iff_eq]
  constructor
  · rintro ⟨hLength, hItems⟩
    rw [itemsEqual_iff hLength] at hItems
    refine List.ext_getElem? fun i => ?_
    rw [List.getElem?_map, List.getElem?_map]
    cases hv : items[i]? with
    | none =>
        have hNone : others[i]? = none := by
          rw [List.getElem?_eq_none_iff] at hv ⊢
          omega
        rw [hNone]
    | some v =>
        obtain ⟨w, hw⟩ : ∃ w, others[i]? = some w := by
          have hBound := (List.getElem?_eq_some_iff.mp hv).1
          exact ⟨_, List.getElem?_eq_getElem (hLength ▸ hBound)⟩
        rw [hw, Option.map_some, Option.map_some, (ih v (List.mem_of_getElem? hv) w
          (List.mem_of_getElem? hw)).mp (hItems i v w hv hw)]
  · intro hSame
    have hLength : items.length = others.length := by simpa using congrArg List.length hSame
    refine ⟨hLength, (itemsEqual_iff hLength).mpr fun i v w hv hw => ?_⟩
    have hEntry := congrArg (fun list => list[i]?) hSame
    simp only [List.getElem?_map, hv, hw, Option.map_some, Option.some.injEq] at hEntry
    exact (ih v (List.mem_of_getElem? hv) w (List.mem_of_getElem? hw)).mpr hEntry

/-- Two values are equal if they are the same after every number in them has been rounded. -/
theorem IntegerValue.valuesEqual_iff (ha : IntegerValue a) (hb : IntegerValue b) :
    valuesEqual a b = true ↔ a.rounded = b.rounded := by
  induction ha generalizing b with
  | null => cases hb <;> simp [valuesEqual, Value.rounded]
  | bool => cases hb <;> simp [valuesEqual, Value.rounded]
  | string => cases hb <;> simp [valuesEqual, Value.rounded]
  | @int m _ =>
      cases hb with
      | @int n _ =>
          rw [valuesEqual, Number.asF64, Number.asF64, ofInt_eq_iff]
          simp [Value.rounded, Number.asF64]
      | _ => simp [valuesEqual, Value.rounded]
  | @array items _ ih =>
      cases hb with
      | @array others hOthers =>
          rw [itemsEqual_rounded fun v hv w hw => ih v hv (hOthers w hw), Value.rounded,
            Value.rounded, Value.array.injEq, Value.roundedItems_eq, Value.roundedItems_eq]
      | _ => simp [valuesEqual, Value.rounded]
  | @object x hx _ ih =>
      cases hb with
      | @object y hy hEntries =>
          rw [entriesEqual_rounded hx hy fun e he f hf => ih e he (hEntries f hf), Value.rounded,
            Value.rounded, Value.object.injEq]
      | _ => simp [valuesEqual, Value.rounded]

theorem eq_of_map_eq {α β : Type} {f : α → β} {xs ys : List α}
    (hInj : ∀ x ∈ xs, ∀ y ∈ ys, f x = f y → x = y) (hMap : xs.map f = ys.map f) : xs = ys := by
  induction xs generalizing ys with
  | nil => simpa using hMap.symm
  | cons x xs ih =>
      cases ys with
      | nil => cases hMap
      | cons y ys =>
          rw [List.map_cons, List.map_cons, List.cons.injEq] at hMap
          rw [hInj x List.mem_cons_self y List.mem_cons_self hMap.1]
          rw [ih (fun v hv w hw => hInj v (.tail x hv) w (.tail y hw)) hMap.2]

/-- Integers of up to 53 bits are not rounded, so that values with no others are told apart. -/
theorem rounded_inj (ha : Integral a) (hb : Integral b) (hSame : a.rounded = b.rounded) : a = b := by
  induction ha generalizing b with
  | null => cases hb <;> simp_all [Value.rounded]
  | bool => cases hb <;> simp_all [Value.rounded]
  | string => cases hb <;> simp_all [Value.rounded]
  | @int m hm =>
      cases hb with
      | @int n hn =>
          simp only [Value.rounded, Number.asF64, Value.number.injEq, Number.float.injEq] at hSame
          have hInt : some m = some n := by
            rw [← F64.ofInt_toInt? hm, hSame, F64.ofInt_toInt? hn]
          rw [Option.some.inj hInt]
      | _ => cases hSame
  | @array items _ ih =>
      cases hb with
      | @array others hOthers =>
          rw [Value.rounded, Value.rounded, Value.array.injEq, Value.roundedItems_eq,
            Value.roundedItems_eq] at hSame
          rw [eq_of_map_eq (fun v hv w hw h => ih v hv (hOthers w hw) h) hSame]
      | _ => cases hSame
  | @object x _ _ ih =>
      cases hb with
      | @object y _ hEntries =>
          rw [Value.rounded, Value.rounded, Value.object.injEq, Value.roundedEntries_eq,
            Value.roundedEntries_eq] at hSame
          have hEntry : ∀ e ∈ x, ∀ f ∈ y, (e.1, e.2.rounded) = (f.1, f.2.rounded) → e = f := by
            intro e he f hf hPair
            rw [Prod.mk.injEq] at hPair
            exact Prod.ext hPair.1 (ih e he (hEntries f hf) hPair.2)
          rw [eq_of_map_eq hEntry hSame]
      | _ => cases hSame

end Values

section Judges

variable {a b : Value}

/-- Two values are told apart exactly when they differ: by the operator of the language, by a
filter on errors, by the keys that correlate events, and by a filter on the attributes of
events. -/
structure JudgedExactly (platform : Platform) (a b : Value) : Prop where
  operator : ∀ vars input l r, eval platform vars l input = .ok [a] →
    eval platform vars r input = .ok [b] →
      (eval platform vars (.binary .eq l r) input = .ok [.bool true] ↔ a = b)
  errorFilter : ∀ (env : RuntimeInner) (catch_ : CatchDef) err vars field,
    problemField err.problem field = a →
      (env.catches { catch_ with filter := some [(field, b)], when := none, exceptWhen := none }
        err vars = .ok true ↔ a = b)
  expectation : ∀ (l : Listening) event (key : CorrelationDef) expect group,
    key.expect = some expect → l.extracted event key.from_ = some a → l.expected expect = some b →
      ((l.correlated event [key] group).isSome = true ↔ a = b)
  grouping : ∀ (l : Listening) event (key : CorrelationDef) group,
    key.expect = none → l.extracted event key.from_ = some a → group.lookup key.from_ = some b →
      ((l.correlated event [key] group).isSome = true ↔ a = b)
  eventFilter : ∀ event key, EventMatcher.attributeOf event key = a →
    (EventMatcher.matches_ ⟨none, none, none, [(key, b)]⟩ event = true ↔ a = b)

/-- What the operator yields for two values. -/
theorem eval_eq_singles (platform : Platform) {vars : Map} {input : Value} {l r : Expr}
    (hl : eval platform vars l input = .ok [a]) (hr : eval platform vars r input = .ok [b]) :
    eval platform vars (.binary .eq l r) input = .ok [.bool (valuesEqual a b)] := by
  rw [eval]
  simp only [hl, hr]
  rfl

theorem catches_single (env : RuntimeInner) (catch_ : CatchDef) (err : WorkflowError) (vars : Map)
    {field : String} (hField : problemField err.problem field = a) :
    env.catches { catch_ with filter := some [(field, b)], when := none, exceptWhen := none }
      err vars = .ok (valuesEqual a b) := by
  simp only [RuntimeInner.catches, Option.getD_some, List.all_cons, List.all_nil, Bool.and_true,
    hField]
  cases valuesEqual a b <;> rfl

/-- Each of the operators that test for equality uses the same comparison, so they all judge a pair
exactly when that comparison does. -/
theorem judgedExactly_iff (platform : Platform) :
    JudgedExactly platform a b ↔ (valuesEqual a b = true ↔ a = b) := by
  constructor
  · intro judged
    have hOwn := judged.operator [] .null (.literal a) (.literal b) (by rw [eval]) (by rw [eval])
    rw [eval_eq_singles platform (a := a) (b := b) (by rw [eval]) (by rw [eval])] at hOwn
    simpa using hOwn
  · intro hExact
    refine ⟨fun vars input l r hl hr => ?_, fun env catch_ err vars field hField => ?_,
      fun l event key expect group hExpect hGot hWant => ?_,
      fun l event key group hExpect hGot hGroup => ?_, fun event key hAttribute => ?_⟩
    · rw [eval_eq_singles platform hl hr, ← hExact]
      simp
    · rw [catches_single env catch_ err vars hField, ← hExact]
      simp
    · rw [Listening.correlated, hGot, Option.bind_some, hExpect]
      simp only [hWant, Option.bind_some, Listening.correlated]
      rw [← hExact]
      cases valuesEqual a b <;> simp
    · rw [Listening.correlated, hGot, Option.bind_some, hExpect]
      simp only [hGroup, Listening.correlated]
      rw [← hExact]
      cases valuesEqual a b <;> simp
    · simp only [EventMatcher.matches_, Option.all_none, Bool.true_and, List.all_cons, List.all_nil,
        Bool.and_true, hAttribute, hExact]

/-- Two values with integers are judged exactly if they are the same, or differ in something
else than integers that are nearest to the same double. -/
theorem equality_exact_iff (platform : Platform) (ha : IntegerValue a) (hb : IntegerValue b) :
    JudgedExactly platform a b ↔ (a = b ∨ a.rounded ≠ b.rounded) := by
  rw [judgedExactly_iff, ha.valuesEqual_iff hb]
  constructor
  · intro hExact
    by_cases hSame : a.rounded = b.rounded
    · exact Or.inl (hExact.mp hSame)
    · exact Or.inr hSame
  · rintro (hSame | hOther)
    · exact iff_of_true (congrArg _ hSame) hSame
    · exact iff_of_false hOther fun hSame => hOther (congrArg _ hSame)

/-- Small integers are told apart, also within arrays. -/
theorem equality_exact_pair : JudgedExactly (.ascii true) (.array [.number (.int 7), .null])
    (.array [.number (.int 8), .null]) := by
  have hInt : ∀ n : Int, InI64 n → IntegerValue (.array [.number (.int n), .null]) := by
    intro n hn
    refine .array fun item hItem => ?_
    rcases List.mem_cons.mp hItem with rfl | hItem
    · exact .int hn
    · cases List.mem_singleton.mp hItem
      exact .null
  exact (equality_exact_iff (.ascii true) (hInt 7 (by decide)) (hInt 8 (by decide))).mpr
    (Or.inr (by decide))

/-- An identifier of 64 bits is equal to the next one. -/
theorem large_identifiers : ¬ JudgedExactly (.ascii true) (.number (.int (2 ^ 53)))
    (.number (.int (2 ^ 53 + 1))) := by
  rw [judgedExactly_iff]
  intro hExact
  exact absurd (hExact.mp (by decide)) (by decide)

end Judges

section Difference

variable {a b : List Value} {x y : Value}

/-- Lists are identical when they have one length and are so at every index. The induction is on the
first list. -/
theorem identicalItems_iff {xs ys : List Value} : identicalItems xs ys = true ↔
    xs.length = ys.length ∧ ∀ (i : Nat) (x y : Value), xs[i]? = some x → ys[i]? = some y →
      identical x y = true := by
  induction xs generalizing ys with
  | nil => cases ys <;> simp [identicalItems]
  | cons x xs ih =>
      cases ys with
      | nil => simp [identicalItems]
      | cons y ys =>
          rw [identicalItems, Bool.and_eq_true, ih, List.length_cons, List.length_cons,
            Nat.succ_inj]
          constructor
          · rintro ⟨hFirst, hLength, hRest⟩
            refine ⟨hLength, fun i v w hv hw => ?_⟩
            cases i with
            | zero =>
                cases hv
                cases hw
                exact hFirst
            | succ i => exact hRest i v w hv hw
          · rintro ⟨hLength, hAll⟩
            exact ⟨hAll 0 x y rfl rfl, hLength, fun i v w hv hw => hAll (i + 1) v w hv hw⟩

theorem identicalEntries_spec {xs ys : List (String × Value)} (hSame : identicalEntries xs ys = true) :
    xs.length = ys.length ∧ ∀ e ∈ xs, ∃ w, (e.1, w) ∈ ys ∧ identical e.2 w = true := by
  induction xs generalizing ys with
  | nil => cases ys <;> simp_all [identicalEntries]
  | cons e xs ih =>
      cases ys with
      | nil => cases hSame
      | cons f ys =>
          simp only [identicalEntries, Bool.and_eq_true, beq_iff_eq] at hSame
          obtain ⟨⟨hKey, hFirst⟩, hRest⟩ := hSame
          obtain ⟨hLength, hEntries⟩ := ih hRest
          refine ⟨by rw [List.length_cons, List.length_cons, hLength], ?_⟩
          refine List.forall_mem_cons.mpr ⟨⟨f.2, ?_, hFirst⟩, fun e' hMem => ?_⟩
          · rw [hKey]
            exact List.mem_cons_self
          · obtain ⟨w, hOther, hIdentical⟩ := hEntries e' hMem
            exact ⟨w, List.mem_cons_of_mem _ hOther, hIdentical⟩

/-- What the library takes for the same value the language takes for an equal one. -/
theorem valuesEqual_of_identical (wf : y.WellFormed) (hSame : identical x y = true) :
    valuesEqual x y = true := by
  induction x using Value.induction generalizing y with
  | null => cases y <;> simp_all [identical, valuesEqual]
  | bool b => cases y <;> simp_all [identical, valuesEqual]
  | string s => cases y <;> simp_all [identical, valuesEqual]
  | number n =>
      cases y with
      | number m =>
          cases n with
          | int n =>
              cases m with
              | int m => simp_all [identical, valuesEqual, F64.eq]
              | float => cases hSame
          | float u =>
              cases m with
              | int => cases hSame
              | float w => simpa only [identical, valuesEqual, Number.asF64] using hSame
      | _ => cases n <;> cases hSame
  | array items ih =>
      cases y with
      | array others =>
          rw [identical, identicalItems_iff] at hSame
          rw [valuesEqual, hSame.1, beq_self_eq_true, Bool.true_and, itemsEqual_iff hSame.1]
          rw [Value.WellFormed, Value.itemsWellFormed_iff] at wf
          intro i v w hv hw
          exact ih v (List.mem_of_getElem? hv) (wf w (List.mem_of_getElem? hw))
            (hSame.2 i v w hv hw)
      | _ => cases hSame
  | object entries ih =>
      cases y with
      | object others =>
          rw [identical] at hSame
          obtain ⟨hLength, hEntries⟩ := identicalEntries_spec hSame
          rw [valuesEqual, hLength, beq_self_eq_true, Bool.true_and, entriesEqual_iff]
          rw [Value.WellFormed, Value.entriesWellFormed_iff] at wf
          intro e hEntry
          obtain ⟨w, hOther, hIdentical⟩ := hEntries e hEntry
          exact ⟨w, Map.lookup_of_mem wf.1 hOther, ih e hEntry (wf.2 _ hOther) hIdentical⟩
      | _ => cases hSame

/-- The elements that remain are those that the language finds equal to none of the others,
if an element that it finds equal to one is also the same value as one. -/
theorem difference_iff (platform : Platform) (vars : Map) (input : Value) (l r : Expr)
    (hl : eval platform vars l input = .ok [.array a])
    (hr : eval platform vars r input = .ok [.array b]) (ha : (Value.array a).WellFormed)
    (hb : (Value.array b).WellFormed) :
    eval platform vars (.binary .sub l r) input =
        .ok [.array (a.filter fun x => !b.any fun y => valuesEqual x y)] ↔
      ∀ x ∈ a, (∃ y ∈ b, valuesEqual x y = true) → ∃ y ∈ b, identical y x = true := by
  rw [Value.WellFormed, Value.itemsWellFormed_iff] at ha hb
  have hEval : eval platform vars (.binary .sub l r) input =
      .ok [.array (a.filter fun x => !b.any fun y => identical y x)] := by
    rw [eval]
    simp only [hl, hr]
    rfl
  have hAgrees : ∀ x ∈ a, (b.any fun y => identical y x) = true →
      (b.any fun y => valuesEqual x y) = true := by
    intro x hx hAny
    obtain ⟨y, hy, hSame⟩ := List.any_eq_true.mp hAny
    have hEqual := valuesEqual_of_identical (ha x hx) hSame
    exact List.any_eq_true.mpr ⟨y, hy, Value.valuesEqual_symm (hb y hy) hEqual⟩
  rw [hEval]
  constructor
  · intro hSame x hx hEqual
    have hFilter : a.filter (fun x => !b.any fun y => identical y x) =
        a.filter fun x => !b.any fun y => valuesEqual x y := by simpa using hSame
    by_contra hNone
    have hKept : x ∈ a.filter fun x => !b.any fun y => identical y x := by
      simp only [List.mem_filter, Bool.not_eq_true', List.any_eq_false]
      exact ⟨hx, fun y hy hIdentical => hNone ⟨y, hy, hIdentical⟩⟩
    rw [hFilter, List.mem_filter, List.any_eq_true.mpr hEqual] at hKept
    cases hKept.2
  · intro hAll
    have hFilter : a.filter (fun x => !b.any fun y => identical y x) =
        a.filter fun x => !b.any fun y => valuesEqual x y := by
      refine List.filter_congr fun x hx => ?_
      congr 1
      rw [Bool.eq_iff_iff]
      exact ⟨hAgrees x hx, fun hAny => List.any_eq_true.mpr (hAll x hx (List.any_eq_true.mp hAny))⟩
    rw [hFilter]

/-- The other elements remain, each as often as it was there. -/
theorem difference_integers :
    eval (.ascii true) [] (.binary .sub (.literal (.array [.number (.int 1), .number (.int 2),
      .number (.int 1)])) (.literal (.array [.number (.int 2)]))) .null =
      .ok [.array [.number (.int 1), .number (.int 1)]] := by
  have hl : eval (.ascii true) [] (.literal (.array [.number (.int 1), .number (.int 2),
      .number (.int 1)])) .null =
        .ok [.array [.number (.int 1), .number (.int 2), .number (.int 1)]] := by rw [eval]
  have hr : eval (.ascii true) [] (.literal (.array [.number (.int 2)])) .null =
      .ok [.array [.number (.int 2)]] := by rw [eval]
  have hFilter : ([.number (.int 1), .number (.int 2), .number (.int 1)] : List Value).filter
      (fun x => !([Value.number (.int 2)].any fun y => valuesEqual x y)) =
        [.number (.int 1), .number (.int 1)] := by decide
  have hSub := (difference_iff (.ascii true) [] .null _ _ hl hr
    (by simp [Value.WellFormed, Value.ItemsWellFormed])
    (by simp [Value.WellFormed, Value.ItemsWellFormed])).mpr (by decide)
  rwa [hFilter] at hSub

/-- The integer one equals the float one, and stays. -/
theorem difference_float : valuesEqual (.number (.float (F64.ofInt 1))) (.number (.int 1)) = true ∧
    eval (.ascii true) [] (.binary .sub (.literal (.array [.number (.float (F64.ofInt 1))]))
      (.literal (.array [.number (.int 1)]))) .null ≠ .ok [.array []] := by
  refine ⟨by decide, fun hSame => ?_⟩
  rw [eval, eval, eval] at hSame
  have hKept : [Value.number (.float (F64.ofInt 1))] = [] := by
    have hArrays := List.head_eq_of_cons_eq (Except.ok.inj hSame)
    exact Value.array.inj hArrays
  cases hKept

end Difference

end OwsRuntime
