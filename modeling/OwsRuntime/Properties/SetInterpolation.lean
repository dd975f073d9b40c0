import OwsRuntime.Core.Equality
import OwsRuntime.Engine.Runs
import OwsRuntime.Engine.Sources
import OwsRuntime.Engine.Turns
import OwsRuntime.Expressions.Eval

/-! What a set task stores, against the interpolation at every depth which emit tasks and
the bodies of requests get. -/
namespace OwsRuntime

open Async

section Turns

variable {α β : Type}

/-- The program returns in its first turn, and changes nothing but the notes. -/
def AtOnce (p : Run α) (result : Except WorkflowError α) : Prop :=
  ∀ σ : EngineState, ∃ τ, σ.Noted τ ∧ engine.advance p.run σ = (.done result, τ)

theorem AtOnce.pure (a : α) : AtOnce (Pure.pure a) (.ok a) := fun σ => ⟨σ, .refl σ, rfl⟩

theorem AtOnce.bind {p : Run α} {f : α → Run β} {result : Except WorkflowError α}
    {g : α → Except WorkflowError β} (first : AtOnce p result) (next : ∀ a, AtOnce (f a) (g a)) :
    AtOnce (p >>= f) (result >>= g) := by
  intro σ
  obtain ⟨τ, hNoted, hFirst⟩ := first σ
  cases result with
  | error e => exact ⟨τ, hNoted, Handler.advance_bind_of_error hFirst⟩
  | ok a =>
      obtain ⟨υ, hMore, hNext⟩ := next a τ
      exact ⟨υ, hNoted.trans hMore, (Handler.advance_bind_of_ok hFirst).trans hNext⟩

theorem AtOnce.map {p : Run α} {result : Except WorkflowError α} (first : AtOnce p result)
    (f : α → β) : AtOnce (p >>= fun a => Pure.pure (f a)) (result.map f) := by
  have hBind := first.bind fun a => AtOnce.pure (f a)
  cases result <;> exact hBind

/-- The only result that a program can have. -/
theorem AtOnce.done_iff {p : Run α} {result : Except WorkflowError α} (atOnce : AtOnce p result)
    (σ : EngineState) (a : α) :
    (∃ τ, engine.advance p.run σ = (.done (.ok a), τ)) ↔ result = .ok a := by
  obtain ⟨τ, _, hAdvance⟩ := atOnce σ
  constructor
  · rintro ⟨υ, hDone⟩
    rw [hAdvance] at hDone
    cases hDone
    rfl
  · rintro rfl
    exact ⟨τ, hAdvance⟩

end Turns

section Values

variable (env : RuntimeInner) (exprCtx : ExpressionContext)

/-- The value of a string with its expressions. -/
def evaluated (s : String) : Except WorkflowError Value :=
  (env.expression.evaluateInterpolation s exprCtx.input exprCtx.asVariableMap).mapError
    (toExpressionError · none)

/-- What a set task makes of a value. -/
def shallow : Value → Except WorkflowError Value
  | .string s => evaluated env exprCtx s
  | v => .ok v

mutual

/-- What the interpolation at every depth makes of a value. -/
def deep : Value → Except WorkflowError Value
  | .string s => evaluated env exprCtx s
  | .array items => (deepItems items).map Value.array
  | .object entries => (deepEntries entries).map Value.object
  | v => .ok v

def deepItems : List Value → Except WorkflowError (List Value)
  | [] => .ok []
  | v :: rest => deep v >>= fun w => (deepItems rest).map (w :: ·)

def deepEntries : List (String × Value) → Except WorkflowError (List (String × Value))
  | [] => .ok []
  | (k, v) :: rest => deep v >>= fun w => (deepEntries rest).map ((k, w) :: ·)

end

variable {env exprCtx}

theorem evalInterpolation_atOnce (v : Value) :
    AtOnce (evalInterpolation env v exprCtx) (shallow env exprCtx v) := by
  cases v with
  | string s => exact fun σ => ⟨_, σ.noted_note _, rfl⟩
  | _ => exact AtOnce.pure _

mutual

theorem deepInterpolate_atOnce : ∀ v : Value,
    AtOnce (deepInterpolate env exprCtx v) (deep env exprCtx v)
  | .null => AtOnce.pure _
  | .bool _ => AtOnce.pure _
  | .number _ => AtOnce.pure _
  | .string s => evalInterpolation_atOnce (.string s)
  | .array items => (deepInterpolateItems_atOnce items).map Value.array
  | .object entries => (deepInterpolateEntries_atOnce entries).map Value.object

theorem deepInterpolateItems_atOnce : ∀ items : List Value,
    AtOnce (deepInterpolateItems env exprCtx items) (deepItems env exprCtx items)
  | [] => AtOnce.pure _
  | v :: rest => (deepInterpolate_atOnce v).bind fun w =>
      (deepInterpolateItems_atOnce rest).map (w :: ·)

theorem deepInterpolateEntries_atOnce : ∀ entries : List (String × Value),
    AtOnce (deepInterpolateEntries env exprCtx entries) (deepEntries env exprCtx entries)
  | [] => AtOnce.pure _
  | (k, v) :: rest => (deepInterpolate_atOnce v).bind fun w =>
      (deepInterpolateEntries_atOnce rest).map ((k, w) :: ·)

end

/-- The entries of a map with one rule for their values. -/
def mapEntries (f : Value → Except WorkflowError Value) :
    List (String × Value) → Except WorkflowError (List (String × Value))
  | [] => .ok []
  | (k, v) :: rest => f v >>= fun w => (mapEntries f rest).map ((k, w) :: ·)

theorem interpolateEntries_atOnce : ∀ entries : Map,
    AtOnce (interpolateEntries env exprCtx entries) (mapEntries (shallow env exprCtx) entries)
  | [] => AtOnce.pure _
  | (k, v) :: rest => (evalInterpolation_atOnce v).bind fun w =>
      (interpolateEntries_atOnce rest).map ((k, w) :: ·)

theorem taskSet_atOnce (entries : Map) : AtOnce (taskSet env (.map entries) exprCtx)
    ((mapEntries (shallow env exprCtx) entries).map fun out => Value.object (Map.extend [] out)) :=
  (interpolateEntries_atOnce entries).map fun out => Value.object (Map.extend [] out)

theorem deepEntries_eq : ∀ entries : List (String × Value),
    deepEntries env exprCtx entries = mapEntries (deep env exprCtx) entries
  | [] => by rw [deepEntries, mapEntries]
  | (k, v) :: rest => by rw [deepEntries, mapEntries, deepEntries_eq rest]

/-- The value of a result, where there is one. -/
def outcomeOf (result : Except WorkflowError Value) : Value := result.toOption.getD .null

/-- A map is evaluated when each of its values is, and the result has the same keys with the
outcomes of their values. The induction is on the entries. -/
theorem mapEntries_eq_ok_iff (f : Value → Except WorkflowError Value) {entries out : Map} :
    mapEntries f entries = .ok out ↔
      (∀ e ∈ entries, ∃ w, f e.2 = .ok w) ∧ out = entries.map fun e => (e.1, outcomeOf (f e.2)) := by
  induction entries generalizing out with
  | nil =>
      rw [mapEntries]
      constructor
      · rintro ⟨⟩
        exact ⟨nofun, rfl⟩
      · rintro ⟨_, rfl⟩
        rfl
  | cons e rest ih =>
      obtain ⟨k, v⟩ := e
      rw [mapEntries, List.forall_mem_cons, List.map_cons]
      cases hFirst : f v with
      | error err =>
          refine iff_of_false nofun ?_
          rintro ⟨⟨⟨_, h⟩, _⟩, _⟩
          cases h
      | ok w =>
          cases hRest : mapEntries f rest with
          | error err =>
              refine iff_of_false nofun ?_
              rintro ⟨⟨_, hAll⟩, _⟩
              cases hRest.symm.trans (ih.mpr ⟨hAll, rfl⟩)
          | ok more =>
              obtain ⟨hAll, rfl⟩ := ih.mp hRest
              constructor
              · rintro ⟨⟩
                exact ⟨⟨⟨w, rfl⟩, hAll⟩, rfl⟩
              · rintro ⟨_, rfl⟩
                rfl

mutual

/-- The interpolation keeps a value if it keeps every string in it. -/
theorem deep_eq_self_iff : ∀ v : Value, deep env exprCtx v = .ok v ↔
    ∀ s ∈ v.strings, evaluated env exprCtx s = .ok (.string s)
  | .null => iff_of_true rfl nofun
  | .bool _ => iff_of_true rfl nofun
  | .number _ => iff_of_true rfl nofun
  | .string s => by
      rw [deep, Value.strings]
      simp
  | .array items => by
      rw [deep, Value.strings, ← deepItems_eq_self_iff items]
      cases deepItems env exprCtx items with
      | error e => exact iff_of_false nofun nofun
      | ok out => simp [Except.map]
  | .object entries => by
      rw [deep, Value.strings, ← deepEntries_eq_self_iff entries]
      cases deepEntries env exprCtx entries with
      | error e => exact iff_of_false nofun nofun
      | ok out => simp [Except.map]

theorem deepItems_eq_self_iff : ∀ items : List Value, deepItems env exprCtx items = .ok items ↔
    ∀ s ∈ Value.itemStrings items, evaluated env exprCtx s = .ok (.string s)
  | [] => iff_of_true rfl nofun
  | v :: rest => by
      rw [deepItems, Value.itemStrings, List.forall_mem_append, ← deep_eq_self_iff v,
        ← deepItems_eq_self_iff rest]
      cases deep env exprCtx v with
      | error e => exact iff_of_false nofun nofun
      | ok w =>
          cases deepItems env exprCtx rest with
          | error e => exact iff_of_false nofun nofun
          | ok out =>
              change Except.ok (w :: out) = Except.ok (v :: rest) ↔ _
              simp

theorem deepEntries_eq_self_iff : ∀ entries : List (String × Value),
    deepEntries env exprCtx entries = .ok entries ↔
      ∀ s ∈ Value.entryStrings entries, evaluated env exprCtx s = .ok (.string s)
  | [] => iff_of_true rfl nofun
  | (k, v) :: rest => by
      rw [deepEntries, Value.entryStrings, List.forall_mem_append, ← deep_eq_self_iff v,
        ← deepEntries_eq_self_iff rest]
      cases deep env exprCtx v with
      | error e => exact iff_of_false nofun nofun
      | ok w =>
          cases deepEntries env exprCtx rest with
          | error e => exact iff_of_false nofun nofun
          | ok out =>
              change Except.ok ((k, w) :: out) = Except.ok ((k, v) :: rest) ↔ _
              simp

end

section Maps

variable {entries : Map}

theorem mem_extend_nil (hNodup : (entries.map Prod.fst).Nodup) {e : String × Value} :
    e ∈ Map.extend [] entries ↔ e ∈ entries := by
  have hKeys := Map.nodup_of_sorted (@Map.sorted_extend Value [] entries .nil)
  have hLookup := Map.lookup_extend_nil hNodup e.1
  constructor
  · intro hMem
    rw [Map.lookup_of_mem hKeys hMem] at hLookup
    exact Map.mem_of_lookup hLookup.symm
  · intro hMem
    rw [Map.lookup_of_mem hNodup hMem] at hLookup
    exact Map.mem_of_lookup hLookup

/-- The object that one rule for the values makes of a map, in any order of its entries. -/
theorem mapEntries_object_iff (f : Value → Except WorkflowError Value) (out : Value) :
    (mapEntries f entries).map (fun out => Value.object (Map.extend [] out)) = .ok out ↔
      (∀ e ∈ entries, ∃ w, f e.2 = .ok w) ∧
        out = .object ((Map.extend [] entries).map fun e => (e.1, outcomeOf (f e.2))) := by
  rw [← Map.extend_map (fun v => outcomeOf (f v)), List.map_nil]
  cases hMap : mapEntries f entries with
  | error e =>
      refine iff_of_false nofun ?_
      rintro ⟨hAll, _⟩
      cases hMap.symm.trans ((mapEntries_eq_ok_iff f).mpr ⟨hAll, rfl⟩)
  | ok found =>
      obtain ⟨hAll, rfl⟩ := (mapEntries_eq_ok_iff f).mp hMap
      constructor
      · rintro ⟨⟩
        exact ⟨hAll, rfl⟩
      · rintro ⟨_, rfl⟩
        rfl

/-- An object is interpolated at every depth when each of its values is, and it then has the
outcomes under the same keys. -/
theorem deep_object_iff (hNodup : (entries.map Prod.fst).Nodup) (out : Value) :
    deep env exprCtx (.object (Map.extend [] entries)) = .ok out ↔
      (∀ e ∈ entries, ∃ w, deep env exprCtx e.2 = .ok w) ∧ out = .object
        ((Map.extend [] entries).map fun e => (e.1, outcomeOf (deep env exprCtx e.2))) := by
  have hEntries : (∀ e ∈ entries, ∃ w, deep env exprCtx e.2 = .ok w) ↔
      ∀ e ∈ Map.extend [] entries, ∃ w, deep env exprCtx e.2 = .ok w := by
    simp only [mem_extend_nil hNodup]
  rw [deep, deepEntries_eq, hEntries]
  cases hMap : mapEntries (deep env exprCtx) (Map.extend [] entries) with
  | error e =>
      refine iff_of_false nofun ?_
      rintro ⟨hAll, _⟩
      cases hMap.symm.trans ((mapEntries_eq_ok_iff _).mpr ⟨hAll, rfl⟩)
  | ok found =>
      obtain ⟨hAll, rfl⟩ := (mapEntries_eq_ok_iff _).mp hMap
      constructor
      · rintro ⟨⟩
        exact ⟨hAll, rfl⟩
      · rintro ⟨_, rfl⟩
        rfl

/-- Every string nested in a value of a map is the value of its own expressions. -/
def NestedKept (env : RuntimeInner) (exprCtx : ExpressionContext) (entries : Map) : Prop :=
  ∀ e ∈ entries, e.2.asStr = none → ∀ s ∈ e.2.strings, evaluated env exprCtx s = .ok (.string s)

theorem shallow_of_not_string {v : Value} (hOther : v.asStr = none) : shallow env exprCtx v = .ok v := by
  cases v <;> first | rfl | cases hOther

theorem deep_eq_shallow_iff {v : Value} : deep env exprCtx v = shallow env exprCtx v ↔
    (v.asStr = none → ∀ s ∈ v.strings, evaluated env exprCtx s = .ok (.string s)) := by
  cases hString : v.asStr with
  | some s =>
      cases v <;> cases hString
      exact iff_of_true rfl nofun
  | none =>
      rw [shallow_of_not_string hString, deep_eq_self_iff]
      exact ⟨fun h _ => h, fun h => h rfl⟩

/-- A value that is no text with a failing expression has a result at the top. -/
theorem exists_shallow {value : Value}
    (hNone : ¬ ∃ s, value = .string s ∧ ∀ w, evaluated env exprCtx s ≠ .ok w) :
    ∃ w, shallow env exprCtx value = .ok w := by
  cases hString : value.asStr with
  | none => exact ⟨_, shallow_of_not_string hString⟩
  | some s =>
      have hValue : value = .string s := by
        cases value <;> cases hString
        rfl
      by_contra hFails
      refine hNone ⟨s, hValue, fun w hw => hFails ⟨w, ?_⟩⟩
      rw [hValue]
      exact hw

/-- The two runs have the same results if and only if the two interpolations have. -/
theorem set_results_iff (σ : EngineState) (hNodup : (entries.map Prod.fst).Nodup) :
    (∀ out, (∃ τ, engine.advance (taskSet env (.map entries) exprCtx).run σ = (.done (.ok out), τ)) ↔
        ∃ τ, engine.advance (deepInterpolate env exprCtx (.object (Map.extend [] entries))).run σ =
          (.done (.ok out), τ)) ↔
      ∀ out : Value, ((∀ e ∈ entries, ∃ w, shallow env exprCtx e.2 = .ok w) ∧ out = .object
          ((Map.extend [] entries).map fun e => (e.1, outcomeOf (shallow env exprCtx e.2)))) ↔
        (∀ e ∈ entries, ∃ w, deep env exprCtx e.2 = .ok w) ∧ out = .object
          ((Map.extend [] entries).map fun e => (e.1, outcomeOf (deep env exprCtx e.2))) := by
  refine forall_congr' fun out => ?_
  rw [(taskSet_atOnce entries).done_iff σ out, (deepInterpolate_atOnce _).done_iff σ out,
    mapEntries_object_iff, deep_object_iff hNodup]

/-- A set task stores the interpolation of its map at every depth if it fails, or if the
expressions nested in the map's values are their own values. -/
theorem set_interpolation_iff (σ : EngineState) (hNodup : (entries.map Prod.fst).Nodup) :
    (∀ out, (∃ τ, engine.advance (taskSet env (.map entries) exprCtx).run σ = (.done (.ok out), τ)) ↔
        ∃ τ, engine.advance (deepInterpolate env exprCtx (.object (Map.extend [] entries))).run σ =
          (.done (.ok out), τ)) ↔
      (∃ e ∈ entries, ∃ s, e.2 = .string s ∧ ∀ w, evaluated env exprCtx s ≠ .ok w) ∨
        NestedKept env exprCtx entries := by
  rw [set_results_iff σ hNodup]
  by_cases hFails : ∃ e ∈ entries, ∃ s, e.2 = .string s ∧ ∀ w, evaluated env exprCtx s ≠ .ok w
  · refine iff_of_true (fun out => ?_) (Or.inl hFails)
    obtain ⟨e, hMem, s, hString, hNone⟩ := hFails
    refine iff_of_false (fun h => ?_) fun h => ?_
    · obtain ⟨w, hw⟩ := h.1 e hMem
      rw [hString] at hw
      exact hNone w hw
    · obtain ⟨w, hw⟩ := h.1 e hMem
      rw [hString, deep] at hw
      exact hNone w hw
  · have hShallow : ∀ e ∈ entries, ∃ w, shallow env exprCtx e.2 = .ok w :=
      fun e hMem => exists_shallow fun hNone => hFails ⟨e, hMem, hNone⟩
    rw [or_iff_right hFails]
    constructor
    · intro hSame e hMem
      obtain ⟨hDeep, hObjects⟩ := (hSame _).mp ⟨hShallow, rfl⟩
      have hEntries := Value.object.inj hObjects
      have hEntry := List.map_inj_left.mp hEntries e ((mem_extend_nil hNodup).mpr hMem)
      obtain ⟨w, hw⟩ := hDeep e hMem
      obtain ⟨u, hu⟩ := hShallow e hMem
      rw [hw, hu] at hEntry
      refine deep_eq_shallow_iff.mp ?_
      rw [hw, hu]
      exact congrArg Except.ok (Prod.mk.inj hEntry).2.symm
    · intro kept out
      have hEach : ∀ e ∈ entries, deep env exprCtx e.2 = shallow env exprCtx e.2 :=
        fun e hMem => deep_eq_shallow_iff.mpr (kept e hMem)
      have hObjects : (Map.extend [] entries).map (fun e => (e.1, outcomeOf (deep env exprCtx e.2))) =
          (Map.extend [] entries).map fun e => (e.1, outcomeOf (shallow env exprCtx e.2)) :=
        List.map_congr_left fun e hMem => by rw [hEach e ((mem_extend_nil hNodup).mp hMem)]
      rw [hObjects]
      exact and_congr_left' (forall₂_congr fun e hMem => by rw [hEach e hMem])

end Maps

end Values

namespace Sample

/-- A runtime with the expressions of the language. -/
def speaking : RuntimeInner :=
  { runtime with expression := JqEngine.engine (Jq.language (.ascii true)) }

def emptyContext : ExpressionContext :=
  { context := .null, input := .null, output := .null, secrets := [], authorization := none
    task := none, workflow := none, runtime := none, extraVars := [] }

def idleState : EngineState := ⟨TaskLocal.initial, Execution.initial (workflow [] []) 0, world⟩

/-- An expression at the top of the map, and a text within an array. -/
def shallowMap : Map := [("a", .string "$\x7b1\x7d"), ("b", .array [.string "x"])]

/-- An expression within an object. -/
def nestedMap : Map := [("a", .object [("b", .string "$\x7b1\x7d")])]

/-- What comes of the first map. -/
def shallowOutput : Value := .object [("a", .number (.int 1)), ("b", .array [.string "x"])]

/-- A map whose expressions are all at its top is stored with their values. -/
theorem set_interpolates_shallow :
    (∃ τ, engine.advance (taskSet speaking (.map shallowMap) emptyContext).run idleState =
        (.done (.ok shallowOutput), τ)) ↔
      ∃ τ, engine.advance (deepInterpolate speaking emptyContext
        (.object (Map.extend [] shallowMap))).run idleState = (.done (.ok shallowOutput), τ) := by
  refine (set_interpolation_iff idleState (by decide)).mpr (Or.inr ?_) shallowOutput
  intro e hMem hOther s hString
  rcases List.mem_cons.mp hMem with rfl | hMem
  · cases hOther
  · cases List.mem_singleton.mp hMem
    cases List.mem_singleton.mp hString
    rfl

/-- The nested expression stays a text. -/
theorem set_keeps_nested : ¬ ∀ out,
    (∃ τ, engine.advance (taskSet speaking (.map nestedMap) emptyContext).run idleState =
        (.done (.ok out), τ)) ↔
      ∃ τ, engine.advance (deepInterpolate speaking emptyContext
        (.object (Map.extend [] nestedMap))).run idleState = (.done (.ok out), τ) := by
  intro hSame
  have hKept := (hSame (.object nestedMap)).mp ⟨_, rfl⟩
  rw [(deepInterpolate_atOnce _).done_iff] at hKept
  have hEvaluated : deep speaking emptyContext (.object (Map.extend [] nestedMap)) =
      .ok (.object [("a", .object [("b", .number (.int 1))])]) := by rfl
  cases hEvaluated.symm.trans hKept

end Sample

end OwsRuntime
