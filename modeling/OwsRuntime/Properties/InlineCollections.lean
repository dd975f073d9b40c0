import OwsRuntime.Engine.Context
import OwsRuntime.Expressions.Templates
import OwsRuntime.Properties.JsonSublanguage
import OwsRuntime.Properties.Normalization

/-! The inline collections of loops. Normalization makes texts of them, in which the
expression engine looks for blocks before it takes them for expressions. -/
namespace OwsRuntime

open Jq JqEngine

/-- What a part of a document becomes, with what normalization and the compiler take it for. -/
inductive Becomes (document normalized : Value) : Place × Place → Value → Value → Prop where
  | here : Becomes document normalized (.task, .definition) document normalized
  | field {places : Place × Place} {map map' : Map} {key : String} {value value' : Value}
      (prior : Becomes document normalized places (.object map) (.object map'))
      (hField : map.lookup key = some value) (hField' : map'.lookup key = some value') :
      Becomes document normalized (Place.visited key places.1, Place.field key places.2) value value'
  | item {places : Place × Place} {items items' : List Value} {i : Nat} {value value' : Value}
      (prior : Becomes document normalized places (.array items) (.array items'))
      (hItem : items[i]? = some value) (hItem' : items'[i]? = some value') :
      Becomes document normalized (places.1.item, places.2.item) value value'

section Filled

variable (lang : ExpressionLanguage) (input : Value) (vars : Map)

mutual

/-- A value with its strings interpolated. -/
def filled : Value → Except ExpressionError Value
  | .string s => (JqEngine.engine lang).evaluateInterpolation s input vars
  | .array items => (filledItems items).map .array
  | .object entries => (filledEntries entries).map .object
  | other => .ok other

def filledItems : List Value → Except ExpressionError (List Value)
  | [] => .ok []
  | item :: rest => do return (← filled item) :: (← filledItems rest)

def filledEntries : List (String × Value) → Except ExpressionError (List (String × Value))
  | [] => .ok []
  | (k, v) :: rest => do return (k, ← filled v) :: (← filledEntries rest)

end

end Filled

/-- The value of the source of a collection. -/
def collectionValue (platform : Platform) (source : String) (input : Value) (vars : Map) :
    Except ExpressionError Value := do
  let compiled ← (JqEngine.engine (language platform)).compile source
  (JqEngine.engine (language platform)).evaluate compiled input vars

/-- A collection is a source now whose value is an array of its elements, with the blocks
in their strings replaced. -/
def Survives (platform : Platform) (items : List Value) (normalized : Value) : Prop :=
  ∃ source, normalized = .string source ∧ ∀ input vars, ∃ elems,
    collectionValue platform source input vars = .ok (.array elems) ∧
    List.Forall₂ (fun item elem => filled (language platform) input vars item = .ok elem) items elems

variable {platform : Platform} {items : List Value}

theorem evaluateSource_eq_collectionValue {env : RuntimeInner}
    (hEngine : env.expression = JqEngine.engine (language platform)) (source : String) (input : Value)
    (vars : Map) : env.evaluateSource source input vars = collectionValue platform source input vars := by
  rw [RuntimeInner.evaluateSource, hEngine]
  rfl

section Parts

variable {text : Value → String} {document normalized value value' : Value} {places : Place × Place}

theorem lookup_walkFields (next : String → Place → Place) (place : Place) (map : Map) (key : String) :
    (walkFields text next place map).lookup key =
      (map.lookup key).map (walk text next (next key place)) := by
  induction map with
  | nil => rfl
  | cons e rest ih =>
      rw [walkFields, List.lookup_cons, List.lookup_cons]
      cases hKey : key == e.1 with
      | true =>
          rw [beq_iff_eq] at hKey
          rw [hKey]
          rfl
      | false => exact ih

theorem lookup_defaults {place : Place} {map : Map} {key : String}
    (hSome : (map.lookup key).isSome = true) : (place.defaults map).lookup key = map.lookup key := by
  rw [Place.defaults]
  split
  · by_cases hHas : HasCompete map
    · rw [insertCompete_of_has hHas]
    · have hKey : key ≠ "compete" := by
        rintro rfl
        exact hHas hSome
      rw [insertCompete_of_not_has hHas, Map.lookup_insert_of_ne _ _ hKey]
  · rfl

/-- What a part becomes is what normalization makes of it where it finds it. -/
theorem Becomes.eq_walk (becomes : Becomes document normalized places value value')
    (hNormalized : normalized = walk text Place.visited .task document) :
    value' = walk text Place.visited places.1 value := by
  induction becomes with
  | here => exact hNormalized
  | @field places map map' key value value' _ hField hField' ih =>
      by_cases hPlace : places.1 = .collection
      · obtain ⟨s, hs⟩ := @walk_collection_eq text Place.visited (.object map)
        rw [hPlace, hs] at ih
        cases ih
      · rw [walk_object hPlace] at ih
        cases ih
        have hLookup := @lookup_walkFields text Place.visited places.1 map key
        rw [hField, Option.map_some] at hLookup
        rw [lookup_defaults (by rw [hLookup]; rfl), hLookup] at hField'
        exact (Option.some.inj hField').symm
  | @item places items items' i value value' _ hItem hItem' ih =>
      by_cases hPlace : places.1 = .collection
      · obtain ⟨s, hs⟩ := @walk_collection_eq text Place.visited (.array items)
        rw [hPlace, hs] at ih
        cases ih
      · rw [walk, if_neg hPlace, walkItems_eq_map] at ih
        cases ih
        rw [List.getElem?_map, hItem, Option.map_some] at hItem'
        exact (Option.some.inj hItem').symm

theorem normalizeDefinition_eq_walk (document : Value) :
    normalizeDefinition text document = walk text Place.visited .task document := by
  rw [normalizeDefinition, normalizeScope_eq_walk]

end Parts

section Plain

variable {lang : ExpressionLanguage} {input : Value} {vars : Map}

/-- A text keeps its blocks when it is written as JSON. -/
theorem hasBlock_quote {s : String} (hBlock : HasBlock s.toList) : HasBlock (Value.quote s).toList := by
  obtain ⟨before, after, hText⟩ := hBlock
  rw [toList_quote, ← hText]
  have hDollar : (Value.escapeChar '$').toList = ['$'] := by decide
  have hBrace : (Value.escapeChar '\x7b').toList = ['\x7b'] := by decide
  refine ⟨'"' :: before.flatMap fun c => (Value.escapeChar c).toList,
    after.flatMap (fun c => (Value.escapeChar c).toList) ++ ['"'], ?_⟩
  simp [opening, hDollar, hBrace]

theorem hasBlock_intercalate {texts : List (List Char)} {text : List Char} (hText : text ∈ texts)
    (hBlock : HasBlock text) : HasBlock (List.intercalate [','] texts) := by
  induction texts with
  | nil => cases hText
  | cons t texts ih =>
      cases texts with
      | nil =>
          rw [List.intercalate_singleton, ← List.mem_singleton.mp hText]
          exact hBlock
      | cons t' texts =>
          rw [List.intercalate_cons_cons]
          rcases List.mem_cons.mp hText with rfl | hText
          · rw [List.append_assoc]
            exact hBlock.trans (List.prefix_append _ _).isInfix
          · exact (ih hText).trans (List.suffix_append _ _).isInfix

/-- A value in whose text there is no block is filled with itself. The induction is on the value:
what stands in one of its texts stands in the text of the whole. -/
theorem filled_of_plain {formatFloat : F64 → String} {v : Value}
    (hPlain : ¬ HasBlock (v.display formatFloat).toList) : filled lang input vars v = .ok v := by
  induction v using Value.induction with
  | string s =>
      rw [filled]
      exact evaluateInterpolation_of_plain lang (fun hBlock => hPlain (hasBlock_quote hBlock)) input vars
  | array items ih =>
      have hItems : ∀ item ∈ items, filled lang input vars item = .ok item := by
        intro item hItem
        refine ih item hItem fun hBlock => hPlain ?_
        rw [Value.display, String.toList_append, String.toList_append, toList_displayItems]
        have hInner := hasBlock_intercalate (List.mem_map_of_mem
          (f := fun item : Value => (item.display formatFloat).toList) hItem) hBlock
        exact hInner.trans ⟨"[".toList, "]".toList, rfl⟩
      have hAll : ∀ l : List Value, (∀ item ∈ l, filled lang input vars item = .ok item) →
          filledItems lang input vars l = .ok l := by
        intro l
        induction l with
        | nil => exact fun _ => rfl
        | cons item rest ih =>
            intro hl
            obtain ⟨hHead, hRest⟩ := List.forall_mem_cons.mp hl
            rw [filledItems, hHead, ih hRest]
            rfl
      rw [filled, hAll items hItems]
      rfl
  | object entries ih =>
      have hEntries : ∀ e ∈ entries, filled lang input vars e.2 = .ok e.2 := by
        intro e he
        refine ih e he fun hBlock => hPlain ?_
        rw [Value.display, String.toList_append, String.toList_append, toList_displayEntries]
        have hEntry : HasBlock (entryText formatFloat e) :=
          hBlock.trans ((List.suffix_cons ':' _).trans (List.suffix_append _ _)).isInfix
        have hInner := hasBlock_intercalate (List.mem_map_of_mem (f := entryText formatFloat) he) hEntry
        exact hInner.trans ⟨"\x7b".toList, "\x7d".toList, rfl⟩
      have hAll : ∀ l : List (String × Value), (∀ e ∈ l, filled lang input vars e.2 = .ok e.2) →
          filledEntries lang input vars l = .ok l := by
        intro l
        induction l with
        | nil => exact fun _ => rfl
        | cons e rest ih =>
            intro hl
            obtain ⟨hHead, hRest⟩ := List.forall_mem_cons.mp hl
            rw [filledEntries, hHead, ih hRest]
            rfl
      rw [filled, hAll entries hEntries]
      rfl
  | _ => rfl

end Plain

section Collections

variable {input : Value} {vars : Map}

/-- The text of a collection without blocks is an expression for the collection. -/
theorem collectionValue_of_plain (integral : Integral (.array items))
    (hPlain : ¬ HasBlock ((Value.array items).display platform.jsonFloat).toList) :
    collectionValue platform ((Value.array items).display platform.jsonFloat) input vars =
      .ok (.array items) := by
  obtain ⟨e, hParse, hValue⟩ := @json_sublanguage platform _ integral
  have hPrepare := (prepare_eq_plain_iff (language platform)).mpr hPlain
  have hEval : evaluateLast (language platform) e input vars = .ok (.array items) := by
    show ((eval platform vars e input).mapError LangError.toCore >>= _) = _
    rw [hValue vars input]
    rfl
  show ((prepare (language platform) _).map _ >>= _) = _
  rw [hPrepare]
  show (prepare (language platform) _ >>= fun prepared => evaluateValue _ prepared input vars) = _
  rw [hPrepare]
  show ((language platform).parse _ >>= fun e => evaluateLast (language platform) e input vars) = _
  rw [language_parse hParse]
  exact hEval

theorem trim_brackets (text : List Char) : trim ('[' :: (text ++ [']'])) = '[' :: (text ++ [']']) := by
  rw [trim, List.dropWhile_cons_of_neg (by decide), ← List.cons_append,
    List.rdropWhile_concat_neg _ _ _ (by decide)]

theorem singleBlock_bracket (text : List Char) : singleBlock ('[' :: text) = none := by
  rw [singleBlock, List.dropWhile_cons_of_neg (by decide)]
  rfl

/-- With a block in it, the text of a collection is a template, whose value is a string. -/
theorem collectionValue_of_block
    (hBlock : HasBlock ((Value.array items).display platform.jsonFloat).toList) (elems : List Value) :
    collectionValue platform ((Value.array items).display platform.jsonFloat) input vars ≠
      .ok (.array elems) := by
  generalize hSource : (Value.array items).display platform.jsonFloat = source at hBlock ⊢
  have hText : source.toList =
      '[' :: ((Value.displayItems platform.jsonFloat items).toList ++ [']']) := by
    rw [← hSource, Value.display]
    simp [String.toList_append]
  have hPrepare : prepare (language platform) source =
      (parseBlocks (language platform) source.toList).map .interp := by
    have hTrim : trim source.toList = source.toList := by rw [hText, trim_brackets]
    have hNone : singleBlock source.toList = none := by rw [hText, singleBlock_bracket]
    rw [prepare, hTrim, hNone]
    exact if_pos hBlock
  show ((prepare (language platform) source).map _ >>= _) ≠ _
  cases hPieces : parseBlocks (language platform) source.toList with
  | error error =>
      rw [hPrepare, hPieces]
      intro hOk
      cases hOk
  | ok pieces =>
      rw [hPieces] at hPrepare
      rw [hPrepare]
      show (prepare (language platform) source >>=
        fun prepared => evaluateValue (language platform) prepared input vars) ≠ _
      rw [hPrepare]
      show (interpolate (language platform) input vars pieces).map Value.string ≠ _
      intro hOk
      cases hText : interpolate (language platform) input vars pieces <;>
        rw [hText] at hOk <;> cases hOk

end Collections

section Results

variable {document value' : Value} {visited : Place}

/-- An inline collection that normalization finds is a source for its elements when there is
no block in its text. -/
theorem survives_of_plain (integral : Integral (.array items))
    (hPlain : ¬ HasBlock ((Value.array items).display platform.jsonFloat).toList) :
    Survives platform items (.string ((Value.array items).display platform.jsonFloat)) := by
  refine ⟨_, rfl, fun input vars => ⟨items, collectionValue_of_plain integral hPlain, ?_⟩⟩
  rw [List.forall₂_same]
  intro item hItem
  refine @filled_of_plain _ _ _ platform.jsonFloat item fun hBlock => hPlain ?_
  rw [Value.display, String.toList_append, String.toList_append, toList_displayItems]
  have hInner := hasBlock_intercalate (List.mem_map_of_mem
    (f := fun item : Value => (item.display platform.jsonFloat).toList) hItem) hBlock
  exact hInner.trans ⟨"[".toList, "]".toList, rfl⟩

theorem not_survives_of_block
    (hBlock : HasBlock ((Value.array items).display platform.jsonFloat).toList) :
    ¬ Survives platform items (.string ((Value.array items).display platform.jsonFloat)) := by
  rintro ⟨source, hSource, hValue⟩
  cases hSource
  obtain ⟨elems, hElems, _⟩ := hValue .null []
  exact collectionValue_of_block hBlock elems hElems

/-- The inline collection of a loop keeps its elements exactly when normalization finds the
loop and no string in the collection has a block in it. -/
theorem survives_iff (integral : Integral (.array items))
    (becomes : Becomes document (normalizeDefinition (Value.display platform.jsonFloat) document)
      (visited, .collection) (.array items) value') :
    Survives platform items value' ↔ visited = .collection ∧
      ¬ HasBlock ((Value.array items).display platform.jsonFloat).toList := by
  have hWalk := becomes.eq_walk (normalizeDefinition_eq_walk document)
  by_cases hVisited : visited = .collection
  · have hText : value' = .string ((Value.array items).display platform.jsonFloat) := by
      rw [hWalk, hVisited, walk_collection rfl]
    rw [hText, and_iff_right hVisited]
    by_cases hBlock : HasBlock ((Value.array items).display platform.jsonFloat).toList
    · exact iff_of_false (not_survives_of_block hBlock) (not_not_intro hBlock)
    · exact iff_of_true (survives_of_plain integral hBlock) hBlock
  · rw [walk, if_neg hVisited] at hWalk
    rw [hWalk]
    exact iff_of_false (fun ⟨_, hSource, _⟩ => nomatch hSource) fun h => hVisited h.1

end Results

namespace Sample

/-- A definition with a loop over a collection. -/
def looping (collection : Value) : Value :=
  .object [("do", .array [.object [("each", .object [("for", .object [("in", collection)])])]])]

theorem becomes_looping (text : Value → String) (items : List Value) :
    Becomes (looping (.array items)) (normalizeDefinition text (looping (.array items)))
      (.collection, .collection) (.array items) (.string (text (.array items))) := by
  have hDo := @Becomes.field (looping (.array items))
    (normalizeDefinition text (looping (.array items))) _ _ _ "do" _ _ .here rfl rfl
  have hEach := @Becomes.field _ _ _ _ _ "each" _ _ (@Becomes.item _ _ _ _ _ 0 _ _ hDo rfl rfl) rfl rfl
  have hFor := @Becomes.field _ _ _ _ _ "for" _ _ hEach rfl rfl
  exact @Becomes.field _ _ _ _ _ "in" _ _ hFor rfl rfl

/-- A number and a string, which is an expression or a template. -/
def elements (s : String) : List Value := [.number (.int (-1)), .string s]

theorem integral_elements (s : String) : Integral (.array (elements s)) :=
  .array (List.forall_mem_cons.mpr ⟨.int (by decide), List.forall_mem_singleton.mpr (.string s)⟩)

end Sample

open Sample in
/-- The two elements have no block in their text, and the loop gets them back. -/
theorem survives_iff_elements :
    Survives (.ascii true) (elements ".") (.string "[-1,\".\"]") ↔ Place.collection = .collection ∧
      ¬ HasBlock ((Value.array (elements ".")).display (Platform.ascii true).jsonFloat).toList :=
  survives_iff (integral_elements ".") (becomes_looping _ (elements "."))

open Sample in
/-- A block in a string makes the whole collection a template. -/
theorem block_not_surviving :
    Becomes (looping (.array (elements "$\x7b . \x7d")))
      (normalizeDefinition (Value.display (Platform.ascii true).jsonFloat)
        (looping (.array (elements "$\x7b . \x7d"))))
      (.collection, .collection) (.array (elements "$\x7b . \x7d"))
      (.string ((Value.array (elements "$\x7b . \x7d")).display (Platform.ascii true).jsonFloat)) ∧
    Integral (.array (elements "$\x7b . \x7d")) ∧
    ¬ Survives (.ascii true) (elements "$\x7b . \x7d")
      (.string ((Value.array (elements "$\x7b . \x7d")).display (Platform.ascii true).jsonFloat)) := by
  refine ⟨becomes_looping _ _, integral_elements _, not_survives_of_block ?_⟩
  decide +kernel

end OwsRuntime
