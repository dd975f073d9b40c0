import OwsRuntime.Properties.BlockDelimiting

/-! The text that comes of a template. The engine takes the blanks around it away before it
looks for blocks. -/
namespace OwsRuntime
namespace JqEngine

open Brackets

/-- The source of a block, the value it has, and the literal text after the block. -/
structure Slot where
  source : String
  value : Value
  literal : String

/-- A template: literal text, and the blocks after it. -/
def templateText : String → List Slot → String
  | first, [] => first
  | first, slot :: rest =>
      first ++ ("$\x7b" ++ slot.source ++ "\x7d" ++ templateText slot.literal rest)

/-- What the template says, every literal kept. -/
def renderedText (lang : ExpressionLanguage) : String → List Slot → String
  | first, [] => first
  | first, slot :: rest =>
      first ++ (lang.toText slot.value ++ renderedText lang slot.literal rest)

/-- The source has no braces, and has the value; the literal text opens no block. -/
structure Slot.Holds (lang : ExpressionLanguage) (input : Value) (vars : Map) (slot : Slot) :
    Prop where
  braceFree : '\x7b' ∉ slot.source.toList ∧ '\x7d' ∉ slot.source.toList
  value : ∃ e, lang.parse slot.source = .ok e ∧ evaluateLast lang e input vars = .ok slot.value
  plain : ¬ HasBlock slot.literal.toList

/-- The template is one block and nothing else. -/
def IsBareBlock (first : String) (slots : List Slot) : Prop :=
  first = "" ∧ ∃ slot, slots = [slot] ∧ slot.literal = ""

/-- The last literal text of a template. -/
def lastLiteral : String → List Slot → String
  | first, [] => first
  | _, slot :: rest => lastLiteral slot.literal rest

/-- No blank begins the first literal text, and none ends the last. -/
def Tight (first : String) (slots : List Slot) : Prop :=
  (∀ c, first.toList.head? = some c → isWhitespace c = false) ∧
    ∀ c, (lastLiteral first slots).toList.getLast? = some c → isWhitespace c = false

/-- The blocks of a template without the blanks at its end. -/
def trimSlots : List Slot → List Slot
  | [] => []
  | [slot] => [{ slot with literal := String.ofList (slot.literal.toList.rdropWhile isWhitespace) }]
  | slot :: next :: rest => slot :: trimSlots (next :: rest)

variable {lang : ExpressionLanguage} {input : Value} {vars : Map} {first : String} {slot : Slot}
  {slots : List Slot}

theorem toList_templateText_cons (first : String) (slot : Slot) (rest : List Slot) :
    (templateText first (slot :: rest)).toList = first.toList ++
      (opening ++ slot.source.toList ++ '\x7d' :: (templateText slot.literal rest).toList) := by
  simp [templateText, opening, String.toList_append]

theorem lastLiteral_cons (first : String) (slot : Slot) (rest : List Slot) :
    lastLiteral first (slot :: rest) = lastLiteral slot.literal rest := rfl

section Pieces

/-- The blanks around a source make no difference to the language. -/
def Trims (lang : ExpressionLanguage) : Prop := ∀ source e, lang.parse source = .ok e →
  lang.parse (String.ofList (trim source.toList)) = .ok e

variable (trims : Trims lang)
include trims

/-- The pieces of a template say what the template says: its literal texts as they stand, and the
values of its slots between them. The induction is on the slots. -/
theorem pieces_template (hFirst : ¬ HasBlock first.toList)
    (hSlots : ∀ slot ∈ slots, slot.Holds lang input vars) (position : Nat) (text : List Char) :
    ∃ ps, pieces lang position text (templateText first slots).toList = .ok ps ∧
      interpolate lang input vars ps =
        .ok (String.ofList text ++ renderedText lang first slots) := by
  induction slots generalizing first position text with
  | nil =>
      refine ⟨literal (text ++ first.toList), pieces_literal hFirst position text, ?_⟩
      have hLiteral := @interpolate_literal lang input vars [] (text ++ first.toList)
      rw [List.append_nil] at hLiteral
      rw [hLiteral, interpolate, renderedText]
      simp [Except.map, String.ofList_append]
  | cons slot rest ih =>
      obtain ⟨hSlot, hRest⟩ := List.forall_mem_cons.mp hSlots
      obtain ⟨e, hParse, hValue⟩ := hSlot.value
      have hBalanced := balanced_of_notMem braces_ne hSlot.braceFree.1 hSlot.braceFree.2
      obtain ⟨ps, hPieces, hText⟩ := ih hSlot.plain hRest
        (position + first.toList.length + slot.source.toList.length + 3) []
      refine ⟨literal (text ++ first.toList) ++ .expr e :: ps, ?_, ?_⟩
      · rw [toList_templateText_cons, pieces_append hFirst (by simp [opening]),
          pieces_block hBalanced, trims _ _ hParse]
        show (pieces lang _ [] (templateText slot.literal rest).toList >>= _) = _
        rw [hPieces]
        rfl
      · rw [interpolate_literal, interpolate_expr hValue, hText, renderedText]
        simp [Except.map, String.ofList_append, String.append_assoc]

end Pieces

section Blanks

theorem dropWhile_eq_self_iff (text : List Char) : text.dropWhile isWhitespace = text ↔
    ∀ c, text.head? = some c → isWhitespace c = false := by
  cases text with
  | nil => simp
  | cons d text =>
      have hHead : (∀ c, (d :: text).head? = some c → isWhitespace c = false) ↔
          isWhitespace d = false := by simp
      rw [hHead]
      by_cases hSpace : isWhitespace d = true
      · have hShort := (List.dropWhile_suffix (l := text) isWhitespace).length_le
        rw [List.dropWhile_cons_of_pos hSpace, hSpace]
        refine ⟨fun hSame => ?_, by nofun⟩
        rw [hSame, List.length_cons] at hShort
        omega
      · rw [List.dropWhile_cons_of_neg hSpace]
        simpa using hSpace

theorem rdropWhile_eq_self_iff (text : List Char) : text.rdropWhile isWhitespace = text ↔
    ∀ c, text.getLast? = some c → isWhitespace c = false := by
  rw [List.rdropWhile, ← List.reverse_eq_iff.symm, dropWhile_eq_self_iff, List.head?_reverse]

theorem rdropWhile_append_cons {c : Char} (hKeep : isWhitespace c = false) (before after : List Char) :
    (before ++ c :: after).rdropWhile isWhitespace =
      before ++ c :: after.rdropWhile isWhitespace := by
  induction after using List.reverseRecOn with
  | nil => rw [List.rdropWhile_concat_neg _ _ _ (by simp [hKeep]), List.rdropWhile_nil]
  | append_singleton rest d ih =>
      rw [← List.cons_append, ← List.append_assoc]
      by_cases hSpace : isWhitespace d = true
      · rw [List.rdropWhile_concat_pos _ _ _ hSpace, ih, List.rdropWhile_concat_pos _ _ _ hSpace]
      · rw [List.rdropWhile_concat_neg _ _ _ hSpace, List.rdropWhile_concat_neg _ _ _ hSpace]
        simp

theorem rdropWhile_templateText (first : String) (slot : Slot) (rest : List Slot) :
    (templateText first (slot :: rest)).toList.rdropWhile isWhitespace =
      (templateText first (trimSlots (slot :: rest))).toList := by
  induction rest generalizing first slot with
  | nil =>
      rw [toList_templateText_cons, ← List.append_assoc, rdropWhile_append_cons (by decide),
        trimSlots, toList_templateText_cons, templateText, templateText, String.toList_ofList,
        List.append_assoc]
  | cons next rest ih =>
      rw [toList_templateText_cons, ← List.append_assoc, rdropWhile_append_cons (by decide), ih,
        trimSlots, toList_templateText_cons, List.append_assoc]

/-- The engine takes the blanks off the first literal text and the last. -/
theorem trim_templateText (first : String) (slot : Slot) (rest : List Slot) :
    trim (templateText first (slot :: rest)).toList =
      (templateText (String.ofList (first.toList.dropWhile isWhitespace))
        (trimSlots (slot :: rest))).toList := by
  have hDrop : (templateText first (slot :: rest)).toList.dropWhile isWhitespace =
      (templateText (String.ofList (first.toList.dropWhile isWhitespace)) (slot :: rest)).toList := by
    have hHead : ∀ b, (opening ++ slot.source.toList ++
        '\x7d' :: (templateText slot.literal rest).toList).head? = some b → isWhitespace b = false := by
      intro b hb
      cases hb
      decide
    rw [toList_templateText_cons, toList_templateText_cons, String.toList_ofList,
      Jq.dropWhile_append_follows hHead]
  rw [trim, hDrop, rdropWhile_templateText]

theorem lastLiteral_trimSlots (first : String) (slot : Slot) (rest : List Slot) :
    (lastLiteral first (trimSlots (slot :: rest))).toList =
      (lastLiteral first (slot :: rest)).toList.rdropWhile isWhitespace := by
  induction rest generalizing first slot with
  | nil => rw [trimSlots, lastLiteral, lastLiteral, lastLiteral, lastLiteral, String.toList_ofList]
  | cons next rest ih => rw [trimSlots, lastLiteral_cons, ih, lastLiteral_cons first]

/-- What stands between the first literal text and the last is not changed. -/
theorem renderedText_trimSlots (slot : Slot) (rest : List Slot) : ∃ middle : List Char, ∀ first,
    (renderedText lang first (slot :: rest)).toList =
      first.toList ++ middle ++ (lastLiteral first (slot :: rest)).toList ∧
    (renderedText lang first (trimSlots (slot :: rest))).toList =
      first.toList ++ middle ++
        (lastLiteral first (slot :: rest)).toList.rdropWhile isWhitespace := by
  induction rest generalizing slot with
  | nil =>
      refine ⟨(lang.toText slot.value).toList, fun first => ⟨?_, ?_⟩⟩
      · simp [renderedText, lastLiteral, String.toList_append]
      · simp [trimSlots, renderedText, lastLiteral, String.toList_append]
  | cons next rest ih =>
      obtain ⟨middle, hMiddle⟩ := ih next
      obtain ⟨hKept, hTrimmed⟩ := hMiddle slot.literal
      refine ⟨(lang.toText slot.value).toList ++ slot.literal.toList ++ middle, fun first => ⟨?_, ?_⟩⟩
      · rw [renderedText, String.toList_append, String.toList_append, hKept, lastLiteral_cons first]
        simp
      · rw [trimSlots, renderedText, String.toList_append, String.toList_append, hTrimmed,
          lastLiteral_cons first]
        simp

theorem tight_trimSlots (first : String) (slot : Slot) (rest : List Slot) :
    Tight (String.ofList (first.toList.dropWhile isWhitespace)) (trimSlots (slot :: rest)) := by
  constructor
  · rw [String.toList_ofList, ← dropWhile_eq_self_iff, List.dropWhile_idempotent]
  · rw [lastLiteral_trimSlots, ← rdropWhile_eq_self_iff, List.rdropWhile_idempotent]

theorem holds_trimSlots (hSlots : ∀ slot ∈ slots, slot.Holds lang input vars) :
    ∀ slot ∈ trimSlots slots, slot.Holds lang input vars := by
  induction slots with
  | nil => exact hSlots
  | cons slot rest ih =>
      obtain ⟨hSlot, hRest⟩ := List.forall_mem_cons.mp hSlots
      cases rest with
      | nil =>
          refine List.forall_mem_singleton.mpr ⟨hSlot.braceFree, hSlot.value, fun hBlock => ?_⟩
          rw [String.toList_ofList] at hBlock
          exact hSlot.plain (hBlock.trans (List.rdropWhile_prefix _ _).isInfix)
      | cons next rest => exact List.forall_mem_cons.mpr ⟨hSlot, ih hRest⟩

end Blanks

section Preparing

variable {rest : List Slot} {source : String}

theorem singleBlock_slot {inner : List Char} (hInner : Balanced '\x7b' '\x7d' inner)
    (more : List Char) : singleBlock (opening ++ inner ++ '\x7d' :: more) =
      if more.all isWhitespace then some (trim inner) else none := by
  have hSplit : splitBlock 1 (inner ++ '\x7d' :: more) = some (inner, more) := by
    rw [splitBlock_eq_split]
    exact split_balanced braces_ne hInner more
  have hDrop : (opening ++ inner ++ '\x7d' :: more).dropWhile isWhitespace =
      '$' :: '\x7b' :: (inner ++ '\x7d' :: more) := by
    simp only [opening, List.cons_append, List.nil_append]
    exact List.dropWhile_cons_of_neg (by decide)
  rw [singleBlock, hDrop]
  simp only [hSplit]

/-- A text that begins with something else than a block is no single block. -/
theorem singleBlock_first {c : Char} {before more : List Char} (hPlain : ¬ HasBlock (c :: before))
    (hSpace : isWhitespace c = false) (hMore : more.head? ≠ some '\x7b') :
    singleBlock (c :: before ++ more) = none := by
  have hOpening : ¬ (c = '$' ∧ (before ++ more).head? = some '\x7b') := by
    cases before with
    | nil => exact fun h => hMore h.2
    | cons d before => exact (not_hasBlock_cons hPlain).1
  rw [singleBlock, List.cons_append, List.dropWhile_cons_of_neg (by simp [hSpace])]
  split
  · rename_i rest hText
    injection hText with hHead hTail
    exact absurd ⟨hHead, by rw [hTail]; rfl⟩ hOpening
  · rfl

theorem eq_empty_of_toList {s : String} (hNil : s.toList = []) : s = "" := by
  rw [← String.ofList_toList (s := s), hNil]

/-- A template without blanks around it is a single block when it is nothing else. -/
theorem singleBlock_template (hFirst : ¬ HasBlock first.toList) (hSlot : slot.Holds lang input vars)
    (hTight : Tight first (slot :: rest)) (hBare : ¬ IsBareBlock first (slot :: rest)) :
    singleBlock (templateText first (slot :: rest)).toList = none := by
  rw [toList_templateText_cons]
  cases hStart : first.toList with
  | cons c before =>
      have hSpace := hTight.1 c (by rw [hStart]; rfl)
      rw [hStart] at hFirst
      exact singleBlock_first hFirst hSpace (by simp [opening])
  | nil =>
      have hBalanced := balanced_of_notMem braces_ne hSlot.braceFree.1 hSlot.braceFree.2
      rw [List.nil_append, singleBlock_slot hBalanced, if_neg]
      intro hAll
      rw [List.all_eq_true] at hAll
      have hEmpty := eq_empty_of_toList hStart
      cases rest with
      | nil =>
          -- The last literal text ends with no blank, if it has an end.
          rcases List.eq_nil_or_concat slot.literal.toList with hNil | ⟨front, c, hLiteral⟩
          · exact hBare ⟨hEmpty, slot, rfl, eq_empty_of_toList hNil⟩
          · have hSpace := hTight.2 c (by rw [lastLiteral, lastLiteral, hLiteral]; simp)
            rw [templateText, hLiteral] at hAll
            rw [hAll c (by simp)] at hSpace
            cases hSpace
      | cons next rest =>
          have hDollar := hAll '$' (by rw [toList_templateText_cons]; simp [opening])
          exact absurd hDollar (by decide)

theorem hasBlock_templateText : HasBlock (templateText first (slot :: rest)).toList := by
  rw [toList_templateText_cons]
  exact ⟨first.toList, slot.source.toList ++ '\x7d' :: (templateText slot.literal rest).toList, by simp⟩

variable (trims : Trims lang)
include trims

/-- What the engine makes of a source that is a template once it is trimmed. -/
theorem evaluate_template (hSource : trim source.toList = (templateText first (slot :: rest)).toList)
    (hFirst : ¬ HasBlock first.toList) (hSlots : ∀ s ∈ slot :: rest, s.Holds lang input vars)
    (hTight : Tight first (slot :: rest)) (hBare : ¬ IsBareBlock first (slot :: rest)) :
    (engine lang).evaluateInterpolation source input vars =
      .ok (.string (renderedText lang first (slot :: rest))) := by
  have hNone := singleBlock_template hFirst (hSlots slot List.mem_cons_self) hTight hBare
  obtain ⟨ps, hPieces, hText⟩ := pieces_template trims hFirst hSlots 0 []
  rw [pieces] at hPieces
  show (prepare lang source >>= fun prepared => evaluateInterp lang prepared input vars) = _
  rw [prepare, hSource, hNone]
  simp only [if_pos hasBlock_templateText, parseBlocks, hPieces]
  cases ps with
  | nil =>
      have hEmpty : interpolate lang input vars [.lit ""] = interpolate lang input vars [] := rfl
      show (interpolate lang input vars [.lit ""]).map Value.string = _
      rw [hEmpty, hText, String.ofList_nil, String.empty_append]
      rfl
  | cons p ps =>
      show (interpolate lang input vars (p :: ps)).map Value.string = _
      rw [hText, String.ofList_nil, String.empty_append]
      rfl

/-- A block with nothing but blanks around it has the value of its source. -/
theorem evaluate_bareBlock (hSource : trim source.toList = (templateText first (slot :: rest)).toList)
    (hSlot : slot.Holds lang input vars) (hBare : IsBareBlock first (slot :: rest)) :
    (engine lang).evaluateInterpolation source input vars = .ok slot.value := by
  obtain ⟨rfl, found, hFound, hLiteral⟩ := hBare
  cases hFound
  obtain ⟨e, hParse, hValue⟩ := hSlot.value
  have hBalanced := balanced_of_notMem braces_ne hSlot.braceFree.1 hSlot.braceFree.2
  have hSingle : prepare lang source = .ok (.expr e) := by
    refine prepare_eq_expr_iff.mpr ⟨trim slot.source.toList, ?_, trims _ _ hParse⟩
    rw [hSource, toList_templateText_cons, templateText, hLiteral]
    exact singleBlock_slot hBalanced []
  show (prepare lang source >>= fun prepared => evaluateInterp lang prepared input vars) = _
  rw [hSingle]
  exact hValue

/-- The engine keeps every literal text of a template exactly when no blank begins the first
or ends the last. -/
theorem evaluateInterpolation_iff_tight (hText : ∀ s, lang.toText (.string s) = s)
    (hNonempty : slots ≠ []) (hBare : ¬ IsBareBlock first slots) (hFirst : ¬ HasBlock first.toList)
    (hSlots : ∀ slot ∈ slots, slot.Holds lang input vars) :
    (engine lang).evaluateInterpolation (templateText first slots) input vars =
      .ok (.string (renderedText lang first slots)) ↔ Tight first slots := by
  obtain ⟨slot, rest, rfl⟩ := List.exists_cons_of_ne_nil hNonempty
  obtain ⟨middle, hMiddle⟩ := @renderedText_trimSlots lang slot rest
  have hSource := trim_templateText first slot rest
  have hTight := tight_trimSlots first slot rest
  have hTrimmed := holds_trimSlots hSlots
  have hLast := lastLiteral_trimSlots first slot rest
  have hPlain : ¬ HasBlock (String.ofList (first.toList.dropWhile isWhitespace)).toList := by
    rw [String.toList_ofList]
    exact fun hBlock => hFirst (hBlock.trans (List.dropWhile_suffix _).isInfix)
  have hSame : Tight first (slot :: rest) ↔ first.toList.dropWhile isWhitespace = first.toList ∧
      (lastLiteral first (slot :: rest)).toList.rdropWhile isWhitespace =
        (lastLiteral first (slot :: rest)).toList := by
    rw [dropWhile_eq_self_iff, rdropWhile_eq_self_iff, Tight]
  obtain ⟨slot', rest', hSlots'⟩ : ∃ slot' rest', trimSlots (slot :: rest) = slot' :: rest' := by
    cases rest <;> exact ⟨_, _, rfl⟩
  rw [hSlots'] at hSource hTight hTrimmed hLast
  by_cases hBare' : IsBareBlock (String.ofList (first.toList.dropWhile isWhitespace)) (slot' :: rest')
  · -- Only blanks are around the block, so that its value is all there is.
    have hBlank : first.toList.dropWhile isWhitespace = [] ∧
        (lastLiteral first (slot :: rest)).toList.rdropWhile isWhitespace = [] ∧ rest = [] := by
      obtain ⟨hEmpty, found, hFound, hLiteral⟩ := hBare'
      cases hFound
      refine ⟨by simpa using congrArg String.toList hEmpty, ?_, ?_⟩
      · rw [← hLast, lastLiteral, lastLiteral, hLiteral]
        rfl
      · cases rest with
        | nil => rfl
        | cons next rest => cases rest <;> cases hSlots'
    obtain ⟨hStart, hEnd, rfl⟩ := hBlank
    cases hSlots'
    have hEmpty : ¬ (first.toList = [] ∧ slot.literal.toList = []) := fun h =>
      hBare ⟨eq_empty_of_toList h.1, slot, rfl, eq_empty_of_toList h.2⟩
    rw [evaluate_bareBlock trims hSource (hTrimmed _ List.mem_cons_self) hBare', hSame, hStart, hEnd]
    rw [lastLiteral, lastLiteral]
    constructor
    · intro hValue
      have hValue : slot.value = .string (renderedText lang first [slot]) := Except.ok.inj hValue
      have hLength := congrArg (fun s => (lang.toText s).toList.length) hValue
      simp only [hText] at hLength
      rw [renderedText, renderedText, String.toList_append, String.toList_append, List.length_append,
        List.length_append] at hLength
      exact absurd ⟨List.length_eq_zero_iff.mp (by omega), List.length_eq_zero_iff.mp (by omega)⟩ hEmpty
    · exact fun ⟨hNil, hNil'⟩ => absurd ⟨hNil.symm, hNil'.symm⟩ hEmpty
  · rw [evaluate_template trims hSource hPlain hTrimmed hTight hBare', hSame, ← hSlots']
    have hSuffix := List.dropWhile_suffix (l := first.toList) isWhitespace
    have hPrefix := List.rdropWhile_prefix isWhitespace (lastLiteral first (slot :: rest)).toList
    constructor
    · intro hEqual
      have hEqual := congrArg String.toList (Value.string.inj (Except.ok.inj hEqual))
      rw [(hMiddle _).1, (hMiddle _).2, String.toList_ofList] at hEqual
      have hLength := congrArg List.length hEqual
      simp only [List.length_append, lastLiteral_cons] at hLength
      have hFirstLength := hSuffix.length_le
      have hLastLength := hPrefix.length_le
      rw [lastLiteral_cons] at hLastLength
      exact ⟨hSuffix.eq_of_length (by omega), hPrefix.eq_of_length (by rw [lastLiteral_cons]; omega)⟩
    · intro ⟨hKept, hKept'⟩
      have hEqual : renderedText lang (String.ofList (first.toList.dropWhile isWhitespace))
          (trimSlots (slot :: rest)) = renderedText lang first (slot :: rest) := by
        rw [hKept, String.ofList_toList, ← String.ofList_toList (s := renderedText _ _ _),
          (hMiddle first).2, hKept', ← (hMiddle first).1, String.ofList_toList]
      rw [hEqual]

end Preparing

end JqEngine

namespace Jq

open JqEngine

variable {platform : Platform} {input : Value} {vars : Map} {first : String} {slots : List Slot}

theorem language_trims (platform : Platform) : Trims (language platform) := by
  intro source e hParse
  have hParse : (parse platform source).mapError LangError.toCore = .ok e := hParse
  cases hOwn : parse platform source with
  | error error =>
      rw [hOwn] at hParse
      cases hParse
  | ok e' =>
      rw [hOwn] at hParse
      cases hParse
      exact language_parse (parse_trim hOwn)

/-- A template evaluates to its literal texts with the values of its blocks between them, if and
only if no blank begins its first literal text or ends its last one. -/
theorem interpolation_iff_tight (hNonempty : slots ≠ []) (hBare : ¬ IsBareBlock first slots)
    (hFirst : ¬ HasBlock first.toList)
    (hSlots : ∀ slot ∈ slots, slot.Holds (language platform) input vars) :
    (JqEngine.engine (language platform)).evaluateInterpolation (templateText first slots) input vars =
      .ok (.string (renderedText (language platform) first slots)) ↔ Tight first slots :=
  evaluateInterpolation_iff_tight (language_trims platform) (fun _ => rfl) hNonempty hBare hFirst hSlots

/-- The identity between a letter and other literal text. -/
def letterSlots (literal : String) : List Slot := [⟨".", .string "x", literal⟩]

theorem letterSlots_hold (literal : String) (hPlain : ¬ HasBlock literal.toList) :
    ∀ slot ∈ letterSlots literal, slot.Holds (language (.ascii true)) (.string "x") [] := by
  have hParse : parse (.ascii true) "." = .ok .identity := by rfl
  have hBraces : '\x7b' ∉ ".".toList ∧ '\x7d' ∉ ".".toList := by decide
  exact List.forall_mem_singleton.mpr ⟨hBraces, ⟨.identity, language_parse hParse, rfl⟩, hPlain⟩

/-- Between two letters, nothing is trimmed. -/
theorem interpolation_iff_tight_letter :
    (JqEngine.engine (language (.ascii true))).evaluateInterpolation (templateText "a" (letterSlots "b"))
      (.string "x") [] =
        .ok (.string (renderedText (language (.ascii true)) "a" (letterSlots "b"))) ↔
      Tight "a" (letterSlots "b") :=
  interpolation_iff_tight (by nofun) (fun h => absurd h.1 (by decide)) (by decide)
    (letterSlots_hold "b" (by decide))

/-- The blank at the end of this template is lost. -/
theorem blank_not_kept : (∀ slot ∈ letterSlots " ",
      slot.Holds (language (.ascii true)) (.string "x") []) ∧
    renderedText (language (.ascii true)) "a" (letterSlots " ") = "ax " ∧
    (JqEngine.engine (language (.ascii true))).evaluateInterpolation (templateText "a" (letterSlots " "))
      (.string "x") [] = .ok (.string "ax") :=
  ⟨letterSlots_hold " " (by decide), by rfl, by rfl⟩

end Jq
end OwsRuntime
