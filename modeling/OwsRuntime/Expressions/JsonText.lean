import OwsRuntime.Expressions.Eval
import OwsRuntime.Expressions.Grammar
import Mathlib.Data.List.Forall2

/-! The compact texts of JSON values, as sources: their tokens, what the parser makes of
them, and the values of that. -/
namespace OwsRuntime
namespace Jq

variable {platform : Platform}

section Strings

/-- A character of a JSON string stands for itself, whether it is written with an escape or not: the
lexer reads the same character back. -/
theorem StringStep.escape (c : Char) (literal more : List Char) :
    StringStep literal ((Value.escapeChar c).toList ++ more) [] (literal ++ [c]) more := by
  rw [Value.escapeChar]
  split_ifs with hQuote hSlash hLine hReturn hTab hBack hFeed hControl
  · subst hQuote
    exact .unescape (by decide) (by decide) (by decide)
  · subst hSlash
    exact .unescape (by decide) (by decide) (by decide)
  · subst hLine
    exact .unescape (by decide) (by decide) (by decide)
  · subst hReturn
    exact .unescape (by decide) (by decide) (by decide)
  · subst hTab
    exact .unescape (by decide) (by decide) (by decide)
  · have hSame : c = Char.ofNat 8 := by rw [← hBack, Char.ofNat_toNat]
    subst hSame
    exact .unescape (by decide) (by decide) (by decide)
  · have hSame : c = Char.ofNat 12 := by rw [← hFeed, Char.ofNat_toNat]
    subst hSame
    exact .unescape (by decide) (by decide) (by decide)
  · have hDigits : ∀ n < 32, hexValue? ['0', '0', Nat.digitChar (n / 16), Nat.digitChar (n % 16)] =
        some n ∧ charOf? n = some (Char.ofNat n) := by decide
    obtain ⟨hCode, hChar⟩ := hDigits c.toNat hControl
    have hStep : StringStep literal ('\\' :: 'u' ::
        (['0', '0', Nat.digitChar (c.toNat / 16), Nat.digitChar (c.toNat % 16)] ++ more)) []
        (literal ++ (charOf? c.toNat).toList) more := .hex rfl hCode
    rw [hChar, Char.ofNat_toNat] at hStep
    simpa [String.toList_append] using hStep
  · rw [String.toList_singleton]
    exact .plain hQuote hSlash

/-- The lexer reads back the characters that were written with their escapes. The induction is on
the characters. -/
theorem ReadsString.escape (cs literal rest : List Char) :
    ReadsString literal (cs.flatMap (fun c => (Value.escapeChar c).toList) ++ '"' :: rest)
      (flush (literal ++ cs)) rest := by
  induction cs generalizing literal with
  | nil =>
      rw [List.append_nil]
      exact .quote
  | cons c cs ih =>
      rw [List.flatMap_cons, List.append_assoc, List.append_cons literal, ← List.nil_append (flush _)]
      exact .step (.escape c literal _) (ih (literal ++ [c]))

/-- The characters of texts joined are those of each of them. -/
theorem toList_join (texts : List String) :
    (String.join texts).toList = texts.flatMap String.toList := by
  have hFold : ∀ (acc : String) (texts : List String), (texts.foldl (· ++ ·) acc).toList =
      acc.toList ++ texts.flatMap String.toList := by
    intro acc texts
    induction texts generalizing acc with
    | nil => simp
    | cons s rest ih => rw [List.foldl_cons, ih, String.toList_append, List.flatMap_cons, List.append_assoc]
  exact hFold "" texts

/-- A quoted text is its escaped characters between two quotes. -/
theorem toList_quote (s : String) : (Value.quote s).toList =
    '"' :: (s.toList.flatMap (fun c => (Value.escapeChar c).toList) ++ ['"']) := by
  rw [Value.quote, String.toList_append, String.toList_append, toList_join, List.flatMap_map]
  rfl

/-- A JSON string is one token. -/
theorem Lexes.quote (s : String) (rest : List Char) :
    Lexes platform ((Value.quote s).toList ++ rest) [.str s] rest := by
  have hReads := ReadsString.escape s.toList [] rest
  rw [toList_quote, List.cons_append, List.append_assoc, List.singleton_append]
  refine Lexes.one (by decide) (by decide) fun total => ?_
  rw [readToken_quote, readStringTokens, hReads.readString _ (Nat.lt_succ_self _), ok_bind,
    List.nil_append, flush]
  by_cases hEmpty : s.toList.isEmpty = true
  · rw [if_pos hEmpty]
    have hSame : s = "" := String.toList_inj.mp (List.isEmpty_iff.mp hEmpty)
    subst hSame
    rfl
  · rw [if_neg hEmpty, String.ofList_toList]
    rfl

end Strings

section Numbers

/-- The digits of a natural number are one token, whose value is the nearest double. -/
theorem Lexes.digits {n : Nat} {rest : List Char} (hRest : Follows platform rest) :
    Lexes platform (n.repr.toList ++ rest) [.number (F64.ofRatio false n 1)] rest := by
  have hAll : ∀ c ∈ Nat.toDigits 10 n, c.isDigit = true := fun c hc =>
    Nat.isDigit_of_mem_toDigits (by decide) (by decide) hc
  have hSplit : splitNumber (Nat.toDigits 10 n ++ rest) = (⟨Nat.toDigits 10 n, false, [], none⟩, rest) := by
    have hOwn : splitNumber (Nat.toDigits 10 n) = (⟨Nat.toDigits 10 n, false, [], none⟩, []) := by
      rw [splitNumber.eq_def, List.takeWhile_eq_self_iff.mpr hAll, List.dropWhile_eq_nil_iff.mpr hAll]
      rfl
    rw [splitNumber_append hRest, hOwn, List.nil_append]
  have hValue : NumberText.value? ⟨Nat.toDigits 10 n, false, [], none⟩ =
      some (F64.ofRatio false n 1) := by
    have hDigits : digitsValue (Nat.toDigits 10 n) = n := Nat.ofDigitChars_ten_toDigits
    simp [NumberText.value?, decimalValue, hDigits]
  rw [Nat.toList_repr]
  cases hDigits : Nat.toDigits 10 n with
  | nil => exact absurd hDigits Nat.toDigits_ne_nil
  | cons d digits =>
      rw [hDigits] at hAll hSplit hValue
      rw [List.cons_append] at hSplit ⊢
      refine Lexes.number (hAll d List.mem_cons_self) fun total => ?_
      rw [readNumber, hSplit]
      simp only [hValue]

end Numbers

section Means

/-- A token that may come after a value in a JSON text. -/
def Token.Closes (token : Token) : Prop :=
  token = .comma ∨ token = .rBracket ∨ token = .rBrace ∨ token = .eof

/-- A text of which the parser makes an expression that has one value, whatever is around it
in a JSON text. -/
structure Means (platform : Platform) (text : List Char) (tokens : List Token) (e : Expr)
    (v : Value) : Prop where
  noEof : NoEof tokens
  lexes : ∀ rest, Follows platform rest → Lexes platform (text ++ rest) tokens rest
  first : tokens.headD .rBracket ≠ .rBracket
  alone : elements e = [e]
  takes : ∀ depth stop, text.length ≤ depth → stop.Closes →
    Takes (parsePipe platform (parserAt platform depth)) tokens e stop
  value : ∀ vars input, eval platform vars e input = .ok [v]

variable {tokens : List Token} {e : Expr} {stop : Token} {nested : Nested}

/-- What may come after a JSON value is no operator, so an operand is a pipe there. -/
theorem Token.Closes.pipe_of_unary (hStop : stop.Closes)
    (hUnary : Takes (parseUnary platform nested) tokens e stop) :
    Takes (parsePipe platform nested) tokens e stop := by
  rcases hStop with rfl | rfl | rfl | rfl
  · exact (((((hUnary.mult rfl).additive rfl).compare rfl).and rfl).or rfl).pipe rfl
  · exact (((((hUnary.mult rfl).additive rfl).compare rfl).and rfl).or rfl).pipe rfl
  · exact (((((hUnary.mult rfl).additive rfl).compare rfl).and rfl).or rfl).pipe rfl
  · exact (((((hUnary.mult rfl).additive rfl).compare rfl).and rfl).or rfl).pipe rfl

/-- Nor is it a dot or an opening bracket, -/
theorem Token.Closes.no_access (hStop : stop.Closes) : stop ≠ .dot ∧ stop ≠ .lBracket := by
  rcases hStop with rfl | rfl | rfl | rfl <;> exact ⟨by nofun, by nofun⟩

/-- nor a part of a string. -/
theorem Token.Closes.endsString (hStop : stop.Closes) : stop.EndsString := by
  rcases hStop with rfl | rfl | rfl | rfl <;> exact ⟨fun _ => (by nofun), fun _ => (by nofun)⟩

/-- So a base of a path is a pipe there, when no sign stands before it. -/
theorem Token.Closes.pipe_of_base (hStop : stop.Closes)
    (hBase : Takes (parseBase platform nested) tokens e stop)
    (hNot : tokens.headD stop ≠ .ident "not") (hMinus : tokens.headD stop ≠ .minus) :
    Takes (parsePipe platform nested) tokens e stop :=
  hStop.pipe_of_unary ((hBase.unaccessed hStop.no_access).unary hNot hMinus)

/-- A word that stands for a value. -/
theorem means_word {word : String} {c : Char} {name : List Char} {v : Value}
    (hWord : word.toList = c :: name) (hStart : c.toNat < 128 ∧ (c.isAlpha || c == '_') = true)
    (hName : name.all fun d => decide (d.toNat < 128) && (d.isAlpha || d.isDigit || d == '_'))
    (hNot : word ≠ "not")
    (hLiteral : ∀ nested stop, Takes (parseIdentPrimary platform nested word) [.ident word]
      (.literal v) stop) :
    Means platform word.toList [.ident word] (.literal v) v where
  noEof := noEof_singleton (by nofun)
  lexes := fun rest hRest => Lexes.asciiWord hWord hStart hName fun b hb => (hRest b hb).notIdent
  first := by nofun
  alone := rfl
  takes := by
    intro depth stop _ hStop
    have hHead : Token.ident word ≠ .ident "not" := fun h => hNot (Token.ident.inj h)
    exact hStop.pipe_of_base (Takes.peek (hLiteral _ _)) hHead (by nofun)
  value := fun vars input => by rw [eval]

/-- The text of each scalar value means that value: null, -/
theorem means_null : Means platform "null".toList [.ident "null"] (.literal .null) .null :=
  means_word rfl (by decide) (by decide) (by decide) fun _ _ =>
    Takes.ite_neg (by decide) (Takes.ite_neg (by decide)
      (Takes.ite_pos rfl (Takes.advance Takes.pure)))

/-- true, -/
theorem means_true : Means platform "true".toList [.ident "true"] (.literal (.bool true)) (.bool true) :=
  means_word rfl (by decide) (by decide) (by decide) fun _ _ =>
    Takes.ite_pos rfl (Takes.advance Takes.pure)

/-- false, -/
theorem means_false :
    Means platform "false".toList [.ident "false"] (.literal (.bool false)) (.bool false) :=
  means_word rfl (by decide) (by decide) (by decide) fun _ _ =>
    Takes.ite_neg (by decide) (Takes.ite_pos rfl (Takes.advance Takes.pure))

/-- and a string, whose escapes are read back. -/
theorem means_string (s : String) :
    Means platform (Value.quote s).toList [.str s] (.str [.literal s]) (.string s) where
  noEof := noEof_singleton (by nofun)
  lexes := fun rest _ => Lexes.quote s rest
  first := by nofun
  alone := rfl
  takes := by
    intro depth stop _ hStop
    have hBase : Takes (parseBase platform (parserAt platform depth)) [.str s] (.str [.literal s]) stop :=
      Takes.string hStop.endsString (.cons (.literal s) .nil)
    exact hStop.pipe_of_base hBase (by nofun) (by nofun)
  value := by
    intro vars input
    rw [eval, evalString, evalPart, evalString]
    show Except.ok [Value.string (s ++ "")] = _
    rw [String.append_empty]

/-- An integer that a double represents is a literal, -/
theorem takes_number {n : Nat} (hBound : n < 2 ^ 53) (hStop : stop.Closes) :
    Takes (parsePostfix platform nested) [.number (F64.ofRatio false n 1)]
      (.literal (.number (.int n))) stop := by
  have hBase : Takes (parseBase platform nested) [.number (F64.ofRatio false n 1)]
      (.literal (jsonNum (F64.ofRatio false n 1))) stop := Takes.peek (Takes.advance Takes.pure)
  rw [jsonNum_nat hBound] at hBase
  exact hBase.unaccessed hStop.no_access

/-- and so its digits mean it. -/
theorem means_nat {n : Nat} (hBound : n < 2 ^ 53) : Means platform n.repr.toList
    [.number (F64.ofRatio false n 1)] (.literal (.number (.int n))) (.number (.int n)) where
  noEof := noEof_singleton (by nofun)
  lexes := fun rest hRest => Lexes.digits hRest
  first := by nofun
  alone := rfl
  takes := fun depth stop _ hStop =>
    hStop.pipe_of_unary ((takes_number hBound hStop).unary (by nofun) (by nofun))
  value := fun vars input => by rw [eval]

/-- A negative number is a minus before another number. The parser makes a negation of it, which is
evaluated to the number. -/
theorem means_negative {n : Nat} (hBound : n < 2 ^ 53) : Means platform ('-' :: n.repr.toList)
    [.minus, .number (F64.ofRatio false n 1)] (.unary .negate (.literal (.number (.int n))))
    (.number (.int (-n))) where
  noEof := noEof_cons (by nofun) (noEof_singleton (by nofun))
  lexes := by
    intro rest hRest
    have hMinus : Lexes platform ('-' :: (n.repr.toList ++ rest)) [.minus] (n.repr.toList ++ rest) :=
      Lexes.symbol rfl (by decide)
    exact hMinus.trans (Lexes.digits hRest)
  first := by nofun
  alone := rfl
  takes := fun depth stop _ hStop =>
    hStop.pipe_of_unary ((takes_number hBound hStop).unary_op (Or.inr rfl) (by nofun) (by nofun))
  value := by
    intro vars input
    have hNat : (n : Int).natAbs < 2 ^ 53 := by omega
    have hNeg : (-(n : Int)).natAbs < 2 ^ 53 := by omega
    have hValue : jsonNum (some (F64.ofInt n).neg) = .number (.int (-n)) :=
      jsonNum_of_toInt? (F64.toInt?_neg (F64.ofInt_toInt? hNat)) hNeg
    have hUnary : unary platform .negate (.number (.int n)) = .ok (.number (.int (-n))) :=
      congrArg Except.ok hValue
    rw [eval, eval]
    show Streams.each (unary platform .negate) [.number (.int n)] = _
    rw [Streams.each_cons, hUnary]
    rfl

/-- A negative one is written with a minus sign, which negates the literal. -/
theorem means_int {n : Int} (hBound : n.natAbs < 2 ^ 53) :
    ∃ tokens e, Means platform (toString n).toList tokens e (.number (.int n)) := by
  cases n with
  | ofNat n => exact ⟨_, _, means_nat hBound⟩
  | negSucc n =>
      have hText : (toString (Int.negSucc n)).toList = '-' :: (n + 1).repr.toList := by
        show ("-" ++ (n + 1).repr).toList = _
        rw [String.toList_append]
        rfl
      rw [hText]
      exact ⟨_, _, means_negative hBound⟩

end Means

section Collections

/-- Where each item has a partner, the items have a list of them. -/
theorem exists_forall₂ {α β : Type} {R : α → β → Prop} {l : List α} (hAll : ∀ a ∈ l, ∃ b, R a b) :
    ∃ l', List.Forall₂ R l l' := by
  induction l with
  | nil => exact ⟨[], .nil⟩
  | cons a l ih =>
      obtain ⟨hHead, hTail⟩ := List.forall_mem_cons.mp hAll
      obtain ⟨b, hb⟩ := hHead
      obtain ⟨l', hl'⟩ := ih hTail
      exact ⟨b :: l', .cons hb hl'⟩

/-- A comma separates. -/
theorem follows_comma (rest : List Char) : Follows platform (',' :: rest) :=
  follows_cons (.of_ascii (by decide) (by decide) (by decide)) rest

/-- Texts between separators have the tokens of the texts with a separator between them, since a
separator goes on with none of them. -/
theorem Lexes.separated {separator : Char} {token : Token}
    (hToken : ∀ more, Lexes platform (separator :: more) [token] more)
    (hSeparates : ∀ more, Follows platform (separator :: more)) {texts : List (List Char)}
    {ts : List (List Token)} (hTexts : List.Forall₂ (fun text tokens => ∀ rest,
      Follows platform rest → Lexes platform (text ++ rest) tokens rest) texts ts) {rest : List Char}
    (hRest : Follows platform rest) :
    Lexes platform (List.intercalate [separator] texts ++ rest) (List.intercalate [token] ts) rest := by
  induction hTexts with
  | nil => exact .done
  | @cons text tokens texts ts hText hTexts ih =>
      cases hTexts with
      | nil =>
          rw [List.intercalate_singleton, List.intercalate_singleton]
          exact hText rest hRest
      | cons hNext hTexts =>
          rw [List.intercalate_cons_cons, List.intercalate_cons_cons, List.append_assoc,
            List.append_assoc, List.append_assoc]
          exact (hText _ (hSeparates _)).trans ((hToken _).trans ih)

/-- Texts between commas. -/
theorem Lexes.intercalate {texts : List (List Char)} {ts : List (List Token)}
    (hTexts : List.Forall₂ (fun text tokens => ∀ rest, Follows platform rest →
      Lexes platform (text ++ rest) tokens rest) texts ts) {rest : List Char}
    (hRest : Follows platform rest) :
    Lexes platform (List.intercalate [','] texts ++ rest) (List.intercalate [.comma] ts) rest :=
  Lexes.separated (fun _ => Lexes.symbol rfl (by decide)) follows_comma hTexts hRest

/-- The end of the input is not among tokens with separators between them. -/
theorem noEof_intercalate {token : Token} (hToken : token ≠ .eof) {ts : List (List Token)}
    (hAll : ∀ t ∈ ts, NoEof t) : NoEof (List.intercalate [token] ts) := by
  induction ts with
  | nil => exact fun _ h => (by cases h)
  | cons t ts ih =>
      obtain ⟨hHead, hTail⟩ := List.forall_mem_cons.mp hAll
      cases ts with
      | nil => rwa [List.intercalate_singleton]
      | cons t' ts =>
          rw [List.intercalate_cons_cons]
          exact noEof_append (noEof_append hHead (noEof_singleton hToken)) (ih hTail)

/-- A text is no longer than the texts with separators that it is one of. -/
theorem length_le_intercalate {α : Type} {sep text : List α} {texts : List (List α)}
    (hText : text ∈ texts) : text.length ≤ (List.intercalate sep texts).length := by
  induction texts with
  | nil => cases hText
  | cons t texts ih =>
      cases texts with
      | nil =>
          rw [List.mem_singleton.mp hText, List.intercalate_singleton]
      | cons t' texts =>
          rw [List.intercalate_cons_cons, List.length_append, List.length_append]
          rcases List.mem_cons.mp hText with rfl | hText
          · omega
          · have hRest := ih hText
            omega

variable (formatFloat : F64 → String)

/-- The text of an array has commas between the texts of its items, -/
theorem toList_displayItems (items : List Value) : (Value.displayItems formatFloat items).toList =
    List.intercalate [','] (items.map fun item => (item.display formatFloat).toList) := by
  induction items with
  | nil => rfl
  | cons item rest ih =>
      cases rest with
      | nil => rw [Value.displayItems, List.map_singleton, List.intercalate_singleton]
      | cons next rest =>
          rw [List.map_cons] at ih
          rw [Value.displayItems, List.map_cons, List.map_cons, List.intercalate_cons_cons, ← ih]
          · simp [String.toList_append]
          · nofun

/-- The text of an entry of an object. -/
def entryText (entry : String × Value) : List Char :=
  (Value.quote entry.1).toList ++ ':' :: (entry.2.display formatFloat).toList

/-- and that of an object has them between its entries. -/
theorem toList_displayEntries (entries : List (String × Value)) :
    (Value.displayEntries formatFloat entries).toList =
      List.intercalate [','] (entries.map (entryText formatFloat)) := by
  induction entries with
  | nil => rfl
  | cons entry rest ih =>
      obtain ⟨k, v⟩ := entry
      cases rest with
      | nil =>
          rw [Value.displayEntries, List.map_singleton, List.intercalate_singleton, entryText]
          simp [String.toList_append]
      | cons next rest =>
          rw [Value.displayEntries, List.map_cons, List.map_cons, List.intercalate_cons_cons, entryText,
            ← List.map_cons, ← ih]
          · simp [String.toList_append]
          · nofun

variable {formatFloat}

/-- The values of some texts. -/
def AllMean (platform : Platform) (items : List Value) (parts : List (List Token × Expr)) : Prop :=
  List.Forall₂ (fun item part =>
    Means platform (item.display platform.jsonFloat).toList part.1 part.2 item) items parts

variable {items : List Value} {parts : List (List Token × Expr)}

/-- Each part of an array means one of its items, -/
theorem AllMean.exists_item (means : AllMean platform items parts) : ∀ part ∈ parts, ∃ item ∈ items,
    Means platform (item.display platform.jsonFloat).toList part.1 part.2 item := by
  induction means with
  | nil => exact fun _ h => (by cases h)
  | @cons item part items parts hPart _ ih =>
      refine List.forall_mem_cons.mpr ⟨⟨item, List.mem_cons_self, hPart⟩, fun other hOther => ?_⟩
      obtain ⟨item', hItem, hMeans⟩ := ih other hOther
      exact ⟨item', List.mem_cons_of_mem _ hItem, hMeans⟩

/-- so the parts are evaluated to the items, in their order. The induction is on the items. -/
theorem AllMean.evalAll (means : AllMean platform items parts) (vars : Map) (input : Value) :
    Jq.evalAll platform vars (parts.map Prod.snd) input = .ok items := by
  induction means with
  | nil => rfl
  | @cons item part items parts hPart _ ih =>
      rw [List.map_cons, Jq.evalAll]
      show (eval platform vars part.2 input >>= fun first => _) = _
      rw [hPart.value vars input, ok_bind, ih]
      rfl

/-- The parser takes each of the texts, one level further down. -/
theorem AllMean.elements (means : AllMean platform items parts) {close : Token} (hClose : close.Closes)
    {depth : Nat} (hDepth : ∀ item ∈ items, (item.display platform.jsonFloat).toList.length ≤ depth) :
    ∀ part ∈ parts, Element (parserAt platform (depth + 1)) close part.1 part.2 := by
  intro part hPart
  obtain ⟨item, hItem, hMeans⟩ := means.exists_item part hPart
  have hLength := hDepth item hItem
  exact ⟨hMeans.takes depth .comma hLength (Or.inl rfl), hMeans.takes depth close hLength hClose⟩

/-- The text of an array means the array, when the texts of its items mean them: the parser takes
the items between commas, and the evaluation puts their values together. -/
theorem AllMean.array (means : AllMean platform items parts) :
    Means platform ((Value.array items).display platform.jsonFloat).toList
      (.lBracket :: (List.intercalate [.comma] (parts.map Prod.fst) ++ [.rBracket]))
      (.array (parts.map Prod.snd)) (.array items) where
  noEof := by
    have hItems : NoEof (List.intercalate [.comma] (parts.map Prod.fst)) := by
      refine noEof_intercalate (by nofun) fun t ht => ?_
      obtain ⟨part, hMem, rfl⟩ := List.mem_map.mp ht
      obtain ⟨_, _, hMeans⟩ := means.exists_item part hMem
      exact hMeans.noEof
    exact noEof_cons (by nofun) (noEof_append hItems (noEof_singleton (by nofun)))
  lexes := by
    intro rest _
    have hTexts : List.Forall₂ (fun text tokens => ∀ rest, Follows platform rest →
        Lexes platform (text ++ rest) tokens rest)
        (items.map fun item => (item.display platform.jsonFloat).toList) (parts.map Prod.fst) :=
      List.forall₂_map_left_iff.mpr (List.forall₂_map_right_iff.mpr (means.imp fun _ _ h => h.lexes))
    have hBracket : Follows platform (']' :: rest) :=
      follows_cons (.of_ascii (by decide) (by decide) (by decide)) rest
    have hClose : Lexes platform (']' :: rest) [.rBracket] rest := Lexes.symbol rfl (by decide)
    have hOpen : ∀ more, Lexes platform ('[' :: more) [.lBracket] more :=
      fun more => Lexes.symbol rfl (by decide)
    have hText : ((Value.array items).display platform.jsonFloat).toList ++ rest =
        '[' :: (List.intercalate [','] (items.map fun item =>
          (item.display platform.jsonFloat).toList) ++ ']' :: rest) := by
      rw [← toList_displayItems, Value.display]
      simp [String.toList_append]
    rw [hText]
    exact (hOpen _).trans ((Lexes.intercalate hTexts hBracket).trans hClose)
  first := by nofun
  alone := rfl
  takes := by
    intro depth stop hLength hStop
    have hText : ((Value.array items).display platform.jsonFloat).toList.length =
        (List.intercalate [','] (items.map fun item =>
          (item.display platform.jsonFloat).toList)).length + 2 := by
      rw [← toList_displayItems, Value.display]
      simp [String.toList_append]
    obtain ⟨depth, rfl⟩ : ∃ k, depth = k + 1 := ⟨depth - 1, by omega⟩
    have hShort : ∀ item ∈ items, (item.display platform.jsonFloat).toList.length ≤ depth := by
      intro item hItem
      have hItem := @length_le_intercalate _ [','] _ _
        (List.mem_map_of_mem (f := fun item : Value => (item.display platform.jsonFloat).toList) hItem)
      omega
    have hElements := means.elements (Or.inr (Or.inl rfl)) hShort
    have hBase : Takes (parseBase platform (parserAt platform (depth + 1)))
        (.lBracket :: (List.intercalate [.comma] (parts.map Prod.fst) ++ [.rBracket]))
        (.array (parts.map Prod.snd)) stop := by
      refine Takes.array ?_ (fun e he => ?_) (fun t ht => ?_)
      · rw [List.forall₂_map_left_iff, List.forall₂_map_right_iff, List.forall₂_same]
        exact hElements
      · obtain ⟨part, hMem, rfl⟩ := List.mem_map.mp he
        obtain ⟨_, _, hMeans⟩ := means.exists_item part hMem
        exact hMeans.alone
      · obtain ⟨part, hMem, rfl⟩ := List.mem_map.mp ht
        obtain ⟨_, _, hMeans⟩ := means.exists_item part hMem
        exact hMeans.first
    exact hStop.pipe_of_base hBase (by nofun) (by nofun)
  value := by
    intro vars input
    rw [eval]
    show (Jq.evalAll platform vars (parts.map Prod.snd) input).map _ = _
    rw [means.evalAll]
    rfl

/-- The values of the entries of an object. The parts have the keys with them. -/
def AllFields (platform : Platform) (entries : List (String × Value))
    (fields : List (String × List Token × Expr)) : Prop :=
  List.Forall₂ (fun entry field => field.1 = entry.1 ∧
    Means platform (entry.2.display platform.jsonFloat).toList field.2.1 field.2.2 entry.2)
    entries fields

/-- The tokens of an entry. -/
def fieldTokens (field : String × List Token × Expr) : List Token :=
  [.str field.1] ++ .colon :: field.2.1

def fieldEntry (field : String × List Token × Expr) : ObjKey × Expr := (.str field.1, field.2.2)

variable {entries : List (String × Value)} {fields : List (String × List Token × Expr)}

/-- Each field of an object means one of its entries, -/
theorem AllFields.exists_entry (means : AllFields platform entries fields) : ∀ field ∈ fields,
    ∃ entry ∈ entries,
      Means platform (entry.2.display platform.jsonFloat).toList field.2.1 field.2.2 entry.2 := by
  induction means with
  | nil => exact fun _ h => (by cases h)
  | @cons entry field entries fields hField _ ih =>
      refine List.forall_mem_cons.mpr ⟨⟨entry, List.mem_cons_self, hField.2⟩, fun other hOther => ?_⟩
      obtain ⟨entry', hEntry, hMeans⟩ := ih other hOther
      exact ⟨entry', List.mem_cons_of_mem _ hEntry, hMeans⟩

/-- so the fields are evaluated to the entries. -/
theorem AllFields.evalEntries (means : AllFields platform entries fields) (vars : Map) (input : Value) :
    Jq.evalEntries platform vars (fields.map fieldEntry) input =
      .ok (entries.map fun entry => (entry.1, [entry.2])) := by
  induction means with
  | nil => rfl
  | @cons entry field entries fields hField _ ih =>
      rw [List.map_cons, fieldEntry, Jq.evalEntries, evalKey]
      show (eval platform vars field.2.2 input >>= fun stream => _) = _
      rw [hField.2.value vars input, ok_bind, ih, hField.1]
      rfl

/-- A key that is greater than all others is inserted at the end of the map. -/
theorem insert_last {k : String} {v : Value} {map : Map} (hLast : ∀ entry ∈ map, entry.1 < k) :
    Map.insert k v map = map ++ [(k, v)] := by
  induction map with
  | nil => rfl
  | cons entry rest ih =>
      obtain ⟨hHead, hRest⟩ := List.forall_mem_cons.mp hLast
      obtain ⟨k', v'⟩ := entry
      have hLess : k' < k := hHead
      have hNe : k ≠ k' := by
        rintro rfl
        exact List.lt_irrefl _ hLess
      have hAfter : ¬ k < k' := fun hBack => List.lt_irrefl _ (List.lt_trans hLess hBack)
      rw [Map.insert, if_neg hNe, if_neg hAfter, ih hRest]
      rfl

/-- An object whose keys are in order is the only one that its entries make. -/
theorem product_entries (hKeys : entries.Pairwise fun a b => a.1 < b.1) :
    product (entries.map fun entry => (entry.1, [entry.2])) = [.object entries] := by
  have hFold : ∀ (rest done : Map), (done ++ rest).Pairwise (fun a b => a.1 < b.1) →
      (rest.map fun entry => (entry.1, [entry.2])).foldl
        (fun objects entry => withEntry objects entry.1 entry.2) [done] = [done ++ rest] := by
    intro rest
    induction rest with
    | nil => exact fun done _ => by rw [List.append_nil]; rfl
    | cons entry rest ih =>
        intro done hDone
        have hLast : ∀ other ∈ done, other.1 < entry.1 := fun other hOther =>
          (List.pairwise_append.mp hDone).2.2 other hOther entry List.mem_cons_self
        have hEntry : withEntry [done] entry.1 [entry.2] = [done ++ [entry]] := by
          simp [withEntry, insert_last hLast]
        rw [List.append_cons] at hDone
        rw [List.map_cons, List.foldl_cons, hEntry, ih _ hDone, List.append_assoc]
        rfl
  rw [product, hFold entries [] (by rwa [List.nil_append])]
  rfl

/-- The text of an object means the object, when the texts of its values mean them. The keys are in
order, so each entry is inserted after those before it. -/
theorem AllFields.object (means : AllFields platform entries fields)
    (hKeys : entries.Pairwise fun a b => a.1 < b.1) :
    Means platform ((Value.object entries).display platform.jsonFloat).toList
      (.lBrace :: (List.intercalate [.comma] (fields.map fieldTokens) ++ [.rBrace]))
      (.object (fields.map fieldEntry)) (.object entries) where
  noEof := by
    have hItems : NoEof (List.intercalate [.comma] (fields.map fieldTokens)) := by
      refine noEof_intercalate (by nofun) fun t ht => ?_
      obtain ⟨field, hMem, rfl⟩ := List.mem_map.mp ht
      obtain ⟨_, _, hMeans⟩ := means.exists_entry field hMem
      exact noEof_cons (by nofun) (noEof_cons (by nofun) hMeans.noEof)
    exact noEof_cons (by nofun) (noEof_append hItems (noEof_singleton (by nofun)))
  lexes := by
    intro rest _
    have hTexts : List.Forall₂ (fun text tokens => ∀ rest, Follows platform rest →
        Lexes platform (text ++ rest) tokens rest)
        (entries.map (entryText platform.jsonFloat)) (fields.map fieldTokens) := by
      refine List.forall₂_map_left_iff.mpr (List.forall₂_map_right_iff.mpr (means.imp ?_))
      intro entry field hField rest hRest
      have hColon : ∀ more, Lexes platform (':' :: more) [.colon] more :=
        fun more => Lexes.symbol rfl (by decide)
      rw [entryText, fieldTokens, hField.1, List.append_assoc, List.cons_append]
      exact (Lexes.quote entry.1 _).trans ((hColon _).trans (hField.2.lexes rest hRest))
    have hBrace : Follows platform ('\x7d' :: rest) :=
      follows_cons (.of_ascii (by decide) (by decide) (by decide)) rest
    have hClose : Lexes platform ('\x7d' :: rest) [.rBrace] rest := Lexes.symbol rfl (by decide)
    have hOpen : ∀ more, Lexes platform ('\x7b' :: more) [.lBrace] more :=
      fun more => Lexes.symbol rfl (by decide)
    have hText : ((Value.object entries).display platform.jsonFloat).toList ++ rest =
        '\x7b' :: (List.intercalate [','] (entries.map (entryText platform.jsonFloat)) ++
          '\x7d' :: rest) := by
      rw [← toList_displayEntries, Value.display]
      simp [String.toList_append]
    rw [hText]
    exact (hOpen _).trans ((Lexes.intercalate hTexts hBrace).trans hClose)
  first := by nofun
  alone := rfl
  takes := by
    intro depth stop hLength hStop
    have hText : ((Value.object entries).display platform.jsonFloat).toList.length =
        (List.intercalate [','] (entries.map (entryText platform.jsonFloat))).length + 2 := by
      rw [← toList_displayEntries, Value.display]
      simp [String.toList_append]
    obtain ⟨depth, rfl⟩ : ∃ k, depth = k + 1 := ⟨depth - 1, by omega⟩
    have hBase : Takes (parseBase platform (parserAt platform (depth + 1)))
        (.lBrace :: (List.intercalate [.comma] (fields.map fieldTokens) ++ [.rBrace]))
        (.object (fields.map fieldEntry)) stop := by
      apply Takes.object
      rw [List.forall₂_map_left_iff, List.forall₂_map_right_iff, List.forall₂_same]
      intro field hField
      obtain ⟨entry, hEntry, hMeans⟩ := means.exists_entry field hField
      have hShort := @length_le_intercalate _ [','] _ _
        (List.mem_map_of_mem (f := entryText platform.jsonFloat) hEntry)
      rw [entryText, List.length_append, List.length_cons] at hShort
      have hComma := hMeans.takes depth .comma (by omega) (Or.inl rfl)
      have hClose := hMeans.takes depth .rBrace (by omega) (Or.inr (Or.inr (Or.inl rfl)))
      have hKey : Takes (parseObjectKey platform (parserAt platform (depth + 1))) [.str field.1]
          (.str field.1) .colon := Takes.peek (Takes.advance Takes.pure)
      exact .intro (by nofun) hKey ⟨hComma, hClose⟩
    exact hStop.pipe_of_base hBase (by nofun) (by nofun)
  value := by
    intro vars input
    rw [eval]
    show (Jq.evalEntries platform vars (fields.map fieldEntry) input).map product = _
    rw [means.evalEntries, ← product_entries hKeys]
    rfl

/-- A value whose numbers are integers that a float represents. The keys of an object are in
order, as they are in every JSON value. -/
inductive Integral : Value → Prop where
  | null : Integral .null
  | bool (b : Bool) : Integral (.bool b)
  | int {n : Int} (hBound : n.natAbs < 2 ^ 53) : Integral (.number (.int n))
  | string (s : String) : Integral (.string s)
  | array {items : List Value} (hItems : ∀ item ∈ items, Integral item) : Integral (.array items)
  | object {entries : List (String × Value)} (hKeys : entries.Pairwise fun a b => a.1 < b.1)
      (hEntries : ∀ entry ∈ entries, Integral entry.2) : Integral (.object entries)

/-- The text of a value means the value. The induction is on the value: its items and its entries
mean what they are, and so do the arrays and the objects of them. -/
theorem Integral.means {v : Value} (integral : Integral v) :
    ∃ tokens e, Means platform (v.display platform.jsonFloat).toList tokens e v := by
  induction integral with
  | null => exact ⟨_, _, means_null⟩
  | bool b =>
      cases b with
      | true => exact ⟨_, _, means_true⟩
      | false => exact ⟨_, _, means_false⟩
  | int hBound => exact means_int hBound
  | string s => exact ⟨_, _, means_string s⟩
  | @array items _ ih =>
      have hParts : ∀ item ∈ items, ∃ part : List Token × Expr,
          Means platform (item.display platform.jsonFloat).toList part.1 part.2 item := by
        intro item hItem
        obtain ⟨tokens, e, hMeans⟩ := ih item hItem
        exact ⟨(tokens, e), hMeans⟩
      obtain ⟨parts, hAll⟩ := exists_forall₂ hParts
      exact ⟨_, _, AllMean.array hAll⟩
  | @object entries hKeys _ ih =>
      have hFields : ∀ entry ∈ entries, ∃ field : String × List Token × Expr,
          field.1 = entry.1 ∧ Means platform (entry.2.display platform.jsonFloat).toList
            field.2.1 field.2.2 entry.2 := by
        intro entry hEntry
        obtain ⟨tokens, e, hMeans⟩ := ih entry hEntry
        exact ⟨(entry.1, tokens, e), rfl, hMeans⟩
      obtain ⟨fields, hAll⟩ := exists_forall₂ hFields
      exact ⟨_, _, AllFields.object hAll hKeys⟩

end Collections

end Jq
end OwsRuntime
