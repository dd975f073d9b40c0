import OwsRuntime.Expressions.PrintedText

/-! The parser reads the text of a tree back. A dot that is an operand by itself is read as
the beginning of a path, which goes on with a word after it, and a number takes the dot after
it for its point. -/
namespace OwsRuntime
namespace Jq

/-- What a tree is put together from. -/
def ObjKey.parts : ObjKey → List Expr
  | .computed e => [e]
  | _ => []

def Expr.parts : Expr → List Expr
  | .field base _ => [base]
  | .index base idx => [base, idx]
  | .iterate base => [base]
  | .binary _ l r => [l, r]
  | .unary _ inner => [inner]
  | .pipe l r => [l, r]
  | .array elems => elems
  | .object entries => entries.flatMap fun entry => entry.1.parts ++ [entry.2]
  | .if_ cond then_ else_ => [cond, then_, else_]
  | .call _ args => args
  | _ => []

/-- A tree in another one, or all of it. -/
def Within : Expr → Expr → Prop := Relation.ReflTransGen fun part whole => part ∈ whole.parts

/-- In the text of a tree, no dot that is an operand by itself comes before a word, and no
number before a dot. -/
def Expr.clear : Expr → Bool
  | .field base _ => !base.isNumber
  | .binary .and l _ => !l.isIdentity
  | .binary .or l _ => !l.isIdentity
  | .if_ cond then_ else_ => !cond.isIdentity && !then_.isIdentity && !else_.isIdentity
  | _ => true

section Trees

variable {platform : Platform} {e : Expr}

theorem Within.part {part whole s : Expr} (hPart : part ∈ whole.parts) (within : Within s part) :
    Within s whole := Relation.ReflTransGen.tail within hPart

theorem Printable.alone (printable : Printable platform e) : elements e = [e] := by
  cases printable <;> rfl

theorem clear_binary {op : BinOp} {l r : Expr} (hClear : (Expr.binary op l r).clear = true) :
    op.token.mayFollow l = true := by
  cases op <;> first | rfl | exact hClear

/-- An operand with its tokens, of which the input has only one. -/
theorem stands_dot {tokens : List Token} (stands : Stands platform (wrap e (text e)) tokens e) :
    ∃ tokens, Stands platform (wrap e (text e)) tokens e ∧ (e.isIdentity = true → tokens = [.dot]) := by
  cases hIdentity : e.isIdentity with
  | false => exact ⟨tokens, stands, fun h => by cases h⟩
  | true =>
      cases e <;> cases hIdentity
      exact ⟨[.dot], stands_identity, fun _ => rfl⟩

theorem exists_allStand {elems : List Expr}
    (hElems : ∀ e ∈ elems, ∃ tokens, Stands platform (wrap e (text e)) tokens e) :
    ∃ ts, AllStand platform elems ts := exists_forall₂ hElems

/-- A tree is clear, and so is every one in it. -/
def Expr.AllClear (e : Expr) : Prop := ∀ s, Within s e → s.clear = true

theorem Expr.AllClear.part {part whole : Expr} (clear : whole.AllClear) (hPart : part ∈ whole.parts) :
    part.AllClear := fun s within => clear s (within.part hPart)

/-- What holds of the text of a tree by itself holds of it as an operand. -/
theorem Printable.operand {part whole : Expr} (printable : Printable platform part)
    (ih : part.AllClear → ∃ tokens, Whole platform (text part) tokens part)
    (clear : whole.AllClear) (hPart : part ∈ whole.parts) :
    ∃ tokens, Stands platform (wrap part (text part)) tokens part :=
  printable.stands fun _ => ih (clear.part hPart)

/-- A field is read back behind a base that is no number. Behind the input its name is the first
one of a path. -/
theorem exists_whole_field {base : Expr} {name : String} {tokens : List Token}
    (stands : Stands platform (wrap base (text base)) tokens base) (isWord : IsWord platform name)
    (hClear : (Expr.field base name).clear = true) :
    ∃ tokens, Whole platform (text (.field base name)) tokens (.field base name) := by
  rw [text]
  cases hIdentity : base.isIdentity with
  | true =>
      cases base <;> cases hIdentity
      exact ⟨_, whole_name isWord⟩
  | false =>
      have hNumber : base.isNumber = false := by simpa [Expr.clear] using hClear
      exact ⟨_, whole_field stands hIdentity hNumber isWord⟩

/-- An index and an iteration are read back behind any operand. -/
theorem exists_whole_index {base idx : Expr} {tl ti : List Token}
    (stands : Stands platform (wrap base (text base)) tl base)
    (index : Stands platform (wrap idx (text idx)) ti idx) :
    ∃ tokens, Whole platform (text (.index base idx)) tokens (.index base idx) := by
  obtain ⟨_, stands, hPath⟩ := stands_dot stands
  rw [text]
  exact ⟨_, whole_index stands index hPath⟩

theorem exists_whole_iterate {base : Expr} {tokens : List Token}
    (stands : Stands platform (wrap base (text base)) tokens base) :
    ∃ tokens, Whole platform (text (.iterate base)) tokens (.iterate base) := by
  obtain ⟨_, stands, hPath⟩ := stands_dot stands
  rw [text]
  exact ⟨_, whole_iterate stands hPath⟩

/-- A unary operator is read back before any operand. -/
theorem exists_whole_unary (op : UnaryOp) {inner : Expr} {tokens : List Token}
    (stands : Stands platform (wrap inner (text inner)) tokens inner) :
    ∃ tokens, Whole platform (text (.unary op inner)) tokens (.unary op inner) := by
  cases op with
  | not =>
      rw [text]
      exact ⟨_, whole_not stands⟩
  | negate =>
      rw [text]
      exact ⟨_, whole_negate stands⟩

/-- A key of an object has a text of its own. A computed one is a whole expression within its
parentheses. -/
theorem exists_keyStands {key : ObjKey} (hText : key.HasText platform)
    (hComputed : ∀ e, key = .computed e → ∃ tokens, Whole platform (text e) tokens e) :
    ∃ tokens, KeyStands platform (keyText key) tokens key := by
  cases key with
  | ident name =>
      rw [keyText]
      exact ⟨_, keyStands_ident hText⟩
  | str s =>
      rw [keyText]
      exact ⟨_, keyStands_str s⟩
  | computed e =>
      obtain ⟨_, whole⟩ := hComputed e rfl
      rw [keyText]
      exact ⟨_, keyStands_computed whole⟩

/-- An object is read back when each of its keys and each of its values is. -/
theorem exists_whole_object {entries : List (ObjKey × Expr)}
    (hKeys : ∀ entry ∈ entries, ∃ tokens, KeyStands platform (keyText entry.1) tokens entry.1)
    (hValues : ∀ entry ∈ entries, ∃ tokens,
      Stands platform (wrap entry.2 (text entry.2)) tokens entry.2) :
    ∃ tokens, Whole platform (text (.object entries)) tokens (.object entries) := by
  have hEntries : ∀ entry ∈ entries, ∃ part : List Token × List Token,
      KeyStands platform (keyText entry.1) part.1 entry.1 ∧
        Stands platform (wrap entry.2 (text entry.2)) part.2 entry.2 := by
    intro entry hEntry
    obtain ⟨tk, key⟩ := hKeys entry hEntry
    obtain ⟨tv, value⟩ := hValues entry hEntry
    exact ⟨(tk, tv), key, value⟩
  obtain ⟨parts, stand⟩ := exists_forall₂ hEntries
  rw [text]
  exact ⟨_, whole_object stand⟩

/-- A conditional is read back when none of its three parts is a dot by itself, which would take the
keyword after it for its first name. -/
theorem exists_whole_if {cond then_ else_ : Expr} {tl tb tc : List Token}
    (first : Stands platform (wrap cond (text cond)) tl cond)
    (second : Stands platform (wrap then_ (text then_)) tb then_)
    (third : Stands platform (wrap else_ (text else_)) tc else_)
    (hClear : (Expr.if_ cond then_ else_).clear = true) :
    ∃ tokens, Whole platform (text (.if_ cond then_ else_)) tokens (.if_ cond then_ else_) := by
  simp only [Expr.clear, Bool.and_eq_true, Bool.not_eq_true'] at hClear
  rw [text]
  exact ⟨_, whole_if first second third hClear.1.1 hClear.1.2 hClear.2⟩

/-- A call is read back with its arguments, or, when it has none, as a name by itself. -/
theorem exists_whole_call {name : String} (isWord : IsWord platform name) (hOther : name ∉ keywords)
    {args : List Expr} {ts : List (List Token)} (stand : AllStand platform args ts) :
    ∃ tokens, Whole platform (text (.call name args)) tokens (.call name args) := by
  cases args with
  | nil =>
      rw [text]
      exact ⟨_, (stands_call isWord hOther).whole⟩
  | cons arg args =>
      rw [text]
      · exact ⟨_, whole_call isWord hOther stand (List.cons_ne_nil arg args)⟩
      · exact List.cons_ne_nil arg args

/-- The text of a tree is taken as a whole, if it is clear everywhere. The induction is on the tree:
its parts stand as operands, and there is a lemma for each kind of tree that is made of them. -/
theorem Printable.whole (printable : Printable platform e) (clear : e.AllClear) :
    ∃ tokens, Whole platform (text e) tokens e := by
  induction printable with
  | identity => exact ⟨_, stands_identity.whole⟩
  | var hName => exact ⟨_, (stands_var hName).whole⟩
  | null => exact ⟨_, stands_null.whole⟩
  | bool b => exact ⟨_, by rw [text]; exact (stands_bool b).whole⟩
  | int hBound => exact ⟨_, by rw [text]; exact (stands_int hBound).whole⟩
  | str s => exact ⟨_, by rw [text]; exact (stands_str s).whole⟩
  | @field base name hName hBase ih =>
      obtain ⟨_, stands⟩ := hBase.operand ih clear (List.mem_singleton_self base)
      exact exists_whole_field stands hName (clear _ .refl)
  | @index base idx hBase hIndex ihBase ihIndex =>
      obtain ⟨_, stands⟩ := hBase.operand ihBase clear (by simp [Expr.parts])
      obtain ⟨_, index⟩ := hIndex.operand ihIndex clear (by simp [Expr.parts])
      exact exists_whole_index stands index
  | @iterate base hBase ih =>
      obtain ⟨_, stands⟩ := hBase.operand ih clear (by simp [Expr.parts])
      exact exists_whole_iterate stands
  | @binary op l r hLeft hRight ihLeft ihRight =>
      obtain ⟨_, left⟩ := hLeft.operand ihLeft clear (by simp [Expr.parts])
      obtain ⟨_, right⟩ := hRight.operand ihRight clear (by simp [Expr.parts])
      rw [text]
      exact ⟨_, whole_binary op left right (clear_binary (clear _ .refl))⟩
  | @unary op inner hInner ih =>
      obtain ⟨_, stands⟩ := hInner.operand ih clear (by simp [Expr.parts])
      exact exists_whole_unary op stands
  | @pipe l r hLeft hRight ihLeft ihRight =>
      obtain ⟨_, left⟩ := hLeft.operand ihLeft clear (by simp [Expr.parts])
      obtain ⟨_, right⟩ := hRight.operand ihRight clear (by simp [Expr.parts])
      rw [text]
      exact ⟨_, whole_pipe left right⟩
  | @array elems hElems ih =>
      obtain ⟨ts, stand⟩ := exists_allStand fun e he => (hElems e he).operand (ih e he) clear he
      rw [text]
      exact ⟨_, whole_array stand fun e he => (hElems e he).alone⟩
  | @object entries hKeys hComputed hValues ihComputed ihValues =>
      have hParts : ∀ entry ∈ entries, ∀ e ∈ entry.1.parts ++ [entry.2],
          e ∈ (Expr.object entries).parts := fun entry hEntry e he =>
        List.mem_flatMap.mpr ⟨entry, hEntry, he⟩
      apply exists_whole_object
      · intro entry hEntry
        refine exists_keyStands (hKeys entry hEntry) fun e hForm => ?_
        have hPart := hParts entry hEntry e (by simp [hForm, ObjKey.parts])
        exact ihComputed entry hEntry e hForm (clear.part hPart)
      · intro entry hEntry
        exact (hValues entry hEntry).operand (ihValues entry hEntry) clear
          (hParts entry hEntry _ (by simp))
  | @if_ cond then_ else_ hCond hThen hElse ihCond ihThen ihElse =>
      obtain ⟨_, first⟩ := hCond.operand ihCond clear (by simp [Expr.parts])
      obtain ⟨_, second⟩ := hThen.operand ihThen clear (by simp [Expr.parts])
      obtain ⟨_, third⟩ := hElse.operand ihElse clear (by simp [Expr.parts])
      exact exists_whole_if first second third (clear _ .refl)
  | @call name args hName hOther hArgs ih =>
      obtain ⟨ts, stand⟩ := exists_allStand fun e he => (hArgs e he).operand (ih e he) clear he
      exact exists_whole_call hName hOther stand

/-- So the printed text of a clear tree is parsed to that tree: its tokens are those of the text, and
the text is long enough for the depth at which they are taken. -/
theorem Printable.read_back (printable : Printable platform e) (clear : e.AllClear) :
    parse platform (print e) = .ok e := by
  obtain ⟨tokens, whole⟩ := printable.whole clear
  have hLexes := whole.lexes [] follows_nil
  have hText : (print e).toList = text e := String.toList_ofList
  rw [List.append_nil, ← hText] at hLexes
  refine parse_of_takes whole.noEof hLexes (Or.inl rfl) ?_
  have hLength : (text e).length ≤ (print e).length := by
    rw [← hText, String.length_toList]
  exact (whole.takes _ hLength _ (Or.inr rfl)).expr nofun

end Trees

section Unclear

variable {platform : Platform} {nested : Nested} {e x y z : Expr} {tokens tc tt te more : List Token}
  {c c' : Cursor} {pos depth : Nat} {word name : String}

theorem toList_print (e : Expr) : (print e).toList = text e := String.toList_ofList

theorem length_print (e : Expr) : (print e).length = (text e).length := by
  rw [← toList_print, String.length_toList]

theorem run_of_print (hTokens : NoEof tokens) (hLexes : Lexes platform (text e) tokens [])
    (hParse : parse platform (print e) = .ok x) :
    ∃ c, parseExpr platform (parserAt platform (text e).length) ⟨0, tokens ++ [.eof]⟩ = .ok (x, c) := by
  rw [← toList_print] at hLexes
  obtain ⟨c, hRun, _⟩ := run_of_parse hTokens hLexes (Or.inl rfl) hParse
  rw [length_print] at hRun
  exact ⟨c, hRun⟩

/-- A dot by itself takes the word after it. -/
theorem absorbs_dot (hMore : more ≠ [])
    (hRun : parseExpr platform nested ⟨pos, .dot :: .ident word :: more⟩ = .ok (x, c)) :
    Relation.ReflTransGen Wraps (.field .identity word) x :=
  (Path.identity : Path (fun _ _ => False) [.dot] .identity false).absorbs (fun _ _ h => h.elim)
    hMore hRun

theorem not_identity (hMore : more ≠ []) :
    parseExpr platform nested ⟨pos, .dot :: .ident word :: more⟩ ≠ .ok (.identity, c) :=
  fun hRun => not_wraps_field (absorbs_dot hMore hRun)

/-- When the text of a binary operation is read back, the left operand of `and` and `or` is no dot
by itself, which would take the word for the name of a field. -/
theorem clear_of_parse_binary {op : BinOp} {l r : Expr} {tl tr : List Token}
    (left : Stands platform (wrap l (text l)) tl l) (right : Stands platform (wrap r (text r)) tr r)
    (hParse : parse platform (print (.binary op l r)) = .ok (.binary op l r)) :
    (Expr.binary op l r).clear = true := by
  by_contra hUnclear
  have hWord : l = .identity ∧ ∃ word, op.token = .ident word := by
    cases op <;> first | exact absurd rfl hUnclear | skip
    all_goals
      cases l <;> first | exact absurd rfl hUnclear | exact ⟨rfl, _, rfl⟩
  obtain ⟨rfl, word, hWord⟩ := hWord
  have hLexes : Lexes platform (text (.binary op .identity r)) (.dot :: op.token :: tr) [] := by
    have hAll := lexes_between stands_identity right op.lexes_symbol [] follows_nil
    rw [List.append_nil] at hAll
    rw [text]
    exact hAll
  have hNoEof : NoEof (.dot :: op.token :: tr) :=
    noEof_cons (by decide) (noEof_cons op.token_ne_eof right.noEof)
  obtain ⟨c, hRun⟩ := run_of_print hNoEof hLexes hParse
  rw [hWord] at hRun
  exact not_wraps_binary (absorbs_dot (by simp) hRun)

/-- When the text of an `if` is read back, none of its three parts is a dot by itself: such a dot
would take the keyword after it for the name of a field. -/
theorem clear_of_parse_if (cond : Stands platform (wrap x (text x)) tc x)
    (then_ : Stands platform (wrap y (text y)) tt y)
    (else_ : Stands platform (wrap z (text z)) te z)
    (hParse : parse platform (print (.if_ x y z)) = .ok (.if_ x y z)) :
    (Expr.if_ x y z).clear = true := by
  obtain ⟨tc, cond, hFirst⟩ := stands_dot cond
  obtain ⟨tt, then_, hSecond⟩ := stands_dot then_
  obtain ⟨te, else_, hThird⟩ := stands_dot else_
  have hText : text (.if_ x y z) = "if".toList ++ ' ' :: (wrap x (text x) ++ ' ' ::
      ("then".toList ++ ' ' :: (wrap y (text y) ++ ' ' :: ("else".toList ++ ' ' ::
        (wrap z (text z) ++ ' ' :: "end".toList))))) := by rw [text]
  have hLexes := lexes_branches cond then_ else_ [] follows_nil
  rw [List.append_nil, ← hText] at hLexes
  obtain ⟨c, hRun⟩ := run_of_print (noEof_ifElse cond.noEof then_.noEof else_.noEof) hLexes hParse
  simp only [List.append_assoc, List.cons_append, List.nil_append] at hRun
  have hRun := parseIf_of_expr hRun
  obtain ⟨depth, hDepth⟩ : ∃ k, (text (.if_ x y z)).length = k + 1 :=
    ⟨(text (.if_ x y z)).length - 1, by rw [hText, List.length_append, List.length_cons]; omega⟩
  have hLength : (wrap x (text x)).length < depth + 1 ∧ (wrap y (text y)).length < depth + 1 := by
    rw [← hDepth, hText]
    simp only [List.length_append, List.length_cons]
    omega
  rw [hDepth] at hRun
  have hCond : x.isIdentity = false := by
    cases hDot : x.isIdentity with
    | false => rfl
    | true =>
        cases x <;> cases hDot
        rw [hFirst rfl] at hRun
        obtain ⟨_, _, _, hPart, _⟩ := parseIf_parts (by simp) hRun
        exact absurd hPart (not_identity (by simp))
  have hThen : y.isIdentity = false := by
    cases hDot : y.isIdentity with
    | false => rfl
    | true =>
        cases y <;> cases hDot
        rw [hSecond rfl] at hRun
        obtain ⟨_, _, hPart⟩ := branch_of_if (by simp)
          (cond.ofWord hCond hLength.1 "then" (by decide) (by decide)) hRun
        exact absurd hPart (not_identity (by simp))
  have hElse : z.isIdentity = false := by
    cases hDot : z.isIdentity with
    | false => rfl
    | true =>
        cases z <;> cases hDot
        rw [hThird rfl] at hRun
        obtain ⟨_, _, hPart⟩ := else_of_if (by simp)
          (cond.ofWord hCond hLength.1 "then" (by decide) (by decide))
          (then_.ofWord hThen hLength.2 "else" (by decide) (by decide)) hRun
        exact absurd hPart (not_identity (by simp))
  simp [Expr.clear, hCond, hThen, hElse]

/-- A number takes the dot after it, and what is left begins no access. -/
theorem number_takes_dot {n : Nat} {last : List Char} (isWord : IsWord platform name)
    (lexes : Lexes platform (n.repr.toList ++ '.' :: name.toList) tokens last)
    (hLast : Finished last) :
    ∃ v more, tokens = .number v :: more ∧
      ∀ t, more.head? = some t → t ≠ .dot ∧ t ≠ .lBracket := by
  have hAll : ∀ c ∈ Nat.toDigits 10 n, c.isDigit = true := fun c hc =>
    Nat.isDigit_of_mem_toDigits (by decide) (by decide) hc
  have hChars : ∀ c ∈ name.toList, isIdentChar platform c = true := by
    obtain ⟨c, tail, hWord, hStart, hName⟩ := isWord
    rw [hWord]
    exact List.forall_mem_cons.mpr ⟨isIdentChar_of_start hStart, hName⟩
  have hSplit : ∀ c ∈ (splitNumber (Nat.toDigits 10 n ++ '.' :: name.toList)).2,
      isIdentChar platform c = true := by
    obtain ⟨_, hDrop⟩ := @takeWhile_of_all _ Char.isDigit _ ('.' :: name.toList) hAll
      (by rintro _ ⟨⟩; rfl)
    rw [splitNumber.eq_def, hDrop]
    exact fun c hc => hChars c (List.dropWhile_subset _ (splitExponent_subset _ hc))
  rw [Nat.toList_repr] at lexes
  cases hDigits : Nat.toDigits 10 n with
  | nil => exact absurd hDigits Nat.toDigits_ne_nil
  | cons d digits =>
      rw [hDigits] at lexes hAll hSplit
      have hDigit := hAll d List.mem_cons_self
      obtain ⟨hSpace, hOther, _⟩ := digit_plain platform hDigit
      have hComment : d ≠ '#' := by
        rintro rfl
        exact hOther List.mem_cons_self
      generalize hText : d :: digits ++ '.' :: name.toList = source at lexes
      cases lexes with
      | done =>
          subst hText
          rcases hLast with hNil | ⟨_, hBody, _⟩
          · cases hNil
          · cases hBody
            exact absurd rfl hComment
      | blank hBlank =>
          cases hText
          rw [hSpace] at hBlank
          cases hBlank
      | comment => exact absurd (List.cons.inj hText).1 hComment
      | batch _ _ hRead tail =>
          cases hText
          rcases readToken_ident (isIdentChar_of_digit hDigit) (hRead 0) with
            ⟨v, rfl, rfl⟩ | ⟨hOther, _⟩
          · exact ⟨v, _, rfl, tail.no_access hSplit⟩
          · exact absurd ((isDigit_iff d).mp hDigit) hOther

/-- A field of a number is not read back: the dot goes on with the number, and what is left of the
text is no access. -/
theorem not_parse_field {n : Nat} (isWord : IsWord platform name) :
    parse platform (print (.field (.literal (.number (.int n))) name)) ≠
      .ok (.field (.literal (.number (.int n))) name) := by
  intro hParse
  obtain ⟨tokens, c, hNoEof, hTokenize, hRun, _⟩ := parseSource_eq_ok_iff.mp hParse
  obtain ⟨last, lexes, hLast⟩ := (tokenize_eq_ok_iff hNoEof).mp hTokenize
  have hText : (print (.field (.literal (.number (.int n))) name)).toList =
      n.repr.toList ++ '.' :: name.toList := by
    rw [toList_print, text, text]
    rfl
  rw [hText] at lexes
  obtain ⟨v, more, rfl, hMore⟩ := number_takes_dot isWord lexes hLast
  obtain ⟨b, middle, hBase, hLoop⟩ := run_bind (unary_goes (by rintro ⟨⟩) (by rintro ⟨⟩)
    (unary_of_expr rfl hRun))
  obtain ⟨_, _, hRemaining, hLoop⟩ := run_bind hLoop
  cases hRemaining
  have hNext : ∃ t rest, more ++ [.eof] = t :: rest ∧ t ≠ .dot ∧ t ≠ .lBracket := by
    cases more with
    | nil => exact ⟨.eof, [], rfl, by decide, by decide⟩
    | cons t more => exact ⟨t, _, List.cons_append, hMore t rfl⟩
  obtain ⟨t, rest, hTokens, hAccess⟩ := hNext
  rw [List.cons_append, hTokens] at hBase
  cases hBase
  have hTakes : ∀ fuel, Takes (postfixLoop platform
      (parserAt platform (print (.field (.literal (.number (.int n))) name)).length) (fuel + 1)
      (.literal (jsonNum v))) [] (.literal (jsonNum v)) t := fun _ => Takes.access_done hAccess
  obtain ⟨pos, hDone⟩ := hTakes rest.length 1 rest
  cases hDone.symm.trans hLoop

/-- A tree whose text is read back is clear itself, if what it is put together from is. -/
theorem Printable.clear_of_parse (printable : Printable platform e) (hParts : ∀ part ∈ e.parts, part.AllClear)
    (hParse : parse platform (print e) = .ok e) : e.clear = true := by
  have hStands : ∀ part, Printable platform part → part ∈ e.parts →
      ∃ tokens, Stands platform (wrap part (text part)) tokens part := fun part hPart hMem =>
    hPart.stands fun _ => hPart.whole (hParts part hMem)
  cases printable with
  | @binary op l r hLeft hRight =>
      obtain ⟨_, left⟩ := hStands l hLeft (by simp [Expr.parts])
      obtain ⟨_, right⟩ := hStands r hRight (by simp [Expr.parts])
      exact clear_of_parse_binary left right hParse
  | @if_ cond then_ else_ hCond hThen hElse =>
      obtain ⟨_, first⟩ := hStands cond hCond (by simp [Expr.parts])
      obtain ⟨_, second⟩ := hStands then_ hThen (by simp [Expr.parts])
      obtain ⟨_, third⟩ := hStands else_ hElse (by simp [Expr.parts])
      exact clear_of_parse_if first second third hParse
  | @field base name hName hBase =>
      cases hBase with
      | int => exact absurd hParse (not_parse_field hName)
      | _ => rfl
  | _ => rfl

end Unclear

section Subtrees

variable {platform : Platform} {e s : Expr}

theorem sizeOf_key {part : Expr} {key : ObjKey} (hPart : part ∈ key.parts) : sizeOf part < sizeOf key := by
  cases key with
  | computed e =>
      cases List.mem_singleton.mp hPart
      simp
  | _ => cases hPart

/-- A part of a tree is smaller than the tree, which is what the recursion into the parts rests on.
-/
theorem sizeOf_part {part : Expr} (hPart : part ∈ e.parts) : sizeOf part < sizeOf e := by
  cases e with
  | array elems =>
      have hLess : sizeOf part < sizeOf elems := List.sizeOf_lt_of_mem hPart
      simp only [Expr.array.sizeOf_spec]
      omega
  | call name args =>
      have hLess : sizeOf part < sizeOf args := List.sizeOf_lt_of_mem hPart
      simp only [Expr.call.sizeOf_spec]
      omega
  | object entries =>
      obtain ⟨⟨key, value⟩, hEntry, hPart⟩ := List.mem_flatMap.mp hPart
      have hLess := List.sizeOf_lt_of_mem hEntry
      simp only [Prod.mk.sizeOf_spec] at hLess
      simp only [Expr.object.sizeOf_spec]
      rcases List.mem_append.mp hPart with hKey | hValue
      · have hKeyLess : sizeOf part < sizeOf key := sizeOf_key hKey
        omega
      · have hSame : part = value := List.mem_singleton.mp hValue
        subst hSame
        omega
  | _ =>
      simp only [Expr.parts, List.mem_cons, List.not_mem_nil, or_false] at hPart <;>
        rcases hPart with rfl | rfl | rfl <;> simp <;> omega

/-- The parts of a tree that can be printed can be printed themselves. -/
theorem Printable.part {part : Expr} (printable : Printable platform e)
    (hPart : part ∈ e.parts) :
    Printable platform part := by
  cases printable with
  | array hElems => exact hElems part hPart
  | call _ _ hArgs => exact hArgs part hPart
  | object _ hComputed hValues =>
      obtain ⟨⟨key, value⟩, hEntry, hPart⟩ := List.mem_flatMap.mp hPart
      rcases List.mem_append.mp hPart with hKey | hValue
      · cases key with
        | computed e =>
            cases List.mem_singleton.mp hKey
            exact hComputed _ hEntry _ rfl
        | _ => cases hKey
      · cases List.mem_singleton.mp hValue
        exact hValues _ hEntry
  | _ =>
      simp only [Expr.parts, List.mem_cons, List.not_mem_nil, or_false] at hPart <;>
        grind

theorem Printable.within (printable : Printable platform e) (within : Within s e) :
    Printable platform s := by
  induction within using Relation.ReflTransGen.head_induction_on with
  | refl => exact printable
  | head hPart _ ih => exact ih.part hPart

theorem Within.cases (within : Within s e) : s = e ∨ ∃ part ∈ e.parts, Within s part := by
  rcases Relation.ReflTransGen.cases_tail within with hSame | ⟨part, hWithin, hPart⟩
  · exact Or.inl hSame.symm
  · exact Or.inr ⟨part, hPart, hWithin⟩

theorem Expr.AllClear.of_parts (hOwn : e.clear = true) (hParts : ∀ part ∈ e.parts, part.AllClear) :
    e.AllClear := by
  intro s within
  rcases within.cases with rfl | ⟨part, hPart, within⟩
  · exact hOwn
  · exact hParts part hPart s within

/-- The trees that are read back from their text, with all that is in them, are those that
are clear everywhere. -/
theorem parse_print_iff (printable : Printable platform e) :
    (∀ s, Within s e → parse platform (print s) = .ok s) ↔ e.AllClear := by
  constructor
  · induction hSize : sizeOf e using Nat.strong_induction_on generalizing e with
    | _ size ih =>
        intro hParse
        have hParts : ∀ part ∈ e.parts, part.AllClear := fun part hPart =>
          ih _ (hSize ▸ sizeOf_part hPart) (printable.part hPart) rfl fun s within =>
            hParse s (within.part hPart)
        exact .of_parts (printable.clear_of_parse hParts (hParse _ .refl)) hParts
  · intro clear s within
    exact (printable.within within).read_back fun t hWithin => clear t (hWithin.trans within)

/-- A negated variable is read back before a pipe, and so is the array after it. -/
theorem parse_print_negated :
    parse (.ascii true) (print (.pipe (.unary .negate (.var "x")) (.array [.identity]))) =
      .ok (.pipe (.unary .negate (.var "x")) (.array [.identity])) := by
  have hName : ∀ c ∈ "x".toList, isIdentChar (.ascii true) c = true := by
    intro c hMem
    have hSame : c = 'x' := List.mem_singleton.mp hMem
    rw [hSame, isIdentChar_ascii (by decide)]
    rfl
  have hArray : Printable (.ascii true) (.array [.identity]) :=
    .array (List.forall_mem_singleton.mpr .identity)
  have hVar : Expr.AllClear (.var "x") := .of_parts rfl nofun
  have hNegated : Expr.AllClear (.unary .negate (.var "x")) :=
    .of_parts rfl (List.forall_mem_singleton.mpr hVar)
  have hElems : Expr.AllClear (.array [.identity]) :=
    .of_parts rfl (List.forall_mem_singleton.mpr (.of_parts rfl nofun))
  have clear := Expr.AllClear.of_parts (e := .pipe (.unary .negate (.var "x")) (.array [.identity]))
    rfl (List.forall_mem_cons.mpr ⟨hNegated, List.forall_mem_singleton.mpr hElems⟩)
  exact (parse_print_iff (.pipe (.unary .negate (.var hName)) hArray)).mpr clear _ .refl

/-- The text of `. and null` is not. -/
theorem parse_print_and :
    Printable (.ascii true) (.binary .and .identity (.literal .null)) ∧
      parse (.ascii true) (print (.binary .and .identity (.literal .null))) ≠
        .ok (.binary .and .identity (.literal .null)) := by
  have left : Stands (.ascii true) (wrap .identity (text .identity)) [.dot] .identity := stands_identity
  have right : Stands (.ascii true) (wrap (.literal .null) (text (.literal .null))) [.ident "null"]
      (.literal .null) := stands_null
  refine ⟨.binary .and .identity .null, fun hParse => ?_⟩
  cases clear_of_parse_binary left right hParse

end Subtrees


end Jq
end OwsRuntime
