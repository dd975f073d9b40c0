import OwsRuntime.Core.Expression
import Mathlib.Data.List.DropRight
import Mathlib.Data.List.Infix

/-! The sandboxed expression engine: how it tells expressions from text, and how
it puts the values of expressions into text. The language of the expressions
themselves is a parameter. -/
namespace OwsRuntime

/-- The language of expressions: its parser, its evaluator, which yields a stream
of values, and the text of a value. -/
structure ExpressionLanguage where
  Expr : Type
  parse : String → Except ExpressionError Expr
  eval : Expr → Value → Map → Except ExpressionError (List Value)
  toText : Value → String

namespace JqEngine

/-- The characters of the Unicode property `White_Space`. -/
def isWhitespace (c : Char) : Bool :=
  let n := c.toNat
  (9 ≤ n ∧ n ≤ 13) ∨ n ∈ [0x20, 0x85, 0xA0, 0x1680, 0x2028, 0x2029, 0x202F, 0x205F, 0x3000] ∨
    (0x2000 ≤ n ∧ n ≤ 0x200A)

def trim (text : List Char) : List Char := (text.dropWhile isWhitespace).rdropWhile isWhitespace

/-- What opens an expression block. -/
def opening : List Char := ['$', '\x7b']

/-- The text contains the opening of a block. -/
def HasBlock (text : List Char) : Prop := opening <:+: text

instance (text : List Char) : Decidable (HasBlock text) := inferInstanceAs (Decidable (_ <:+: _))

/-- `find_block_close`, from after the brace that opens the block: the text within
the block and the text after it. A quote is skipped no further than itself. -/
def splitBlock : Nat → List Char → Option (List Char × List Char)
  | _, [] => none
  | depth, c :: rest =>
      if c = '\x7b' then (splitBlock (depth + 1) rest).map fun b => (c :: b.1, b.2)
      else if c = '\x7d' then
        if depth ≤ 1 then some ([], rest)
        else (splitBlock (depth - 1) rest).map fun b => (c :: b.1, b.2)
      else (splitBlock depth rest).map fun b => (c :: b.1, b.2)

/-- The expression of a text that is a single block. -/
def singleBlock (source : List Char) : Option (List Char) :=
  match source.dropWhile isWhitespace with
  | '$' :: '\x7b' :: rest =>
      match splitBlock 1 rest with
      | some (inner, more) => if more.all isWhitespace then some (trim inner) else none
      | none => none
  | _ => none

/-- A piece of a text with blocks. -/
inductive Piece (Expr : Type) where
  | lit (s : String)
  | expr (e : Expr)

/-- A source that is compiled. -/
inductive Prepared (Expr : Type) where
  | expr (e : Expr)
  | plain (s : String)
  | interp (pieces : List (Piece Expr))

variable (lang : ExpressionLanguage)

def literal {Expr : Type} (text : List Char) : List (Piece Expr) :=
  if text.isEmpty then [] else [.lit (String.ofList text)]

def unterminated (position : Nat) : ExpressionError :=
  ⟨"parse error at byte " ++ toString position ++ ": unterminated `$\x7b` block", none⟩

/-- The pieces of a text, from a position in it and after some literal text. The
first argument bounds the length of the text. -/
def blockPieces : Nat → Nat → List Char → List Char → Except ExpressionError (List (Piece lang.Expr))
  | 0, _, text, _ => .ok (literal text)
  | _ + 1, _, text, [] => .ok (literal text)
  | fuel + 1, position, text, c :: rest =>
      if c = '$' ∧ rest.head? = some '\x7b' then
        match splitBlock 1 rest.tail with
        | none => .error (unterminated position)
        | some (inner, more) => do
            let expr ← lang.parse (String.ofList (trim inner))
            let pieces ← blockPieces fuel (position + inner.length + 3) [] more
            return literal text ++ .expr expr :: pieces
      else blockPieces fuel (position + 1) (text ++ [c]) rest

/-- Splits a text into literal pieces and expressions. -/
def parseBlocks (source : List Char) : Except ExpressionError (List (Piece lang.Expr)) := do
  let pieces ← blockPieces lang (source.length + 1) 0 [] source
  return if pieces.isEmpty then [.lit ""] else pieces

def prepare (source : String) : Except ExpressionError (Prepared lang.Expr) :=
  let trimmed := trim source.toList
  match singleBlock trimmed with
  | some inner => (lang.parse (String.ofList inner)).map .expr
  | none =>
      if HasBlock trimmed then (parseBlocks lang trimmed).map .interp else .ok (.plain source)

/-- The last value of a stream. -/
def evaluateLast (e : lang.Expr) (input : Value) (vars : Map) : Except ExpressionError Value := do
  let stream ← lang.eval e input vars
  return stream.getLast?.getD .null

def interpolate (input : Value) (vars : Map) :
    List (Piece lang.Expr) → Except ExpressionError String
  | [] => .ok ""
  | .lit s :: rest => return s ++ (← interpolate input vars rest)
  | .expr e :: rest => do
      let value ← evaluateLast lang e input vars
      return lang.toText value ++ (← interpolate input vars rest)

/-- `evaluate_value`. A plain text is an expression here. -/
def evaluateValue (prepared : Prepared lang.Expr) (input : Value) (vars : Map) :
    Except ExpressionError Value :=
  match prepared with
  | .expr e => evaluateLast lang e input vars
  | .plain s => do evaluateLast lang (← lang.parse s) input vars
  | .interp pieces => (interpolate lang input vars pieces).map .string

/-- `evaluate_interp`. A plain text stands for itself here. -/
def evaluateInterp (prepared : Prepared lang.Expr) (input : Value) (vars : Map) :
    Except ExpressionError Value :=
  match prepared with
  | .expr e => evaluateLast lang e input vars
  | .plain s => .ok (.string s)
  | .interp pieces => (interpolate lang input vars pieces).map .string

/-- The engine as the runtime sees it. -/
def engine : ExpressionEngine where
  compile source := (prepare lang source).map fun _ => ⟨source⟩
  evaluate compiled input vars := do evaluateValue lang (← prepare lang compiled.source) input vars
  isExpression value := opening.isPrefixOf (value.toList.dropWhile isWhitespace)
  evaluateInterpolation source input vars := do
    evaluateInterp lang (← prepare lang source) input vars

theorem trim_within (text : List Char) : trim text <:+: text :=
  (List.rdropWhile_prefix isWhitespace _).isInfix.trans (List.dropWhile_suffix isWhitespace).isInfix

theorem HasBlock.dropWhile {text : List Char} (hBlock : HasBlock text) :
    HasBlock (text.dropWhile isWhitespace) := by
  obtain ⟨before, after, rfl⟩ := hBlock
  induction before with
  | nil => exact ⟨[], after, rfl⟩
  | cons c rest ih =>
      by_cases hSpace : isWhitespace c
      · rw [List.cons_append, List.cons_append, List.dropWhile_cons_of_pos hSpace]
        exact ih
      · rw [List.cons_append, List.cons_append, List.dropWhile_cons_of_neg hSpace]
        exact ⟨c :: rest, after, rfl⟩

theorem HasBlock.rdropWhile {text : List Char} (hBlock : HasBlock text) :
    HasBlock (text.rdropWhile isWhitespace) := by
  obtain ⟨before, after, rfl⟩ := hBlock
  induction after using List.reverseRecOn with
  | nil =>
      rw [List.append_nil, opening, List.append_cons before '$',
        List.rdropWhile_concat_neg _ _ _ (by decide)]
      exact ⟨before, [], by simp [opening]⟩
  | append_singleton rest c ih =>
      rw [← List.append_assoc]
      by_cases hSpace : isWhitespace c
      · rw [List.rdropWhile_concat_pos _ _ _ hSpace]
        exact ih
      · rw [List.rdropWhile_concat_neg _ _ _ hSpace]
        exact ⟨before, rest ++ [c], by simp⟩

/-- Trimming keeps the blocks of a text. -/
theorem hasBlock_trim_iff (text : List Char) : HasBlock (trim text) ↔ HasBlock text :=
  ⟨fun h => h.trans (trim_within text), fun h => h.dropWhile.rdropWhile⟩

theorem singleBlock_eq_none {text : List Char} (hPlain : ¬ HasBlock text) :
    singleBlock text = none := by
  unfold singleBlock
  split
  · rename_i rest hText
    have hSuffix : opening ++ rest <:+ text := by
      rw [opening, List.cons_append, List.cons_append, List.nil_append, ← hText]
      exact List.dropWhile_suffix isWhitespace
    exact absurd ((List.prefix_append opening rest).isInfix.trans hSuffix.isInfix) hPlain
  · rfl

/-- The engine finds no expression in exactly the texts without a block. -/
theorem prepare_eq_plain_iff {source : String} :
    prepare lang source = .ok (.plain source) ↔ ¬ HasBlock source.toList := by
  rw [← hasBlock_trim_iff]
  constructor
  · intro hPrepared hBlock
    rw [prepare] at hPrepared
    cases hSingle : singleBlock (trim source.toList) with
    | some inner =>
        rw [hSingle] at hPrepared
        cases hParse : lang.parse (String.ofList inner) with
        | error e => simp [hParse, Except.map] at hPrepared
        | ok e => simp [hParse, Except.map] at hPrepared
    | none =>
        rw [hSingle] at hPrepared
        simp only [if_pos hBlock] at hPrepared
        cases hPieces : parseBlocks lang (trim source.toList) with
        | error e => simp [hPieces, Except.map] at hPrepared
        | ok pieces => simp [hPieces, Except.map] at hPrepared
  · intro hPlain
    rw [prepare, singleBlock_eq_none hPlain]
    exact if_neg hPlain

/-- A text without a block stands for itself. -/
theorem evaluateInterpolation_of_plain {source : String} (hPlain : ¬ HasBlock source.toList)
    (input : Value) (vars : Map) :
    (engine lang).evaluateInterpolation source input vars = .ok (.string source) := by
  show (do evaluateInterp lang (← prepare lang source) input vars) = _
  rw [(prepare_eq_plain_iff lang).mpr hPlain]
  rfl

end JqEngine

end OwsRuntime
