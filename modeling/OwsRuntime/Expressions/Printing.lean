import OwsRuntime.Expressions.JsonText
import OwsRuntime.Expressions.Paths

/-! The text of an expression tree. Operands that have parts of their own are in parentheses. -/
namespace OwsRuntime
namespace Jq

def Expr.isIdentity : Expr → Bool
  | .identity => true
  | _ => false

def Expr.isNumber : Expr → Bool
  | .literal (.number _) => true
  | _ => false

/-- An expression that is put in parentheses as an operand. -/
def Expr.compound : Expr → Bool
  | .identity => false
  | .var _ => false
  | .literal _ => false
  | .str _ => false
  | .call _ [] => false
  | _ => true

/-- The text of an operand. -/
def wrap (e : Expr) (text : List Char) : List Char :=
  if e.compound then '(' :: (text ++ [')']) else text

def literalText : Value → List Char
  | .null => "null".toList
  | .bool true => "true".toList
  | .bool false => "false".toList
  | .number (.int n) => (toString n).toList
  | _ => []

/-- The text of a string without interpolations. -/
def partsText : List InterpPart → List Char
  | [.literal s] => (Value.quote s).toList
  | _ => []

section Text

mutual

def text : Expr → List Char
  | .identity => ['.']
  | .field base name =>
      (if base.isIdentity then [] else wrap base (text base)) ++ '.' :: name.toList
  | .index base idx => wrap base (text base) ++ '[' :: (wrap idx (text idx) ++ [']'])
  | .iterate base => wrap base (text base) ++ ['[', ']']
  | .var name => '$' :: name.toList
  | .literal v => literalText v
  | .str parts => partsText parts
  | .binary op l r =>
      wrap l (text l) ++ ' ' :: (op.symbol.toList ++ ' ' :: wrap r (text r))
  | .unary .not inner => "not".toList ++ ' ' :: wrap inner (text inner)
  | .unary .negate inner => '-' :: wrap inner (text inner)
  | .pipe l r => wrap l (text l) ++ ' ' :: ("|".toList ++ ' ' :: wrap r (text r))
  | .array elems => '[' :: (List.intercalate [','] (texts elems) ++ [']'])
  | .object entries => '\x7b' :: (List.intercalate [','] (entryTexts entries) ++ ['\x7d'])
  | .if_ cond then_ else_ =>
      "if".toList ++ ' ' :: (wrap cond (text cond) ++ ' ' :: ("then".toList ++ ' ' ::
        (wrap then_ (text then_) ++ ' ' :: ("else".toList ++ ' ' ::
          (wrap else_ (text else_) ++ ' ' :: "end".toList)))))
  | .call name [] => name.toList
  | .call name args => name.toList ++ '(' :: (List.intercalate [';'] (texts args) ++ [')'])
  | .stream _ => []

def texts : List Expr → List (List Char)
  | [] => []
  | e :: rest => wrap e (text e) :: texts rest

def entryTexts : List (ObjKey × Expr) → List (List Char)
  | [] => []
  | (key, e) :: rest => (keyText key ++ ':' :: wrap e (text e)) :: entryTexts rest

def keyText : ObjKey → List Char
  | .ident name => name.toList
  | .str s => (Value.quote s).toList
  | .computed e => '(' :: (text e ++ [')'])

end

/-- The fully parenthesised text of an expression. -/
def print (e : Expr) : String := String.ofList (text e)

end Text

/-- The words that have a meaning of their own. -/
def keywords : List String :=
  ["and", "or", "not", "if", "then", "elif", "else", "end", "true", "false", "null"]

def ObjKey.HasText (platform : Platform) : ObjKey → Prop
  | .ident name => IsWord platform name
  | .str _ => True
  | .computed _ => True

/-- The expressions that have a text: there are no interpolations in their strings, their
numbers are small integers, and they call no keywords. -/
inductive Printable (platform : Platform) : Expr → Prop where
  | identity : Printable platform .identity
  | field {base : Expr} {name : String} (hName : IsWord platform name)
      (hBase : Printable platform base) : Printable platform (.field base name)
  | index {base idx : Expr} (hBase : Printable platform base) (hIndex : Printable platform idx) :
      Printable platform (.index base idx)
  | iterate {base : Expr} (hBase : Printable platform base) : Printable platform (.iterate base)
  | var {name : String} (hName : ∀ c ∈ name.toList, isIdentChar platform c = true) :
      Printable platform (.var name)
  | null : Printable platform (.literal .null)
  | bool (b : Bool) : Printable platform (.literal (.bool b))
  | int {n : Nat} (hBound : n < 2 ^ 53) : Printable platform (.literal (.number (.int n)))
  | str (s : String) : Printable platform (.str [.literal s])
  | binary (op : BinOp) {l r : Expr} (hLeft : Printable platform l) (hRight : Printable platform r) :
      Printable platform (.binary op l r)
  | unary (op : UnaryOp) {inner : Expr} (hInner : Printable platform inner) :
      Printable platform (.unary op inner)
  | pipe {l r : Expr} (hLeft : Printable platform l) (hRight : Printable platform r) :
      Printable platform (.pipe l r)
  | array {elems : List Expr} (hElems : ∀ e ∈ elems, Printable platform e) :
      Printable platform (.array elems)
  | object {entries : List (ObjKey × Expr)}
      (hKeys : ∀ entry ∈ entries, entry.1.HasText platform)
      (hComputed : ∀ entry ∈ entries, ∀ e, entry.1 = .computed e → Printable platform e)
      (hValues : ∀ entry ∈ entries, Printable platform entry.2) :
      Printable platform (.object entries)
  | if_ {cond then_ else_ : Expr} (hCond : Printable platform cond)
      (hThen : Printable platform then_) (hElse : Printable platform else_) :
      Printable platform (.if_ cond then_ else_)
  | call {name : String} {args : List Expr} (hName : IsWord platform name)
      (hOther : name ∉ keywords) (hArgs : ∀ e ∈ args, Printable platform e) :
      Printable platform (.call name args)

end Jq
end OwsRuntime
