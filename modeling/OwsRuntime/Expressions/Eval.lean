import OwsRuntime.Core.Streams
import OwsRuntime.Expressions.Parser

/-! The evaluator of the expression language. An expression maps an input to a stream
of values; a builtin is given its arguments unevaluated. -/
namespace OwsRuntime
namespace Jq

open Streams

/-- An expression whose variables are given. -/
abbrev Filter := Value → Except LangError (List Value)

/-- Only `false` and `null` are not true. -/
def truthy : Value → Bool
  | .bool b => b
  | .null => false
  | _ => true

mutual

/-- `==` on values, which ignores the sign of zero. -/
def identical : Value → Value → Bool
  | .number (.float x), .number (.float y) => x.eq y
  | .number (.int m), .number (.int n) => m == n
  | .array xs, .array ys => identicalItems xs ys
  | .object xs, .object ys => identicalEntries xs ys
  | .string s, .string t => s == t
  | .bool a, .bool b => a == b
  | .null, .null => true
  | _, _ => false

def identicalItems : List Value → List Value → Bool
  | [], [] => true
  | x :: xs, y :: ys => identical x y && identicalItems xs ys
  | _, _ => false

def identicalEntries : List (String × Value) → List (String × Value) → Bool
  | [], [] => true
  | (k, x) :: xs, (l, y) :: ys => k == l && identical x y && identicalEntries xs ys
  | _, _ => false

end

section Operators

variable (platform : Platform)

/-- The JSON text of a value, in messages. -/
def show_ (v : Value) : String := v.display platform.jsonFloat

/-- The string of a value. -/
def toText : Value → String
  | .string s => s
  | v => v.display platform.jsonFloat

def raise {α : Type} (message : String) : Except LangError α := .error (.eval message)

def typeError {α : Type} (message : String) : Except LangError α := .error (.typeError message)

/-- The result of arithmetic on 64 bits. -/
def jsonInt (operation : String) (n : Int) : Except LangError Value :=
  if -2 ^ 63 ≤ n ∧ n < 2 ^ 63 then .ok (.number (.int n))
  else if platform.overflowChecks then
    .error (.panic ("attempt to " ++ operation ++ " with overflow"))
  else .ok (.number (.int ((n + 2 ^ 63) % 2 ^ 64 - 2 ^ 63)))

def add : Value → Value → Except LangError Value
  | .null, r => .ok r
  | l, .null => .ok l
  | .number a, .number b =>
      match a.asI64, b.asI64 with
      | some m, some n => jsonInt platform "add" (m + n)
      | _, _ => .ok (jsonNum (a.asF64.add b.asF64))
  | .string a, .string b => .ok (.string (a ++ b))
  | .array a, .array b => .ok (.array (a ++ b))
  | .string a, r => .ok (.string (a ++ toText platform r))
  | l, .string b => .ok (.string (toText platform l ++ b))
  | .object a, .object b => .ok (.object (Map.extend a b))
  | l, r => typeError ("cannot add `" ++ show_ platform l ++ "` and `" ++ show_ platform r ++ "`")

def sub : Value → Value → Except LangError Value
  | .number a, .number b =>
      match a.asI64, b.asI64 with
      | some m, some n => jsonInt platform "subtract" (m - n)
      | _, _ => .ok (jsonNum (a.asF64.sub b.asF64))
  | .array a, .array b => .ok (.array (a.filter fun x => !b.any (identical · x)))
  | l, r =>
      typeError ("cannot subtract `" ++ show_ platform r ++ "` from `" ++ show_ platform l ++ "`")

/-- `str::repeat`. -/
def repeatText (s : String) (n : Nat) : Except LangError Value :=
  if s.utf8ByteSize * n < 2 ^ 63 then
    .ok (.string (String.ofList (List.replicate n s.toList).flatten))
  else .error (.panic "capacity overflow")

def mul : Value → Value → Except LangError Value
  | .number a, .number b =>
      match a.asI64, b.asI64 with
      | some m, some n => jsonInt platform "multiply" (m * n)
      | _, _ => .ok (jsonNum (a.asF64.mul b.asF64))
  | .string s, .number n => repeatText s n.asF64.toUsize
  | .number n, .string s => repeatText s n.asF64.toUsize
  | l, r =>
      typeError ("cannot multiply `" ++ show_ platform l ++ "` and `" ++ show_ platform r ++ "`")

/-- `str::split` by a separator that is not empty. A separator that was found is
skipped first; then come the characters of the part. -/
def splitParts (separator : List Char) : Nat → List Char → List Char → List (List Char)
  | _, part, [] => [part]
  | skip + 1, part, _ :: rest => splitParts separator skip part rest
  | 0, part, c :: rest =>
      if separator <+: c :: rest then part :: splitParts separator (separator.length - 1) [] rest
      else splitParts separator 0 (part ++ [c]) rest

/-- `str::split`. An empty separator is found around each character. -/
def splitText (s separator : String) : Value :=
  let parts :=
    if separator.isEmpty then [] :: s.toList.map ([·]) ++ [[]]
    else splitParts separator.toList 0 [] s.toList
  .array (parts.map fun part => .string (String.ofList part))

def div : Value → Value → Except LangError Value
  | .number a, .number b =>
      if b.asF64.isZero then raise "division by zero"
      else .ok (jsonNum (a.asF64.div b.asF64))
  | .string a, .string b => .ok (splitText a b)
  | l, r =>
      typeError ("cannot divide `" ++ show_ platform l ++ "` by `" ++ show_ platform r ++ "`")

def mod : Value → Value → Except LangError Value
  | .number a, .number b =>
      match a.asI64, b.asI64 with
      | some m, some n =>
          if n = 0 then raise "modulo by zero"
          else if m = -2 ^ 63 ∧ n = -1 then
            .error (.panic "attempt to calculate the remainder with overflow")
          else .ok (.number (.int (m.tmod n)))
      | _, _ =>
          if b.asF64.isZero then raise "modulo by zero"
          else .ok (jsonNum (a.asF64.rem b.asF64))
  | l, r =>
      typeError ("cannot take `" ++ show_ platform l ++ "` modulo `" ++ show_ platform r ++ "`")

mutual

def cmp : Value → Value → Except LangError Ordering
  | .number a, .number b => .ok (a.asF64.compare b.asF64)
  | .string a, .string b => .ok (compare a b)
  | .array a, .array b => cmpItems a b
  | l, r =>
      typeError ("cannot compare `" ++ show_ platform l ++ "` and `" ++ show_ platform r ++ "`")

/-- The first items that differ decide, or else the lengths. -/
def cmpItems : List Value → List Value → Except LangError Ordering
  | [], [] => .ok .eq
  | [], _ :: _ => .ok .lt
  | _ :: _, [] => .ok .gt
  | x :: xs, y :: ys => do
      let ord ← cmp x y
      if ord != .eq then return ord
      cmpItems xs ys

end

/-- A binary operation on two values. The operators that look at their left side
first never come here. -/
def applyBinop (op : BinOp) (l r : Value) : Except LangError Value :=
  match op with
  | .add => add platform l r
  | .sub => sub platform l r
  | .mul => mul platform l r
  | .div => div platform l r
  | .mod => mod platform l r
  | .eq => .ok (.bool (valuesEqual l r))
  | .ne => .ok (.bool !valuesEqual l r)
  | .lt => (cmp platform l r).map fun ord => .bool (ord == .lt)
  | .le => (cmp platform l r).map fun ord => .bool (ord != .gt)
  | .gt => (cmp platform l r).map fun ord => .bool (ord == .gt)
  | .ge => (cmp platform l r).map fun ord => .bool (ord != .lt)
  | .and => .error (.panic "internal error: entered unreachable code: handled above")
  | .or => .error (.panic "internal error: entered unreachable code: handled above")
  | .alternative => .error (.panic "internal error: entered unreachable code: handled above")

/-- A binary operator on the streams of its sides, of which the right one is
evaluated when it is needed. -/
def binary (op : BinOp) (l r : Except LangError (List Value)) :
    Except LangError (List Value) := do
  let lstream ← l
  let lv := lstream.getLast?.getD .null
  match op with
  | .and =>
      if !truthy lv then return [.bool false]
      return [.bool (truthy ((← r).getLast?.getD .null))]
  | .or =>
      if truthy lv then return [.bool true]
      return [.bool (truthy ((← r).getLast?.getD .null))]
  | .alternative => if !truthy lv then r else return lstream
  | op => do
      let rstream ← r
      collect (fun lv => each (applyBinop platform op lv) rstream) lstream

def unary (op : UnaryOp) (v : Value) : Except LangError Value :=
  match op with
  | .not => .ok (.bool !truthy v)
  | .negate =>
      match v.asF64 with
      | some n => .ok (jsonNum (some n.neg))
      | none => typeError ("cannot negate non-number `" ++ show_ platform v ++ "`")

end Operators

section Access

variable (platform : Platform)

def fieldAccess (name : String) : Value → Value
  | .object map => (map.lookup name).getD .null
  | .array items => .array (items.map fun e => (e.get? name).getD .null)
  | _ => .null

/-- An item by its number, from the end if that is negative. -/
def itemAt {α : Type} (items : List α) (n : Number) : Option α :=
  let i := n.asF64.toI64
  let real := if i < 0 then items.length + i else i
  if real < 0 then none else items[real.toNat]?

def indexAccess (v idx : Value) : Except LangError Value :=
  match v with
  | .array items =>
      match idx with
      | .number n => .ok ((itemAt items n).getD .null)
      | .string _ => .ok .null
      | other => typeError ("array index must be a number, got `" ++ show_ platform other ++ "`")
  | .object map =>
      match idx with
      | .string s => .ok ((map.lookup s).getD .null)
      | .number _ => .ok .null
      | other => typeError ("object index must be a string, got `" ++ show_ platform other ++ "`")
  | .string s =>
      match idx with
      | .number n => .ok (((itemAt s.toList n).map fun c => .string (String.singleton c)).getD .null)
      | _ => typeError "string index must be a number"
  | _ => .ok .null

def iterate : Value → List Value
  | .array items => items
  | .object map => map.map Prod.snd
  | other => [other]

/-- The objects with one more entry. An empty stream counts as `null`. -/
def withEntry (objects : List Map) (key : String) (values : List Value) : List Map :=
  objects.flatMap fun obj =>
    if values.isEmpty then [Map.insert key .null obj]
    else values.map fun v => Map.insert key v obj

/-- The objects of all choices of a value for each entry. -/
def product (entries : List (String × List Value)) : List Value :=
  (entries.foldl (fun objects entry => withEntry objects entry.1 entry.2) [[]]).map .object

end Access

section Builtins

variable (platform : Platform)

/-- The first value of the first argument. -/
def firstArg (args : List Filter) (input : Value) : Except LangError (Option Value) :=
  match args with
  | [] => .ok none
  | f :: _ => (f input).map List.head?

/-- The text of the first argument, when it is a string. -/
def textArg (args : List Filter) (input : Value) : Except LangError (Option String) :=
  (firstArg args input).map (·.bind Value.asStr)

/-- `str::parse::<f64>`. A number that is not finite has no value. -/
def parseFloat? (text : List Char) : Option (Option F64) :=
  let digits := match text with
    | '+' :: rest => rest
    | '-' :: rest => rest
    | _ => text
  if String.ofList (digits.map Char.toLower) ∈ ["inf", "infinity", "nan"] then some none
  else
    let (n, rest) := splitNumber digits
    if rest.isEmpty ∧ ¬ (n.whole.isEmpty ∧ n.fraction.isEmpty) then
      n.value?.map fun value =>
        if text.head? = some '-' then value.map F64.neg else value
    else none

mutual

def containsValue : Value → Value → Bool
  | .string h, .string n => decide (n.toList <:+: h.toList)
  | .array h, .array n => containsItems h n
  | .object h, .object n => containsEntries h n
  | h, n => valuesEqual h n

/-- Every item that is looked for is contained in some item. -/
def containsItems : List Value → List Value → Bool
  | _, [] => true
  | h, v :: rest => (h.any fun w => containsValue w v) && containsItems h rest

def containsEntries : List (String × Value) → List (String × Value) → Bool
  | _, [] => true
  | h, (k, v) :: rest =>
      (match h.lookup k with
        | some w => containsValue w v
        | none => false) && containsEntries h rest

end

mutual

def flattenInto : Value → List Value
  | .array items => flattenItems items
  | other => [other]

def flattenItems : List Value → List Value
  | [] => []
  | v :: rest => flattenInto v ++ flattenItems rest

end

def callLength (_ : List Filter) : Filter
  | .object m => .ok [jsonNum (some (.ofInt m.length))]
  | .array a => .ok [jsonNum (some (.ofInt a.length))]
  | .string s => .ok [jsonNum (some (.ofInt s.length))]
  | .number n => .ok [jsonNum (some (.ofInt n.asF64.abs.toUsize))]
  | .null => .ok [jsonNum (some (.ofInt 0))]
  | .bool _ => typeError "length of unsupported type"

def callKeys (_ : List Filter) : Filter
  | .object m =>
      .ok [.array (((m.map Prod.fst).mergeSort fun k l => decide (k ≤ l)).map .string)]
  | .array a => .ok [.array ((List.range a.length).map fun i => jsonNum (some (.ofInt i)))]
  | _ => typeError "keys of non-object/array"

def callMap (args : List Filter) : Filter := fun input =>
  match args.head? with
  | none => raise "map requires a filter"
  | some f =>
      match input with
      | .array items => (collect f items).map fun out => [.array out]
      | other => typeError ("map expects an array, got `" ++ show_ platform other ++ "`")

def callSelect (args : List Filter) : Filter := fun input =>
  match args.head? with
  | none => raise "select requires a filter"
  | some f => (f input).map fun s => if truthy (s.head?.getD .null) then [input] else []

def callJoin (args : List Filter) : Filter := fun input => do
  let sep ← textArg args input
  match input with
  | .array items =>
      return [.string ((sep.getD "").intercalate (items.map (toText platform)))]
  | other => typeError ("join expects an array, got `" ++ show_ platform other ++ "`")

def callTonumber (_ : List Filter) : Filter
  | .number n => .ok [jsonNum (some n.asF64)]
  | .string s =>
      match parseFloat? s.toList with
      | some n => .ok [jsonNum n]
      | none => raise ("cannot parse `" ++ s ++ "` as a number")
  | .bool b => .ok [jsonNum (some (.ofInt (if b then 1 else 0)))]
  | other => typeError ("cannot convert `" ++ show_ platform other ++ "` to number")

/-- `startswith` and `endswith`. -/
def callAffix (test : List Char → List Char → Bool) (args : List Filter) : Filter := fun input => do
  match ← textArg args input with
  | none => raise "startswith/endswith requires a string"
  | some needle =>
      match input with
      | .string s => return [.bool (test needle.toList s.toList)]
      | _ => typeError "startswith/endswith expects a string input"

def callContains (args : List Filter) : Filter := fun input => do
  let needle ← firstArg args input
  return [.bool (containsValue input (needle.getD .null))]

def callSplit (args : List Filter) : Filter := fun input => do
  let sep ← textArg args input
  match input with
  | .string s => return [splitText s (sep.getD "")]
  | other => typeError ("split expects a string, got `" ++ show_ platform other ++ "`")

/-- The integers from one up to before another. -/
def rangeValues (a b : Int) : List Value :=
  (List.range (b - a).toNat).map fun (i : Nat) => jsonNum (some (.ofInt (a + i)))

def callRange (args : List Filter) : Filter := fun input => do
  let streams ← each (fun f => f input) args
  let nums ← each (fun s : List Value =>
    match s.head?.bind Value.asF64 with
    | some n => .ok n
    | none => raise "range requires numbers") streams
  match nums with
  | [] => return []
  | [n] => return rangeValues 0 n.toI64
  | a :: b :: _ => return rangeValues a.toI64 b.toI64

def callFirst (_ : List Filter) : Filter
  | .array a => .ok [a.head?.getD .null]
  | other => .ok [other]

def callLast (_ : List Filter) : Filter
  | .array a => .ok [a.getLast?.getD .null]
  | other => .ok [other]

def callReverse (_ : List Filter) : Filter
  | .array items => .ok [.array items.reverse]
  | other => typeError ("reverse expects an array, got `" ++ show_ platform other ++ "`")

def callFromjson (_ : List Filter) : Filter
  | .string source =>
      match platform.parseJson source with
      | .ok value => .ok [value]
      | .error error => raise ("fromjson could not parse JSON: " ++ error)
  | _ => typeError "fromjson expects a string input"

def callAdd (_ : List Filter) : Filter
  | .array items => (items.foldlM (add platform) .null).map ([·])
  | other => .ok [other]

def typeName : Value → String
  | .null => "null"
  | .bool _ => "boolean"
  | .number _ => "number"
  | .string _ => "string"
  | .array _ => "array"
  | .object _ => "object"

def callHas (args : List Filter) : Filter := fun input => do
  let key := (← firstArg args input).getD .null
  match input with
  | .object m => return [.bool (m.lookup (key.asStr.getD "")).isSome]
  | .array a =>
      match key.asF64 with
      | some i => return [.bool (decide (0 ≤ i.toI64 ∧ i.toUsize < a.length))]
      | none => return [.bool false]
  | _ => return [.bool false]

/-- `ascii_downcase` and `ascii_upcase`. -/
def callCase (change : Char → Char) (_ : List Filter) : Filter
  | .string s => .ok [.string (String.ofList (s.toList.map change))]
  | _ => typeError "expects a string"

/-- `ltrimstr` and `rtrimstr`. -/
def callTrim (strip : List Char → List Char → List Char) (args : List Filter) : Filter :=
  fun input => do
    let trim := (← textArg args input).getD ""
    return [.string (String.ofList (strip trim.toList (input.asStr.getD "").toList))]

/-- A text without a beginning, when it has it. -/
def stripStart (trim s : List Char) : List Char := if trim <+: s then s.drop trim.length else s

def stripEnd (trim s : List Char) : List Char :=
  if trim <:+ s then s.take (s.length - trim.length) else s

def callError (args : List Filter) : Filter := fun input =>
  match args with
  | [] => raise (toText platform input)
  | f :: _ => do raise (toText platform ((← f input).head?.getD .null))

/-- `fabs` and `floor`. -/
def callRound (name : String) (f : F64 → F64) (_ : List Filter) : Filter
  | .number n => .ok [jsonNum (some (f n.asF64))]
  | other => typeError (name ++ " of `" ++ show_ platform other ++ "`")

/-- The input, when it is of some kind. -/
def callKind (keep : Value → Bool) (_ : List Filter) : Filter := fun input =>
  .ok (if keep input then [input] else [])

/-- The functions of the language. -/
def builtins : List (String × (List Filter → Filter)) :=
  [("length", callLength), ("keys", callKeys), ("map", callMap platform),
    ("select", callSelect), ("join", callJoin platform),
    ("tostring", fun _ input => .ok [.string (toText platform input)]),
    ("tonumber", callTonumber platform),
    ("startswith", callAffix fun needle s => decide (needle <+: s)),
    ("endswith", callAffix fun needle s => decide (needle <:+ s)),
    ("contains", callContains), ("split", callSplit platform), ("empty", fun _ _ => .ok []),
    ("range", callRange), ("first", callFirst), ("last", callLast),
    ("flatten", fun _ input => .ok [.array (flattenInto input)]),
    ("reverse", callReverse platform), ("fromjson", callFromjson platform),
    ("add", callAdd platform), ("type", fun _ input => .ok [.string (typeName input)]),
    ("not", fun _ input => .ok [.bool !truthy input]), ("has", callHas),
    ("ascii_downcase", callCase Char.toLower), ("ascii_upcase", callCase Char.toUpper),
    ("ltrimstr", callTrim stripStart), ("rtrimstr", callTrim stripEnd),
    ("error", callError platform), ("fabs", callRound platform "fabs" F64.abs),
    ("floor", callRound platform "floor" F64.floor),
    ("values", callKind (· != .null)), ("arrays", callKind (typeName · == "array")),
    ("objects", callKind (typeName · == "object")), ("strings", callKind (typeName · == "string")),
    ("numbers", callKind (typeName · == "number")),
    ("booleans", callKind (typeName · == "boolean")), ("nulls", callKind (· == .null))]

def callFunction (name : String) (args : List Filter) : Filter :=
  match (builtins platform).lookup name with
  | some f => f args
  | none => fun _ => .error (.unsupportedFunction name)

end Builtins

section Eval

variable (platform : Platform)

mutual

/-- Evaluates an expression, for the given variables. -/
def eval (vars : Map) : Expr → Filter
  | .identity => fun input => .ok [input]
  | .literal v => fun _ => .ok [v]
  | .var name => fun _ =>
      match vars.lookup name with
      | some v => .ok [v]
      | none => typeError ("undefined variable `$" ++ name ++ "`")
  | .str parts => fun input => (evalString vars parts input).map fun s => [.string s]
  | .field base name => fun input => (eval vars base input).map (·.map (fieldAccess name))
  | .index base idx => fun input => do
      let baseStream ← eval vars base input
      let idxStream ← eval vars idx input
      collect (fun v => each (indexAccess platform v) idxStream) baseStream
  | .iterate base => fun input => (eval vars base input).map (·.flatMap iterate)
  | .binary op l r => fun input => binary platform op (eval vars l input) (eval vars r input)
  | .unary op inner => fun input => do each (unary platform op) (← eval vars inner input)
  | .pipe l r => andThen (eval vars l) (eval vars r)
  | .array elems => fun input => (evalAll vars elems input).map fun out => [.array out]
  | .object entries => fun input => (evalEntries vars entries input).map product
  | .if_ cond then_ else_ => fun input => do
      let c := (← eval vars cond input).head?.getD .null
      if truthy c then eval vars then_ input else eval vars else_ input
  | .call name args => callFunction platform name (evalArgs vars args)
  | .stream parts => evalAll vars parts

/-- The streams of some expressions, one after the other. -/
def evalAll (vars : Map) : List Expr → Filter
  | [] => fun _ => .ok []
  | e :: rest => fun input => do
      let first ← eval vars e input
      let more ← evalAll vars rest input
      return first ++ more

def evalArgs (vars : Map) : List Expr → List Filter
  | [] => []
  | e :: rest => eval vars e :: evalArgs vars rest

def evalString (vars : Map) : List InterpPart → Value → Except LangError String
  | [] => fun _ => .ok ""
  | part :: rest => fun input => do
      let first ← evalPart vars part input
      let more ← evalString vars rest input
      return first ++ more

def evalPart (vars : Map) : InterpPart → Value → Except LangError String
  | .literal s => fun _ => .ok s
  | .expr e => fun input => do
      let stream ← eval vars e input
      return toText platform (stream.getLast?.getD .null)

def evalEntries (vars : Map) :
    List (ObjKey × Expr) → Value → Except LangError (List (String × List Value))
  | [] => fun _ => .ok []
  | (key, e) :: rest => fun input => do
      let name ← evalKey vars key input
      let stream ← eval vars e input
      let more ← evalEntries vars rest input
      return (name, stream) :: more

def evalKey (vars : Map) : ObjKey → Value → Except LangError String
  | .ident name => fun _ => .ok name
  | .str s => fun _ => .ok s
  | .computed e => fun input => do
      let stream ← eval vars e input
      return toText platform (stream.getLast?.getD .null)

end

attribute [grind =] eval evalAll evalArgs evalString evalPart evalEntries evalKey

/-- The language, as its engine sees it. A panic has no value and counts as a failure here;
that the task which evaluates may be lost to one is up to the executor. -/
def language : ExpressionLanguage where
  Expr := Expr
  parse source := (parse platform source).mapError LangError.toCore
  eval e input vars := (eval platform vars e input).mapError LangError.toCore
  toText := toText platform

end Eval

theorem language_parse {platform : Platform} {source : String} {e : Expr}
    (hParse : parse platform source = .ok e) :
    (language platform).parse source = .ok e := by
  show (parse platform source).mapError LangError.toCore = _
  rw [hParse]
  rfl

end Jq
end OwsRuntime
