import OwsRuntime.Expressions.Lexer

/-! The syntax trees of the expression language, and its parser: one function for
each level of precedence, over the tokens that are left. -/
namespace OwsRuntime
namespace Jq

inductive BinOp where
  | add
  | sub
  | mul
  | div
  | mod
  | eq
  | ne
  | lt
  | le
  | gt
  | ge
  | and
  | or
  | alternative
deriving DecidableEq, Repr

inductive UnaryOp where
  | not
  | negate
deriving DecidableEq, Repr

mutual

inductive Expr where
  | identity
  | field (base : Expr) (name : String)
  | index (base idx : Expr)
  | iterate (base : Expr)
  | var (name : String)
  | literal (v : Value)
  | str (parts : List InterpPart)
  | binary (op : BinOp) (l r : Expr)
  | unary (op : UnaryOp) (inner : Expr)
  | pipe (l r : Expr)
  | array (elems : List Expr)
  | object (entries : List (ObjKey × Expr))
  | if_ (cond then_ else_ : Expr)
  | call (name : String) (args : List Expr)
  | stream (parts : List Expr)

/-- The key of an entry of an object. -/
inductive ObjKey where
  | ident (name : String)
  | str (s : String)
  | computed (e : Expr)

/-- A part of a string. -/
inductive InterpPart where
  | literal (s : String)
  | expr (e : Expr)

end

/-- The tokens which the parser has not consumed, and how many it has. -/
structure Cursor where
  pos : Nat
  rest : List Token

abbrev Parser (α : Type) := StateT Cursor (Except LangError) α

/-- An index past the last token. -/
def outOfBounds {α : Type} : Parser α := fun _ => .error (.panic "index out of bounds")

def peek : Parser Token := fun c =>
  match c.rest with
  | [] => outOfBounds c
  | token :: _ => .ok (token, c)

def peek2 : Parser Token := fun c =>
  match c.rest with
  | [] => outOfBounds c
  | token :: more => .ok (more.headD token, c)

/-- Consumes a token, unless it is the last one. -/
def advance : Parser Token := fun c =>
  match c.rest with
  | [] => outOfBounds c
  | [token] => .ok (token, c)
  | token :: next :: more => .ok (token, ⟨c.pos + 1, next :: more⟩)

def fail {α : Type} (message : String) : Parser α := fun c => .error (.parse c.pos message)

/-- An error in the recursion of the model. -/
def unfinished {α : Type} : Parser α := fun _ => .error .unfinished

/-- How many tokens are left, which bounds the rounds of a loop. -/
def remaining : Parser Nat := fun c => .ok (c.rest.length, c)

/-- What the parser of one level of nesting has of the next one. -/
structure Nested where
  expr : Parser Expr
  pipe : Parser Expr
  source : String → Except LangError Expr

/-- Operands with operators between them, of which one is read. They associate to the left. -/
def chain (operand : Parser Expr) (operator : Token → Option (Expr → Expr → Expr)) :
    Nat → Expr → Parser Expr
  | 0, _ => unfinished
  | fuel + 1, left => do
      match operator (← peek) with
      | none => return left
      | some build => do
          let _ ← advance
          let right ← operand
          chain operand operator fuel (build left right)

/-- A level of precedence of binary operators. -/
def level (operand : Parser Expr) (operator : Token → Option (Expr → Expr → Expr)) :
    Parser Expr := do
  let left ← operand
  chain operand operator (← remaining) left

def pipeOperator : Token → Option (Expr → Expr → Expr)
  | .pipe => some Expr.pipe
  | _ => none

def orOperator (token : Token) : Option (Expr → Expr → Expr) :=
  if token = .ident "or" then some (Expr.binary .or) else none

def andOperator (token : Token) : Option (Expr → Expr → Expr) :=
  if token = .ident "and" then some (Expr.binary .and) else none

def compareOperator : Token → Option (Expr → Expr → Expr)
  | .eqEq => some (Expr.binary .eq)
  | .ne => some (Expr.binary .ne)
  | .lt => some (Expr.binary .lt)
  | .le => some (Expr.binary .le)
  | .gt => some (Expr.binary .gt)
  | .ge => some (Expr.binary .ge)
  | _ => none

def additiveOperator : Token → Option (Expr → Expr → Expr)
  | .plus => some (Expr.binary .add)
  | .minus => some (Expr.binary .sub)
  | .alternative => some (Expr.binary .alternative)
  | _ => none

def multOperator : Token → Option (Expr → Expr → Expr)
  | .star => some (Expr.binary .mul)
  | .slash => some (Expr.binary .div)
  | .percent => some (Expr.binary .mod)
  | _ => none

section Levels

variable (platform : Platform)

def expect (token : Token) (what : String) : Parser Unit := do
  let found ← peek
  if found = token then
    let _ ← advance
    return ()
  else fail ("expected " ++ what ++ ", found `" ++ found.describe platform ++ "`")

def expectKeyword (keyword : String) : Parser Unit := do
  let found ← peek
  if found = .ident keyword then
    let _ ← advance
    return ()
  else fail ("expected `" ++ keyword ++ "`, found `" ++ found.describe platform ++ "`")

variable (nested : Nested)

/-- What an opening bracket after an expression makes of it. -/
def parseBracket (base : Expr) : Parser Expr := do
  if (← peek2) = .rBracket then
    let _ ← advance
    let _ ← advance
    return .iterate base
  else
    let _ ← advance
    let index ← nested.expr
    expect platform .rBracket "`]`"
    return .index base index

/-- The name of a token that names a field. -/
def fieldName? : Token → Option String
  | .ident name => some name
  | .str name => some name
  | _ => none

/-- The chain of fields after a leading dot, like `.foo.bar[0].baz`. -/
def dotChain : Nat → Expr → Parser Expr
  | 0, _ => unfinished
  | fuel + 1, base => do
      let token ← peek
      match fieldName? token with
      | some name => do
          let _ ← advance
          dotChain fuel (.field base name)
      | none =>
          if token = .lBracket then
            let next ← parseBracket platform nested base
            dotChain fuel next
          else return base

def parseElseTail : Parser Expr := do
  if (← peek) = .ident "else" then
    let _ ← advance
    nested.expr
  else if (← peek) = .ident "elif" then nested.expr
  else return .literal .null

def parseIf : Parser Expr := do
  let _ ← advance
  let cond ← nested.expr
  expectKeyword platform "then"
  let thenBranch ← nested.expr
  if (← peek) = .ident "elif" then
    let _ ← advance
    let elifCond ← nested.expr
    expectKeyword platform "then"
    let elifBody ← nested.expr
    let elseBranch ← parseElseTail nested
    expectKeyword platform "end"
    return .if_ cond thenBranch (.if_ elifCond elifBody elseBranch)
  else
    let elseBranch ← parseElseTail nested
    expectKeyword platform "end"
    return .if_ cond thenBranch elseBranch

/-- The arguments of a call, from the first one. Commas and semicolons separate them. -/
def argsLoop : Nat → Parser (List Expr)
  | 0 => unfinished
  | fuel + 1 => do
      let arg ← nested.pipe
      let token ← peek
      if token = .comma ∨ token = .semicolon then
        let _ ← advance
        return arg :: (← argsLoop fuel)
      else return [arg]

def parseArgs : Parser (List Expr) := do
  if (← peek) = .rParen then return [] else argsLoop nested (← remaining)

/-- The elements that an expression in an array stands for. -/
def elements : Expr → List Expr
  | .stream parts => parts
  | other => [other]

def arrayLoop : Nat → Parser (List Expr)
  | 0 => unfinished
  | fuel + 1 => do
      let e ← nested.pipe
      if (← peek) = .comma then
        let _ ← advance
        return elements e ++ (← arrayLoop fuel)
      else return elements e

def parseArray : Parser Expr := do
  expect platform .lBracket "`[`"
  if (← peek) = .rBracket then
    let _ ← advance
    return .array []
  else
    let elems ← arrayLoop nested (← remaining)
    expect platform .rBracket "`]`"
    return .array elems

def parseObjectKey : Parser ObjKey := do
  match ← peek with
  | .ident name => do
      let _ ← advance
      return .ident name
  | .str s => do
      let _ ← advance
      return .str s
  | .var name => do
      let _ ← advance
      return .ident name
  | .lParen => do
      let _ ← advance
      let e ← nested.pipe
      expect platform .rParen "`)`"
      return .computed e
  | other => fail ("expected object key, found `" ++ other.describe platform ++ "`")

def objectLoop : Nat → Parser (List (ObjKey × Expr))
  | 0 => unfinished
  | fuel + 1 => do
      let key ← parseObjectKey platform nested
      expect platform .colon "`:`"
      let value ← nested.pipe
      if (← peek) = .comma then
        let _ ← advance
        return (key, value) :: (← objectLoop fuel)
      else return [(key, value)]

def parseObject : Parser Expr := do
  expect platform .lBrace "`\x7b`"
  if (← peek) = .rBrace then
    let _ ← advance
    return .object []
  else
    let entries ← objectLoop platform nested (← remaining)
    expect platform .rBrace "`\x7d`"
    return .object entries

def stringParts : Nat → Parser (List InterpPart)
  | 0 => unfinished
  | fuel + 1 => do
      match ← peek with
      | .str s => do
          let _ ← advance
          return .literal s :: (← stringParts fuel)
      | .interp source => do
          let _ ← advance
          let inner ← nested.source source
          return .expr inner :: (← stringParts fuel)
      | _ => return []

def parseStringParts : Parser Expr := do
  return .str (← stringParts nested (← remaining))

def parseIdentPrimary (ident : String) : Parser Expr := do
  if ident = "true" then
    let _ ← advance
    return .literal (.bool true)
  else if ident = "false" then
    let _ ← advance
    return .literal (.bool false)
  else if ident = "null" then
    let _ ← advance
    return .literal .null
  else if ident = "if" then parseIf platform nested
  else if (← peek2) = .lParen then
    let _ ← advance
    let _ ← advance
    let args ← parseArgs nested
    expect platform .rParen "`)`"
    return .call ident args
  else
    let _ ← advance
    return .call ident []

def parseBase : Parser Expr := do
  match ← peek with
  | .dot => do
      let _ ← advance
      dotChain platform nested (← remaining) .identity
  | .recursiveDot => do
      let _ ← advance
      return .identity
  | .var name => do
      let _ ← advance
      return .var name
  | .number n => do
      let _ ← advance
      return .literal (jsonNum n)
  | .str _ => parseStringParts nested
  | .interp _ => parseStringParts nested
  | .lBracket => parseArray platform nested
  | .lBrace => parseObject platform nested
  | .lParen => do
      let _ ← advance
      let e ← nested.expr
      expect platform .rParen "`)`"
      return e
  | .ident ident => parseIdentPrimary platform nested ident
  | .eof => fail "unexpected end of expression"
  | other => fail ("unexpected `" ++ other.describe platform ++ "`")

/-- The accesses after an expression. -/
def postfixLoop : Nat → Expr → Parser Expr
  | 0, _ => unfinished
  | fuel + 1, base => do
      match ← peek with
      | .dot => do
          match fieldName? (← peek2) with
          | some name => do
              let _ ← advance
              let _ ← advance
              postfixLoop fuel (.field base name)
          | none => return base
      | .lBracket => do
          let next ← parseBracket platform nested base
          postfixLoop fuel next
      | _ => return base

def parsePostfix : Parser Expr := do
  let base ← parseBase platform nested
  postfixLoop platform nested (← remaining) base

def unaryLoop : Nat → Parser Expr
  | 0 => unfinished
  | fuel + 1 => do
      let token ← peek
      if token = .ident "not" then
        let _ ← advance
        return .unary .not (← unaryLoop fuel)
      else if token = .minus then
        let _ ← advance
        return .unary .negate (← unaryLoop fuel)
      else parsePostfix platform nested

def parseUnary : Parser Expr := do unaryLoop platform nested (← remaining)

def parseMult : Parser Expr := level (parseUnary platform nested) multOperator

def parseAdditive : Parser Expr := level (parseMult platform nested) additiveOperator

def parseCompare : Parser Expr := level (parseAdditive platform nested) compareOperator

def parseAnd : Parser Expr := level (parseCompare platform nested) andOperator

def parseOr : Parser Expr := level (parseAnd platform nested) orOperator

def parsePipe : Parser Expr := level (parseOr platform nested) pipeOperator

/-- The further parts of a stream. -/
def commaLoop : Nat → Parser (List Expr)
  | 0 => unfinished
  | fuel + 1 => do
      if (← peek) = .comma then
        let _ ← advance
        let part ← parsePipe platform nested
        return part :: (← commaLoop fuel)
      else return []

def parseExpr : Parser Expr := do
  let first ← parsePipe platform nested
  let more ← commaLoop platform nested (← remaining)
  return if more.isEmpty then first else .stream (first :: more)

/-- An expression that was parsed, which has to be followed by the end of the input. -/
def complete (parsed : Expr × Cursor) : Except LangError Expr :=
  match peek parsed.2 with
  | .error e => .error e
  | .ok (token, _) =>
      if token = .eof then .ok parsed.1
      else .error (.parse parsed.2.pos ("unexpected `" ++ token.describe platform ++ "`"))

/-- Parses a complete expression. -/
def parseSource (source : String) : Except LangError Expr := do
  let tokens ← tokenize platform source
  let parsed ← parseExpr platform nested ⟨0, tokens⟩
  complete platform parsed

end Levels

/-- The parser with a bound on the depth of its recursion. -/
def parserAt (platform : Platform) : Nat → Nested
  | 0 => { expr := unfinished, pipe := unfinished, source := fun _ => .error .unfinished }
  | depth + 1 =>
      let nested := parserAt platform depth
      { expr := parseExpr platform nested
        pipe := parsePipe platform nested
        source := parseSource platform nested }

/-- Parses a complete expression from source text. Each level of nesting takes at
least one character. -/
def parse (platform : Platform) (source : String) : Except LangError Expr :=
  (parserAt platform (source.length + 1)).source source

end Jq
end OwsRuntime
