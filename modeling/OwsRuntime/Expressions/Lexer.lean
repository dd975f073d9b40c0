import OwsRuntime.Core.Float
import OwsRuntime.Expressions.Engine

/-! Tokens of the expression language, and its lexer. A position is the number of
characters before it; a string yields a batch of tokens. -/
namespace OwsRuntime
namespace Jq

/-- An error of the lexer, the parser or the evaluator. -/
inductive LangError where
  | lex (position : Nat) (message : String)
  | parse (position : Nat) (message : String)
  | eval (message : String)
  | typeError (message : String)
  | unsupportedFunction (name : String)
  /-- The program stops. -/
  | panic (message : String)
  /-- The recursion of the model goes deeper than its bound. -/
  | unfinished
deriving DecidableEq, Repr

def LangError.display : LangError → String
  | lex position message => "lex error at byte " ++ toString position ++ ": " ++ message
  | parse position message => "parse error at byte " ++ toString position ++ ": " ++ message
  | eval message => "eval error: " ++ message
  | typeError message => "type error: " ++ message
  | unsupportedFunction name => "unsupported function `" ++ name ++ "`"
  | panic message => message
  | unfinished => "unfinished"

/-- How the engine reports an error. -/
def LangError.toCore (e : LangError) : ExpressionError := ⟨e.display, none⟩

/-- What the language takes from the Unicode tables and from the formats of its
platform: letters and digits, and the texts of numbers and strings in messages. -/
structure Platform where
  isAlphabetic : Char → Bool
  isNumeric : Char → Bool
  isAlphabetic_ascii : ∀ c : Char, c.toNat < 128 → isAlphabetic c = c.isAlpha
  isNumeric_ascii : ∀ c : Char, c.toNat < 128 → isNumeric c = c.isDigit
  not_whitespace : ∀ c : Char, JqEngine.isWhitespace c = true →
    isAlphabetic c = false ∧ isNumeric c = false
  /-- The text of a float, which is infinite without one. -/
  displayFloat : Option F64 → String
  /-- The text of a float in JSON. -/
  jsonFloat : F64 → String
  debugString : String → String
  parseJson : String → Except String Value
  /-- Whether integer overflow stops the program. -/
  overflowChecks : Bool

/-- A blank is neither a letter nor a digit, so it is no part of a word or of a number. -/
theorem not_alphanumeric_of_whitespace {c : Char} (hSpace : JqEngine.isWhitespace c = true) :
    c.isAlpha = false ∧ c.isDigit = false := by
  have hBlank : c.toNat < 48 ∨ 122 < c.toNat := by
    simp only [JqEngine.isWhitespace, List.mem_cons, List.not_mem_nil, or_false,
      decide_eq_true_eq] at hSpace
    omega
  have hOutside : ∀ low high : UInt32, 48 ≤ low.toNat → high.toNat ≤ 122 →
      ¬ (low ≤ c.val ∧ c.val ≤ high) := by
    intro low high hLow hHigh ⟨hAbove, hBelow⟩
    have hAbove : low.toNat ≤ c.toNat := UInt32.le_iff_toNat_le.mp hAbove
    have hBelow : c.toNat ≤ high.toNat := UInt32.le_iff_toNat_le.mp hBelow
    omega
  have hUpper := hOutside 65 90 (by decide) (by decide)
  have hLower := hOutside 97 122 (by decide) (by decide)
  have hDigit := hOutside 48 57 (by decide) (by decide)
  delta Char.isAlpha Char.isUpper Char.isLower Char.isDigit
  simp only [Bool.or_eq_false_iff, Bool.and_eq_false_iff, decide_eq_false_iff_not]
  exact ⟨⟨by simpa [imp_iff_not_or] using hUpper, by simpa [imp_iff_not_or] using hLower⟩,
    by simpa [imp_iff_not_or] using hDigit⟩

/-- A platform that knows no letters and digits but those of ASCII, and whose texts of
floats all look alike. -/
def Platform.ascii (overflowChecks : Bool) : Platform where
  isAlphabetic := Char.isAlpha
  isNumeric := Char.isDigit
  isAlphabetic_ascii _ _ := rfl
  isNumeric_ascii _ _ := rfl
  not_whitespace _ := not_alphanumeric_of_whitespace
  displayFloat _ := "0.5"
  jsonFloat _ := "0.5"
  debugString := Value.quote
  parseJson _ := .error "EOF while parsing a value at line 1 column 0"
  overflowChecks

/-- A lexical token. A number that is infinite has no value. -/
inductive Token where
  | dot
  | recursiveDot
  | lBracket
  | rBracket
  | lBrace
  | rBrace
  | lParen
  | rParen
  | pipe
  | comma
  | colon
  | semicolon
  | var (name : String)
  | ident (name : String)
  | number (n : Option F64)
  | str (s : String)
  | interp (source : String)
  | eqEq
  | ne
  | lt
  | le
  | gt
  | ge
  | plus
  | minus
  | star
  | slash
  | percent
  | alternative
  | assign
  | eof
deriving DecidableEq, Repr

namespace Token

/-- A short description, for messages. -/
def describe (platform : Platform) : Token → String
  | dot => "."
  | recursiveDot => ".."
  | lBracket => "["
  | rBracket => "]"
  | lBrace => "\x7b"
  | rBrace => "\x7d"
  | lParen => "("
  | rParen => ")"
  | pipe => "|"
  | comma => ","
  | colon => ":"
  | semicolon => ";"
  | var name => "$" ++ name
  | ident name => name
  | number n => platform.displayFloat n
  | str s => platform.debugString s
  | interp source => "\\\\(" ++ source ++ ")"
  | eqEq => "=="
  | ne => "!="
  | lt => "<"
  | le => "<="
  | gt => ">"
  | ge => ">="
  | plus => "+"
  | minus => "-"
  | star => "*"
  | slash => "/"
  | percent => "%"
  | alternative => "//"
  | assign => "="
  | eof => "end of input"

end Token

/-- Skip whitespace and comments. A comment ends before its line feed. -/
def skipBlank : Bool → List Char → List Char
  | _, [] => []
  | true, c :: rest => if c = '\n' then skipBlank false rest else skipBlank true rest
  | false, c :: rest =>
      if JqEngine.isWhitespace c then skipBlank false rest
      else if c = '#' then skipBlank true rest
      else c :: rest

def digitValue (c : Char) : Nat := c.toNat - '0'.toNat

def digitsValue (digits : List Char) : Nat := digits.foldl (fun n c => 10 * n + digitValue c) 0

/-- The number with the given digits before and after its point, times a power of ten. -/
def decimalValue (whole fraction : List Char) (exponent : Int) : Option F64 :=
  let scale := exponent - fraction.length
  F64.ofRatio false (digitsValue (whole ++ fraction) * 10 ^ scale.toNat) (10 ^ (-scale).toNat)

/-- The text of a number, in its parts, and the text after it. -/
structure NumberText where
  whole : List Char
  point : Bool
  fraction : List Char
  /-- The letter of the exponent, its sign and its digits. -/
  exponent : Option (Char × Option Char × List Char)

namespace NumberText

def text (n : NumberText) : List Char :=
  n.whole ++ (if n.point then ['.'] else []) ++ n.fraction ++
    match n.exponent with
    | none => []
    | some (letter, sign, digits) => letter :: (sign.toList ++ digits)

/-- The value, unless the exponent has no digits. -/
def value? (n : NumberText) : Option (Option F64) :=
  match n.exponent with
  | none => some (decimalValue n.whole n.fraction 0)
  | some (_, sign, digits) =>
      if digits.isEmpty then none
      else
        let e : Int := digitsValue digits
        some (decimalValue n.whole n.fraction (if sign = some '-' then -e else e))

end NumberText

/-- Splits the exponent off the text after the digits of a number. -/
def splitExponent : List Char → Option (Char × Option Char × List Char) × List Char
  | [] => (none, [])
  | c :: rest =>
      if c = 'e' ∨ c = 'E' then
        match rest with
        | s :: more =>
            if s = '+' ∨ s = '-' then
              (some (c, some s, more.takeWhile Char.isDigit), more.dropWhile Char.isDigit)
            else (some (c, none, rest.takeWhile Char.isDigit), rest.dropWhile Char.isDigit)
        | [] => (some (c, none, []), [])
      else (none, c :: rest)

def splitNumber (text : List Char) : NumberText × List Char :=
  let whole := text.takeWhile Char.isDigit
  match text.dropWhile Char.isDigit with
  | '.' :: rest =>
      let tail := splitExponent (rest.dropWhile Char.isDigit)
      (⟨whole, true, rest.takeWhile Char.isDigit, tail.1⟩, tail.2)
  | rest =>
      let tail := splitExponent rest
      (⟨whole, false, [], tail.1⟩, tail.2)

def hexDigit? (c : Char) : Option Nat :=
  if '0' ≤ c ∧ c ≤ '9' then some (c.toNat - '0'.toNat)
  else if 'a' ≤ c ∧ c ≤ 'f' then some (c.toNat - 'a'.toNat + 10)
  else if 'A' ≤ c ∧ c ≤ 'F' then some (c.toNat - 'A'.toNat + 10)
  else none

/-- `u32::from_str_radix`: at least one digit, after an optional plus. -/
def hexValue? (text : List Char) : Option Nat :=
  let digits := match text with
    | '+' :: rest => rest
    | _ => text
  if digits.isEmpty then none
  else digits.foldlM (fun n c => (hexDigit? c).map (16 * n + ·)) 0

/-- The character of a code point, unless it is a surrogate. -/
def charOf? (code : Nat) : Option Char :=
  if code < 0xD800 ∨ (0xDFFF < code ∧ code < 0x110000) then some (Char.ofNat code) else none

/-- The source of an interpolation, and the text after the parenthesis that ends it. -/
def readInterpSource : Nat → List Char → Option (List Char × List Char)
  | _, [] => none
  | depth, c :: rest =>
      if c = '(' then (readInterpSource (depth + 1) rest).map fun r => (c :: r.1, r.2)
      else if c = ')' then
        if depth ≤ 1 then some ([], rest)
        else (readInterpSource (depth - 1) rest).map fun r => (c :: r.1, r.2)
      else (readInterpSource depth rest).map fun r => (c :: r.1, r.2)

def flush (literal : List Char) : List Token :=
  if literal.isEmpty then [] else [.str (String.ofList literal)]

/-- A simple escape. -/
def unescape? (c : Char) : Option Char :=
  if c = '"' then some '"'
  else if c = '\\' then some '\\'
  else if c = 'n' then some '\n'
  else if c = 't' then some '\t'
  else if c = 'r' then some '\r'
  else if c = 'f' then some (Char.ofNat 12)
  else if c = 'b' then some (Char.ofNat 8)
  else if c = '/' then some '/'
  else none

section Lexer

-- The number of characters of the source, and the Unicode tables.
variable (total : Nat) (platform : Platform)

/-- The tokens of a string from after its opening quote, `literal` being read
already, and the text after the closing quote. The first argument bounds the text. -/
def readString : Nat → List Char → List Char → Except LangError (List Token × List Char)
  | 0, _, _ => .error .unfinished
  | _ + 1, _, [] => .error (.lex total "unterminated string")
  | fuel + 1, literal, c :: rest =>
      if c = '"' then .ok (flush literal, rest)
      else if c = '\\' then
        match rest with
        | [] => .error (.lex total "unterminated escape")
        | esc :: more =>
            if esc = '(' then
              match readInterpSource 1 more with
              | none => .error (.lex total "unterminated interpolation")
              | some (source, after) => do
                  let (tokens, last) ← readString fuel [] after
                  return (flush literal ++ .interp (String.ofList source) :: tokens, last)
            else if esc = 'u' then
              match hexValue? (more.take 4) with
              | none => .error (.lex (total - (more.drop 4).length) "invalid unicode escape")
              | some code => readString fuel (literal ++ (charOf? code).toList) (more.drop 4)
            else
              match unescape? esc with
              | some plain => readString fuel (literal ++ [plain]) more
              | none => readString fuel (literal ++ ['\\', esc]) more
      else readString fuel (literal ++ [c]) rest

/-- The tokens of a string. An empty string is one token, too. -/
def readStringTokens (text : List Char) : Except LangError (List Token × List Char) := do
  let (tokens, rest) ← readString total (text.length + 1) [] text
  return (if tokens.isEmpty then [.str ""] else tokens, rest)

def isIdentChar (c : Char) : Bool := platform.isAlphabetic c || platform.isNumeric c || c == '_'

def readIdent (text : List Char) : String × List Char :=
  (String.ofList (text.takeWhile (isIdentChar platform)), text.dropWhile (isIdentChar platform))

def readNumber (text : List Char) : Except LangError (Token × List Char) :=
  let (n, rest) := splitNumber text
  match n.value? with
  | some value => .ok (.number value, rest)
  | none => .error (.lex (total - text.length) ("invalid number `" ++ String.ofList n.text ++ "`"))

/-- The operators of two characters. -/
def operators2 : List ((Char × Char) × Token) :=
  [(('.', '.'), .recursiveDot), (('=', '='), .eqEq), (('!', '='), .ne), (('<', '='), .le),
    (('>', '='), .ge), (('/', '/'), .alternative)]

/-- The tokens of one character. -/
def singles : List (Char × Token) :=
  [('.', .dot), ('[', .lBracket), (']', .rBracket), ('\x7b', .lBrace), ('\x7d', .rBrace),
    ('(', .lParen), (')', .rParen), ('|', .pipe), (',', .comma), (':', .colon),
    (';', .semicolon), ('+', .plus), ('-', .minus), ('<', .lt), ('>', .gt), ('*', .star),
    ('/', .slash), ('%', .percent), ('=', .assign)]

/-- The batch of tokens at a character that is not blank, and the text after it. -/
def readToken (c : Char) (rest : List Char) : Except LangError (List Token × List Char) :=
  match rest.head?.bind fun d => operators2.lookup (c, d) with
  | some token => .ok ([token], rest.tail)
  | none =>
      match singles.lookup c with
      | some token => .ok ([token], rest)
      | none =>
          if c = '$' then
            let (name, more) := readIdent platform rest
            .ok ([.var name], more)
          else if c = '"' then readStringTokens total rest
          else if '0' ≤ c ∧ c ≤ '9' then do
            let (token, more) ← readNumber total (c :: rest)
            return ([token], more)
          else if platform.isAlphabetic c || c == '_' then
            let (name, more) := readIdent platform (c :: rest)
            .ok ([.ident name], more)
          else
            .error (.lex (total - (rest.length + 1))
              ("unexpected character `" ++ String.singleton c ++ "`"))

/-- Reads the next batch of tokens. -/
def nextTokens (text : List Char) : Except LangError (List Token × List Char) :=
  match skipBlank false text with
  | [] => .ok ([.eof], [])
  | c :: rest => readToken total platform c rest

/-- The tokens of a text. The first argument bounds the text. -/
def tokenizeFrom : Nat → List Char → Except LangError (List Token)
  | 0, _ => .error .unfinished
  | fuel + 1, text => do
      let (batch, rest) ← nextTokens total platform text
      if batch.head? = some .eof then return batch
      return batch ++ (← tokenizeFrom fuel rest)

end Lexer

/-- Tokenizes the whole input. -/
def tokenize (platform : Platform) (source : String) : Except LangError (List Token) :=
  tokenizeFrom source.length platform (source.length + 1) source.toList

end Jq
end OwsRuntime
