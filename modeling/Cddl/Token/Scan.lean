import Cddl.Token
import Cddl.Token.Numeral
import Cddl.Token.Quoted
/-!
# The token at the front of a text

`scan` looks at a text that begins with neither white space nor a comment and says which token it begins with and how
many units that takes.  It knows nothing of places; `Cursor` keeps them.
-/
namespace Cddl

/-- Why no token could be read. -/
inductive LexCause where
  | unexpectedUnit (u : CodeUnit)
  | loneDot
  | noRadixDigits
  | unclosedText
  | unclosedBytes
  | notHexadecimal (content : Text)
  deriving DecidableEq, Repr

def LexCause.message : LexCause → Text
  | .unexpectedUnit u => "Unexpected character '" ++ [u] ++ "'"
  | .loneDot => "Expected control operator name or range operator after '.'"
  | .noRadixDigits => "Expected digits after radix prefix"
  | .unclosedText => "Unterminated text string"
  | .unclosedBytes => "Unterminated byte string"
  | .notHexadecimal content => "Invalid hex byte string '" ++ content ++ "'"

inductive Scan where
  /-- A token that takes `more` units after its first. -/
  | token (body : Token.Body) (more : Nat)
  /-- No token.  The scan has used up the given number of units, which is one more than there are if it stepped past the
  end. -/
  | fault (cause : LexCause) (used : Nat)
  deriving DecidableEq, Repr

/-! ## Names -/

def CodeUnit.startsName (u : CodeUnit) : Bool := u.isLetter || u = '@' || u = '_' || u = '$'

def CodeUnit.inName (u : CodeUnit) : Bool := u.startsName || u.isDigit

/-- A unit that stands in a name only where a unit of the name follows. -/
def CodeUnit.joinsName (u : CodeUnit) : Bool := u = '-' || u = '.'

namespace Scan

/-- How many units at the front of a text go on with a name that ends right before it. -/
def nameLength : Text → Nat
  | [] => 0
  | u :: r =>
    if u.inName then nameLength r + 1
    else if u.joinsName then
      match nameLength r with
      | 0 => 0
      | n + 1 => n + 2
    else 0

def startsWithName (s : Text) : Bool := s.head?.any CodeUnit.startsName

/-! ## Symbols -/

/-- The symbols; of two that begin alike the longer one stands first. -/
def symbols : List (Text × Mark) :=
  [("=>", .arrow), ("=", .assign), ("//=", .extendGroup), ("//", .groupChoice), ("/=", .extendType), ("/", .typeChoice),
    ("...", .rangeOperator), ("..", .rangeOperator), ("(", .leftParen), (")", .rightParen), ("\x7b", .leftBrace),
    ("\x7d", .rightBrace), ("[", .leftBracket), ("]", .rightBracket), ("<", .leftAngle), (">", .rightAngle),
    (",", .comma), (":", .colon), ("^", .cut), ("?", .optional), ("*", .asterisk), ("+", .plus), ("~", .tilde),
    ("&", .ampersand)]

def symbol? (s : Text) : Option (Text × Mark) := symbols.find? fun (t, _) => t <+: s

/-! ## The scanners, one for each way in which a token can begin -/

/-- A numeral, or two of them with a range operator in between. -/
def number (s : Text) : Scan :=
  match Numeral.read s with
  | .noDigits used => .fault .noRadixDigits used
  | .literal lower n =>
    let operator := Numeral.rangeLength (s.drop n)
    if operator = 0 then .token (.value lower) (n - 1)
    else match Numeral.read (s.drop (n + operator)) with
      | .noDigits used => .fault .noRadixDigits (n + operator + used)
      | .literal upper m => .token (.range lower upper (operator = 2)) (n + operator + m - 1)

/-- Text; `r` follows the opening quote. -/
def text (r : Text) : Scan :=
  match Quoted.readText r with
  | .closed content n => .token (.value (.text content)) n
  | .unclosed beyond => .fault .unclosedText (r.length + if beyond then 2 else 1)

/-- A byte string; `r` follows the first unit, and the quote stands behind `skip` units of `r`, if that is not the first
unit itself. -/
def bytes (encoding : ByteEncoding) (skip : Nat) (r : Text) : Scan :=
  match Quoted.readBytes encoding (r.drop skip) with
  | .closed content n =>
    if Quoted.acceptable encoding content then .token (.value (.bytes encoding content)) (skip + n)
    else .fault (.notHexadecimal content) (skip + n + 1)
  | .unclosed _ => .fault .unclosedBytes (r.length + 1)

/-- `#` and what of a major type and number follows it. -/
def hash (r : Text) : Scan :=
  let major := Numeral.run CodeUnit.isDigit r
  if major = 0 then .token (.mark .hash) 0
  else
    let number := Numeral.fractionLength (r.drop major)
    let value := if number = 0 then none else some (Text.toNat 10 ((r.drop (major + 1)).take (number - 1)))
    .token (.tag (Text.toNat 10 (r.take major)) value) (major + number)

/-- Symbols, and the dot that begins the name of a control operator. -/
def mark (u : CodeUnit) (r : Text) : Scan :=
  match symbol? (u :: r) with
  | some (t, m) => .token (.mark m) (t.length - 1)
  | none =>
    if u = '#' then hash r
    else if u = '.' then
      if startsWithName r then .token (.mark .control) (nameLength r) else .fault .loneDot 0
    else .fault (.unexpectedUnit u) 0

end Scan

/-- The token that the text `u :: r` begins with. -/
def scan (u : CodeUnit) (r : Text) : Scan :=
  if u = '"' then Scan.text r
  else if u = '\'' then Scan.bytes .utf8 0 r
  else if u = 'h' && r.head? = some '\'' then Scan.bytes .base16 1 r
  else if u = 'b' && Text.ofString "64'" <+: r then Scan.bytes .base64 3 r
  else if Numeral.startsHere (u :: r) then Scan.number (u :: r)
  else if u.startsName then .token (.mark .name) (Scan.nameLength r)
  else Scan.mark u r

end Cddl
