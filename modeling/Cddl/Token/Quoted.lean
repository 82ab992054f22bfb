import Cddl.Literal
import Cddl.Text.Blank
/-!
# Quoted literals

Both readers take the text after an opening quote and say what it encloses and how much of it is used, the closing quote
included.  Text takes any unit after a backslash, three of them for a control character.  A byte string takes only a
quote after a backslash, and keeps every other backslash.
-/
namespace Cddl.Quoted

inductive Reading where
  | closed (content : Text) (length : Nat)
  /-- The text ends inside the literal; the last step went past its end if `beyond` is set. -/
  | unclosed (beyond : Bool)
  deriving DecidableEq, Repr

/-- A reading with more content before it, which took the given number of units. -/
def Reading.prepend (content : Text) (length : Nat) : Reading → Reading
  | .closed c n => .closed (content ++ c) (length + n)
  | .unclosed beyond => .unclosed beyond

/-! ## Text -/

/-- The unit that a backslash and the given unit stand for. -/
def unescape (u : CodeUnit) : CodeUnit :=
  if u = 'n' then '\n' else if u = 't' then '\t' else if u = 'r' then '\r' else u

def readText : Text → Reading
  | [] => .unclosed false
  | u :: r =>
    if u = '"' then .closed [] 1
    else if u = '\\' then
      match r with
      | [] => .unclosed true
      | e :: r => (readText r).prepend [unescape e] 2
    else (readText r).prepend [u] 1

/-! ## Bytes -/

/-- The part of a byte string's content that a unit by itself adds: base 16 may be spread over blanks. -/
def byteContent (encoding : ByteEncoding) (u : CodeUnit) : Text :=
  if encoding = .base16 && u.isBlank then [] else [u]

def readBytes (encoding : ByteEncoding) : Text → Reading
  | [] => .unclosed false
  | u :: r =>
    if u = '\'' then .closed [] 1
    else if u = '\\' then
      match r with
      | [] => .unclosed false
      | q :: r =>
        if q = '\'' then (readBytes encoding r).prepend ['\''] 2
        else (readBytes encoding (q :: r)).prepend (byteContent encoding u) 1
    else (readBytes encoding r).prepend (byteContent encoding u) 1

/-- Whether a content can be decoded, as far as its spelling shows. -/
def acceptable (encoding : ByteEncoding) (content : Text) : Bool :=
  encoding ≠ .base16 || content.all CodeUnit.isHexDigit

end Cddl.Quoted
