/-!
# Text, measured in 16-bit code units

Positions in a schema count UTF-16 code units, as editors and language tools do, and a scan may stop inside a character
that takes two of them.  So text is the list of its units here: an offset is a length, a slice is a `take` of a `drop`,
and half of a pair is a text like any other.  `Text.ofString` and `Text.toString` are the two ways across; only the
second loses anything, and only for a unit that has lost its partner.
-/
namespace Cddl

/-- A UTF-16 code unit. -/
abbrev CodeUnit := UInt16

/-- A sequence of code units, well-formed as UTF-16 or not. -/
abbrev Text := List CodeUnit

namespace CodeUnit

/-- The unit of a character of the basic plane. -/
def ofChar (c : Char) : CodeUnit := c.val.toUInt16

instance : Coe Char CodeUnit := ⟨ofChar⟩

/-- The first half of a pair. -/
def isHigh (u : CodeUnit) : Bool := 0xD800 ≤ u && u ≤ 0xDBFF

/-- The second half of a pair. -/
def isLow (u : CodeUnit) : Bool := 0xDC00 ≤ u && u ≤ 0xDFFF

def isDigit (u : CodeUnit) : Bool := ('0' : CodeUnit) ≤ u && u ≤ ('9' : CodeUnit)

def isHexDigit (u : CodeUnit) : Bool :=
  u.isDigit || (('a' : CodeUnit) ≤ u && u ≤ ('f' : CodeUnit)) || (('A' : CodeUnit) ≤ u && u ≤ ('F' : CodeUnit))

def isBinaryDigit (u : CodeUnit) : Bool := u = '0' || u = '1'

def isLetter (u : CodeUnit) : Bool :=
  (('a' : CodeUnit) ≤ u && u ≤ ('z' : CodeUnit)) || (('A' : CodeUnit) ≤ u && u ≤ ('Z' : CodeUnit))

/-- What a digit counts, hexadecimal digits of either case included. -/
def digitValue (u : CodeUnit) : Nat :=
  if u.isDigit then u.toNat - 48 else if ('a' : CodeUnit) ≤ u then u.toNat - 87 else u.toNat - 55

end CodeUnit

namespace Text

/-! ## To and from characters -/

/-- The one or two units of a character. -/
def ofChar (c : Char) : Text :=
  if c.toNat < 0x10000 then [UInt16.ofNat c.toNat]
  else
    let n := c.toNat - 0x10000
    [UInt16.ofNat (0xD800 + n / 0x400), UInt16.ofNat (0xDC00 + n % 0x400)]

def ofString (s : String) : Text := s.toList.flatMap ofChar

instance : Coe String Text := ⟨ofString⟩

/-- The character of a unit on its own; half of a pair becomes the replacement character. -/
def soleChar (u : CodeUnit) : Char := if u.isHigh || u.isLow then '\uFFFD' else Char.ofNat u.toNat

def pairChar (high low : CodeUnit) : Char :=
  Char.ofNat (0x10000 + (high.toNat - 0xD800) * 0x400 + (low.toNat - 0xDC00))

def toChars : Text → List Char
  | [] => []
  | [u] => [soleChar u]
  | u :: v :: r => if u.isHigh && v.isLow then pairChar u v :: toChars r else soleChar u :: toChars (v :: r)

protected def toString (t : Text) : String := String.ofList t.toChars

/-! ## Numerals -/

def ofNat (n : Nat) : Text := (Nat.toDigits 10 n).map CodeUnit.ofChar

def ofInt (n : Int) : Text := if n < 0 then '-' :: ofNat n.natAbs else ofNat n.natAbs

/-- The number a run of digits denotes in the given base. -/
def toNat (base : Nat) (digits : Text) : Nat := digits.foldl (fun n u => n * base + u.digitValue) 0

/-! ## Pieces -/

/-- The lines of a text; only a line feed ends one, so a text has one line more than line feeds. -/
def lines : Text → List Text
  | [] => [[]]
  | u :: r =>
    if u = '\n' then [] :: lines r
    else match lines r with
      | [] => [[u]]
      | l :: ls => (u :: l) :: ls

/-- The least index at which the pattern stands. -/
def indexOf? (pattern : Text) : Text → Option Nat
  | [] => if pattern = [] then some 0 else none
  | u :: r => if pattern <+: u :: r then some 0 else (indexOf? pattern r).map (· + 1)

def join (separator : Text) (parts : List Text) : Text := separator.intercalate parts

def spaces (n : Nat) : Text := List.replicate n (CodeUnit.ofChar ' ')

/-- The text with spaces after it up to the width. -/
def padRight (width : Nat) (t : Text) : Text := t ++ spaces (width - t.length)

/-! ## Order -/

/-- Ascending order by code units; a text comes before its extensions. -/
def le : Text → Text → Bool
  | [], _ => true
  | _ :: _, [] => false
  | u :: s, v :: t => u < v || (u == v && le s t)

end Text
end Cddl
