import Cddl.Text
/-!
# Text read from UTF-8 bytes

Reading never fails: each longest run of bytes that begins a character and is then broken off, and each byte that can
begin none, becomes one replacement character.  A byte order mark is kept.
-/
namespace Cddl.Text

/-- A character whose first byte is read: the bits so far, how many bytes are to come, and the range of the next. -/
structure Unfinished where
  bits : Nat
  owed : Nat
  low : UInt8 := 0x80
  high : UInt8 := 0xBF

/-- What the first byte of a character opens, where more bytes have to follow.  The narrowed second ranges shut out
overlong forms, halves of pairs and numbers past the last character. -/
def Unfinished.ofLead? (b : UInt8) : Option Unfinished :=
  if 0xC2 ≤ b && b ≤ 0xDF then some { bits := b.toNat - 0xC0, owed := 1 }
  else if b = 0xE0 then some { bits := 0, owed := 2, low := 0xA0 }
  else if b = 0xED then some { bits := 0xD, owed := 2, high := 0x9F }
  else if 0xE1 ≤ b && b ≤ 0xEF then some { bits := b.toNat - 0xE0, owed := 2 }
  else if b = 0xF0 then some { bits := 0, owed := 3, low := 0x90 }
  else if b = 0xF4 then some { bits := 4, owed := 3, high := 0x8F }
  else if 0xF1 ≤ b && b ≤ 0xF3 then some { bits := b.toNat - 0xF0, owed := 3 }
  else none

def replacement : Text := [0xFFFD]

/-- A byte between characters: the text it completes and what it leaves open. -/
def leadByte (b : UInt8) : Text × Option Unfinished :=
  if b < 0x80 then ([b.toUInt16], none)
  else match Unfinished.ofLead? b with
    | some p => ([], some p)
    | none => (replacement, none)

/-- A byte after the given beginning of a character. -/
def nextByte (open? : Option Unfinished) (b : UInt8) : Text × Option Unfinished :=
  match open? with
  | none => leadByte b
  | some p =>
    if p.low ≤ b && b ≤ p.high then
      let bits := p.bits * 64 + (b.toNat - 0x80)
      if p.owed = 1 then (ofChar (Char.ofNat bits), none) else ([], some { bits, owed := p.owed - 1 })
    else
      let (t, next) := leadByte b
      (replacement ++ t, next)

def ofUtf8From : Option Unfinished → List UInt8 → Text
  | none, [] => []
  | some _, [] => replacement
  | open?, b :: r => (nextByte open? b).1 ++ ofUtf8From (nextByte open? b).2 r

def ofUtf8 (bytes : List UInt8) : Text := ofUtf8From none bytes

end Cddl.Text
