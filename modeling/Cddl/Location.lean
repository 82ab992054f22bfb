import Cddl.Text
/-!
# Places in a source text

Lines and columns count from one and offsets from zero, all in code units.  `Location.advance` is the only step that a
scan takes, so the three counters of every place that a scan reaches agree with each other.  The counters are integers:
a diagnostic may be built for any place, also one that no text has.
-/
namespace Cddl

structure Location where
  line : Int
  column : Int
  offset : Int
  deriving DecidableEq, Repr

namespace Location

/-- The place before the first unit of a text. -/
def start : Location := ⟨1, 1, 0⟩

/-- The place `n` columns on, in the same line. -/
def shift (l : Location) (n : Int) : Location := ⟨l.line, l.column + n, l.offset + n⟩

/-- The place after a unit that stands here. -/
def advance (l : Location) (u : CodeUnit) : Location :=
  if u = '\n' then ⟨l.line + 1, 1, l.offset + 1⟩ else l.shift 1

end Location

/-- A stretch of source text, from the first place in it to the place after it. -/
structure Span where
  start : Location
  stop : Location
  deriving DecidableEq, Repr

end Cddl
