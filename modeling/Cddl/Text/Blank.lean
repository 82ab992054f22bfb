import Cddl.Text
/-!
# Blank code units

The white space that hexadecimal byte strings may be spread over: the tab-to-return controls, the space separators, the
two Unicode line ends and the byte order mark.  Every blank lies in the basic plane.
-/
namespace Cddl

/-- The blanks as closed ranges of code units. -/
def blankRanges : List (CodeUnit × CodeUnit) :=
  [(0x09, 0x0D), (0x20, 0x20), (0xA0, 0xA0), (0x1680, 0x1680), (0x2000, 0x200A), (0x2028, 0x2029), (0x202F, 0x202F),
    (0x205F, 0x205F), (0x3000, 0x3000), (0xFEFF, 0xFEFF)]

def CodeUnit.isBlank (u : CodeUnit) : Bool := blankRanges.any fun (low, high) => low ≤ u && u ≤ high

end Cddl
