import Cddl.Grammar.Fault
import Cddl.Token.Feed
/-!
# Two tokens of a stream

All that the grammar sees at a time: the current token, the one after it, and the end of the one before.  Moving on is
the only way in which a window changes.
-/
namespace Cddl

structure Window where
  current : Token
  upcoming : Token
  feed : Feed
  /-- The end of the token before the current one; at first, the start of the current one. -/
  lastStop : Location

namespace Window

/-- The window on the first two tokens of a stream. -/
def ofFeed (feed : Feed) : Except LexFault Window := do
  let (first, feed) := feed.pull
  let current ← first
  let (second, feed) := feed.pull
  let upcoming ← second
  return { current, upcoming, feed, lastStop := current.location }

/-- Moves on by a token.  The move takes place also where no further token can be read; then the window shows the same
token twice. -/
def advance (w : Window) : Except LexFault Token × Window :=
  match w.feed.pull with
  | (.ok t, feed) => (.ok w.current, ⟨w.upcoming, t, feed, w.current.stop⟩)
  | (.error f, feed) => (.error f, ⟨w.upcoming, w.upcoming, feed, w.current.stop⟩)

/-- A bound on the number of tokens that can be consumed before the end of input comes up for good. -/
def size (w : Window) : Nat :=
  (if w.current.is .endOfInput then 0 else 1) + (if w.upcoming.is .endOfInput then 0 else 1) + w.feed.items.length

end Window

/-- A step of reading: it can fail, and the window it leaves behind is kept in either case. -/
abbrev Reader := ExceptT Fault (StateM Window)

namespace Reader

def current : Reader Token := do return (← get).current

def upcoming : Reader Token := do return (← get).upcoming

/-- Whether the current token is the given mark. -/
def at? (m : Mark) : Reader Bool := do return (← current).is m

/-- Consumes the current token. -/
def advance : Reader Token := do
  let (result, w) := (← get).advance
  set w
  match result with
  | .ok t => return t
  | .error f => throw (.lexical f)

/-- Fails at the current token. -/
def fail {α : Type} (wanted : Expectation) : Reader α := do throw (.mismatch wanted (← current))

/-- Consumes the current token, which has to be the given mark. -/
def expect (m : Mark) (wanted : Expectation) : Reader Token := do
  if ← at? m then advance else fail wanted

/-- The stretch from a place up to the end of the last token consumed. -/
def spanFrom (start : Location) : Reader Span := do return ⟨start, (← get).lastStop⟩

/-- Reads items as long as the current token passes the test, at most `n` of them. -/
def atMostWhile {α : Type} (test : Token → Bool) (item : Reader α) : Nat → Reader (List α)
  | 0 => return []
  | n + 1 => do
    if test (← current) then
      let a ← item
      let as ← atMostWhile test item n
      return a :: as
    else return []

/-- Reads items as long as the current token passes the test.  Each item takes a token at least, so the size of the
window bounds their number. -/
def manyWhile {α : Type} (test : Token → Bool) (item : Reader α) : Reader (List α) := do
  atMostWhile test item (← get).size

end Reader
end Cddl
