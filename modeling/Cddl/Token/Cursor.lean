import Cddl.Diagnostic
import Cddl.Token.Scan
/-!
# Reading token after token

A cursor is a place in a text and what is left of the text there.  `Cursor.skip` is the only way on, so the place always
counts the units that lie behind.
-/
namespace Cddl

/-- A place where no token could be read, and why. -/
structure LexFault where
  cause : LexCause
  location : Location
  deriving DecidableEq, Repr

/-- The fault as a report on the text it was met in. -/
def LexFault.diagnostic (source : Text) (f : LexFault) : Diagnostic :=
  Diagnostic.lexical f.cause.message { location := f.location, source := source }

structure Cursor where
  place : Location
  rest : Text
  deriving DecidableEq, Repr

namespace Cursor

def start (source : Text) : Cursor := ⟨.start, source⟩

/-- The cursor `n` units on; a step past the end counts as a column. -/
def skip : Nat → Cursor → Cursor
  | 0, c => c
  | n + 1, ⟨place, []⟩ => skip n ⟨place.shift 1, []⟩
  | n + 1, ⟨place, u :: r⟩ => skip n ⟨place.advance u, r⟩

theorem rest_skip : ∀ (n : Nat) (c : Cursor), (c.skip n).rest = c.rest.drop n
  | 0, _ => rfl
  | n + 1, ⟨place, []⟩ => by simp [skip, rest_skip n]
  | n + 1, ⟨place, u :: r⟩ => by simp [skip, rest_skip n]

/-! ## White space and comments -/

def isSpace (u : CodeUnit) : Bool := u = ' ' || u = '\t' || u = '\r' || u = '\n'

/-- How many units at the front of a text lie between tokens; a comment goes up to the end of its line. -/
def triviaLength (inComment : Bool) : Text → Nat
  | [] => 0
  | u :: r =>
    if inComment then triviaLength (u ≠ '\n') r + 1
    else if isSpace u then triviaLength false r + 1
    else if u = ';' then triviaLength true r + 1
    else 0

def skipTrivia (c : Cursor) : Cursor := c.skip (triviaLength false c.rest)

/-! ## One token -/

/-- Reads the token that a cursor stands before.  A numeral without digits is faulted where they are missed, any other
text that is no token where it begins. -/
def readHere (c : Cursor) : Except LexFault Token × Cursor :=
  match c.rest with
  | [] => (.ok (.endAt c.place), c)
  | u :: r =>
    match scan u r with
    | .token body more => (.ok ⟨body, u :: r.take more, c.place⟩, c.skip (more + 1))
    | .fault cause used =>
      let reached := c.skip used
      (.error ⟨cause, if cause = .noRadixDigits then reached.place else c.place⟩, reached)

/-- The next token or fault and the cursor after it; at the end, the end. -/
def next (c : Cursor) : Except LexFault Token × Cursor := c.skipTrivia.readHere

theorem length_rest_readHere_lt {c : Cursor} {t : Token} (h : c.readHere.1 = .ok t) (ht : t.is .endOfInput = false) :
    c.readHere.2.rest.length < c.rest.length := by
  obtain ⟨place, _ | ⟨u, r⟩⟩ := c
  · simp only [readHere, Except.ok.injEq] at h
    simp [← h, Token.endAt, Token.is] at ht
  · cases hs : scan u r with
    | fault cause used => simp [readHere, hs] at h
    | token body more =>
      simp only [readHere, hs, rest_skip, List.drop_succ_cons, List.length_drop, List.length_cons]
      omega

/-- A token that is not the end has been taken from the text. -/
theorem length_rest_next_lt {c : Cursor} {t : Token} (h : c.next.1 = .ok t) (ht : t.is .endOfInput = false) :
    c.next.2.rest.length < c.rest.length := by
  have skipped : c.skipTrivia.rest.length ≤ c.rest.length := by simp [skipTrivia, rest_skip]
  exact Nat.lt_of_lt_of_le (length_rest_readHere_lt h ht) skipped

/-- The results of reading `n` times, whatever comes of each reading. -/
def pulls : Nat → Cursor → List (Except LexFault Token)
  | 0, _ => []
  | n + 1, c => c.next.1 :: pulls n c.next.2

end Cursor
end Cddl
