import Cddl.Token.Cursor
/-!
# Token streams

What a reader of tokens can ever be given: finitely many items and then one item over and over.  A text is read until it
ends or can be read no further; a list of tokens ends with an end of input of its own.
-/
namespace Cddl

structure Feed where
  items : List (Except LexFault Token)
  /-- What comes for ever after the items. -/
  last : Except LexFault Token

namespace Feed

/-- The next item and the rest of the stream. -/
def pull (f : Feed) : Except LexFault Token × Feed :=
  match f.items with
  | [] => (f.last, f)
  | item :: rest => (item, { f with items := rest })

/-- The stream with one more item in front. -/
def prepend (item : Except LexFault Token) (f : Feed) : Feed := { f with items := item :: f.items }

/-- One item over and over. -/
def constant (item : Except LexFault Token) : Feed := ⟨[item], item⟩

/-- What is read from a cursor on.  The end, and a fault that leaves the cursor where it is, are all that comes after
them. -/
def ofCursor (c : Cursor) : Feed :=
  match h : c.next.1 with
  | .ok t =>
    if ht : t.is .endOfInput then constant (.ok t)
    else
      have : c.next.2.rest.length < c.rest.length := Cursor.length_rest_next_lt h (by simpa using ht)
      (ofCursor c.next.2).prepend (.ok t)
  | .error f =>
    if c.next.2.rest.length < c.rest.length then (ofCursor c.next.2).prepend (.error f) else constant (.error f)
termination_by c.rest.length

def ofText (source : Text) : Feed := ofCursor (.start source)

/-- The tokens of a list; the end of input after them stands where the last of them does. -/
def ofTokens (ts : List Token) : Feed :=
  ⟨ts.map .ok, .ok (.endAt ((ts.getLast?.map Token.location).getD .start))⟩

end Feed

/-- The tokens of a text, the last of them the end of input, or the first fault. -/
def tokenize (source : Text) : Except LexFault (List Token) := (Feed.ofText source).items.mapM id

end Cddl
