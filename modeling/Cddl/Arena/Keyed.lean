import Cddl.Arena
import Cddl.Datum.Key
import Cddl.Node
/-!
# Slots that are found by key

What a slot holds need not be compared with what others hold: each slot is entered under a key that is made of its kind
and of the key of its content.  Asking for a slot numbers the shapes of what is asked for, as giving it one does.
-/
namespace Cddl

/-- What a slot holds: its own place, and some content under a kind. -/
structure Interned where
  idx : Nat
  kind : NodeKind
  content : Datum

structure KeyedArena where
  arena : Arena Interned := {}
  /-- Where each key is entered. -/
  entries : List (Text × Nat) := []
  keys : KeyTable := {}

namespace KeyedArena

def slotKey (kind : NodeKind) (content : Datum) : StateM KeyTable Text :=
  return Text.ofString kind.label ++ ":" ++ (← content.key)

/-- The slot of some content under a kind, if it has one. -/
def find (a : KeyedArena) (kind : NodeKind) (content : Datum) : Option Nat × KeyedArena :=
  let (key, keys) := (slotKey kind content).run a.keys
  (a.entries.lookup key, { a with keys })

/-- The slot of some content under a kind, which is given a new one if it has none. -/
def intern (a : KeyedArena) (kind : NodeKind) (content : Datum) : Nat × KeyedArena :=
  let (key, keys) := (slotKey kind content).run a.keys
  match a.entries.lookup key with
  | some i => (i, { a with keys })
  | none =>
    let i := a.arena.size
    (i, ⟨⟨a.arena.slots.push { value := ⟨i, kind, content⟩ }⟩, (key, i) :: a.entries, keys⟩)

def get (a : KeyedArena) (i : Int) : Option (Slot Interned) := (a.arena.index? i).bind fun i => a.arena.slots[i]?

def link (a : KeyedArena) (parent child : Int) : Except LinkFault KeyedArena :=
  (a.arena.link parent child).map fun arena => { a with arena }

/-! ## Calls -/

/-- What an arena can be called for. -/
inductive Call where
  | intern (kind : NodeKind) (content : Datum)
  | find (kind : NodeKind) (content : Datum)
  | link (parent child : Int)
  | get (i : Int)

inductive Answer where
  | interned (i : Nat)
  | found (i : Option Nat)
  | linked (fault : Option LinkFault)
  | got (slot : Option (Slot Interned))

/-- The answer to a call, and the arena after it. -/
def step (a : KeyedArena) : Call → Answer × KeyedArena
  | .intern kind content => let (i, a) := a.intern kind content; (.interned i, a)
  | .find kind content => let (i, a) := a.find kind content; (.found i, a)
  | .link parent child =>
    match a.link parent child with
    | .ok a => (.linked none, a)
    | .error fault => (.linked (some fault), a)
  | .get i => (.got (a.get i), a)

/-- The answers to some calls in a row, and the arena after them. -/
def run (a : KeyedArena) : List Call → List Answer × KeyedArena
  | [] => ([], a)
  | call :: calls =>
    let (answer, a) := a.step call
    let (answers, a) := a.run calls
    (answer :: answers, a)

end KeyedArena
end Cddl
