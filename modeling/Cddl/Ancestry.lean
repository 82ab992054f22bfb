import Cddl.Arena
import Cddl.Node.Tree
/-!
# What contains a node

An index over a document that leads from a node to the nodes above it.  Every node is interned in the order of a visit
and linked below the node that it was reached from.  Nodes that are equal share a slot, and that slot's parent is where
the first of them stands.
-/
namespace Cddl

namespace Arena

mutual

/-- Enters a tree, below the given slot if there is one. -/
def enter (parent : Option Nat) : Tree Node → Arena Node → Except LinkFault (Arena Node)
  | .node n ts, a => do
    let (i, a) := a.intern n
    let a ← match parent with
      | some p => a.link p i
      | none => pure a
    enterAll i ts a

def enterAll (parent : Nat) : List (Tree Node) → Arena Node → Except LinkFault (Arena Node)
  | [], a => pure a
  | t :: ts, a => do
    let a ← enter (some parent) t a
    enterAll parent ts a

end

end Arena

/-- The nodes of a document in an arena, with a link for each node below another. -/
structure Ancestry where
  arena : Arena Node

namespace Ancestry

def ofDocument (d : Document) : Except LinkFault Ancestry := do
  let arena ← Arena.enter none (Node.document d).tree {}
  return ⟨arena⟩

/-- The number of different nodes. -/
def size (x : Ancestry) : Nat := x.arena.size

/-! ## Questions about a node -/

def has (x : Ancestry) (n : Node) : Bool := (x.arena.find? n).isSome

def nodeAt? (x : Ancestry) (i : Nat) : Option Node := x.arena.slots[i]?.map Slot.value

/-- The node right above. -/
def parent? (x : Ancestry) (n : Node) : Option Node := do
  let i ← x.arena.find? n
  let p ← x.arena.parent? i
  x.nodeAt? p

/-- The node right above, if it is of the given kind. -/
def parentOfKind? (x : Ancestry) (n : Node) (kind : NodeKind) : Option Node :=
  (x.parent? n).filter fun p => p.kind = kind

/-- The node right above one whose kind can only stand below one kind of node. -/
def soleParent? (x : Ancestry) (n : Node) : Option Node :=
  match n.kind.parentKinds with
  | [kind] => x.parentOfKind? n kind
  | _ => none

/-- The nodes right below, in the order of first visits. -/
def children (x : Ancestry) (n : Node) : List Node :=
  match x.arena.find? n with
  | some i => ((x.arena.slots[i]?.map Slot.children).getD []).filterMap x.nodeAt?
  | none => []

/-- The nodes above, from the nearest one up to the document. -/
def ancestors (x : Ancestry) (n : Node) : List Node :=
  match x.arena.find? n with
  | some i => (x.arena.ancestors i).filterMap x.nodeAt?
  | none => []

/-! ## Listings -/

/-- A slot as it is listed. -/
structure Entry where
  index : Nat
  kind : NodeKind
  label : Text
  parent : Option Nat
  children : List Nat
  deriving DecidableEq, Repr

def entry (i : Nat) (s : Slot Node) : Entry := ⟨i, s.value.kind, s.value.label, s.parent, s.children⟩

def entries (x : Ancestry) : List Entry := x.arena.slots.toList.mapIdx entry

namespace Entry

/-- The entries of a kind, or all of them. -/
def select (entries : List Entry) : Option NodeKind → List Entry
  | none => entries
  | some kind => entries.filter fun e => e.kind = kind

def number (i : Nat) : Text := "#" ++ Text.ofNat i

/-- An entry on one line, with an arrow back to its parent and one on to its children. -/
def line (e : Entry) : Text :=
  let parent : Text := match e.parent with
    | some p => " <- " ++ number p
    | none => []
  let children : Text := if e.children = [] then [] else " -> " ++ Text.join ", " (e.children.map number)
  number e.index ++ " " ++ e.kind.label ++ " " ++ e.label ++ parent ++ children

def record (e : Entry) : Datum :=
  .object (Datum.field "index" (.int e.index) ++ Datum.field "kind" (.text e.kind.label) ++
    Datum.field "label" (.text e.label) ++ Datum.field? "parent" (e.parent.map fun p : Nat => .int p) ++
    Datum.field "children" (.array (e.children.map fun c : Nat => .int c)))

end Entry
end Ancestry
end Cddl
