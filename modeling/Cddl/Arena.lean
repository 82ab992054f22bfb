import Cddl.Diagnostic
/-!
# Slots and links

An arena holds each value once.  Links between slots say which value was found below which.  A slot keeps the first slot
that it was linked below, and a link that would put a slot below itself is refused, so the way up from any slot ends.
-/
namespace Cddl

structure Slot (α : Type) where
  value : α
  parent : Option Nat := none
  /-- The slots linked below, in the order of their first links. -/
  children : List Nat := []

/-- Why two slots could not be linked. -/
inductive LinkFault where
  /-- One of the two is not there. -/
  | noSlot (parent child : Int)
  /-- The upper one is the lower one, or is below it. -/
  | overwrite
  deriving DecidableEq, Repr

def LinkFault.message : LinkFault → Text
  | .noSlot parent child => "No arena slot for link " ++ Text.ofInt parent ++ " -> " ++ Text.ofInt child
  | .overwrite => Diagnostic.treeOverwrite.message

structure Arena (α : Type) where
  slots : Array (Slot α) := #[]

namespace Arena

variable {α : Type}

def size (a : Arena α) : Nat := a.slots.size

/-- The slot number that an integer is, if there is such a slot. -/
def index? (a : Arena α) (i : Int) : Option Nat := if 0 ≤ i ∧ i.toNat < a.size then some i.toNat else none

/-! ## Interning -/

/-- The slot of a value, if it has one. -/
def find? [DecidableEq α] (a : Arena α) (x : α) : Option Nat := a.slots.findIdx? fun s => s.value = x

/-- The slot of a value, which is given a new one if it has none. -/
def intern [DecidableEq α] (a : Arena α) (x : α) : Nat × Arena α :=
  match a.find? x with
  | some i => (i, a)
  | none => (a.size, ⟨a.slots.push { value := x }⟩)

/-! ## Links -/

def parent? (a : Arena α) (i : Nat) : Option Nat := a.slots[i]?.bind Slot.parent

/-- The slots above a slot, from the nearest one up; at most `n` of them. -/
def climb (a : Arena α) : Nat → Nat → List Nat
  | 0, _ => []
  | n + 1, i =>
    match a.parent? i with
    | some p => p :: a.climb n p
    | none => []

/-- The slots above a slot, from the nearest one up.  No slot is above itself, so they are fewer than the slots. -/
def ancestors (a : Arena α) (i : Nat) : List Nat := a.climb a.size i

def setParent (parent : Nat) (s : Slot α) : Slot α := { s with parent := s.parent <|> some parent }

def addChild (child : Nat) (s : Slot α) : Slot α :=
  { s with children := if child ∈ s.children then s.children else s.children ++ [child] }

/-- Puts one slot below another; an error leaves the slots as they were. -/
def link (a : Arena α) (parent child : Int) : Except LinkFault (Arena α) :=
  match a.index? parent, a.index? child with
  | some p, some c =>
    if c = p ∨ c ∈ a.ancestors p then .error .overwrite
    else .ok ⟨(a.slots.modify c (setParent p)).modify p (addChild c)⟩
  | _, _ => .error (.noSlot parent child)

end Arena
end Cddl
