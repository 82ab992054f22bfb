import Cddl.Node
/-!
# Trees of nodes, and visits to them

`Node.tree` unfolds a node into the tree of everything below it.  A visit goes through a tree from the top, each node
before what is below it; a visitor that takes part in only some kinds of node, and may stop at them, sees a part of
that.
-/
namespace Cddl

inductive Tree (α : Type) where
  | node (root : α) (children : List (Tree α))

namespace Tree

variable {α : Type}

def root : Tree α → α
  | node a _ => a

def children : Tree α → List (Tree α)
  | node _ ts => ts

mutual

/-- Every node, before the nodes below it. -/
def preorder : Tree α → List α
  | node a ts => a :: preorders ts

def preorders : List (Tree α) → List α
  | [] => []
  | t :: ts => preorder t ++ preorders ts

end

/-! ## Visits -/

/-- What a visitor does after it has seen a node: it walks on below it, or stops. -/
inductive Step where
  | walk | stop
  deriving DecidableEq, Repr

mutual

/-- The nodes that a visitor sees.  It passes nodes without a step unseen, and walks on below them. -/
def visit (step? : α → Option Step) : Tree α → List α
  | node a ts =>
    match step? a with
    | none => visitAll step? ts
    | some .walk => a :: visitAll step? ts
    | some .stop => [a]

def visitAll (step? : α → Option Step) : List (Tree α) → List α
  | [] => []
  | t :: ts => visit step? t ++ visitAll step? ts

end

/-- The nodes that a visitor sees below the root. -/
def walk (step? : α → Option Step) (t : Tree α) : List α := visitAll step? t.children

end Tree

/-! ## The tree of a node -/

namespace Node

theorem sizeOf_lt_of_mem_toList {α : Type} [SizeOf α] {a : α} {o : Option α} (h : a ∈ o.toList) :
    sizeOf a < sizeOf o := by
  cases o with
  | none => simp at h
  | some b =>
    have : a = b := by simpa using h
    subst this
    simp

theorem sizeOf_entry_lt : ∀ e : ListedEntry, sizeOf e.entry < sizeOf e
  | ⟨entry, comma⟩ => by
    rw [ListedEntry.mk.sizeOf_spec]
    change sizeOf entry < 1 + sizeOf entry + sizeOf comma
    omega

theorem sizeOf_child_lt {n c : Node} (h : c ∈ n.children) : sizeOf c < sizeOf n := by
  cases n with
  | rule r => obtain ⟨_ | _, _⟩ := r <;> grind [children]
  | _ x =>
    cases x <;>
      grind [children, ofName, ofArgs, ofParams, ofOccurrence, → List.sizeOf_lt_of_mem, → sizeOf_lt_of_mem_toList,
        sizeOf_entry_lt]

/-- A node and all that is below it. -/
def tree (n : Node) : Tree Node := .node n (n.children.attach.map fun ⟨c, _⟩ => c.tree)
termination_by n
decreasing_by exact sizeOf_child_lt ‹_›

end Node
end Cddl
