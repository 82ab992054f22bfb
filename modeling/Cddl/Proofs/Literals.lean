import Cddl.Proofs.Leaves
import Cddl.Proofs.Token.Plain
/-!
# The literals of a tree

Every literal of a token that has been read is a literal of the tree, or one of the numbers that count occurrences.
-/
namespace Cddl

open Cddl.Tree

namespace Node

def value? : Node → Option Literal
  | value v => some v
  | _ => none

/-- The literals that stand below a node, or are the node, in the order in which they are written. -/
def literals (n : Node) : List Literal := n.tree.preorder.filterMap value?

theorem filterMap_preorders (f : Node → Option Literal) : ∀ ts : List (Tree Node),
    (preorders ts).filterMap f = ts.flatMap fun t => t.preorder.filterMap f
  | [] => by rw [preorders]; rfl
  | t :: ts => by rw [preorders, List.filterMap_append, filterMap_preorders f ts, List.flatMap_cons]

theorem literals_eq (n : Node) : n.literals = n.value?.toList ++ n.children.flatMap literals := by
  unfold literals
  rw [tree_eq, preorder, List.filterMap_cons, filterMap_preorders, List.flatMap_map]
  cases n.value? <;> rfl

theorem literals_value (v : Literal) : (value v).literals = [v] := by
  rw [literals_eq]
  rfl

end Node

/-- A number that may count how often an entry occurs. -/
def Literal.Counts (v : Literal) : Prop := ∃ n, v = .uint n

/-- Every literal of some tokens is listed, or counts. -/
def Covers (vs : List Literal) (ts : List Token) : Prop := ∀ v ∈ ts.flatMap Token.literals, v ∈ vs ∨ v.Counts

theorem Node.literals_of_own {n : Node} {v : Literal} (h : .literal v ∈ n.ownLeaves) :
    v ∈ n.value?.toList ∨ v.Counts := by
  cases n with
  | identifier i => cases List.mem_singleton.1 h
  | value u =>
    cases List.mem_singleton.1 h
    exact .inl List.mem_cons_self
  | occurrence o =>
    obtain ⟨n, _, heq⟩ := List.mem_map.1 h
    cases heq
    exact .inr ⟨n, rfl⟩
  | _ => cases h

/-- A literal among the leaves of a node is a literal of the node, or bounds an occurrence. -/
theorem Node.literals_of_leaf {n : Node} {v : Literal} (h : .literal v ∈ n.leaves) : v ∈ n.literals ∨ v.Counts := by
  rw [leaves_eq] at h
  rw [literals_eq, List.mem_append]
  rcases List.mem_append.1 h with own | below
  · exact (literals_of_own own).imp_left .inl
  · obtain ⟨c, hc, below⟩ := List.mem_flatMap.1 below
    refine (literals_of_leaf below).imp_left fun listed => .inr ?_
    exact List.mem_flatMap.2 ⟨c, hc, listed⟩
termination_by n
decreasing_by exact sizeOf_child_lt hc

theorem Token.leaf_of_literals {t : Token} {v : Literal} (h : v ∈ t.literals) : .literal v ∈ t.leaves := by
  obtain ⟨body, text, location⟩ := t
  have listed : .literal v ∈ (literals ⟨body, text, location⟩).map Leaf.literal := List.mem_map_of_mem h
  cases body with
  | value v | range lower upper inclusive => exact listed
  | mark m | tag major number => cases h

/-- **Every literal of the tokens of some rules is one of the rules, or counts how often an entry occurs.** -/
theorem SpellsRules.covers {rs : List Rule} {ts after : List Token} (h : SpellsRules rs ts after) :
    Covers (rs.flatMap fun r => (Node.rule r).literals) ts := by
  intro v hv
  obtain ⟨t, ht, hv⟩ := List.mem_flatMap.1 hv
  have leaf : .literal v ∈ ts.flatMap Token.leaves := List.mem_flatMap.2 ⟨t, ht, Token.leaf_of_literals hv⟩
  rw [← h.yields, List.flatMap_map] at leaf
  obtain ⟨r, hr, leaf⟩ := List.mem_flatMap.1 leaf
  exact (Node.literals_of_leaf leaf).imp_left fun listed => List.mem_flatMap.2 ⟨r, hr, listed⟩

/-- The literals of a document in their order. -/
def Document.literals (d : Document) : List Literal := (Node.document d).literals

theorem Document.literals_eq (d : Document) : d.literals = d.rules.flatMap fun r => (Node.rule r).literals := by
  rw [literals, Node.literals_eq, Node.children, List.flatMap_map]
  rfl

end Cddl
