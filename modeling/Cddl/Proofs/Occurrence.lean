import Cddl.Node.Tree
/-!
# Occurrences

A node can stand in several places of a tree.  `Tree.occurrences` lists the places in the order of a visit, each as the
node that stands there and the nodes that contain it.
-/
namespace Cddl

namespace Tree

variable {α : Type}

mutual

/-- The nodes of a tree before the nodes below them, each with those that contain it from the nearest one up. -/
def occurrences (above : List α) : Tree α → List (α × List α)
  | node a ts => (a, above) :: occurrencesAll (a :: above) ts

def occurrencesAll (above : List α) : List (Tree α) → List (α × List α)
  | [] => []
  | t :: ts => occurrences above t ++ occurrencesAll above ts

end

mutual

/-- Without their containers the places are those of a visit. -/
theorem map_fst_occurrences (above : List α) : ∀ t : Tree α, (occurrences above t).map Prod.fst = preorder t
  | .node a ts => by rw [occurrences, preorder, List.map_cons, map_fst_occurrencesAll (a :: above) ts]

theorem map_fst_occurrencesAll (above : List α) : ∀ ts : List (Tree α),
    (occurrencesAll above ts).map Prod.fst = preorders ts
  | [] => rfl
  | t :: ts => by
    rw [occurrencesAll, preorders, List.map_append, map_fst_occurrences above t, map_fst_occurrencesAll above ts]

end

mutual

/-- A visitor that walks on from everywhere sees every node before those below it. -/
theorem visit_walk : ∀ t : Tree α, visit (fun _ => some .walk) t = preorder t
  | .node a ts => by rw [visit, preorder, visitAll_walk ts]

theorem visitAll_walk : ∀ ts : List (Tree α), visitAll (fun _ => some .walk) ts = preorders ts
  | [] => rfl
  | t :: ts => by rw [visitAll, preorders, visit_walk t, visitAll_walk ts]

end

theorem mem_occurrencesAll {above : List α} {o : α × List α} : ∀ {ts : List (Tree α)},
    o ∈ occurrencesAll above ts ↔ ∃ t ∈ ts, o ∈ occurrences above t
  | [] => by simp [occurrencesAll]
  | t :: ts => by
    rw [occurrencesAll, List.mem_append, @mem_occurrencesAll above o ts]
    simp

end Tree

namespace Node

open Cddl.Tree

theorem tree_eq (n : Node) : n.tree = .node n (n.children.map tree) := by
  rw [tree]
  exact congrArg (Tree.node n) List.attach_map_val

theorem occurrences_tree (n : Node) (above : List Node) :
    occurrences above n.tree = (n, above) :: occurrencesAll (n :: above) (n.children.map tree) := by
  rw [tree_eq, occurrences]

theorem mem_occurrences_tree {n : Node} {above : List Node} {o : Node × List Node} :
    o ∈ occurrences above n.tree ↔ o = (n, above) ∨ ∃ c ∈ n.children, o ∈ occurrences (n :: above) c.tree := by
  rw [occurrences_tree, List.mem_cons, mem_occurrencesAll]
  refine or_congr_right ⟨?_, fun ⟨c, hc, h⟩ => ⟨c.tree, List.mem_map_of_mem hc, h⟩⟩
  rintro ⟨t, ht, h⟩
  obtain ⟨c, hc, rfl⟩ := List.mem_map.1 ht
  exact ⟨c, hc, h⟩

/-- Nothing below a node is larger than the node. -/
theorem sizeOf_le_of_mem_occurrences {n : Node} {above : List Node} {o : Node × List Node}
    (h : o ∈ occurrences above n.tree) : sizeOf o.1 ≤ sizeOf n := by
  rcases mem_occurrences_tree.1 h with rfl | ⟨c, hc, h⟩
  · exact Nat.le_refl _
  · have below := sizeOf_le_of_mem_occurrences h
    have small := sizeOf_child_lt hc
    omega
termination_by n
decreasing_by exact sizeOf_child_lt hc

theorem sizeOf_lt_of_mem_below {n : Node} {above : List Node} {o : Node × List Node}
    (h : o ∈ occurrencesAll above (n.children.map tree)) : sizeOf o.1 < sizeOf n := by
  obtain ⟨t, ht, h⟩ := mem_occurrencesAll.1 h
  obtain ⟨c, hc, rfl⟩ := List.mem_map.1 ht
  have below := sizeOf_le_of_mem_occurrences h
  have small := sizeOf_child_lt hc
  omega

/-- What contains a node in a tree has a place there itself, right below what is left of the containers. -/
theorem container_mem_occurrences {n : Node} {above : List Node} {m p : Node} {rest : List Node}
    (h : (m, p :: rest) ∈ occurrences above n.tree) :
    (m = n ∧ p :: rest = above) ∨ ((p, rest) ∈ occurrences above n.tree ∧ m ∈ p.children) := by
  rcases mem_occurrences_tree.1 h with heq | ⟨c, hc, h⟩
  · cases heq
    exact .inl ⟨rfl, rfl⟩
  · rcases container_mem_occurrences h with ⟨rfl, heq⟩ | ⟨mem, child⟩
    · cases heq
      exact .inr ⟨mem_occurrences_tree.2 (.inl rfl), hc⟩
    · exact .inr ⟨mem_occurrences_tree.2 (.inr ⟨c, hc, mem⟩), child⟩
termination_by n
decreasing_by exact sizeOf_child_lt hc

/-- Every container of a node has a place in the tree itself. -/
theorem container_mem {root m p : Node} {rest : List Node} (h : (m, p :: rest) ∈ occurrences [] root.tree) :
    (p, rest) ∈ occurrences [] root.tree ∧ m ∈ p.children := by
  rcases container_mem_occurrences h with ⟨_, heq⟩ | h
  · cases heq
  · exact h

/-- What a node directly contains has a place right below every place of the node. -/
theorem child_mem_occurrences {n m c : Node} {above up : List Node} (h : (m, up) ∈ occurrences above n.tree)
    (hc : c ∈ m.children) : (c, m :: up) ∈ occurrences above n.tree := by
  rcases mem_occurrences_tree.1 h with heq | ⟨c', hc', h⟩
  · cases heq
    exact mem_occurrences_tree.2 (.inr ⟨c, hc, mem_occurrences_tree.2 (.inl rfl)⟩)
  · exact mem_occurrences_tree.2 (.inr ⟨c', hc', child_mem_occurrences h hc⟩)
termination_by n
decreasing_by exact sizeOf_child_lt hc'

/-- Containers are larger and larger on the way up. -/
theorem sizeOf_above {root : Node} : ∀ {above : List Node} {n : Node}, (n, above) ∈ occurrences [] root.tree →
    (n :: above).Pairwise fun m p => sizeOf m < sizeOf p
  | [], _, _ => List.pairwise_singleton _ _
  | p :: rest, n, h => by
    obtain ⟨mem, child⟩ := container_mem h
    have more := sizeOf_above mem
    have small := sizeOf_child_lt child
    refine .cons (fun m hm => ?_) more
    rcases List.mem_cons.1 hm with rfl | hm
    · exact small
    · exact Nat.lt_trans small ((List.pairwise_cons.1 more).1 m hm)

theorem above_ne_nil {c n : Node} {above above' : List Node} (h : (n, above') ∈ occurrences above c.tree)
    (ha : above ≠ []) : above' ≠ [] := by
  rcases mem_occurrences_tree.1 h with heq | ⟨c', hc, h⟩
  · cases heq
    exact ha
  · exact above_ne_nil h (List.cons_ne_nil _ _)
termination_by c
decreasing_by exact sizeOf_child_lt hc

/-- The way up from any place leads to the root. -/
theorem root_of_mem {root : Node} : ∀ {above : List Node} {n : Node}, (n, above) ∈ occurrences [] root.tree →
    (n :: above).getLast? = some root
  | [], n, h => by
    rcases mem_occurrences_tree.1 h with heq | ⟨c, hc, h⟩
    · cases heq
      rfl
    · exact absurd rfl (above_ne_nil h (List.cons_ne_nil _ _))
  | p :: rest, n, h => by
    rw [List.getLast?_cons_cons]
    exact root_of_mem (container_mem h).1

end Node
end Cddl
