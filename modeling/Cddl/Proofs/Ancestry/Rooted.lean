import Cddl.Proofs.Ancestry.Listing
import Cddl.Proofs.Arena.Forest
/-!
# The tree of an index

A node is met behind what contains it, so in an index over a document every slot but that of the document has a parent,
with a smaller number.  The ways up through the index end at the document (`ancestry_rooted`).
-/
namespace Cddl

open Cddl.Tree

/-! ## What contains a node is met before it -/

namespace Tree

variable {α : Type} {n m : α} {rest : List α}

mutual

theorem container_before (above : List α) : ∀ (t : Tree α) (before behind : List (α × List α)),
    occurrences above t = before ++ (n, m :: rest) :: behind → m :: rest = above ∨ (m, rest) ∈ before
  | .node a ts, [], behind, h => by
    rw [occurrences, List.nil_append] at h
    cases h
    exact .inl rfl
  | .node a ts, o :: before, behind, h => by
    rw [occurrences, List.cons_append] at h
    obtain ⟨rfl, below⟩ := List.cons.inj h
    rcases container_before_all (a :: above) ts before behind below with same | mem
    · cases same
      exact .inr List.mem_cons_self
    · exact .inr (List.mem_cons_of_mem _ mem)

theorem container_before_all (above : List α) : ∀ (ts : List (Tree α)) (before behind : List (α × List α)),
    occurrencesAll above ts = before ++ (n, m :: rest) :: behind → m :: rest = above ∨ (m, rest) ∈ before
  | [], before, behind, h => by
    rw [occurrencesAll] at h
    exact absurd h.symm (List.append_ne_nil_of_right_ne_nil _ (List.cons_ne_nil _ _))
  | t :: ts, before, behind, h => by
    rw [occurrencesAll] at h
    rcases List.append_eq_append_iff.1 h with ⟨part, rfl, others⟩ | ⟨part, first, others⟩
    · rcases container_before_all above ts part behind others with same | mem
      · exact .inl same
      · exact .inr (List.mem_append_right _ mem)
    · cases part with
      | nil =>
        rcases container_before_all above ts [] behind others.symm with same | mem
        · exact .inl same
        · cases mem
      | cons o part =>
        obtain ⟨rfl, _⟩ := List.cons.inj others
        exact container_before above t before part first

end
end Tree

/-- Without repeats an element that comes first comes first again. -/
theorem eraseDups_before {α : Type} [DecidableEq α] {l l' : List α} {x y : α} {j : Nat} (hx : x ∈ l) (hy : y ∉ l)
    (hj : (l ++ l').eraseDups[j]? = some y) : ∃ k < j, (l ++ l').eraseDups[k]? = some x := by
  rw [List.eraseDups_append] at hj ⊢
  obtain ⟨k, hk⟩ := List.mem_iff_getElem?.1 (List.mem_eraseDups.2 hx)
  have inside := (List.getElem?_eq_some_iff.1 hk).1
  refine ⟨k, ?_, (List.getElem?_append_left inside).trans hk⟩
  by_contra late
  rw [List.getElem?_append_left (by omega)] at hj
  exact hy (List.mem_eraseDups.1 (List.mem_of_getElem? hj))

namespace Document

variable {d : Document} {n m : Node}

theorem visited_eq (d : Document) : ∃ more, d.visited = .document d :: more := by
  rw [← map_fst_places, places, Node.occurrences_tree, List.map_cons]
  exact ⟨_, rfl⟩

/-- What contains a node first is met before the node. -/
theorem exists_nodes_before (h : d.containerOf? n = some m) {j : Nat} (hj : d.nodes[j]? = some n) :
    ∃ k < j, d.nodes[k]? = some m := by
  obtain ⟨⟨n', above⟩, first, head⟩ := Option.bind_eq_some_iff.1 h
  obtain ⟨rest, rfl⟩ := List.head?_eq_some_iff.1 head
  obtain ⟨same, before, behind, split, new⟩ := List.find?_eq_some_iff_append.1 first
  have same : n' = n := of_decide_eq_true same
  subst same
  have met : (m, rest) ∈ before := by
    rcases container_before [] _ before behind split with none | mem
    · cases none
    · exact mem
  have unmet : n' ∉ before.map Prod.fst := by
    intro mem
    obtain ⟨o, ho, same⟩ := List.mem_map.1 mem
    simpa [same] using new o ho
  unfold nodes at hj ⊢
  rw [← map_fst_places, split, List.map_append] at hj ⊢
  exact eraseDups_before (List.mem_map_of_mem met) unmet hj

end Document

/-! ## Ways up through an index -/

theorem Arena.exists_wayUp {α : Type} {a : Arena α} (less : ∀ {i p : Nat}, a.parent? i = some p → p < i) (i : Nat) :
    ∃ l, a.WayUp i l := by
  induction i using Nat.strongRecOn with
  | ind i ih =>
    cases hp : a.parent? i with
    | none => exact ⟨[], .top hp⟩
    | some p =>
      obtain ⟨l, hl⟩ := ih p (less hp)
      exact ⟨p :: l, .up hp hl⟩

namespace Ancestry

variable {x : Ancestry} {d : Document} {n m : Node} {i p : Nat}

/-- The slots of an index and their parents are a tree below the document. -/
structure Rooted (x : Ancestry) (d : Document) : Prop where
  root : x.nodeAt? 0 = some (.document d)
  top : x.arena.parent? 0 = none
  parent : ∀ i < x.size, i ≠ 0 → ∃ p < i, x.arena.parent? i = some p
  /-- The way up from every slot ends, and the climb finds all of it. -/
  wayUp : ∀ n i, x.arena.find? n = some i →
    ∃ l, x.arena.WayUp i l ∧ l.map x.nodeAt? = (x.ancestors n).map some
  ancestors : ∀ n, x.has n = true → n ≠ .document d →
    (n :: x.ancestors n).IsChain (fun m p => x.parent? m = some p) ∧ (x.ancestors n).getLast? = some (.document d)

theorem nodeAt?_zero (lists : x.arena.Lists d.places) : x.nodeAt? 0 = some (.document d) := by
  obtain ⟨more, first⟩ := d.visited_eq
  rw [show x.nodeAt? 0 = x.arena.value? 0 from rfl, Arena.value?_eq, slots_eq lists, Document.nodes, first,
    List.eraseDups_cons]
  rfl

/-- Only the slot of the document has no parent. -/
theorem eq_root_of_top (holds : x.arena.Holds d.places) (lists : x.arena.Lists d.places)
    (hi : x.arena.value? i = some n) (top : x.arena.parent? i = none) : n = .document d := by
  have alone := holds.parents hi
  rw [top, Document.container?_places] at alone
  by_contra other
  obtain ⟨p, hp⟩ := Document.exists_containerOf? (visited_of_value? lists hi) other
  rw [← alone] at hp
  cases hp

theorem parent_lt (holds : x.arena.Holds d.places) (lists : x.arena.Lists d.places)
    (hp : x.arena.parent? i = some p) : p < i := by
  obtain ⟨n, hi⟩ := Arena.exists_value? (Arena.lt_size_of_parent? hp)
  obtain ⟨m, hm, contains⟩ := holds.value?_parent hi hp
  rw [Document.container?_places] at contains
  have slot (k : Nat) : x.arena.value? k = d.nodes[k]? := by rw [Arena.value?_eq, slots_eq lists]
  obtain ⟨k, less, hk⟩ := Document.exists_nodes_before contains ((slot i).symm.trans hi)
  rw [lists.distinct hm ((slot k).trans hk)]
  exact less

/-- The nodes on a way up lead from each to the next, and the last one is the document. -/
theorem exists_nodes_of_wayUp (holds : x.arena.Holds d.places) (lists : x.arena.Lists d.places) {l : List Nat}
    (up : x.arena.WayUp i l) (hi : x.arena.value? i = some n) :
    ∃ ns : List Node, l.map x.nodeAt? = ns.map some ∧ (n :: ns).IsChain (fun m p => x.parent? m = some p) ∧
      (n :: ns).getLast? = some (.document d) := by
  induction up generalizing n with
  | top bare =>
    refine ⟨[], rfl, .singleton _, ?_⟩
    rw [eq_root_of_top holds lists hi bare]
    rfl
  | @up i p l parent _ ih =>
    obtain ⟨m, hm, _⟩ := holds.value?_parent hi parent
    obtain ⟨ns, same, chain, last⟩ := ih hm
    have next : x.parent? n = some m := by
      unfold parent?
      rw [holds.find?_eq hi]
      change (x.arena.parent? i).bind x.nodeAt? = some m
      rw [parent]
      exact hm
    refine ⟨m :: ns, ?_, .cons_cons next chain, ?_⟩
    · rw [List.map_cons, List.map_cons, same]
      exact congrArg (· :: _) hm
    · rw [List.getLast?_cons_cons]
      exact last

/-- The nodes above a node are those on the way up from its slot. -/
theorem exists_wayUp_ancestors (holds : x.arena.Holds d.places) (lists : x.arena.Lists d.places)
    (hi : x.arena.find? n = some i) :
    ∃ l, x.arena.WayUp i l ∧ l.map x.nodeAt? = (x.ancestors n).map some ∧
      (n :: x.ancestors n).IsChain (fun m p => x.parent? m = some p) ∧
      (n :: x.ancestors n).getLast? = some (.document d) := by
  obtain ⟨l, up⟩ := Arena.exists_wayUp (parent_lt holds lists) i
  obtain ⟨ns, same, chain, last⟩ := exists_nodes_of_wayUp holds lists up (Arena.value?_of_find? hi)
  have above : x.ancestors n = ns := by
    unfold ancestors
    rw [hi]
    calc (x.arena.ancestors i).filterMap x.nodeAt?
        = (l.map x.nodeAt?).filterMap id := by rw [up.ancestors_eq holds.linked, List.filterMap_map]; rfl
      _ = (ns.map some).filterMap id := by rw [same]
      _ = ns := by rw [List.filterMap_map]; exact List.filterMap_some
  rw [above]
  exact ⟨l, up, same, chain, last⟩

end Ancestry

/-- **The index over any document can be built, and is a tree: every slot but that of the document has a parent with a
smaller number, and the way up from every slot ends at the document.** -/
theorem ancestry_rooted (d : Document) : ∃ x, Ancestry.ofDocument d = .ok x ∧ x.Rooted d := by
  obtain ⟨x, made, holds⟩ := Ancestry.exists_ofDocument d
  have lists := Ancestry.lists_of_ofDocument made
  have root := Ancestry.nodeAt?_zero lists
  refine ⟨x, made, root, ?_, ?_, ?_, ?_⟩
  · rw [Option.eq_none_iff_forall_ne_some]
    exact fun p hp => Nat.not_lt_zero p (Ancestry.parent_lt holds lists hp)
  · intro i inside other
    obtain ⟨n, hi⟩ := Arena.exists_value? inside
    cases hp : x.arena.parent? i with
    | some p => exact ⟨p, Ancestry.parent_lt holds lists hp, rfl⟩
    | none =>
      have top := Ancestry.eq_root_of_top holds lists hi hp
      exact absurd (lists.distinct hi (top ▸ root)) other
  · intro n i hi
    obtain ⟨l, up, same, _⟩ := Ancestry.exists_wayUp_ancestors holds lists hi
    exact ⟨l, up, same⟩
  · intro n there other
    obtain ⟨i, hi⟩ := Option.isSome_iff_exists.1 there
    obtain ⟨_, _, _, chain, last⟩ := Ancestry.exists_wayUp_ancestors holds lists hi
    refine ⟨chain, ?_⟩
    cases above : x.ancestors n with
    | nil =>
      rw [above] at last
      exact absurd (Option.some.inj last) other
    | cons m rest =>
      rw [above, List.getLast?_cons_cons] at last
      exact last

end Cddl
