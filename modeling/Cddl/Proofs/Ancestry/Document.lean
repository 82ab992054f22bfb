import Cddl.Proofs.Ancestry
import Cddl.Proofs.Placement.Document
/-!
# The index over a document that was read

In a document that is read from a text no node stands in two places, literals apart, since its span says where it
stands. So the index leads from each node to just those that contain it (`ancestry_of_parse`).
-/
namespace Cddl

open Cddl.Tree

/-- The places of a document in the order of a visit: the node that stands there, and those that contain it from the
nearest one up to the document. -/
def Document.places (d : Document) : List (Node × List Node) := occurrences [] (Node.document d).tree

/-- What the index over a document says about its places. -/
structure Ancestry.Exact (x : Ancestry) (d : Document) : Prop where
  has : ∀ n above, (n, above) ∈ d.places → x.has n = true
  /-- No place shares its slot with another, unless a literal stands there. -/
  sole : ∀ (i j : Nat) n m above above', d.places[i]? = some (n, above) →
    d.places[j]? = some (m, above') → n.kind ≠ .value →
    x.arena.find? n = x.arena.find? m → i = j
  parent : ∀ n above, (n, above) ∈ d.places → n.kind ≠ .value → x.parent? n = above.head?
  ancestors : ∀ n above, (n, above) ∈ d.places → n.kind ≠ .value → x.ancestors n = above
  /-- A literal leads to what contains the first of its like. -/
  literal : ∀ v above, d.places.find? (fun o => o.1 = .value v) = some (.value v, above) →
    ∃ p rest, above = p :: rest ∧ x.parent? (.value v) = some p

/-! ## Nodes that stand in one place -/

/-- Nodes stand in one place each, literals apart. -/
def Apart (seen : List (Node × List Node)) : Prop := seen.Pairwise fun o o' => o.1.kind ≠ .value → o.1 ≠ o'.1

variable {seen : List (Node × List Node)} {n m : Node} {above above' : List Node} {d : Document} {source : Text}

theorem Apart.index_eq (h : Apart seen) {i j : Nat} (hi : seen[i]? = some (n, above)) (hj : seen[j]? = some (n, above'))
    (hn : n.kind ≠ .value) : i = j := by
  obtain ⟨hi, first⟩ := List.getElem?_eq_some_iff.1 hi
  obtain ⟨hj, second⟩ := List.getElem?_eq_some_iff.1 hj
  have apart := List.pairwise_iff_getElem.1 h
  rcases Nat.lt_trichotomy i j with less | same | more
  · exact absurd (by rw [first, second]) (apart i j hi hj less (by rw [first]; exact hn))
  · exact same
  · exact absurd (by rw [first, second]) (apart j i hj hi more (by rw [second]; exact hn))

theorem container?_of_not_mem (h : ∀ o ∈ seen, o.1 ≠ n) : container? seen n = none :=
  List.findSome?_eq_none_iff.2 fun o ho => if_neg (h o ho)

/-- The container of a node that stands in one place is the one that it has there. -/
theorem Apart.container? (h : Apart seen) (hn : n.kind ≠ .value) (mem : (n, above) ∈ seen) :
    container? seen n = above.head? := by
  obtain ⟨before, behind, rfl⟩ := List.append_of_mem mem
  obtain ⟨_, right, cross⟩ := List.pairwise_append.1 h
  have left : ∀ o ∈ before, o.1 ≠ n := fun o ho same => cross o ho _ List.mem_cons_self (same ▸ hn) same
  have other : ∀ o ∈ behind, o.1 ≠ n := fun o ho same => (List.pairwise_cons.1 right).1 o ho hn same.symm
  rw [container?_append, container?_of_not_mem left, Option.none_or, ← List.singleton_append, container?_append,
    container?_singleton, if_pos rfl, container?_of_not_mem other, Option.or_none]

/-- The container of any node is the one that it has in its first place. -/
theorem container?_of_find? {p : Node} {rest : List Node} (h : seen.find? (fun o => o.1 = n) = some (n, p :: rest)) :
    container? seen n = some p := by
  obtain ⟨_, before, behind, rfl, first⟩ := List.find?_eq_some_iff_append.1 h
  have left : ∀ o ∈ before, o.1 ≠ n := fun o ho => by simpa using first o ho
  rw [container?_append, container?_of_not_mem left, Option.none_or, ← List.singleton_append, container?_append,
    container?_singleton, if_pos rfl]
  rfl

namespace Document

/-- **In a document that is read from a text no node stands in two places, literals apart.** -/
theorem apart_places (h : parse source = .ok d) : Apart d.places := by
  obtain ⟨lo, hi, spread⟩ := spread_of_parse h
  unfold places
  rw [Node.occurrences_tree]
  refine .cons (fun o ho _ same => ?_) (spread.distinct _).1
  have less := Node.sizeOf_lt_of_mem_below ho
  rw [← same] at less
  exact Nat.lt_irrefl _ less

theorem container_mem {rest : List Node} (h : (n, m :: rest) ∈ d.places) : (m, rest) ∈ d.places ∧ n ∈ m.children :=
  Node.container_mem h

theorem grows_places (d : Document) : Grows d.places := by
  rintro ⟨n, above⟩ ho m hm
  obtain ⟨rest, rfl⟩ := List.head?_eq_some_iff.1 hm
  exact Node.sizeOf_child_lt (container_mem ho).2

/-- Nothing is contained in a literal. -/
theorem kind_ne_value {rest : List Node} (h : (n, m :: rest) ∈ d.places) : m.kind ≠ .value := by
  have child := (container_mem h).2
  intro value
  cases m with
  | value v => simp [Node.children] at child
  | _ => cases value

theorem exists_container {v : Literal} (h : (.value v, above) ∈ d.places) : ∃ p rest, above = p :: rest := by
  match above, h with
  | [], h =>
    have root := Node.root_of_mem h
    cases root
  | p :: rest, _ => exact ⟨p, rest, rfl⟩

end Document

/-! ## What the arena says -/

namespace Arena.Holds

variable {a : Arena Node} {i : Nat}

theorem has (h : Holds a seen) (mem : (n, above) ∈ seen) : Ancestry.has ⟨a⟩ n = true :=
  find?_isSome.2 (h.nodes.2 ⟨above, mem⟩)

theorem parent?_eq (h : Holds a seen) (mem : (n, above) ∈ seen) : Ancestry.parent? ⟨a⟩ n = container? seen n := by
  obtain ⟨i, hi⟩ := h.nodes.2 ⟨above, mem⟩
  rw [← h.parents hi]
  unfold Ancestry.parent?
  rw [show a.find? n = some i from h.find?_eq hi]
  rfl

/-- The way up from a slot leads through the slots of the containers. -/
theorem filterMap_climb (h : Holds a d.places) (apart : Apart d.places) : ∀ {above : List Node} {n : Node} {i k : Nat},
    (n, above) ∈ d.places → n.kind ≠ .value → a.value? i = some n → above.length ≤ k →
      (a.climb k i).filterMap a.value? = above
  | [], n, i, 0, _, _, _, _ => rfl
  | [], n, i, k + 1, mem, hn, hi, _ => by
    have top : a.parent? i = none := by
      rw [Option.eq_none_iff_forall_ne_some]
      intro p hp
      obtain ⟨m, _, hm⟩ := h.value?_parent hi hp
      rw [apart.container? hn mem] at hm
      cases hm
    unfold climb
    rw [top]
    rfl
  | m :: rest, n, i, k, mem, hn, hi, hk => by
    obtain ⟨k, rfl⟩ : ∃ l, k = l + 1 := ⟨k - 1, by rw [List.length_cons] at hk; omega⟩
    obtain ⟨p, hp, hm⟩ := h.exists_parent hi (apart.container? hn mem)
    have more := filterMap_climb h apart (Document.container_mem mem).1 (Document.kind_ne_value mem) hm
      (Nat.le_of_succ_le_succ hk)
    unfold climb
    rw [hp]
    simp only [List.filterMap_cons, hm, more]

/-- There are no more containers than slots. -/
theorem length_above_le (h : Holds a d.places) (mem : (n, above) ∈ d.places) : above.length ≤ a.size := by
  have larger := (List.pairwise_cons.1 (Node.sizeOf_above mem)).2
  have distinct : above.Nodup := larger.imp fun less => by rintro rfl; exact Nat.lt_irrefl _ less
  have known : ∀ {above : List Node} {n : Node}, (n, above) ∈ d.places → ∀ m ∈ above, ∃ i, a.value? i = some m := by
    intro above
    induction above with
    | nil => exact fun _ _ hm => absurd hm List.not_mem_nil
    | cons p rest ih =>
      intro n mem m hm
      have up := (Document.container_mem mem).1
      rcases List.mem_cons.1 hm with rfl | hm
      · exact h.nodes.2 ⟨rest, up⟩
      · exact ih up m hm
  have inside : above ⊆ a.slots.toList.map Slot.value := by
    intro m hm
    obtain ⟨i, hi⟩ := known mem m hm
    obtain ⟨s, hs, rfl⟩ := Option.map_eq_some_iff.1 hi
    exact List.mem_map_of_mem (Array.mem_toList_iff.2 (Array.mem_of_getElem? hs))
  have bound := distinct.length_le_of_subset inside
  rwa [List.length_map, Array.length_toList] at bound

theorem ancestors_eq (h : Holds a d.places) (apart : Apart d.places) (mem : (n, above) ∈ d.places)
    (hn : n.kind ≠ .value) : Ancestry.ancestors ⟨a⟩ n = above := by
  obtain ⟨i, hi⟩ := h.nodes.2 ⟨above, mem⟩
  unfold Ancestry.ancestors
  rw [show a.find? n = some i from h.find?_eq hi]
  exact h.filterMap_climb apart mem hn hi (h.length_above_le mem)

theorem exact (h : Holds a d.places) (apart : Apart d.places) : Ancestry.Exact ⟨a⟩ d where
  has _ _ mem := h.has mem
  sole i j n m above above' hi hj hn same := by
    obtain ⟨s, hs⟩ := h.nodes.2 ⟨above, List.mem_of_getElem? hi⟩
    rw [h.find?_eq hs] at same
    have held := value?_of_find? same.symm
    rw [hs] at held
    cases held
    exact apart.index_eq hi hj hn
  parent _ _ mem hn := (h.parent?_eq mem).trans (apart.container? hn mem)
  ancestors _ _ mem hn := h.ancestors_eq apart mem hn
  literal v above first := by
    have mem := List.mem_of_find?_eq_some first
    obtain ⟨p, rest, rfl⟩ := Document.exists_container mem
    exact ⟨p, rest, rfl, (h.parent?_eq mem).trans (container?_of_find? first)⟩

end Arena.Holds

/-- The index over any document can be built. -/
theorem Ancestry.exists_ofDocument (d : Document) : ∃ x, ofDocument d = .ok x ∧ x.arena.Holds d.places := by
  obtain ⟨a, entered, holds, _⟩ := Arena.enter_holds {} [] none [] (Node.document d).tree Arena.holds_empty
    (d.grows_places) (.inl ⟨rfl, rfl⟩)
  exact ⟨⟨a⟩, ofDocument_eq_ok_iff.2 entered, holds⟩

/-- **The index over a document that is read from a text leads from each node to just those that contain it.** -/
theorem ancestry_of_parse (h : parse source = .ok d) : ∃ x, Ancestry.ofDocument d = .ok x ∧ x.Exact d := by
  obtain ⟨x, made, holds⟩ := Ancestry.exists_ofDocument d
  exact ⟨x, made, holds.exact (Document.apart_places h)⟩

/-- One rule with the same literal in two places. -/
theorem ancestry_of_parse_sample : ∃ d x, parse "a = 1 / 1" = .ok d ∧ Ancestry.ofDocument d = .ok x ∧ x.Exact d := by
  have read : ∃ d, parse "a = 1 / 1" = .ok d ∧ decide (d.rules.length = 1) = true :=
    exists_parse (n := 6) (p := fun d => decide (d.rules.length = 1)) (by decide +kernel)
  obtain ⟨d, h, _⟩ := read
  obtain ⟨x, made, exact⟩ := ancestry_of_parse h
  exact ⟨d, x, h, made, exact⟩

end Cddl
