import Cddl.Proofs.Placement.Phrase
/-!
# What the stretch of a node contains

A node's stretch lies around those of the nodes below it, and of nodes side by side the first ends before the second
starts.  `Fit lo ns hi` says so of the nodes `ns` in the stretch between two offsets.  A group choice without entries
has a stretch that is turned around, from the next token back to the end of the one before; it fits in all the same, as
no stretch is asked to start before it ends.
-/
namespace Cddl

/-! ## Nodes in a stretch -/

inductive Fit : Int → List Node → Int → Prop
  | nil {lo hi : Int} : Fit lo [] hi
  | value {v : Literal} {ns : List Node} {lo hi : Int} (rest : Fit lo ns hi) : Fit lo (.value v :: ns) hi
  | node {n : Node} {s : Span} {ns : List Node} {lo hi : Int} (span : n.span = some s) (low : lo ≤ s.start.offset)
      (high : s.stop.offset ≤ hi) (below : Fit s.start.offset n.children s.stop.offset)
      (rest : Fit (max lo s.stop.offset) ns hi) : Fit lo (n :: ns) hi

/-- The stretch of a node, where it has one, is around those right below it, and they stand one behind the other. -/
structure Node.Contains (n : Node) : Prop where
  around : ∀ c ∈ n.children, ∀ s t, n.span = some s → c.span = some t →
    s.start.offset ≤ t.start.offset ∧ t.stop.offset ≤ s.stop.offset
  apart : n.children.Pairwise fun c c' => ∀ s t, c.span = some s → c'.span = some t → s.stop.offset ≤ t.start.offset

namespace Fit

variable {lo mid mid' hi lo' hi' : Int} {n c : Node} {s t : Span} {ns ms : List Node}

theorem mono (h : Fit lo ns hi) : lo' ≤ lo → hi ≤ hi' → Fit lo' ns hi' := by
  intro low high
  induction h generalizing lo' hi' with
  | nil => exact .nil
  | value _ ih => exact .value (ih low high)
  | node span low' high' below _ _ ih =>
    exact .node span (Int.le_trans low low') (Int.le_trans high' high) below (ih (by omega) high)

theorem one (span : n.span = some s) (low : lo ≤ s.start.offset) (high : s.stop.offset ≤ hi)
    (below : Fit s.start.offset n.children s.stop.offset) : Fit lo [n] hi := .node span low high below .nil

theorem append (h : Fit lo ns mid) (h' : Fit mid' ms hi) (left : lo ≤ mid') (behind : mid ≤ mid') (high : mid ≤ hi) :
    Fit lo (ns ++ ms) hi := by
  induction h with
  | nil => exact h'.mono left (Int.le_refl _)
  | value _ ih => exact .value (ih left behind high)
  | node span low inside below _ _ ih =>
    exact .node span low (Int.le_trans inside high) below (ih (by omega) behind high)

/-- A node that stands alone, with what is below it. -/
theorem inv (h : Fit lo [n] hi) (hn : n.kind ≠ .value) :
    ∃ s, n.span = some s ∧ lo ≤ s.start.offset ∧ s.stop.offset ≤ hi ∧ Fit s.start.offset n.children s.stop.offset := by
  cases h with
  | value => exact absurd rfl hn
  | node span low high below _ => exact ⟨_, span, low, high, below⟩

theorem within (h : Fit lo ns hi) (hc : c ∈ ns) (span : c.span = some t) :
    lo ≤ t.start.offset ∧ t.stop.offset ≤ hi := by
  induction h with
  | nil => cases hc
  | value _ ih =>
    rcases List.mem_cons.1 hc with rfl | hc
    · cases span
    · exact ih hc
  | node span' low high _ _ _ ih =>
    rcases List.mem_cons.1 hc with rfl | hc
    · rw [span'] at span
      cases span
      exact ⟨low, high⟩
    · exact ⟨Int.le_trans (Int.le_max_left _ _) (ih hc).1, (ih hc).2⟩

theorem apart (h : Fit lo ns hi) :
    ns.Pairwise fun c c' => ∀ s t, c.span = some s → c'.span = some t → s.stop.offset ≤ t.start.offset := by
  induction h with
  | nil => exact .nil
  | value _ ih => exact .cons (fun c _ s t span => by cases span) ih
  | node span _ _ _ rest _ ih =>
    refine .cons (fun c hc s t hs ht => ?_) ih
    rw [span] at hs
    cases hs
    exact Int.le_trans (Int.le_max_right _ _) (rest.within hc ht).1

open Cddl.Tree

/-- **Every node contains those below it.** -/
theorem contains (h : Fit lo ns hi) : ∀ above : List Node,
    ∀ o ∈ occurrencesAll above (ns.map Node.tree), o.1.Contains := by
  induction h with
  | nil => exact fun _ _ ho => absurd ho List.not_mem_nil
  | @value v ns lo hi _ ih =>
    intro above o ho
    rw [List.map_cons, occurrencesAll, Node.occurrences_tree] at ho
    rcases List.mem_cons.1 ho with rfl | ho
    · exact ⟨fun c hc => absurd hc List.not_mem_nil, .nil⟩
    · exact ih above o ho
  | @node n s ns lo hi span _ _ below _ ihb ih =>
    intro above o ho
    rw [List.map_cons, occurrencesAll, Node.occurrences_tree] at ho
    rcases List.mem_append.1 ho with ho | ho
    · rcases List.mem_cons.1 ho with rfl | ho
      · refine ⟨fun c hc s' t hs ht => ?_, below.apart⟩
        rw [span] at hs
        cases hs
        exact below.within hc ht
      · exact ihb (n :: above) o ho
    · exact ih above o ho

end Fit

/-! ## The order of a visit -/

/-- The stretches of some nodes and of all nodes below them, in the order of a visit. -/
def spans (ns : List Node) : List Span := (Tree.preorders (ns.map Node.tree)).filterMap Node.span

theorem spans_cons (n : Node) (ns : List Node) :
    spans (n :: ns) = n.span.toList ++ (spans n.children ++ spans ns) := by
  unfold spans
  rw [List.map_cons, Tree.preorders, List.filterMap_append, Node.tree_eq, Tree.preorder, List.filterMap_cons]
  cases n.span <;> simp

/-- **Nodes that fit in and stand in their order start one after the other in the order of a visit.** -/
theorem Spread.ordered {lo hi : Int} {ns : List Node} (h : Spread lo ns hi) : ∀ {lo' hi' : Int}, Fit lo' ns hi' →
    (spans ns).Pairwise (·.start.offset ≤ ·.start.offset) ∧
      ∀ s ∈ spans ns, lo ≤ s.start.offset ∧ lo' ≤ s.start.offset ∧ s.start.offset < hi := by
  induction h with
  | nil => exact fun _ => ⟨.nil, fun s hs => absurd hs List.not_mem_nil⟩
  | @value v ns lo hi _ ih =>
    intro lo' hi' fit
    cases fit with
    | node span => cases span
    | value rest =>
      have same : spans (.value v :: ns) = spans ns := spans_cons _ _
      rw [same]
      exact ih rest
  | @node n s ns lo mid hi span low high below rest ihb ih =>
    intro lo' hi' fit
    cases fit with
    | value => cases span
    | node span' low' high' below' rest' =>
      rw [span] at span'
      cases span'
      obtain ⟨inner, bounds⟩ := ihb below'
      obtain ⟨others, bounds'⟩ := ih rest'
      have left := below.le
      have right := rest.le
      have all : spans (n :: ns) = s :: (spans n.children ++ spans ns) := by rw [spans_cons, span]; rfl
      rw [all]
      refine ⟨.cons (fun t ht => ?_) (List.pairwise_append.2 ⟨inner, others, fun t ht u hu => ?_⟩), fun t ht => ?_⟩
      · rcases List.mem_append.1 ht with ht | ht
        · exact (bounds t ht).2.1
        · exact Int.le_of_lt (Int.lt_of_lt_of_le high (bounds' t ht).1)
      · exact Int.le_of_lt (Int.lt_of_lt_of_le (bounds t ht).2.2 (bounds' u hu).1)
      · rcases List.mem_cons.1 ht with rfl | ht
        · exact ⟨low, low', Int.lt_of_lt_of_le high right⟩
        rcases List.mem_append.1 ht with ht | ht
        · obtain ⟨first, second, third⟩ := bounds t ht
          exact ⟨first, Int.le_trans low' second, Int.lt_of_lt_of_le third right⟩
        · obtain ⟨first, second, third⟩ := bounds' t ht
          exact ⟨Int.le_trans left first, Int.le_trans (Int.le_max_left _ _) second, third⟩

end Cddl
