import Cddl.Proofs.Occurrence
import Cddl.Proofs.Phrase.Rule
import Cddl.Proofs.Token.Feed
/-!
# Where nodes stand in a text

Siblings that are read from a text start one after the other, with everything below the first before everything below
the second.  `Spread lo ns hi` says so of the nodes `ns`, which start between the offsets `lo` and `hi`.  A literal has
no place of its own.  A group choice without entries starts where the next token does, so a group is given the room up
to behind the start of the token after it.
-/
namespace Cddl

/-! ## Nodes in their order -/

inductive Spread : Int → List Node → Int → Prop
  | nil {lo hi : Int} (h : lo ≤ hi) : Spread lo [] hi
  | value {v : Literal} {ns : List Node} {lo hi : Int} (rest : Spread lo ns hi) : Spread lo (.value v :: ns) hi
  | node {n : Node} {s : Span} {ns : List Node} {lo mid hi : Int} (span : n.span = some s) (low : lo ≤ s.start.offset)
      (high : s.start.offset < mid) (below : Spread lo n.children mid) (rest : Spread mid ns hi) :
      Spread lo (n :: ns) hi

namespace Spread

variable {lo mid hi lo' hi' : Int} {n : Node} {s : Span} {ns ms : List Node}

theorem mono (h : Spread lo ns hi) : lo' ≤ lo → hi ≤ hi' → Spread lo' ns hi' := by
  intro low high
  induction h generalizing lo' hi' with
  | nil h => exact .nil (by omega)
  | value _ ih => exact .value (ih low high)
  | node span low' high' _ _ ihb ihr =>
    exact .node span (by omega) high' (ihb low (Int.le_refl _)) (ihr (Int.le_refl _) high)

theorem append (h : Spread lo ns mid) (h' : Spread mid ms hi) : Spread lo (ns ++ ms) hi := by
  induction h with
  | nil h => exact h'.mono h (Int.le_refl _)
  | value _ ih => exact .value (ih h')
  | node span low high below _ _ ih => exact .node span low high below (ih h')

theorem one (span : n.span = some s) (low : lo ≤ s.start.offset) (high : s.start.offset < hi)
    (below : Spread lo n.children hi) : Spread lo [n] hi := .node span low high below (.nil (Int.le_refl _))

theorem le (h : Spread lo ns hi) : lo ≤ hi := by
  induction h with
  | nil h => exact h
  | value _ ih => exact ih
  | node _ low high _ _ _ ih => omega

/-- A node that stands alone, with what is below it. -/
theorem inv (h : Spread lo [n] hi) (hn : n.kind ≠ .value) :
    ∃ s, n.span = some s ∧ lo ≤ s.start.offset ∧ s.start.offset < hi ∧ Spread lo n.children hi := by
  cases h with
  | value => exact absurd rfl hn
  | node span low high below rest =>
    have := rest.le
    exact ⟨_, span, low, by omega, below.mono (Int.le_refl _) this⟩

open Cddl.Tree

/-- **Nodes in their order stand in one place each.** -/
theorem distinct (h : Spread lo ns hi) : ∀ above : List Node,
    (occurrencesAll above (ns.map Node.tree)).Pairwise (fun o o' => o.1.kind ≠ .value → o.1 ≠ o'.1) ∧
      ∀ o ∈ occurrencesAll above (ns.map Node.tree), o.1.kind ≠ .value →
        ∃ s, o.1.span = some s ∧ lo ≤ s.start.offset ∧ s.start.offset < hi := by
  induction h with
  | nil h => exact fun above => ⟨.nil, fun o ho => absurd ho List.not_mem_nil⟩
  | @value v ns lo hi _ ih =>
    intro above
    obtain ⟨pairs, places⟩ := ih above
    rw [List.map_cons, occurrencesAll, Node.occurrences_tree]
    refine ⟨.cons (fun o _ hv => absurd rfl hv) pairs, fun o ho hv => ?_⟩
    rcases List.mem_cons.1 ho with rfl | ho
    · exact absurd rfl hv
    · exact places o ho hv
  | @node n s ns lo mid hi span low high below rest ihb ihr =>
    intro above
    obtain ⟨pairs, places⟩ := ihb (n :: above)
    obtain ⟨pairs', places'⟩ := ihr above
    have left := below.le
    have right := rest.le
    have first : ∀ o ∈ occurrences above n.tree, o.1.kind ≠ .value →
        ∃ s, o.1.span = some s ∧ lo ≤ s.start.offset ∧ s.start.offset < mid := by
      intro o ho hv
      rw [Node.occurrences_tree] at ho
      rcases List.mem_cons.1 ho with rfl | ho
      · exact ⟨s, span, low, high⟩
      · exact places o ho hv
    rw [List.map_cons, occurrencesAll]
    refine ⟨List.pairwise_append.2 ⟨?_, pairs', fun o ho o' ho' hv heq => ?_⟩, fun o ho hv => ?_⟩
    · rw [Node.occurrences_tree]
      refine .cons (fun o ho _ heq => ?_) pairs
      have less := Node.sizeOf_lt_of_mem_below ho
      rw [← heq] at less
      exact Nat.lt_irrefl _ less
    · obtain ⟨t, ht, _, before⟩ := first o ho hv
      obtain ⟨t', ht', after, _⟩ := places' o' ho' (heq ▸ hv)
      rw [heq, ht'] at ht
      cases ht
      omega
    · rcases List.mem_append.1 ho with ho | ho
      · obtain ⟨t, ht, low, high⟩ := first o ho hv
        exact ⟨t, ht, low, by omega⟩
      · obtain ⟨t, ht, low, high⟩ := places' o ho hv
        exact ⟨t, ht, by omega, high⟩

end Spread

/-! ## Tokens in their order -/

/-- Tokens as they are read from a text. -/
def Laid (ts : List Token) : Prop :=
  ts.Pairwise (fun t u => t.stop.offset ≤ u.location.offset) ∧ ∀ t ∈ ts, t.Read

def startOf : List Token → Int
  | [] => 0
  | t :: _ => t.location.offset

theorem offset_over (pre : Location) (ts after : List Token) :
    (Span.over pre ts after).start.offset = startOf (ts ++ after) := by
  unfold Span.over
  cases ts ++ after <;> rfl

namespace Laid

variable {t : Token} {ts us : List Token}

theorem right (h : Laid (ts ++ us)) : Laid us :=
  ⟨(List.pairwise_append.1 h.1).2.1, fun t ht => h.2 t (List.mem_append_right _ ht)⟩

theorem tail (h : Laid (t :: ts)) : Laid ts := @right [t] ts h

theorem length_pos (h : t.Read) (more : t.is .endOfInput = false) : 0 < t.text.length := by
  obtain ⟨u, r, n, _, text⟩ := h.exists_scan more
  rw [text, List.length_cons]
  omega

theorem stop_le (h : Laid (t :: ts)) (hts : ts ≠ []) : t.stop.offset ≤ startOf ts := by
  obtain ⟨u, us, rfl⟩ := List.exists_cons_of_ne_nil hts
  exact (List.pairwise_cons.1 h.1).1 u List.mem_cons_self

theorem start_lt (h : Laid (t :: ts)) (more : t.is .endOfInput = false) (hts : ts ≠ []) :
    t.location.offset < startOf ts := by
  have stop := h.stop_le hts
  have pos := length_pos (h.2 t List.mem_cons_self) more
  simp only [Token.stop, Location.shift] at stop
  omega

theorem start_le : ∀ {ts : List Token}, Laid (ts ++ us) → Unended ts → us ≠ [] → startOf (ts ++ us) ≤ startOf us
  | [], _, _, _ => Int.le_refl _
  | t :: ts, h, hts, hus => by
    have first := h.start_lt (unended_cons.1 hts).1 (List.append_ne_nil_of_right_ne_nil _ hus)
    have rest := start_le h.tail (unended_cons.1 hts).2 hus
    exact Int.le_trans (Int.le_of_lt first) rest

theorem start_lt_of_ne_nil (h : Laid (ts ++ us)) (hts : Unended ts) (hne : ts ≠ []) (hus : us ≠ []) :
    startOf (ts ++ us) < startOf us := by
  obtain ⟨t, rest, rfl⟩ := List.exists_cons_of_ne_nil hne
  have first := h.start_lt (unended_cons.1 hts).1 (List.append_ne_nil_of_right_ne_nil _ hus)
  exact Int.lt_of_lt_of_le first (h.tail.start_le (unended_cons.1 hts).2 hus)

end Laid
end Cddl
