import Cddl.Ancestry
import Cddl.Proofs.Arena
import Cddl.Proofs.Except
import Cddl.Proofs.Occurrence
/-!
# What the index over a document records

Entering a tree goes through its occurrences in their order.  `Arena.Holds` is what is true of the arena after any
number of them: it has a slot for each node met so far, and a slot's parent is the container in which its node was met
first.
-/
namespace Cddl

/-- The container of the first occurrence of a node that has one. -/
def container? (seen : List (Node × List Node)) (n : Node) : Option Node :=
  seen.findSome? fun o => if o.1 = n then o.2.head? else none

/-- A node is smaller than what directly contains it. -/
def Grows (seen : List (Node × List Node)) : Prop :=
  ∀ o ∈ seen, ∀ m, o.2.head? = some m → sizeOf o.1 < sizeOf m

variable {seen more : List (Node × List Node)} {n m : Node} {above : List Node}

theorem container?_append : container? (seen ++ more) n = (container? seen n).or (container? more n) :=
  List.findSome?_append

theorem container?_singleton : container? [(m, above)] n = if m = n then above.head? else none := by
  unfold container?
  rw [List.findSome?_cons, List.findSome?_nil]
  split <;> rename_i h <;> exact h.symm

theorem ite_head?_nil {c : Prop} [Decidable c] : (if c then ([] : List Node).head? else none) = none := by
  split <;> rfl

theorem exists_mem_concat : (∃ above', (m, above') ∈ seen ++ [(n, above)]) ↔ (∃ above, (m, above) ∈ seen) ∨ m = n := by
  constructor
  · rintro ⟨above', mem⟩
    rcases List.mem_append.1 mem with mem | mem
    · exact .inl ⟨above', mem⟩
    · cases List.mem_singleton.1 mem
      exact .inr rfl
  · rintro (⟨above', mem⟩ | rfl)
    · exact ⟨above', List.mem_append_left _ mem⟩
    · exact ⟨above, List.mem_append_right _ List.mem_cons_self⟩

theorem exists_of_container? (h : container? seen n = some m) : ∃ above, (n, m :: above) ∈ seen := by
  obtain ⟨⟨n', above⟩, mem, heq⟩ := List.exists_of_findSome?_eq_some h
  split at heq
  · rename_i same
    obtain ⟨rest, rfl⟩ := List.head?_eq_some_iff.1 heq
    exact ⟨rest, same ▸ mem⟩
  · cases heq

theorem Grows.container? (hs : Grows seen) (h : container? seen n = some m) : sizeOf n < sizeOf m := by
  obtain ⟨above, mem⟩ := exists_of_container? h
  exact hs _ mem m rfl

namespace Arena

/-- The nodes that occur in a list have slots, one each, and the links are those to their first containers. -/
structure Holds (a : Arena Node) (seen : List (Node × List Node)) : Prop where
  distinct {i j : Nat} {n : Node} : a.value? i = some n → a.value? j = some n → i = j
  nodes {n : Node} : (∃ i, a.value? i = some n) ↔ ∃ above, (n, above) ∈ seen
  parents {i : Nat} {n : Node} : a.value? i = some n → (a.parent? i).bind a.value? = container? seen n
  linked {i p : Nat} : a.parent? i = some p → p < a.size

variable {a b : Arena Node} {i p c : Nat}

theorem holds_empty : Holds {} [] where
  distinct h := by cases h
  nodes := ⟨fun ⟨_, h⟩ => (by cases h), fun ⟨_, h⟩ => absurd h List.not_mem_nil⟩
  parents h := by cases h
  linked h := by cases h

namespace Holds

theorem find?_eq (h : Holds a seen) (hi : a.value? i = some n) : a.find? n = some i := by
  obtain ⟨j, hj⟩ := Option.isSome_iff_exists.1 (find?_isSome.2 ⟨i, hi⟩)
  rw [hj, h.distinct (value?_of_find? hj) hi]

theorem exists_parent (h : Holds a seen) (hi : a.value? i = some n) (hm : container? seen n = some m) :
    ∃ p, a.parent? i = some p ∧ a.value? p = some m := by
  rw [← h.parents hi] at hm
  exact Option.bind_eq_some_iff.1 hm

theorem value?_parent (h : Holds a seen) (hi : a.value? i = some n) (hp : a.parent? i = some p) :
    ∃ m, a.value? p = some m ∧ container? seen n = some m := by
  obtain ⟨m, hm⟩ := exists_value? (h.linked hp)
  refine ⟨m, hm, ?_⟩
  rw [← h.parents hi, hp]
  exact hm

/-- A node that is met keeps every link as it is. -/
theorem intern (h : Holds a seen) (n : Node) : Holds (a.intern n).2 (seen ++ [(n, [])]) where
  distinct {i j m} hi hj := by
    rw [value?_intern_iff] at hi hj
    rcases hi with hi | ⟨rfl, new, rfl⟩
    · rcases hj with hj | ⟨rfl, new, _⟩
      · exact h.distinct hi hj
      · rw [h.find?_eq hi] at new
        cases new
    · rcases hj with hj | ⟨_, _, rfl⟩
      · rw [h.find?_eq hj] at new
        cases new
      · rfl
  nodes {m} := by
    constructor
    · rintro ⟨i, hi⟩
      rcases value?_intern_iff.1 hi with hi | ⟨rfl, _⟩
      · obtain ⟨above, mem⟩ := h.nodes.1 ⟨i, hi⟩
        exact ⟨above, List.mem_append_left _ mem⟩
      · exact ⟨[], List.mem_append_right _ List.mem_cons_self⟩
    · rintro ⟨above, mem⟩
      rcases List.mem_append.1 mem with mem | mem
      · obtain ⟨i, hi⟩ := h.nodes.2 ⟨above, mem⟩
        exact ⟨i, value?_intern_of_some hi⟩
      · cases List.mem_singleton.1 mem
        exact ⟨_, value?_intern n⟩
  parents {i m} hi := by
    have same : container? (seen ++ [(n, [])]) m = container? seen m := by
      rw [container?_append, container?_singleton]
      split <;> exact Option.or_none
    rw [same, parent?_intern]
    rcases value?_intern_iff.1 hi with hi | ⟨rfl, new, rfl⟩
    · cases hp : a.parent? i with
      | none => rw [← h.parents hi, hp]; rfl
      | some p =>
        obtain ⟨k, hk, hc⟩ := h.value?_parent hi hp
        rw [hc]
        exact value?_intern_of_some hk
    · -- a new slot has no parent, and its node was in no container before
      have top : a.parent? a.size = none := by
        rw [Option.eq_none_iff_forall_ne_some]
        intro p hp
        exact absurd (lt_size_of_parent? hp) (Nat.lt_irrefl _)
      have unmet : container? seen m = none := by
        rw [Option.eq_none_iff_forall_ne_some]
        intro k hk
        obtain ⟨above, mem⟩ := exists_of_container? hk
        obtain ⟨i, hi⟩ := h.nodes.2 ⟨_, mem⟩
        rw [h.find?_eq hi] at new
        cases new
      rw [top, unmet]
      rfl
  linked {i p} hp := by
    rw [parent?_intern] at hp
    obtain ⟨m, hm⟩ := exists_value? (h.linked hp)
    exact lt_size_of_value? (value?_intern_of_some hm)

/-- What is above a slot is larger than what the slot holds. -/
theorem sizeOf_lt_of_mem_climb (h : Holds a seen) (hs : Grows seen) : ∀ {k i q : Nat} {n : Node},
    a.value? i = some n → q ∈ a.climb k i → ∃ m, a.value? q = some m ∧ sizeOf n < sizeOf m
  | 0, _, _, _, _, hq => absurd hq List.not_mem_nil
  | k + 1, i, q, n, hi, hq => by
    unfold climb at hq
    split at hq
    · rename_i p hp
      obtain ⟨m, hm, hc⟩ := h.value?_parent hi hp
      have less := hs.container? hc
      rcases List.mem_cons.1 hq with rfl | hq
      · exact ⟨m, hm, less⟩
      · obtain ⟨m', hm', less'⟩ := sizeOf_lt_of_mem_climb h hs hm hq
        exact ⟨m', hm', Nat.lt_trans less less'⟩
    · exact absurd hq List.not_mem_nil

/-- A link from a node to a larger one is not refused. -/
theorem exists_link (h : Holds a seen) (hs : Grows seen) (hp : a.value? p = some m) (hc : a.value? c = some n)
    (less : sizeOf n < sizeOf m) : ∃ b, a.link p c = .ok b := by
  have apart : c ≠ p := by
    rintro rfl
    rw [hp] at hc
    cases hc
    exact absurd less (Nat.lt_irrefl _)
  have above : c ∉ a.ancestors p := by
    intro mem
    obtain ⟨m', hm', less'⟩ := h.sizeOf_lt_of_mem_climb hs hp mem
    rw [hc] at hm'
    cases hm'
    omega
  exact link_ok (lt_size_of_value? hp) (lt_size_of_value? hc) apart above

/-- Linked to its container, a node that was met on its own is one that was met there. -/
theorem link (h : Holds a (seen ++ [(n, [])])) (hs : Grows (seen ++ [(n, [])])) (hp : a.value? p = some m)
    (hc : a.value? c = some n) (less : sizeOf n < sizeOf m) (rest : List Node) :
    ∃ b, a.link p c = .ok b ∧ Holds b (seen ++ [(n, m :: rest)]) ∧ ∀ i, b.value? i = a.value? i := by
  obtain ⟨b, hb⟩ := h.exists_link hs hp hc less
  have values : ∀ i, b.value? i = a.value? i := fun i => value?_link hb
  refine ⟨b, hb, ⟨?_, ?_, ?_, ?_⟩, values⟩
  · intro i j k hi hj
    rw [values] at hi hj
    exact h.distinct hi hj
  · intro k
    simp only [values]
    rw [h.nodes, exists_mem_concat, exists_mem_concat]
  · intro i k hi
    rw [values] at hi
    have before := h.parents hi
    rw [container?_append, container?_singleton, ite_head?_nil, Option.or_none] at before
    have same : b.value? = a.value? := funext values
    rw [container?_append, container?_singleton, ← before, same, parent?_link hb]
    by_cases hic : i = c
    · subst hic
      rw [hc] at hi
      cases hi
      rw [if_pos rfl, if_pos rfl]
      cases hq : a.parent? i with
      | none => exact hp
      | some q =>
        obtain ⟨x, hx, _⟩ := h.value?_parent hc hq
        exact hx.trans (by rw [Option.bind_some, hx]; rfl)
    · have other : n ≠ k := by
        rintro rfl
        exact hic (h.distinct hi hc)
      rw [if_neg hic, if_neg other, Option.or_none]
  · intro i q hq
    have known (hq : a.parent? i = some q) : q < b.size := by
      obtain ⟨x, hx⟩ := exists_value? (h.linked hq)
      exact lt_size_of_value? ((values q).trans hx)
    rw [parent?_link hb] at hq
    split at hq
    · cases hi : a.parent? i with
      | none =>
        rw [hi] at hq
        cases hq
        exact lt_size_of_value? ((values p).trans hp)
      | some q' =>
        rw [hi] at hq
        cases hq
        exact known hi
    · exact known hq

end Holds

/-! ## Entering trees -/

/-- A tree is entered below the slot of its container, if it has one. -/
def Below (a : Arena Node) (parent : Option Nat) (above : List Node) : Prop :=
  (parent = none ∧ above = []) ∨ ∃ p m rest, parent = some p ∧ above = m :: rest ∧ a.value? p = some m

def enterLink (parent : Option Nat) (i : Nat) (a : Arena Node) : Except LinkFault (Arena Node) :=
  match parent with
  | some p => a.link p i
  | none => pure a

theorem enter_node (parent : Option Nat) (n : Node) (ts : List (Tree Node)) (a : Arena Node) :
    enter parent (.node n ts) a =
      (enterLink parent (a.intern n).1 (a.intern n).2).bind (enterAll (a.intern n).1 ts) := by
  rw [enter]
  cases parent <;> rfl

/-- A tree is entered where its node can be linked and its branches can be entered below that. -/
theorem enter_node_eq_ok_iff {parent : Option Nat} {n : Node} {ts : List (Tree Node)} {a b : Arena Node} :
    enter parent (.node n ts) a = .ok b ↔
      ∃ c, enterLink parent (a.intern n).1 (a.intern n).2 = .ok c ∧ enterAll (a.intern n).1 ts c = .ok b := by
  rw [enter_node]
  exact bind_eq_ok_iff

theorem enterAll_cons_eq_ok_iff {p : Nat} {t : Tree Node} {ts : List (Tree Node)} {a b : Arena Node} :
    enterAll p (t :: ts) a = .ok b ↔ ∃ c, enter (some p) t a = .ok c ∧ enterAll p ts c = .ok b := by
  rw [enterAll]
  exact bind_eq_ok_iff

mutual

/-- **No link is refused while a tree is entered.** -/
theorem enter_holds (a : Arena Node) (seen : List (Node × List Node)) (parent : Option Nat) (above : List Node) :
    ∀ t : Tree Node, Holds a seen → Grows (seen ++ Tree.occurrences above t) → Below a parent above →
      ∃ b, enter parent t a = .ok b ∧ Holds b (seen ++ Tree.occurrences above t) ∧
        ∀ i n, a.value? i = some n → b.value? i = some n
  | .node n ts, h, hs, hb => by
    have split : seen ++ Tree.occurrences above (.node n ts) =
        (seen ++ [(n, above)]) ++ Tree.occurrencesAll (n :: above) ts := by
      rw [Tree.occurrences, List.append_assoc]
      rfl
    rw [split] at hs ⊢
    have met : Grows (seen ++ [(n, above)]) := fun o ho => hs o (List.mem_append_left _ ho)
    have interned := h.intern n
    have slot := value?_intern (a := a) n
    -- the slot is linked below that of the container, if there is one
    obtain ⟨b, hb, hold, kept⟩ : ∃ b, enterLink parent (a.intern n).1 (a.intern n).2 = .ok b ∧
        Holds b (seen ++ [(n, above)]) ∧ ∀ i, b.value? i = (a.intern n).2.value? i := by
      rcases hb with ⟨rfl, rfl⟩ | ⟨p, m, rest, rfl, rfl, hp⟩
      · exact ⟨_, rfl, interned, fun _ => rfl⟩
      · have less : sizeOf n < sizeOf m := met _ (List.mem_append_right _ List.mem_cons_self) m rfl
        have grows : Grows (seen ++ [(n, [])]) := by
          intro o ho
          rcases List.mem_append.1 ho with ho | ho
          · exact met o (List.mem_append_left _ ho)
          · cases List.mem_singleton.1 ho
            exact fun _ h => by cases h
        exact interned.link grows (value?_intern_of_some hp) slot less rest
    obtain ⟨c, hc, hold', kept'⟩ := enterAll_holds b _ (a.intern n).1 n above ts hold hs ((kept _).trans slot)
    exact ⟨c, enter_node_eq_ok_iff.2 ⟨b, hb, hc⟩, hold',
      fun i m hi => kept' i m ((kept i).trans (value?_intern_of_some hi))⟩

theorem enterAll_holds (a : Arena Node) (seen : List (Node × List Node)) (p : Nat) (m : Node) (rest : List Node) :
    ∀ ts : List (Tree Node), Holds a seen → Grows (seen ++ Tree.occurrencesAll (m :: rest) ts) → a.value? p = some m →
      ∃ b, enterAll p ts a = .ok b ∧ Holds b (seen ++ Tree.occurrencesAll (m :: rest) ts) ∧
        ∀ i n, a.value? i = some n → b.value? i = some n
  | [], h, _, _ => ⟨a, rfl, by rw [Tree.occurrencesAll, List.append_nil]; exact h, fun _ _ h => h⟩
  | t :: ts, h, hs, hp => by
    rw [Tree.occurrencesAll, ← List.append_assoc] at hs
    have first : Grows (seen ++ Tree.occurrences (m :: rest) t) := fun o ho => hs o (List.mem_append_left _ ho)
    obtain ⟨b, hb, hold, kept⟩ := enter_holds a seen (some p) (m :: rest) t h first (.inr ⟨p, m, rest, rfl, rfl, hp⟩)
    obtain ⟨c, hc, hold', kept'⟩ := enterAll_holds b _ p m rest ts hold hs (kept _ _ hp)
    refine ⟨c, enterAll_cons_eq_ok_iff.2 ⟨b, hb, hc⟩, ?_, fun i n hi => kept' i n (kept i n hi)⟩
    rw [Tree.occurrencesAll, ← List.append_assoc]
    exact hold'

end

end Arena

/-- The index over a document is there where the tree of the document can be entered. -/
theorem Ancestry.ofDocument_eq_ok_iff {d : Document} {x : Ancestry} :
    ofDocument d = .ok x ↔ Arena.enter none (Node.document d).tree {} = .ok x.arena := by
  unfold ofDocument
  cases Arena.enter none (Node.document d).tree {} with
  | error f => exact ⟨nofun, nofun⟩
  | ok a => exact ⟨fun h => (by cases h; rfl), fun h => (by cases h; rfl)⟩

end Cddl
