import Cddl.Proofs.Ancestry.Document
import Cddl.Proofs.Containment
import Mathlib.Data.List.Induction
import Mathlib.Data.List.Nodup
/-!
# What the index over a document lists

A slot is made when its node is met first, and a link is added when a node is met below another for the first time.  So
the slots are the nodes of a visit without the repeats, and what is linked below a slot is what its node directly
contains without the repeats.  `Arena.Lists` says so after any number of places; it holds of every document, also of one
in which equal nodes stand in many places (`ancestry_lists`).
-/
namespace Cddl

open Cddl.Tree

/-! ## Lists without their repeats -/

section

variable {α : Type} [DecidableEq α] {l l' : List α} {x : α}

theorem eraseDups_concat (l : List α) (x : α) :
    (l ++ [x]).eraseDups = if x ∈ l then l.eraseDups else l.eraseDups ++ [x] := by
  rw [List.eraseDups_append, List.removeAll]
  by_cases h : x ∈ l
  · rw [if_pos h, List.filter_cons_of_neg (by simpa using h), List.filter_nil, List.eraseDups_nil, List.append_nil]
  · rw [if_neg h, List.filter_cons_of_pos (by simpa using h), List.filter_nil, List.eraseDups_cons, List.filter_nil,
      List.eraseDups_nil]

theorem nodup_eraseDups (l : List α) : l.eraseDups.Nodup := by
  induction l using List.reverseRecOn with
  | nil => exact .nil
  | append_singleton l x ih =>
    rw [eraseDups_concat]
    by_cases h : x ∈ l
    · rw [if_pos h]
      exact ih
    · rw [if_neg h]
      apply ih.append (List.nodup_singleton x)
      rw [List.disjoint_singleton]
      exact fun mem => h (List.mem_eraseDups.1 mem)

theorem eraseDups_append_of_subset (h : l' ⊆ l) : (l ++ l').eraseDups = l.eraseDups := by
  have none : l'.removeAll l = [] := List.filter_eq_nil_iff.2 fun x hx => by simpa using h hx
  rw [List.eraseDups_append, none, List.eraseDups_nil, List.append_nil]

/-- Lists that are all empty or the same without their repeats are so one behind the other. -/
theorem eraseDups_flatMap {β : Type} (f : β → List α) (e : List α) : ∀ xs : List β,
    (∀ x ∈ xs, f x = [] ∨ (f x).eraseDups = e) → xs.flatMap f = [] ∨ (xs.flatMap f).eraseDups = e
  | [], _ => .inl rfl
  | x :: xs, h => by
    have first := h x List.mem_cons_self
    have others := eraseDups_flatMap f e xs fun y hy => h y (List.mem_cons_of_mem _ hy)
    rw [List.flatMap_cons]
    rcases first with first | first
    · rw [first, List.nil_append]
      exact others
    rcases others with others | others
    · rw [others, List.append_nil]
      exact .inr first
    · have inside : xs.flatMap f ⊆ f x := fun y hy => by
        rw [← List.mem_eraseDups, first, ← others, List.mem_eraseDups]
        exact hy
      exact .inr ((eraseDups_append_of_subset inside).trans first)

end

/-! ## What nodes contain in the places of a visit -/

/-- The nodes that a node directly contains in some places, one for each of the places. -/
def contents (seen : List (Node × List Node)) (n : Node) : List Node :=
  (seen.filter fun o => o.2.head? = some n).map Prod.fst

variable {seen more : List (Node × List Node)} {n m k : Node} {above rest : List Node}

theorem contents_append : contents (seen ++ more) n = contents seen n ++ contents more n := by
  unfold contents
  rw [List.filter_append, List.map_append]

theorem contents_singleton : contents [(m, above)] n = if above.head? = some n then [m] else [] := by
  unfold contents
  rw [List.filter_cons, List.filter_nil]
  by_cases h : above.head? = some n
  · rw [if_pos h, if_pos (decide_eq_true h)]
    rfl
  · rw [if_neg h, if_neg (by simpa using h)]
    rfl

theorem contents_eq_nil (h : ∀ o ∈ seen, o.2.head? ≠ some n) : contents seen n = [] := by
  unfold contents
  rw [List.filter_eq_nil_iff.2 fun o ho => by simpa using h o ho, List.map_nil]

theorem mem_contents : m ∈ contents seen n ↔ ∃ rest, (m, n :: rest) ∈ seen := by
  unfold contents
  constructor
  · intro h
    obtain ⟨⟨m, above⟩, mem, rfl⟩ := List.mem_map.1 h
    obtain ⟨mem, top⟩ := List.mem_filter.1 mem
    obtain ⟨rest, rfl⟩ := List.head?_eq_some_iff.1 (of_decide_eq_true top)
    exact ⟨rest, mem⟩
  · rintro ⟨rest, mem⟩
    exact List.mem_map_of_mem (List.mem_filter.2 ⟨mem, decide_eq_true rfl⟩)

theorem contents_occurrencesAll (above : List Node) (n : Node) : ∀ ns : List Node,
    contents (occurrencesAll above (ns.map Node.tree)) n =
      ns.flatMap fun c => contents (occurrences above c.tree) n
  | [] => rfl
  | c :: ns => by
    rw [List.map_cons, occurrencesAll, contents_append, contents_occurrencesAll above n ns, List.flatMap_cons]

namespace Node

/-- Below what a node directly contains, nothing is directly contained in the node. -/
theorem contents_child (h : k ∈ n.children) (above : List Node) :
    contents (occurrences (n :: above) k.tree) n = [k] := by
  have small := sizeOf_child_lt h
  rw [occurrences_tree, ← List.singleton_append, contents_append, contents_singleton, List.head?_cons, if_pos rfl,
    contents_eq_nil, List.append_nil]
  rintro ⟨m, up⟩ mem top
  obtain ⟨rest, rfl⟩ := List.head?_eq_some_iff.1 top
  have below : (m, n :: rest) ∈ occurrences (n :: above) k.tree := by
    rw [occurrences_tree]
    exact List.mem_cons_of_mem _ mem
  rcases container_mem_occurrences below with ⟨rfl, _⟩ | ⟨inside, _⟩
  · exact Nat.lt_irrefl _ (sizeOf_lt_of_mem_below mem)
  · exact Nat.lt_irrefl _ (Nat.lt_of_lt_of_le small (sizeOf_le_of_mem_occurrences inside))

/-- What a node directly contains is the same in all its places. -/
theorem contents_occurrences (k : Node) (above : List Node) (h : above.head? ≠ some n) :
    contents (occurrences above k.tree) n = [] ∨
      (contents (occurrences above k.tree) n).eraseDups = n.children.eraseDups := by
  rw [occurrences_tree, ← List.singleton_append, contents_append, contents_singleton, if_neg h, List.nil_append,
    contents_occurrencesAll]
  by_cases same : k = n
  · subst same
    have all : (k.children.flatMap fun c => contents (occurrences (k :: above) c.tree) k) = k.children := by
      rw [List.flatMap_congr fun c hc => contents_child hc above, List.flatMap_singleton']
    rw [all]
    exact .inr rfl
  · apply eraseDups_flatMap
    intro c hc
    apply contents_occurrences c
    rw [List.head?_cons]
    exact fun heq => same (Option.some.inj heq)
termination_by k
decreasing_by exact sizeOf_child_lt hc

end Node

/-! ## Slots and links of the places so far -/

namespace Arena

variable {a b : Arena Node} {i p c : Nat}

/-- The slots hold the nodes that were met, in the order of their first places, and the links below a slot are those to
the nodes that were met below its node. -/
structure Lists (a : Arena Node) (seen : List (Node × List Node)) : Prop where
  values : a.slots.toList.map Slot.value = (seen.map Prod.fst).eraseDups
  links {i : Nat} {n : Node} : a.value? i = some n →
    (a.children i).map a.value? = (contents seen n).eraseDups.map some
  /-- What contains a node was met before it. -/
  closed {n m : Node} {rest : List Node} : (n, m :: rest) ∈ seen → ∃ above, (m, above) ∈ seen

theorem value?_eq : a.value? i = (a.slots.toList.map Slot.value)[i]? := by
  unfold value?
  rw [List.getElem?_map, Array.getElem?_toList]

theorem find?_eq_idxOf? (n : Node) : a.find? n = (a.slots.toList.map Slot.value).idxOf? n := by
  unfold find? List.idxOf?
  rw [List.findIdx?_map, ← List.findIdx?_toArray]
  rfl

theorem lists_empty : Lists {} [] where
  values := rfl
  links h := by cases h
  closed h := absurd h List.not_mem_nil

namespace Lists

theorem mem_values (h : Lists a seen) : (∃ i, a.value? i = some n) ↔ n ∈ seen.map Prod.fst := by
  rw [← List.mem_eraseDups, ← h.values, List.mem_iff_getElem?]
  simp only [value?_eq]

theorem distinct (h : Lists a seen) {j : Nat} (hi : a.value? i = some n) (hj : a.value? j = some n) : i = j := by
  rw [value?_eq] at hi hj
  obtain ⟨hi, left⟩ := List.getElem?_eq_some_iff.1 hi
  obtain ⟨hj, right⟩ := List.getElem?_eq_some_iff.1 hj
  have once : (a.slots.toList.map Slot.value).Nodup := h.values ▸ nodup_eraseDups _
  exact (once.getElem_inj_iff).1 (left.trans right.symm)

theorem child_value (h : Lists a seen) (hi : a.value? i = some n) (hc : c ∈ a.children i) :
    ∃ m, a.value? c = some m ∧ m ∈ contents seen n := by
  have mem : a.value? c ∈ (contents seen n).eraseDups.map some := h.links hi ▸ List.mem_map_of_mem hc
  obtain ⟨m, hm, heq⟩ := List.mem_map.1 mem
  exact ⟨m, heq.symm, List.mem_eraseDups.1 hm⟩

theorem mem_children (h : Lists a seen) (hi : a.value? i = some n) (hc : a.value? c = some m) :
    c ∈ a.children i ↔ m ∈ contents seen n := by
  constructor
  · intro mem
    obtain ⟨m', hm', inside⟩ := h.child_value hi mem
    rw [hc] at hm'
    cases hm'
    exact inside
  · intro mem
    have linked : some m ∈ (a.children i).map a.value? := by
      rw [h.links hi]
      exact List.mem_map_of_mem (List.mem_eraseDups.2 mem)
    obtain ⟨c', mem', heq⟩ := List.mem_map.1 linked
    exact h.distinct hc heq ▸ mem'

/-- A node that is met gets a slot if it has none. -/
theorem intern (h : Lists a seen) (n : Node) : Lists (a.intern n).2 (seen ++ [(n, [])]) where
  values := by
    rw [List.map_append, show ([(n, [])] : List (Node × List Node)).map Prod.fst = [n] from rfl, eraseDups_concat]
    cases hx : a.find? n with
    | some i =>
      rw [intern_of_find? hx, if_pos (h.mem_values.1 ⟨i, value?_of_find? hx⟩)]
      exact h.values
    | none =>
      have unmet : n ∉ seen.map Prod.fst := by
        rw [← h.mem_values, ← find?_isSome, hx]
        exact Bool.false_ne_true
      rw [intern_of_new hx, if_neg unmet, ← h.values, Array.toList_push, List.map_append]
      rfl
  links {i m} hi := by
    have same : contents (seen ++ [(n, [])]) m = contents seen m := by
      rw [contents_append, contents_singleton, List.head?_nil, if_neg (by exact fun h => by cases h), List.append_nil]
    rw [same, children_intern]
    rcases value?_intern_iff.1 hi with hi | ⟨rfl, new, rfl⟩
    · rw [← h.links hi]
      apply List.map_congr_left
      intro c hc
      obtain ⟨x, hx, _⟩ := h.child_value hi hc
      rw [hx, value?_intern_of_some hx]
    · -- a new slot has no links, and its node contained nothing before
      have bare : a.children a.size = [] := by
        unfold children
        rw [show a.slots[a.size]? = none from Array.getElem?_eq_none (Nat.le_refl _)]
        rfl
      have unmet : contents seen m = [] := by
        rw [List.eq_nil_iff_forall_not_mem]
        intro x hx
        obtain ⟨rest, mem⟩ := mem_contents.1 hx
        obtain ⟨above, mem⟩ := h.closed mem
        have known := find?_isSome.2 (h.mem_values.2 (List.mem_map_of_mem mem))
        rw [new] at known
        cases known
      rw [bare, unmet]
      rfl
  closed {k m rest} mem := by
    rcases List.mem_append.1 mem with mem | mem
    · obtain ⟨above, mem⟩ := h.closed mem
      exact ⟨above, List.mem_append_left _ mem⟩
    · cases List.mem_singleton.1 mem

/-- A link records that a node that was met on its own was met below another. -/
theorem link (h : Lists a (seen ++ [(n, [])])) (hp : a.value? p = some m) (hc : a.value? c = some n)
    (hb : a.link p c = .ok b) (rest : List Node) : Lists b (seen ++ [(n, m :: rest)]) where
  values := by
    have same : b.slots.toList.map Slot.value = a.slots.toList.map Slot.value := by
      apply List.ext_getElem?
      intro i
      rw [← value?_eq, ← value?_eq, value?_link hb]
    rw [same, h.values, List.map_append, List.map_append]
    rfl
  links {i k} hi := by
    have values : b.value? = a.value? := funext fun j => value?_link hb
    rw [values] at hi ⊢
    have before : contents (seen ++ [(n, [])]) k = contents seen k := by
      rw [contents_append, contents_singleton, List.head?_nil, if_neg (by exact fun h => by cases h), List.append_nil]
    have linked := h.links hi
    have member := h.mem_children hi hc
    rw [before] at linked member
    rw [children_link hb, contents_append, contents_singleton, List.head?_cons]
    by_cases same : i = p
    · subst same
      rw [hp] at hi
      cases hi
      rw [if_pos rfl, eraseDups_concat]
      by_cases there : n ∈ contents seen m
      · rw [if_pos there, if_neg fun new => new.2 (member.2 there)]
        exact linked
      · rw [if_neg there, if_pos ⟨rfl, fun mem => there (member.1 mem)⟩, List.map_append, List.map_append, linked]
        exact congrArg _ (congrArg (· :: []) hc)
    · have other : some m ≠ some k := by
        rintro ⟨⟩
        exact same (h.distinct hi hp)
      rw [if_neg fun new => same new.1, if_neg other, List.append_nil]
      exact linked
  closed {k l tail} mem := by
    have met : ∃ above, (l, above) ∈ seen ++ [(n, [])] := by
      rcases List.mem_append.1 mem with mem | mem
      · exact h.closed (List.mem_append_left _ mem)
      · cases List.mem_singleton.1 mem
        obtain ⟨⟨_, above⟩, known, rfl⟩ := List.mem_map.1 (h.mem_values.1 ⟨p, hp⟩)
        exact ⟨above, known⟩
    exact exists_mem_concat.2 (exists_mem_concat.1 met)

end Lists

mutual

/-- **A tree that was entered added its places to those that are listed.** -/
theorem enter_lists (a b : Arena Node) (seen : List (Node × List Node)) (parent : Option Nat) (above : List Node) :
    ∀ t : Tree Node, enter parent t a = .ok b → Lists a seen → Below a parent above →
      Lists b (seen ++ Tree.occurrences above t) ∧ ∀ i n, a.value? i = some n → b.value? i = some n
  | .node n ts, done, h, hb => by
    have split : seen ++ Tree.occurrences above (.node n ts) =
        (seen ++ [(n, above)]) ++ Tree.occurrencesAll (n :: above) ts := by
      rw [Tree.occurrences, List.append_assoc]
      rfl
    have slot := value?_intern (a := a) n
    obtain ⟨c, hc, done⟩ := enter_node_eq_ok_iff.1 done
    have linked : Lists c (seen ++ [(n, above)]) ∧ ∀ i, c.value? i = (a.intern n).2.value? i := by
      rcases hb with ⟨rfl, rfl⟩ | ⟨p, m, rest, rfl, rfl, hp⟩
      · cases hc
        exact ⟨h.intern n, fun _ => rfl⟩
      · exact ⟨(h.intern n).link (value?_intern_of_some hp) slot hc rest, fun i => value?_link hc⟩
    obtain ⟨met, kept⟩ := linked
    obtain ⟨lists, more⟩ := enterAll_lists c b _ (a.intern n).1 n above ts done met ((kept _).trans slot)
    exact ⟨split ▸ lists, fun i m hi => more i m ((kept i).trans (value?_intern_of_some hi))⟩

theorem enterAll_lists (a b : Arena Node) (seen : List (Node × List Node)) (p : Nat) (m : Node) (rest : List Node) :
    ∀ ts : List (Tree Node), enterAll p ts a = .ok b → Lists a seen → a.value? p = some m →
      Lists b (seen ++ Tree.occurrencesAll (m :: rest) ts) ∧ ∀ i n, a.value? i = some n → b.value? i = some n
  | [], done, h, _ => by
    cases done
    rw [Tree.occurrencesAll, List.append_nil]
    exact ⟨h, fun _ _ h => h⟩
  | t :: ts, done, h, hp => by
    obtain ⟨c, hc, done⟩ := enterAll_cons_eq_ok_iff.1 done
    obtain ⟨first, kept⟩ := enter_lists a c seen (some p) (m :: rest) t hc h (.inr ⟨p, m, rest, rfl, rfl, hp⟩)
    obtain ⟨lists, more⟩ := enterAll_lists c b _ p m rest ts done first (kept _ _ hp)
    rw [Tree.occurrencesAll, ← List.append_assoc]
    exact ⟨lists, fun i n hi => more i n (kept i n hi)⟩

end
end Arena

/-! ## The listing of a document -/

namespace Document

variable {d : Document}

/-- The nodes of a document in the order of the visit that walks on from every node. -/
def visited (d : Document) : List Node := (Node.document d).tree.visit fun _ => some .walk

/-- The nodes of a visit without the repeats. -/
def nodes (d : Document) : List Node := d.visited.eraseDups

/-- What directly contains a node in the first of its places; only the document itself is in nothing. -/
def containerOf? (d : Document) (n : Node) : Option Node := (d.places.find? fun o => o.1 = n).bind (·.2.head?)

/-- The listing that a document should have: a line for each of its nodes, with the numbers of the lines of what
directly contains it first and of what it directly contains. -/
def listing (d : Document) : List Ancestry.Entry :=
  d.nodes.mapIdx fun i n =>
    { index := i
      kind := n.kind
      label := n.label
      parent := (d.containerOf? n).bind d.nodes.idxOf?
      children := n.children.eraseDups.filterMap d.nodes.idxOf? }

theorem map_fst_places (d : Document) : d.places.map Prod.fst = d.visited := by
  unfold places visited
  rw [map_fst_occurrences, visit_walk]

theorem mem_visited : n ∈ d.visited ↔ ∃ above, (n, above) ∈ d.places := by
  rw [← map_fst_places, List.mem_map]
  constructor
  · rintro ⟨⟨_, above⟩, mem, rfl⟩
    exact ⟨above, mem⟩
  · rintro ⟨above, mem⟩
    exact ⟨_, mem, rfl⟩

theorem child_mem (h : (n, above) ∈ d.places) (hc : k ∈ n.children) : (k, n :: above) ∈ d.places :=
  Node.child_mem_occurrences h hc

/-- Only the document stands in nothing. -/
theorem eq_root (h : (n, []) ∈ d.places) : n = .document d := by
  have top := Node.root_of_mem h
  exact Option.some.inj top

/-- What a node contains in all its places is its list of children, over and over. -/
theorem eraseDups_contents (h : n ∈ d.visited) : (contents d.places n).eraseDups = n.children.eraseDups := by
  have all := Node.contents_occurrences (n := n) (.document d) [] (by exact fun h => by cases h)
  rcases all with none | all
  · have childless : n.children = [] := by
      rw [List.eq_nil_iff_forall_not_mem]
      intro k hk
      obtain ⟨above, mem⟩ := mem_visited.1 h
      have inside : k ∈ contents d.places n := mem_contents.2 ⟨above, child_mem mem hk⟩
      rw [places, none] at inside
      cases inside
    rw [places, none, childless]
  · exact all

/-- The container that is found first is that of the first place. -/
theorem container?_places (d : Document) (n : Node) : container? d.places n = d.containerOf? n := by
  unfold containerOf?
  cases first : d.places.find? fun o => o.1 = n with
  | none =>
    apply container?_of_not_mem
    simpa using first
  | some o =>
    obtain ⟨m, above⟩ := o
    have same : m = n := by simpa using List.find?_some first
    subst same
    cases above with
    | cons p rest => exact container?_of_find? first
    | nil =>
      -- only the document stands in nothing, and it stands in nothing anywhere
      have root := eq_root (List.mem_of_find?_eq_some first)
      apply Option.eq_none_iff_forall_ne_some.2
      intro p hp
      obtain ⟨rest, mem⟩ := exists_of_container? hp
      obtain ⟨up, child⟩ := container_mem mem
      have small := Node.sizeOf_child_lt child
      have large := Node.sizeOf_le_of_mem_occurrences up
      rw [root] at small
      exact Nat.lt_irrefl _ (Nat.lt_of_lt_of_le small large)

theorem exists_containerOf? (h : n ∈ d.visited) (hn : n ≠ .document d) : ∃ p, d.containerOf? n = some p := by
  obtain ⟨above, mem⟩ := mem_visited.1 h
  unfold containerOf?
  cases first : d.places.find? fun o => o.1 = n with
  | none => exact absurd (decide_eq_true rfl) (List.find?_eq_none.1 first _ mem)
  | some o =>
    obtain ⟨m, above⟩ := o
    have same : m = n := by simpa using List.find?_some first
    subst same
    cases above with
    | nil => exact absurd (eq_root (List.mem_of_find?_eq_some first)) hn
    | cons p rest => exact ⟨p, rfl⟩

theorem nodup_nodes (d : Document) : d.nodes.Nodup := nodup_eraseDups _

end Document

/-! ## What the index answers -/

namespace Ancestry

/-- What the index over a document lists, and what it says is below a node. -/
structure Complete (x : Ancestry) (d : Document) : Prop where
  /-- The slots hold the nodes of the visit, each in one slot, in the order of their first places. -/
  slots : x.arena.slots.toList.map Slot.value = d.nodes
  once : (x.arena.slots.toList.map Slot.value).Nodup
  entries : x.entries = d.listing
  /-- Every node but the document leads to what contains the first of its places. -/
  parent : ∀ n ∈ d.visited, n ≠ .document d → ∃ p, d.containerOf? n = some p ∧ x.parent? n = some p
  children : ∀ n ∈ d.visited, x.children n = n.children.eraseDups

variable {x : Ancestry} {d : Document} {i : Nat}

theorem slots_eq (lists : x.arena.Lists d.places) : x.arena.slots.toList.map Slot.value = d.nodes := by
  rw [lists.values, Document.map_fst_places]
  rfl

theorem find?_nodes (lists : x.arena.Lists d.places) (n : Node) : x.arena.find? n = d.nodes.idxOf? n := by
  rw [Arena.find?_eq_idxOf?, slots_eq lists]

theorem visited_of_value? (lists : x.arena.Lists d.places) (hi : x.arena.value? i = some n) : n ∈ d.visited := by
  rw [← Document.map_fst_places]
  exact lists.mem_values.1 ⟨i, hi⟩

/-- The values of the links below a slot. -/
theorem linked (lists : x.arena.Lists d.places) (hi : x.arena.value? i = some n) :
    (x.arena.children i).map x.arena.value? = n.children.eraseDups.map some := by
  rw [lists.links hi, Document.eraseDups_contents (visited_of_value? lists hi)]

theorem children_eq (holds : x.arena.Holds d.places) (lists : x.arena.Lists d.places) (hn : n ∈ d.visited) :
    x.children n = n.children.eraseDups := by
  rw [← Document.map_fst_places] at hn
  obtain ⟨i, hi⟩ := lists.mem_values.2 hn
  unfold children
  rw [holds.find?_eq hi]
  calc (x.arena.children i).filterMap x.nodeAt?
      = ((x.arena.children i).map x.arena.value?).filterMap id := by rw [List.filterMap_map]; rfl
    _ = (n.children.eraseDups.map some).filterMap id := by rw [linked lists hi]
    _ = n.children.eraseDups := by rw [List.filterMap_map]; exact List.filterMap_some

theorem slot_parent (holds : x.arena.Holds d.places) (lists : x.arena.Lists d.places)
    (hi : x.arena.value? i = some n) : x.arena.parent? i = (d.containerOf? n).bind d.nodes.idxOf? := by
  rw [← Document.container?_places, ← holds.parents hi]
  cases hp : x.arena.parent? i with
  | none => rfl
  | some p =>
    obtain ⟨m, hm, _⟩ := holds.value?_parent hi hp
    rw [Option.bind_some, hm, Option.bind_some, ← find?_nodes lists, holds.find?_eq hm]

theorem slot_children (holds : x.arena.Holds d.places) (lists : x.arena.Lists d.places)
    (hi : x.arena.value? i = some n) : x.arena.children i = n.children.eraseDups.filterMap d.nodes.idxOf? := by
  have back : ∀ c ∈ x.arena.children i, (x.arena.value? c).bind d.nodes.idxOf? = some c := by
    intro c hc
    obtain ⟨m, hm, _⟩ := lists.child_value hi hc
    rw [hm, Option.bind_some, ← find?_nodes lists, holds.find?_eq hm]
  symm
  calc n.children.eraseDups.filterMap d.nodes.idxOf?
      = (n.children.eraseDups.map some).filterMap fun o => o.bind d.nodes.idxOf? := by rw [List.filterMap_map]; rfl
    _ = ((x.arena.children i).map x.arena.value?).filterMap fun o => o.bind d.nodes.idxOf? := by rw [linked lists hi]
    _ = (x.arena.children i).filterMap some := by rw [List.filterMap_map]; exact List.filterMap_congr back
    _ = x.arena.children i := List.filterMap_some

theorem entries_eq (holds : x.arena.Holds d.places) (lists : x.arena.Lists d.places) : x.entries = d.listing := by
  apply List.ext_getElem?
  intro i
  have node : d.nodes[i]? = x.arena.slots[i]?.map Slot.value := by
    rw [← slots_eq lists, ← Arena.value?_eq]
    rfl
  unfold entries Document.listing
  rw [List.getElem?_mapIdx, List.getElem?_mapIdx, node, Array.getElem?_toList]
  cases hs : x.arena.slots[i]? with
  | none => rfl
  | some s =>
    have value : x.arena.value? i = some s.value := congrArg (Option.map Slot.value) hs
    have parent : x.arena.parent? i = s.parent := congrArg (·.bind Slot.parent) hs
    have children : x.arena.children i = s.children := congrArg (fun o => (o.map Slot.children).getD []) hs
    rw [Option.map_some, Option.map_some, Option.map_some, ← slot_parent holds lists value,
      ← slot_children holds lists value, parent, children]
    rfl

theorem lists_of_ofDocument (made : ofDocument d = .ok x) : x.arena.Lists d.places :=
  (Arena.enter_lists {} x.arena [] none [] _ (ofDocument_eq_ok_iff.1 made) Arena.lists_empty (.inl ⟨rfl, rfl⟩)).1

end Ancestry

/-- **The index over any document lists its nodes in the order of their first visits, each with what contains it first
and with what it directly contains.** -/
theorem ancestry_lists (d : Document) : ∃ x, Ancestry.ofDocument d = .ok x ∧ x.Complete d := by
  obtain ⟨x, made, holds⟩ := Ancestry.exists_ofDocument d
  have lists := Ancestry.lists_of_ofDocument made
  have slots := Ancestry.slots_eq lists
  refine ⟨x, made, slots, slots ▸ d.nodup_nodes, Ancestry.entries_eq holds lists, fun n hn other => ?_,
    fun n => Ancestry.children_eq holds lists⟩
  obtain ⟨p, hp⟩ := Document.exists_containerOf? hn other
  obtain ⟨above, mem⟩ := Document.mem_visited.1 hn
  rw [holds.parent?_eq mem, Document.container?_places]
  exact ⟨p, hp, hp⟩

end Cddl
