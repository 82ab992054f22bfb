import Cddl.Proofs.Ancestry.Document
import Cddl.Proofs.Arena.Keyed
import Cddl.Proofs.Record.Sound
import Cddl.Proofs.Visits
/-!
# The index over a document, by keys

An index compares nodes with those that it has.  A visitor can look their records up by key instead, each under the kind
of its node, and keep the slots of the nodes that it is below on a stack: the arena that it fills has the same slots
with the same links (`keyed_ofDocument`).  `KeyedArena.Mirrors` is what interning and linking keep in step.
-/
namespace Cddl

/-! ## Other values in the slots -/

namespace Arena

variable {α β : Type}

/-- The same slots and links, with other values, which may depend on the slot. -/
def mapValues (f : Nat → α → β) (a : Arena α) : Arena β :=
  ⟨a.slots.mapIdx fun i s => ⟨f i s.value, s.parent, s.children⟩⟩

variable {a : Arena α} {f : Nat → α → β}

theorem size_mapValues : (a.mapValues f).size = a.size := Array.size_mapIdx

theorem getElem?_mapValues (i : Nat) :
    (a.mapValues f).slots[i]? = a.slots[i]?.map fun s => ⟨f i s.value, s.parent, s.children⟩ := Array.getElem?_mapIdx

theorem value?_mapValues (i : Nat) : (a.mapValues f).value? i = (a.value? i).map (f i) := by
  unfold value?
  rw [getElem?_mapValues, Option.map_map, Option.map_map]
  rfl

theorem parent?_mapValues (i : Nat) : (a.mapValues f).parent? i = a.parent? i := by
  unfold parent?
  rw [getElem?_mapValues]
  cases a.slots[i]? <;> rfl

theorem climb_mapValues : ∀ n i : Nat, (a.mapValues f).climb n i = a.climb n i
  | 0, _ => rfl
  | n + 1, i => by
    rw [climb, climb, parent?_mapValues]
    cases a.parent? i with
    | none => rfl
    | some p => exact congrArg (p :: ·) (climb_mapValues n p)

theorem push_mapValues (x : α) :
    mapValues f ⟨a.slots.push { value := x }⟩ = ⟨(a.mapValues f).slots.push { value := f a.size x }⟩ :=
  congrArg Arena.mk Array.mapIdx_push

/-- A link is refused, or made, whatever the values are. -/
theorem link_mapValues (parent child : Int) :
    (a.mapValues f).link parent child = (a.link parent child).map (mapValues f) := by
  have index (i : Int) : (a.mapValues f).index? i = a.index? i := by rw [index?, index?, size_mapValues]
  have above (i : Nat) : (a.mapValues f).ancestors i = a.ancestors i := by
    rw [ancestors, ancestors, size_mapValues, climb_mapValues]
  unfold link
  rw [index, index]
  cases a.index? parent with
  | none => rfl
  | some p =>
    cases a.index? child with
    | none => rfl
    | some c =>
      simp only [above]
      split
      · rfl
      · refine congrArg (fun slots => Except.ok (Arena.mk slots)) (Array.ext_getElem? fun i => ?_)
        simp only [mapValues, Array.getElem?_modify, Array.getElem?_mapIdx]
        cases a.slots[i]? <;> split <;> split <;> rfl

end Arena

/-! ## Interning by key -/

namespace KeyedArena

/-- What a slot that is found by key holds of a node. -/
def interned (i : Nat) (n : Node) : Interned := ⟨i, n.kind, n.record⟩

/-- The slots and links of an arena of nodes are those of one that is asked by key. -/
structure Mirrors (k : KeyedArena) (a : Arena Node) : Prop where
  valid : k.Valid
  arena : k.arena = a.mapValues interned

variable {k : KeyedArena} {a b : Arena Node} {n : Node} {i : Nat}

namespace Mirrors

theorem empty : Mirrors {} {} := ⟨.empty, rfl⟩

theorem holds_iff (h : Mirrors k a) : k.Holds n.kind n.record i ↔ a.value? i = some n := by
  unfold Holds
  rw [h.arena, Arena.value?_mapValues]
  constructor
  · rintro ⟨x, hx, kind, same⟩
    obtain ⟨m, hm, rfl⟩ := Option.map_eq_some_iff.1 hx
    rw [hm, (Node.same_record_iff kind).1 same]
  · intro hn
    rw [hn]
    exact ⟨_, rfl, rfl, (Node.same_record_iff rfl).2 rfl⟩

theorem not_holds (h : Mirrors k a) (new : a.find? n = none) : ¬ k.Holds n.kind n.record i := by
  intro held
  have known := Arena.find?_isSome.2 ⟨i, h.holds_iff.1 held⟩
  rw [new] at known
  cases known

/-- A node is found by its key where it is found by comparison. -/
theorem find_eq (h : Mirrors k a) (sound : n.record.Sound) : (k.find n.kind n.record).1 = a.find? n := by
  obtain ⟨-, -, found⟩ := find_spec h.valid n.kind sound
  cases hn : a.find? n with
  | some i => exact (found i).2 (h.holds_iff.2 (Arena.value?_of_find? hn))
  | none => exact Option.eq_none_iff_forall_ne_some.2 fun i hi => h.not_holds hn ((found i).1 hi)

theorem intern (h : Mirrors k a) (sound : n.record.Sound) :
    (k.intern n.kind n.record).1 = (a.intern n).1 ∧ Mirrors (k.intern n.kind n.record).2 (a.intern n).2 := by
  cases hn : a.find? n with
  | some i =>
    obtain ⟨valid, slot, kept⟩ := intern_of_holds h.valid sound (h.holds_iff.2 (Arena.value?_of_find? hn))
    rw [Arena.intern_of_find? hn]
    exact ⟨slot, valid, kept.trans h.arena⟩
  | none =>
    obtain ⟨valid, slot, pushed⟩ := intern_of_new h.valid sound fun i => h.not_holds hn
    have size : k.arena.size = a.size := by rw [h.arena, Arena.size_mapValues]
    rw [Arena.intern_of_new hn]
    refine ⟨slot.trans size, valid, ?_⟩
    rw [pushed, size, Arena.push_mapValues, h.arena]
    rfl

theorem link (h : Mirrors k a) {p c : Int} (linked : a.link p c = .ok b) : ∃ l, k.link p c = .ok l ∧ Mirrors l b := by
  have same : k.arena.link p c = .ok (b.mapValues interned) := by
    rw [h.arena, Arena.link_mapValues, linked]
    rfl
  refine ⟨{ k with arena := b.mapValues interned }, ?_, h.valid.relink fun i => Arena.value?_link same, rfl⟩
  rw [KeyedArena.link, same]
  rfl

end Mirrors

end KeyedArena

/-! ## The visitor -/

/-- An arena that is being filled, and the slots of the nodes that the walk is below, from the nearest one up. -/
structure Filling where
  arena : KeyedArena := {}
  opened : List Nat := []

namespace Filling

/-- Links a slot below the nearest open one, if there is one. -/
def linkBelow (opened : List Nat) (i : Nat) (k : KeyedArena) : Except LinkFault KeyedArena :=
  match opened.head? with
  | some p => k.link p i
  | none => pure k

/-- Interns the record of a node, links it below the one that it was reached from, and keeps its slot open for as long
as the walk is below. -/
def enterNode (n : Node) (walk : StateT Filling (Except LinkFault) Unit) : StateT Filling (Except LinkFault) Unit := do
  let s ← get
  let (i, k) := s.arena.intern n.kind n.record
  let k ← linkBelow s.opened i k
  set (Filling.mk k (i :: s.opened))
  walk
  modify fun s => { s with opened := s.opened.tail }

/-- A visitor that does so at every node. -/
def filler : Visitor (StateT Filling (Except LinkFault)) where
  method? _ := some enterNode

open KeyedArena (Mirrors)

variable {k : KeyedArena} {a b : Arena Node} {n : Node} {i : Nat} {opened : List Nat}

theorem linkBelow_mirrors (h : Mirrors k a) (linked : Arena.enterLink opened.head? i a = .ok b) :
    ∃ l, linkBelow opened i k = .ok l ∧ Mirrors l b := by
  unfold linkBelow
  cases opened with
  | nil =>
    cases linked
    exact ⟨k, rfl, h⟩
  | cons p _ => exact h.link linked

/-- A walk that leaves the open slots as they were is left with the slot of the node closed again. -/
theorem run_enterNode {walk : StateT Filling (Except LinkFault) Unit} {l l' : KeyedArena}
    (linked : linkBelow opened (k.intern n.kind n.record).1 (k.intern n.kind n.record).2 = .ok l)
    (walked : walk.run ⟨l, (k.intern n.kind n.record).1 :: opened⟩ =
      .ok ((), ⟨l', (k.intern n.kind n.record).1 :: opened⟩)) :
    (enterNode n walk).run ⟨k, opened⟩ = .ok ((), ⟨l', opened⟩) := by
  simp only [enterNode, StateT.run_bind, StateT.run_get, StateT.run_set, StateT.run_modify, StateT.run_monadLift,
    monadLift_self, pure_bind, linked]
  change walk.run _ >>= _ = _
  rw [walked]
  rfl

/-- Where a node can be entered by comparison, the visitor enters it by key and leaves the open slots as they were. -/
def Fills (opened : List Nat) (n : Node) : Prop :=
  ∀ ⦃k : KeyedArena⦄ ⦃a b : Arena Node⦄, Mirrors k a → Arena.enter opened.head? n.tree a = .ok b →
    ∃ l, (filler.visit n).run ⟨k, opened⟩ = .ok ((), ⟨l, opened⟩) ∧ Mirrors l b

theorem fills_row {p : Nat} : ∀ {ns : List Node} {k : KeyedArena} {a b : Arena Node},
    (∀ n ∈ ns, Fills (p :: opened) n) → Mirrors k a → Arena.enterAll p (ns.map Node.tree) a = .ok b →
      ∃ l, (forM ns filler.visit).run ⟨k, p :: opened⟩ = .ok ((), ⟨l, p :: opened⟩) ∧ Mirrors l b
  | [], k, _, _, _, h, done => by
    cases done
    exact ⟨k, rfl, h⟩
  | n :: ns, k, a, b, each, h, done => by
    obtain ⟨first, more⟩ := List.forall_mem_cons.1 each
    obtain ⟨c, hc, done⟩ := Arena.enterAll_cons_eq_ok_iff.1 done
    obtain ⟨l, ran, entered⟩ := first h hc
    rw [List.forM_cons, StateT.run_bind, ran]
    exact fills_row more entered done

/-- **What the visitor fills by key is what is entered by comparison**, with the same slots and links. -/
theorem fills (n : Node) (canonical : ∀ v ∈ n.literals, v.Over Binary64.Canonical) (opened : List Nat) :
    Fills opened n := by
  intro k a b h done
  obtain ⟨slot, interned⟩ := h.intern (Node.over_record canonical)
  rw [Node.tree_eq, Arena.enter_node_eq_ok_iff, ← slot] at done
  obtain ⟨c, hc, done⟩ := done
  obtain ⟨l, linked, below⟩ := linkBelow_mirrors interned hc
  have each : ∀ c ∈ n.children, Fills ((k.intern n.kind n.record).1 :: opened) c := fun c hc =>
    fills c (fun v hv => canonical v (Node.literals_of_child hc hv)) _
  obtain ⟨l', walked, filled⟩ := fills_row each below done
  refine ⟨l', ?_, filled⟩
  rw [Visitor.visit_eq, Visitor.walk_eq]
  exact run_enterNode linked walked
termination_by n
decreasing_by exact Node.sizeOf_child_lt hc

end Filling

/-- **The index over a document is what a visitor fills by key**: the arena in which it looks the records of the nodes
up has the same slots with the same links, and finds every node where the index finds it. -/
theorem keyed_ofDocument (d : Document) (canonical : ∀ x, .float x ∈ d.literals → x.Canonical) :
    ∃ x k, Ancestry.ofDocument d = .ok x ∧ (Filling.filler.visitDocument d).run {} = .ok ((), ⟨k, []⟩) ∧
      k.arena = x.arena.mapValues KeyedArena.interned ∧
      ∀ n : Node, (∀ v ∈ n.literals, v.Over Binary64.Canonical) → (k.find n.kind n.record).1 = x.arena.find? n := by
  obtain ⟨a, entered, -⟩ := Arena.enter_holds {} [] none [] (Node.document d).tree Arena.holds_empty d.grows_places
    (.inl ⟨rfl, rfl⟩)
  have own : ∀ v ∈ (Node.document d).literals, v.Over Binary64.Canonical := fun v hv x hx => canonical x (hx ▸ hv)
  obtain ⟨k, filled, mirrors⟩ := Filling.fills (.document d) own [] .empty entered
  exact ⟨⟨a⟩, k, Ancestry.ofDocument_eq_ok_iff.2 entered, filled, mirrors.arena,
    fun n among => mirrors.find_eq (Node.over_record among)⟩

end Cddl
