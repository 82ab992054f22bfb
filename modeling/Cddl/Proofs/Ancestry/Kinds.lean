import Cddl.Proofs.Ancestry.Rooted
/-!
# Kinds of nodes above each other

What contains a node is of a kind that `NodeKind.parentKinds` lists for the kind of the node, and so is the upper slot
of every link that is made while an index is built.  A node whose kind can stand below one kind only has a parent of
that kind in the index (`ancestry_kinds`).
-/
namespace Cddl

/-- What a node directly contains can stand right below it. -/
theorem Node.kind_mem_parentKinds (n : Node) : ∀ c ∈ n.children, n.kind ∈ c.kind.parentKinds := by
  cases n with
  | rule r => obtain ⟨_ | _, _⟩ := r <;> simp [children, kind, NodeKind.parentKinds]
  | type2 t => cases t <;> simp [children, ofName, ofArgs, kind, NodeKind.parentKinds]
  | groupEntry e => cases e <;> simp [children, ofOccurrence, or_imp, forall_and, kind, NodeKind.parentKinds]
  | memberKey k => cases k <;> simp [children, kind, NodeKind.parentKinds]
  | nonMemberKey k => cases k <;> simp [children, kind, NodeKind.parentKinds]
  | _ => simp [children, ofName, ofArgs, ofParams, ofOccurrence, or_imp, forall_and, kind, NodeKind.parentKinds]

/-! ## The links that are made -/

namespace Arena

variable {a b c : Arena Node} {links : List (Nat × Nat)}

mutual

/-- Enters a tree as `enter` does, and logs each link that is made as its upper and its lower slot. -/
def enterLogged (parent : Option Nat) : Tree Node → Arena Node → Except LinkFault (List (Nat × Nat) × Arena Node)
  | .node n ts, a => do
    let (i, a) := a.intern n
    let a ← enterLink parent i a
    let (links, a) ← enterAllLogged i ts a
    return (parent.toList.map (·, i) ++ links, a)

def enterAllLogged (parent : Nat) : List (Tree Node) → Arena Node → Except LinkFault (List (Nat × Nat) × Arena Node)
  | [], a => pure ([], a)
  | t :: ts, a => do
    let (first, a) ← enterLogged (some parent) t a
    let (others, a) ← enterAllLogged parent ts a
    return (first ++ others, a)

end

/-- From one arena to a later one, what is listed below the slots stays listed, and so are some links. -/
structure Records (a b : Arena Node) (links : List (Nat × Nat)) : Prop where
  kept (p : Nat) : a.children p ⊆ b.children p
  made : ∀ l ∈ links, l.2 ∈ b.children l.1

namespace Records

theorem trans {more : List (Nat × Nat)} (h : Records a b links) (h' : Records b c more) :
    Records a c (links ++ more) where
  kept p _ hi := h'.kept p (h.kept p hi)
  made l hl := (List.mem_append.1 hl).elim (fun hl => h'.kept _ (h.made l hl)) (h'.made l)

theorem refl (a : Arena Node) : Records a a [] where
  kept _ _ h := h
  made _ hl := absurd hl List.not_mem_nil

theorem intern (a : Arena Node) (n : Node) : Records a (a.intern n).2 [] where
  kept p _ h := by rwa [children_intern]
  made _ hl := absurd hl List.not_mem_nil

theorem enterLink {parent : Option Nat} {i : Nat} (hb : enterLink parent i a = .ok b) :
    Records a b (parent.toList.map (·, i)) := by
  cases parent with
  | none =>
    cases hb
    exact refl a
  | some p =>
    refine ⟨fun q j hj => (mem_children_link hb).2 (.inl hj), fun l hl => ?_⟩
    cases List.mem_singleton.1 hl
    exact (mem_children_link hb).2 (.inr ⟨rfl, rfl⟩)

end Records

mutual

/-- A tree is entered with a log as without one, and the links of the log are listed behind it. -/
theorem exists_log {parent : Option Nat} {a b : Arena Node} : ∀ t : Tree Node, enter parent t a = .ok b →
    ∃ links, enterLogged parent t a = .ok (links, b) ∧ Records a b links
  | .node n ts, h => by
    obtain ⟨c, linked, h⟩ := enter_node_eq_ok_iff.1 h
    obtain ⟨links, logged, records⟩ := exists_log_all ts h
    refine ⟨_, ?_, (Records.intern a n).trans ((Records.enterLink linked).trans records)⟩
    simp only [enterLogged, linked, logged, bind, Except.bind, pure, Except.pure, List.nil_append]

theorem exists_log_all {parent : Nat} {a b : Arena Node} : ∀ ts : List (Tree Node), enterAll parent ts a = .ok b →
    ∃ links, enterAllLogged parent ts a = .ok (links, b) ∧ Records a b links
  | [], h => by
    cases h
    exact ⟨[], rfl, .refl a⟩
  | t :: ts, h => by
    obtain ⟨c, entered, h⟩ := enterAll_cons_eq_ok_iff.1 h
    obtain ⟨first, logged, records⟩ := exists_log t entered
    obtain ⟨others, logged', records'⟩ := exists_log_all ts h
    refine ⟨first ++ others, ?_, records.trans records'⟩
    simp only [enterAllLogged, logged, logged', bind, Except.bind, pure, Except.pure]

end

end Arena

/-! ## What is above a node in an index -/

namespace Ancestry

variable {x : Ancestry} {d : Document} {n : Node} {p c : Nat}

/-- The links of an index, and the parents that it gives to nodes, are of the kinds that are listed. -/
structure WellKinded (x : Ancestry) (d : Document) (links : List (Nat × Nat)) : Prop where
  links : ∀ p c, (p, c) ∈ links →
    ∃ m n, x.nodeAt? p = some m ∧ x.nodeAt? c = some n ∧ m.kind ∈ n.kind.parentKinds
  sole : ∀ n ∈ d.visited, ∀ kind, n.kind.parentKinds = [kind] →
    ∃ m ∈ d.visited, x.parentOfKind? n kind = some m ∧ x.soleParent? n = some m ∧ n ∈ m.children

theorem kinds_of_mem_children (lists : x.arena.Lists d.places) (h : c ∈ x.arena.children p) :
    ∃ m n, x.nodeAt? p = some m ∧ x.nodeAt? c = some n ∧ m.kind ∈ n.kind.parentKinds := by
  obtain ⟨m, hm⟩ := Arena.exists_value? (Arena.lt_size_of_mem_children h)
  obtain ⟨n, hn, inside⟩ := lists.child_value hm h
  obtain ⟨rest, mem⟩ := mem_contents.1 inside
  exact ⟨m, n, hm, hn, m.kind_mem_parentKinds n (Document.container_mem mem).2⟩

theorem exists_soleParent (holds : x.arena.Holds d.places) (hn : n ∈ d.visited) {kind : NodeKind}
    (sole : n.kind.parentKinds = [kind]) :
    ∃ m ∈ d.visited, x.parentOfKind? n kind = some m ∧ x.soleParent? n = some m ∧ n ∈ m.children := by
  obtain ⟨above, place⟩ := Document.mem_visited.1 hn
  have other : n ≠ .document d := by
    rintro rfl
    cases sole
  obtain ⟨m, hm⟩ := Document.exists_containerOf? hn other
  rw [← Document.container?_places] at hm
  obtain ⟨rest, mem⟩ := exists_of_container? hm
  obtain ⟨up, child⟩ := Document.container_mem mem
  have fits : m.kind = kind := by
    have listed := m.kind_mem_parentKinds n child
    rw [sole] at listed
    exact List.mem_singleton.1 listed
  have found : x.parentOfKind? n kind = some m := by
    unfold parentOfKind?
    rw [show x.parent? n = some m from (holds.parent?_eq place).trans hm,
      Option.filter_some, if_pos (decide_eq_true fits)]
  refine ⟨m, Document.mem_visited.2 ⟨rest, up⟩, found, ?_, child⟩
  unfold soleParent?
  rw [sole]
  exact found

end Ancestry

/-- **Every link that is made while the index over a document is built leads from a kind of node to one that can stand
right below it, and a node whose kind can stand below one kind only has a parent of that kind which directly contains
it.** -/
theorem ancestry_kinds (d : Document) : ∃ x links, Ancestry.ofDocument d = .ok x ∧
    Arena.enterLogged none (Node.document d).tree {} = .ok (links, x.arena) ∧ x.WellKinded d links := by
  obtain ⟨x, made, holds⟩ := Ancestry.exists_ofDocument d
  have lists := Ancestry.lists_of_ofDocument made
  obtain ⟨links, logged, records⟩ := Arena.exists_log _ (Ancestry.ofDocument_eq_ok_iff.1 made)
  refine ⟨x, links, made, logged, fun p c link => ?_, fun n hn kind sole => ?_⟩
  · exact Ancestry.kinds_of_mem_children lists (records.made _ link)
  · exact Ancestry.exists_soleParent holds hn sole

/-- The kinds of node that can stand below one kind only. -/
example : NodeKind.all.filter (fun k => k.parentKinds.length = 1) =
    [.rule, .typeRule, .groupRule, .typeChoice, .operator, .groupChoice, .keyedEntry, .namedEntry, .memberKey,
      .nonMemberKey, .genericParam, .genericArg] := by decide

end Cddl
