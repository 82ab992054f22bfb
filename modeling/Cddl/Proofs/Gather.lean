import Cddl.Proofs.Erasure
import Cddl.Proofs.Occurrence
/-!
# What is found in a tree

`Node.gather f n` is what `f` finds at a node and at the nodes below it, in the order of a visit.  A key is made of a
type or a group that was read for it, and if nothing is found at the nodes that only hold others, the same is found in
the key as in what it was made of (`gather_colonKey`, `gather_enclosedKey`).
-/
namespace Cddl

open Cddl.Tree Production

variable {α : Type} {f : Node → List α}

namespace Node

variable {n c : Node}

def gather (f : Node → List α) (n : Node) : List α := n.tree.preorder.flatMap f

theorem flatMap_preorders (f : Node → List α) : ∀ ns : List Node,
    (preorders (ns.map tree)).flatMap f = ns.flatMap (gather f)
  | [] => rfl
  | n :: ns => by
    rw [List.map_cons, preorders, List.flatMap_append, flatMap_preorders f ns, List.flatMap_cons]
    rfl

theorem gather_eq (f : Node → List α) (n : Node) : n.gather f = f n ++ n.children.flatMap (gather f) := by
  rw [gather, tree_eq, preorder, List.flatMap_cons, flatMap_preorders]

theorem gather_of_inner (own : f n = []) : n.gather f = n.children.flatMap (gather f) := by
  rw [gather_eq, own]
  rfl

theorem gather_of_child (own : f n = []) (child : n.children = [c]) : n.gather f = c.gather f := by
  rw [gather_of_inner own, child]
  exact List.append_nil _

theorem mem_gather {a : α} : a ∈ n.gather f ↔ ∃ m ∈ n.tree.preorder, a ∈ f m := List.mem_flatMap

/-- Whether a node only holds others. -/
def holds : Node → Bool
  | type _ | typeChoice _ | type1 _ | group _ | groupChoice _ | keyedEntry _ | namedEntry _ | nonMemberKey _ => true
  | _ => false

/-- Nothing is found at the nodes that only hold others, and a literal is the same as a key and as a type. -/
structure Overlooks (f : Node → List α) : Prop where
  holder : ∀ n : Node, n.holds = true → f n = []
  name : ∀ ident args s, f (.type2 (.typename ident args s)) = []
  bareword : ∀ ident s, f (.memberKey (.bareword ident s)) = []
  literal : ∀ v s, f (.memberKey (.literal v s)) = f (.type2 (.literal v s))
  enclosed : ∀ key s, f (.memberKey (.enclosed key s)) = []
  entry : ∀ (e : GroupEntry) ty, e.type? = some ty → f (.groupEntry e) = []

end Node

/-- The nodes of an entry behind its occurrence. -/
def GroupEntry.body : GroupEntry → List Node
  | .keyed e _ => e.key.toList.map .memberKey ++ [.type e.type]
  | .named e _ => Node.ofName e.name e.args
  | .inline _ g _ => [.group g]

open Node

variable {t : Type1} {key : MemberKey} {e : GroupEntry} {ty : TypeExpr} {s : Option Span}

/-- What is found in an entry is found at the entry and in its body, if nothing is found at an occurrence. -/
theorem gather_groupEntry (hf : Overlooks f) (ho : ∀ o, f (.occurrence o) = []) (e : GroupEntry) :
    (Node.groupEntry e).gather f = f (.groupEntry e) ++ e.body.flatMap (gather f) := by
  have occurrence (oc : Option Occurrence) : (ofOccurrence oc).flatMap (gather f) = [] := by
    cases oc with
    | none => rfl
    | some o =>
      have none : (Node.occurrence o).gather f = [] := gather_of_inner (ho o)
      rw [ofOccurrence, Option.toList, List.map_singleton, List.flatMap_singleton, none]
  rw [gather_eq]
  congr 1
  cases e with
  | keyed e s =>
    have inner : (Node.groupEntry (.keyed e s)).children.flatMap (gather f) = (Node.keyedEntry e).gather f :=
      List.flatMap_singleton ..
    rw [inner, gather_of_inner (hf.holder _ rfl), Node.children, List.append_assoc, List.flatMap_append, occurrence]
    rfl
  | named e s =>
    have inner : (Node.groupEntry (.named e s)).children.flatMap (gather f) = (Node.namedEntry e).gather f :=
      List.flatMap_singleton ..
    rw [inner, gather_of_inner (hf.holder _ rfl), Node.children, List.flatMap_append, occurrence]
    rfl
  | inline oc g s =>
    rw [Node.children, List.flatMap_append, occurrence]
    rfl

/-- A name has what the type has that is nothing else. -/
theorem gather_ofName (hf : Overlooks f) (ident : Identifier) (args : Option GenericArgs) (s s' : Option Span) :
    (ofName ident args).flatMap (gather f) = (Node.type1 ⟨.typename ident args s, none, s'⟩).gather f := by
  have type2 : (Node.type1 ⟨.typename ident args s, none, s'⟩).gather f =
      (Node.type2 (.typename ident args s)).gather f := gather_of_child (hf.holder _ rfl) rfl
  rw [type2, gather_of_inner (hf.name ident args s)]
  rfl

/-- A type before a colon is all that is found in the key. -/
theorem gather_colonKey (hf : Overlooks f) (h : colonKey? t = some key) :
    (Node.memberKey key).gather f = (Node.type1 t).gather f := by
  obtain ⟨operand, operator, span⟩ := t
  unfold colonKey? at h
  split at h
  · rename_i ident s hop harg
    cases hop
    cases harg
    cases h
    have type1 : (Node.type1 ⟨.typename ident none s, none, span⟩).gather f =
        (Node.type2 (.typename ident none s)).gather f := gather_of_child (hf.holder _ rfl) rfl
    rw [type1, gather_of_inner (hf.bareword ident s), gather_of_inner (hf.name ident none s)]
    rfl
  · rename_i v s hop harg
    cases hop
    cases harg
    cases h
    have type1 : (Node.type1 ⟨.literal v s, none, span⟩).gather f = (Node.type2 (.literal v s)).gather f :=
      gather_of_child (hf.holder _ rfl) rfl
    rw [type1, gather_eq, gather_eq f (.type2 _), hf.literal]
    rfl
  · cases h

theorem gather_type? (hf : Overlooks f) (h : e.type? = some ty) :
    (Node.type ty).gather f = (Node.groupEntry e).gather f := by
  have own := hf.entry e ty h
  unfold GroupEntry.type? at h
  split at h
  · rename_i type s s'
    cases h
    have inner : (Node.keyedEntry ⟨none, none, ty, s⟩).gather f = (Node.type ty).gather f :=
      gather_of_child (hf.holder _ rfl) rfl
    exact ((gather_of_child own rfl).trans inner).symm
  · rename_i name args s s'
    cases h
    have choice : (Node.type (typeOfName name args s)).gather f =
        (Node.typeChoice ⟨⟨.typename name args s, none, s⟩, s⟩).gather f := gather_of_child (hf.holder _ rfl) rfl
    have type1 : (Node.typeChoice ⟨⟨.typename name args s, none, s⟩, s⟩).gather f =
        (Node.type1 ⟨.typename name args s, none, s⟩).gather f := gather_of_child (hf.holder _ rfl) rfl
    have entry : (Node.groupEntry (.named ⟨none, name, args, s⟩ s')).gather f =
        (Node.namedEntry ⟨none, name, args, s⟩).gather f := gather_of_child own rfl
    rw [choice, type1, ← gather_ofName hf, entry, gather_of_inner (hf.holder _ rfl)]
    rfl
  · cases h

/-- A group in the place of a key is all that is found in the key, also where it turns out to be a type. -/
theorem gather_enclosedKey (hf : Overlooks f) (g : Group) :
    (Node.memberKey (.enclosed (enclosedKey g) s)).gather f = (Node.group g).gather f := by
  have inside : (Node.memberKey (.enclosed (enclosedKey g) s)).gather f =
      (Node.nonMemberKey (enclosedKey g)).gather f :=
    gather_of_child (hf.enclosed _ _) rfl
  have kept (s : Option Span) : (Node.nonMemberKey (.group g s)).gather f = (Node.group g).gather f :=
    gather_of_child (hf.holder _ rfl) rfl
  rw [inside, enclosedKey_eq]
  cases hs : g.sole? with
  | none => exact kept _
  | some e =>
    rw [Option.bind_some]
    cases he : e.type? with
    | none => exact kept _
    | some type =>
      obtain ⟨comma, s, s', rfl⟩ := of_sole? hs
      have group : (Node.group ⟨[⟨[⟨e, comma⟩], s⟩], s'⟩).gather f = (Node.groupChoice ⟨[⟨e, comma⟩], s⟩).gather f :=
        gather_of_child (hf.holder _ rfl) rfl
      have choice : (Node.groupChoice ⟨[⟨e, comma⟩], s⟩).gather f = (Node.groupEntry e).gather f :=
        gather_of_child (hf.holder _ rfl) rfl
      rw [group, choice, ← gather_type? hf he]
      exact gather_of_child (hf.holder _ rfl) rfl

end Cddl
