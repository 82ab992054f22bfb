import Cddl.Proofs.Occurrence
import Cddl.Visitor
/-!
# What a visitor sees

The walk below a node gives the nodes right below it to the visitor, all of them and each once.  So what a recording
visitor sees is told by the tree of the node: the places of the tree whose kind it has a method for, as far as no method
on the way down to them stops.
-/
namespace Cddl

namespace Tree

variable {α : Type} (step? : α → Option Step)

/-- Whether a place is seen: its node has a method, and the method of no node that contains it stops. -/
def seen (o : α × List α) : Bool := (step? o.1).isSome && o.2.all (step? · ≠ some .stop)

mutual

/-- Nothing is seen below a node that is stopped at. -/
theorem filter_occurrences_of_stop {above : List α} (h : ∃ a ∈ above, step? a = some .stop) :
    ∀ t : Tree α, (occurrences above t).filter (seen step?) = []
  | .node a ts => by
    obtain ⟨b, hb, stop⟩ := h
    have unseen : seen step? (a, above) = false := by
      rw [seen, Bool.and_eq_false_iff, List.all_eq_false]
      exact .inr ⟨b, hb, by simp [stop]⟩
    rw [occurrences, List.filter_cons_of_neg (by simp [unseen]),
      filter_occurrencesAll_of_stop ⟨b, List.mem_cons_of_mem _ hb, stop⟩ ts]

theorem filter_occurrencesAll_of_stop {above : List α} (h : ∃ a ∈ above, step? a = some .stop) :
    ∀ ts : List (Tree α), (occurrencesAll above ts).filter (seen step?) = []
  | [] => rfl
  | t :: ts => by
    rw [occurrencesAll, List.filter_append, filter_occurrences_of_stop h t, filter_occurrencesAll_of_stop h ts,
      List.append_nil]

end

mutual

/-- A visit that no node above stops sees the places that are to be seen, in order. -/
theorem visit_eq_filter {above : List α} (h : ∀ a ∈ above, step? a ≠ some .stop) :
    ∀ t : Tree α, visit step? t = ((occurrences above t).filter (seen step?)).map Prod.fst
  | .node a ts => by
    have open_above : above.all (step? · ≠ some .stop) = true := by simpa using h
    rw [visit, occurrences]
    cases step : step? a with
    | none =>
      have open_here : ∀ b ∈ a :: above, step? b ≠ some .stop :=
        List.forall_mem_cons.2 ⟨by simp [step], h⟩
      rw [List.filter_cons_of_neg (by simp [seen, step])]
      exact visitAll_eq_filter open_here ts
    | some s =>
      rw [List.filter_cons_of_pos (by simp only [seen, step, open_above]; rfl), List.map_cons]
      cases s with
      | walk =>
        have open_here : ∀ b ∈ a :: above, step? b ≠ some .stop :=
          List.forall_mem_cons.2 ⟨by simp [step], h⟩
        exact congrArg (a :: ·) (visitAll_eq_filter open_here ts)
      | stop => rw [filter_occurrencesAll_of_stop step? ⟨a, List.mem_cons_self, step⟩ ts, List.map_nil]

theorem visitAll_eq_filter {above : List α} (h : ∀ a ∈ above, step? a ≠ some .stop) :
    ∀ ts : List (Tree α), visitAll step? ts = ((occurrencesAll above ts).filter (seen step?)).map Prod.fst
  | [] => rfl
  | t :: ts => by
    rw [visitAll, occurrencesAll, List.filter_append, List.map_append, visit_eq_filter h t, visitAll_eq_filter h ts]

end

end Tree

namespace Visitor

open Node (ofArgs ofName ofOccurrence ofParams)
open Cddl.Tree (occurrences)

/-! ## The walk below a node -/

section

variable {m : Type → Type} [Monad m] (v : Visitor m)

theorem visitTypeChoices_eq (cs : List TypeChoice) :
    v.visitTypeChoices cs = forM (cs.map Node.typeChoice) v.visit := by
  induction cs with
  | nil => rfl
  | cons c cs ih =>
    rw [visitTypeChoices, ih]
    rfl

theorem visitGroupChoices_eq (cs : List GroupChoice) :
    v.visitGroupChoices cs = forM (cs.map Node.groupChoice) v.visit := by
  induction cs with
  | nil => rfl
  | cons c cs ih =>
    rw [visitGroupChoices, ih]
    rfl

theorem visitListedEntries_eq (es : List ListedEntry) :
    v.visitListedEntries es = forM (es.map fun e => Node.groupEntry e.entry) v.visit := by
  induction es with
  | nil => rfl
  | cons e es ih =>
    obtain ⟨entry, comma⟩ := e
    rw [visitListedEntries, ih]
    rfl

theorem visitGenericArgList_eq (as : List GenericArg) :
    v.visitGenericArgList as = forM (as.map Node.genericArg) v.visit := by
  induction as with
  | nil => rfl
  | cons a as ih =>
    rw [visitGenericArgList, ih]
    rfl

variable [LawfulMonad m]

theorem forM_visit_singleton (n : Node) : forM [n] v.visit = v.visit n := by
  rw [List.forM_cons, List.forM_nil]
  exact bind_pure _

theorem visitOccurrence?_eq (o : Option Occurrence) : v.visitOccurrence? o = forM (ofOccurrence o) v.visit := by
  cases o with
  | none => rfl
  | some o => exact (v.forM_visit_singleton (.occurrence o)).symm

theorem visitGenericParams?_eq (p : Option GenericParams) : v.visitGenericParams? p = forM (ofParams p) v.visit := by
  cases p with
  | none => rfl
  | some p => exact (v.forM_visit_singleton (.genericParams p)).symm

theorem visitGenericArgs?_eq (a : Option GenericArgs) : v.visitGenericArgs? a = forM (ofArgs a) v.visit := by
  cases a with
  | none => rfl
  | some a => exact (v.forM_visit_singleton (.genericArgs a)).symm

theorem visitOperator?_eq (o : Option Operator) :
    v.visitOperator? o = forM (o.toList.map Node.operator) v.visit := by
  cases o with
  | none => rfl
  | some o => exact (v.forM_visit_singleton (.operator o)).symm

theorem visitMemberKey?_eq (k : Option MemberKey) :
    v.visitMemberKey? k = forM (k.toList.map Node.memberKey) v.visit := by
  cases k with
  | none => rfl
  | some k => exact (v.forM_visit_singleton (.memberKey k)).symm

theorem visitName_eq (ident : Identifier) (args : Option GenericArgs) :
    (do v.visitIdentifier ident; v.visitGenericArgs? args) = forM (ofName ident args) v.visit := by
  rw [ofName, List.forM_cons, visitGenericArgs?_eq]
  rfl

/-- A walk that comes to one node only. -/
theorem walk_eq_of_child {n c : Node} (only : n.children = [c]) (walk : v.walk n = v.visit c) :
    v.walk n = forM n.children v.visit := by
  rw [only, forM_visit_singleton, walk]

/-- **The walk below a node gives the visitor the nodes right below it, all of them, each once and in order.** -/
theorem walk_eq (n : Node) : v.walk n = forM n.children v.visit := by
  cases n with
  | document d =>
    rw [walk, Node.children, List.forM_map]
    rfl
  | rule r =>
    obtain ⟨_ | _, _⟩ := r
    · exact v.walk_eq_of_child rfl rfl
    · exact v.walk_eq_of_child rfl rfl
  | typeRule r =>
    rw [walk, Node.children, List.forM_cons, List.forM_append, visitGenericParams?_eq, forM_visit_singleton]
    rfl
  | groupRule r =>
    rw [walk, Node.children, List.forM_cons, List.forM_append, visitGenericParams?_eq, forM_visit_singleton]
    rfl
  | type t => exact v.visitTypeChoices_eq t.choices
  | typeChoice c => exact v.walk_eq_of_child rfl rfl
  | type1 t =>
    rw [walk, Node.children, List.forM_cons, visitOperator?_eq]
    rfl
  | operator o => exact v.walk_eq_of_child rfl rfl
  | type2 t =>
    cases t with
    | typename ident args _ | unwrap ident args _ | choiceFromGroup ident args _ => exact v.visitName_eq ident args
    | major | any => rfl
    | _ => exact v.walk_eq_of_child rfl rfl
  | group g => exact v.visitGroupChoices_eq g.choices
  | groupChoice c => exact v.visitListedEntries_eq c.entries
  | groupEntry e =>
    cases e with
    | inline occurrence group _ =>
      rw [walk, Node.children, List.forM_append, visitOccurrence?_eq, forM_visit_singleton]
      rfl
    | _ => exact v.walk_eq_of_child rfl rfl
  | keyedEntry e =>
    rw [walk, Node.children, List.forM_append, List.forM_append, visitOccurrence?_eq, visitMemberKey?_eq,
      forM_visit_singleton, bind_assoc]
    rfl
  | namedEntry e => rw [walk, Node.children, List.forM_append, visitOccurrence?_eq, visitName_eq]
  | memberKey k => cases k <;> exact v.walk_eq_of_child rfl rfl
  | nonMemberKey k => cases k <;> exact v.walk_eq_of_child rfl rfl
  | genericParams p =>
    rw [walk, Node.children, List.forM_map]
    rfl
  | genericParam p => exact v.walk_eq_of_child rfl rfl
  | genericArgs a => exact v.visitGenericArgList_eq a.args
  | genericArg a => exact v.walk_eq_of_child rfl rfl
  | occurrence | identifier | value => rfl

end

/-! ## What a recording visitor sees -/

variable (step? : NodeKind → Option Tree.Step)

/-- A row of nodes is recorded as the row of their trees is visited, once each of them is. -/
theorem run_forM_recorder : ∀ {ns : List Node}
    (_ : ∀ n ∈ ns, ∀ log, ((recorder step?).visit n).run log = ((), log ++ Tree.visit (step? ·.kind) n.tree))
    (log : List Node), (forM ns (recorder step?).visit).run log =
      ((), log ++ Tree.visitAll (step? ·.kind) (ns.map Node.tree))
  | [], _, log => by
    rw [List.map_nil, Tree.visitAll, List.append_nil]
    rfl
  | n :: ns, h, log => by
    obtain ⟨first, more⟩ := List.forall_mem_cons.1 h
    rw [List.forM_cons, StateT.run_bind, first, List.map_cons, Tree.visitAll, ← List.append_assoc]
    exact run_forM_recorder more _

theorem run_dispatch_recorder (n : Node) (walk : StateM (List Node) Unit) (log : List Node) :
    ((recorder step?).dispatch n walk).run log =
      match step? n.kind with
      | none => walk.run log
      | some .walk => walk.run (log ++ [n])
      | some .stop => ((), log ++ [n]) := by
  unfold dispatch recorder
  dsimp only
  cases step? n.kind with
  | none => rfl
  | some s => cases s <;> rfl

/-- A recording visitor adds to its record what a visit of the tree sees. -/
theorem run_recorder (n : Node) (log : List Node) :
    ((recorder step?).visit n).run log = ((), log ++ Tree.visit (step? ·.kind) n.tree) := by
  have below : ∀ log, ((recorder step?).walk n).run log =
      ((), log ++ Tree.visitAll (step? ·.kind) (n.children.map Node.tree)) := by
    intro log
    rw [walk_eq]
    exact run_forM_recorder step? (fun c hc => run_recorder c) log
  rw [visit_eq, run_dispatch_recorder, Node.tree_eq, Tree.visit]
  cases step? n.kind with
  | none => exact below log
  | some s =>
    cases s with
    | walk => exact (below (log ++ [n])).trans (congrArg _ (List.append_assoc ..))
    | stop => rfl
termination_by n
decreasing_by exact Node.sizeOf_child_lt hc

/-- Below a node a visitor sees what it sees at each of the nodes right below. -/
theorem traceBelow_eq (n : Node) : traceBelow step? n = n.children.flatMap (trace step?) := by
  rw [traceBelow, walk_eq, run_forM_recorder step? (fun c _ => run_recorder step? c), List.nil_append]
  dsimp only
  induction n.children with
  | nil => rfl
  | cons c cs ih =>
    rw [List.map_cons, Tree.visitAll, ih, List.flatMap_cons, trace, run_recorder, List.nil_append]

/-- **A visitor that takes part in some kinds of node sees a part of the full visit**: the nodes of those kinds, in the
order of the full visit, as far as the method of no node that contains them stops. -/
theorem trace_eq (n : Node) :
    trace step? n = ((occurrences [] n.tree).filter fun o =>
        (step? o.1.kind).isSome && o.2.all (step? ·.kind ≠ some .stop)).map Prod.fst ∧
      (occurrences [] n.tree).map Prod.fst = trace (fun _ => some .walk) n := by
  constructor
  · rw [trace, run_recorder, List.nil_append]
    exact Tree.visit_eq_filter _ (List.forall_mem_nil _) n.tree
  · rw [trace, run_recorder, List.nil_append, Tree.visit_walk, Tree.map_fst_occurrences]

end Visitor
end Cddl
