import Cddl.Proofs.Ancestry.Listing
import Cddl.Proofs.Containment.Document
import Cddl.Proofs.Joined
import Cddl.Proofs.Stretch
/-!
# Which tokens the stretches in a document were taken from

The stretches in a document that is read from a text are taken from the tokens of the text (`drawn_of_parse`).
-/
namespace Cddl

open Production

variable {pre : Location} {name eq t : Token} {ts ps us after : List Token}

/-! ## Rules -/

theorem AllDrawn.genericParam : AllDrawn pre [t] after [.genericParam ⟨Production.identifier t, some t.span⟩] :=
  .cover rfl (by simp) rfl .identifier

theorem SpellsMoreParams.drawn {params : List GenericParam} (h : SpellsMoreParams params ts after) :
    ∀ {pre : Location}, AllDrawn pre ts after (params.map .genericParam) := by
  induction h with
  | nil => exact .none
  | @cons s t _ ts after _ _ _ ih =>
    intro pre
    have param : AllDrawn s.stop [t] (ts ++ after) [.genericParam ⟨Production.identifier t, some t.span⟩] :=
      .genericParam
    exact .lead (param.seq ih)

theorem SpellsParams.drawn {params : Option GenericParams} (h : SpellsParams params ts after) :
    AllDrawn pre ts after (Node.ofParams params) := by
  cases h with
  | none => exact .none
  | @some o t c _ ts _ _ _ more =>
    have span : Span.over pre (o :: t :: (ts ++ [c])) after = ⟨o.location, c.stop⟩ := over_between (t :: ts)
    refine .cover (span ▸ rfl) (by simp) rfl ?_
    change AllDrawn pre (o :: (t :: ts ++ [c])) after _
    have param : AllDrawn o.stop [t] (ts ++ c :: after) [.genericParam ⟨Production.identifier t, t.span⟩] :=
      .genericParam
    exact .between (param.seq more.drawn)

/-- A name, its parameters and what is assigned to it. -/
theorem drawn_assigned {gp : Option GenericParams} {body : List Node}
    (params : SpellsParams gp ps (eq :: (us ++ after))) (inner : AllDrawn eq.stop us after body) :
    AllDrawn pre (name :: (ps ++ eq :: us)) after (.identifier (identifier name) :: (Node.ofParams gp ++ body)) := by
  have assigned : AllDrawn (stopAfter name.stop ps) (eq :: us) after body := .lead inner
  have parts : AllDrawn name.stop (ps ++ eq :: us) after (Node.ofParams gp ++ body) := params.drawn.seq assigned
  have first : AllDrawn pre [name] (ps ++ eq :: us ++ after) [.identifier (identifier name)] := .identifier
  exact first.seq parts

theorem SpellsRule.drawn {r : Rule} (h : SpellsRule r ts after) : AllDrawn pre ts after [.rule r] := by
  cases h with
  | type _ params _ _ _ type =>
    exact .cover (over_assigned ▸ rfl) (by simp) rfl
      (.cover (over_assigned ▸ rfl) (by simp) rfl (drawn_assigned params (drawn_of_spells type)))
  | group _ params _ _ _ entry =>
    exact .cover (over_assigned ▸ rfl) (by simp) rfl
      (.cover (over_assigned ▸ rfl) (by simp) rfl (drawn_assigned params (drawn_of_spells entry)))

theorem SpellsRules.drawn {rs : List Rule} (h : SpellsRules rs ts after) :
    ∀ {pre : Location}, AllDrawn pre ts after (rs.map .rule) := by
  induction h with
  | nil => exact .none
  | cons first _ ih => exact first.drawn.seq ih

/-! ## Documents -/

namespace Document

variable {d : Document} {n : Node} {above : List Node}

/-- The nodes of a document are the document and what is throughout its rules. -/
theorem mem_throughout (h : (n, above) ∈ d.places) :
    n = .document d ∨ n ∈ Node.throughout (d.rules.map .rule) := by
  have mem : n ∈ d.places.map Prod.fst := List.mem_map_of_mem h
  rw [places, Tree.map_fst_occurrences, Node.tree_eq, Tree.preorder] at mem
  exact List.mem_cons.1 mem

/-- The nodes that stand so many steps below the document. -/
def level (d : Document) : Nat → List Node
  | 0 => [.document d]
  | k + 1 => (d.level k).flatMap Node.children

theorem mem_places_of_level : ∀ {k : Nat} {n : Node}, n ∈ d.level k → ∃ above, (n, above) ∈ d.places
  | 0, n, h => by
    rw [List.mem_singleton.1 h, places, Node.occurrences_tree]
    exact ⟨[], List.mem_cons_self⟩
  | k + 1, n, h => by
    obtain ⟨m, hm, child⟩ := List.mem_flatMap.1 h
    obtain ⟨above, place⟩ := mem_places_of_level hm
    exact ⟨m :: above, child_mem place child⟩

end Document

/-- **The stretches in a document that is read from a text are taken from the tokens of the text.**  That of the
document itself is over all of them. -/
theorem drawn_of_parse {source : Text} {d : Document} (h : parse source = .ok d) : ∃ pre ts l e,
    (Cursor.start source).Run (ts ++ [.endAt l]) none ∧ Laid (ts ++ [.endAt l, e]) ∧
      (ts ++ [.endAt l, e]).head?.map Token.location = some pre ∧ d.span = some (.over pre ts [.endAt l, e]) ∧
        AllDrawn pre ts [.endAt l, e] (d.rules.map .rule) := by
  obtain ⟨w, v, ts, hw, hts, ends, span, rules⟩ := parseFeed_ok (Feed.ends_ofCursor _) (parse_eq_ok_iff.1 h)
  have rules := rules _ (List.cons_ne_nil _ _) v.shows_pair
  have shown := hts.shows v.shows_pair
  have laid := laid_of_shows hw shown
  have split : ts ++ [v.current, v.upcoming] = ts ++ [v.current] ++ [v.upcoming] := by simp
  have run : (Cursor.start source).Run (ts ++ [v.current]) none := by
    rw [split] at shown
    exact .of_items rules.unended ends fun i t hi => (Window.item_ofFeed hw i).symm.trans (shown.left i t hi)
  obtain ⟨us, l, same⟩ := run.exists_end rfl
  obtain ⟨rfl, last⟩ := List.append_inj' same rfl
  have final := (List.cons.inj last).1
  have first : (ts ++ [v.current, v.upcoming]).head?.map Token.location = some w.current.location := by
    obtain ⟨t, more, heads⟩ := List.exists_cons_of_ne_nil (List.append_ne_nil_of_right_ne_nil ts (List.cons_ne_nil _ _))
    rw [heads] at shown ⊢
    exact congrArg (fun t => some (Token.location t)) shown.current.symm
  have whole : d.span = some (.over w.current.location ts [v.current, v.upcoming]) := by
    have stop : v.lastStop = stopAfter w.current.location ts := by rw [hts.lastStop, (Window.ofFeed_ok hw).2.2.2]
    rw [Span.over, first, Option.getD_some, ← stop]
    exact span
  rw [final] at run laid first whole rules
  exact ⟨_, ts, l, _, run, laid, first, whole, rules.drawn⟩

end Cddl
