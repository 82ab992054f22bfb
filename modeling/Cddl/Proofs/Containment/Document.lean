import Cddl.Proofs.Ancestry.Document
import Cddl.Proofs.Containment.Phrase
/-!
# What the stretches in a document contain

In a document that is read from a text the stretch of every node is around those of the nodes below it, nodes side by
side do not overlap, and a visit comes to the nodes in the order in which they start (`spans_nest`).
-/
namespace Cddl

open Production

variable {pre : Location} {name eq t : Token} {ts ps us after : List Token}

/-! ## Rules -/

theorem Fits.genericParam : Fits pre [t] after [.genericParam ⟨Production.identifier t, some t.span⟩] :=
  .cover rfl .identifier

theorem SpellsMoreParams.fits {params : List GenericParam} (h : SpellsMoreParams params ts after) :
    ∀ {pre : Location}, after ≠ [] → Follows pre (ts ++ after) → Fits pre ts after (params.map .genericParam) := by
  induction h with
  | nil => exact fun _ _ => .none
  | @cons s t _ ts after _ _ _ ih =>
    intro pre hne follows
    have tail : Follows s.stop (t :: (ts ++ after)) := follows.tail (by simp)
    have param : Fits s.stop [t] (ts ++ after) [.genericParam ⟨Production.identifier t, some t.span⟩] := .genericParam
    exact .lead follows hne (param.seq (ih hne (tail.tail (by simp [hne]))) tail hne)

theorem SpellsParams.fits {params : Option GenericParams} (h : SpellsParams params ts after) (hne : after ≠ [])
    (follows : Follows pre (ts ++ after)) : Fits pre ts after (Node.ofParams params) := by
  cases h with
  | none => exact .none
  | @some o t c _ ts _ _ _ more =>
    have span : Span.over pre (o :: t :: (ts ++ [c])) after = ⟨o.location, c.stop⟩ := over_between (t :: ts)
    refine .cover (span ▸ rfl) ?_
    change Fits pre (o :: (t :: ts ++ [c])) after _
    refine .between follows hne fun inside => ?_
    have inside : Follows o.stop (t :: (ts ++ c :: after)) := inside
    have param : Fits o.stop [t] (ts ++ c :: after) [.genericParam ⟨Production.identifier t, t.span⟩] := .genericParam
    exact param.seq (more.fits (by simp) (inside.tail (by simp))) inside (by simp)

/-- The stretch of a rule. -/
theorem over_assigned : Span.over pre (name :: (ps ++ eq :: us)) after = ⟨name.location, stopAfter eq.stop us⟩ := by
  unfold Span.over
  rw [stopAfter, stopAfter_append]
  rfl

/-- A name, its parameters and what is assigned to it. -/
theorem fits_assigned {gp : Option GenericParams} {body : List Node} (params : SpellsParams gp ps (eq :: (us ++ after)))
    (hne : after ≠ []) (follows : Follows pre (name :: (ps ++ eq :: us) ++ after))
    (inner : Follows eq.stop (us ++ after) → Fits eq.stop us after body) :
    Fits pre (name :: (ps ++ eq :: us)) after (.identifier (identifier name) :: (Node.ofParams gp ++ body)) := by
  have split : name :: (ps ++ eq :: us) ++ after = name :: (ps ++ eq :: (us ++ after)) := by simp
  rw [split] at follows
  have tail : Follows name.stop (ps ++ eq :: (us ++ after)) := follows.tail (by simp)
  have behind := tail.rest (by simp)
  have assigned := Fits.lead behind hne (inner (behind.tail (by simp [hne])))
  have parts := (params.fits (by simp) tail).seq assigned tail hne
  have first : Fits pre [name] (ps ++ eq :: us ++ after) [.identifier (identifier name)] := .identifier
  exact first.seq parts (by simpa using follows) hne

theorem SpellsRule.fits {r : Rule} (h : SpellsRule r ts after) (hne : after ≠ [])
    (follows : Follows pre (ts ++ after)) : Fits pre ts after [.rule r] := by
  cases h with
  | type _ params _ _ _ type =>
    have below := fits_assigned params hne follows (fits_of_spells type hne)
    exact .cover (over_assigned ▸ rfl) (.cover (over_assigned ▸ rfl) below)
  | group _ params _ _ _ entry =>
    have below := fits_assigned params hne follows (fits_of_spells entry hne)
    exact .cover (over_assigned ▸ rfl) (.cover (over_assigned ▸ rfl) below)

theorem SpellsRules.fits {rs : List Rule} (h : SpellsRules rs ts after) :
    ∀ {pre : Location}, after ≠ [] → Follows pre (ts ++ after) → Fits pre ts after (rs.map .rule) := by
  induction h with
  | nil => exact fun _ _ => .none
  | @cons _ _ ts us after first _ ih =>
    intro pre hne follows
    rw [List.append_assoc] at follows
    have more : us ++ after ≠ [] := List.append_ne_nil_of_right_ne_nil _ hne
    exact (first.fits more follows).seq (ih hne (follows.rest more)) follows hne

/-! ## Documents -/

/-- What is read from a text fits into it. -/
theorem fit_of_parse {source : Text} {d : Document} (h : parse source = .ok d) : ∃ lo hi, Fit lo [.document d] hi := by
  obtain ⟨w, v, ts, hw, hts, _, span, rules⟩ := parseFeed_ok (Feed.ends_ofCursor _) (parse_eq_ok_iff.1 h)
  have shown := hts.shows v.shows_pair
  have laid := laid_of_shows hw shown
  have first : startOf (ts ++ [v.current, v.upcoming]) = w.current.location.offset := by
    obtain ⟨t, more, split⟩ := List.exists_cons_of_ne_nil (List.append_ne_nil_of_right_ne_nil ts (List.cons_ne_nil _ _))
    rw [split] at shown ⊢
    exact congrArg (fun t => t.location.offset) shown.current.symm
  have follows : Follows w.current.location (ts ++ [v.current, v.upcoming]) := ⟨laid, Int.le_of_eq first.symm⟩
  have below := (rules _ (List.cons_ne_nil _ _) v.shows_pair).fits (List.cons_ne_nil _ _) follows
  unfold Fits at below
  rw [first] at below
  have stop : v.lastStop = stopAfter w.current.location ts := by
    rw [hts.lastStop, (Window.ofFeed_ok hw).2.2.2]
  rw [← stop] at below
  exact ⟨_, _, .one span (Int.le_refl _) (Int.le_refl _) below⟩

/-- **The stretches in a document that is read from a text lie within each other as the nodes do, and a visit comes to
them in the order in which they start.** -/
theorem spans_nest {source : Text} {d : Document} (h : parse source = .ok d) :
    (∀ n above, (n, above) ∈ d.places → n.Contains) ∧
      (((Node.document d).tree.visit fun _ => some .walk).filterMap Node.span).Pairwise
        fun s t => s.start.offset ≤ t.start.offset := by
  obtain ⟨lo, hi, fit⟩ := fit_of_parse h
  obtain ⟨lo', hi', spread⟩ := spread_of_parse h
  obtain ⟨s, span, _, _, below⟩ := fit.inv (by simp [Node.kind])
  refine ⟨fun n above place => fit.contains [] (n, above) ?_, ?_⟩
  · simpa [Tree.occurrencesAll, Document.places] using place
  · obtain ⟨ordered, bounds⟩ := spread.ordered below
    rw [Tree.visit_walk, Node.tree_eq, Tree.preorder, List.filterMap_cons, span]
    exact .cons (fun t ht => (bounds t ht).2.1) ordered

/-- A range operator between two literals, and a group choice without entries. -/
theorem spans_nest_sample : ∃ d, parse "a = 1..2 b = [// int]" = .ok d ∧
    ((∀ n above, (n, above) ∈ d.places → n.Contains) ∧
      (((Node.document d).tree.visit fun _ => some .walk).filterMap Node.span).Pairwise
        fun s t => s.start.offset ≤ t.start.offset) := by
  have read : ∃ d, parse "a = 1..2 b = [// int]" = .ok d ∧ decide (d.rules.length = 2) = true :=
    exists_parse (n := 12) (p := fun d => decide (d.rules.length = 2)) (by decide +kernel)
  obtain ⟨d, h, _⟩ := read
  exact ⟨d, h, spans_nest h⟩

end Cddl
