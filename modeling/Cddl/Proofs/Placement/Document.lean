import Cddl.Proofs.Placement.Phrase
/-!
# Where the nodes of a document stand

The rules of a document that is read from a text stand in it in their order (`spread_of_parse`), and so does everything
below them.
-/
namespace Cddl

open Production

variable {lo hi : Int} {t : Token} {ts after : List Token}

namespace Spread

theorem genericParam (low : lo ≤ t.location.offset) (high : t.location.offset < hi) :
    Spread lo [.genericParam ⟨Production.identifier t, some t.span⟩] hi :=
  .one rfl low high (identifier low high)

/-- A rule in the place where all its parts are. -/
theorem typeRule {r : TypeRule} {s : Span} (span : r.span = some s) (low : lo ≤ s.start.offset)
    (high : s.start.offset < hi) (below : Spread lo (Node.typeRule r).children hi) :
    Spread lo [.rule ⟨.type r, some s⟩] hi := .one rfl low high (.one span low high below)

theorem groupRule {r : GroupRule} {s : Span} (span : r.span = some s) (low : lo ≤ s.start.offset)
    (high : s.start.offset < hi) (below : Spread lo (Node.groupRule r).children hi) :
    Spread lo [.rule ⟨.group r, some s⟩] hi := .one rfl low high (.one span low high below)

end Spread

theorem SpellsMoreParams.spread {ps : List GenericParam} (h : SpellsMoreParams ps ts after) :
    after ≠ [] → Laid (ts ++ after) → Spread (startOf (ts ++ after)) (ps.map .genericParam) (startOf after) := by
  induction h with
  | nil => exact fun _ _ => .nil (Int.le_refl _)
  | cons mark name more ih =>
    intro hne laid
    have comma := laid.start_lt (not_end_of_is mark (by decide)) (by simp)
    have first := laid.tail.start_lt (not_end_of_is name (by decide)) (by simp [hne])
    exact (Spread.genericParam (Int.le_of_lt comma) first).append (ih hne laid.tail.tail)

theorem SpellsParams.spread {params : Option GenericParams} (h : SpellsParams params ts after) (hne : after ≠ [])
    (laid : Laid (ts ++ after)) : Spread (startOf (ts ++ after)) (Node.ofParams params) (startOf after) := by
  cases h with
  | none => exact .nil (Int.le_refl _)
  | some opening name more closing =>
    rename_i o t c ps ts
    have split : o :: t :: (ts ++ [c]) ++ after = o :: t :: (ts ++ c :: after) := by simp
    rw [split] at laid ⊢
    have angle := laid.start_lt (not_end_of_is opening (by decide)) (by simp)
    have first := laid.tail.start_lt (not_end_of_is name (by decide)) (by simp)
    have last := laid.tail.tail.right.start_lt (not_end_of_is closing (by decide)) hne
    have below := (Spread.genericParam (Int.le_refl _) first).append (more.spread (by simp) laid.tail.tail)
    exact .around rfl (Int.le_refl _) angle below (Int.le_of_lt last)

/-- A name, its parameters and what is assigned to it. -/
theorem spread_assigned {name eq : Token} {gp : Option GenericParams} {a : Assignment} {ps us : List Token}
    {body : List Node} (isName : name.is .name = true) (params : SpellsParams gp ps (eq :: (us ++ after)))
    (assigned : assignment? eq = some a) (hne : after ≠ []) (laid : Laid (name :: (ps ++ eq :: (us ++ after))))
    (placed : Laid (us ++ after) → Spread (startOf (us ++ after)) body (startOf after)) :
    name.location.offset < startOf after ∧
      Spread name.location.offset (.identifier (identifier name) :: (Node.ofParams gp ++ body)) (startOf after) := by
  have first := laid.start_lt (not_end_of_is isName (by decide)) (by simp)
  have front := params.spread (by simp) laid.tail
  have assign := laid.tail.right.start_lt (not_end_of_assignment? assigned) (by simp [hne])
  have below := (front.mono (Int.le_refl _) (Int.le_of_lt assign)).append (placed laid.tail.right.tail)
  exact ⟨Int.lt_of_lt_of_le first below.le, (Spread.identifier (Int.le_refl _) first).append below⟩

theorem SpellsRule.spread {r : Rule} (h : SpellsRule r ts after) (hne : after ≠ []) (laid : Laid (ts ++ after)) :
    Spread (startOf (ts ++ after)) [.rule r] (startOf after) := by
  cases h with
  | type isName params assigned _ _ type =>
    rw [List.cons_append, List.append_assoc, List.cons_append] at laid ⊢
    obtain ⟨less, below⟩ := spread_assigned isName params assigned hne laid fun laid => by
      simpa [Phrase.Placed, Phrase.nodes, Phrase.lead, Phrase.slack] using placed_of_spells type hne laid
    exact .typeRule rfl (Int.le_refl _) less below
  | group isName params assigned _ _ entry =>
    rw [List.cons_append, List.append_assoc, List.cons_append] at laid ⊢
    obtain ⟨less, below⟩ := spread_assigned isName params assigned hne laid fun laid => by
      simpa [Phrase.Placed, Phrase.nodes, Phrase.lead, Phrase.slack] using placed_of_spells entry hne laid
    exact .groupRule rfl (Int.le_refl _) less below

theorem SpellsRules.spread {rs : List Rule} (h : SpellsRules rs ts after) :
    after ≠ [] → Laid (ts ++ after) → Spread (startOf (ts ++ after)) (rs.map .rule) (startOf after) := by
  induction h with
  | nil => exact fun _ _ => .nil (Int.le_refl _)
  | cons first more ih =>
    intro hne laid
    rw [List.append_assoc] at laid ⊢
    exact (first.spread (List.append_ne_nil_of_right_ne_nil _ hne) laid).append (ih hne laid.right)

/-! ## The tokens of a text -/

/-- What a window on a text shows stands in the text. -/
theorem laid_of_shows {c : Cursor} {w : Window} (h : Window.ofFeed (.ofCursor c) = .ok w) (shows_ : w.Shows ts) :
    Laid ts := by
  have item {i : Nat} (hi : i < ts.length) : (Feed.ofCursor c).item i = .ok ts[i] := by
    rw [← Window.item_ofFeed h]
    exact shows_ i _ (List.getElem?_eq_getElem hi)
  refine ⟨List.pairwise_iff_getElem.2 fun i j hi hj less => Feed.stop_le_of_item less (item hi) (item hj), ?_⟩
  intro t ht
  obtain ⟨i, hi, rfl⟩ := List.mem_iff_getElem.1 ht
  exact (Feed.read_of_item (item hi)).1

/-- A text can be read if its tokens can. -/
theorem exists_parse {source : Text} {n : Nat} {p : Document → Bool}
    (h : ((Feed.within n (.start source)).any fun f => (parseFeed f).toOption.any p) = true) :
    ∃ d, parse source = .ok d ∧ p d = true := by
  obtain ⟨f, hf, ok⟩ := (Option.any_eq_true ..).1 h
  obtain ⟨d, hd, ok⟩ := (Option.any_eq_true ..).1 ok
  refine ⟨d, parse_eq_ok_iff.2 ?_, ok⟩
  rw [Feed.ofText, Feed.ofCursor_of_within hf]
  exact toOption_eq_some_iff.1 hd

theorem exists_parse_of_within {source : Text} {n : Nat}
    (h : ((Feed.within n (.start source)).any fun f => (parseFeed f).toOption.isSome) = true) :
    ∃ d, parse source = .ok d := by
  obtain ⟨d, read, _⟩ := exists_parse (n := n) (p := fun _ => true) (by simpa only [Option.any_true] using h)
  exact ⟨d, read⟩

theorem not_parse_of_within {source : Text} {n : Nat}
    (h : ((Feed.within n (.start source)).any fun f => (parseFeed f).toOption.isNone) = true) (d : Document) :
    parse source ≠ .ok d := by
  intro read
  obtain ⟨f, hf, fails⟩ := (Option.any_eq_true ..).1 h
  have ok := parse_eq_ok_iff.1 read
  rw [Feed.ofText, Feed.ofCursor_of_within hf] at ok
  rw [ok] at fails
  cases fails

/-- **The rules of a document that is read from a text stand in it in their order.** -/
theorem spread_of_parse {source : Text} {d : Document} (h : parse source = .ok d) :
    ∃ lo hi, Spread lo (Node.document d).children hi := by
  obtain ⟨w, v, ts, hw, hts, _, _, rules⟩ := parseFeed_ok (Feed.ends_ofCursor _) (parse_eq_ok_iff.1 h)
  have laid := laid_of_shows hw (hts.shows v.shows_pair)
  exact ⟨_, _, (rules _ (List.cons_ne_nil _ _) v.shows_pair).spread (List.cons_ne_nil _ _) laid⟩

end Cddl
