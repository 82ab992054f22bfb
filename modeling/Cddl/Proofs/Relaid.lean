import Cddl.Proofs.Lockstep.Rule
import Cddl.Proofs.Recovery
/-!
# Tokens in other places

Where its tokens stand decides how a list of them is read in two cases only: reading resumes behind a fault at a rule
that begins past the one that has failed, and a bound belongs to an asterisk only right after it.  In a list whose
offsets increase the first comes down to the order of the tokens.  So two lists that differ in nothing but places, and
agree on which numbers are joined to an asterisk, are read alike, faults and all (`parseTokens_relaid`).
-/
namespace Cddl

open Production Reader

/-! ## Lists that differ in places -/

/-- A token without its place. -/
def Token.said (t : Token) : Token.Body × Text := (t.body, t.text)

/-- Two lists of the same tokens in other places, where offsets increase and the same numbers are joined to the asterisk
before them. -/
structure Relaid (ts us : List Token) : Prop where
  said : ts.map Token.said = us.map Token.said
  left : ts.Pairwise (·.location.offset < ·.location.offset)
  right : us.Pairwise (·.location.offset < ·.location.offset)
  joined {i : Nat} {star t star' t' : Token} (hs : ts[i]? = some star) (ht : ts[i + 1]? = some t)
    (hs' : us[i]? = some star') (ht' : us[i + 1]? = some t') (mark : star.is .asterisk = true)
    (number : t.isUint = true) : t.location.offset = star.stop.offset ↔ t'.location.offset = star'.stop.offset

/-- A report without the place that it points to. -/
def Diagnostic.unplaced (d : Diagnostic) : Diagnostic := { d with location := none }

/-- What is reported on a fault in tokens, but for its place. -/
def Fault.told (shown : Text) (fault : Fault) : Diagnostic := (fault.diagnostic shown shown).unplaced

variable {ts us : List Token} {lo : Nat} {shown : Text} {w w' : Window}

/-- A token of a stream that is not the end of input is one of the list. -/
theorem Feed.getElem?_of_item {i : Nat} {t : Token} (h : (ofTokens ts).item i = .ok t)
    (more : t.is .endOfInput = false) : ts[i]? = some t := by
  rw [item_ofTokens] at h
  cases here : ts[i]? with
  | some u =>
    rw [here] at h
    cases h
    rfl
  | none =>
    rw [here] at h
    cases h
    cases more

namespace Relaid

variable (h : Relaid ts us)
include h

theorem getElem? (i : Nat) : ts[i]?.map Token.said = us[i]?.map Token.said := by
  rw [← List.getElem?_map, ← List.getElem?_map, h.said]

theorem length : ts.length = us.length := by
  have := congrArg List.length h.said
  rwa [List.length_map, List.length_map] at this

theorem alike {i : Nat} {t t' : Token} (ht : (Feed.ofTokens ts).item i = .ok t)
    (ht' : (Feed.ofTokens us).item i = .ok t') : t.Alike .blind t' := by
  have same := h.getElem? i
  rw [Feed.item_ofTokens] at ht ht'
  cases here : ts[i]? with
  | none =>
    rw [here, Option.map_none] at same
    rw [here] at ht
    rw [Option.map_eq_none_iff.1 same.symm] at ht'
    cases ht
    cases ht'
    exact ⟨rfl, rfl, trivial⟩
  | some u =>
    rw [here, Option.map_some] at same
    obtain ⟨u', here', said⟩ := Option.map_eq_some_iff.1 same.symm
    rw [here] at ht
    rw [here'] at ht'
    cases ht
    cases ht'
    obtain ⟨body, text⟩ := Prod.mk.inj said
    exact ⟨body.symm, text.symm, trivial⟩

/-- Past a token come just those behind it, on both sides. -/
theorem past {i : Nat} (le : lo ≤ i) {a b a' b' : Token} (ha : ts[lo]? = some a) (hb : ts[i]? = some b)
    (ha' : us[lo]? = some a') (hb' : us[i]? = some b') :
    a.location.offset < b.location.offset ↔ a'.location.offset < b'.location.offset := by
  obtain ⟨hlo, rfl⟩ := List.getElem?_eq_some_iff.1 ha
  obtain ⟨hi, rfl⟩ := List.getElem?_eq_some_iff.1 hb
  obtain ⟨hlo', rfl⟩ := List.getElem?_eq_some_iff.1 ha'
  obtain ⟨hi', rfl⟩ := List.getElem?_eq_some_iff.1 hb'
  rcases Nat.lt_or_eq_of_le le with lt | rfl
  · have first := List.pairwise_iff_getElem.1 h.left _ _ hlo hi lt
    exact iff_of_true first (List.pairwise_iff_getElem.1 h.right _ _ hlo' hi' lt)
  · exact iff_of_false (Int.lt_irrefl _) (Int.lt_irrefl _)

end Relaid

/-! ## Windows on both lists -/

/-- Two windows at the same index of their streams, which is none before the given one. -/
def OnBoth (ts us : List Token) (lo : Nat) : WindowRel := fun w w' =>
  ∃ i, lo ≤ i ∧ w.On (.ofTokens ts) i ∧ w'.On (.ofTokens us) i ∧ w.feed.items.length = w'.feed.items.length

/-- Two faults that the same is reported on, with windows at the same index unless they end the reading. -/
def FailBoth (ts us : List Token) (shown : Text) (lo : Nat) (fault fault' : Fault) : WindowRel := fun w w' =>
  fault.told shown = fault'.told shown ∧ fault.isFatal = fault'.isFatal ∧
    (fault.isFatal = false → OnBoth ts us lo w w')

theorem Relaid.current (h : Relaid ts us) (hw : OnBoth ts us lo w w') : w.current.Alike .blind w'.current := by
  obtain ⟨i, _, on, on', _⟩ := hw
  exact h.alike (on.item 0).symm (on'.item 0).symm

theorem Relaid.upcoming (h : Relaid ts us) (hw : OnBoth ts us lo w w') : w.upcoming.Alike .blind w'.upcoming := by
  obtain ⟨i, _, on, on', _⟩ := hw
  exact h.alike (on.item 1).symm (on'.item 1).symm

theorem Relaid.uintAt? (h : Relaid ts us) (hw : OnBoth ts us lo w w') (star : w.current.is .asterisk = true) :
    uintAt? w.current.stop w.upcoming = uintAt? w'.current.stop w'.upcoming := by
  have first := h.current hw
  have second := h.upcoming hw
  obtain ⟨i, _, on, on', _⟩ := hw
  unfold Production.uintAt?
  rw [← second.body]
  split
  · rename_i n body
    have body' : w'.upcoming.body = .value (.uint n) := second.body ▸ body
    have star' : w'.current.is .asterisk = true := first.is _ ▸ star
    have same := h.joined (Feed.getElem?_of_item (on.item 0).symm (Token.not_is star (by decide)))
      (Feed.getElem?_of_item (on.item 1).symm (Token.not_is_of_body body (by simp)))
      (Feed.getElem?_of_item (on'.item 0).symm (Token.not_is star' (by decide)))
      (Feed.getElem?_of_item (on'.item 1).symm (Token.not_is_of_body body' (by simp))) star (Token.isUint_eq body)
    simp only [same]
  · rfl

theorem Token.Alike.describe {V : View} {t t' : Token} (h : t.Alike V t') : t.describe = t'.describe := by
  unfold Token.describe
  rw [h.is, h.body, h.text]

theorem Relaid.abreast (h : Relaid ts us) (shown : Text) :
    Abreast .blind (FailBoth ts us shown lo) (OnBoth ts us lo) where
  current := h.current
  upcoming := h.upcoming
  lastStop _ := trivial
  size hw := by
    have first := (h.current hw).is .endOfInput
    have second := (h.upcoming hw).is .endOfInput
    obtain ⟨_, _, _, _, rest⟩ := hw
    rw [Window.size, Window.size, first, second, rest]
  joined := h.uintAt?
  mismatch hw x := by
    refine ⟨?_, rfl, fun _ => hw⟩
    simp only [Fault.told, Fault.diagnostic, (h.current hw).describe]
    rfl
  parenthesis _ _ := ⟨rfl, rfl, nofun⟩

/-- A window on a list of tokens always moves on. -/
theorem Window.On.exists_advance {i : Nat} (on : w.On (.ofTokens ts) i) :
    ∃ v, w.advance = (.ok w.current, v) ∧ v.On (.ofTokens ts) (i + 1) ∧
      v.feed.items.length = w.feed.items.length - 1 := by
  have third : w.item 2 = .ok _ := (on.item 2).trans (Feed.item_ofTokens ts _)
  obtain ⟨v, move⟩ := Window.exists_advance third
  refine ⟨v, move, on.advance move, ?_⟩
  rw [(Window.advance_eq_ok move).2.2.1]
  unfold Feed.pull
  cases items : w.feed.items <;> simp [items]

theorem Relaid.forward (h : Relaid ts us) (shown : Text) :
    Forward .blind (FailBoth ts us shown lo) (OnBoth ts us lo) (OnBoth ts us lo) where
  outer := h.abreast shown
  inner := h.abreast shown
  widen := id
  advance hw _ := by
    have same := h.current hw
    obtain ⟨i, le, on, on', rest⟩ := hw
    obtain ⟨v, move, there, left⟩ := on.exists_advance
    obtain ⟨v', move', there', left'⟩ := on'.exists_advance
    rw [run_advance, run_advance, move, move']
    exact .ok same ⟨i + 1, Nat.le_succ_of_le le, there, there', by rw [left, left', rest]⟩

/-- The names past the start of a rule that has failed are the same on both sides. -/
theorem Relaid.past_start (h : Relaid ts us) {i : Nat} (on : w.On (.ofTokens ts) i) (on' : w'.On (.ofTokens us) i)
    (more : w.current.is .endOfInput = false) (v v' : Window) (hv : OnBoth ts us i v v')
    (name : v.current.is .name = true) :
    w.current.location.offset < v.current.location.offset ↔
      w'.current.location.offset < v'.current.location.offset := by
  have first := h.alike (on.item 0).symm (on'.item 0).symm
  have second := h.current hv
  obtain ⟨j, le, there, there', _⟩ := hv
  have named : v.current.is .endOfInput = false := Token.not_is name (by decide)
  exact h.past le (Feed.getElem?_of_item (on.item 0).symm more) (Feed.getElem?_of_item (there.item 0).symm named)
    (Feed.getElem?_of_item (on'.item 0).symm (first.is _ ▸ more))
    (Feed.getElem?_of_item (there'.item 0).symm (second.is _ ▸ named))

/-! ## Documents on both lists -/

namespace Session

/-- What two sessions come to: the same rules but for places, or the same fault; and the same has been collected. -/
inductive Alike (shown : Text) : Except Fault (List Rule) × Session → Except Fault (List Rule) × Session → Prop
  | ok {rs rs' : List Rule} {s s' : Session} (rules : rs.map Rule.erase = rs'.map Rule.erase)
      (collected : s.collected.map (Fault.told shown) = s'.collected.map (Fault.told shown)) :
      Alike shown (.ok rs, s) (.ok rs', s')
  | error {fault fault' : Fault} {s s' : Session} (told : fault.told shown = fault'.told shown)
      (collected : s.collected.map (Fault.told shown) = s'.collected.map (Fault.told shown)) :
      Alike shown (.error fault, s) (.error fault', s')

theorem Alike.cons {r r' : Rule} {x x' : Except Fault (List Rule) × Session} (same : r.erase = r'.erase)
    (h : Alike shown x x') : Alike shown (x.1.map (r :: ·), x.2) (x'.1.map (r' :: ·), x'.2) := by
  cases h with
  | ok rules collected => exact .ok (by rw [List.map_cons, List.map_cons, same, rules]) collected
  | error told collected => exact .error told collected

theorem rules_relaid (h : Relaid ts us) : ∀ (n : Nat) (s s' : Session) (lo : Nat), OnBoth ts us lo s.window s'.window →
    s.collected.map (Fault.told shown) = s'.collected.map (Fault.told shown) → Alike shown (rules n s) (rules n s')
  | 0, s, s', lo, _, collected => .ok rfl collected
  | n + 1, s, s', lo, hw, collected => by
    have same := h.current hw
    obtain ⟨i, _, on, on', rest⟩ := hw
    have hw : OnBoth ts us i s.window s'.window := ⟨i, Nat.le_refl _, on, on', rest⟩
    have step : Paired (FailBoth ts us shown i) (OnBoth ts us i) (Same (Rule.respan noSpan))
        ((closed rule).run.run s.window) ((closed rule).run.run s'.window) := by
      rw [run_closed, run_closed, ← (h.abreast shown).size hw]
      exact lockstep_rule (h.forward shown) (lockstep_nested (h.forward shown) _) _ _ hw
    unfold rules
    rw [← same.is]
    split
    · exact .ok rfl collected
    rename_i more
    simp only [read_eq]
    generalize (closed rule).run.run s.window = x at step
    generalize (closed rule).run.run s'.window = x' at step
    cases step with
    | @ok r r' v v' value windows =>
      simp only [Same, Rule.respan_noSpan] at value
      exact (rules_relaid h n ⟨v, s.collected⟩ ⟨v', s'.collected⟩ i windows collected).cons value
    | @error fault fault' v v' failed =>
      obtain ⟨told, fatal, windows⟩ := failed
      simp only []
      rw [← fatal]
      split
      · exact .error told collected
      rename_i mild
      have windows := windows (Bool.eq_false_iff.2 mild)
      have collected :
          (s.collected ++ [fault]).map (Fault.told shown) = (s'.collected ++ [fault']).map (Fault.told shown) := by
        rw [List.map_append, List.map_append, collected, List.map_singleton, List.map_singleton, told]
      have past := h.past_start on on' (Bool.eq_false_iff.2 more)
      have step := lockstep_resynchronize (h.forward shown) past v.size v v' windows
      simp only [recover, read_eq]
      rw [← (h.abreast shown).size windows]
      generalize (resynchronize s.window.current.location.offset v.size).run.run v = y at step
      generalize (resynchronize s'.window.current.location.offset v.size).run.run v' = y' at step
      cases step with
      | @ok _ _ u u' _ windows =>
        exact rules_relaid h n ⟨u, s.collected ++ [fault]⟩ ⟨u', s'.collected ++ [fault']⟩ i windows collected
      | error failed => exact .error failed.1 collected

end Session

/-! ## Reading both lists -/

/-- There is a window on a list of tokens. -/
theorem Window.exists_ofTokens (ts : List Token) :
    ∃ w, ofFeed (.ofTokens ts) = .ok w ∧ w.On (.ofTokens ts) 0 ∧ w.feed.items.length = ts.length - 2 := by
  obtain ⟨w, hw, rest⟩ : ∃ w, ofFeed (.ofTokens ts) = .ok w ∧ w.feed.items.length = ts.length - 2 := by
    match ts with
    | [] | [_] | _ :: _ :: _ => exact ⟨_, rfl, by simp [Feed.ofTokens]⟩
  exact ⟨w, hw, on_ofFeed hw, rest⟩

/-- **Lists of tokens that differ only in places are read alike.**  Either both spell documents that differ only in
spans, or the same faults are reported on both, but for places. -/
theorem parseTokens_relaid (h : Relaid ts us) (shown : Text) :
    (∃ d d', parseTokens ts shown = .ok d ∧ parseTokens us shown = .ok d' ∧ d.erase = d'.erase) ∨
      ∃ es es', parseTokens ts shown = .error es ∧ parseTokens us shown = .error es' ∧
        es.map Diagnostic.unplaced = es'.map Diagnostic.unplaced := by
  obtain ⟨w, hw, on, rest⟩ := Window.exists_ofTokens ts
  obtain ⟨w', hw', on', rest'⟩ := Window.exists_ofTokens us
  have windows : OnBoth ts us 0 w w' := ⟨0, Nat.le_refl _, on, on', by rw [rest, rest', h.length]⟩
  have step : Session.Alike shown (Session.rules w.size ⟨w, []⟩) (Session.rules w.size ⟨w', []⟩) :=
    Session.rules_relaid h w.size ⟨w, []⟩ ⟨w', []⟩ 0 windows rfl
  have told (faults : List Fault) :
      (faults.map (Fault.diagnostic shown shown)).map Diagnostic.unplaced = faults.map (Fault.told shown) :=
    List.map_map
  unfold parseTokens
  rw [parseFeed_of_window hw, parseFeed_of_window hw', ← (h.abreast shown).size windows]
  generalize Session.rules w.size ⟨w, []⟩ = x at step
  generalize Session.rules w.size ⟨w', []⟩ = x' at step
  cases step with
  | @ok rs rs' s s' rules collected =>
    have none : s.collected = [] ↔ s'.collected = [] := by
      rw [← List.map_eq_nil_iff (f := Fault.told shown), collected, List.map_eq_nil_iff]
    simp only []
    by_cases clean : s.collected = []
    · rw [if_pos clean, if_pos (none.1 clean)]
      exact .inl ⟨_, _, rfl, rfl, by rw [Document.erase, Document.erase, rules]⟩
    · rw [if_neg clean, if_neg fun clean' => clean (none.2 clean')]
      exact .inr ⟨_, _, rfl, rfl, by rw [told, told, collected]⟩
  | @error fault fault' s s' same collected =>
    refine .inr ⟨_, _, rfl, rfl, ?_⟩
    rw [told, told, List.map_append, List.map_append, collected, List.map_singleton, List.map_singleton, same]

/-- A number joined to an asterisk, close together and far apart. -/
theorem parseTokens_relaid_sample :
    let ts : List Token := [⟨.mark .name, "a", ⟨1, 1, 0⟩⟩, ⟨.mark .assign, "=", ⟨1, 2, 1⟩⟩,
      ⟨.mark .asterisk, "*", ⟨1, 3, 2⟩⟩, ⟨.value (.uint 5), "5", ⟨1, 4, 3⟩⟩, ⟨.mark .name, "b", ⟨1, 6, 5⟩⟩]
    let us : List Token := [⟨.mark .name, "a", ⟨1, 3, 2⟩⟩, ⟨.mark .assign, "=", ⟨2, 1, 9⟩⟩,
      ⟨.mark .asterisk, "*", ⟨3, 1, 12⟩⟩, ⟨.value (.uint 5), "5", ⟨3, 2, 13⟩⟩, ⟨.mark .name, "b", ⟨4, 1, 20⟩⟩]
    Relaid ts us ∧ ((∃ d d', parseTokens ts [] = .ok d ∧ parseTokens us [] = .ok d' ∧ d.erase = d'.erase) ∨
      ∃ es es', parseTokens ts [] = .error es ∧ parseTokens us [] = .error es' ∧
        es.map Diagnostic.unplaced = es'.map Diagnostic.unplaced) := by
  intro ts us
  have h : Relaid ts us := by
    refine ⟨rfl, by decide, by decide, fun {i _ _ _ _} hs ht hs' ht' mark number => ?_⟩
    match i, hs, ht, hs', ht' with
    | 0, hs, _, _, _ => cases hs; cases mark
    | 1, hs, _, _, _ => cases hs; cases mark
    | 2, hs, ht, hs', ht' => cases hs; cases ht; cases hs'; cases ht'; decide
    | 3, hs, _, _, _ => cases hs; cases mark
    | 4, hs, _, _, _ => cases hs; cases mark
    | _ + 5, hs, _, _, _ => cases hs
  exact ⟨h, parseTokens_relaid h []⟩

end Cddl
