import Cddl.Proofs.Grammar
import Cddl.Proofs.Phrase.Complete.Document
import Cddl.Proofs.Reading.Request
/-!
# What lists of tokens spell

Behind the tokens of a list the end of input is read, over and over.  A list that has none among its own tokens is read
to a document whose rules are spelled by all of them (`spells_of_parseTokens`), and what they spell is read
(`exists_parseTokens`).  One that is read as a type up to its end spells the type (`spells_of_asType?`).
-/
namespace Cddl

open Production Reader

variable {ts us : List Token} {w v : Window} {rs : List Rule} {d : Document} {ty : TypeExpr} {i : Nat}

/-- What is read behind the tokens of a list. -/
def endBehind (ts : List Token) : Token := tokenAt ts ts.length

theorem endBehind_ends (ts : List Token) : (endBehind ts).is .endOfInput = true := tokenAt_of_length_le (Nat.le_refl _)

theorem tokenAt_behind (h : ts.length ≤ i) : tokenAt ts i = endBehind ts := by
  unfold endBehind tokenAt
  rw [List.getElem?_eq_none h, List.getElem?_eq_none (Nat.le_refl _)]

theorem Window.exists_shows (ts : List Token) :
    ∃ w, ofFeed (.ofTokens ts) = .ok w ∧ w.Shows (ts ++ [endBehind ts, endBehind ts]) := by
  obtain ⟨w, hw, _⟩ := Window.exists_standsAt ts
  refine ⟨w, hw, fun i t hi => ?_⟩
  rw [item_ofFeed hw, Feed.item_tokenAt]
  rcases Nat.lt_or_ge i ts.length with inside | behind
  · rw [List.getElem?_append_left inside] at hi
    unfold tokenAt
    rw [hi]
    rfl
  · rw [List.getElem?_append_right behind] at hi
    rw [tokenAt_behind behind]
    match i - ts.length, hi with
    | 0, hi | 1, hi => exact congrArg Except.ok (Option.some.inj hi)

/-- A walk from the first token of a list to the end of input takes all tokens of the list. -/
theorem Window.Steps.takes_all (walk : w.Steps us v) (hw : ofFeed (.ofTokens ts) = .ok w) (hus : Unended us)
    (ends : v.current.is .endOfInput = true) (whole : Unended ts) :
    us = ts ∧ v.Shows [endBehind ts, endBehind ts] := by
  have all : us = ts := by
    obtain ⟨rest, rfl, head⟩ := exists_append_of_steps (Feed.ends_ofTokens ts) walk hus (item_ofFeed hw) ends
    cases rest with
    | nil => exact (List.append_nil _).symm
    | cons e rest =>
      have more := whole e (List.mem_append_right _ List.mem_cons_self)
      rw [head e rfl] at more
      cases more
  subst all
  have item (n : Nat) : v.item n = .ok (endBehind us) := by
    rw [walk.item, item_ofFeed hw, Feed.item_tokenAt, tokenAt_behind (Nat.le_add_right _ _)]
  refine ⟨rfl, fun i t hi => ?_⟩
  match i, hi with
  | 0, hi | 1, hi =>
    rw [item]
    exact congrArg Except.ok (Option.some.inj hi)

/-- **All tokens of a list that is read to a document spell its rules.** -/
theorem spells_of_parseTokens {shown : Text} (h : parseTokens ts shown = .ok d) (whole : Unended ts) :
    SpellsRules d.rules ts [endBehind ts, endBehind ts] := by
  obtain ⟨w, v, us, hw, walk, ends, _, spelled⟩ := parseFeed_ok (Feed.ends_ofTokens ts) (parseTokens_eq_ok_iff.1 h)
  have rules := spelled _ (List.cons_ne_nil _ _) v.shows_pair
  obtain ⟨rfl, behind⟩ := walk.takes_all hw rules.unended ends whole
  exact spelled _ (List.cons_ne_nil _ _) behind

/-- **A list of tokens is read to the rules that they spell.** -/
theorem exists_parseTokens (h : SpellsRules rs ts [endBehind ts, endBehind ts]) (shown : Text) :
    ∃ d, parseTokens ts shown = .ok d ∧ d.rules = rs := by
  obtain ⟨w, hw, shows_⟩ := Window.exists_shows ts
  obtain ⟨v, walk, behind⟩ := Window.Steps.of_shows shows_
  have ends : v.current.is .endOfInput = true := by
    rw [behind.current]
    exact endBehind_ends ts
  have read := parseFeed_of_spells (Feed.ends_ofTokens ts) hw h (Nat.le_refl _) walk behind ends
  exact ⟨⟨rs, some ⟨w.current.location, v.lastStop⟩⟩, parseTokens_eq_ok_iff.2 read, rfl⟩

/-- What is seen of the document that a list of tokens is read to. -/
theorem exists_parseTokens_of_any {shown : Text} {p : Document → Bool}
    (h : (parseTokens ts shown).toOption.any p = true) : ∃ d, parseTokens ts shown = .ok d ∧ p d = true := by
  obtain ⟨d, read, holds⟩ := (Option.any_eq_true ..).1 h
  exact ⟨d, toOption_eq_some_iff.1 read, holds⟩

/-- The type that a list of tokens is read as, if nothing is left of it then. -/
def asType? (ts : List Token) : Option TypeExpr :=
  match Session.ofFeed (.ofTokens ts) with
  | .error _ => none
  | .ok s =>
    match s.ask (.part .type) with
    | (.ok (some (.type ty)), s') => if s'.window.current.is .endOfInput then some ty else none
    | _ => none

theorem exists_session_of_asType? (h : asType? ts = some ty) : ∃ w s', Window.ofFeed (.ofTokens ts) = .ok w ∧
    Session.ask ⟨w, []⟩ (.part .type) = (.ok (some (.type ty)), s') ∧ s'.window.current.is .endOfInput = true := by
  unfold asType? Session.ofFeed at h
  cases hw : Window.ofFeed (.ofTokens ts) with
  | error fault =>
    rw [hw] at h
    cases h
  | ok w =>
    rw [hw] at h
    simp only [Except.map] at h
    split at h
    · rename_i s' asked
      split at h
      · cases h
        exact ⟨w, s', rfl, asked, ‹_›⟩
      · cases h
    · cases h

/-- **All tokens of a list that is read as a type spell it.** -/
theorem spells_of_asType? (h : asType? ts = some ty) (whole : Unended ts) :
    ∃ pre, Spells (.type ty) pre ts [endBehind ts, endBehind ts] := by
  obtain ⟨w, s', hw, asked, ends⟩ := exists_session_of_asType? h
  have given : (Part.reader .type).Gives w (some (.type ty)) s'.window := by
    unfold Session.ask at asked
    simp only [Session.read_eq, Prod.mk.injEq] at asked
    obtain ⟨result, rfl⟩ := asked
    exact Prod.ext result rfl
  simp only [Part.reader, closed, gives_bind, gives_get, gives_pure, and_assoc, exists_and_left,
    exists_eq_left'] at given
  obtain ⟨_, v, given, same, rfl⟩ := given
  cases same
  have ended := Window.ends_ofFeed (Feed.ends_ofTokens ts) hw
  obtain ⟨us, walk, spelled⟩ :=
    reads_typeExpr (reads_type1 (reads_nested w.size)) w ty _ ended (Nat.le_succ _) given
  have type := spelled _ (List.cons_ne_nil _ _) s'.window.shows_pair
  obtain ⟨rfl, behind⟩ := walk.takes_all hw type.unended ends whole
  exact ⟨w.lastStop, spelled _ (List.cons_ne_nil _ _) behind⟩

end Cddl
