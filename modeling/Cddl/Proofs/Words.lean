import Cddl.Proofs.Layout.Document
import Cddl.Proofs.Layout.Kept
import Cddl.Proofs.RoundTrip
import Cddl.Proofs.Joined
/-!
# What is kept when a document is written

What a document is written as says what the text does that it was read from, word for word (`render_keeps_words`).  A
range in one token comes back as three, and a zero without its sign.  Only the end of a key in parentheses is not kept
as it is: the tree has no place for a cut behind it, nor for a comma at the end of a type in it (`lost_words`).
-/
namespace Cddl

open Production Layout

variable {source : Text} {d : Document} {l : Location} {name eq : Token} {ts us gs after : List Token} {a : Assignment}
  {r : Text} {qs : List Piece}

/-! ## Rules -/

theorem restates_moreParams {params : List GenericParam} (h : SpellsMoreParams params ts after) (read : AllExact ts) :
    Restates (renderMoreParams params) ts := by
  induction h with
  | nil => exact ⟨[], .nil, .nil⟩
  | cons mark name _ ih =>
    simp only [allExact_cons] at read
    obtain ⟨ps, writes, keeps⟩ := ih read.2.2
    refine ⟨_, writes_moreParams name (read.2.1.plain_of_is name) writes, ?_⟩
    exact .mark mark (by decide) (.name name (by decide) keeps)

theorem restates_params {params : Option GenericParams} (h : SpellsParams params ts after) (read : AllExact ts) :
    Restates ((params.map GenericParams.render).getD []) ts := by
  cases h with
  | none => exact ⟨[], .nil, .nil⟩
  | @some o t c params ts after opening name more closing =>
    simp only [allExact_cons, allExact_append] at read
    obtain ⟨ps, writes, keeps⟩ := restates_moreParams more read.2.2.1
    refine ⟨_, writes_someParams name (read.2.1.plain_of_is name) writes, ?_⟩
    have inner : Keeps (t :: ts) (words (.token (.mark .name) t.text :: ps)) := .name name (by decide) keeps
    exact keeps_enclosed (by decide) (by decide) opening inner closing

theorem restates_assigned {gp : Option GenericParams} (isName : name.is .name = true)
    (params : SpellsParams gp gs (eq :: (us ++ after))) (assigned : assignment? eq = some a)
    (read : AllExact (name :: (gs ++ eq :: us))) (body : Restates r us) :
    Restates (renderHead (identifier name) gp ++ " " ++ a.symbol ++ " " ++ r) (name :: (gs ++ eq :: us)) := by
  simp only [allExact_cons, allExact_append] at read
  obtain ⟨ps, writes, keeps⟩ := restates_params params read.2.1
  obtain ⟨qs, writes', keeps'⟩ := body
  refine ⟨_, writes_assigned isName (read.1.plain_of_is isName) writes writes', ?_⟩
  have fixed : a.mark.varies = false := by cases a <;> decide
  have said : words (rulePieces name.text ps a qs) =
      .named .name name.text :: (words ps ++ .mark a.mark :: words qs) := by
    simp [rulePieces, Token.Body.words_mark fixed, Token.Body.words_named (show Mark.varies .name = true by decide)]
  rw [said]
  exact .name isName (by decide) (keeps.append (.mark (is_mark_of_assignment? assigned) fixed keeps'))

theorem restates_rule {r : Rule} (h : SpellsRule r ts after) (read : AllExact ts) : Restates r.render ts := by
  cases h with
  | type isName params assigned _ kind type =>
    have parts := read
    simp only [allExact_cons, allExact_append] at parts
    rw [render_typeRule kind]
    exact restates_assigned isName params assigned read (kept_of_spells type parts.2.2.2).1
  | group isName params assigned _ kind entry =>
    have parts := read
    simp only [allExact_cons, allExact_append] at parts
    rw [render_groupRule kind]
    exact restates_assigned isName params assigned read (kept_of_spells entry parts.2.2.2).1

theorem restates_rules {rs : List Rule} (h : SpellsRules rs ts after) (read : AllExact ts) :
    Restates (Text.join "\n" (rs.map Rule.render)) ts := by
  induction h with
  | nil => exact ⟨[], .nil, .nil⟩
  | @cons r rs _ _ _ first _ ih =>
    rw [allExact_append] at read
    obtain ⟨ps, writes, keeps⟩ := restates_rule first read.1
    obtain ⟨qs, writes', keeps'⟩ := ih read.2
    refine ⟨_, writes_lines writes writes', keeps.pieces ?_⟩
    cases rs with
    | nil => exact keeps'
    | cons r rs => exact keeps'

/-! ## Documents -/

/-- A text in pieces is read to tokens that say what the pieces do. -/
theorem Layout.Writes.tokenize {t : Text} {ps : List Piece} (h : Writes t ps) :
    ∃ us, Cddl.tokenize t = .ok us ∧ us.flatMap Token.words = words ps ++ [.mark .endOfInput] := by
  have feed := Feed.ofCursor_layout (h.scans [] delimits_nil) .start [] rfl
  rw [List.nil_append, h.text] at feed
  refine ⟨tokens .start ps ++ [.endAt (Location.past .start t)], ?_, ?_⟩
  · rw [Cddl.tokenize, Feed.ofText, Cursor.start, feed, Feed.sealed, Cursor.Run.mapM_ok_append]
    rfl
  · rw [List.flatMap_append, flatMap_words]
    rfl

/-- **What a document is written as says what its text did**, but for a comma at the end of a key in parentheses and a
cut behind one, and that word for word if the text has neither. -/
theorem render_keeps_words (h : parse source = .ok d) (read : tokenize source = .ok ts)
    (whole : ts.any Token.hasFloat = false) : ∃ us, tokenize d.render = .ok us ∧ Keeps ts (us.flatMap Token.words) ∧
      (mayLose ts = false → us.flatMap Token.words = ts.flatMap Token.words) := by
  obtain ⟨ts', l, run, spelled⟩ := Cursor.Run.ended_of_parse h
  have same : ts = ts' ++ [.endAt l] := Except.ok.inj (read.symm.trans run.tokenize_ok)
  subst same
  have exacts : AllExact ts' := fun t ht =>
    ⟨run.read t (List.mem_append_left _ ht), by simpa using List.any_eq_false.1 whole t (List.mem_append_left _ ht)⟩
  obtain ⟨ps, writes, keeps⟩ := restates_rules spelled exacts
  obtain ⟨us, again, said⟩ := writes.tokenize
  have kept : Keeps (ts' ++ [.endAt l]) (us.flatMap Token.words) := by
    rw [said]
    exact keeps.append (.mark rfl (by decide) .nil)
  exact ⟨us, again, kept, kept.eq_words⟩

/-- A text can be cut into tokens if that ends. -/
theorem exists_tokenize {n : Nat} {p : List Token → Bool}
    (h : ((Feed.within n (.start source)).any fun f => (f.items.mapM id).toOption.any p) = true) :
    ∃ ts, tokenize source = .ok ts ∧ p ts = true := by
  obtain ⟨f, hf, ok⟩ := (Option.any_eq_true ..).1 h
  obtain ⟨ts, hts, ok⟩ := (Option.any_eq_true ..).1 ok
  refine ⟨ts, ?_, ok⟩
  rw [tokenize, Feed.ofText, Feed.ofCursor_of_within hf]
  exact toOption_eq_some_iff.1 hts

/-- A cut behind a bare key, and a range in one token that begins with a signed zero. -/
theorem render_keeps_words_sample : ∃ d ts us, parse "a = \x7bint ^ => -0..0x2\x7d" = .ok d ∧
    tokenize "a = \x7bint ^ => -0..0x2\x7d" = .ok ts ∧ ts.any Token.hasFloat = false ∧ mayLose ts = false ∧
      tokenize d.render = .ok us ∧ us.flatMap Token.words = ts.flatMap Token.words := by
  have parsed : ∃ d, parse "a = \x7bint ^ => -0..0x2\x7d" = .ok d := exists_parse_of_within (n := 9) (by decide +kernel)
  have read : ∃ ts, tokenize "a = \x7bint ^ => -0..0x2\x7d" = .ok ts ∧
      (!ts.any Token.hasFloat && !mayLose ts) = true := exists_tokenize (n := 9) (by decide +kernel)
  obtain ⟨d, h⟩ := parsed
  obtain ⟨ts, read, ok⟩ := read
  rw [Bool.and_eq_true, Bool.not_eq_true', Bool.not_eq_true'] at ok
  obtain ⟨us, again, _, all⟩ := render_keeps_words h read ok.1
  exact ⟨d, ts, us, h, read, ok.1, ok.2, again, all ok.2⟩

/-- **Words are lost.**  A cut behind a key in parentheses does not come back, nor does a comma at the end of one. -/
theorem lost_words : (∃ d ts us, parse "a = \x7b (int) ^ => b \x7d" = .ok d ∧
    tokenize "a = \x7b (int) ^ => b \x7d" = .ok ts ∧ ts.any Token.hasFloat = false ∧ tokenize d.render = .ok us ∧
      Word.mark .cut ∈ ts.flatMap Token.words ∧ Word.mark .cut ∉ us.flatMap Token.words) ∧
    ∃ d ts us, parse "a = \x7b (int,) => b \x7d" = .ok d ∧ tokenize "a = \x7b (int,) => b \x7d" = .ok ts ∧
      ts.any Token.hasFloat = false ∧ tokenize d.render = .ok us ∧ Word.mark .comma ∈ ts.flatMap Token.words ∧
        Word.mark .comma ∉ us.flatMap Token.words := by
  -- both are written as the same
  obtain ⟨us, again, gone⟩ : ∃ us, tokenize "a = \x7b (int) => b \x7d" = .ok us ∧
      decide (Word.mark .cut ∉ us.flatMap Token.words ∧ Word.mark .comma ∉ us.flatMap Token.words) = true :=
    exists_tokenize (n := 10) (by decide +kernel)
  have gone := of_decide_eq_true gone
  have lost (source : Text) {w : Word} (missing : w ∉ us.flatMap Token.words)
      (parsed : ∃ d, parse source = .ok d ∧ decide (d.render = "a = \x7b (int) => b \x7d") = true)
      (read : ∃ ts, tokenize source = .ok ts ∧
        decide (ts.any Token.hasFloat = false ∧ w ∈ ts.flatMap Token.words) = true) :
      ∃ d ts us, parse source = .ok d ∧ tokenize source = .ok ts ∧ ts.any Token.hasFloat = false ∧
        tokenize d.render = .ok us ∧ w ∈ ts.flatMap Token.words ∧ w ∉ us.flatMap Token.words := by
    obtain ⟨d, h, written⟩ := parsed
    obtain ⟨ts, read, there⟩ := read
    have there := of_decide_eq_true there
    exact ⟨d, ts, us, h, read, there.1, by rw [of_decide_eq_true written, again], there.2, missing⟩
  constructor
  · exact lost "a = \x7b (int) ^ => b \x7d" gone.1 (exists_parse (n := 11) (by decide +kernel))
      (exists_tokenize (n := 11) (by decide +kernel))
  · exact lost "a = \x7b (int,) => b \x7d" gone.2 (exists_parse (n := 11) (by decide +kernel))
      (exists_tokenize (n := 11) (by decide +kernel))

end Cddl
