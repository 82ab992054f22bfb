import Cddl.Proofs.Layout.Group
import Cddl.Proofs.Token.Word
/-!
# What is kept of a phrase

The text that a phrase is written as says what the tokens of the phrase do.  Other than for reading it again, it makes
no difference here that a zero loses its sign.
-/
namespace Cddl

open Production Layout

/-- A text in pieces that keep the words of some tokens. -/
def Layout.Restates (t : Text) (ts : List Token) : Prop := ∃ ps, Writes t ps ∧ Keeps ts (words ps)

def Literal.isFloat : Literal → Bool
  | .float _ => true
  | _ => false

/-- Whether there is a floating-point number in a token. -/
def Token.hasFloat (t : Token) : Bool := t.literals.any Literal.isFloat

/-- A token that was read from a text and has no floating-point number in it. -/
structure Token.Exact (t : Token) : Prop where
  read : t.Read
  whole : t.hasFloat = false

def AllExact (ts : List Token) : Prop := ∀ t ∈ ts, t.Exact

variable {p : Phrase} {pre : Location} {t o c k : Token} {ts us os as after : List Token} {m : Mark} {s : Option Span}
  {ps qs : List Piece} {g : Group} {e : GroupEntry} {ty : TypeExpr} {oc : Option Occurrence} {cut : Bool} {v : Literal}

@[simp] theorem allExact_cons : AllExact (t :: ts) ↔ t.Exact ∧ AllExact ts := List.forall_mem_cons

@[simp] theorem allExact_append : AllExact (ts ++ us) ↔ AllExact ts ∧ AllExact us := List.forall_mem_append

/-! ## Tokens -/

theorem Token.Exact.plain_of_is (h : t.Exact) (is : t.is m = true) : t.Plain := by
  refine plain_of_read h.read fun v hv => ?_
  rw [Token.literals, Token.is_iff.1 is] at hv
  cases hv

theorem Token.Exact.plain_of_uint {n : Int} (h : t.Exact) (body : t.body = .value (.uint n)) : t.Plain := by
  refine plain_of_read h.read fun v hv => ?_
  rw [Token.literals, body] at hv
  cases List.mem_singleton.1 hv
  rintro (h | ⟨x, h⟩) <;> cases h

/-- A literal that is no floating-point number is read again to one that says the same. -/
theorem exists_scanned (readable : v.Readable) (whole : ∀ x, v ≠ .float x) :
    ∃ w, w.word = v.word ∧ ∀ rest, Delimits rest → Scanned (.value w) v.render rest := by
  by_cases zero : v = .int 0
  · subst zero
    exact ⟨.uint 0, rfl, fun rest hr => scanned_uint (Int.le_refl 0) hr⟩
  · have writable : v.Writable := by
      refine readable.writable ?_
      rintro (h | ⟨x, h⟩)
      · exact zero h
      · exact whole x h
    exact ⟨v, rfl, fun rest hr => scanned_literal writable hr⟩

theorem Token.Exact.exists_scanned (h : t.Exact) (hv : v ∈ t.literals) :
    ∃ w, w.word = v.word ∧ ∀ rest, Delimits rest → Scanned (.value w) v.render rest := by
  refine Cddl.exists_scanned (readable_of_read h.read v hv) ?_
  rintro x rfl
  exact absurd (List.any_eq_true.2 ⟨_, hv, rfl⟩) (Bool.eq_false_iff.1 h.whole)

theorem words_of_value (body : t.body = .value v) : t.words = [v.word] := by
  rw [Token.words, body]
  rfl

/-! ## Operands -/

theorem restates_literal (body : t.body = .value v) (read : t.Exact) :
    Restates (Phrase.type2 (.literal v s)).render [t] := by
  have listed : v ∈ t.literals := by simp [Token.literals, body]
  obtain ⟨w, word, scanned⟩ := read.exists_scanned listed
  refine ⟨_, writes_literal scanned, ?_⟩
  have same : t.words = (Token.Body.value w).words v.render := by rw [words_of_value body, ← word]; rfl
  exact .same same .nil

theorem restates_range {lower upper : Literal} {inclusive : Bool} {stop : Location}
    (body : t.body = .range lower upper inclusive) (read : t.Exact) :
    Restates (Phrase.type1 (rangeType1 t lower upper inclusive stop)).render [t] := by
  have lists : t.literals = [lower, upper] := by rw [Token.literals, body]
  obtain ⟨w, word, scanned⟩ := read.exists_scanned (show lower ∈ t.literals by simp [lists])
  obtain ⟨w', word', scanned'⟩ := read.exists_scanned (show upper ∈ t.literals by simp [lists])
  refine ⟨_, writes_range scanned scanned', ?_⟩
  have same : words (rangePieces lower upper (.value w) (.value w') inclusive) = t.words := by
    rw [Token.words, body, Token.Body.words, ← word, ← word']
    rfl
  rw [same]
  exact .single t

theorem keeps_enclosed {m m' : Mark} {f f' gap : Text} (hm : m.varies = false) (hm' : m'.varies = false)
    (opening : o.is m = true) (inner : Keeps ts (words ps)) (closing : c.is m' = true) :
    Keeps (o :: (ts ++ [c])) (words (enclosed m m' f f' gap ps)) := by
  have said : words (enclosed m m' f f' gap ps) = .mark m :: (words ps ++ [.mark m']) := by
    simp [enclosed, Token.Body.words_mark, hm, hm']
  rw [said]
  exact .mark opening hm (inner.append (.mark closing hm' .nil))

theorem keeps_token {b : Token.Body} (body : t.body = b) (hb : ∀ m, b ≠ .mark m) {f : Text}
    (more : Keeps ts (words ps)) : Keeps (t :: ts) (words (.token b f :: ps)) := by
  have same : t.words = b.words f := by
    rw [Token.words, body]
    cases b with
    | mark m => exact absurd rfl (hb m)
    | _ => rfl
  exact .same same more

theorem Keeps.pieces (h : Keeps ts (words ps)) (h' : Keeps us (words qs)) : Keeps (ts ++ us) (words (ps ++ qs)) := by
  rw [words_append]
  exact h.append h'

theorem words_gapPieces (es : List ListedEntry) (ps : List Piece) : words (gapPieces es ++ ps) = words ps := by
  cases es <;> rfl

/-! ## Occurrences -/

/-- A token that can be a part of an occurrence. -/
def Token.Counts (t : Token) : Prop :=
  (∃ n, t.body = .value (.uint n)) ∨ ∃ m, t.body = .mark m ∧ m ∈ [Mark.optional, .plus, .asterisk]

theorem Token.Counts.of_is (h : t.is m = true) (hm : m ∈ [Mark.optional, .plus, .asterisk]) : t.Counts :=
  .inr ⟨m, Token.is_iff.1 h, hm⟩

theorem Token.Counts.not_is (h : t.Counts) (hm : m ∉ [Mark.optional, .plus, .asterisk]) : t.is m = false := by
  rcases h with ⟨n, body⟩ | ⟨m', body, listed⟩
  · exact Token.not_is_of_value body
  · refine Token.not_is_of_body body fun same => ?_
    cases same
    exact hm listed

/-- What a token of an occurrence says is in its body. -/
theorem Token.Counts.words_eq {t' : Token} (h : t.Counts) (body : t'.body = t.body) : t'.words = t.words := by
  rw [Token.words, Token.words, body]
  rcases h with ⟨n, own⟩ | ⟨m, own, listed⟩
  · rw [own]
    rfl
  · have fixed : ∀ m ∈ [Mark.optional, .plus, .asterisk], m.varies = false := by decide
    rw [own, Token.Body.words_mark (fixed m listed), Token.Body.words_mark (fixed m listed)]

theorem SpellsOccurrence.counts (h : SpellsOccurrence oc os after) : ∀ t ∈ os, t.Counts := by
  have uint {t : Token} {n : Int} (body : t.body = .value (.uint n)) : t.Counts := .inl ⟨n, body⟩
  cases h with
  | none => simp
  | optional mark => simp [Token.Counts.of_is mark]
  | oneOrMore mark => simp [Token.Counts.of_is mark]
  | zeroOrMore mark => simp [Token.Counts.of_is mark]
  | upTo mark upper => simp [Token.Counts.of_is mark, uint (body_of_uintAt? upper).1]
  | atLeast lower mark => simp [uint lower, Token.Counts.of_is mark]
  | fromTo lower mark upper => simp [uint lower, Token.Counts.of_is mark, uint (body_of_uintAt? upper).1]

/-- Tokens of an occurrence that are written anew say the same. -/
theorem Respelled.flatMap_words (h : Respelled ts us) (count : ∀ t ∈ ts, t.Counts) :
    us.flatMap Token.words = ts.flatMap Token.words := by
  induction h with
  | nil => rfl
  | same body _ ih =>
    rw [List.forall_mem_cons] at count
    rw [List.flatMap_cons, List.flatMap_cons, ih count.2, count.1.words_eq body]
  | range body =>
    rcases count _ List.mem_cons_self with ⟨n, own⟩ | ⟨m, own, _⟩
    · cases body.symm.trans own
    · cases body.symm.trans own
  | comma comma =>
    have other := (count _ List.mem_cons_self).not_is (m := .comma) (by decide)
    exact absurd (comma.symm.trans other) (by decide)
  | cut cut =>
    have other := (count _ List.mem_cons_self).not_is (m := .cut) (by decide)
    exact absurd (cut.symm.trans other) (by decide)

theorem keeps_all : ∀ ts : List Token, Keeps ts (ts.flatMap Token.words)
  | [] => .nil
  | t :: ts => .token t (keeps_all ts)

/-- An occurrence and what is kept of the rest of an entry. -/
theorem exists_occurrence_kept (h : SpellsOccurrence oc os after) (read : AllExact os) :
    ∃ ps, OccurrenceLaidOut oc os after ps ∧ Keeps os (words ps) := by
  have plain : ∀ t ∈ os, t.Plain := by
    intro t ht
    rcases h.counts t ht with ⟨n, body⟩ | ⟨m, body, _⟩
    · exact (read t ht).plain_of_uint body
    · exact (read t ht).plain_of_is (Token.is_iff.2 body)
  obtain ⟨ps, laidOut⟩ := exists_occurrence_layout h plain
  refine ⟨ps, laidOut, ?_⟩
  rw [← flatMap_words .start, (laidOut.respelled .start).flatMap_words h.counts]
  exact keeps_all os

/-! ## Keys in parentheses -/

/-- The entry that is all of a phrase is kept by itself, perhaps before a comma. -/
def Phrase.SoleRestated (p : Phrase) (ts : List Token) : Prop :=
  ∀ e, p.sole? = some e → ∃ es cs, ts = es ++ cs ∧ (cs = [] ∨ ∃ k, cs = [k] ∧ k.is .comma = true) ∧
    Restates (Phrase.entry e).render es

/-- A phrase is kept, and so is the entry that is all of it. -/
def Phrase.Kept (p : Phrase) (ts : List Token) : Prop := Restates p.render ts ∧ p.SoleRestated ts

theorem Layout.Restates.kept (h : Restates p.render ts) (sole : p.sole? = none) : p.Kept ts := by
  refine ⟨h, fun e he => ?_⟩
  rw [sole] at he
  cases he

theorem Phrase.Kept.of (writes : Writes p.render ps) (keeps : Keeps ts (words ps)) (sole : p.sole? = none) :
    p.Kept ts :=
  Layout.Restates.kept ⟨ps, writes, keeps⟩ sole

/-- What is kept of a key in parentheses, the arrow behind it and what that leads to. -/
theorem exists_key_kept (inner : (Phrase.group g).Kept ts) (opening : o.is .leftParen = true)
    (closing : c.is .rightParen = true) (arrow : SpellsArrow cut as) (value : Keeps us (words qs)) :
    ∃ ps, Writes (enclosedKey g).render (enclosed .leftParen .rightParen "(" ")" [] ps) ∧
      Keeps (o :: (ts ++ c :: (as ++ us)))
        (words (enclosed .leftParen .rightParen "(" ")" [] ps ++ (arrowPieces false ++ qs))) := by
  have opened {us : List Token} {ps : List Piece}
      (h : Keeps us (words ps ++ .mark .rightParen :: .mark .arrow :: words qs)) :
      Keeps (o :: us) (words (enclosed .leftParen .rightParen "(" ")" [] ps ++ (arrowPieces false ++ qs))) := by
    have said : words (enclosed .leftParen .rightParen "(" ")" [] ps ++ (arrowPieces false ++ qs)) =
        .mark .leftParen :: (words ps ++ .mark .rightParen :: .mark .arrow :: words qs) := by
      simp [enclosed, arrowPieces, Token.Body.words, Mark.varies]
    rw [said]
    exact .mark opening (by decide) h
  obtain ⟨⟨ps, writes, keeps⟩, sole⟩ := inner
  have whole := opened (keeps.append (arrow.keeps_behind closing value))
  cases hs : g.sole? with
  | none => exact ⟨ps, writes_groupKey writes (by rw [enclosedKey_eq, hs, Option.bind_none]), whole⟩
  | some e =>
    cases he : e.type? with
    | none => exact ⟨ps, writes_groupKey writes (by rw [enclosedKey_eq, hs, Option.bind_some, he]), whole⟩
    | some type =>
      obtain ⟨es, cs, rfl, hcs, ps, writes, keeps⟩ := sole e hs
      refine ⟨ps, writes_typeKey hs he writes, opened ?_⟩
      rw [List.append_assoc]
      exact keeps.append (arrow.keeps_comma hcs closing value)

/-- An arrow and what it leads to. -/
theorem SpellsArrow.keeps (h : SpellsArrow cut as) (value : Keeps us (words qs)) :
    Keeps (as ++ us) (words (arrowPieces cut ++ qs)) := by
  cases h with
  | plain arrow => exact .mark arrow (by decide) value
  | cut mark arrow => exact .mark mark (by decide) (.mark arrow (by decide) value)

/-! ## Any phrase -/

/-- **What tokens spell says what they do when it is written**, but for the ends of keys in parentheses. -/
theorem kept_of_spells (h : Spells p pre ts after) (read : AllExact ts) : p.Kept ts := by
  induction h
  case literal body => exact (restates_literal body (allExact_cons.1 read).1).kept rfl
  case typename name _ ih =>
    simp only [allExact_cons] at read
    obtain ⟨⟨_, writes, keeps⟩, _⟩ := ih read.2
    exact .of (writes_typename name (read.1.plain_of_is name) writes) (.name name (by decide) keeps) rfl
  case parenthesized opening _ closing ih =>
    simp only [allExact_cons, allExact_append] at read
    obtain ⟨⟨_, writes, keeps⟩, _⟩ := ih read.2.1
    exact .of (writes_parenthesized writes) (keeps_enclosed (by decide) (by decide) opening keeps closing) rfl
  case map opening _ closing ih =>
    simp only [allExact_cons, allExact_append] at read
    obtain ⟨⟨_, writes, keeps⟩, _⟩ := ih read.2.1
    exact .of (writes_map writes) (keeps_enclosed (by decide) (by decide) opening keeps closing) rfl
  case array opening _ closing ih =>
    simp only [allExact_cons, allExact_append] at read
    obtain ⟨⟨_, writes, keeps⟩, _⟩ := ih read.2.1
    exact .of (writes_array writes) (keeps_enclosed (by decide) (by decide) opening keeps closing) rfl
  case unwrap opening name _ ih =>
    simp only [allExact_cons] at read
    obtain ⟨⟨_, writes, keeps⟩, _⟩ := ih read.2.2
    have kept := Keeps.mark opening (by decide) (.name name (by decide) keeps)
    exact .of (writes_unwrap name (read.2.1.plain_of_is name) writes) kept rfl
  case choiceFromInlineGroup mark opening _ closing ih =>
    simp only [allExact_cons, allExact_append] at read
    obtain ⟨⟨_, writes, keeps⟩, _⟩ := ih read.2.2.1
    refine .of (writes_choiceFromInlineGroup writes) (.mark mark (by decide) ?_) rfl
    exact keeps_enclosed (by decide) (by decide) opening keeps closing
  case choiceFromGroup mark name _ ih =>
    simp only [allExact_cons] at read
    obtain ⟨⟨_, writes, keeps⟩, _⟩ := ih read.2.2
    have kept := Keeps.mark mark (by decide) (.name name (by decide) keeps)
    exact .of (writes_choiceFromGroup name (read.2.1.plain_of_is name) writes) kept rfl
  case tagged body opening _ closing ih =>
    simp only [allExact_cons, allExact_append] at read
    obtain ⟨⟨_, writes, keeps⟩, _⟩ := ih read.2.2.1
    refine .of (writes_tagged writes) (keeps_token body (fun _ h => by cases h) ?_) rfl
    exact keeps_enclosed (by decide) (by decide) opening keeps closing
  case major body _ _ => exact .of (writes_major _ _) (keeps_token body (fun _ h => by cases h) .nil) rfl
  case any mark => exact .of writes_any (.mark mark (by decide) .nil) rfl
  case noOperator => exact .of .nil .nil rfl
  case someOperator mark _ ih =>
    simp only [allExact_cons] at read
    obtain ⟨⟨_, writes, keeps⟩, _⟩ := ih read.2
    have plain := (is_of_operatorSymbol? mark).elim read.1.plain_of_is read.1.plain_of_is
    exact .of (writes_someOperator mark plain writes) (.token _ keeps) rfl
  case range body => exact (restates_range body (allExact_cons.1 read).1).kept rfl
  case operands ih ih' =>
    rw [allExact_append] at read
    obtain ⟨⟨_, writes, keeps⟩, _⟩ := ih read.1
    obtain ⟨⟨_, writes', keeps'⟩, _⟩ := ih' read.2
    exact .of (writes_operands writes writes') (keeps.pieces keeps') rfl
  case noChoices => exact .of .nil .nil rfl
  case moreChoices mark _ _ ih ih' =>
    simp only [allExact_cons, allExact_append] at read
    obtain ⟨⟨_, writes, keeps⟩, _⟩ := ih read.2.1
    obtain ⟨⟨_, writes', keeps'⟩, _⟩ := ih' read.2.2
    exact .of (writes_moreChoices writes writes') (.mark mark (by decide) (keeps.pieces keeps')) rfl
  case type ih ih' =>
    rw [allExact_append] at read
    obtain ⟨⟨_, writes, keeps⟩, _⟩ := ih read.1
    obtain ⟨⟨_, writes', keeps'⟩, _⟩ := ih' read.2
    exact .of (writes_type writes writes') (keeps.pieces keeps') rfl
  case noArgs => exact .of .nil .nil rfl
  case someArgs opening _ _ closing ih ih' =>
    simp only [allExact_cons, allExact_append] at read
    obtain ⟨⟨_, writes, keeps⟩, _⟩ := ih read.2.1.1
    obtain ⟨⟨_, writes', keeps'⟩, _⟩ := ih' read.2.1.2
    refine .of (writes_someArgs writes writes') ?_ rfl
    exact keeps_enclosed (by decide) (by decide) opening (keeps.pieces keeps') closing
  case noMoreArgs => exact .of .nil .nil rfl
  case moreArgs mark _ _ ih ih' =>
    simp only [allExact_cons, allExact_append] at read
    obtain ⟨⟨_, writes, keeps⟩, _⟩ := ih read.2.1
    obtain ⟨⟨_, writes', keeps'⟩, _⟩ := ih' read.2.2
    exact .of (writes_moreArgs writes writes') (.mark mark (by decide) (keeps.pieces keeps')) rfl
  case inlineEntry occurrence opening _ closing _ ih =>
    simp only [allExact_cons, allExact_append] at read
    obtain ⟨⟨_, writes, keeps⟩, _⟩ := ih read.2.2.1
    obtain ⟨_, before, counted⟩ := exists_occurrence_kept occurrence read.1
    refine .of (writes_inlineEntry before writes) (counted.pieces ?_) rfl
    exact keeps_enclosed (by decide) (by decide) opening keeps closing
  case enclosedEntry occurrence opening _ closing arrow _ ih ih' =>
    simp only [allExact_cons, allExact_append] at read
    obtain ⟨⟨_, value, keeps⟩, _⟩ := ih' read.2.2.2.2.2
    obtain ⟨_, key, keeps'⟩ := exists_key_kept (ih read.2.2.1) opening closing arrow keeps
    obtain ⟨_, before, counted⟩ := exists_occurrence_kept occurrence read.1
    exact .of (writes_enclosedEntry before key value) (counted.pieces keeps') rfl
  case colonEntry occurrence _ start mark made _ ih ih' =>
    simp only [allExact_cons, allExact_append] at read
    obtain ⟨⟨_, writes, keeps⟩, _⟩ := ih read.2.1
    obtain ⟨⟨_, value, keeps'⟩, _⟩ := ih' read.2.2.2
    obtain ⟨_, before, counted⟩ := exists_occurrence_kept occurrence read.1
    refine .of (writes_colonEntry before writes made value) (counted.pieces (keeps.pieces ?_)) rfl
    exact .mark mark (by decide) keeps'
  case arrowEntry occurrence _ _ arrow _ ih ih' =>
    simp only [allExact_append] at read
    obtain ⟨⟨_, writes, keeps⟩, _⟩ := ih read.2.1
    obtain ⟨⟨_, value, keeps'⟩, _⟩ := ih' read.2.2.2
    obtain ⟨_, before, counted⟩ := exists_occurrence_kept occurrence read.1
    exact .of (writes_arrowEntry before writes value) (counted.pieces (keeps.pieces (arrow.keeps keeps'))) rfl
  case namedEntry occurrence _ _ _ ih =>
    rw [allExact_append] at read
    obtain ⟨⟨_, writes, keeps⟩, _⟩ := ih read.2
    obtain ⟨_, before, counted⟩ := exists_occurrence_kept occurrence read.1
    exact .of (writes_namedEntry before writes) (counted.pieces keeps) rfl
  case keylessEntry occurrence _ _ _ _ _ ih ih' =>
    simp only [allExact_append] at read
    obtain ⟨⟨_, writes, keeps⟩, _⟩ := ih read.2.1
    obtain ⟨⟨_, writes', keeps'⟩, _⟩ := ih' read.2.2
    obtain ⟨_, before, counted⟩ := exists_occurrence_kept occurrence read.1
    exact .of (writes_keylessEntry before writes writes') (counted.pieces (keeps.pieces keeps')) rfl
  case noEntries => exact .of .nil .nil rfl
  case plainEntry more ih ih' =>
    rw [allExact_append] at read
    obtain ⟨⟨_, writes, keeps⟩, _⟩ := ih read.1
    obtain ⟨⟨_, writes', keeps'⟩, _⟩ := ih' read.2
    refine ⟨⟨_, writes_plainEntry writes writes', ?_⟩, fun e he => ?_⟩
    · rw [words_append, words_gapPieces]
      exact keeps.append keeps'
    · obtain ⟨_, sole⟩ := of_soleOf? he
      cases sole
      cases more
      exact ⟨_, [], rfl, .inl rfl, _, writes, keeps⟩
  case commaEntry c _ _ _ _ _ mark more ih ih' =>
    simp only [allExact_cons, allExact_append] at read
    obtain ⟨⟨_, writes, keeps⟩, _⟩ := ih read.1
    obtain ⟨⟨_, writes', keeps'⟩, _⟩ := ih' read.2.2
    refine ⟨⟨_, writes_commaEntry writes writes', ?_⟩, fun e he => ?_⟩
    · rw [words_append, words_token, words_gapPieces]
      exact keeps.append (.mark mark (by decide) keeps')
    · obtain ⟨_, sole⟩ := of_soleOf? he
      cases sole
      cases more
      exact ⟨_, [c], rfl, .inr ⟨c, rfl, mark⟩, _, writes, keeps⟩
  case groupChoice ih =>
    obtain ⟨⟨_, writes, keeps⟩, sole⟩ := ih read
    exact ⟨⟨_, writes_groupChoice writes, keeps⟩, sole⟩
  case noGroupChoices => exact .of .nil .nil rfl
  case moreGroupChoices mark _ _ ih ih' =>
    simp only [allExact_cons, allExact_append] at read
    obtain ⟨⟨_, writes, keeps⟩, _⟩ := ih read.2.1
    obtain ⟨⟨_, writes', keeps'⟩, _⟩ := ih' read.2.2
    exact .of (writes_moreGroupChoices writes writes') (.mark mark (by decide) (keeps.pieces keeps')) rfl
  case group choices _ _ _ _ more ih ih' =>
    rw [allExact_append] at read
    obtain ⟨⟨_, writes, keeps⟩, sole⟩ := ih read.1
    obtain ⟨⟨_, writes', keeps'⟩, _⟩ := ih' read.2
    refine ⟨⟨_, writes_group writes writes', keeps.pieces keeps'⟩, fun e he => ?_⟩
    match choices, more, he with
    | [], more, he =>
      cases more
      rw [List.append_nil]
      exact sole e he

end Cddl
