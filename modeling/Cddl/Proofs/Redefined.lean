import Cddl.Proofs.Loosened.Ended
import Cddl.Proofs.Phrase.Opening
import Cddl.Proofs.Token.Tiling
/-!
# Rules that are defined and rules that are added to

A rule that a type is added to is spelled as one that is defined as the type, but for the assignment.  Behind an equals
sign the first two tokens of a body decide whether it is read as an entry, and no type of a document looks like one
(`parse_redefined`).
-/
namespace Cddl

open Production
open CodeUnit (ofChar)

variable {source gap rest s : Text} {u : CodeUnit} {l : Location} {d : Document} {t name eq : Token}
  {ts us before after : List Token} {r : TypeRule} {rs rs' : List Rule} {params : Option GenericParams} {n : Nat}

/-! ## Texts -/

/-- A text with an equals sign in the place of a token. -/
def redefine (source : Text) (t : Token) : Text :=
  source.take t.location.offset.toNat ++ ([ofChar '='] ++ source.drop (t.location.offset.toNat + t.text.length))

/-- An equals sign is an assignment unless it begins an arrow. -/
theorem scan_equals (free : s.head? ≠ some (ofChar '>')) : scan (ofChar '=') s = .token (.mark .assign) 0 := by
  have opens : CodeUnit.opensMark (ofChar '=') = true := by decide
  have arrow : ¬ Text.ofString "=>" <+: ofChar '=' :: s := by
    rw [show Text.ofString "=>" = [ofChar '=', ofChar '>'] by decide]
    intro front
    obtain ⟨more, split⟩ := (List.cons_prefix_cons.1 front).2
    exact free (by rw [← split]; rfl)
  have equals : Text.ofString "=" <+: ofChar '=' :: s := ⟨s, rfl⟩
  have found : Scan.symbol? (ofChar '=' :: s) = some (Text.ofString "=", Mark.assign) := by
    unfold Scan.symbol? Scan.symbols
    rw [List.find?_cons_of_neg (by simpa using arrow), List.find?_cons_of_pos (by simpa using equals)]
  rw [scan_eq_mark opens, Scan.mark, found]
  rfl

theorem extendType_of_scan (h : scan u s = .token (.mark .extendType) n) :
    u :: s.take n = [ofChar '/', ofChar '='] := by
  have text := Scan.symbol_of_listed (p := fun t => decide (t = [ofChar '/', ofChar '=']))
    (symbol_of_scan h (by decide)) (by decide)
  exact of_decide_eq_true text

namespace Cursor

/-- No type begins with a closing bracket, so an equals sign in front of one begins no arrow. -/
theorem Run.head?_ne_of_not_rightAngle (h : Run ⟨l, s⟩ us none) (free : nextIs .rightAngle us = false) :
    s.head? ≠ some (ofChar '>') := by
  intro head
  obtain ⟨r, rfl⟩ := List.head?_eq_some_iff.1 head
  obtain ⟨v, w, same, space, comment, scanned⟩ : Scanned (.mark .rightAngle) ">" ([] ++ r) := scanned_symbol (by decide)
  obtain ⟨rfl, rfl⟩ := List.cons.inj (same.symm.trans (by decide : Text.ofString ">" = [ofChar '>']))
  have is := h.nextIs_of_scan (fun r => triviaLength_token space comment) scanned
  exact absurd (free.symm.trans is) Bool.false_ne_true

/-- Blanks do not end in a slash. -/
theorem Gap.breaksOff {v : CodeUnit} (h : Gap gap u) (last : s.getLast? = some v) (slashless : v ≠ ofChar '/') :
    BreaksOff (s ++ gap) (ofChar '=') := by
  refine .inr ⟨rfl, fun slash => ?_⟩
  rw [List.getLast?_append] at slash
  cases hl : gap.getLast? with
  | some w =>
    rw [hl] at slash
    obtain rfl := Option.some.inj slash
    exact absurd (isSpace_of_gap (h []) hl) (by decide)
  | none =>
    rw [hl, Option.none_or, last] at slash
    exact slashless (Option.some.inj slash)

/-- A text that begins with an assignment that adds, with an equals sign in its place. -/
theorem Run.redefined_here (h : Run ⟨l, s⟩ (t :: after) none) (is : t.is .extendType = true)
    (free : nextIs .rightAngle after = false) : ∃ gap rest, s = gap ++ (t.text ++ rest) ∧ t.location = l.past gap ∧
      t.text = [ofChar '/', ofChar '='] ∧ Gap gap (ofChar '/') ∧ ∃ t' after', t'.is .assign = true ∧
        Run ⟨l, gap ++ ofChar '=' :: rest⟩ (t' :: after') none ∧ List.Forall₂ (Token.Moved (-1)) after after' := by
  have more : t.is .endOfInput = false := Token.not_is is (by decide)
  generalize hts : t :: after = ts at h
  generalize hc : (⟨l, s⟩ : Cursor) = c at h
  cases h with
  | ended h ends =>
    obtain ⟨rfl, _⟩ := List.cons.inj hts
    rw [more] at ends
    cases ends
  | token h more run =>
    obtain ⟨rfl, rfl⟩ := List.cons.inj hts
    subst hc
    obtain ⟨gap, u, r, n, rfl, hg, scanned, place⟩ := exists_gap h more
    rw [next_of_gap hg scanned] at run
    rw [Token.is_iff.1 is] at scanned
    have text := extendType_of_scan scanned
    obtain ⟨rfl, _⟩ := List.cons.inj text
    have text' : t.text = [ofChar '/', ofChar '='] := by rw [place, text]
    have equals : Gap gap (ofChar '=') := hg.other (by decide) (by decide)
    have read := next_of_gap (l := l) equals (scan_equals (run.head?_ne_of_not_rightAngle free))
    obtain ⟨after', run', moved⟩ := run.moved_on rfl ((l.past gap).past [ofChar '='])
    have shift :
        ((l.past gap).past [ofChar '=']).offset - ((l.past gap).past (ofChar '/' :: r.take n)).offset = -1 := by
      simp only [Layout.offset_past, text, List.length_cons, List.length_nil]
      omega
    rw [shift] at moved
    refine ⟨gap, r.drop n, ?_, by rw [place], text', hg, _, after', ?_,
      .token (congrArg Prod.fst read) rfl (by rw [read]; exact run'), moved⟩
    · rw [text', ← text, List.cons_append, List.take_append_drop]
    · rfl

/-- **A text in which an assignment no longer adds is read to an equals sign for it, and to the other tokens as
before.** -/
theorem Run.redefine (h : (Cursor.start source).Run (before ++ t :: after) none) (is : t.is .extendType = true)
    (front : before.getLast?.any (fun u => u.is .name || u.is .rightAngle) = true)
    (free : nextIs .rightAngle after = false) : ∃ t' after', t'.is .assign = true ∧
      (Cursor.start (redefine source t)).Run (before ++ t' :: after') none ∧
        List.Forall₂ (Token.Moved (-1)) after after' := by
  obtain ⟨u, last, is'⟩ := (Option.any_eq_true _ _).1 front
  obtain ⟨before, rfl⟩ := List.getLast?_eq_some_iff.1 last
  obtain ⟨v, last, slashless⟩ := slashless_of_read (h.read u (by simp)) (Bool.or_eq_true_iff.1 is')
  obtain ⟨pre, left, split, run, ends, again⟩ := h.split (List.cons_ne_nil t after)
  obtain ⟨gap, rest, rfl, place, text, hg, t', after', assign, run', moved⟩ := run.redefined_here is free
  have apart : BreaksOff (pre ++ gap) (ofChar '=') := by
    obtain ⟨lead, rfl⟩ := ends.of_concat
    exact hg.breaksOff (by rw [List.getLast?_append, last, Option.some_or]) slashless
  have joined := again gap (t.text ++ rest) rfl _ apart rest _ _ run'
  refine ⟨t', after', assign, ?_, moved⟩
  have whole : source = pre ++ gap ++ (t.text ++ rest) := by
    rw [show source = pre ++ (gap ++ (t.text ++ rest)) from split, List.append_assoc]
  have written : Cddl.redefine source t = pre ++ gap ++ ([ofChar '='] ++ rest) :=
    splice_eq whole (by rw [place, Layout.past_append]; rfl)
  rw [written, List.append_assoc, List.singleton_append]
  exact joined

end Cursor

/-! ## Rules -/

/-- The rules before some rule and those from there on. -/
theorem SpellsRules.exists_split (h : SpellsRules (rs ++ rs') ts after) :
    ∃ us vs, ts = us ++ vs ∧ SpellsRules rs us (vs ++ after) ∧ SpellsRules rs' vs after := by
  induction rs generalizing ts with
  | nil => exact ⟨[], ts, rfl, .nil, h⟩
  | cons r rs ih =>
    cases h with
    | cons first more =>
      obtain ⟨us, vs, rfl, front, back⟩ := ih more
      refine ⟨_ ++ us, vs, (List.append_assoc ..).symm, .cons ?_ front, back⟩
      rwa [← List.append_assoc]

/-- In front of an assignment stands a name, or the bracket behind the parameters. -/
theorem SpellsParams.front (h : SpellsParams params ts after) (isName : name.is .name = true) (us : List Token) :
    (us ++ name :: ts).getLast?.any (fun t => t.is .name || t.is .rightAngle) = true := by
  cases h with
  | none =>
    rw [List.getLast?_concat, Option.any_some, isName]
    rfl
  | @some o t c ps ts _ _ _ _ closing =>
    have split : us ++ name :: o :: t :: (ts ++ [c]) = us ++ name :: o :: t :: ts ++ [c] := by simp
    rw [split, List.getLast?_concat, Option.any_some, closing, Bool.or_true]

/-- What a rule that a type is added to is spelled with. -/
theorem SpellsRule.exists_parts {span : Option Span} (h : SpellsRule ⟨.type r, span⟩ ts after) (adds : r.adds = true) :
    ∃ name ps eq ws, ts = name :: (ps ++ eq :: ws) ∧ name.is .name = true ∧ eq.is .extendType = true ∧
      r.name = identifier name ∧ SpellsParams r.params ps (eq :: (ws ++ after)) ∧ nextIs .leftParen ws = false ∧
        Spells (.type r.value) eq.stop ws after := by
  cases h with
  | @type name eq gp a ty ps ws _ isName params assigned start kind type =>
    obtain rfl : a = .extendType := of_decide_eq_true adds
    exact ⟨name, ps, eq, ws, rfl, isName, is_mark_of_assignment? assigned, rfl, params, start, type⟩

/-- Where the assignment of a rule stands: behind the name, and in front of the type. -/
theorem Spells.assignment_between {ps ws : List Token} {ty : TypeExpr} (type : Spells (.type ty) eq.stop ws after)
    (apart : (us ++ name :: ps ++ eq :: (ws ++ ts)).Pairwise fun (t u : Token) =>
      t.location.offset + t.text.length ≤ u.location.offset) :
    ∃ v, ty.span = some v ∧ name.stop.offset ≤ eq.location.offset ∧ eq.stop.offset ≤ v.start.offset := by
  obtain ⟨_, behind, between⟩ := List.pairwise_append.1 apart
  have front : name.stop.offset ≤ eq.location.offset := between name (by simp) eq List.mem_cons_self
  obtain ⟨first, rest, rfl⟩ := List.exists_cons_of_ne_nil (type.ne_nil rfl)
  have back : eq.stop.offset ≤ first.location.offset := (List.pairwise_cons.1 behind).1 first List.mem_cons_self
  have span : ty.span = some (.over eq.stop (first :: rest) after) := by
    generalize first :: rest = all at type
    cases type
    rfl
  exact ⟨_, span, front, back⟩

/-- What no phrase goes on with does not make an entry of a type. -/
theorem endsType_of_limits (head : ts.head? = some t) (h : t.limits = true) : EndsType ts := by
  obtain ⟨ts, rfl⟩ := List.head?_eq_some_iff.1 head
  obtain ⟨m, hm, is⟩ := Token.exists_mark_of_limits h
  exact endsType_of_is is ((by decide : ∀ m ∈ limiting, m ∉ [.colon, .arrow, .cut, .asterisk]) m hm)

/-- The rules of a text are still spelled when one of them is defined as the type that was added to it. -/
theorem SpellsRules.redefined {span : Option Span} {ps ws xs us' : List Token} {eq' : Token} {l l' : Location}
    (first : SpellsRules rs us (name :: ts)) (isName : name.is .name = true) (hname : r.name = identifier name)
    (is : eq.is .extendType = true) (params : SpellsParams r.params ps (eq :: before))
    (start : nextIs .leftParen ws = false) (type : Spells (.type r.value) eq.stop ws (xs ++ [.endAt l, .endAt l]))
    (more : SpellsRules rs' xs [.endAt l, .endAt l]) (is' : eq'.is .assign = true)
    (moved : List.Forall₂ (Token.Moved (-1)) (ws ++ (xs ++ [.endAt l, .endAt l])) (us' ++ [.endAt l', .endAt l'])) :
    ∃ all, all.map Rule.erase = (rs ++ ⟨.type { r with adds := false }, span⟩ :: rs').map Rule.erase ∧
      SpellsRules all (us ++ name :: (ps ++ eq' :: us')) [.endAt l', .endAt l'] := by
  have loose := Loosened.of_moved moved
  obtain ⟨ws', behind, split, left, type'⟩ := type.survives _ loose
  obtain ⟨xs', rfl, rfl, rs'', hrs, more'⟩ := more.survives_behind left split
  obtain ⟨ty', hty, spelled⟩ := type' eq'.stop
  rw [List.append_assoc] at loose
  have start' := loose.not_next_append (type.ne_nil rfl) (spelled.ne_nil rfl) (by decide) start
  -- a rule or the end of input comes next, so the type does not look like an entry
  have kind : readsEntry .define (ws' ++ (xs' ++ [.endAt l', .endAt l'])) = false := by
    obtain ⟨t, head, limits⟩ := more'.limits (e := .endAt l') rfl rfl
    exact spelled.not_beginsGroupEntry (endsType_of_limits head limits)
  have assigned : assignment? eq' = some .define := by rw [assignment?, Token.is_iff.1 is']
  have limit {t : Token} {m : Mark} (h : t.is m = true) (hm : m ∈ limiting) : t.limits = true := Token.limits_of_is h hm
  have params' : SpellsParams r.params ps (eq' :: (ws' ++ (xs' ++ [.endAt l', .endAt l']))) :=
    params.behind (.limit (limit is (by decide)) (limit is' (by decide)))
  have front : SpellsRules rs us (name :: (ps ++ eq' :: ws') ++ xs' ++ [.endAt l', .endAt l']) :=
    first.behind (.limit (limit isName (by decide)) (limit isName (by decide)))
  have spells := front.append (.cons (.type isName params' assigned start' kind spelled) more')
  refine ⟨_, ?_, by simpa using spells⟩
  have rule : (Rule.mk (.type ⟨identifier name, r.params, false, ty', some ⟨name.location, stopAfter eq'.stop ws'⟩⟩)
      (some ⟨name.location, stopAfter eq'.stop ws'⟩)).erase =
      (Rule.mk (.type { r with adds := false }) span).erase := by
    simp only [Rule.erase, RuleBody.erase, TypeRule.erase, hty, hname]
  rw [List.map_append, List.map_append, List.map_cons, List.map_cons, hrs, ← rule]

/-- **To define a rule instead of adding to it is to read its type as the type of the rule still**, whatever the type is
and whatever stands behind it. -/
theorem parse_redefined {span : Option Span} (h : parse source = .ok d)
    (rules : d.rules = rs ++ ⟨.type r, span⟩ :: rs') (adds : r.adds = true) :
    ∃ before t after n v, tokenize source = .ok (before ++ t :: after) ∧ t.is .extendType = true ∧
      t.text = Text.ofString "/=" ∧ r.name.span = some n ∧ r.value.span = some v ∧ n.stop.offset ≤ t.location.offset ∧
        t.stop.offset ≤ v.start.offset ∧
        ∃ d', parse (redefine source t) = .ok d' ∧
          d'.erase = (⟨rs ++ ⟨.type { r with adds := false }, span⟩ :: rs', d.span⟩ : Document).erase := by
  obtain ⟨ts, l, run, spelled⟩ := Cursor.Run.ended_of_parse h
  rw [rules] at spelled
  obtain ⟨us, vs, rfl, first, back⟩ := spelled.exists_split
  cases back with
  | @cons _ _ _ xs _ rule more =>
    obtain ⟨name, ps, eq, ws, rfl, isName, is, hname, params, start, type⟩ := rule.exists_parts adds
    have tokens : us ++ (name :: (ps ++ eq :: ws) ++ xs) ++ [.endAt l] =
        us ++ name :: ps ++ eq :: (ws ++ (xs ++ [.endAt l])) := by simp
    rw [tokens] at run
    obtain ⟨v, span, front, back⟩ := type.assignment_between (run.tiles rfl).pairwise
    have free : nextIs .rightAngle (ws ++ (xs ++ [.endAt l])) = false :=
      (nextIs_append (type.ne_nil rfl)).trans (type.not_next rfl (by decide))
    obtain ⟨eq', after', is', run', moved⟩ := run.redefine is (params.front isName us) free
    rw [List.append_cons] at run'
    rw [← List.append_assoc] at moved
    obtain ⟨us', l', rfl, twice⟩ := run'.exists_ended moved
    rw [List.append_assoc ws] at twice
    have rules' : SpellsRules rs us (name :: (ps ++ eq :: (ws ++ (xs ++ [.endAt l, .endAt l])))) := by
      simpa using first
    obtain ⟨all, same, spelled'⟩ := SpellsRules.redefined rules' isName hname is params start type more is' twice
    have joined : us ++ name :: ps ++ [eq'] ++ (us' ++ [.endAt l']) =
        us ++ name :: (ps ++ eq' :: us') ++ [.endAt l'] := by
      simp
    rw [joined] at run'
    obtain ⟨d', parsed, rfl⟩ := run'.exists_parse spelled'
    have text : eq.text = Text.ofString "/=" := by
      obtain ⟨u, r, n, scanned, text⟩ := (run.read eq (by simp)).exists_scan (Token.not_is is (by decide))
      rw [Token.is_iff.1 is] at scanned
      rw [text, extendType_of_scan scanned]
      rfl
    refine ⟨_, eq, _, _, v, run.tokenize_ok, is, text, by rw [hname, identifier_span],
      span, front, back, d', parsed, ?_⟩
    rw [Document.erase, Document.erase, same]

/-- Whether a rule adds a type to one of its name. -/
def Rule.adds : Rule → Bool
  | ⟨.type r, _⟩ => r.adds
  | ⟨.group _, _⟩ => false

/-- A type that another rule stands behind. -/
theorem parse_redefined_sample : ∃ d r span rs', parse "a /= b c = 1" = .ok d ∧ d.rules = [] ++ ⟨.type r, span⟩ :: rs' ∧
    r.adds = true ∧ ∃ before t after n v, tokenize "a /= b c = 1" = .ok (before ++ t :: after) ∧
      t.is .extendType = true ∧
      t.text = Text.ofString "/=" ∧ r.name.span = some n ∧ r.value.span = some v ∧ n.stop.offset ≤ t.location.offset ∧
        t.stop.offset ≤ v.start.offset ∧
        ∃ d', parse (redefine "a /= b c = 1" t) = .ok d' ∧
          d'.erase = (⟨[] ++ ⟨.type { r with adds := false }, span⟩ :: rs', d.span⟩ : Document).erase := by
  have read : ∃ d, parse "a /= b c = 1" = .ok d ∧ d.rules.head?.any Rule.adds = true :=
    exists_parse (n := 7) (p := fun d => d.rules.head?.any Rule.adds) (by decide +kernel)
  obtain ⟨d, h, adds⟩ := read
  obtain ⟨⟨body, span⟩, first, adds⟩ := (Option.any_eq_true _ _).1 adds
  obtain ⟨rs', rules⟩ := List.head?_eq_some_iff.1 first
  cases body with
  | type r => exact ⟨d, r, span, rs', h, rules, adds, parse_redefined h rules adds⟩
  | group => cases adds

end Cddl
