import Cddl.Proofs.Layout.Group
import Cddl.Proofs.Phrase.Complete.Document
import Cddl.Proofs.Phrase.Opening
/-!
# What is written for a document

Rules are written one in a line, and are read again as long as the body of each is taken for the same kind of thing.
That fails for an entry under a range as its key: written with blanks, the range is three tokens, and the arrow is too
far off to be seen.
-/
namespace Cddl

open Production Layout

/-- A layout of a text that tokens were read from.  Wherever it is read again, `told` is true of its tokens and of those
that may come behind. -/
structure Retold (written : Text) (ts after : List Token) (told : List Token → List Token → Prop) (ps : List Piece) :
    Prop extends Writes written ps where
  respelled : ∀ l, Respelled ts (tokens l ps)
  spells : ∀ l after', Respelled after after' → told (tokens l ps) after'

variable {l pre : Location} {t u o c name eq : Token} {ts us after after' : List Token} {ps qs : List Piece}
  {rest : Text}

/-! ## Parameters -/

/-- The text of the parameters after a first one. -/
def renderMoreParams (params : List GenericParam) : Text :=
  (params.map fun p => p.param.render).flatMap fun t => ", " ++ t

theorem writes_param {params : List GenericParam} (name : t.is .name = true) (plain : t.Plain)
    (more : Writes (renderMoreParams params) ps) :
    Writes (t.text ++ renderMoreParams params) (.token (.mark .name) t.text :: ps) :=
  (Writes.token fun _ => scanned_plain_name name plain).append more fun _ => delimits_flatMap (by decide) _

theorem writes_moreParams {params : List GenericParam} {s : Option Span} (name : t.is .name = true) (plain : t.Plain)
    (more : Writes (renderMoreParams params) ps) : Writes (renderMoreParams (⟨identifier t, s⟩ :: params))
      (.token (.mark .comma) "," :: .blank " " :: .token (.mark .name) t.text :: ps) := by
  have written : renderMoreParams (⟨identifier t, s⟩ :: params) =
      "," ++ (" " ++ (t.text ++ renderMoreParams params)) := by
    have separator : (", " : Text) = "," ++ " " := by decide
    simp [renderMoreParams, render_identifier, separator]
  rw [written]
  exact .alone (by decide) (.blank (by decide) (writes_param name plain more))

theorem writes_someParams {params : List GenericParam} {s s' : Option Span} (name : t.is .name = true) (plain : t.Plain)
    (more : Writes (renderMoreParams params) ps) : Writes (GenericParams.render ⟨⟨identifier t, s⟩ :: params, s'⟩)
      (enclosed .leftAngle .rightAngle "<" ">" [] (.token (.mark .name) t.text :: ps)) := by
  have written : GenericParams.render ⟨⟨identifier t, s⟩ :: params, s'⟩ =
      "<" ++ (t.text ++ renderMoreParams params ++ ">") := by
    simp [GenericParams.render, renderMoreParams, Text.join_cons, render_identifier]
  rw [written]
  exact (writes_param name plain more).tight (by decide) (by decide) (by decide)

theorem exists_moreParams_layout {params : List GenericParam} (h : SpellsMoreParams params ts after)
    (plain : AllPlain ts) :
    ∃ ps, Retold (renderMoreParams params) ts after
      (fun ts after => ∃ params', params'.map GenericParam.erase = params.map GenericParam.erase ∧
        SpellsMoreParams params' ts after) ps := by
  induction h with
  | nil free =>
    exact ⟨[], .nil, fun _ => .nil, fun _ _ same => ⟨[], rfl, .nil (same.not_next (by decide) free)⟩⟩
  | @cons s t params ts after mark name _ ih =>
    simp only [allPlain_cons] at plain
    obtain ⟨ps, more⟩ := ih plain.2.2
    refine ⟨_, writes_moreParams name plain.2.1 more.toWrites, fun l => ?_, fun l after' same => ?_⟩
    · exact .mark mark (.mark name (more.respelled _))
    · rw [tokens_token, tokens_blank, tokens_token]
      apply Exists.elim (more.spells _ _ same)
      rintro params' ⟨hparams, spelled⟩
      refine ⟨_, ?_, .cons rfl rfl spelled⟩
      simp only [List.map_cons, GenericParam.erase, erase_identifier_token, hparams]

theorem exists_params_layout {params : Option GenericParams} (h : SpellsParams params ts after) (plain : AllPlain ts) :
    ∃ ps, Retold ((params.map GenericParams.render).getD []) ts after
      (fun ts after => ∃ params', params'.map GenericParams.erase = params.map GenericParams.erase ∧
        SpellsParams params' ts after) ps := by
  cases h with
  | none free =>
    exact ⟨[], .nil, fun _ => .nil, fun _ _ same => ⟨none, rfl, .none (same.not_next (by decide) free)⟩⟩
  | @some o t c params ts after opening name more closing =>
    simp only [allPlain_cons, allPlain_append] at plain
    obtain ⟨ps, more⟩ := exists_moreParams_layout more plain.2.2.1
    refine ⟨_, writes_someParams name plain.2.1 more.toWrites, fun l => ?_, fun l after' same => ?_⟩
    · rw [tokens_enclosed, tokens_token]
      exact .mark opening (.mark name ((more.respelled _).append (.mark closing .nil)))
    · rw [tokens_enclosed, tokens_token]
      apply Exists.elim (more.spells _ _ (.mark closing same))
      rintro params' ⟨hparams, spelled⟩
      refine ⟨_, ?_, .some rfl rfl spelled rfl⟩
      simp only [Option.map_some, GenericParams.erase, List.map_cons, GenericParam.erase,
        erase_identifier_token, hparams]

/-! ## Entries that begin with a range -/

/-- Whether a rule is defined as an entry that has a range as its key and no occurrence. -/
def Rule.keyedByRange (r : Rule) : Bool :=
  match r.body with
  | .group ⟨_, _, false, .keyed ⟨none, some (.type1 ⟨_, some ⟨.range _, _, _⟩, _⟩ _ _), _, _⟩ _, _⟩ => true
  | _ => false

variable {lower upper : Literal} {inclusive : Bool} {e : GroupEntry} {oc : Option Occurrence} {os bs : List Token}
  {t₁ : Type1}

theorem not_range_of_is {m : Mark} (h : t.is m = true) : t.body ≠ .range lower upper inclusive := by
  rw [Token.is_iff.1 h]
  exact fun h => by cases h

/-- An entry that begins with a range in one token has no occurrence before it. -/
theorem occurrence_of_range (h : SpellsOccurrence oc os after) (body : t.body = .range lower upper inclusive)
    (split : os ++ bs = t :: us) : oc = none ∧ os = [] ∧ bs = t :: us := by
  cases h with
  | none => exact ⟨rfl, rfl, split⟩
  | optional mark | oneOrMore mark | zeroOrMore mark | upTo mark =>
    obtain ⟨rfl, _⟩ := List.cons.inj split
    exact absurd body (not_range_of_is mark)
  | atLeast lower | fromTo lower =>
    obtain ⟨rfl, _⟩ := List.cons.inj split
    rw [lower] at body
    cases body

theorem type1_of_range (h : Spells (.type1 t₁) pre (t :: ts) after) (body : t.body = .range lower upper inclusive) :
    ts = [] ∧ t₁ = rangeType1 t lower upper inclusive t.stop := by
  generalize hts : t :: ts = tokens at h
  cases h with
  | range body' =>
    obtain ⟨rfl, rfl⟩ := List.cons.inj hts
    rw [body] at body'
    cases body'
    exact ⟨rfl, rfl⟩
  | operands operand operator =>
    obtain ⟨u, us, rfl⟩ := List.exists_cons_of_ne_nil (operand.ne_nil rfl)
    obtain ⟨rfl, _⟩ := List.cons.inj hts
    exact absurd body (not_range_of_type2 operand)

/-- Without the end of a key behind it, a range in one token is not taken for the beginning of an entry. -/
theorem not_beginsGroupEntry_of_range (body : t.body = .range lower upper inclusive) (free : nextIsKeyEnd ts = false) :
    beginsGroupEntry (t :: ts) = false := by
  refine not_beginsGroupEntry_cons (not_startsOccurrence_of_body body nofun) free fun value => ?_
  rw [isValue, body] at value
  cases value

/-- An entry that begins with a range in one token, and is seen to be an entry, has that as its key. -/
theorem keyed_of_range (h : Spells (.entry e) pre (t :: us) after) (kind : beginsGroupEntry (t :: us ++ after) = true)
    (body : t.body = .range lower upper inclusive) : ∃ cut ty s s' s'',
      e = .keyed ⟨none, some (.type1 (rangeType1 t lower upper inclusive t.stop) cut s), ty, s'⟩ s'' := by
  generalize htu : t :: us = tokens at h kind
  cases h with
  | inlineEntry occurrence opening =>
    obtain ⟨rfl, rfl, split⟩ := occurrence_of_range occurrence body htu.symm
    obtain ⟨rfl, _⟩ := List.cons.inj split
    exact absurd body (not_range_of_is opening)
  | enclosedEntry occurrence opening =>
    obtain ⟨rfl, rfl, split⟩ := occurrence_of_range occurrence body htu.symm
    obtain ⟨rfl, _⟩ := List.cons.inj split
    exact absurd body (not_range_of_is opening)
  | colonEntry occurrence first _ _ made =>
    obtain ⟨rfl, rfl, split⟩ := occurrence_of_range occurrence body htu.symm
    obtain ⟨u, ts, rfl⟩ := List.exists_cons_of_ne_nil (first.ne_nil rfl)
    obtain ⟨rfl, _⟩ := List.cons.inj split
    obtain ⟨_, rfl⟩ := type1_of_range first body
    cases made
  | arrowEntry occurrence first =>
    obtain ⟨rfl, rfl, split⟩ := occurrence_of_range occurrence body htu.symm
    obtain ⟨u, ts, rfl⟩ := List.exists_cons_of_ne_nil (first.ne_nil rfl)
    obtain ⟨rfl, _⟩ := List.cons.inj split
    obtain ⟨_, rfl⟩ := type1_of_range first body
    exact ⟨_, _, _, _, _, rfl⟩
  | namedEntry occurrence first =>
    obtain ⟨rfl, rfl, split⟩ := occurrence_of_range occurrence body htu.symm
    rw [split] at first
    obtain ⟨_, range⟩ := type1_of_range first body
    cases range
  | keylessEntry occurrence first _ free =>
    obtain ⟨rfl, rfl, split⟩ := occurrence_of_range occurrence body htu.symm
    obtain ⟨u, ts, rfl⟩ := List.exists_cons_of_ne_nil (first.ne_nil rfl)
    obtain ⟨rfl, _⟩ := List.cons.inj split
    obtain ⟨rfl, _⟩ := type1_of_range first body
    exact absurd (kind.symm.trans (not_beginsGroupEntry_of_range body free)) (by decide)

/-! ## Rules -/

/-- The text of an assignment. -/
def Production.Assignment.symbol : Assignment → Text
  | .define => "="
  | .extendType => "/="
  | .extendGroup => "//="

variable {a : Assignment}

theorem assignment?_mark (a : Assignment) (s : Text) (l : Location) : assignment? ⟨.mark a.mark, s, l⟩ = some a := by
  cases a <;> rfl

theorem standsOut_assignment (a : Assignment) : Scan.standsOut a.symbol " " a.mark = true := by
  cases a <;> decide

/-- The body of a rule is taken for the same kind of thing again. -/
theorem readsEntry_eq (same : a = .define → beginsGroupEntry us = beginsGroupEntry ts) :
    readsEntry a us = readsEntry a ts := by
  cases a with
  | define => rw [readsEntry, readsEntry, same rfl]
  | _ => rfl

/-- The pieces of a name, its parameters and what is assigned to it. -/
def rulePieces (name : Text) (ps : List Piece) (a : Assignment) (qs : List Piece) : List Piece :=
  .token (.mark .name) name :: (ps ++ .blank " " :: .token (.mark a.mark) a.symbol :: .blank " " :: qs)

theorem tokens_rulePieces (s : Text) (ps : List Piece) (a : Assignment) (qs : List Piece) (l : Location) :
    ∃ l₁ l₂ l₃, tokens l (rulePieces s ps a qs) =
      ⟨.mark .name, s, l⟩ :: (tokens l₁ ps ++ ⟨.mark a.mark, a.symbol, l₂⟩ :: tokens l₃ qs) := by
  refine ⟨l.past s, ((l.past s).past (text ps)).past " ", ?_, ?_⟩
  · exact ((((l.past s).past (text ps)).past " ").past a.symbol).past " "
  · simp [rulePieces]

theorem delimits_params (params : Option GenericParams) (hr : Delimits rest) :
    Delimits ((params.map GenericParams.render).getD [] ++ rest) := by
  cases params with
  | none => exact hr
  | some p =>
    rw [Option.map_some, Option.getD_some, GenericParams.render, List.append_assoc, List.append_assoc]
    exact delimits_of_head (by decide) _

theorem writes_assigned {gp : Option GenericParams} {r : Text} (isName : name.is .name = true) (plain : name.Plain)
    (params : Writes ((gp.map GenericParams.render).getD []) ps) (body : Writes r qs) :
    Writes (renderHead (identifier name) gp ++ " " ++ a.symbol ++ " " ++ r) (rulePieces name.text ps a qs) := by
  have written : renderHead (identifier name) gp ++ " " ++ a.symbol ++ " " ++ r =
      name.text ++ ((gp.map GenericParams.render).getD [] ++ (" " ++ (a.symbol ++ (" " ++ r)))) := by
    simp [renderHead, render_identifier]
  have blank (t rest : Text) : Delimits (" " ++ t ++ rest) := by
    rw [List.append_assoc]
    exact delimits_of_head (by decide) _
  rw [written]
  have assigned := params.append (.spaced (standsOut_assignment a) body) fun rest _ => blank _ rest
  refine (Writes.token fun _ => scanned_plain_name isName plain).append assigned fun rest _ => ?_
  rw [List.append_assoc]
  exact delimits_params gp (blank _ rest)

/-- A name, its parameters and an assignment are read again in front of a phrase. -/
theorem exists_assigned_layout {p : Phrase} {gp : Option GenericParams} {gs : List Token}
    (isName : name.is .name = true)
    (params : SpellsParams gp gs (eq :: (us ++ after))) (assigned : assignment? eq = some a) (plain : name.Plain)
    (plain' : AllPlain gs) (body : p.LaidOut us after qs) :
    ∃ ps, Retold (renderHead (identifier name) gp ++ " " ++ a.symbol ++ " " ++ p.render)
      (name :: (gs ++ eq :: us)) after
      (fun ts after => ∃ name' gp' gs' eq' l, ts = name' :: (gs' ++ eq' :: tokens l qs) ∧ name'.is .name = true ∧
        (identifier name').erase = (identifier name).erase ∧ gp'.map GenericParams.erase = gp.map GenericParams.erase ∧
          SpellsParams gp' gs' (eq' :: (tokens l qs ++ after)) ∧ assignment? eq' = some a) ps := by
  obtain ⟨ps, head⟩ := exists_params_layout params plain'
  have mark := is_mark_of_assignment? assigned
  refine ⟨_, writes_assigned isName plain head.toWrites body.toWrites, fun l => ?_, fun l after' same => ?_⟩
  · obtain ⟨l₁, l₂, l₃, split⟩ := tokens_rulePieces name.text ps a qs l
    rw [split]
    exact .mark isName ((head.respelled l₁).append (.mark mark (body.respelled l₃)))
  · obtain ⟨l₁, l₂, l₃, split⟩ := tokens_rulePieces name.text ps a qs l
    obtain ⟨gp', hgp, params'⟩ := head.spells l₁ (⟨.mark a.mark, a.symbol, l₂⟩ :: (tokens l₃ qs ++ after'))
      (.mark mark ((body.respelled l₃).append same))
    exact ⟨_, gp', _, _, l₃, split, rfl, erase_identifier_token _ _ _, hgp, params', assignment?_mark a _ _⟩

/-- A rule that defines a type is written with its assignment. -/
theorem render_typeRule {gp : Option GenericParams} {ty : TypeExpr} {i : Identifier} {s s' : Option Span}
    (kind : readsEntry a us = false) : Rule.render ⟨.type ⟨i, gp, a = .extendType, ty, s⟩, s'⟩ =
      renderHead i gp ++ " " ++ a.symbol ++ " " ++ (Phrase.type ty).render := by
  have symbol : a.symbol = Text.ofString (if a = .extendType then "/=" else "=") := by
    cases a with
    | extendGroup => cases kind
    | _ => rfl
  simp [Rule.render, TypeRule.render, Phrase.render, symbol]

theorem render_groupRule {gp : Option GenericParams} {i : Identifier} {s s' : Option Span}
    (kind : readsEntry a us = true) : Rule.render ⟨.group ⟨i, gp, a = .extendGroup, e, s⟩, s'⟩ =
      renderHead i gp ++ " " ++ a.symbol ++ " " ++ (Phrase.entry e).render := by
  have symbol : a.symbol = Text.ofString (if a = .extendGroup then "//=" else "=") := by
    cases a with
    | extendType => cases kind
    | _ => rfl
  simp [Rule.render, GroupRule.render, Phrase.render, symbol]

/-- **A rule is read again from what it is written as.** -/
theorem exists_rule_layout {r : Rule} (h : SpellsRule r ts after) (plain : AllPlain ts) (key : r.keyedByRange = false) :
    ∃ ps, Retold r.render ts after (fun ts after => ∃ r', r'.erase = r.erase ∧ SpellsRule r' ts after) ps := by
  cases h with
  | @type name eq gp a ty gs us _ isName params assigned start kind type =>
    simp only [allPlain_cons, allPlain_append] at plain
    obtain ⟨⟨qs, body⟩, _⟩ := written_of_spells type plain.2.2.2
    obtain ⟨ps, head⟩ := exists_assigned_layout isName params assigned plain.1 plain.2.1 body
    refine ⟨ps, ⟨?_, head.scans⟩, head.respelled, fun l after' same => ?_⟩
    · rw [head.text, render_typeRule kind]
    · obtain ⟨name', gp', gs', eq', l', split, isName', hname, hgp, params', assigned'⟩ := head.spells l after' same
      obtain ⟨ty', hty, type'⟩ := body.spells l' eq'.stop after' same
      have behind := (body.respelled l').append same
      have again : readsEntry a (tokens l' qs ++ after') = readsEntry a (us ++ after) := by
        refine readsEntry_eq fun define => behind.beginsGroupEntry_eq
          (nextOpensPhrase_append (type.opens rfl)) fun entry => ?_
        rw [define, readsEntry, entry] at kind
        cases kind
      have start' := (body.respelled l').not_next (by decide) start
      rw [split]
      refine ⟨_, ?_, .type isName' params' assigned' start' (again.trans kind) type'⟩
      simp only [Rule.erase, RuleBody.erase, TypeRule.erase, hname, hgp, hty]
  | @group name eq gp a e gs us _ isName params assigned start kind entry =>
    simp only [allPlain_cons, allPlain_append] at plain
    obtain ⟨⟨qs, body⟩, _⟩ := written_of_spells entry plain.2.2.2
    obtain ⟨ps, head⟩ := exists_assigned_layout isName params assigned plain.1 plain.2.1 body
    refine ⟨ps, ⟨?_, head.scans⟩, head.respelled, fun l after' same => ?_⟩
    · rw [head.text, render_groupRule kind]
    · obtain ⟨name', gp', gs', eq', l', split, isName', hname, hgp, params', assigned'⟩ := head.spells l after' same
      obtain ⟨e', he, entry'⟩ := body.spells l' eq'.stop after' same
      have behind := (body.respelled l').append same
      have again : readsEntry a (tokens l' qs ++ after') = readsEntry a (us ++ after) := by
        refine readsEntry_eq fun define => behind.beginsGroupEntry_eq (nextOpensPhrase_append (entry.opens rfl)) ?_
        intro kind t head lower upper i range
        obtain ⟨u, us, rfl⟩ := List.exists_cons_of_ne_nil (entry.ne_nil rfl)
        obtain rfl := Option.some.inj head
        obtain ⟨_, _, _, _, _, rfl⟩ := keyed_of_range entry kind range
        subst define
        cases key
      have start' := (body.respelled l').not_next (by decide) start
      rw [split]
      refine ⟨_, ?_, .group isName' params' assigned' start' (again.trans kind) entry'⟩
      simp only [Rule.erase, RuleBody.erase, GroupRule.erase, hname, hgp, he]

/-! ## Documents -/

/-- The line feed before more rules. -/
def linePieces : List Rule → List Piece
  | [] => []
  | _ :: _ => [.blank "\n"]

theorem writes_lines {r : Rule} {rs : List Rule} (first : Writes r.render ps)
    (more : Writes (Text.join "\n" (rs.map Rule.render)) qs) :
    Writes (Text.join "\n" ((r :: rs).map Rule.render)) (ps ++ (linePieces rs ++ qs)) := by
  cases rs with
  | nil => exact first.append more fun _ hr => hr
  | cons r' rs =>
    have written : Text.join "\n" ((r :: r' :: rs).map Rule.render) =
        r.render ++ ("\n" ++ Text.join "\n" ((r' :: rs).map Rule.render)) := by simp
    rw [written]
    refine first.append (.blank (by decide) more) fun rest _ => ?_
    rw [List.append_assoc]
    exact delimits_of_head (by decide) _

theorem exists_rules_layout {rs : List Rule} (h : SpellsRules rs ts after) (plain : AllPlain ts)
    (keys : ∀ r ∈ rs, r.keyedByRange = false) :
    ∃ ps, Retold (Text.join "\n" (rs.map Rule.render)) ts after
      (fun ts after => ∃ rs', rs'.map Rule.erase = rs.map Rule.erase ∧ SpellsRules rs' ts after) ps := by
  induction h with
  | nil => exact ⟨[], .nil, fun _ => .nil, fun _ _ _ => ⟨[], rfl, .nil⟩⟩
  | @cons r rs ts us after first _ ih =>
    rw [allPlain_append] at plain
    obtain ⟨ps, rule⟩ := exists_rule_layout first plain.1 (keys r List.mem_cons_self)
    obtain ⟨qs, more⟩ := ih plain.2 fun r hr => keys r (List.mem_cons_of_mem _ hr)
    have line (l : Location) : tokens l (linePieces rs ++ qs) = tokens (l.past (text (linePieces rs))) qs := by
      cases rs <;> rfl
    refine ⟨_, writes_lines rule.toWrites more.toWrites, fun l => ?_, fun l after' same => ?_⟩
    · rw [tokens_append, line]
      exact (rule.respelled _).append (more.respelled _)
    · rw [tokens_append, line]
      apply Exists.elim (rule.spells _ _ ((more.respelled _).append same))
      rintro r' ⟨hr, first'⟩
      apply Exists.elim (more.spells _ _ same)
      rintro rs' ⟨hrs, more'⟩
      exact ⟨r' :: rs', by simp only [List.map_cons, hr, hrs], .cons first' more'⟩

end Cddl
