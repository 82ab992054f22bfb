import Cddl.Proofs.Phrase.Rule
/-!
# The grammar

The grammar of schemas in the form in which grammars are written down, and its derivations.  It is about the bodies of
tokens, and knows neither places nor readers.  Main statement: what is read has a derivation that uses every token
(`derives_of_parseTokens`).
-/
namespace Cddl
namespace Grammar

inductive Category where
  | document
  | rule
  | type
  | type1
  | type2
  | args
  | group
  | groupChoice
  | entry
  | memberKey
  | occurrence
  deriving DecidableEq, Repr

/-- The right-hand side of a production. -/
inductive Form where
  /-- One token of a class. -/
  | token (accepts : Token.Body → Bool)
  | part (c : Category)
  | seq (f g : Form)
  | oneOf (fs : List Form)
  | optional (f : Form)
  /-- Any number of times, none included. -/
  | many (f : Form)
  /-- What does not begin with the given mark. -/
  | notAt (m : Mark) (f : Form)

instance : Append Form := ⟨.seq⟩

def mark (m : Mark) : Form := .token (· = .mark m)

def value : Form := .token fun b => match b with | .value _ => true | _ => false

def uint : Form := .token fun b => match b with | .value (.uint _) => true | _ => false

def range : Form := .token fun b => match b with | .range .. => true | _ => false

/-- A tag whose major type passes the test. -/
def tag (accepts : Nat → Bool) : Form := .token fun b => match b with | .tag major _ => accepts major | _ => false

/-- A part between an opening mark and a closing one. -/
def enclosed (opening : Mark) (c : Category) (closing : Mark) : Form := mark opening ++ (.part c ++ mark closing)

/-- A name and the arguments that may follow it. -/
def named : Form := mark .name ++ .optional (.part .args)

def params : Form := mark .leftAngle ++ (mark .name ++ .many (mark .comma ++ mark .name) ++ mark .rightAngle)

def arrow : Form := .optional (mark .cut) ++ mark .arrow

def production : Category → Form
  | .document => .many (.part .rule)
  | .rule =>
    mark .name ++ (.optional params ++ .oneOf [
      .oneOf [mark .assign, mark .extendType] ++ .notAt .leftParen (.part .type),
      .oneOf [mark .assign, mark .extendGroup] ++ .notAt .leftParen (.part .entry)])
  | .type => .part .type1 ++ .many (mark .typeChoice ++ .part .type1)
  | .type1 =>
    .oneOf [range, .part .type2 ++ .optional (.oneOf [mark .rangeOperator, mark .control] ++ .part .type2)]
  | .type2 => .oneOf [
      value,
      named,
      enclosed .leftParen .type .rightParen,
      enclosed .leftBrace .group .rightBrace,
      enclosed .leftBracket .group .rightBracket,
      mark .tilde ++ named,
      mark .ampersand ++ enclosed .leftParen .group .rightParen,
      mark .ampersand ++ named,
      tag (· = 6) ++ enclosed .leftParen .type .rightParen,
      tag (· ≤ 7),
      mark .hash]
  | .args => mark .leftAngle ++ (.part .type1 ++ .many (mark .comma ++ .part .type1) ++ mark .rightAngle)
  | .group => .part .groupChoice ++ .many (mark .groupChoice ++ .part .groupChoice)
  | .groupChoice => .many (.part .entry ++ .optional (mark .comma))
  | .entry => .oneOf [
      .optional (.part .occurrence) ++ (.optional (.part .memberKey) ++ .part .type),
      .optional (.part .occurrence) ++ named,
      .optional (.part .occurrence) ++ enclosed .leftParen .group .rightParen]
  | .memberKey => .oneOf [
      .part .type1 ++ arrow,
      enclosed .leftParen .group .rightParen ++ arrow,
      mark .name ++ mark .colon,
      value ++ mark .colon]
  | .occurrence => .oneOf [mark .optional, mark .plus, .optional uint ++ (mark .asterisk ++ .optional uint)]

/-- A form derives a sequence of tokens. -/
inductive Derives : Form → List Token.Body → Prop
  | token {accepts : Token.Body → Bool} {b : Token.Body} (h : accepts b = true) : Derives (.token accepts) [b]
  | part {c : Category} {bs : List Token.Body} (h : Derives (production c) bs) : Derives (.part c) bs
  | seq {f g : Form} {bs cs : List Token.Body} (first : Derives f bs) (second : Derives g cs) :
      Derives (.seq f g) (bs ++ cs)
  | oneOf {fs : List Form} {f : Form} {bs : List Token.Body} (i : Nat) (choice : fs[i]? = some f) (h : Derives f bs) :
      Derives (.oneOf fs) bs
  | absent {f : Form} : Derives (.optional f) []
  | present {f : Form} {bs : List Token.Body} (h : Derives f bs) : Derives (.optional f) bs
  | stop {f : Form} : Derives (.many f) []
  | more {f : Form} {bs cs : List Token.Body} (first : Derives f bs) (rest : Derives (.many f) cs) :
      Derives (.many f) (bs ++ cs)
  | notAt {m : Mark} {f : Form} {bs : List Token.Body} (start : bs.head? ≠ some (.mark m)) (h : Derives f bs) :
      Derives (.notAt m f) bs

/-! ## Derivations of what is spelled -/

/-- The bodies of some tokens. -/
def bodies (ts : List Token) : List Token.Body := ts.map Token.body

@[simp] theorem bodies_nil : bodies [] = [] := rfl

@[simp] theorem bodies_cons (t : Token) (ts : List Token) : bodies (t :: ts) = [t.body] ++ bodies ts := rfl

@[simp] theorem bodies_append (ts us : List Token) : bodies (ts ++ us) = bodies ts ++ bodies us := List.map_append

variable {t : Token} {ts us after : List Token}

theorem derives_mark {m : Mark} (h : t.is m = true) : Derives (mark m) [t.body] := .token h

theorem derives_value {v : Literal} (h : t.body = .value v) : Derives value [t.body] := .token (by rw [h])

theorem derives_uint {n : Int} (h : t.body = .value (.uint n)) : Derives uint [t.body] := .token (by rw [h])

theorem derives_enclosed {o c : Token} {opening closing : Mark} {x : Category} (ho : o.is opening = true)
    (h : Derives (.part x) (bodies ts)) (hc : c.is closing = true) :
    Derives (enclosed opening x closing) (bodies (o :: (ts ++ [c]))) := by
  rw [bodies_cons, bodies_append]
  exact .seq (derives_mark ho) (.seq h (derives_mark hc))

theorem derives_occurrence {oc : Option Occurrence} (h : SpellsOccurrence oc ts after) :
    Derives (.optional (.part .occurrence)) (bodies ts) := by
  cases h
  case none => exact .absent
  case optional mark => exact .present (.part (.oneOf 0 rfl (derives_mark mark)))
  case oneOrMore mark => exact .present (.part (.oneOf 1 rfl (derives_mark mark)))
  case zeroOrMore mark _ => exact .present (.part (.oneOf 2 rfl (.seq .absent (.seq (derives_mark mark) .absent))))
  case upTo mark upper =>
    exact .present (.part (.oneOf 2 rfl
      (.seq .absent (.seq (derives_mark mark) (.present (derives_uint (body_of_uintAt? upper).1))))))
  case atLeast lower mark _ =>
    exact .present (.part (.oneOf 2 rfl (.seq (.present (derives_uint lower)) (.seq (derives_mark mark) .absent))))
  case fromTo lower mark upper =>
    exact .present (.part (.oneOf 2 rfl (.seq (.present (derives_uint lower))
      (.seq (derives_mark mark) (.present (derives_uint (body_of_uintAt? upper).1))))))

theorem derives_arrow {cut : Bool} (h : SpellsArrow cut ts) : Derives arrow (bodies ts) := by
  cases h
  case plain is => exact .seq .absent (derives_mark is)
  case cut mark is => exact .seq (.present (derives_mark mark)) (derives_mark is)

theorem derives_operatorSymbol {s : RangeOrControl} (h : Production.operatorSymbol? t = some s) :
    Derives (.oneOf [mark .rangeOperator, mark .control]) [t.body] := by
  rcases is_of_operatorSymbol? h with h | h
  · exact .oneOf 0 rfl (derives_mark h)
  · exact .oneOf 1 rfl (derives_mark h)

/-- The form that a phrase is derived from. -/
def formOf : Phrase → Form
  | .type2 _ => .part .type2
  | .operator _ => .optional (.oneOf [mark .rangeOperator, mark .control] ++ .part .type2)
  | .type1 _ => .part .type1
  | .choices _ => .many (mark .typeChoice ++ .part .type1)
  | .type _ => .part .type
  | .args _ => .optional (.part .args)
  | .moreArgs _ => .many (mark .comma ++ .part .type1)
  | .entry _ => .part .entry
  | .entries _ => .many (.part .entry ++ .optional (mark .comma))
  | .groupChoice _ => .part .groupChoice
  | .groupChoices _ => .many (mark .groupChoice ++ .part .groupChoice)
  | .group _ => .part .group

/-- A type that can stand before a colon is a name or a literal, and no more. -/
theorem derives_colonKey {pre : Location} {x : Type1} {key : MemberKey} {k : Token}
    (h : Spells (.type1 x) pre ts after) (made : Production.colonKey? x = some key) (colon : k.is .colon = true) :
    Derives (.part .memberKey) (bodies ts ++ [k.body]) := by
  obtain ⟨operand, operator, span⟩ := x
  unfold Production.colonKey? at made
  split at made
  case h_1 ident s hop harg =>
    cases hop; cases harg
    cases h with
    | operands first second =>
      cases second
      cases first with
      | typename name args =>
        cases args
        exact .part (.oneOf 2 rfl (.seq (derives_mark name) (derives_mark colon)))
  case h_2 v s hop harg =>
    cases hop; cases harg
    cases h with
    | operands first second =>
      cases second
      cases first with
      | literal body => exact .part (.oneOf 3 rfl (.seq (derives_value body) (derives_mark colon)))
  case h_3 => cases made

/-- **What some tokens spell is derived from their bodies.** -/
theorem derives_of_spells {p : Phrase} {pre : Location} (h : Spells p pre ts after) :
    Derives (formOf p) (bodies ts) := by
  induction h
  case literal body => exact .part (.oneOf 0 rfl (derives_value body))
  case typename name _ ih => exact .part (.oneOf 1 rfl (.seq (derives_mark name) ih))
  case parenthesized opening _ closing ih => exact .part (.oneOf 2 rfl (derives_enclosed opening ih closing))
  case map opening _ closing ih => exact .part (.oneOf 3 rfl (derives_enclosed opening ih closing))
  case array opening _ closing ih => exact .part (.oneOf 4 rfl (derives_enclosed opening ih closing))
  case unwrap opening name _ ih =>
    exact .part (.oneOf 5 rfl (.seq (derives_mark opening) (.seq (derives_mark name) ih)))
  case choiceFromInlineGroup mark opening _ closing ih =>
    exact .part (.oneOf 6 rfl (.seq (derives_mark mark) (derives_enclosed opening ih closing)))
  case choiceFromGroup mark name _ ih =>
    exact .part (.oneOf 7 rfl (.seq (derives_mark mark) (.seq (derives_mark name) ih)))
  case tagged body opening _ closing ih =>
    exact .part (.oneOf 8 rfl (.seq (.token (by rw [body]; rfl)) (derives_enclosed opening ih closing)))
  case major body bound _ => exact .part (.oneOf 9 rfl (.token (by rw [body]; exact decide_eq_true bound)))
  case any mark => exact .part (.oneOf 10 rfl (derives_mark mark))
  case noOperator => exact .absent
  case someOperator mark _ ih => exact .present (.seq (derives_operatorSymbol mark) ih)
  case range body => exact .part (.oneOf 0 rfl (.token (by rw [body])))
  case operands ih ih' => rw [bodies_append]; exact .part (.oneOf 1 rfl (.seq ih ih'))
  case noChoices => exact .stop
  case moreChoices mark _ _ ih ih' =>
    rw [bodies_cons, bodies_append, ← List.append_assoc]
    exact .more (.seq (derives_mark mark) ih) ih'
  case type ih ih' => rw [bodies_append]; exact .part (.seq ih ih')
  case noArgs => exact .absent
  case someArgs opening _ _ closing ih ih' =>
    rw [bodies_cons, bodies_append, bodies_append]
    exact .present (.part (.seq (derives_mark opening) (.seq (.seq ih ih') (derives_mark closing))))
  case noMoreArgs => exact .stop
  case moreArgs mark _ _ ih ih' =>
    rw [bodies_cons, bodies_append, ← List.append_assoc]
    exact .more (.seq (derives_mark mark) ih) ih'
  case inlineEntry occurrence opening _ closing _ ih =>
    rw [bodies_append]
    exact .part (.oneOf 2 rfl (.seq (derives_occurrence occurrence) (derives_enclosed opening ih closing)))
  case enclosedEntry o c g cut ty os ts as us after occurrence opening _ closing arrow _ ih ih' =>
    have key : bodies (o :: (ts ++ c :: (as ++ us))) = (bodies (o :: (ts ++ [c])) ++ bodies as) ++ bodies us := by simp
    rw [bodies_append, key]
    exact .part (.oneOf 0 rfl (.seq (derives_occurrence occurrence)
      (.seq (.present (.part (.oneOf 1 rfl (.seq (derives_enclosed opening ih closing) (derives_arrow arrow))))) ih')))
  case colonEntry k t key ty os ts us after occurrence first _ mark made _ _ ih' =>
    have key : bodies (ts ++ k :: us) = (bodies ts ++ [k.body]) ++ bodies us := by simp
    rw [bodies_append, key]
    exact .part (.oneOf 0 rfl (.seq (derives_occurrence occurrence)
      (.seq (.present (derives_colonKey first made mark)) ih')))
  case arrowEntry os ts as us after occurrence _ _ arrow _ ih ih' =>
    rw [bodies_append, bodies_append, bodies_append, ← List.append_assoc (bodies ts)]
    exact .part (.oneOf 0 rfl (.seq (derives_occurrence occurrence)
      (.seq (.present (.part (.oneOf 0 rfl (.seq ih (derives_arrow arrow))))) ih')))
  case namedEntry os ts after occurrence _ _ _ ih =>
    have type : Derives (.part .type) (bodies ts ++ []) := .part (.seq ih .stop)
    rw [List.append_nil] at type
    rw [bodies_append]
    exact .part (.oneOf 0 rfl (.seq (derives_occurrence occurrence) (.seq .absent type)))
  case keylessEntry os ts us after occurrence _ _ _ _ _ ih ih' =>
    have type : Derives (.part .type) (bodies (ts ++ us)) := by rw [bodies_append]; exact .part (.seq ih ih')
    rw [bodies_append]
    exact .part (.oneOf 0 rfl (.seq (derives_occurrence occurrence) (.seq .absent type)))
  case noEntries => exact .stop
  case plainEntry ts us after _ _ _ ih ih' =>
    rw [bodies_append, ← List.append_nil (bodies ts)]
    exact .more (.seq ih .absent) ih'
  case commaEntry c es ts us after _ mark _ ih ih' =>
    rw [bodies_append, bodies_cons, ← List.append_assoc]
    exact .more (.seq ih (.present (derives_mark mark))) ih'
  case groupChoice ih => exact .part ih
  case noGroupChoices => exact .stop
  case moreGroupChoices mark _ _ ih ih' =>
    rw [bodies_cons, bodies_append, ← List.append_assoc]
    exact .more (.seq (derives_mark mark) ih) ih'
  case group ih ih' => rw [bodies_append]; exact .part (.seq ih ih')

/-! ## Derivations of rules -/

theorem derives_moreParams {ps : List GenericParam} (h : SpellsMoreParams ps ts after) :
    Derives (.many (mark .comma ++ mark .name)) (bodies ts) := by
  induction h with
  | nil => exact .stop
  | cons comma name _ ih =>
    rw [bodies_cons, bodies_cons, ← List.append_assoc]
    exact .more (.seq (derives_mark comma) (derives_mark name)) ih

theorem derives_params {params : Option GenericParams} (h : SpellsParams params ts after) :
    Derives (.optional Grammar.params) (bodies ts) := by
  cases h with
  | none => exact .absent
  | some opening name more closing =>
    rw [bodies_cons, bodies_cons, bodies_append, ← List.append_assoc [_] (bodies _)]
    exact .present (.seq (derives_mark opening)
      (.seq (.seq (derives_mark name) (derives_moreParams more)) (derives_mark closing)))

theorem head?_bodies_ne {m : Mark} (h : nextIs m ts = false) : (bodies ts).head? ≠ some (.mark m) := by
  cases ts with
  | nil => exact fun h => by cases h
  | cons t ts =>
    intro head
    have : t.is m = true := Token.is_iff.2 (Option.some.inj head)
    rw [nextIs, List.head?_cons, Option.any_some, this] at h
    cases h

/-- A body that is read as a type does not stand behind the sign that adds to a group. -/
theorem derives_rule {r : Rule} (h : SpellsRule r ts after) : Derives (.part .rule) (bodies ts) := by
  cases h with
  | @type name eq _ a _ ps us _ isName params assigned start kind type =>
    have sign : Derives (.oneOf [mark .assign, mark .extendType]) [eq.body] := by
      have written := is_mark_of_assignment? assigned
      cases a with
      | define => exact .oneOf 0 rfl (derives_mark written)
      | extendType => exact .oneOf 1 rfl (derives_mark written)
      | extendGroup => cases kind
    have body := Derives.notAt (head?_bodies_ne start) (derives_of_spells type)
    rw [bodies_cons, bodies_append, bodies_cons]
    exact .part (.seq (derives_mark isName) (.seq (derives_params params) (.oneOf 0 rfl (.seq sign body))))
  | @group name eq _ a _ ps us _ isName params assigned start kind entry =>
    have sign : Derives (.oneOf [mark .assign, mark .extendGroup]) [eq.body] := by
      have written := is_mark_of_assignment? assigned
      cases a with
      | define => exact .oneOf 0 rfl (derives_mark written)
      | extendType => cases kind
      | extendGroup => exact .oneOf 1 rfl (derives_mark written)
    have body := Derives.notAt (head?_bodies_ne start) (derives_of_spells entry)
    rw [bodies_cons, bodies_append, bodies_cons]
    exact .part (.seq (derives_mark isName) (.seq (derives_params params) (.oneOf 1 rfl (.seq sign body))))

theorem derives_rules {rs : List Rule} (h : SpellsRules rs ts after) : Derives (.many (.part .rule)) (bodies ts) := by
  induction h with
  | nil => exact .stop
  | cons first _ ih => rw [bodies_append]; exact .more (derives_rule first) ih

end Grammar

/-! ## Documents read from a list of tokens -/

open Grammar

theorem Feed.ends_ofTokens (tokens : List Token) : (Feed.ofTokens tokens).Ends := by
  intro t ht
  cases ht
  rfl

/-- The tokens of a list before the end of input. -/
def beforeEnd (tokens : List Token) : List Token := tokens.takeWhile fun t => !t.is .endOfInput

theorem beforeEnd_append {ts tokens : List Token} (hts : Unended ts)
    (ends : ∀ t, tokens.head? = some t → t.is .endOfInput = true) : beforeEnd (ts ++ tokens) = ts := by
  have rest : beforeEnd tokens = [] := by
    cases tokens with
    | nil => rfl
    | cons t tokens => rw [beforeEnd, List.takeWhile_cons, ends t rfl]; rfl
  rw [beforeEnd, List.takeWhile_append_of_pos fun t ht => by rw [hts t ht]; rfl, ← beforeEnd, rest, List.append_nil]

/-- A window on a list of tokens walks over a part of the list, up to the end of input. -/
theorem exists_append_of_steps {last : Except LexFault Token} (hlast : ∀ t, last = .ok t → t.is .endOfInput = true) :
    ∀ {ts tokens : List Token} {w v : Window}, w.Steps ts v → Unended ts →
      (∀ n, w.item n = Feed.item ⟨tokens.map .ok, last⟩ n) → v.current.is .endOfInput = true →
        ∃ rest, tokens = ts ++ rest ∧ ∀ t, rest.head? = some t → t.is .endOfInput = true
  | [], tokens, w, v, h, _, items, ends => by
    cases h
    refine ⟨tokens, rfl, fun t ht => ?_⟩
    cases tokens with
    | nil => cases ht
    | cons u tokens =>
      cases ht
      cases items 0
      exact ends
  | t :: ts, [], w, v, h, hts, items, _ => by
    have ends := hlast w.current (items 0).symm
    rw [h.head, (unended_cons.1 hts).1] at ends
    cases ends
  | t :: ts, u :: tokens, w, v, h, hts, items, ends => by
    obtain rfl : t = u := by
      rw [← h.head]
      cases items 0
      rfl
    obtain ⟨x, move, _, walk⟩ := h.tail
    have next : ∀ n, x.item n = Feed.item ⟨tokens.map .ok, last⟩ n := fun n => by
      rw [Window.item_of_advance move, items]
      rfl
    obtain ⟨rest, rfl, head⟩ := exists_append_of_steps hlast walk (unended_cons.1 hts).2 next ends
    exact ⟨rest, rfl, head⟩

/-- **Whatever is read from a list of tokens is a document of the grammar.**  The derivation uses the tokens before the
first end of input, each of them once and in their order. -/
theorem derives_of_parseTokens {tokens : List Token} {shown : Text} {d : Document}
    (h : parseTokens tokens shown = .ok d) : Derives (.part .document) (bodies (beforeEnd tokens)) := by
  obtain ⟨w, v, ts, hw, walk, ends, _, spelled⟩ :=
    parseFeed_ok (Feed.ends_ofTokens tokens) (parseTokens_eq_ok_iff.1 h)
  have rules := spelled _ (List.cons_ne_nil _ _) v.shows_pair
  obtain ⟨rest, rfl, head⟩ := exists_append_of_steps (Feed.ends_ofTokens tokens) walk rules.unended
    (Window.item_ofFeed hw) ends
  rw [beforeEnd_append rules.unended head]
  exact .part (derives_rules rules)

/-- One rule with a name for its type, and a token behind the end of input that is not read. -/
theorem derives_of_parseTokens_sample :
    let tokens : List Token := [⟨.mark .name, "a", ⟨1, 1, 0⟩⟩, ⟨.mark .assign, "=", ⟨1, 3, 2⟩⟩,
      ⟨.mark .name, "b", ⟨1, 5, 4⟩⟩, ⟨.mark .endOfInput, "", ⟨1, 6, 5⟩⟩, ⟨.mark .comma, ",", ⟨1, 7, 6⟩⟩]
    (∃ d, parseTokens tokens [] = .ok d) ∧
      Derives (.part .document) [.mark .name, .mark .assign, .mark .name] := by
  intro tokens
  have read : ∃ d, parseTokens tokens [] = .ok d := ⟨_, rfl⟩
  obtain ⟨d, h⟩ := read
  exact ⟨⟨d, h⟩, derives_of_parseTokens h⟩

end Cddl
