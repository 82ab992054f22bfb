import Cddl.Proofs.Reading
/-!
# What tokens spell

`Spells p pre ts after` says that the tokens `ts` spell the phrase `p` where they stand: behind a token that ends at
`pre`, and before the tokens `after`, of which the grammar looks at two at most.  It says so rule by rule and without a
reader: a rule names the tokens that it takes, the phrases in between, and what must not follow.
-/
namespace Cddl

/-! ## Looking ahead -/

/-- Whether the first of some tokens is the given mark. -/
def nextIs (m : Mark) (ts : List Token) : Bool := ts.head?.any fun t => t.is m

def Token.isUint (t : Token) : Bool :=
  match t.body with
  | .value (.uint _) => true
  | _ => false

/-- Whether an occurrence is what some tokens begin with. -/
def beginsOccurrence : List Token → Bool
  | [] => false
  | t :: ts => Production.startsOccurrence t || (t.isUint && nextIs .asterisk ts)

/-- Whether the first of some tokens is an unsigned integer that starts at the given place. -/
def beginsJoined (stop : Location) (ts : List Token) : Bool := ts.head?.any fun t => (Production.uintAt? stop t).isSome

/-- Whether no entry of a group can begin with the first of some tokens. -/
def nextEndsChoice (ts : List Token) : Bool := ts.head?.any Production.endsChoice

/-- Whether the first of some tokens joins an operand to another. -/
def nextIsOperator (ts : List Token) : Bool := ts.head?.any fun t => (Production.operatorSymbol? t).isSome

/-- Whether a key ends where some tokens begin. -/
def nextIsKeyEnd (ts : List Token) : Bool := nextIs .colon ts || nextIs .arrow ts || nextIs .cut ts

/-- The stretch of a phrase that some tokens spell; one without tokens starts where the next token does. -/
def Span.over (pre : Location) (ts after : List Token) : Span :=
  ⟨((ts ++ after).head?.map Token.location).getD .start, stopAfter pre ts⟩

/-! ## Phrases -/

/-- The things that the grammar has rules for and that may contain each other. -/
inductive Phrase where
  | type2 (t : Type2)
  | operator (o : Option Operator)
  | type1 (t : Type1)
  /-- The alternatives after a first one. -/
  | choices (cs : List TypeChoice)
  | type (t : TypeExpr)
  | args (a : Option GenericArgs)
  /-- The arguments after a first one. -/
  | moreArgs (as : List GenericArg)
  | entry (e : GroupEntry)
  | entries (es : List ListedEntry)
  | groupChoice (c : GroupChoice)
  /-- The alternatives after a first one. -/
  | groupChoices (cs : List GroupChoice)
  | group (g : Group)

/-- What an occurrence is spelled with, where one is given. -/
inductive SpellsOccurrence : Option Occurrence → List Token → List Token → Prop
  | none {after : List Token} (free : beginsOccurrence after = false) : SpellsOccurrence none [] after
  | optional {t : Token} {after : List Token} (mark : t.is .optional = true) :
      SpellsOccurrence (some ⟨.optional, some t.span⟩) [t] after
  | oneOrMore {t : Token} {after : List Token} (mark : t.is .plus = true) :
      SpellsOccurrence (some ⟨.oneOrMore, some t.span⟩) [t] after
  | zeroOrMore {t : Token} {after : List Token} (mark : t.is .asterisk = true)
      (free : beginsJoined t.stop after = false) : SpellsOccurrence (some ⟨.zeroOrMore, some t.span⟩) [t] after
  | upTo {t u : Token} {n : Int} {after : List Token} (mark : t.is .asterisk = true)
      (upper : Production.uintAt? t.stop u = some n) :
      SpellsOccurrence (some ⟨.between none (some n), some ⟨t.location, u.stop⟩⟩) [t, u] after
  | atLeast {l t : Token} {m : Int} {after : List Token} (lower : l.body = .value (.uint m))
      (mark : t.is .asterisk = true) (free : beginsJoined t.stop after = false) :
      SpellsOccurrence (some ⟨.between (some m) none, some ⟨l.location, t.stop⟩⟩) [l, t] after
  | fromTo {l t u : Token} {m n : Int} {after : List Token} (lower : l.body = .value (.uint m))
      (mark : t.is .asterisk = true) (upper : Production.uintAt? t.stop u = some n) :
      SpellsOccurrence (some ⟨.between (some m) (some n), some ⟨l.location, u.stop⟩⟩) [l, t, u] after

/-- An arrow, and whether a cut stands before it. -/
inductive SpellsArrow : Bool → List Token → Prop
  | plain {a : Token} (arrow : a.is .arrow = true) : SpellsArrow false [a]
  | cut {c a : Token} (mark : c.is .cut = true) (arrow : a.is .arrow = true) : SpellsArrow true [c, a]

/-- What a phrase is spelled with: the end of the token before, its own tokens, and those behind. -/
inductive Spells : Phrase → Location → List Token → List Token → Prop
  -- operands
  | literal {pre : Location} {t : Token} {v : Literal} {after : List Token} (body : t.body = .value v) :
      Spells (.type2 (.literal v (some t.span))) pre [t] after
  | typename {pre : Location} {t : Token} {a : Option GenericArgs} {ts after : List Token} (name : t.is .name = true)
      (args : Spells (.args a) t.stop ts after) :
      Spells (.type2 (.typename (Production.identifier t) a (some (.over pre (t :: ts) after)))) pre (t :: ts) after
  | parenthesized {pre : Location} {o c : Token} {ty : TypeExpr} {ts after : List Token}
      (opening : o.is .leftParen = true) (type : Spells (.type ty) o.stop ts (c :: after))
      (closing : c.is .rightParen = true) :
      Spells (.type2 (.parenthesized ty (some ⟨o.location, c.stop⟩))) pre (o :: (ts ++ [c])) after
  | map {pre : Location} {o c : Token} {g : Group} {ts after : List Token}
      (opening : o.is .leftBrace = true) (group : Spells (.group g) o.stop ts (c :: after))
      (closing : c.is .rightBrace = true) :
      Spells (.type2 (.map g (some ⟨o.location, c.stop⟩))) pre (o :: (ts ++ [c])) after
  | array {pre : Location} {o c : Token} {g : Group} {ts after : List Token}
      (opening : o.is .leftBracket = true) (group : Spells (.group g) o.stop ts (c :: after))
      (closing : c.is .rightBracket = true) :
      Spells (.type2 (.array g (some ⟨o.location, c.stop⟩))) pre (o :: (ts ++ [c])) after
  | unwrap {pre : Location} {o t : Token} {a : Option GenericArgs} {ts after : List Token}
      (opening : o.is .tilde = true) (name : t.is .name = true) (args : Spells (.args a) t.stop ts after) :
      Spells (.type2 (.unwrap (Production.identifier t) a (some (.over pre (o :: t :: ts) after)))) pre (o :: t :: ts)
        after
  | choiceFromInlineGroup {pre : Location} {x o c : Token} {g : Group} {ts after : List Token}
      (mark : x.is .ampersand = true) (opening : o.is .leftParen = true)
      (group : Spells (.group g) o.stop ts (c :: after)) (closing : c.is .rightParen = true) :
      Spells (.type2 (.choiceFromInlineGroup g (some ⟨x.location, c.stop⟩))) pre (x :: o :: (ts ++ [c])) after
  | choiceFromGroup {pre : Location} {x t : Token} {a : Option GenericArgs} {ts after : List Token}
      (mark : x.is .ampersand = true) (name : t.is .name = true) (args : Spells (.args a) t.stop ts after) :
      Spells (.type2 (.choiceFromGroup (Production.identifier t) a (some (.over pre (x :: t :: ts) after)))) pre
        (x :: t :: ts) after
  | tagged {pre : Location} {x o c : Token} {number : Option Nat} {ty : TypeExpr} {ts after : List Token}
      (body : x.body = .tag 6 number) (opening : o.is .leftParen = true)
      (type : Spells (.type ty) o.stop ts (c :: after)) (closing : c.is .rightParen = true) :
      Spells (.type2 (.tagged (number.map Int.ofNat) ty (some ⟨x.location, c.stop⟩))) pre (x :: o :: (ts ++ [c])) after
  | major {pre : Location} {t : Token} {major : Nat} {number : Option Nat} {after : List Token}
      (body : t.body = .tag major number) (bound : major ≤ 7) (free : major = 6 → nextIs .leftParen after = false) :
      Spells (.type2 (.major major (number.map Int.ofNat) (some t.span))) pre [t] after
  | any {pre : Location} {t : Token} {after : List Token} (mark : t.is .hash = true) :
      Spells (.type2 (.any (some t.span))) pre [t] after
  -- operators
  | noOperator {pre : Location} {after : List Token} (free : nextIsOperator after = false) :
      Spells (.operator none) pre [] after
  | someOperator {pre : Location} {t : Token} {symbol : RangeOrControl} {x : Type2} {ts after : List Token}
      (mark : Production.operatorSymbol? t = some symbol) (operand : Spells (.type2 x) t.stop ts after) :
      Spells (.operator (some ⟨symbol, x, some (.over pre (t :: ts) after)⟩)) pre (t :: ts) after
  -- types
  | range {pre : Location} {t : Token} {lower upper : Literal} {inclusive : Bool} {after : List Token}
      (body : t.body = .range lower upper inclusive) :
      Spells (.type1 (Production.rangeType1 t lower upper inclusive t.stop)) pre [t] after
  | operands {pre : Location} {x : Type2} {o : Option Operator} {ts us after : List Token}
      (operand : Spells (.type2 x) pre ts (us ++ after)) (operator : Spells (.operator o) (stopAfter pre ts) us after) :
      Spells (.type1 ⟨x, o, some (.over pre (ts ++ us) after)⟩) pre (ts ++ us) after
  | noChoices {pre : Location} {after : List Token} (free : nextIs .typeChoice after = false) :
      Spells (.choices []) pre [] after
  | moreChoices {pre : Location} {s : Token} {t : Type1} {cs : List TypeChoice} {ts us after : List Token}
      (mark : s.is .typeChoice = true) (first : Spells (.type1 t) s.stop ts (us ++ after))
      (more : Spells (.choices cs) (stopAfter s.stop ts) us after) :
      Spells (.choices (Production.typeChoice t :: cs)) pre (s :: (ts ++ us)) after
  | type {pre : Location} {t : Type1} {cs : List TypeChoice} {ts us after : List Token}
      (first : Spells (.type1 t) pre ts (us ++ after)) (more : Spells (.choices cs) (stopAfter pre ts) us after) :
      Spells (.type ⟨Production.typeChoice t :: cs, some (.over pre (ts ++ us) after)⟩) pre (ts ++ us) after
  -- arguments
  | noArgs {pre : Location} {after : List Token} (free : nextIs .leftAngle after = false) :
      Spells (.args none) pre [] after
  | someArgs {pre : Location} {o c : Token} {t : Type1} {as : List GenericArg} {ts us after : List Token}
      (opening : o.is .leftAngle = true) (first : Spells (.type1 t) o.stop ts (us ++ c :: after))
      (more : Spells (.moreArgs as) (stopAfter o.stop ts) us (c :: after)) (closing : c.is .rightAngle = true) :
      Spells (.args (some ⟨⟨t, t.span⟩ :: as, some ⟨o.location, c.stop⟩⟩)) pre (o :: (ts ++ us ++ [c])) after
  | noMoreArgs {pre : Location} {after : List Token} (free : nextIs .comma after = false) :
      Spells (.moreArgs []) pre [] after
  | moreArgs {pre : Location} {s : Token} {t : Type1} {as : List GenericArg} {ts us after : List Token}
      (mark : s.is .comma = true) (first : Spells (.type1 t) s.stop ts (us ++ after))
      (more : Spells (.moreArgs as) (stopAfter s.stop ts) us after) :
      Spells (.moreArgs (⟨t, t.span⟩ :: as)) pre (s :: (ts ++ us)) after
  -- entries
  | inlineEntry {pre : Location} {oc : Option Occurrence} {o c : Token} {g : Group} {os ts after : List Token}
      (occurrence : SpellsOccurrence oc os (o :: (ts ++ c :: after))) (opening : o.is .leftParen = true)
      (group : Spells (.group g) o.stop ts (c :: after)) (closing : c.is .rightParen = true)
      (free : nextIs .arrow after = false ∧ nextIs .cut after = false) :
      Spells (.entry (.inline oc g (some (.over pre (os ++ o :: (ts ++ [c])) after))))
        pre (os ++ o :: (ts ++ [c])) after
  | enclosedEntry {pre : Location} {oc : Option Occurrence} {o c : Token} {g : Group} {cut : Bool} {ty : TypeExpr}
      {os ts as us after : List Token} (occurrence : SpellsOccurrence oc os (o :: (ts ++ c :: (as ++ (us ++ after)))))
      (opening : o.is .leftParen = true) (group : Spells (.group g) o.stop ts (c :: (as ++ (us ++ after))))
      (closing : c.is .rightParen = true) (arrow : SpellsArrow cut as)
      (type : Spells (.type ty) (stopAfter c.stop as) us after) :
      Spells (.entry (.keyed
        ⟨oc, some (.enclosed (Production.enclosedKey g) g.span), ty,
          some (.over pre (os ++ o :: (ts ++ c :: (as ++ us))) after)⟩
        (some (.over pre (os ++ o :: (ts ++ c :: (as ++ us))) after)))) pre (os ++ o :: (ts ++ c :: (as ++ us))) after
  | colonEntry {pre : Location} {oc : Option Occurrence} {k : Token} {t : Type1} {key : MemberKey} {ty : TypeExpr}
      {os ts us after : List Token} (occurrence : SpellsOccurrence oc os (ts ++ k :: (us ++ after)))
      (first : Spells (.type1 t) (stopAfter pre os) ts (k :: (us ++ after))) (start : nextIs .leftParen ts = false)
      (mark : k.is .colon = true) (made : Production.colonKey? t = some key)
      (type : Spells (.type ty) k.stop us after) :
      Spells (.entry (.keyed ⟨oc, some key, ty, some (.over pre (os ++ (ts ++ k :: us)) after)⟩
        (some (.over pre (os ++ (ts ++ k :: us)) after)))) pre (os ++ (ts ++ k :: us)) after
  | arrowEntry {pre : Location} {oc : Option Occurrence} {t : Type1} {cut : Bool} {ty : TypeExpr}
      {os ts as us after : List Token} (occurrence : SpellsOccurrence oc os (ts ++ (as ++ (us ++ after))))
      (first : Spells (.type1 t) (stopAfter pre os) ts (as ++ (us ++ after))) (start : nextIs .leftParen ts = false)
      (arrow : SpellsArrow cut as) (type : Spells (.type ty) (stopAfter pre (os ++ (ts ++ as))) us after) :
      Spells (.entry (.keyed
        ⟨oc, some (.type1 t cut (some (.over (stopAfter pre os) (ts ++ as) (us ++ after)))), ty,
          some (.over pre (os ++ (ts ++ (as ++ us))) after)⟩
        (some (.over pre (os ++ (ts ++ (as ++ us))) after)))) pre (os ++ (ts ++ (as ++ us))) after
  | namedEntry {pre : Location} {oc : Option Occurrence} {ident : Identifier} {a : Option GenericArgs}
      {s s' : Option Span} {os ts after : List Token} (occurrence : SpellsOccurrence oc os (ts ++ after))
      (first : Spells (.type1 ⟨.typename ident a s, none, s'⟩) (stopAfter pre os) ts after)
      (free : nextIsKeyEnd after = false) (sole : nextIs .typeChoice after = false) :
      Spells (.entry (.named ⟨oc, ident, a, some (.over pre (os ++ ts) after)⟩ (some (.over pre (os ++ ts) after)))) pre
        (os ++ ts) after
  | keylessEntry {pre : Location} {oc : Option Occurrence} {t : Type1} {cs : List TypeChoice}
      {os ts us after : List Token}
      (occurrence : SpellsOccurrence oc os (ts ++ (us ++ after)))
      (first : Spells (.type1 t) (stopAfter pre os) ts (us ++ after)) (start : nextIs .leftParen ts = false)
      (free : nextIsKeyEnd (us ++ after) = false)
      (typed : ∀ ident a s s', t = ⟨.typename ident a s, none, s'⟩ → nextIs .typeChoice (us ++ after) = true)
      (more : Spells (.choices cs) (stopAfter pre (os ++ ts)) us after) :
      Spells (.entry (.keyed
        ⟨oc, none, ⟨Production.typeChoice t :: cs, some (.over (stopAfter pre os) (ts ++ us) after)⟩,
          some (.over pre (os ++ (ts ++ us)) after)⟩
        (some (.over pre (os ++ (ts ++ us)) after)))) pre (os ++ (ts ++ us)) after
  -- groups
  | noEntries {pre : Location} {after : List Token} (free : nextEndsChoice after = true) :
      Spells (.entries []) pre [] after
  | plainEntry {pre : Location} {e : GroupEntry} {es : List ListedEntry} {ts us after : List Token}
      (entry : Spells (.entry e) pre ts (us ++ after)) (free : nextIs .comma (us ++ after) = false)
      (more : Spells (.entries es) (stopAfter pre ts) us after) :
      Spells (.entries (⟨e, false⟩ :: es)) pre (ts ++ us) after
  | commaEntry {pre : Location} {e : GroupEntry} {c : Token} {es : List ListedEntry} {ts us after : List Token}
      (entry : Spells (.entry e) pre ts (c :: (us ++ after))) (mark : c.is .comma = true)
      (more : Spells (.entries es) c.stop us after) :
      Spells (.entries (⟨e, true⟩ :: es)) pre (ts ++ c :: us) after
  | groupChoice {pre : Location} {es : List ListedEntry} {ts after : List Token}
      (entries : Spells (.entries es) pre ts after) :
      Spells (.groupChoice ⟨es, some (.over pre ts after)⟩) pre ts after
  | noGroupChoices {pre : Location} {after : List Token} (free : nextIs .groupChoice after = false) :
      Spells (.groupChoices []) pre [] after
  | moreGroupChoices {pre : Location} {s : Token} {c : GroupChoice} {cs : List GroupChoice} {ts us after : List Token}
      (mark : s.is .groupChoice = true) (first : Spells (.groupChoice c) s.stop ts (us ++ after))
      (more : Spells (.groupChoices cs) (stopAfter s.stop ts) us after) :
      Spells (.groupChoices (c :: cs)) pre (s :: (ts ++ us)) after
  | group {pre : Location} {c : GroupChoice} {cs : List GroupChoice} {ts us after : List Token}
      (first : Spells (.groupChoice c) pre ts (us ++ after))
      (more : Spells (.groupChoices cs) (stopAfter pre ts) us after) :
      Spells (.group ⟨c :: cs, some (.over pre (ts ++ us) after)⟩) pre (ts ++ us) after

/-! ## The tokens of a phrase -/

theorem Token.isUint_eq {t : Token} {n : Int} (h : t.body = .value (.uint n)) : t.isUint = true := by
  unfold Token.isUint
  rw [h]

theorem body_of_uintAt? {t : Token} {stop : Location} {n : Int} (h : Production.uintAt? stop t = some n) :
    t.body = .value (.uint n) ∧ t.location.offset = stop.offset := by
  unfold Production.uintAt? at h
  split at h
  · split at h
    · cases h; exact ⟨by assumption, by assumption⟩
    · cases h
  · cases h

theorem is_of_operatorSymbol? {t : Token} {s : RangeOrControl} (h : Production.operatorSymbol? t = some s) :
    t.is .rangeOperator = true ∨ t.is .control = true := by
  unfold Production.operatorSymbol? at h
  split at h
  · exact .inl ‹_›
  · split at h
    · exact .inr ‹_›
    · cases h

theorem not_end_of_is {t : Token} {m : Mark} (h : t.is m = true) (hm : m ≠ .endOfInput) : t.is .endOfInput = false :=
  Token.not_is h hm

theorem not_end_of_operatorSymbol? {t : Token} {s : RangeOrControl} (h : Production.operatorSymbol? t = some s) :
    t.is .endOfInput = false :=
  (is_of_operatorSymbol? h).elim (not_end_of_is · (by decide)) (not_end_of_is · (by decide))

theorem SpellsOccurrence.unended {oc : Option Occurrence} {ts after : List Token} (h : SpellsOccurrence oc ts after) :
    Unended ts := by
  cases h
  case none => exact unended_nil
  case optional mark => simp [not_end_of_is mark]
  case oneOrMore mark => simp [not_end_of_is mark]
  case zeroOrMore mark _ => simp [not_end_of_is mark]
  case upTo mark upper => simp [not_end_of_is mark, Token.not_is_of_value (body_of_uintAt? upper).1]
  case atLeast lower mark _ => simp [not_end_of_is mark, Token.not_is_of_value lower]
  case fromTo lower mark upper =>
    simp [not_end_of_is mark, Token.not_is_of_value lower, Token.not_is_of_value (body_of_uintAt? upper).1]

theorem SpellsArrow.unended {cut : Bool} {ts : List Token} (h : SpellsArrow cut ts) : Unended ts := by
  cases h
  case plain arrow => simp [not_end_of_is arrow]
  case cut mark arrow => simp [not_end_of_is mark, not_end_of_is arrow]

/-- The end of input is not a part of any phrase. -/
theorem Spells.unended {p : Phrase} {pre : Location} {ts after : List Token} (h : Spells p pre ts after) :
    Unended ts := by
  induction h
  case literal body => simp [Token.not_is_of_value body]
  case typename name _ ih => simp [not_end_of_is name, ih]
  case parenthesized opening _ closing ih => simp [not_end_of_is opening, not_end_of_is closing, ih]
  case map opening _ closing ih => simp [not_end_of_is opening, not_end_of_is closing, ih]
  case array opening _ closing ih => simp [not_end_of_is opening, not_end_of_is closing, ih]
  case unwrap opening name _ ih => simp [not_end_of_is opening, not_end_of_is name, ih]
  case choiceFromInlineGroup mark opening _ closing ih =>
    simp [not_end_of_is mark, not_end_of_is opening, not_end_of_is closing, ih]
  case choiceFromGroup mark name _ ih => simp [not_end_of_is mark, not_end_of_is name, ih]
  case tagged body opening _ closing ih =>
    simp [Token.not_is_of_tag body, not_end_of_is opening, not_end_of_is closing, ih]
  case major body _ _ => simp [Token.not_is_of_tag body]
  case any mark => simp [not_end_of_is mark]
  case someOperator mark _ ih => simp [not_end_of_operatorSymbol? mark, ih]
  case range body => simp [Token.not_is_of_range body]
  case moreChoices mark _ _ ih ih' => simp [not_end_of_is mark, ih, ih']
  case someArgs opening _ _ closing ih ih' => simp [not_end_of_is opening, not_end_of_is closing, ih, ih']
  case moreArgs mark _ _ ih ih' => simp [not_end_of_is mark, ih, ih']
  case inlineEntry occurrence opening _ closing _ ih =>
    simp [occurrence.unended, not_end_of_is opening, not_end_of_is closing, ih]
  case enclosedEntry occurrence opening _ closing arrow _ ih ih' =>
    simp [occurrence.unended, not_end_of_is opening, not_end_of_is closing, arrow.unended, ih, ih']
  case colonEntry occurrence _ _ mark _ _ ih ih' => simp [occurrence.unended, not_end_of_is mark, ih, ih']
  case arrowEntry occurrence _ _ arrow _ ih ih' => simp [occurrence.unended, arrow.unended, ih, ih']
  case namedEntry occurrence _ _ _ ih => simp [occurrence.unended, ih]
  case keylessEntry occurrence _ _ _ _ _ ih ih' => simp [occurrence.unended, ih, ih']
  case commaEntry mark _ ih ih' => simp [not_end_of_is mark, ih, ih']
  case moreGroupChoices mark _ _ ih ih' => simp [not_end_of_is mark, ih, ih']
  all_goals simp_all

/-- Whether a phrase takes a token in any case. -/
def Phrase.takesToken : Phrase → Bool
  | .type2 _ | .type1 _ | .type _ | .entry _ => true
  | _ => false

theorem Spells.ne_nil {p : Phrase} {pre : Location} {ts after : List Token} (h : Spells p pre ts after)
    (hp : p.takesToken = true) : ts ≠ [] := by
  induction h
  case operands ih _ => exact List.append_ne_nil_of_left_ne_nil (ih rfl) _
  case type ih _ => exact List.append_ne_nil_of_left_ne_nil (ih rfl) _
  case namedEntry ih => exact List.append_ne_nil_of_right_ne_nil _ (ih rfl)
  case keylessEntry ih _ =>
    exact List.append_ne_nil_of_right_ne_nil _ (List.append_ne_nil_of_left_ne_nil (ih rfl) _)
  case arrowEntry ih _ =>
    exact List.append_ne_nil_of_right_ne_nil _ (List.append_ne_nil_of_left_ne_nil (ih rfl) _)
  all_goals first | exact absurd hp Bool.false_ne_true | simp

/-- Whether a phrase that takes a token in any case may begin with a token. -/
def opensPhrase (t : Token) : Bool :=
  match t.body with
  | .mark m =>
    [.name, .leftParen, .leftBrace, .leftBracket, .tilde, .ampersand, .hash, .optional, .asterisk, .plus].contains m
  | _ => true

def nextOpensPhrase (ts : List Token) : Bool := ts.head?.any opensPhrase

theorem opensPhrase_of_is {t : Token} {m : Mark} (h : t.is m = true) (hm : opensPhrase ⟨.mark m, [], .start⟩ = true) :
    opensPhrase t = true := by
  unfold opensPhrase
  rw [Token.is_iff.1 h]
  exact hm

theorem opensPhrase_of_body {t : Token} {b : Token.Body} (h : t.body = b) (hb : ∀ m, b ≠ .mark m) :
    opensPhrase t = true := by
  unfold opensPhrase
  split
  · exact absurd (h.symm.trans ‹_›) (hb _)
  · rfl

theorem nextOpensPhrase_append {ts us : List Token} (h : nextOpensPhrase ts = true) :
    nextOpensPhrase (ts ++ us) = true := by
  cases ts with
  | nil => cases h
  | cons t ts => exact h

theorem SpellsOccurrence.opens {oc : Option Occurrence} {os ts after : List Token} (h : SpellsOccurrence oc os after)
    (hts : nextOpensPhrase ts = true) : nextOpensPhrase (os ++ ts) = true := by
  cases h with
  | none => exact hts
  | optional mark => exact opensPhrase_of_is mark (by decide)
  | oneOrMore mark => exact opensPhrase_of_is mark (by decide)
  | zeroOrMore mark => exact opensPhrase_of_is mark (by decide)
  | upTo mark => exact opensPhrase_of_is mark (by decide)
  | atLeast lower => exact opensPhrase_of_body lower (fun _ h => by cases h)
  | fromTo lower => exact opensPhrase_of_body lower (fun _ h => by cases h)

/-- A phrase that takes a token in any case begins with one that can begin a phrase. -/
theorem Spells.opens {p : Phrase} {pre : Location} {ts after : List Token} (h : Spells p pre ts after)
    (hp : p.takesToken = true) : nextOpensPhrase ts = true := by
  induction h
  case literal body => exact opensPhrase_of_body body (fun _ h => by cases h)
  case range body => exact opensPhrase_of_body body (fun _ h => by cases h)
  case tagged body _ _ _ _ => exact opensPhrase_of_body body (fun _ h => by cases h)
  case major body _ _ => exact opensPhrase_of_body body (fun _ h => by cases h)
  case operands ih _ => exact nextOpensPhrase_append (ih rfl)
  case type ih _ => exact nextOpensPhrase_append (ih rfl)
  case inlineEntry occurrence opening _ _ _ _ => exact occurrence.opens (opensPhrase_of_is opening (by decide))
  case enclosedEntry occurrence opening _ _ _ _ _ _ => exact occurrence.opens (opensPhrase_of_is opening (by decide))
  case colonEntry occurrence _ _ _ _ _ ih _ => exact occurrence.opens (nextOpensPhrase_append (ih rfl))
  case arrowEntry occurrence _ _ _ _ ih _ => exact occurrence.opens (nextOpensPhrase_append (ih rfl))
  case namedEntry occurrence _ _ _ ih => exact occurrence.opens (ih rfl)
  case keylessEntry occurrence _ _ _ _ _ ih _ => exact occurrence.opens (nextOpensPhrase_append (ih rfl))
  case typename is _ _ => exact opensPhrase_of_is is (by decide)
  case parenthesized is _ _ _ => exact opensPhrase_of_is is (by decide)
  case map is _ _ _ => exact opensPhrase_of_is is (by decide)
  case array is _ _ _ => exact opensPhrase_of_is is (by decide)
  case unwrap is _ _ _ => exact opensPhrase_of_is is (by decide)
  case choiceFromInlineGroup is _ _ _ _ => exact opensPhrase_of_is is (by decide)
  case choiceFromGroup is _ _ _ => exact opensPhrase_of_is is (by decide)
  case any is => exact opensPhrase_of_is is (by decide)
  all_goals cases hp

/-- No phrase begins with a mark that stands behind or between phrases. -/
theorem Spells.not_next {p : Phrase} {pre : Location} {ts after : List Token} (h : Spells p pre ts after)
    (hp : p.takesToken = true) {m : Mark} (hm : opensPhrase ⟨.mark m, [], .start⟩ = false) : nextIs m ts = false := by
  have opens := h.opens hp
  cases ts with
  | nil => cases opens
  | cons t ts =>
    refine Bool.eq_false_iff.2 fun is => ?_
    have opens : opensPhrase t = true := opens
    unfold opensPhrase at opens hm
    rw [Token.is_iff.1 is] at opens
    rw [opens] at hm
    cases hm

theorem Spells.not_endsChoice {p : Phrase} {pre : Location} {ts after : List Token} (h : Spells p pre ts after)
    (hp : p.takesToken = true) : nextEndsChoice ts = false := by
  have paren := h.not_next hp (m := .rightParen) (by decide)
  have brace := h.not_next hp (m := .rightBrace) (by decide)
  have bracket := h.not_next hp (m := .rightBracket) (by decide)
  have choice := h.not_next hp (m := .groupChoice) (by decide)
  have ended := h.not_next hp (m := .endOfInput) (by decide)
  cases ts with
  | nil => rfl
  | cons t ts =>
    simp only [nextIs, nextEndsChoice, Production.endsChoice, List.head?_cons, Option.any_some] at *
    rw [paren, brace, bracket, choice, ended]
    rfl

/-- A type knows the stretch that its tokens take. -/
theorem Spells.span_type1 {t : Type1} {pre : Location} {ts after : List Token} (h : Spells (.type1 t) pre ts after) :
    t.span = some (.over pre ts after) := by
  cases h <;> rfl

end Cddl
