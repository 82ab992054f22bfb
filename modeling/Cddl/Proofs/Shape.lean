import Cddl.Proofs.Stretch.Document
import Cddl.Proofs.Token.Plain
/-!
# The shape of a tree that was read

More trees can be built than can be read.  What a reader of trees may count on is told node by node (`Node.Shaped`):
where something is listed there is at least one, numbers and byte strings keep to what can be spelled, and no
parenthesis opens a rule's body, an entry without a key or a key.  Everything in a document that was read has this shape
(`shaped_of_parse`).
-/
namespace Cddl

open Production

/-! ## What a node looks like -/

def Type2.isParenthesized : Type2 → Bool
  | .parenthesized .. => true
  | _ => false

def Type2.Shaped : Type2 → Prop
  | .literal v _ => v.Readable
  | .tagged number _ _ => ∀ n ∈ number, 0 ≤ n
  | .major kind number _ => 0 ≤ kind ∧ kind ≤ 7 ∧ ∀ n ∈ number, 0 ≤ n
  | _ => True

def Occur.Shaped : Occur → Prop
  | .between lower upper => (lower ≠ none ∨ upper ≠ none) ∧ (∀ n ∈ lower, 0 ≤ n) ∧ ∀ n ∈ upper, 0 ≤ n
  | _ => True

/-- The type that comes first in alternatives. -/
def TypeExpr.opening? (t : TypeExpr) : Option Type2 := t.choices.head?.map fun c => c.type1.operand

/-- The type that a key begins with; a name or literal before a colon is none. -/
def MemberKey.opening? : MemberKey → Option Type2
  | .type1 t _ _ => some t.operand
  | _ => none

/-- The type that an entry begins with, its occurrence aside: that of its key if it has one. -/
def KeyedEntry.opening? (e : KeyedEntry) : Option Type2 :=
  match e.key with
  | some key => key.opening?
  | none => e.type.opening?

def GroupEntry.opening? : GroupEntry → Option Type2
  | .keyed e _ => e.opening?
  | _ => none

/-- The type that the body of a rule, an entry or a key begins with. -/
def Node.opening? : Node → Option Type2
  | typeRule r => r.value.opening?
  | groupRule r => r.entry.opening?
  | keyedEntry e => e.opening?
  | memberKey k => k.opening?
  | _ => none

/-- What a node lists, or the numbers and the text that it holds, are such as can be read. -/
def Node.Filled : Node → Prop
  | type t => t.choices ≠ []
  | group g => g.choices ≠ []
  | genericParams p => p.params ≠ []
  | genericArgs a => a.args ≠ []
  | type2 t => t.Shaped
  | occurrence o => o.occur.Shaped
  | memberKey (.literal v _) => v.Readable
  | value v => v.Readable
  | _ => True

structure Node.Shaped (n : Node) : Prop where
  filled : n.Filled
  opening : ∀ t ∈ n.opening?, t.isParenthesized = false

/-! ## Nodes and all that is below them -/

/-- Some nodes and all nodes below them have the shape. -/
def AllShaped (ns : List Node) : Prop := ∀ n ∈ Node.throughout ns, n.Shaped

variable {n : Node} {ns ms : List Node}

namespace AllShaped

theorem none : AllShaped [] := fun _ h => absurd h List.not_mem_nil

theorem append (first : AllShaped ns) (second : AllShaped ms) : AllShaped (ns ++ ms) := by
  intro n hn
  rw [Node.throughout_append] at hn
  exact (List.mem_append.1 hn).elim (first n) (second n)

theorem one (node : n.Shaped) (below : AllShaped n.children) : AllShaped [n] := by
  intro m hm
  rw [Node.throughout_cons, show Node.throughout [] = [] from rfl, List.append_nil] at hm
  rcases List.mem_cons.1 hm with rfl | hm
  · exact node
  · exact below m hm

/-- A node that begins with no type of its own, and what is below it. -/
theorem node (filled : n.Filled) (none : n.opening? = .none) (below : AllShaped n.children) : AllShaped [n] :=
  one ⟨filled, fun t ht => by rw [none] at ht; cases ht⟩ below

theorem inv (h : AllShaped [n]) : n.Shaped ∧ AllShaped n.children := by
  unfold AllShaped at h
  rw [Node.throughout_cons] at h
  exact ⟨h n List.mem_cons_self, fun m hm => h m (List.mem_cons_of_mem _ (List.mem_append_left _ hm))⟩

/-! ## Parts of nodes -/

theorem identifier (i : Identifier) : AllShaped [.identifier i] := node trivial rfl none

theorem name {a : Option GenericArgs} (i : Identifier) (args : AllShaped (Node.ofArgs a)) :
    AllShaped (Node.ofName i a) := append (identifier i) args

theorem literal {v : Literal} {s : Option Span} (h : v.Readable) : AllShaped [.type2 (.literal v s)] :=
  node h rfl (node h rfl none)

theorem type1 {x : Type2} {o : Option Operator} {s : Option Span} (operand : AllShaped [.type2 x])
    (operator : AllShaped (o.toList.map .operator)) : AllShaped [.type1 ⟨x, o, s⟩] :=
  node trivial rfl (append operand operator)

theorem typeChoice {t : Type1} (h : AllShaped [.type1 t]) : AllShaped [.typeChoice (Production.typeChoice t)] :=
  node trivial rfl h

theorem genericArg {t : Type1} {s : Option Span} (h : AllShaped [.type1 t]) : AllShaped [.genericArg ⟨t, s⟩] :=
  node trivial rfl h

/-- A type that is made of its first alternative and the others. -/
theorem type {t : Type1} {cs : List TypeChoice} {s : Option Span} (first : AllShaped [.type1 t])
    (more : AllShaped (cs.map .typeChoice)) : AllShaped [.type ⟨Production.typeChoice t :: cs, s⟩] :=
  node (List.cons_ne_nil _ _) rfl (append first.typeChoice more)

theorem arrowKey {t : Type1} {cut : Bool} {s : Option Span} (h : AllShaped [.type1 t])
    (opening : t.operand.isParenthesized = false) : AllShaped [.memberKey (.type1 t cut s)] := by
  refine one ⟨trivial, fun u hu => ?_⟩ h
  cases hu
  exact opening

theorem colonKey {t : Type1} {key : MemberKey} (h : AllShaped [.type1 t])
    (made : Production.colonKey? t = some key) : AllShaped [.memberKey key] := by
  obtain ⟨operand, operator, span⟩ := t
  obtain ⟨-, below⟩ := h.inv
  unfold Production.colonKey? at made
  split at made
  case h_1 ident s hop harg =>
    cases hop
    cases harg
    cases made
    exact node trivial rfl (identifier ident)
  case h_2 v s hop harg =>
    cases hop
    cases harg
    cases made
    obtain ⟨readable, value⟩ := AllShaped.inv below
    exact node readable.filled rfl value
  case h_3 => cases made

/-- What stands in parentheses as a key is a group, or the type that its only entry is. -/
theorem enclosed {g : Group} {s : Option Span} (h : AllShaped [.group g]) :
    AllShaped [.memberKey (.enclosed (Production.enclosedKey g) s)] := by
  refine node trivial rfl ?_
  obtain ⟨-, choices⟩ := h.inv
  obtain ⟨choices, gspan⟩ := g
  unfold Production.enclosedKey
  split
  case h_1 type _ _ _ hg =>
    cases hg
    obtain ⟨-, entries⟩ := AllShaped.inv choices
    obtain ⟨-, entry⟩ := AllShaped.inv entries
    obtain ⟨-, type⟩ := AllShaped.inv entry
    exact node trivial rfl type
  case h_2 ident args span _ _ _ hg =>
    cases hg
    obtain ⟨-, entries⟩ := AllShaped.inv choices
    obtain ⟨-, entry⟩ := AllShaped.inv entries
    obtain ⟨-, name⟩ := AllShaped.inv entry
    have operand : AllShaped [.type2 (.typename ident args span)] := node trivial rfl name
    have only : AllShaped [.type (typeOfName ident args span)] := type (type1 operand none) none
    exact node trivial rfl only
  case h_3 => exact node trivial rfl h

/-- An entry of a type, which the entry may have before it a key. -/
theorem keyedEntry {oc : Option Occurrence} {key : Option MemberKey} {ty : TypeExpr} {s s' : Option Span}
    (occurrence : AllShaped (Node.ofOccurrence oc)) (keyed : AllShaped (key.toList.map .memberKey))
    (type : AllShaped [.type ty])
    (opening : ∀ t, KeyedEntry.opening? ⟨oc, key, ty, s⟩ = some t → t.isParenthesized = false) :
    AllShaped [.groupEntry (.keyed ⟨oc, key, ty, s⟩ s')] :=
  node trivial rfl (one ⟨trivial, opening⟩ (append (append occurrence keyed) type))

end AllShaped

/-! ## Tokens -/

variable {pre : Location} {ts us after : List Token}

/-- The literals of some tokens are such as can be read. -/
def AllReadable (ts : List Token) : Prop := ∀ t ∈ ts, ∀ v ∈ t.literals, v.Readable

@[simp] theorem allReadable_cons {t : Token} :
    AllReadable (t :: ts) ↔ (∀ v ∈ t.literals, v.Readable) ∧ AllReadable ts := List.forall_mem_cons

@[simp] theorem allReadable_append : AllReadable (ts ++ us) ↔ AllReadable ts ∧ AllReadable us :=
  List.forall_mem_append

theorem readable_of_value {t : Token} {v : Literal} (readable : ∀ v ∈ t.literals, v.Readable)
    (body : t.body = .value v) : v.Readable := by
  refine readable v ?_
  rw [Token.literals, body]
  exact List.mem_singleton_self v

theorem readable_of_range {t : Token} {lower upper : Literal} {inclusive : Bool}
    (readable : ∀ v ∈ t.literals, v.Readable) (body : t.body = .range lower upper inclusive) :
    lower.Readable ∧ upper.Readable := by
  unfold Token.literals at readable
  rw [body] at readable
  exact ⟨readable lower (by simp), readable upper (by simp)⟩

theorem SpellsOccurrence.shaped {oc : Option Occurrence} (h : SpellsOccurrence oc ts after)
    (readable : AllReadable ts) : AllShaped (Node.ofOccurrence oc) := by
  have place {o : Occurrence} (filled : o.occur.Shaped) : AllShaped (Node.ofOccurrence (some o)) :=
    .node filled rfl .none
  have bound {t : Token} {n : Int} (ht : t ∈ ts) (body : t.body = .value (.uint n)) : 0 ≤ n :=
    readable_of_value (readable t ht) body
  cases h with
  | none => exact .none
  | optional | oneOrMore | zeroOrMore => exact place trivial
  | upTo _ upper =>
    have upper := bound (by simp) (body_of_uintAt? upper).1
    exact place ⟨.inr (by simp), by simp, by simpa using upper⟩
  | atLeast lower =>
    have lower := bound (by simp) lower
    exact place ⟨.inl (by simp), by simpa using lower, by simp⟩
  | fromTo lower _ upper =>
    have lower := bound (by simp) lower
    have upper := bound (by simp) (body_of_uintAt? upper).1
    exact place ⟨.inl (by simp), by simpa using lower, by simpa using upper⟩

/-! ## What a phrase begins with -/

theorem nextIs_of_isParenthesized {t : Type2} (h : Spells (.type2 t) pre ts after) (paren : t.isParenthesized = true) :
    nextIs .leftParen ts = true := by
  cases h with
  | parenthesized opening => exact opening
  | _ => cases paren

/-- A type that no parenthesis opens. -/
theorem isParenthesized_of_start {t : Type1} (h : Spells (.type1 t) pre ts after)
    (start : nextIs .leftParen ts = false) : t.operand.isParenthesized = false := by
  cases h with
  | range => rfl
  | @operands _ x _ ts us after operand =>
    refine Bool.eq_false_iff.2 fun paren => ?_
    have first := nextIs_of_isParenthesized operand paren
    obtain ⟨t, more, rfl⟩ := List.exists_cons_of_ne_nil (operand.ne_nil rfl)
    rw [List.cons_append] at start
    exact absurd first (Bool.eq_false_iff.1 start)

theorem isParenthesized_of_type {ty : TypeExpr} {t : Type2} (h : Spells (.type ty) pre ts after)
    (start : nextIs .leftParen ts = false) (first : ty.opening? = some t) : t.isParenthesized = false := by
  cases h with
  | type operand =>
    cases first
    obtain ⟨t, more, rfl⟩ := List.exists_cons_of_ne_nil (operand.ne_nil rfl)
    exact isParenthesized_of_start operand start

/-- A key before a colon is a name or a literal. -/
theorem opening?_colonKey {t : Type1} {key : MemberKey} (made : Production.colonKey? t = some key) :
    key.opening? = none := by
  unfold Production.colonKey? at made
  split at made <;> cases made <;> rfl

/-- An entry that a parenthesis opens is not read as a type. -/
theorem isParenthesized_of_entry {e : GroupEntry} {t : Type2} (h : Spells (.entry e) pre ts after)
    (first : e.opening? = some t) : t.isParenthesized = false := by
  cases h with
  | colonEntry _ _ _ _ made =>
    rw [show GroupEntry.opening? _ = MemberKey.opening? _ from rfl, opening?_colonKey made] at first
    cases first
  | arrowEntry _ type1 start =>
    cases first
    exact isParenthesized_of_start type1 start
  | keylessEntry _ type1 start =>
    cases first
    exact isParenthesized_of_start type1 start
  | inlineEntry | enclosedEntry | namedEntry => cases first

/-! ## All phrases -/

/-- **The nodes of a phrase have the shape**, if the literals of its tokens can be read. -/
theorem shaped_of_spells {p : Phrase} (h : Spells p pre ts after) (readable : AllReadable ts) : AllShaped p.nodes := by
  induction h with try simp only [allReadable_cons, allReadable_append] at readable
  | literal body => exact .literal (readable_of_value readable.1 body)
  | typename _ _ ih => exact .node trivial rfl (.name _ (ih readable.2))
  | parenthesized _ _ _ ih => exact .node trivial rfl (ih readable.2.1)
  | map _ _ _ ih => exact .node trivial rfl (ih readable.2.1)
  | array _ _ _ ih => exact .node trivial rfl (ih readable.2.1)
  | unwrap _ _ _ ih => exact .node trivial rfl (.name _ (ih readable.2.2))
  | choiceFromInlineGroup _ _ _ _ ih => exact .node trivial rfl (ih readable.2.2.1)
  | choiceFromGroup _ _ _ ih => exact .node trivial rfl (.name _ (ih readable.2.2))
  | tagged _ _ _ _ ih =>
    refine .node ?_ rfl (ih readable.2.2.1)
    simp [Node.Filled, Type2.Shaped]
  | major _ bound =>
    refine .node ⟨Int.natCast_nonneg _, by omega, ?_⟩ rfl .none
    simp
  | any => exact .node trivial rfl .none
  | noOperator => exact .none
  | someOperator _ _ ih => exact .node trivial rfl (ih readable.2)
  | range body =>
    obtain ⟨lower, upper⟩ := readable_of_range readable.1 body
    exact .type1 (.literal lower) (.node trivial rfl (.literal upper))
  | operands _ _ ih ih' => exact .type1 (ih readable.1) (ih' readable.2)
  | noChoices => exact .none
  | moreChoices _ _ _ ih ih' => exact .append (ih readable.2.1).typeChoice (ih' readable.2.2)
  | type _ _ ih ih' => exact .type (ih readable.1) (ih' readable.2)
  | noArgs => exact .none
  | someArgs _ _ _ _ ih ih' =>
    exact .node (List.cons_ne_nil _ _) rfl (.append (ih readable.2.1.1).genericArg (ih' readable.2.1.2))
  | noMoreArgs => exact .none
  | moreArgs _ _ _ ih ih' => exact .append (ih readable.2.1).genericArg (ih' readable.2.2)
  | inlineEntry occurrence _ _ _ _ ih =>
    exact .node trivial rfl (.append (occurrence.shaped readable.1) (ih readable.2.2.1))
  | enclosedEntry occurrence _ _ _ _ _ ih ih' =>
    obtain ⟨ahead, -, inside, -, -, behind⟩ := readable
    exact .keyedEntry (occurrence.shaped ahead) (ih inside).enclosed (ih' behind) fun _ first => nomatch first
  | colonEntry occurrence _ _ _ made _ ih ih' =>
    obtain ⟨ahead, key, -, behind⟩ := readable
    refine .keyedEntry (occurrence.shaped ahead) ((ih key).colonKey made) (ih' behind) fun t first => ?_
    rw [show KeyedEntry.opening? _ = MemberKey.opening? _ from rfl, opening?_colonKey made] at first
    cases first
  | arrowEntry occurrence first start _ _ ih ih' =>
    obtain ⟨ahead, key, -, behind⟩ := readable
    have opening := isParenthesized_of_start first start
    exact .keyedEntry (occurrence.shaped ahead) ((ih key).arrowKey opening) (ih' behind) fun t ht => by
      cases ht
      exact opening
  | namedEntry occurrence _ _ _ ih =>
    obtain ⟨-, below⟩ := (ih readable.2).inv
    obtain ⟨-, name⟩ := AllShaped.inv below
    exact .node trivial rfl (.node trivial rfl (.append (occurrence.shaped readable.1) name))
  | keylessEntry occurrence first start _ _ _ ih ih' =>
    obtain ⟨ahead, operand, more⟩ := readable
    refine .keyedEntry (occurrence.shaped ahead) .none (.type (ih operand) (ih' more)) fun t ht => ?_
    cases ht
    exact isParenthesized_of_start first start
  | noEntries => exact .none
  | plainEntry _ _ _ ih ih' => exact .append (ih readable.1) (ih' readable.2)
  | commaEntry _ _ _ ih ih' => exact .append (ih readable.1) (ih' readable.2.2)
  | groupChoice _ ih => exact .node trivial rfl (ih readable)
  | noGroupChoices => exact .none
  | moreGroupChoices _ _ _ ih ih' => exact .append (ih readable.2.1) (ih' readable.2.2)
  | group _ _ ih ih' => exact .node (List.cons_ne_nil _ _) rfl (.append (ih readable.1) (ih' readable.2))

/-! ## Rules and documents -/

theorem AllShaped.genericParam (i : Identifier) {s : Option Span} : AllShaped [.genericParam ⟨i, s⟩] :=
  .node trivial rfl (.identifier i)

theorem SpellsMoreParams.shaped {params : List GenericParam} (h : SpellsMoreParams params ts after) :
    AllShaped (params.map .genericParam) := by
  induction h with
  | nil => exact .none
  | cons _ _ _ ih => exact .append (.genericParam _) ih

theorem SpellsParams.shaped {params : Option GenericParams} (h : SpellsParams params ts after) :
    AllShaped (Node.ofParams params) := by
  cases h with
  | none => exact .none
  | some _ _ more => exact .node (List.cons_ne_nil _ _) rfl (.append (.genericParam _) more.shaped)

theorem SpellsRule.shaped {r : Rule} (h : SpellsRule r ts after) (readable : AllReadable ts) : AllShaped [.rule r] := by
  cases h with
  | type _ params _ start _ type =>
    simp only [allReadable_cons, allReadable_append] at readable
    have value := shaped_of_spells type readable.2.2.2
    exact .node trivial rfl (.one ⟨trivial, fun _ first => isParenthesized_of_type type start first⟩
      (.append (.identifier _) (.append params.shaped value)))
  | group _ params _ _ _ entry =>
    simp only [allReadable_cons, allReadable_append] at readable
    have body := shaped_of_spells entry readable.2.2.2
    exact .node trivial rfl (.one ⟨trivial, fun _ first => isParenthesized_of_entry entry first⟩
      (.append (.identifier _) (.append params.shaped body)))

theorem SpellsRules.shaped {rs : List Rule} (h : SpellsRules rs ts after) (readable : AllReadable ts) :
    AllShaped (rs.map .rule) := by
  induction h with
  | nil => exact .none
  | cons first _ ih =>
    rw [allReadable_append] at readable
    exact .append (first.shaped readable.1) (ih readable.2)

/-- **Every node of a document that was read has the shape.** -/
theorem shaped_of_parse {source : Text} {d : Document} (h : parse source = .ok d) :
    ∀ n above, (n, above) ∈ d.places → n.Shaped := by
  obtain ⟨w, v, ts, hw, walk, _, _, rules⟩ := parseFeed_ok (Feed.ends_ofCursor _) (parse_eq_ok_iff.1 h)
  have spelled := rules [v.current, v.upcoming] (List.cons_ne_nil _ _) v.shows_pair
  have laid := laid_of_shows hw (walk.shows v.shows_pair)
  have readable : AllReadable ts := fun t ht => readable_of_read (laid.2 t (List.mem_append_left _ ht))
  intro n above place
  rcases Document.mem_throughout place with rfl | mem
  · exact ⟨trivial, fun t first => nomatch first⟩
  · exact spelled.shaped readable n mem

/-- A parameter and an argument, numbers of all kinds, and a parenthesis that may open a key but no type. -/
theorem shaped_of_parse_sample :
    ∃ d, parse "a<b> = [1*2 b<-3>, (int) => h'0F' // #1.4 ^ => ~b]" = .ok d ∧
      ∀ n above, (n, above) ∈ d.places → n.Shaped := by
  have read : ∃ d, parse "a<b> = [1*2 b<-3>, (int) => h'0F' // #1.4 ^ => ~b]" = .ok d :=
    exists_parse_of_within (n := 28) (by decide +kernel)
  obtain ⟨d, h⟩ := read
  exact ⟨d, h, shaped_of_parse h⟩

end Cddl
