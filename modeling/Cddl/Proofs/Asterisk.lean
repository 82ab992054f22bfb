import Cddl.Proofs.Ancestry.Document
import Cddl.Proofs.Gather
import Cddl.Proofs.Joined
import Cddl.Proofs.Loosened
import Cddl.Proofs.Shape
/-!
# Numbers beside an asterisk

A number behind an asterisk is its upper bound where it begins right there, and otherwise the entry begins with it that
the asterisk is the occurrence of.  The number that such an entry begins with before its asterisk is the lower bound,
however far apart the two stand (`lower_over_blank`), and any other number before an asterisk stands in a type
(`asterisks_of_parse`).
-/
namespace Cddl

open Node Production

variable {ns ms : List Node} {n c : Node} {t u o : Token} {ts us os as after : List Token} {m m' : Mark}
  {before : Option Token} {e : GroupEntry} {oc : Option Occurrence} {pre : Location} {k : Int}

/-! ## Asterisks -/

/-- An asterisk, the token before it and the tokens behind it. -/
structure Asterisk where
  before : Option Token
  token : Token
  behind : List Token

/-- The asterisks among some tokens with a token before them and others behind. -/
def asterisks (before : Option Token) (after : List Token) : List Token → List Asterisk
  | [] => []
  | t :: ts => (if t.is .asterisk then [⟨before, t, ts ++ after⟩] else []) ++ asterisks (some t) after ts

theorem asterisks_cons (h : t.is .asterisk = true) :
    asterisks before after (t :: ts) = ⟨before, t, ts ++ after⟩ :: asterisks (some t) after ts := by
  rw [asterisks, if_pos h, List.singleton_append]

theorem asterisks_skip (h : t.is .asterisk = false) :
    asterisks before after (t :: ts) = asterisks (some t) after ts := by
  rw [asterisks, h, if_neg Bool.false_ne_true, List.nil_append]

theorem asterisks_append : ∀ (ts : List Token) (before : Option Token), asterisks before after (ts ++ us) =
    asterisks before (us ++ after) ts ++ asterisks (ts.getLast?.or before) after us
  | [], before => rfl
  | t :: ts, before => by
    have last : (t :: ts).getLast?.or before = ts.getLast?.or (some t) := by
      rw [List.getLast?_cons]
      cases ts.getLast? <;> rfl
    rw [List.cons_append, asterisks, asterisks, asterisks_append ts, last, List.append_assoc, List.append_assoc]

/-! ## Entries -/

def Occur.lower : Occur → Option Int
  | .between lower _ => lower
  | _ => none

def Occur.upper : Occur → Option Int
  | .between _ upper => upper
  | _ => none

/-- Whether an occurrence is written with an asterisk. -/
def Occur.starred : Occur → Bool
  | .zeroOrMore | .between _ _ => true
  | _ => false

namespace GroupEntry

def occurrence : GroupEntry → Option Occurrence
  | keyed e _ => e.occurrence
  | named e _ => e.occurrence
  | inline oc _ _ => oc

def starred (e : GroupEntry) : Bool := e.occurrence.any fun o => o.occur.starred

def lower (e : GroupEntry) : Option Int := e.occurrence.bind fun o => o.occur.lower

def upper (e : GroupEntry) : Option Int := e.occurrence.bind fun o => o.occur.upper

end GroupEntry

def Type2.value? : Type2 → Option (Literal × Option Span)
  | .literal v s => some (v, s)
  | _ => none

/-- The literal that the key of an entry begins with, or its type if it has no key. -/
def GroupEntry.first? : GroupEntry → Option (Literal × Option Span)
  | .keyed ⟨_, some (.literal v s), _, _⟩ _ => some (v, s)
  | e => e.opening?.bind Type2.value?

/-- An entry whose occurrence is written with an asterisk. -/
def Node.starred : Node → List GroupEntry
  | groupEntry e => if e.starred then [e] else []
  | _ => []

/-- A literal that is a type or a key, and where it stands. -/
def Node.ownValues : Node → List (Literal × Option Span)
  | type2 (.literal v s) => [(v, s)]
  | memberKey (.literal v s) => [(v, s)]
  | _ => []

theorem Node.overlooks_starred : Overlooks Node.starred where
  holder n h := by cases n <;> first | rfl | cases h
  name _ _ _ := rfl
  bareword _ _ := rfl
  literal _ _ := rfl
  enclosed _ _ := rfl
  entry e ty h := by
    unfold GroupEntry.type? at h
    split at h <;> first | rfl | cases h

theorem Node.overlooks_ownValues : Overlooks ownValues where
  holder n h := by cases n <;> first | rfl | cases h
  name _ _ _ := rfl
  bareword _ _ := rfl
  literal _ _ := rfl
  enclosed _ _ := rfl
  entry _ _ _ := rfl

/-- The entries of a document that are written with an asterisk, in the order of a visit. -/
def Document.starred (d : Document) : List GroupEntry := (Node.document d).gather Node.starred

/-- The literals of a document that are types or keys, and where they stand. -/
def Document.values (d : Document) : List (Literal × Option Span) := (Node.document d).gather ownValues

/-- Whether a number is one of some values. -/
def Token.ValueIn (t : Token) (values : List (Literal × Option Span)) : Prop :=
  ∀ n, t.body = .value (.uint n) → (.uint n, some t.span) ∈ values

/-- What the numbers beside an asterisk are for the entry that is written with it. -/
structure GroupEntry.CountedBy (values : List (Literal × Option Span)) (e : GroupEntry) (a : Asterisk) : Prop where
  /-- The upper bound is the number that begins right where the asterisk ends. -/
  upper : e.upper = joinedTo a.token.stop a.behind
  /-- Any other number right behind the asterisk is the first thing in the entry. -/
  first : ∀ t n, a.behind.head? = some t → t.body = .value (.uint n) → e.upper = none →
    e.first? = some (.uint n, some t.span)
  /-- The lower bound is the number before the asterisk. -/
  lower : ∀ n, e.lower = some n → ∃ t, a.before = some t ∧ t.body = .value (.uint n)
  /-- Any other number before the asterisk is a type or a key. -/
  other : e.lower = none → ∀ t, a.before = some t → t.ValueIn values

theorem Token.ValueIn.mono {values values' : List (Literal × Option Span)} (h : t.ValueIn values)
    (more : ∀ x ∈ values, x ∈ values') : t.ValueIn values' := fun n body => more _ (h n body)

theorem Token.valueIn_of_is {values : List (Literal × Option Span)} (h : t.is m = true) : t.ValueIn values := by
  intro n body
  rw [Token.is_iff.1 h] at body
  cases body

/-- An entry is written with an asterisk if its occurrence is, and has the bounds that stand beside it. -/
theorem countedBy_of_occurrence {values : List (Literal × Option Span)}
    (h : SpellsOccurrence e.occurrence os (t :: after))
    (first : ∀ n, t.body = .value (.uint n) → e.first? = some (.uint n, some t.span))
    (told : ∀ t ∈ before, t.ValueIn values) :
    List.Forall₂ (GroupEntry.CountedBy values) (if e.starred then [e] else []) (asterisks before (t :: after) os) := by
  have lower : e.lower = e.occurrence.bind fun o => o.occur.lower := rfl
  have upper : e.upper = e.occurrence.bind fun o => o.occur.upper := rfl
  have apart {u : Token} (free : beginsJoined u.stop (t :: after) = false) : joinedTo u.stop (t :: after) = none := by
    rw [beginsJoined_eq] at free
    exact Option.not_isSome_iff_eq_none.1 (by rw [free]; exact Bool.false_ne_true)
  have begun (u : Token) (n : Int) (hu : (t :: after).head? = some u) (number : u.body = .value (.uint n)) :
      e.first? = some (.uint n, some u.span) := by
    obtain rfl : t = u := Option.some.inj hu
    exact first n number
  have number {u : Token} {n : Int} (h : u.body = .value (.uint n)) : u.is .asterisk = false :=
    Token.not_is_of_value h
  rw [GroupEntry.starred]
  generalize e.occurrence = oc at h lower upper
  cases h with
  | none => exact .nil
  | optional mark =>
    rw [asterisks_skip (Token.not_is mark (by decide))]
    exact .nil
  | oneOrMore mark =>
    rw [asterisks_skip (Token.not_is mark (by decide))]
    exact .nil
  | zeroOrMore mark free =>
    rw [asterisks_cons mark]
    refine .cons ⟨upper.trans (apart free).symm, fun u n hu number _ => begun u n hu number, fun n hn => ?_,
      fun _ => told⟩ .nil
    rw [lower] at hn
    cases hn
  | upTo mark joined =>
    rw [asterisks_cons mark, asterisks_skip (number (body_of_uintAt? joined).1)]
    refine .cons ⟨upper.trans joined.symm, fun _ _ _ _ none => ?_, fun n hn => ?_, fun _ => told⟩ .nil
    · rw [upper] at none
      cases none
    · rw [lower] at hn
      cases hn
  | @atLeast l _ _ _ bound mark free =>
    rw [asterisks_skip (number bound), asterisks_cons mark]
    refine .cons ⟨upper.trans (apart free).symm, fun u n hu number _ => begun u n hu number, fun n hn => ?_,
      fun none => ?_⟩ .nil
    · rw [lower] at hn
      cases hn
      exact ⟨l, rfl, bound⟩
    · rw [lower] at none
      cases none
  | @fromTo l _ _ _ _ _ bound mark joined =>
    rw [asterisks_skip (number bound), asterisks_cons mark, asterisks_skip (number (body_of_uintAt? joined).1)]
    refine .cons ⟨upper.trans joined.symm, fun _ _ _ _ none => ?_, fun n hn => ?_, fun none => ?_⟩ .nil
    · rw [upper] at none
      cases none
    · rw [lower] at hn
      cases hn
      exact ⟨l, rfl, bound⟩
    · rw [lower] at none
      cases none

/-! ## Nodes and the tokens that they come from -/

/-- Nodes side by side have the entries that are written with the asterisks among some tokens, and a number that comes
last among the tokens is one of their values. -/
structure Tallied (ns : List Node) (ts after : List Token) : Prop where
  entries : ∀ values before, (∀ x ∈ ns.flatMap (gather ownValues), x ∈ values) → (∀ t ∈ before, t.ValueIn values) →
    List.Forall₂ (GroupEntry.CountedBy values) (ns.flatMap (gather Node.starred)) (asterisks before after ts)
  last : ∀ t ∈ ts.getLast?, t.ValueIn (ns.flatMap (gather ownValues))

namespace Tallied

theorem nil : Tallied [] [] after := ⟨fun _ _ _ _ => .nil, fun _ h => by cases h⟩

theorem append (h : Tallied ns ts (us ++ after)) (h' : Tallied ms us after) : Tallied (ns ++ ms) (ts ++ us) after where
  entries values before all told := by
    rw [List.flatMap_append] at all ⊢
    have front : ∀ x ∈ ns.flatMap (gather ownValues), x ∈ values := fun x hx => all x (List.mem_append_left _ hx)
    have back : ∀ x ∈ ms.flatMap (gather ownValues), x ∈ values := fun x hx => all x (List.mem_append_right _ hx)
    rw [asterisks_append]
    refine List.rel_append (h.entries values before front told) (h'.entries values _ back fun t ht => ?_)
    rcases Option.or_eq_some_iff.1 ht with last | ⟨_, told'⟩
    · exact (h.last t last).mono front
    · exact told t told'
  last t ht := by
    rw [List.flatMap_append]
    rw [List.getLast?_append] at ht
    rcases Option.or_eq_some_iff.1 ht with last | ⟨_, last⟩
    · exact (h'.last t last).mono fun x hx => List.mem_append_right _ hx
    · exact (h.last t last).mono fun x hx => List.mem_append_left _ hx

/-- A token that is no asterisk, and a number only if it is a value. -/
theorem skip (mark : t.is .asterisk = false) (value : t.ValueIn (ns.flatMap (gather ownValues)))
    (h : Tallied ns ts after) : Tallied ns (t :: ts) after where
  entries values before all told := by
    rw [asterisks_skip mark]
    refine h.entries values _ all fun u hu => ?_
    obtain rfl := Option.some.inj hu
    exact value.mono all
  last u hu := by
    rw [List.getLast?_cons] at hu
    obtain rfl := Option.some.inj hu
    cases hl : ts.getLast? with
    | none => exact value
    | some v => exact h.last v hl

theorem mark (is : t.is m = true) (hm : m ≠ .asterisk) (h : Tallied ns ts after) : Tallied ns (t :: ts) after :=
  h.skip (Token.not_is is hm) (Token.valueIn_of_is is)

theorem enclosed (ho : o.is m = true) (hm : m ≠ .asterisk) (h : Tallied ns ts (u :: after)) (hc : u.is m' = true)
    (hm' : m' ≠ .asterisk) : Tallied ns (o :: (ts ++ [u])) after := by
  have last : Tallied [] [u] after := .mark hc hm' .nil
  have inside : Tallied (ns ++ []) (ts ++ [u]) after := .append h last
  rw [List.append_nil] at inside
  exact .mark ho hm inside

/-- Other nodes with the same entries and the same values. -/
theorem replace (starred : ms.flatMap (gather Node.starred) = ns.flatMap (gather Node.starred))
    (values : ms.flatMap (gather ownValues) = ns.flatMap (gather ownValues)) (h : Tallied ns ts after) :
    Tallied ms ts after where
  entries := by
    rw [starred, values]
    exact h.entries
  last := by
    rw [values]
    exact h.last

theorem replace_node {n' : Node} (same : ∀ {α : Type} {f : Node → List α}, Overlooks f → n'.gather f = n.gather f)
    (h : Tallied [n] ts after) : Tallied [n'] ts after := by
  refine h.replace ?_ ?_
  · rw [List.flatMap_singleton, List.flatMap_singleton, same overlooks_starred]
  · rw [List.flatMap_singleton, List.flatMap_singleton, same overlooks_ownValues]

/-- A node around others. -/
theorem inner (own : Node.starred n = []) (h : Tallied n.children ts after) : Tallied [n] ts after := by
  have values : ∀ x ∈ n.children.flatMap (gather ownValues), x ∈ [n].flatMap (gather ownValues) := by
    intro x hx
    rw [List.flatMap_singleton, gather_eq]
    exact List.mem_append_right _ hx
  refine ⟨fun all before sub told => ?_, fun t ht => (h.last t ht).mono values⟩
  rw [List.flatMap_singleton, gather_of_inner own]
  exact h.entries all before (fun x hx => sub x (values x hx)) told

theorem literal {v : Literal} (body : t.body = .value v) : Tallied [.type2 (.literal v (some t.span))] [t] after where
  entries values before all told := by
    have none : asterisks before after [t] = [] := asterisks_skip (Token.not_is_of_value body)
    rw [none, List.flatMap_singleton, gather_of_child rfl rfl, gather_of_inner rfl]
    exact .nil
  last u hu n number := by
    obtain rfl : t = u := Option.some.inj hu
    rw [body] at number
    cases number
    rw [List.flatMap_singleton, gather_eq]
    exact List.mem_append_left _ List.mem_cons_self

/-- An entry with its occurrence in front. -/
theorem entry {all : List Token} (occurrence : SpellsOccurrence oc os all) (hoc : e.occurrence = oc)
    (behind : t :: ts ++ after = all) (plain : t.is .asterisk = false)
    (first : ∀ n, t.body = .value (.uint n) → e.first? = some (.uint n, some t.span))
    (body : Tallied e.body (t :: ts) after) : Tallied [.groupEntry e] (os ++ t :: ts) after := by
  have values : [Node.groupEntry e].flatMap (gather ownValues) = e.body.flatMap (gather ownValues) := by
    rw [List.flatMap_singleton, gather_groupEntry overlooks_ownValues (fun _ => rfl)]
    rfl
  have entries : [Node.groupEntry e].flatMap (gather Node.starred) =
      (if e.starred then [e] else []) ++ e.body.flatMap (gather Node.starred) := by
    rw [List.flatMap_singleton, gather_groupEntry overlooks_starred (fun _ => rfl)]
    rfl
  subst hoc behind
  refine ⟨fun all before sub told => ?_, fun u hu => ?_⟩
  · rw [values] at sub
    rw [entries, asterisks_append]
    refine List.rel_append (countedBy_of_occurrence occurrence first told) ?_
    -- the body does not begin with an asterisk, so it does not matter what stands before it
    have rest := body.entries all none sub (fun _ h => by cases h)
    rwa [asterisks_skip plain] at rest ⊢
  · rw [values]
    rw [List.getLast?_append_of_ne_nil _ (List.cons_ne_nil t ts)] at hu
    exact body.last u hu

theorem name {ident : Identifier} (is : t.is .name = true) (h : Tallied ns ts after) :
    Tallied (.identifier ident :: ns) (t :: ts) after := by
  have none {α : Type} {f : Node → List α} (own : f (.identifier ident) = []) :
      (Node.identifier ident :: ns).flatMap (gather f) = ns.flatMap (gather f) := by
    rw [List.flatMap_cons, gather_of_inner own]
    rfl
  exact .replace (none rfl) (none rfl) (.mark is (by decide) h)

theorem range {lower upper : Literal} {inclusive : Bool} {stop : Location}
    (body : t.body = .range lower upper inclusive) :
    Tallied [.type1 (rangeType1 t lower upper inclusive stop)] [t] after := by
  have none (v : Literal) (s : Option Span) : (Node.type2 (.literal v s)).gather Node.starred = [] := by
    rw [gather_of_child rfl rfl, gather_of_inner rfl]
    rfl
  have operator (o : Operator) : (Node.operator o).gather Node.starred = (Node.type2 o.operand).gather Node.starred :=
    gather_of_child rfl rfl
  have nothing : (Node.type1 (rangeType1 t lower upper inclusive stop)).gather Node.starred = [] := by
    rw [gather_of_inner rfl, rangeType1, Node.children, Option.toList, List.map_singleton, List.flatMap_cons,
      List.flatMap_singleton, operator, none, none]
    rfl
  refine ⟨fun _ _ _ _ => ?_, fun u hu n number => ?_⟩
  · rw [List.flatMap_singleton, nothing, asterisks_skip (Token.not_is_of_range body)]
    exact .nil
  · obtain rfl : t = u := Option.some.inj hu
    rw [body] at number
    cases number

theorem typeChoice {t : Type1} (h : Tallied [.type1 t] ts after) :
    Tallied [.typeChoice (Production.typeChoice t)] ts after := .inner rfl h

theorem genericArg {t : Type1} {s : Option Span} (h : Tallied [.type1 t] ts after) :
    Tallied [.genericArg ⟨t, s⟩] ts after := .inner rfl h

theorem genericParam {s : Option Span} (is : t.is .name = true) :
    Tallied [.genericParam ⟨identifier t, s⟩] [t] after := .inner rfl (.name is .nil)

theorem typeKey {t : Type1} {cut : Bool} {s : Option Span} (h : Tallied [.type1 t] ts after) :
    Tallied [.memberKey (.type1 t cut s)] ts after := .inner rfl h

theorem named {ident : Identifier} {args : Option GenericArgs} {s s' : Option Span}
    (h : Tallied [.type1 ⟨.typename ident args s, none, s'⟩] ts after) : Tallied (Node.ofName ident args) ts after := by
  refine h.replace ?_ ?_
  · rw [List.flatMap_singleton, gather_ofName overlooks_starred]
  · rw [List.flatMap_singleton, gather_ofName overlooks_ownValues]

theorem arrow {cut : Bool} (h : SpellsArrow cut as) : Tallied [] as after := by
  cases h with
  | plain arrow => exact .mark arrow (by decide) .nil
  | cut cut arrow => exact .mark cut (by decide) (.mark arrow (by decide) .nil)

end Tallied

/-! ## What a type begins with -/

/-- The first token of a type is no asterisk, and if it is a literal, the type begins with it. -/
theorem Spells.first_type2 {x : Type2} (h : Spells (.type2 x) pre ts after) : ∃ t rest, ts = t :: rest ∧
    t.is .asterisk = false ∧ ∀ v, t.body = .value v → x = .literal v (some t.span) := by
  have marked {t : Token} {m : Mark} {q : Literal → Prop} (is : t.is m = true)
      (hm : m ≠ .asterisk) : t.is .asterisk = false ∧ ∀ v, t.body = .value v → q v :=
    ⟨Token.not_is is hm, fun v body => by rw [Token.is_iff.1 is] at body; cases body⟩
  have tagged {t : Token} {k : Nat} {n : Option Nat} {q : Literal → Prop} (tag : t.body = .tag k n) :
      t.is .asterisk = false ∧ ∀ v, t.body = .value v → q v :=
    ⟨Token.not_is_of_tag tag, fun v body => by rw [tag] at body; cases body⟩
  cases h with
  | literal body =>
    refine ⟨_, _, rfl, Token.not_is_of_value body, fun v same => ?_⟩
    rw [body] at same
    cases same
    rfl
  | typename is => exact ⟨_, _, rfl, marked is (by decide)⟩
  | parenthesized is => exact ⟨_, _, rfl, marked is (by decide)⟩
  | map is => exact ⟨_, _, rfl, marked is (by decide)⟩
  | array is => exact ⟨_, _, rfl, marked is (by decide)⟩
  | unwrap is => exact ⟨_, _, rfl, marked is (by decide)⟩
  | choiceFromInlineGroup is => exact ⟨_, _, rfl, marked is (by decide)⟩
  | choiceFromGroup is => exact ⟨_, _, rfl, marked is (by decide)⟩
  | tagged body => exact ⟨_, _, rfl, tagged body⟩
  | major body => exact ⟨_, _, rfl, tagged body⟩
  | any is => exact ⟨_, _, rfl, marked is (by decide)⟩

theorem Spells.first_type1 {x : Type1} (h : Spells (.type1 x) pre ts after) : ∃ t rest, ts = t :: rest ∧
    t.is .asterisk = false ∧ ∀ v, t.body = .value v → x.operand = .literal v (some t.span) := by
  cases h with
  | range body =>
    refine ⟨_, _, rfl, Token.not_is_of_range body, fun v same => ?_⟩
    rw [body] at same
    cases same
  | operands operand operator =>
    obtain ⟨t, rest, rfl, first⟩ := operand.first_type2
    exact ⟨t, _, rfl, first⟩

/-- The key that a colon makes of a literal is the literal. -/
theorem colonKey?_literal {x : Type1} {key : MemberKey} {v : Literal} {s : Option Span} (made : colonKey? x = some key)
    (operand : x.operand = .literal v s) : key = .literal v s := by
  unfold colonKey? at made
  rw [operand] at made
  split at made
  · rename_i same
    cases same
  · rename_i same
    cases same
    exact (Option.some.inj made).symm
  · cases made

/-- **The nodes of a phrase have the entries that are written with the asterisks among its tokens.** -/
theorem tallied_of_spells {p : Phrase} (h : Spells p pre ts after) : Tallied p.nodes ts after := by
  have opened {t : Token} {n : Int} {q : Prop} (is : t.is .leftParen = true)
      (number : t.body = .value (.uint n)) : q := by
    rw [Token.is_iff.1 is] at number
    cases number
  have tag {t : Token} {ns : List Node} {ts after : List Token} {k : Nat} {number : Option Nat}
      (body : t.body = .tag k number) (h : Tallied ns ts after) : Tallied ns (t :: ts) after :=
    h.skip (Token.not_is_of_tag body) fun n same => by
      rw [body] at same
      cases same
  induction h
  case literal body => exact .literal body
  case typename name _ ih => exact .inner rfl (.name name ih)
  case parenthesized opening _ closing ih => exact .inner rfl (.enclosed opening (by decide) ih closing (by decide))
  case map opening _ closing ih => exact .inner rfl (.enclosed opening (by decide) ih closing (by decide))
  case array opening _ closing ih => exact .inner rfl (.enclosed opening (by decide) ih closing (by decide))
  case unwrap opening name _ ih => exact .inner rfl (.mark opening (by decide) (.name name ih))
  case choiceFromInlineGroup mark opening _ closing ih =>
    exact .inner rfl (.mark mark (by decide) (.enclosed opening (by decide) ih closing (by decide)))
  case choiceFromGroup mark name _ ih => exact .inner rfl (.mark mark (by decide) (.name name ih))
  case tagged body opening _ closing ih =>
    exact .inner rfl (tag body (.enclosed opening (by decide) ih closing (by decide)))
  case major body _ _ => exact .inner rfl (tag body .nil)
  case any mark => exact .inner rfl (.mark mark (by decide) .nil)
  case noOperator => exact .nil
  case someOperator mark _ ih =>
    rcases is_of_operatorSymbol? mark with is | is
    · exact .inner rfl (.mark is (by decide) ih)
    · exact .inner rfl (.mark is (by decide) ih)
  case range body => exact .range body
  case operands ih ih' => exact .inner rfl (ih.append ih')
  case noChoices => exact .nil
  case moreChoices mark _ _ ih ih' => exact .mark mark (by decide) (ih.typeChoice.append ih')
  case type ih ih' => exact .inner rfl (ih.typeChoice.append ih')
  case noArgs => exact .nil
  case someArgs opening _ _ closing ih ih' =>
    exact .inner rfl (.enclosed opening (by decide) (ih.genericArg.append ih') closing (by decide))
  case noMoreArgs => exact .nil
  case moreArgs mark _ _ ih ih' => exact .mark mark (by decide) (ih.genericArg.append ih')
  case inlineEntry occurrence opening _ closing _ ih =>
    exact .entry occurrence rfl (by simp) (Token.not_is opening (by decide)) (fun _ => opened opening)
      (.enclosed opening (by decide) ih closing (by decide))
  case enclosedEntry oc o c g cut ty os ts as us after occurrence opening _ closing arrow _ ih ih' =>
    have inner : Tallied [.group g] ts (c :: (as ++ us ++ after)) := by
      rw [List.append_assoc]
      exact ih
    have key : Tallied [.memberKey (.enclosed (enclosedKey g) g.span)] (o :: (ts ++ [c])) (as ++ us ++ after) :=
      .replace_node (fun hf => gather_enclosedKey hf g) (.enclosed opening (by decide) inner closing (by decide))
    have split : o :: (ts ++ c :: (as ++ us)) = o :: (ts ++ [c]) ++ (as ++ us) := by simp
    refine .entry occurrence rfl (by simp) (Token.not_is opening (by decide)) (fun _ => opened opening) ?_
    rw [split]
    exact key.append ((Tallied.arrow arrow).append ih')
  case colonEntry occurrence first _ mark made _ ih ih' =>
    obtain ⟨t, rest, rfl, plain, literal⟩ := first.first_type1
    have key : Tallied [.memberKey _] (t :: rest) _ := .replace_node (fun hf => gather_colonKey hf made) ih
    refine .entry occurrence rfl (by simp) plain (fun n number => ?_) (key.append (.mark mark (by decide) ih'))
    obtain rfl := colonKey?_literal made (literal _ number)
    rfl
  case arrowEntry occurrence first _ arrow _ ih ih' =>
    obtain ⟨t, rest, rfl, plain, literal⟩ := first.first_type1
    rw [← List.append_assoc] at ih
    refine .entry occurrence rfl (by simp) plain (fun n number => ?_)
      ((Tallied.typeKey ih).append ((Tallied.arrow arrow).append ih'))
    exact congrArg Type2.value? (literal _ number)
  case namedEntry occurrence first _ _ ih =>
    obtain ⟨t, rest, rfl, plain, literal⟩ := first.first_type1
    refine .entry occurrence rfl rfl plain (fun n number => ?_) (Tallied.named ih)
    cases literal _ number
  case keylessEntry occurrence first _ _ _ _ ih ih' =>
    obtain ⟨t, rest, rfl, plain, literal⟩ := first.first_type1
    refine .entry occurrence rfl (by simp) plain (fun n number => ?_) (.inner rfl (ih.typeChoice.append ih'))
    exact congrArg Type2.value? (literal _ number)
  case noEntries => exact .nil
  case plainEntry ih ih' => exact ih.append ih'
  case commaEntry mark _ ih ih' => exact ih.append (.mark mark (by decide) ih')
  case groupChoice ih => exact .inner rfl ih
  case noGroupChoices => exact .nil
  case moreGroupChoices mark _ _ ih ih' => exact .mark mark (by decide) (ih.append ih')
  case group ih ih' => exact .inner rfl (ih.append ih')

/-! ## Documents -/

theorem SpellsMoreParams.tallied {ps : List GenericParam} (h : SpellsMoreParams ps ts after) :
    Tallied (ps.map .genericParam) ts after := by
  induction h with
  | nil => exact .nil
  | cons mark name _ ih => exact .mark mark (by decide) ((Tallied.genericParam name).append ih)

theorem SpellsParams.tallied {params : Option GenericParams} (h : SpellsParams params ts after) :
    Tallied (ofParams params) ts after := by
  cases h with
  | none => exact .nil
  | some opening name more closing =>
    exact .inner rfl (.enclosed opening (by decide)
      ((Tallied.genericParam name).append more.tallied) closing (by decide))

theorem SpellsRule.tallied {r : Rule} (h : SpellsRule r ts after) : Tallied [.rule r] ts after := by
  have sign {t : Token} {a : Assignment} {ns : List Node} {ts after : List Token} (h : assignment? t = some a)
      (rest : Tallied ns ts after) : Tallied ns (t :: ts) after :=
    .mark (is_mark_of_assignment? h) (by cases a <;> decide) rest
  cases h with
  | type isName params assigned _ _ type =>
    exact .inner rfl (.inner rfl (.name isName (params.tallied.append (sign assigned (tallied_of_spells type)))))
  | group isName params assigned _ _ entry =>
    exact .inner rfl (.inner rfl (.name isName (params.tallied.append (sign assigned (tallied_of_spells entry)))))

theorem SpellsRules.tallied {rs : List Rule} (h : SpellsRules rs ts after) : Tallied (rs.map .rule) ts after := by
  induction h with
  | nil => exact .nil
  | cons first _ ih => exact first.tallied.append ih

/-- **The entries of a document that are written with an asterisk are those of the asterisks in its text, one by one**,
and each has the bounds that its asterisk stands between. -/
theorem asterisks_of_parse {source : Text} {d : Document} (h : parse source = .ok d) : ∃ ts, tokenize source = .ok ts ∧
    List.Forall₂ (GroupEntry.CountedBy d.values) d.starred (asterisks none [] ts) := by
  obtain ⟨ts, l, run, rules⟩ := Cursor.Run.ended_of_parse h
  have limits : (Token.endAt l).limits = true := Token.limits_of_is (k := .endOfInput) rfl (by decide)
  have tallied := (rules.behind (.limit limits limits) : SpellsRules d.rules ts [.endAt l]).tallied
  have values : d.values = (d.rules.map Node.rule).flatMap (gather ownValues) := gather_of_inner rfl
  have starred : d.starred = (d.rules.map Node.rule).flatMap (gather Node.starred) := gather_of_inner rfl
  have last : asterisks none [] (ts ++ [.endAt l]) = asterisks none [.endAt l] ts := by
    rw [asterisks_append, asterisks_skip (t := .endAt l) rfl, asterisks, List.append_nil]
    rfl
  refine ⟨_, run.tokenize_ok, ?_⟩
  rw [values, starred, last]
  exact tallied.entries _ none (fun _ h => h) (fun _ h => by cases h)

/-- Two bounds, and a number that is set apart. -/
theorem asterisks_of_parse_sample : ∃ d ts, parse "a = [2*3 b, * 4]" = .ok d ∧ tokenize "a = [2*3 b, * 4]" = .ok ts ∧
    List.Forall₂ (GroupEntry.CountedBy d.values) d.starred (asterisks none [] ts) := by
  have read : ∃ d, parse "a = [2*3 b, * 4]" = .ok d := exists_parse_of_within (n := 12) (by decide +kernel)
  obtain ⟨d, h⟩ := read
  obtain ⟨ts, tokens, counted⟩ := asterisks_of_parse h
  exact ⟨d, ts, h, tokens, counted⟩

/-- The entries so many steps below a document that are written with an asterisk. -/
def Document.starredAt (k : Nat) (d : Document) : List GroupEntry := (d.level k).flatMap Node.starred

theorem Document.mem_starred {d : Document} {k : Nat} (h : e ∈ d.starredAt k) : e ∈ d.starred := by
  obtain ⟨n, level, own⟩ := List.mem_flatMap.1 h
  obtain ⟨above, place⟩ := Document.mem_places_of_level level
  refine mem_gather.2 ⟨n, ?_, own⟩
  rw [← Tree.map_fst_occurrences []]
  exact List.mem_map_of_mem place

/-- A number is joined to the asterisk behind it over a blank. -/
theorem lower_over_blank : ∃ d before l t behind e, parse "a = [2 * int]" = .ok d ∧
    tokenize "a = [2 * int]" = .ok (before ++ l :: t :: behind) ∧ l.body = .value (.uint 2) ∧ t.is .asterisk = true ∧
      l.stop.offset < t.location.offset ∧ e ∈ d.starred ∧ e.lower = some 2 := by
  have read : ∃ d, parse "a = [2 * int]" = .ok d ∧ (d.starredAt 9).any (fun e => decide (e.lower = some 2)) = true :=
    exists_parse (n := 8) (p := fun d => (d.starredAt 9).any fun e => decide (e.lower = some 2)) (by decide +kernel)
  obtain ⟨d, h, counted⟩ := read
  obtain ⟨e, mem, lower⟩ := List.any_eq_true.1 counted
  have run : (Cursor.start "a = [2 * int]").Run ([_, _, _] ++ _ :: _ :: [_, _, _]) none :=
    .token rfl rfl (.token rfl rfl (.token rfl rfl (.token rfl rfl (.token rfl rfl (.token rfl rfl (.token rfl rfl
      (.ended rfl rfl)))))))
  exact ⟨d, _, _, _, _, e, h, run.tokenize_ok, rfl, rfl, by decide, Document.mem_starred mem, of_decide_eq_true lower⟩

end Cddl
