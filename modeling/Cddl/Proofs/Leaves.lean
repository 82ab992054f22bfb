import Cddl.Proofs.Gather
import Cddl.Proofs.Placement.Document
import Cddl.Proofs.Token.Run
import Mathlib.Data.List.Basic
/-!
# The leaves of a tree

Names, literals and the bounds of occurrences are all that a tree keeps of the words of a text.  A visit meets them as
they were written: none of them is lost, none is made up, and none changes its place (`leaves_of_parse`).
-/
namespace Cddl

open Cddl.Tree Production

/-- A name and where it stands, or a literal. -/
inductive Leaf where
  | name (text : Text) (span : Option Span)
  | literal (v : Literal)
  deriving DecidableEq

def Token.leaves (t : Token) : List Leaf :=
  match t.body with
  | .mark .name => [.name t.text (some t.span)]
  | .value v => [.literal v]
  | .range lower upper _ => [.literal lower, .literal upper]
  | _ => []

/-- The bounds that an occurrence is given, the lower one first. -/
def Occurrence.bounds (o : Occurrence) : List Int :=
  match o.occur with
  | .between lower upper => lower.toList ++ upper.toList
  | _ => []

namespace Node

/-- What a node has of its own, whatever is below it. -/
def ownLeaves : Node → List Leaf
  | identifier i => [.name i.render i.span]
  | value v => [.literal v]
  | occurrence o => o.bounds.map fun n => .literal (.uint n)
  | _ => []

/-- A visitor that takes part in names, literals and occurrences, and walks on everywhere. -/
def leafStep? (n : Node) : Option Step :=
  if n.kind ∈ [.identifier, .value, .occurrence] then some .walk else none

/-- What such a visitor sees at a node and below it, in that order. -/
def leaves (n : Node) : List Leaf := (n.tree.visit leafStep?).flatMap ownLeaves

theorem ownLeaves_of_kind {n : Node} (h : n.kind ∉ [NodeKind.identifier, .value, .occurrence]) : n.ownLeaves = [] := by
  cases n
  case identifier | value | occurrence => exact absurd (by simp [kind]) h
  all_goals rfl

theorem flatMap_visitAll (f : Node → List Leaf) (step? : Node → Option Step) : ∀ ns : List Node,
    (visitAll step? (ns.map tree)).flatMap f = ns.flatMap fun n => (n.tree.visit step?).flatMap f
  | [] => rfl
  | n :: ns => by
    rw [List.map_cons, visitAll, List.flatMap_append, flatMap_visitAll f step? ns, List.flatMap_cons]

theorem leaves_eq (n : Node) : n.leaves = n.ownLeaves ++ n.children.flatMap leaves := by
  have below : (visitAll leafStep? (n.children.map tree)).flatMap ownLeaves = n.children.flatMap leaves :=
    flatMap_visitAll ownLeaves leafStep? n.children
  rw [leaves, tree_eq, visit, ← below, leafStep?]
  by_cases h : n.kind ∈ [NodeKind.identifier, .value, .occurrence]
  · rw [if_pos h, List.flatMap_cons]
  · rw [if_neg h, ownLeaves_of_kind h]
    rfl

variable {n c : Node}

theorem leaves_of_inner (own : n.ownLeaves = []) : n.leaves = n.children.flatMap leaves := by
  rw [leaves_eq, own]
  rfl

theorem leaves_of_child (own : n.ownLeaves = []) (child : n.children = [c]) : n.leaves = c.leaves := by
  rw [leaves_of_inner own, child]
  exact List.append_nil _

end Node

def Document.leaves (d : Document) : List Leaf := (Node.document d).leaves

/-! ## Keys -/

namespace Node

theorem leaves_eq_gather (n : Node) : n.leaves = n.gather ownLeaves := by
  have below : n.children.flatMap leaves = n.children.flatMap (gather ownLeaves) :=
    List.flatMap_congr fun c hc => leaves_eq_gather c
  rw [leaves_eq, gather_eq, below]
termination_by n
decreasing_by exact sizeOf_child_lt hc

theorem overlooks_ownLeaves : Overlooks ownLeaves where
  holder n h := by cases n <;> first | rfl | cases h
  name _ _ _ := rfl
  bareword _ _ := rfl
  literal _ _ := rfl
  enclosed _ _ := rfl
  entry _ _ _ := rfl

end Node

theorem leaves_colonKey {t : Type1} {key : MemberKey} (h : colonKey? t = some key) :
    (Node.memberKey key).leaves = (Node.type1 t).leaves := by
  rw [Node.leaves_eq_gather, Node.leaves_eq_gather, gather_colonKey Node.overlooks_ownLeaves h]

/-- A group in the place of a key keeps its leaves, also where it turns out to be a type. -/
theorem leaves_enclosedKey {s : Option Span} (g : Group) :
    (Node.memberKey (.enclosed (enclosedKey g) s)).leaves = (Node.group g).leaves := by
  rw [Node.leaves_eq_gather, Node.leaves_eq_gather, gather_enclosedKey Node.overlooks_ownLeaves]

/-! ## Nodes and the tokens that they come from -/

section

variable {n : Node} {ns ms : List Node} {t o c : Token} {ts us ks os as after : List Token} {m m' : Mark}
  {oc : Option Occurrence} {k : Option MemberKey} {ty : TypeExpr} {s s' : Option Span} {pre : Location}

theorem Token.leaves_of_is (h : t.is m = true) (hm : m ≠ .name) : t.leaves = [] := by
  unfold leaves
  rw [Token.is_iff.1 h]
  split
  · rename_i heq
    cases heq
    exact absurd rfl hm
  · rename_i heq
    cases heq
  · rename_i heq
    cases heq
  · rfl

theorem Token.leaves_of_body {b : Token.Body} (h : t.body = b) : t.leaves = leaves ⟨b, t.text, t.location⟩ := by
  cases t
  cases h
  rfl

/-- Nodes side by side have the leaves of some tokens. -/
def Yields (ns : List Node) (ts : List Token) : Prop := ns.flatMap Node.leaves = ts.flatMap Token.leaves

namespace Yields

theorem nil : Yields [] [] := rfl

theorem append (h : Yields ns ts) (h' : Yields ms us) : Yields (ns ++ ms) (ts ++ us) := by
  unfold Yields at *
  rw [List.flatMap_append, List.flatMap_append, h, h']

/-- A token without leaves. -/
theorem skip (ht : t.leaves = []) (h : Yields ns ts) : Yields ns (t :: ts) := by
  unfold Yields at *
  rw [h, List.flatMap_cons, ht]
  rfl

theorem mark (ht : t.is m = true) (hm : m ≠ .name) (h : Yields ns ts) : Yields ns (t :: ts) :=
  h.skip (Token.leaves_of_is ht hm)

theorem enclosed (ho : o.is m = true) (hm : m ≠ .name) (h : Yields ns ts) (hc : c.is m' = true) (hm' : m' ≠ .name) :
    Yields ns (o :: (ts ++ [c])) := by
  have last : Yields [] [c] := .mark hc hm' .nil
  have inside : Yields (ns ++ []) (ts ++ [c]) := h.append last
  rw [List.append_nil] at inside
  exact .mark ho hm inside

/-- A node that has nothing of its own around others. -/
theorem inner (own : n.ownLeaves = []) (h : Yields n.children ts) : Yields [n] ts := by
  unfold Yields at *
  rw [← h, ← Node.leaves_of_inner own]
  exact List.append_nil _

/-- A node in the place of one with the same leaves. -/
theorem replace {n' : Node} (same : n'.leaves = n.leaves) (h : Yields [n] ts) : Yields [n'] ts := by
  unfold Yields at *
  rw [← h, List.flatMap_singleton, List.flatMap_singleton, same]

theorem name (ht : t.is .name = true) (h : Yields ns ts) : Yields (.identifier (identifier t) :: ns) (t :: ts) := by
  have own : (Node.identifier (identifier t)).leaves = t.leaves := by
    rw [Node.leaves_eq, Token.leaves_of_body (Token.is_iff.1 ht), Node.ownLeaves, render_identifier, identifier_span]
    rfl
  unfold Yields at *
  rw [List.flatMap_cons, List.flatMap_cons, own, h]

theorem value {v : Literal} (ht : t.body = .value v) : Yields [.value v] [t] := by
  unfold Yields
  rw [List.flatMap_singleton, List.flatMap_singleton, Node.leaves_eq, Token.leaves_of_body ht]
  rfl

theorem occurrence (h : SpellsOccurrence oc os after) : Yields (Node.ofOccurrence oc) os := by
  have bound {t : Token} {n : Int} (ht : t.body = .value (.uint n)) : t.leaves = [.literal (.uint n)] :=
    Token.leaves_of_body ht
  have star {t : Token} (ht : t.is .asterisk = true) : t.leaves = [] := Token.leaves_of_is ht (by decide)
  have own (o : Occurrence) : (Node.ofOccurrence (some o)).flatMap Node.leaves = (Node.occurrence o).ownLeaves := by
    rw [Node.ofOccurrence, Option.toList, List.map_singleton, List.flatMap_singleton, Node.leaves_eq]
    exact List.append_nil _
  unfold Yields
  cases h with
  | none => rfl
  | optional mark => rw [own, List.flatMap_singleton, Token.leaves_of_is mark (by decide)]; rfl
  | oneOrMore mark => rw [own, List.flatMap_singleton, Token.leaves_of_is mark (by decide)]; rfl
  | zeroOrMore mark => rw [own, List.flatMap_singleton, star mark]; rfl
  | upTo mark upper =>
    rw [own, List.flatMap_cons, List.flatMap_singleton, star mark, bound (body_of_uintAt? upper).1]
    rfl
  | atLeast lower mark => rw [own, List.flatMap_cons, List.flatMap_singleton, bound lower, star mark]; rfl
  | fromTo lower mark upper =>
    rw [own, List.flatMap_cons, List.flatMap_cons, List.flatMap_singleton, bound lower, star mark,
      bound (body_of_uintAt? upper).1]
    rfl

theorem arrow {cut : Bool} (h : SpellsArrow cut as) : Yields [] as := by
  cases h with
  | plain arrow => exact .mark arrow (by decide) .nil
  | cut cut arrow => exact .mark cut (by decide) (.mark arrow (by decide) .nil)

theorem range {lower upper : Literal} {inclusive : Bool} {stop : Location}
    (ht : t.body = .range lower upper inclusive) : Yields [.type1 (rangeType1 t lower upper inclusive stop)] [t] := by
  have operand (v : Literal) (s : Option Span) : Yields [.type2 (.literal v s)] [⟨.value v, t.text, t.location⟩] :=
    .inner rfl (.value rfl)
  have pair : Yields [.type1 (rangeType1 t lower upper inclusive stop)]
      [⟨.value lower, t.text, t.location⟩, ⟨.value upper, t.text, t.location⟩] :=
    .inner rfl ((operand lower _).append (.inner rfl (operand upper _)))
  unfold Yields at *
  rw [pair, List.flatMap_singleton, Token.leaves_of_body ht]
  rfl

/-- An entry with a type: how often it occurs, what it is for, and the type. -/
theorem keyed (h : Yields (Node.ofOccurrence oc) os) (hk : Yields (k.toList.map .memberKey) ks)
    (ht : Yields [.type ty] ts) : Yields [.groupEntry (.keyed ⟨oc, k, ty, s⟩ s')] (os ++ (ks ++ ts)) := by
  have parts : Yields (Node.keyedEntry ⟨oc, k, ty, s⟩).children (os ++ (ks ++ ts)) := by
    rw [← List.append_assoc]
    exact (h.append hk).append ht
  exact .inner rfl (.inner rfl parts)

theorem keyless (h : Yields (Node.ofOccurrence oc) os) (ht : Yields [.type ty] ts) :
    Yields [.groupEntry (.keyed ⟨oc, none, ty, s⟩ s')] (os ++ ts) := by
  have parts : Yields (Node.keyedEntry ⟨oc, none, ty, s⟩).children (os ++ ts) := by
    rw [Node.children, Option.toList, List.map_nil, List.append_nil]
    exact h.append ht
  exact .inner rfl (.inner rfl parts)

/-- An entry that is a name has what the name has as a type. -/
theorem named {ident : Identifier} {args : Option GenericArgs} {s₁ s₂ : Option Span}
    (h : Yields (Node.ofOccurrence oc) os) (ht : Yields [.type1 ⟨.typename ident args s₁, none, s₂⟩] ts) :
    Yields [.groupEntry (.named ⟨oc, ident, args, s⟩ s')] (os ++ ts) := by
  have type2 : (Node.type1 ⟨.typename ident args s₁, none, s₂⟩).leaves =
      (Node.type2 (.typename ident args s₁)).leaves :=
    Node.leaves_of_child rfl rfl
  have type : Yields (Node.ofName ident args) ts := by
    unfold Yields at *
    rw [← ht, List.flatMap_singleton, type2, Node.leaves_of_inner rfl]
    rfl
  have parts : Yields (Node.namedEntry ⟨oc, ident, args, s⟩).children (os ++ ts) := h.append type
  exact .inner rfl (.inner rfl parts)

theorem typeChoice {t : Type1} (h : Yields [.type1 t] ts) : Yields [.typeChoice (Production.typeChoice t)] ts :=
  .inner rfl h

theorem genericParam (ht : t.is .name = true) : Yields [.genericParam ⟨identifier t, s⟩] [t] :=
  .inner rfl (.name ht .nil)

theorem genericArg {t : Type1} (h : Yields [.type1 t] ts) : Yields [.genericArg ⟨t, s⟩] ts := .inner rfl h

end Yields

/-- **The nodes of a phrase have the leaves of its tokens.** -/
theorem yields_of_spells {p : Phrase} (h : Spells p pre ts after) : Yields p.nodes ts := by
  induction h
  case literal body => exact .inner rfl (.value body)
  case typename name _ ih => exact .inner rfl (.name name ih)
  case parenthesized opening _ closing ih => exact .inner rfl (.enclosed opening (by decide) ih closing (by decide))
  case map opening _ closing ih => exact .inner rfl (.enclosed opening (by decide) ih closing (by decide))
  case array opening _ closing ih => exact .inner rfl (.enclosed opening (by decide) ih closing (by decide))
  case unwrap opening name _ ih => exact .inner rfl (.mark opening (by decide) (.name name ih))
  case choiceFromInlineGroup mark opening _ closing ih =>
    exact .inner rfl (.mark mark (by decide) (.enclosed opening (by decide) ih closing (by decide)))
  case choiceFromGroup mark name _ ih => exact .inner rfl (.mark mark (by decide) (.name name ih))
  case tagged body opening _ closing ih =>
    exact .inner rfl (.skip (Token.leaves_of_body body) (.enclosed opening (by decide) ih closing (by decide)))
  case major body _ _ => exact .inner rfl (.skip (Token.leaves_of_body body) .nil)
  case any mark => exact .inner rfl (.mark mark (by decide) .nil)
  case noOperator => exact .nil
  case someOperator mark _ ih =>
    rcases is_of_operatorSymbol? mark with is | is
    · exact .inner rfl (.mark is (by decide) ih)
    · exact .inner rfl (.mark is (by decide) ih)
  case range body => exact .range body
  case operands ih ih' => exact .inner rfl (ih.append ih')
  case noChoices => exact .nil
  case moreChoices mark _ _ ih ih' => exact .mark mark (by decide) (ih.typeChoice.append ih')
  case type ih ih' => exact .inner rfl (ih.typeChoice.append ih')
  case noArgs => exact .nil
  case someArgs opening _ _ closing ih ih' =>
    exact .inner rfl (.enclosed opening (by decide) (ih.genericArg.append ih') closing (by decide))
  case noMoreArgs => exact .nil
  case moreArgs mark _ _ ih ih' => exact .mark mark (by decide) (ih.genericArg.append ih')
  case inlineEntry occurrence opening _ closing _ ih =>
    exact .inner rfl ((Yields.occurrence occurrence).append (.enclosed opening (by decide) ih closing (by decide)))
  case enclosedEntry oc o c g cut ty os ts as us after occurrence opening _ closing arrow _ ih ih' =>
    have key : Yields [.memberKey (.enclosed (enclosedKey g) g.span)] (o :: (ts ++ [c])) :=
      .replace (leaves_enclosedKey g) (.enclosed opening (by decide) ih closing (by decide))
    have split : o :: (ts ++ c :: (as ++ us)) = o :: (ts ++ [c]) ++ (as ++ us) := by simp
    rw [split]
    exact (Yields.occurrence occurrence).keyed key ((Yields.arrow arrow).append ih')
  case colonEntry occurrence _ _ mark made _ ih ih' =>
    exact (Yields.occurrence occurrence).keyed (.replace (leaves_colonKey made) ih) (.mark mark (by decide) ih')
  case arrowEntry occurrence _ _ arrow _ ih ih' =>
    exact (Yields.occurrence occurrence).keyed (.inner rfl ih) ((Yields.arrow arrow).append ih')
  case namedEntry occurrence _ _ _ ih => exact (Yields.occurrence occurrence).named ih
  case keylessEntry occurrence _ _ _ _ _ ih ih' =>
    exact (Yields.occurrence occurrence).keyless (.inner rfl (ih.typeChoice.append ih'))
  case noEntries => exact .nil
  case plainEntry ih ih' => exact ih.append ih'
  case commaEntry mark _ ih ih' => exact ih.append (.mark mark (by decide) ih')
  case groupChoice es ts after _ ih =>
    exact .inner rfl ih
  case noGroupChoices => exact .nil
  case moreGroupChoices mark _ _ ih ih' => exact .mark mark (by decide) (ih.append ih')
  case group ih ih' => exact .inner rfl (ih.append ih')

/-! ## Documents -/

theorem SpellsMoreParams.yields {ps : List GenericParam} (h : SpellsMoreParams ps ts after) :
    Yields (ps.map .genericParam) ts := by
  induction h with
  | nil => exact .nil
  | cons mark name _ ih => exact .mark mark (by decide) ((Yields.genericParam name).append ih)

theorem SpellsParams.yields {params : Option GenericParams} (h : SpellsParams params ts after) :
    Yields (Node.ofParams params) ts := by
  cases h with
  | none => exact .nil
  | some opening name more closing =>
    exact .inner rfl (.enclosed opening (by decide) ((Yields.genericParam name).append more.yields) closing (by decide))

theorem SpellsRule.yields {r : Rule} (h : SpellsRule r ts after) : Yields [.rule r] ts := by
  have sign {t : Token} {a : Assignment} {ns : List Node} {ts : List Token} (h : assignment? t = some a)
      (rest : Yields ns ts) : Yields ns (t :: ts) :=
    .mark (is_mark_of_assignment? h) (by cases a <;> decide) rest
  cases h with
  | type isName params assigned _ _ type =>
    exact .inner rfl (.inner rfl (.name isName (params.yields.append (sign assigned (yields_of_spells type)))))
  | group isName params assigned _ _ entry =>
    exact .inner rfl (.inner rfl (.name isName (params.yields.append (sign assigned (yields_of_spells entry)))))

theorem SpellsRules.yields {rs : List Rule} (h : SpellsRules rs ts after) : Yields (rs.map .rule) ts := by
  induction h with
  | nil => exact .nil
  | cons first _ ih => exact first.yields.append ih

end

/-- **A visit to a document that was read from a text meets the names and literals of the text's tokens.**  It meets
each of them once, in its place, and nothing else. -/
theorem leaves_of_parse {source : Text} {d : Document} (h : parse source = .ok d) :
    ∃ ts, tokenize source = .ok ts ∧ d.leaves = ts.flatMap Token.leaves := by
  obtain ⟨w, v, ts, hw, walk, ends, _, spelled⟩ := parseFeed_ok (Feed.ends_ofCursor _) (parse_eq_ok_iff.1 h)
  have rules := spelled _ (List.cons_ne_nil _ _) v.shows_pair
  have shown : w.Shows (ts ++ [v.current] ++ [v.upcoming]) := by
    rw [List.append_assoc]
    exact walk.shows v.shows_pair
  have run : (Cursor.start source).Run (ts ++ [v.current]) none :=
    .of_items rules.unended ends fun i t hi => (Window.item_ofFeed hw i).symm.trans (shown.left i t hi)
  have last : v.current.leaves = [] := Token.leaves_of_is ends (by decide)
  refine ⟨_, run.tokenize_ok, ?_⟩
  rw [Document.leaves, Node.leaves_of_inner rfl, Node.children, rules.yields, List.flatMap_append,
    List.flatMap_singleton, last, List.append_nil]

/-- A parameter, a socket, two bounds and a range. -/
theorem leaves_of_parse_sample : ∃ d ts, parse "a<t> = [2*3 t, $s: 1..5]" = .ok d ∧
    tokenize "a<t> = [2*3 t, $s: 1..5]" = .ok ts ∧ d.leaves = ts.flatMap Token.leaves := by
  have read : ∃ d, parse "a<t> = [2*3 t, $s: 1..5]" = .ok d ∧ true = true :=
    exists_parse (n := 16) (p := fun _ => true) (by decide +kernel)
  obtain ⟨d, h, _⟩ := read
  obtain ⟨ts, tokens, leaves⟩ := leaves_of_parse h
  exact ⟨d, ts, h, tokens, leaves⟩

end Cddl
