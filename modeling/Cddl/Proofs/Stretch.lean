import Cddl.Proofs.Containment.Phrase
/-!
# Which tokens the stretch of a node was taken from

Every stretch goes from the first to the last of some tokens, or is a part of a range that is one token.  `Drawn` says
so of one node and `AllDrawn` of nodes with all that is below them.  A group choice without entries was read without a
token, and so were the group and the key that are no more than such a choice; they are called hollow.  Tokens and nodes
are put together in step, as for `Fits`.
-/
namespace Cddl

/-! ## Hollow nodes -/

def Group.hollow (g : Group) : Bool :=
  match g.choices with
  | [c] => c.entries.isEmpty
  | _ => false

/-- Whether a node was read without a token: a group choice without entries, or what is no more than that. -/
def Node.hollow : Node → Bool
  | .groupChoice c => c.entries.isEmpty
  | .group g => g.hollow
  | .nonMemberKey (.group g _) => g.hollow
  | .memberKey (.enclosed (.group g _) _) => g.hollow
  | _ => false

/-! ## One node -/

inductive Drawn (pre : Location) (ts after : List Token) (n : Node) : Prop
  /-- A literal has no stretch of its own. -/
  | bare (span : n.span = none)
  /-- From the first to the last of some tokens; before the next token if there are none. -/
  | across (lead taken rest : List Token) (split : ts = lead ++ (taken ++ rest))
      (span : n.span = some (.over (stopAfter pre lead) taken (rest ++ after))) (full : n.hollow = taken.isEmpty)
  /-- A part of a token that is a range. -/
  | part (t : Token) (mem : t ∈ ts) {lower upper : Literal} {inclusive : Bool}
      (body : t.body = .range lower upper inclusive) (i j : Nat)
      (span : n.span = some ⟨t.location.shift i, t.location.shift j⟩) (full : n.hollow = false)
      (inside : t.Read → i ≤ j ∧ j ≤ t.text.length)

variable {pre : Location} {t o c s : Token} {ts us after : List Token} {n m : Node} {ns ms : List Node}

namespace Drawn

theorem widen (h : Drawn pre ts (us ++ after) n) : Drawn pre (ts ++ us) after n := by
  cases h with
  | bare span => exact .bare span
  | across lead taken rest split span full =>
    refine .across lead taken (rest ++ us) ?_ ?_ full
    · rw [split, List.append_assoc, List.append_assoc]
    · rw [span, List.append_assoc]
  | part t mem body i j span full inside => exact .part t (List.mem_append_left _ mem) body i j span full inside

theorem behind (h : Drawn (stopAfter pre ts) us after n) : Drawn pre (ts ++ us) after n := by
  cases h with
  | bare span => exact .bare span
  | across lead taken rest split span full =>
    refine .across (ts ++ lead) taken rest ?_ ?_ full
    · rw [split, List.append_assoc]
    · rw [span, stopAfter_append]
  | part t mem body i j span full inside => exact .part t (List.mem_append_right _ mem) body i j span full inside

/-- Another node in the place of a node. -/
theorem replace (h : Drawn pre ts after n) (span : m.span = n.span) (full : m.hollow = n.hollow) :
    Drawn pre ts after m := by
  cases h with
  | bare none => exact .bare (span.trans none)
  | across lead taken rest split same filled =>
    exact .across lead taken rest split (span.trans same) (full.trans filled)
  | part t mem body i j same filled inside => exact .part t mem body i j (span.trans same) (full.trans filled) inside

end Drawn

/-! ## Nodes and all that is below them -/

/-- Some nodes and all nodes below them, in the order of a visit. -/
def Node.throughout (ns : List Node) : List Node := Tree.preorders (ns.map Node.tree)

theorem Node.throughout_cons (n : Node) (ns : List Node) :
    throughout (n :: ns) = n :: (throughout n.children ++ throughout ns) := by
  unfold throughout
  rw [List.map_cons, Tree.preorders, tree_eq, Tree.preorder]
  rfl

theorem Node.throughout_append (ns ms : List Node) : throughout (ns ++ ms) = throughout ns ++ throughout ms := by
  induction ns with
  | nil => rfl
  | cons n ns ih => rw [List.cons_append, throughout_cons, throughout_cons, ih, List.cons_append, List.append_assoc]

def AllDrawn (pre : Location) (ts after : List Token) (ns : List Node) : Prop :=
  ∀ n ∈ Node.throughout ns, Drawn pre ts after n

namespace AllDrawn

theorem none : AllDrawn pre ts after [] := fun _ h => absurd h List.not_mem_nil

theorem one (node : Drawn pre ts after n) (below : AllDrawn pre ts after n.children) : AllDrawn pre ts after [n] := by
  intro m hm
  rw [Node.throughout_cons, show Node.throughout [] = [] from rfl, List.append_nil] at hm
  rcases List.mem_cons.1 hm with rfl | hm
  · exact node
  · exact below m hm

/-- A node that stands alone, with what is below it. -/
theorem inv (h : AllDrawn pre ts after [n]) : Drawn pre ts after n ∧ AllDrawn pre ts after n.children := by
  unfold AllDrawn at h
  rw [Node.throughout_cons] at h
  exact ⟨h n List.mem_cons_self, fun m hm => h m (List.mem_cons_of_mem _ (List.mem_append_left _ hm))⟩

/-- Nodes over tokens, and nodes over the tokens behind them. -/
theorem seq (first : AllDrawn pre ts (us ++ after) ns) (second : AllDrawn (stopAfter pre ts) us after ms) :
    AllDrawn pre (ts ++ us) after (ns ++ ms) := by
  intro n hn
  rw [Node.throughout_append] at hn
  rcases List.mem_append.1 hn with hn | hn
  · exact (first n hn).widen
  · exact (second n hn).behind

/-- A node around what has been read since its start. -/
theorem around (span : n.span = some (.over pre ts after)) (full : n.hollow = ts.isEmpty)
    (below : AllDrawn pre ts after n.children) : AllDrawn pre ts after [n] := by
  refine one (.across [] ts [] ?_ span full) below
  rw [List.append_nil, List.nil_append]

/-- A node around a first token and what has been read behind it. -/
theorem cover (span : n.span = some (.over pre ts after)) (some : ts ≠ []) (full : n.hollow = false)
    (below : AllDrawn pre ts after n.children) : AllDrawn pre ts after [n] := by
  apply around span _ below
  rw [full, List.isEmpty_eq_false_iff.2 some]

/-- Nodes behind a first token. -/
theorem lead (below : AllDrawn t.stop ts after ns) : AllDrawn pre (t :: ts) after ns := by
  have first : AllDrawn pre [t] (ts ++ after) [] := none
  exact first.seq below

/-- Nodes before a last token. -/
theorem last (above : AllDrawn pre ts (c :: after) ns) : AllDrawn pre (ts ++ [c]) after ns := by
  have closing : AllDrawn (stopAfter pre ts) [c] after [] := none
  have both := above.seq closing
  rwa [List.append_nil] at both

/-- Nodes between two brackets. -/
theorem between (inner : AllDrawn o.stop ts (c :: after) ns) : AllDrawn pre (o :: (ts ++ [c])) after ns :=
  lead inner.last

/-! ## Parts of nodes -/

theorem identifier : AllDrawn pre [t] after [.identifier (Production.identifier t)] :=
  cover (Production.identifier_span t) (List.cons_ne_nil _ _) rfl none

theorem name {a : Option GenericArgs} (args : AllDrawn t.stop ts after (Node.ofArgs a)) :
    AllDrawn pre (t :: ts) after (Node.ofName (Production.identifier t) a) := by
  have first : AllDrawn pre [t] (ts ++ after) [.identifier (Production.identifier t)] := identifier
  exact first.seq args

theorem typeChoice {t : Type1} (h : AllDrawn pre ts after [.type1 t]) :
    AllDrawn pre ts after [.typeChoice (Production.typeChoice t)] :=
  one (h.inv.1.replace rfl rfl) h

theorem genericArg {t : Type1} (h : AllDrawn pre ts after [.type1 t]) :
    AllDrawn pre ts after [.genericArg ⟨t, t.span⟩] :=
  one (h.inv.1.replace rfl rfl) h

theorem colonKey {t : Type1} {key : MemberKey} (h : AllDrawn pre ts after [.type1 t])
    (made : Production.colonKey? t = some key) : AllDrawn pre ts after [.memberKey key] := by
  obtain ⟨operand, operator, span⟩ := t
  obtain ⟨-, below⟩ := h.inv
  unfold Production.colonKey? at made
  split at made
  case h_1 ident s hop harg =>
    cases hop
    cases harg
    cases made
    exact one (below.inv.1.replace rfl rfl) below.inv.2
  case h_2 v s hop harg =>
    cases hop
    cases harg
    cases made
    exact one (below.inv.1.replace rfl rfl) below.inv.2
  case h_3 => cases made

/-- What stands in parentheses as a key has the stretch of the group that it was read as. -/
theorem enclosed {g : Group} (h : AllDrawn pre ts after [.group g]) :
    AllDrawn pre ts after [.memberKey (.enclosed (Production.enclosedKey g) g.span)] := by
  obtain ⟨group, below⟩ := h.inv
  obtain ⟨choices, gspan⟩ := g
  unfold Production.enclosedKey
  split
  case h_1 type _ _ _ hg =>
    cases hg
    obtain ⟨-, entry⟩ := below.inv.2.inv
    obtain ⟨-, type⟩ := entry.inv
    exact one (group.replace rfl rfl) (one (group.replace rfl rfl) type)
  case h_2 name args span _ _ _ hg =>
    cases hg
    obtain ⟨-, entry⟩ := below.inv.2.inv
    obtain ⟨named, name⟩ := entry.inv
    have same {n : Node} (hn : n.span = span) (full : n.hollow = false) (below : AllDrawn pre ts after n.children) :
        AllDrawn pre ts after [n] := one (named.replace hn full) below
    exact one (group.replace rfl rfl) (one (group.replace rfl rfl)
      (same rfl rfl (same rfl rfl (same rfl rfl (same rfl rfl name)))))
  case h_3 => exact one (group.replace rfl rfl) (one (group.replace rfl rfl) h)

end AllDrawn

theorem SpellsOccurrence.drawn {oc : Option Occurrence} (h : SpellsOccurrence oc ts after) :
    AllDrawn pre ts after (Node.ofOccurrence oc) := by
  have place {o : Occurrence} (span : o.span = some (.over pre ts after)) (some : ts ≠ []) :
      AllDrawn pre ts after (Node.ofOccurrence (.some o)) := .cover span some rfl .none
  cases h with
  | none => exact .none
  | optional => exact place rfl (by simp)
  | oneOrMore => exact place rfl (by simp)
  | zeroOrMore => exact place rfl (by simp)
  | upTo => exact place rfl (by simp)
  | atLeast => exact place rfl (by simp)
  | fromTo => exact place rfl (by simp)

/-- The stretches in a range are parts of its token, the operator behind the lower bound and the upper bound behind the
operator. -/
theorem drawn_range {lower upper : Literal} {inclusive : Bool} (body : t.body = .range lower upper inclusive) :
    AllDrawn pre [t] after [.type1 (Production.rangeType1 t lower upper inclusive t.stop)] := by
  generalize hk : (Text.indexOf? ".." t.text).getD 0 = k
  generalize hl : k + (if inclusive then 2 else 3) = l
  have inside (read : t.Read) : k ≤ l ∧ l ≤ t.text.length := by
    obtain ⟨u, r, more, scanned, text⟩ := read.exists_scan (Token.not_is_of_range body)
    rw [body] at scanned
    obtain ⟨k', found, _, less⟩ := indexOf?_range scanned
    rw [← text] at found less
    rw [found, Option.getD_some] at hk
    omega
  have zero (stop : Location) : some (Span.mk t.location stop) = some ⟨t.location.shift (0 : Nat), stop⟩ := by
    simp [Location.shift]
  have upperStart : t.location.shift (k + if inclusive then 2 else 3) = t.location.shift (l : Nat) := by
    rw [← hl]
    cases inclusive <;> rfl
  have part {n : Node} (i j : Nat) (span : n.span = some ⟨t.location.shift i, t.location.shift j⟩)
      (full : n.hollow = false) (within : t.Read → i ≤ j ∧ j ≤ t.text.length)
      (below : AllDrawn pre [t] after n.children) : AllDrawn pre [t] after [n] :=
    .one (.part t List.mem_cons_self body i j span full within) below
  have literal (v : Literal) : AllDrawn pre [t] after [.value v] := .one (.bare rfl) .none
  unfold Production.rangeType1
  rw [hk]
  dsimp only
  rw [upperStart]
  have operand : AllDrawn pre [t] after [.type2 (.literal upper (some ⟨t.location.shift l, t.stop⟩))] :=
    part l t.text.length rfl rfl (fun read => ⟨(inside read).2, Nat.le_refl _⟩) (literal upper)
  have operator : AllDrawn pre [t] after [.operator ⟨.range inclusive,
      .literal upper (some ⟨t.location.shift l, t.stop⟩), some ⟨t.location.shift k, t.stop⟩⟩] :=
    part k t.text.length rfl rfl (fun read => ⟨Nat.le_trans (inside read).1 (inside read).2, Nat.le_refl _⟩) operand
  have first : AllDrawn pre [t] after [.type2 (.literal lower (some ⟨t.location, t.location.shift k⟩))] :=
    part 0 k (zero _) rfl
      (fun read => ⟨Nat.zero_le _, Nat.le_trans (inside read).1 (inside read).2⟩) (literal lower)
  refine part 0 t.text.length (zero _) rfl (fun _ => ⟨Nat.zero_le _, Nat.le_refl _⟩) ?_
  intro n hn
  rw [show (Node.type1 _).children = [.type2 _] ++ [.operator _] from rfl, Node.throughout_append] at hn
  rcases List.mem_append.1 hn with hn | hn
  · exact first n hn
  · exact operator n hn

/-! ## Entries -/

/-- An entry with a key, which takes all tokens up to its type. -/
theorem drawn_keyed {oc : Option Occurrence} {key : MemberKey} {ty : TypeExpr} {os ks : List Token}
    (occurrence : SpellsOccurrence oc os (ks ++ (us ++ after)))
    (inner : AllDrawn (stopAfter pre os) ks (us ++ after) [.memberKey key])
    (value : AllDrawn (stopAfter (stopAfter pre os) ks) us after [.type ty]) (full : us ≠ []) :
    AllDrawn pre (os ++ (ks ++ us)) after [.groupEntry (.keyed
      ⟨oc, some key, ty, some (.over pre (os ++ (ks ++ us)) after)⟩ (some (.over pre (os ++ (ks ++ us)) after)))] := by
  rw [← List.append_assoc ks] at occurrence
  have below := occurrence.drawn.seq (inner.seq value)
  have whole : os ++ (ks ++ us) ≠ [] := by simp [full]
  exact .cover rfl whole rfl (.cover rfl whole rfl (by simpa [Node.children] using below))

theorem drawn_inlineEntry {oc : Option Occurrence} {g : Group} {os : List Token}
    (occurrence : SpellsOccurrence oc os (o :: (ts ++ c :: after)))
    (group : AllDrawn o.stop ts (c :: after) [.group g]) : AllDrawn pre (os ++ o :: (ts ++ [c])) after
      [.groupEntry (.inline oc g (some (.over pre (os ++ o :: (ts ++ [c])) after)))] := by
  have split : o :: (ts ++ c :: after) = o :: (ts ++ [c]) ++ after := by simp
  rw [split] at occurrence
  exact .cover rfl (by simp) rfl (occurrence.drawn.seq (.between group))

section
variable {oc : Option Occurrence} {key : MemberKey} {ty : TypeExpr} {t₁ : Type1} {cut : Bool} {os as : List Token}

theorem drawn_enclosedEntry {g : Group} (occurrence : SpellsOccurrence oc os (o :: (ts ++ c :: (as ++ (us ++ after)))))
    (group : AllDrawn o.stop ts (c :: (as ++ (us ++ after))) [.group g])
    (type : AllDrawn (stopAfter c.stop as) us after [.type ty]) (full : us ≠ []) :
    AllDrawn pre (os ++ o :: (ts ++ c :: (as ++ us))) after [.groupEntry (.keyed
      ⟨oc, some (.enclosed (Production.enclosedKey g) g.span), ty,
        some (.over pre (os ++ o :: (ts ++ c :: (as ++ us))) after)⟩
      (some (.over pre (os ++ o :: (ts ++ c :: (as ++ us))) after)))] := by
  have split : o :: (ts ++ c :: (as ++ us)) = (o :: (ts ++ [c]) ++ as) ++ us := by simp
  have ends : stopAfter (stopAfter pre os) (o :: (ts ++ [c]) ++ as) = stopAfter c.stop as := by
    simp [stopAfter, stopAfter_append]
  have brackets : AllDrawn (stopAfter pre os) (o :: (ts ++ [c])) (as ++ (us ++ after)) [.group g] := .between group
  have arrow : AllDrawn (stopAfter (stopAfter pre os) (o :: (ts ++ [c]))) as (us ++ after) [] := AllDrawn.none
  have key := (brackets.seq arrow).enclosed
  rw [split]
  rw [← ends] at type
  exact drawn_keyed (by simpa using occurrence) key type full

theorem drawn_colonEntry {k : Token} (occurrence : SpellsOccurrence oc os (ts ++ k :: (us ++ after)))
    (made : Production.colonKey? t₁ = some key)
    (first : AllDrawn (stopAfter pre os) ts (k :: (us ++ after)) [.type1 t₁])
    (type : AllDrawn k.stop us after [.type ty]) (full : us ≠ []) :
    AllDrawn pre (os ++ (ts ++ k :: us)) after [.groupEntry (.keyed
      ⟨oc, some key, ty, some (.over pre (os ++ (ts ++ k :: us)) after)⟩
      (some (.over pre (os ++ (ts ++ k :: us)) after)))] := by
  have split : ts ++ k :: us = ts ++ [k] ++ us := by simp
  have ends : stopAfter (stopAfter pre os) (ts ++ [k]) = k.stop := by rw [stopAfter_append]; rfl
  rw [split]
  rw [← ends] at type
  exact drawn_keyed (by simpa using occurrence) (first.colonKey made).last type full

theorem drawn_arrowEntry (occurrence : SpellsOccurrence oc os (ts ++ (as ++ (us ++ after))))
    (arrow : SpellsArrow cut as) (first : AllDrawn (stopAfter pre os) ts (as ++ (us ++ after)) [.type1 t₁])
    (type : AllDrawn (stopAfter pre (os ++ (ts ++ as))) us after [.type ty]) (full : us ≠ []) :
    AllDrawn pre (os ++ (ts ++ (as ++ us))) after [.groupEntry (.keyed
      ⟨oc, some (.type1 t₁ cut (some (.over (stopAfter pre os) (ts ++ as) (us ++ after)))), ty,
        some (.over pre (os ++ (ts ++ (as ++ us))) after)⟩
      (some (.over pre (os ++ (ts ++ (as ++ us))) after)))] := by
  have split : ts ++ (as ++ us) = ts ++ as ++ us := (List.append_assoc _ _ _).symm
  have whole : ts ++ as ≠ [] := by cases arrow <;> simp
  have none : AllDrawn (stopAfter (stopAfter pre os) ts) as (us ++ after) [] := AllDrawn.none
  have key : AllDrawn (stopAfter pre os) (ts ++ as) (us ++ after) [.memberKey (.type1 t₁ cut
      (some (.over (stopAfter pre os) (ts ++ as) (us ++ after))))] := .cover rfl whole rfl (first.seq none)
  rw [split]
  rw [stopAfter_append] at type
  exact drawn_keyed (by simpa using occurrence) key type full

theorem drawn_namedEntry {ident : Identifier} {args : Option GenericArgs} {s s' : Option Span}
    (occurrence : SpellsOccurrence oc os (ts ++ after))
    (first : AllDrawn (stopAfter pre os) ts after [.type1 ⟨.typename ident args s, none, s'⟩]) (full : ts ≠ []) :
    AllDrawn pre (os ++ ts) after [.groupEntry (.named ⟨oc, ident, args, some (.over pre (os ++ ts) after)⟩
      (some (.over pre (os ++ ts) after)))] := by
  obtain ⟨-, below⟩ := first.inv
  obtain ⟨-, name⟩ := below.inv
  have whole : os ++ ts ≠ [] := by simp [full]
  exact .cover rfl whole rfl (.cover rfl whole rfl (occurrence.drawn.seq name))

theorem drawn_keylessEntry {cs : List TypeChoice} (occurrence : SpellsOccurrence oc os (ts ++ (us ++ after)))
    (first : AllDrawn (stopAfter pre os) ts (us ++ after) [.type1 t₁])
    (more : AllDrawn (stopAfter pre (os ++ ts)) us after (cs.map .typeChoice)) (full : ts ≠ []) :
    AllDrawn pre (os ++ (ts ++ us)) after [.groupEntry (.keyed
      ⟨oc, none, ⟨Production.typeChoice t₁ :: cs, some (.over (stopAfter pre os) (ts ++ us) after)⟩,
        some (.over pre (os ++ (ts ++ us)) after)⟩
      (some (.over pre (os ++ (ts ++ us)) after)))] := by
  rw [stopAfter_append] at more
  have type : AllDrawn (stopAfter pre os) (ts ++ us) after [.type ⟨Production.typeChoice t₁ :: cs,
      some (.over (stopAfter pre os) (ts ++ us) after)⟩] := .cover rfl (by simp [full]) rfl (first.typeChoice.seq more)
  rw [← List.append_assoc ts] at occurrence
  have below := occurrence.drawn.seq type
  have whole : os ++ (ts ++ us) ≠ [] := by simp [full]
  exact .cover rfl whole rfl (.cover rfl whole rfl (by simpa [Node.children] using below))

end

/-! ## All phrases -/

theorem isEmpty_entries {es : List ListedEntry} (h : Spells (.entries es) pre ts after) : es.isEmpty = ts.isEmpty := by
  cases h with
  | noEntries => rfl
  | plainEntry entry => exact (List.isEmpty_eq_false_iff.2 (by simp [entry.ne_nil rfl])).symm
  | commaEntry => exact (List.isEmpty_eq_false_iff.2 (by simp)).symm

/-- A group is hollow if it is one group choice that is. -/
theorem hollow_group {c : GroupChoice} {cs : List GroupChoice} {span : Option Span}
    (first : Spells (.groupChoice c) pre ts (us ++ after))
    (more : Spells (.groupChoices cs) (stopAfter pre ts) us after) :
    Group.hollow ⟨c :: cs, span⟩ = (ts ++ us).isEmpty := by
  cases more with
  | noGroupChoices =>
    cases first with
    | groupChoice entries => rw [List.append_nil]; exact isEmpty_entries entries
  | moreGroupChoices => exact (List.isEmpty_eq_false_iff.2 (by simp)).symm

/-- **The stretches of the nodes of a phrase are taken from its tokens.** -/
theorem drawn_of_spells {p : Phrase} (h : Spells p pre ts after) : AllDrawn pre ts after p.nodes := by
  induction h
  case literal => exact .cover rfl (by simp) rfl (.one (.bare rfl) .none)
  case typename ih => exact .cover rfl (by simp) rfl (.name ih)
  case parenthesized ih => exact .cover (over_between _ ▸ rfl) (by simp) rfl (.between ih)
  case map ih => exact .cover (over_between _ ▸ rfl) (by simp) rfl (.between ih)
  case array ih => exact .cover (over_between _ ▸ rfl) (by simp) rfl (.between ih)
  case unwrap ih => exact .cover rfl (by simp) rfl (.lead (.name ih))
  case choiceFromInlineGroup pre x o c _ ts after _ _ _ _ ih =>
    have span : Span.over pre (x :: o :: (ts ++ [c])) after = ⟨x.location, c.stop⟩ := over_between (o :: ts)
    exact .cover (span ▸ rfl) (by simp) rfl (.lead (.between ih))
  case choiceFromGroup ih => exact .cover rfl (by simp) rfl (.lead (.name ih))
  case tagged pre x o c _ _ ts after _ _ _ _ ih =>
    have span : Span.over pre (x :: o :: (ts ++ [c])) after = ⟨x.location, c.stop⟩ := over_between (o :: ts)
    exact .cover (span ▸ rfl) (by simp) rfl (.lead (.between ih))
  case major => exact .cover rfl (by simp) rfl .none
  case any => exact .cover rfl (by simp) rfl .none
  case noOperator => exact .none
  case someOperator ih => exact .cover rfl (by simp) rfl (.lead ih)
  case range body => exact drawn_range body
  case operands operand _ ih ih' => exact .cover rfl (by simp [operand.ne_nil rfl]) rfl (ih.seq ih')
  case noChoices => exact .none
  case moreChoices ih ih' => exact .lead (ih.typeChoice.seq ih')
  case type first _ ih ih' => exact .cover rfl (by simp [first.ne_nil rfl]) rfl (ih.typeChoice.seq ih')
  case noArgs => exact .none
  case someArgs ih ih' => exact .cover (over_between _ ▸ rfl) (by simp) rfl (.between (ih.genericArg.seq ih'))
  case noMoreArgs => exact .none
  case moreArgs ih ih' => exact .lead (ih.genericArg.seq ih')
  case inlineEntry occurrence _ _ _ _ ih => exact drawn_inlineEntry occurrence ih
  case enclosedEntry occurrence _ _ _ _ type ih ih' => exact drawn_enclosedEntry occurrence ih ih' (type.ne_nil rfl)
  case colonEntry occurrence _ _ _ made type ih ih' => exact drawn_colonEntry occurrence made ih ih' (type.ne_nil rfl)
  case arrowEntry occurrence _ _ arrow type ih ih' => exact drawn_arrowEntry occurrence arrow ih ih' (type.ne_nil rfl)
  case namedEntry occurrence first _ _ ih => exact drawn_namedEntry occurrence ih (first.ne_nil rfl)
  case keylessEntry occurrence first _ _ _ _ ih ih' => exact drawn_keylessEntry occurrence ih ih' (first.ne_nil rfl)
  case noEntries => exact .none
  case plainEntry ih ih' => exact ih.seq ih'
  case commaEntry ih ih' => exact AllDrawn.seq ih (.lead ih')
  case groupChoice entries ih => exact .around rfl (isEmpty_entries entries) ih
  case noGroupChoices => exact .none
  case moreGroupChoices ih ih' => exact .lead (ih.seq ih')
  case group first more ih ih' => exact .around rfl (hollow_group first more) (ih.seq ih')

end Cddl
