import Cddl.Proofs.Erasure
/-!
# Trees with other places

`respan f` goes through a tree and puts `f s` in the place of every span `s`; nothing else of the tree changes.  What
the grammar makes of a tree that it has read, it makes of the tree with other places too.  To erase the places is the
case of a constant.
-/
namespace Cddl

/-! ## Going through a tree -/

def Identifier.respan (f : Option Span → Option Span) (i : Identifier) : Identifier := { i with span := f i.span }

def Occurrence.respan (f : Option Span → Option Span) (o : Occurrence) : Occurrence := { o with span := f o.span }

def GenericParam.respan (f : Option Span → Option Span) (p : GenericParam) : GenericParam :=
  ⟨p.param.respan f, f p.span⟩

def GenericParams.respan (f : Option Span → Option Span) (p : GenericParams) : GenericParams :=
  ⟨p.params.map (·.respan f), f p.span⟩

mutual

def TypeExpr.respan (f : Option Span → Option Span) : TypeExpr → TypeExpr
  | ⟨choices, s⟩ => ⟨respanTypeChoices f choices, f s⟩

def respanTypeChoices (f : Option Span → Option Span) : List TypeChoice → List TypeChoice
  | [] => []
  | c :: cs => c.respan f :: respanTypeChoices f cs

def TypeChoice.respan (f : Option Span → Option Span) : TypeChoice → TypeChoice
  | ⟨type1, s⟩ => ⟨type1.respan f, f s⟩

def Type1.respan (f : Option Span → Option Span) : Type1 → Type1
  | ⟨operand, operator, s⟩ => ⟨operand.respan f, respanOperator f operator, f s⟩

def respanOperator (f : Option Span → Option Span) : Option Operator → Option Operator
  | none => none
  | some o => some (o.respan f)

def Operator.respan (f : Option Span → Option Span) : Operator → Operator
  | ⟨symbol, operand, s⟩ => ⟨symbol, operand.respan f, f s⟩

def Type2.respan (f : Option Span → Option Span) : Type2 → Type2
  | .literal v s => .literal v (f s)
  | .typename ident args s => .typename (ident.respan f) (respanArgs f args) (f s)
  | .parenthesized type s => .parenthesized (type.respan f) (f s)
  | .map group s => .map (group.respan f) (f s)
  | .array group s => .array (group.respan f) (f s)
  | .unwrap ident args s => .unwrap (ident.respan f) (respanArgs f args) (f s)
  | .choiceFromInlineGroup group s => .choiceFromInlineGroup (group.respan f) (f s)
  | .choiceFromGroup ident args s => .choiceFromGroup (ident.respan f) (respanArgs f args) (f s)
  | .tagged tag type s => .tagged tag (type.respan f) (f s)
  | .major major constraint s => .major major constraint (f s)
  | .any s => .any (f s)

def Group.respan (f : Option Span → Option Span) : Group → Group
  | ⟨choices, s⟩ => ⟨respanGroupChoices f choices, f s⟩

def respanGroupChoices (f : Option Span → Option Span) : List GroupChoice → List GroupChoice
  | [] => []
  | c :: cs => c.respan f :: respanGroupChoices f cs

def GroupChoice.respan (f : Option Span → Option Span) : GroupChoice → GroupChoice
  | ⟨entries, s⟩ => ⟨respanListedEntries f entries, f s⟩

def respanListedEntries (f : Option Span → Option Span) : List ListedEntry → List ListedEntry
  | [] => []
  | e :: es => e.respan f :: respanListedEntries f es

def ListedEntry.respan (f : Option Span → Option Span) : ListedEntry → ListedEntry
  | ⟨entry, comma⟩ => ⟨entry.respan f, comma⟩

def GroupEntry.respan (f : Option Span → Option Span) : GroupEntry → GroupEntry
  | .keyed entry s => .keyed (entry.respan f) (f s)
  | .named entry s => .named (entry.respan f) (f s)
  | .inline occurrence group s => .inline (occurrence.map (Occurrence.respan f)) (group.respan f) (f s)

def KeyedEntry.respan (f : Option Span → Option Span) : KeyedEntry → KeyedEntry
  | ⟨occurrence, key, type, s⟩ => ⟨occurrence.map (Occurrence.respan f), respanKey f key, type.respan f, f s⟩

def respanKey (f : Option Span → Option Span) : Option MemberKey → Option MemberKey
  | none => none
  | some k => some (k.respan f)

def NamedEntry.respan (f : Option Span → Option Span) : NamedEntry → NamedEntry
  | ⟨occurrence, name, args, s⟩ => ⟨occurrence.map (Occurrence.respan f), name.respan f, respanArgs f args, f s⟩

def MemberKey.respan (f : Option Span → Option Span) : MemberKey → MemberKey
  | .type1 type1 cut s => .type1 (type1.respan f) cut (f s)
  | .bareword ident s => .bareword (ident.respan f) (f s)
  | .literal v s => .literal v (f s)
  | .enclosed key s => .enclosed (key.respan f) (f s)

def NonMemberKey.respan (f : Option Span → Option Span) : NonMemberKey → NonMemberKey
  | .group group s => .group (group.respan f) (f s)
  | .type type s => .type (type.respan f) (f s)

def respanArgs (f : Option Span → Option Span) : Option GenericArgs → Option GenericArgs
  | none => none
  | some a => some (a.respan f)

def GenericArgs.respan (f : Option Span → Option Span) : GenericArgs → GenericArgs
  | ⟨args, s⟩ => ⟨respanGenericArgs f args, f s⟩

def respanGenericArgs (f : Option Span → Option Span) : List GenericArg → List GenericArg
  | [] => []
  | a :: as => a.respan f :: respanGenericArgs f as

def GenericArg.respan (f : Option Span → Option Span) : GenericArg → GenericArg
  | ⟨arg, s⟩ => ⟨arg.respan f, f s⟩

end

def TypeRule.respan (f : Option Span → Option Span) (r : TypeRule) : TypeRule :=
  ⟨r.name.respan f, r.params.map (GenericParams.respan f), r.adds, r.value.respan f, f r.span⟩

def GroupRule.respan (f : Option Span → Option Span) (r : GroupRule) : GroupRule :=
  ⟨r.name.respan f, r.params.map (GenericParams.respan f), r.adds, r.entry.respan f, f r.span⟩

def RuleBody.respan (f : Option Span → Option Span) : RuleBody → RuleBody
  | .type r => .type (r.respan f)
  | .group r => .group (r.respan f)

def Rule.respan (f : Option Span → Option Span) (r : Rule) : Rule := ⟨r.body.respan f, f r.span⟩

section
variable (f : Option Span → Option Span)

@[simp] theorem respanTypeChoices_eq_map (cs : List TypeChoice) : respanTypeChoices f cs = cs.map (·.respan f) := by
  induction cs with
  | nil => rfl
  | cons c cs ih => rw [respanTypeChoices, ih, List.map_cons]

@[simp] theorem respanGroupChoices_eq_map (cs : List GroupChoice) : respanGroupChoices f cs = cs.map (·.respan f) := by
  induction cs with
  | nil => rfl
  | cons c cs ih => rw [respanGroupChoices, ih, List.map_cons]

@[simp] theorem respanListedEntries_eq_map (es : List ListedEntry) :
    respanListedEntries f es = es.map (·.respan f) := by
  induction es with
  | nil => rfl
  | cons e es ih => rw [respanListedEntries, ih, List.map_cons]

@[simp] theorem respanGenericArgs_eq_map (as : List GenericArg) : respanGenericArgs f as = as.map (·.respan f) := by
  induction as with
  | nil => rfl
  | cons a as ih => rw [respanGenericArgs, ih, List.map_cons]

@[simp] theorem respanArgs_eq_map (a : Option GenericArgs) : respanArgs f a = a.map (·.respan f) := by
  cases a <;> rfl

@[simp] theorem respanKey_eq_map (k : Option MemberKey) : respanKey f k = k.map (·.respan f) := by
  cases k <;> rfl

/-! ## The span of what has been gone through -/

@[simp] theorem Type1.span_respan (t : Type1) : (t.respan f).span = f t.span := by cases t; rfl

@[simp] theorem Group.span_respan (g : Group) : (g.respan f).span = f g.span := by cases g; rfl

end

/-! ## The same places -/

@[simp] theorem Identifier.respan_id (i : Identifier) : i.respan id = i := rfl

@[simp] theorem Occurrence.respan_id (o : Occurrence) : o.respan id = o := rfl

@[simp] theorem map_respan_id (o : Option Occurrence) : o.map (Occurrence.respan id) = o := by cases o <;> rfl

mutual

theorem TypeExpr.respan_id : ∀ t : TypeExpr, t.respan id = t
  | ⟨cs, _⟩ => by rw [TypeExpr.respan, respanTypeChoices_id cs, id]

theorem respanTypeChoices_id : ∀ cs : List TypeChoice, respanTypeChoices id cs = cs
  | [] => rfl
  | c :: cs => by rw [respanTypeChoices, TypeChoice.respan_id c, respanTypeChoices_id cs]

theorem TypeChoice.respan_id : ∀ c : TypeChoice, c.respan id = c
  | ⟨t, _⟩ => by rw [TypeChoice.respan, Type1.respan_id t, id]

theorem Type1.respan_id : ∀ t : Type1, t.respan id = t
  | ⟨t, o, _⟩ => by rw [Type1.respan, Type2.respan_id t, respanOperator_id o, id]

theorem respanOperator_id : ∀ o : Option Operator, respanOperator id o = o
  | none => rfl
  | some o => by rw [respanOperator, Operator.respan_id o]

theorem Operator.respan_id : ∀ o : Operator, o.respan id = o
  | ⟨_, t, _⟩ => by rw [Operator.respan, Type2.respan_id t, id]

theorem Type2.respan_id : ∀ t : Type2, t.respan id = t
  | .literal _ _ => rfl
  | .typename i a _ => by rw [Type2.respan, i.respan_id, respanArgs_id a, id]
  | .parenthesized t _ => by rw [Type2.respan, TypeExpr.respan_id t, id]
  | .map g _ => by rw [Type2.respan, Group.respan_id g, id]
  | .array g _ => by rw [Type2.respan, Group.respan_id g, id]
  | .unwrap i a _ => by rw [Type2.respan, i.respan_id, respanArgs_id a, id]
  | .choiceFromInlineGroup g _ => by rw [Type2.respan, Group.respan_id g, id]
  | .choiceFromGroup i a _ => by rw [Type2.respan, i.respan_id, respanArgs_id a, id]
  | .tagged _ t _ => by rw [Type2.respan, TypeExpr.respan_id t, id]
  | .major _ _ _ => rfl
  | .any _ => rfl

theorem Group.respan_id : ∀ g : Group, g.respan id = g
  | ⟨cs, _⟩ => by rw [Group.respan, respanGroupChoices_id cs, id]

theorem respanGroupChoices_id : ∀ cs : List GroupChoice, respanGroupChoices id cs = cs
  | [] => rfl
  | c :: cs => by rw [respanGroupChoices, GroupChoice.respan_id c, respanGroupChoices_id cs]

theorem GroupChoice.respan_id : ∀ c : GroupChoice, c.respan id = c
  | ⟨es, _⟩ => by rw [GroupChoice.respan, respanListedEntries_id es, id]

theorem respanListedEntries_id : ∀ es : List ListedEntry, respanListedEntries id es = es
  | [] => rfl
  | e :: es => by rw [respanListedEntries, ListedEntry.respan_id e, respanListedEntries_id es]

theorem ListedEntry.respan_id : ∀ e : ListedEntry, e.respan id = e
  | ⟨e, _⟩ => by rw [ListedEntry.respan, GroupEntry.respan_id e]

theorem GroupEntry.respan_id : ∀ e : GroupEntry, e.respan id = e
  | .keyed e _ => by rw [GroupEntry.respan, KeyedEntry.respan_id e, id]
  | .named e _ => by rw [GroupEntry.respan, NamedEntry.respan_id e, id]
  | .inline o g _ => by rw [GroupEntry.respan, map_respan_id o, Group.respan_id g, id]

theorem KeyedEntry.respan_id : ∀ e : KeyedEntry, e.respan id = e
  | ⟨o, k, t, _⟩ => by rw [KeyedEntry.respan, map_respan_id o, respanKey_id k, TypeExpr.respan_id t, id]

theorem respanKey_id : ∀ k : Option MemberKey, respanKey id k = k
  | none => rfl
  | some k => by rw [respanKey, MemberKey.respan_id k]

theorem NamedEntry.respan_id : ∀ e : NamedEntry, e.respan id = e
  | ⟨o, i, a, _⟩ => by rw [NamedEntry.respan, map_respan_id o, i.respan_id, respanArgs_id a, id]

theorem MemberKey.respan_id : ∀ k : MemberKey, k.respan id = k
  | .type1 t _ _ => by rw [MemberKey.respan, Type1.respan_id t, id]
  | .bareword _ _ => rfl
  | .literal _ _ => rfl
  | .enclosed k _ => by rw [MemberKey.respan, NonMemberKey.respan_id k, id]

theorem NonMemberKey.respan_id : ∀ k : NonMemberKey, k.respan id = k
  | .group g _ => by rw [NonMemberKey.respan, Group.respan_id g, id]
  | .type t _ => by rw [NonMemberKey.respan, TypeExpr.respan_id t, id]

theorem respanArgs_id : ∀ a : Option GenericArgs, respanArgs id a = a
  | none => rfl
  | some a => by rw [respanArgs, GenericArgs.respan_id a]

theorem GenericArgs.respan_id : ∀ a : GenericArgs, a.respan id = a
  | ⟨as, _⟩ => by rw [GenericArgs.respan, respanGenericArgs_id as, id]

theorem respanGenericArgs_id : ∀ as : List GenericArg, respanGenericArgs id as = as
  | [] => rfl
  | a :: as => by rw [respanGenericArgs, GenericArg.respan_id a, respanGenericArgs_id as]

theorem GenericArg.respan_id : ∀ a : GenericArg, a.respan id = a
  | ⟨t, _⟩ => by rw [GenericArg.respan, Type1.respan_id t, id]

end

/-! ## No places -/

/-- What erases every span. -/
def noSpan (_ : Option Span) : Option Span := none

mutual

theorem TypeExpr.respan_noSpan : ∀ t : TypeExpr, t.respan noSpan = t.erase
  | ⟨cs, _⟩ => by rw [TypeExpr.respan, TypeExpr.erase, respanTypeChoices_noSpan cs, noSpan]

theorem respanTypeChoices_noSpan : ∀ cs : List TypeChoice, respanTypeChoices noSpan cs = eraseTypeChoices cs
  | [] => rfl
  | c :: cs => by
    rw [respanTypeChoices, eraseTypeChoices, TypeChoice.respan_noSpan c, respanTypeChoices_noSpan cs]

theorem TypeChoice.respan_noSpan : ∀ c : TypeChoice, c.respan noSpan = c.erase
  | ⟨t, _⟩ => by rw [TypeChoice.respan, TypeChoice.erase, Type1.respan_noSpan t, noSpan]

theorem Type1.respan_noSpan : ∀ t : Type1, t.respan noSpan = t.erase
  | ⟨t, o, _⟩ => by rw [Type1.respan, Type1.erase, Type2.respan_noSpan t, respanOperator_noSpan o, noSpan]

theorem respanOperator_noSpan : ∀ o : Option Operator, respanOperator noSpan o = eraseOperator o
  | none => rfl
  | some o => by rw [respanOperator, eraseOperator, Operator.respan_noSpan o]

theorem Operator.respan_noSpan : ∀ o : Operator, o.respan noSpan = o.erase
  | ⟨_, t, _⟩ => by rw [Operator.respan, Operator.erase, Type2.respan_noSpan t, noSpan]

theorem Type2.respan_noSpan : ∀ t : Type2, t.respan noSpan = t.erase
  | .literal _ _ => rfl
  | .typename _ a _ => by rw [Type2.respan, Type2.erase, respanArgs_noSpan a]; rfl
  | .parenthesized t _ => by rw [Type2.respan, Type2.erase, TypeExpr.respan_noSpan t, noSpan]
  | .map g _ => by rw [Type2.respan, Type2.erase, Group.respan_noSpan g, noSpan]
  | .array g _ => by rw [Type2.respan, Type2.erase, Group.respan_noSpan g, noSpan]
  | .unwrap _ a _ => by rw [Type2.respan, Type2.erase, respanArgs_noSpan a]; rfl
  | .choiceFromInlineGroup g _ => by rw [Type2.respan, Type2.erase, Group.respan_noSpan g, noSpan]
  | .choiceFromGroup _ a _ => by rw [Type2.respan, Type2.erase, respanArgs_noSpan a]; rfl
  | .tagged _ t _ => by rw [Type2.respan, Type2.erase, TypeExpr.respan_noSpan t, noSpan]
  | .major _ _ _ => rfl
  | .any _ => rfl

theorem Group.respan_noSpan : ∀ g : Group, g.respan noSpan = g.erase
  | ⟨cs, _⟩ => by rw [Group.respan, Group.erase, respanGroupChoices_noSpan cs, noSpan]

theorem respanGroupChoices_noSpan : ∀ cs : List GroupChoice, respanGroupChoices noSpan cs = eraseGroupChoices cs
  | [] => rfl
  | c :: cs => by
    rw [respanGroupChoices, eraseGroupChoices, GroupChoice.respan_noSpan c, respanGroupChoices_noSpan cs]

theorem GroupChoice.respan_noSpan : ∀ c : GroupChoice, c.respan noSpan = c.erase
  | ⟨es, _⟩ => by rw [GroupChoice.respan, GroupChoice.erase, respanListedEntries_noSpan es, noSpan]

theorem respanListedEntries_noSpan : ∀ es : List ListedEntry, respanListedEntries noSpan es = eraseListedEntries es
  | [] => rfl
  | e :: es => by
    rw [respanListedEntries, eraseListedEntries, ListedEntry.respan_noSpan e, respanListedEntries_noSpan es]

theorem ListedEntry.respan_noSpan : ∀ e : ListedEntry, e.respan noSpan = e.erase
  | ⟨e, _⟩ => by rw [ListedEntry.respan, ListedEntry.erase, GroupEntry.respan_noSpan e]

theorem GroupEntry.respan_noSpan : ∀ e : GroupEntry, e.respan noSpan = e.erase
  | .keyed e _ => by rw [GroupEntry.respan, GroupEntry.erase, KeyedEntry.respan_noSpan e, noSpan]
  | .named e _ => by rw [GroupEntry.respan, GroupEntry.erase, NamedEntry.respan_noSpan e, noSpan]
  | .inline _ g _ => by rw [GroupEntry.respan, GroupEntry.erase, Group.respan_noSpan g]; rfl

theorem KeyedEntry.respan_noSpan : ∀ e : KeyedEntry, e.respan noSpan = e.erase
  | ⟨_, k, t, _⟩ => by
    rw [KeyedEntry.respan, KeyedEntry.erase, respanKey_noSpan k, TypeExpr.respan_noSpan t]
    rfl

theorem respanKey_noSpan : ∀ k : Option MemberKey, respanKey noSpan k = eraseKey k
  | none => rfl
  | some k => by rw [respanKey, eraseKey, MemberKey.respan_noSpan k]

theorem NamedEntry.respan_noSpan : ∀ e : NamedEntry, e.respan noSpan = e.erase
  | ⟨_, _, a, _⟩ => by
    rw [NamedEntry.respan, NamedEntry.erase, respanArgs_noSpan a]
    rfl

theorem MemberKey.respan_noSpan : ∀ k : MemberKey, k.respan noSpan = k.erase
  | .type1 t _ _ => by rw [MemberKey.respan, MemberKey.erase, Type1.respan_noSpan t, noSpan]
  | .bareword _ _ => rfl
  | .literal _ _ => rfl
  | .enclosed k _ => by rw [MemberKey.respan, MemberKey.erase, NonMemberKey.respan_noSpan k, noSpan]

theorem NonMemberKey.respan_noSpan : ∀ k : NonMemberKey, k.respan noSpan = k.erase
  | .group g _ => by rw [NonMemberKey.respan, NonMemberKey.erase, Group.respan_noSpan g, noSpan]
  | .type t _ => by rw [NonMemberKey.respan, NonMemberKey.erase, TypeExpr.respan_noSpan t, noSpan]

theorem respanArgs_noSpan : ∀ a : Option GenericArgs, respanArgs noSpan a = eraseArgs a
  | none => rfl
  | some a => by rw [respanArgs, eraseArgs, GenericArgs.respan_noSpan a]

theorem GenericArgs.respan_noSpan : ∀ a : GenericArgs, a.respan noSpan = a.erase
  | ⟨as, _⟩ => by rw [GenericArgs.respan, GenericArgs.erase, respanGenericArgs_noSpan as, noSpan]

theorem respanGenericArgs_noSpan : ∀ as : List GenericArg, respanGenericArgs noSpan as = eraseGenericArgs as
  | [] => rfl
  | a :: as => by rw [respanGenericArgs, eraseGenericArgs, GenericArg.respan_noSpan a, respanGenericArgs_noSpan as]

theorem GenericArg.respan_noSpan : ∀ a : GenericArg, a.respan noSpan = a.erase
  | ⟨t, _⟩ => by rw [GenericArg.respan, GenericArg.erase, Type1.respan_noSpan t, noSpan]

end

/-! ## Rules -/

theorem GenericParams.respan_id (p : GenericParams) : p.respan id = p := by
  obtain ⟨ps, s⟩ := p
  have : ps.map (·.respan id) = ps := List.map_id' ps
  rw [GenericParams.respan, this, id]

theorem map_params_respan_id (p : Option GenericParams) : p.map (GenericParams.respan id) = p := by
  cases p with
  | none => rfl
  | some p => exact congrArg some p.respan_id

theorem Rule.respan_id (r : Rule) : r.respan id = r := by
  obtain ⟨⟨r⟩ | ⟨r⟩, s⟩ := r
  · simp only [Rule.respan, RuleBody.respan, TypeRule.respan, Identifier.respan_id, map_params_respan_id,
      TypeExpr.respan_id, id]
  · simp only [Rule.respan, RuleBody.respan, GroupRule.respan, Identifier.respan_id, map_params_respan_id,
      GroupEntry.respan_id, id]

theorem Rule.respan_noSpan : ∀ r : Rule, r.respan noSpan = r.erase
  | ⟨.type ⟨_, _, _, t, _⟩, _⟩ => by
    simp only [Rule.respan, RuleBody.respan, TypeRule.respan, t.respan_noSpan]
    rfl
  | ⟨.group ⟨_, _, _, e, _⟩, _⟩ => by
    simp only [Rule.respan, RuleBody.respan, GroupRule.respan, e.respan_noSpan]
    rfl

/-! ## What the grammar makes of trees -/

section
variable (f : Option Span → Option Span)

theorem soleOf?_respan : ∀ es : List ListedEntry,
    (soleOf? es).map (GroupEntry.respan f) = soleOf? (respanListedEntries f es)
  | [] | [⟨_, _⟩] | _ :: _ :: _ => rfl

theorem sole?_respan : ∀ g : Group, g.sole?.map (GroupEntry.respan f) = (g.respan f).sole?
  | ⟨[], _⟩ | ⟨_ :: _ :: _, _⟩ => rfl
  | ⟨[⟨es, _⟩], _⟩ => soleOf?_respan f es

theorem type?_respan (e : GroupEntry) : e.type?.map (TypeExpr.respan f) = (e.respan f).type? := by
  cases e with
  | keyed e _ =>
    obtain ⟨occurrence, key, type, _⟩ := e
    cases occurrence <;> cases key <;> rfl
  | named e _ =>
    obtain ⟨occurrence, name, args, _⟩ := e
    cases occurrence <;> rfl
  | inline => rfl

namespace Production

theorem colonKey?_respan (t : Type1) : (colonKey? t).map (MemberKey.respan f) = colonKey? (t.respan f) := by
  obtain ⟨operand, operator, _⟩ := t
  cases operator with
  | some o => cases operand <;> rfl
  | none =>
    cases operand with
    | typename ident args _ => cases args <;> rfl
    | _ => rfl

theorem enclosedKey_respan (g : Group) : (enclosedKey g).respan f = enclosedKey (g.respan f) := by
  rw [enclosedKey_eq, enclosedKey_eq, ← sole?_respan, Group.span_respan]
  cases g.sole? with
  | none => rfl
  | some e =>
    simp only [Option.map_some, Option.bind_some]
    rw [← type?_respan]
    cases e.type? with
    | none => rfl
    | some type => rfl

end Production
end

/-! ## What the grammar makes of erased trees -/

theorem type?_erase (e : GroupEntry) : e.type?.map TypeExpr.erase = e.erase.type? := by
  rw [← e.respan_noSpan, ← type?_respan, funext TypeExpr.respan_noSpan]

namespace Production

theorem colonKey?_erase (t : Type1) : (colonKey? t).map MemberKey.erase = colonKey? t.erase := by
  rw [← t.respan_noSpan, ← colonKey?_respan, funext MemberKey.respan_noSpan]

/-- A key is read from a type again if it was read from one that says the same. -/
theorem exists_colonKey {t u : Type1} {key : MemberKey} (h : colonKey? t = some key) (same : u.erase = t.erase) :
    ∃ key', colonKey? u = some key' ∧ key'.erase = key.erase := by
  have erased := colonKey?_erase u
  rw [same, ← colonKey?_erase, h] at erased
  exact Option.map_eq_some_iff.1 erased

theorem erase_enclosedKey (g : Group) : (enclosedKey g).erase = enclosedKey g.erase := by
  rw [← NonMemberKey.respan_noSpan, enclosedKey_respan, g.respan_noSpan]

end Production

end Cddl
