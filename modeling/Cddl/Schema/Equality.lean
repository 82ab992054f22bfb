import Cddl.Schema
/-!
# Equality of nodes

Nodes are equal if they have the same parts, spans included.  `same` compares two nodes part by part and stops at the
first difference; `same_iff` says that it decides equality.
-/
namespace Cddl

mutual

def TypeExpr.same : TypeExpr → TypeExpr → Bool
  | ⟨cs, s⟩, ⟨cs', s'⟩ => sameTypeChoices cs cs' && s == s'

def sameTypeChoices : List TypeChoice → List TypeChoice → Bool
  | [], [] => true
  | c :: cs, c' :: cs' => c.same c' && sameTypeChoices cs cs'
  | _, _ => false

def TypeChoice.same : TypeChoice → TypeChoice → Bool
  | ⟨t, s⟩, ⟨t', s'⟩ => t.same t' && s == s'

def Type1.same : Type1 → Type1 → Bool
  | ⟨t, o, s⟩, ⟨t', o', s'⟩ => t.same t' && sameOperator o o' && s == s'

def sameOperator : Option Operator → Option Operator → Bool
  | none, none => true
  | some o, some o' => o.same o'
  | _, _ => false

def Operator.same : Operator → Operator → Bool
  | ⟨x, t, s⟩, ⟨x', t', s'⟩ => x == x' && t.same t' && s == s'

def Type2.same : Type2 → Type2 → Bool
  | .literal v s, .literal v' s' => v == v' && s == s'
  | .typename i a s, .typename i' a' s' => i == i' && sameArgs a a' && s == s'
  | .parenthesized t s, .parenthesized t' s' => t.same t' && s == s'
  | .map g s, .map g' s' => g.same g' && s == s'
  | .array g s, .array g' s' => g.same g' && s == s'
  | .unwrap i a s, .unwrap i' a' s' => i == i' && sameArgs a a' && s == s'
  | .choiceFromInlineGroup g s, .choiceFromInlineGroup g' s' => g.same g' && s == s'
  | .choiceFromGroup i a s, .choiceFromGroup i' a' s' => i == i' && sameArgs a a' && s == s'
  | .tagged n t s, .tagged n' t' s' => n == n' && t.same t' && s == s'
  | .major m n s, .major m' n' s' => m == m' && n == n' && s == s'
  | .any s, .any s' => s == s'
  | _, _ => false

def Group.same : Group → Group → Bool
  | ⟨cs, s⟩, ⟨cs', s'⟩ => sameGroupChoices cs cs' && s == s'

def sameGroupChoices : List GroupChoice → List GroupChoice → Bool
  | [], [] => true
  | c :: cs, c' :: cs' => c.same c' && sameGroupChoices cs cs'
  | _, _ => false

def GroupChoice.same : GroupChoice → GroupChoice → Bool
  | ⟨es, s⟩, ⟨es', s'⟩ => sameListedEntries es es' && s == s'

def sameListedEntries : List ListedEntry → List ListedEntry → Bool
  | [], [] => true
  | e :: es, e' :: es' => e.same e' && sameListedEntries es es'
  | _, _ => false

def ListedEntry.same : ListedEntry → ListedEntry → Bool
  | ⟨e, c⟩, ⟨e', c'⟩ => e.same e' && c == c'

def GroupEntry.same : GroupEntry → GroupEntry → Bool
  | .keyed e s, .keyed e' s' => e.same e' && s == s'
  | .named e s, .named e' s' => e.same e' && s == s'
  | .inline o g s, .inline o' g' s' => o == o' && g.same g' && s == s'
  | _, _ => false

def KeyedEntry.same : KeyedEntry → KeyedEntry → Bool
  | ⟨o, k, t, s⟩, ⟨o', k', t', s'⟩ => o == o' && sameKey k k' && t.same t' && s == s'

def sameKey : Option MemberKey → Option MemberKey → Bool
  | none, none => true
  | some k, some k' => k.same k'
  | _, _ => false

def NamedEntry.same : NamedEntry → NamedEntry → Bool
  | ⟨o, i, a, s⟩, ⟨o', i', a', s'⟩ => o == o' && i == i' && sameArgs a a' && s == s'

def MemberKey.same : MemberKey → MemberKey → Bool
  | .type1 t c s, .type1 t' c' s' => t.same t' && c == c' && s == s'
  | .bareword i s, .bareword i' s' => i == i' && s == s'
  | .literal v s, .literal v' s' => v == v' && s == s'
  | .enclosed k s, .enclosed k' s' => k.same k' && s == s'
  | _, _ => false

def NonMemberKey.same : NonMemberKey → NonMemberKey → Bool
  | .group g s, .group g' s' => g.same g' && s == s'
  | .type t s, .type t' s' => t.same t' && s == s'
  | _, _ => false

def sameArgs : Option GenericArgs → Option GenericArgs → Bool
  | none, none => true
  | some a, some a' => a.same a'
  | _, _ => false

def GenericArgs.same : GenericArgs → GenericArgs → Bool
  | ⟨as, s⟩, ⟨as', s'⟩ => sameGenericArgs as as' && s == s'

def sameGenericArgs : List GenericArg → List GenericArg → Bool
  | [], [] => true
  | a :: as, a' :: as' => a.same a' && sameGenericArgs as as'
  | _, _ => false

def GenericArg.same : GenericArg → GenericArg → Bool
  | ⟨t, s⟩, ⟨t', s'⟩ => t.same t' && s == s'

end

/-! ## The comparison decides equality -/

mutual

theorem TypeExpr.same_iff : ∀ a b : TypeExpr, a.same b = true ↔ a = b
  | ⟨cs, _⟩, ⟨_, _⟩ => by simp [TypeExpr.same, sameTypeChoices_iff cs]

theorem sameTypeChoices_iff : ∀ as bs : List TypeChoice, sameTypeChoices as bs = true ↔ as = bs
  | [], bs => by cases bs <;> simp [sameTypeChoices]
  | c :: cs, bs => by cases bs <;> simp [sameTypeChoices, c.same_iff, sameTypeChoices_iff cs]

theorem TypeChoice.same_iff : ∀ a b : TypeChoice, a.same b = true ↔ a = b
  | ⟨t, _⟩, ⟨_, _⟩ => by simp [TypeChoice.same, t.same_iff]

theorem Type1.same_iff : ∀ a b : Type1, a.same b = true ↔ a = b
  | ⟨t, o, _⟩, ⟨_, _, _⟩ => by simp [Type1.same, t.same_iff, sameOperator_iff o, and_assoc]

theorem sameOperator_iff : ∀ a b : Option Operator, sameOperator a b = true ↔ a = b
  | none, b => by cases b <;> simp [sameOperator]
  | some o, b => by cases b <;> simp [sameOperator, o.same_iff]

theorem Operator.same_iff : ∀ a b : Operator, a.same b = true ↔ a = b
  | ⟨_, t, _⟩, ⟨_, _, _⟩ => by simp [Operator.same, t.same_iff, and_assoc]

theorem Type2.same_iff : ∀ a b : Type2, a.same b = true ↔ a = b
  | .literal _ _, b => by cases b <;> simp [Type2.same]
  | .typename _ a _, b => by cases b <;> simp [Type2.same, sameArgs_iff a, and_assoc]
  | .parenthesized t _, b => by cases b <;> simp [Type2.same, t.same_iff]
  | .map g _, b => by cases b <;> simp [Type2.same, g.same_iff]
  | .array g _, b => by cases b <;> simp [Type2.same, g.same_iff]
  | .unwrap _ a _, b => by cases b <;> simp [Type2.same, sameArgs_iff a, and_assoc]
  | .choiceFromInlineGroup g _, b => by cases b <;> simp [Type2.same, g.same_iff]
  | .choiceFromGroup _ a _, b => by cases b <;> simp [Type2.same, sameArgs_iff a, and_assoc]
  | .tagged _ t _, b => by cases b <;> simp [Type2.same, t.same_iff, and_assoc]
  | .major _ _ _, b => by cases b <;> simp [Type2.same, and_assoc]
  | .any _, b => by cases b <;> simp [Type2.same]

theorem Group.same_iff : ∀ a b : Group, a.same b = true ↔ a = b
  | ⟨cs, _⟩, ⟨_, _⟩ => by simp [Group.same, sameGroupChoices_iff cs]

theorem sameGroupChoices_iff : ∀ as bs : List GroupChoice, sameGroupChoices as bs = true ↔ as = bs
  | [], bs => by cases bs <;> simp [sameGroupChoices]
  | c :: cs, bs => by cases bs <;> simp [sameGroupChoices, c.same_iff, sameGroupChoices_iff cs]

theorem GroupChoice.same_iff : ∀ a b : GroupChoice, a.same b = true ↔ a = b
  | ⟨es, _⟩, ⟨_, _⟩ => by simp [GroupChoice.same, sameListedEntries_iff es]

theorem sameListedEntries_iff : ∀ as bs : List ListedEntry, sameListedEntries as bs = true ↔ as = bs
  | [], bs => by cases bs <;> simp [sameListedEntries]
  | e :: es, bs => by cases bs <;> simp [sameListedEntries, e.same_iff, sameListedEntries_iff es]

theorem ListedEntry.same_iff : ∀ a b : ListedEntry, a.same b = true ↔ a = b
  | ⟨e, _⟩, ⟨_, _⟩ => by simp [ListedEntry.same, e.same_iff]

theorem GroupEntry.same_iff : ∀ a b : GroupEntry, a.same b = true ↔ a = b
  | .keyed e _, b => by cases b <;> simp [GroupEntry.same, e.same_iff]
  | .named e _, b => by cases b <;> simp [GroupEntry.same, e.same_iff]
  | .inline _ g _, b => by cases b <;> simp [GroupEntry.same, g.same_iff, and_assoc]

theorem KeyedEntry.same_iff : ∀ a b : KeyedEntry, a.same b = true ↔ a = b
  | ⟨_, k, t, _⟩, ⟨_, _, _, _⟩ => by simp [KeyedEntry.same, sameKey_iff k, t.same_iff, and_assoc]

theorem sameKey_iff : ∀ a b : Option MemberKey, sameKey a b = true ↔ a = b
  | none, b => by cases b <;> simp [sameKey]
  | some k, b => by cases b <;> simp [sameKey, k.same_iff]

theorem NamedEntry.same_iff : ∀ a b : NamedEntry, a.same b = true ↔ a = b
  | ⟨_, _, a, _⟩, ⟨_, _, _, _⟩ => by simp [NamedEntry.same, sameArgs_iff a, and_assoc]

theorem MemberKey.same_iff : ∀ a b : MemberKey, a.same b = true ↔ a = b
  | .type1 t _ _, b => by cases b <;> simp [MemberKey.same, t.same_iff, and_assoc]
  | .bareword _ _, b => by cases b <;> simp [MemberKey.same]
  | .literal _ _, b => by cases b <;> simp [MemberKey.same]
  | .enclosed k _, b => by cases b <;> simp [MemberKey.same, k.same_iff]

theorem NonMemberKey.same_iff : ∀ a b : NonMemberKey, a.same b = true ↔ a = b
  | .group g _, b => by cases b <;> simp [NonMemberKey.same, g.same_iff]
  | .type t _, b => by cases b <;> simp [NonMemberKey.same, t.same_iff]

theorem sameArgs_iff : ∀ a b : Option GenericArgs, sameArgs a b = true ↔ a = b
  | none, b => by cases b <;> simp [sameArgs]
  | some a, b => by cases b <;> simp [sameArgs, a.same_iff]

theorem GenericArgs.same_iff : ∀ a b : GenericArgs, a.same b = true ↔ a = b
  | ⟨as, _⟩, ⟨_, _⟩ => by simp [GenericArgs.same, sameGenericArgs_iff as]

theorem sameGenericArgs_iff : ∀ as bs : List GenericArg, sameGenericArgs as bs = true ↔ as = bs
  | [], bs => by cases bs <;> simp [sameGenericArgs]
  | a :: as, bs => by cases bs <;> simp [sameGenericArgs, a.same_iff, sameGenericArgs_iff as]

theorem GenericArg.same_iff : ∀ a b : GenericArg, a.same b = true ↔ a = b
  | ⟨t, _⟩, ⟨_, _⟩ => by simp [GenericArg.same, t.same_iff]

end

instance : DecidableEq TypeExpr := fun a b => decidable_of_iff _ (a.same_iff b)

instance : DecidableEq TypeChoice := fun a b => decidable_of_iff _ (a.same_iff b)

instance : DecidableEq Type1 := fun a b => decidable_of_iff _ (a.same_iff b)

instance : DecidableEq Operator := fun a b => decidable_of_iff _ (a.same_iff b)

instance : DecidableEq Type2 := fun a b => decidable_of_iff _ (a.same_iff b)

instance : DecidableEq Group := fun a b => decidable_of_iff _ (a.same_iff b)

instance : DecidableEq GroupChoice := fun a b => decidable_of_iff _ (a.same_iff b)

instance : DecidableEq ListedEntry := fun a b => decidable_of_iff _ (a.same_iff b)

instance : DecidableEq GroupEntry := fun a b => decidable_of_iff _ (a.same_iff b)

instance : DecidableEq KeyedEntry := fun a b => decidable_of_iff _ (a.same_iff b)

instance : DecidableEq NamedEntry := fun a b => decidable_of_iff _ (a.same_iff b)

instance : DecidableEq MemberKey := fun a b => decidable_of_iff _ (a.same_iff b)

instance : DecidableEq NonMemberKey := fun a b => decidable_of_iff _ (a.same_iff b)

instance : DecidableEq GenericArgs := fun a b => decidable_of_iff _ (a.same_iff b)

instance : DecidableEq GenericArg := fun a b => decidable_of_iff _ (a.same_iff b)

deriving instance DecidableEq for TypeRule, GroupRule, RuleBody, Rule, Document

end Cddl
