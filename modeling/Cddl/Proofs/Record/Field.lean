import Cddl.Proofs.Datum.Same
import Cddl.Proofs.Text
import Cddl.Schema.Record
import Mathlib.Data.List.Forall2
/-!
# The fields of a record

A record is told by what stands under each of its names.  The names of fields are compared as they are spelled, so what
stands under a name follows from the record alone (`get?_nodeRecord`).  `Datum.Telling` says what a way to compare data
has to respect for records to be told apart by it.
-/
namespace Cddl

/-! ## Names -/

namespace Text

theorem ofChar_ne_nil (c : Char) : ofChar c ≠ [] := by
  unfold ofChar
  split <;> exact List.cons_ne_nil _ _

/-- A character is told from what follows it, since none has the units of half a pair. -/
theorem ofChar_append_inj {c d : Char} {s t : Text} (h : ofChar c ++ s = ofChar d ++ t) : c = d ∧ s = t := by
  have hc : c.toNat < 0xD800 ∨ 0xDFFF < c.toNat ∧ c.toNat < 0x110000 := c.valid
  have hd : d.toNat < 0xD800 ∨ 0xDFFF < d.toNat ∧ d.toNat < 0x110000 := d.valid
  have units {m n : Nat} (hu : UInt16.ofNat m = UInt16.ofNat n) : m % 65536 = n % 65536 := by
    have := congrArg UInt16.toNat hu
    rwa [UInt16.toNat_ofNat', UInt16.toNat_ofNat'] at this
  unfold ofChar at h
  by_cases small : c.toNat < 0x10000 <;> by_cases small' : d.toNat < 0x10000 <;>
    simp only [small, small', if_true, if_false, List.cons_append, List.nil_append, List.cons.injEq] at h
  · obtain ⟨u, rest⟩ := h
    exact ⟨Char.toNat_inj.1 (by have := units u; omega), rest⟩
  · have := units h.1
    omega
  · have := units h.1
    omega
  · obtain ⟨u, v, rest⟩ := h
    exact ⟨Char.toNat_inj.1 (by have := units u; have := units v; omega), rest⟩

theorem flatMap_ofChar_injective : ∀ {cs ds : List Char}, cs.flatMap ofChar = ds.flatMap ofChar → cs = ds
  | [], [], _ => rfl
  | [], d :: ds, h => absurd (List.append_eq_nil_iff.1 h.symm).1 (ofChar_ne_nil d)
  | c :: cs, [], h => absurd (List.append_eq_nil_iff.1 h).1 (ofChar_ne_nil c)
  | c :: cs, d :: ds, h => by
    obtain ⟨rfl, rest⟩ := ofChar_append_inj h
    rw [flatMap_ofChar_injective rest]

@[simp] theorem ofString_inj {s t : String} : ofString s = ofString t ↔ s = t :=
  ⟨fun h => String.toList_inj.1 (flatMap_ofChar_injective h), congrArg ofString⟩

end Text

/-! ## What stands under a name -/

namespace Datum

variable {α : Type}

/-- Data, if it is there. -/
def there? : Datum → Option Datum
  | .absent => none
  | d => some d

@[simp] theorem there?_text (t : Text) : (text t).there? = some (text t) := rfl

@[simp] theorem there?_bool (b : Bool) : (bool b).there? = some (bool b) := rfl

@[simp] theorem there?_int (n : Int) : (int n).there? = some (int n) := rfl

@[simp] theorem there?_float (x : Binary64) : (float x).there? = some (float x) := rfl

@[simp] theorem there?_decimal (n : Int) : (decimal n).there? = some (decimal n) := rfl

@[simp] theorem there?_array (ds : List Datum) : (array ds).there? = some (array ds) := rfl

@[simp] theorem there?_object (fs : List (Text × Datum)) : (object fs).there? = some (object fs) := rfl

@[simp] theorem value?_nil (name : Text) : value? [] name = none := rfl

@[simp] theorem value?_append (fs gs : List (Text × Datum)) (name : Text) :
    value? (fs ++ gs) name = (value? fs name).or (value? gs name) := by
  rw [value?, present, List.filter_append, List.lookup_append]
  rfl

@[simp] theorem value?_cons (key name : String) (d : Datum) (fs : List (Text × Datum)) :
    value? ((Text.ofString key, d) :: fs) (Text.ofString name) =
      (if name = key then d.there? else none).or (value? fs (Text.ofString name)) := by
  by_cases h : name = key
  · subst h
    cases d <;> simp [value?, present, isAbsent, there?]
  · have apart : (Text.ofString name == Text.ofString key) = false := by simpa using h
    cases d <;> simp [value?, present, isAbsent, List.lookup_cons, h, apart]

@[simp] theorem value?_field (key name : String) (d : Datum) :
    value? (field key d) (Text.ofString name) = if name = key then d.there? else none := by
  rw [field, value?_cons, value?_nil, Option.or_none]

@[simp] theorem value?_field? (key name : String) (v : Option Datum) :
    value? (field? key v) (Text.ofString name) = if name = key then v.bind there? else none := by
  cases v with
  | none => simp [field?]
  | some d => exact value?_field key name d

/-- What stands under a name of an object. -/
def get? (name : String) : Datum → Option Datum
  | .object fields => value? fields (Text.ofString name)
  | _ => none

@[simp] theorem get?_object (fs : List (Text × Datum)) (name : String) :
    (object fs).get? name = value? fs (Text.ofString name) := rfl

/-! ## Ways to tell data apart -/

/-- A way to compare data that respects its parts: words, numbers and signs are compared as they are, lists item by
item, and objects by what stands under each name.  Of floating-point numbers only the given ones need to be told
apart. -/
structure Telling (numbers : Binary64 → Prop) (R : Datum → Datum → Prop) : Prop where
  text {s t : Text} : R (.text s) (.text t) → s = t
  bool {b c : Bool} : R (.bool b) (.bool c) → b = c
  int {n m : Int} : R (.int n) (.int m) → n = m
  float {x y : Binary64} : numbers x → numbers y → R (.float x) (.float y) → x = y
  array {ds es : List Datum} : R (.array ds) (.array es) → List.Forall₂ R ds es
  get {d e : Datum} (name : String) : R d e → Option.Rel R (d.get? name) (e.get? name)

namespace Telling

variable {numbers : Binary64 → Prop} {R : Datum → Datum → Prop} (telling : Telling numbers R)
include telling

theorem word {s t : String} (h : R (.text s) (.text t)) : s = t := Text.ofString_inj.1 (telling.text h)

theorem decimal {n m : Int} (h : R (Datum.decimal n) (Datum.decimal m)) : n = m := Text.ofInt_injective (telling.text h)

omit telling in
/-- What may be there is told if it is told where it is there. -/
theorem option {r : α → Datum} (there : ∀ a, (r a).there? = some (r a)) {o o' : Option α}
    (inj : ∀ a ∈ o, ∀ b ∈ o', R (r a) (r b) → a = b)
    (h : Option.Rel R ((o.map r).bind there?) ((o'.map r).bind there?)) : o = o' := by
  cases o with
  | none =>
    cases o' with
    | none => rfl
    | some b => simp [there] at h
  | some a =>
    cases o' with
    | none => simp [there] at h
    | some b => rw [inj a rfl b rfl (by simpa [there] using h)]

/-- A list is told if its items are. -/
theorem list {r : α → Datum} : ∀ {xs ys : List α}, (∀ a ∈ xs, ∀ b ∈ ys, R (r a) (r b) → a = b) →
    R (.array (xs.map r)) (.array (ys.map r)) → xs = ys := by
  intro xs ys inj h
  have items := telling.array h
  rw [List.forall₂_map_left_iff, List.forall₂_map_right_iff] at items
  clear h
  induction items with
  | nil => rfl
  | @cons x y xs ys first _ ih =>
    rw [inj x List.mem_cons_self y List.mem_cons_self first,
      ih fun a ha b hb => inj a (List.mem_cons_of_mem _ ha) b (List.mem_cons_of_mem _ hb)]

end Telling
end Datum

@[simp] theorem get?_nodeRecord (kind name : String) (fs : List (Text × Datum)) (s : Option Span) :
    (nodeRecord kind fs s).get? name =
      if name = "kind" then some (.text kind)
      else (Datum.value? fs (Text.ofString name)).or
        (if name = "span" then (s.map Span.record).bind Datum.there? else none) := by
  rw [nodeRecord, Datum.get?_object]
  by_cases h : name = "kind" <;> simp [h]

end Cddl
