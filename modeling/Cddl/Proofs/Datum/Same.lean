import Cddl.Datum.Key
/-!
# Structural equality of data

Data is the same if it has the same parts.  The order of an object's fields does not count, and a field that is not
there is no field.
-/
namespace Cddl

/-! ## The order of names -/

namespace Text

/-- The order of texts is the lexicographic one. -/
theorem le_iff : ∀ {s t : Text}, s.le t = true ↔ s ≤ t
  | [], t => ⟨fun _ => List.nil_le t, fun _ => rfl⟩
  | u :: s, [] => ⟨nofun, fun h => absurd (List.nil_lt_cons u s) h⟩
  | u :: s, v :: t => by
    rw [le, Bool.or_eq_true, decide_eq_true_iff, Bool.and_eq_true, beq_iff_eq, le_iff, List.cons_le_cons_iff]

/-- What is sorted by texts is in ascending order. -/
theorem pairwise_mergeSort {α : Type} (key : α → Text) (xs : List α) :
    (xs.mergeSort fun a b => (key a).le (key b)).Pairwise fun a b => key a ≤ key b := by
  refine (List.pairwise_mergeSort ?_ ?_ xs).imp fun h => le_iff.1 h
  · exact fun _ _ _ first second => le_iff.2 (List.le_trans (le_iff.1 first) (le_iff.1 second))
  · intro a b
    rw [Bool.or_eq_true, le_iff, le_iff]
    exact List.le_total _ _

/-- Where no name is listed twice, what is listed is what a look-up finds. -/
theorem lookup_eq_some_iff {β : Type} {name : Text} {d : β} {fs : List (Text × β)}
    (distinct : (fs.map Prod.fst).Nodup) : fs.lookup name = some d ↔ (name, d) ∈ fs := by
  induction fs with
  | nil => exact ⟨fun h => (by cases h), fun h => absurd h List.not_mem_nil⟩
  | cons f rest ih =>
    obtain ⟨other, e⟩ := f
    rw [List.map_cons, List.nodup_cons] at distinct
    rw [List.lookup_cons, List.mem_cons, Prod.mk.injEq]
    cases heq : name == other with
    | true =>
      have same := eq_of_beq heq
      subst same
      constructor
      · intro h
        cases h
        exact .inl ⟨rfl, rfl⟩
      · rintro (⟨_, rfl⟩ | mem)
        · rfl
        · exact absurd (List.mem_map_of_mem mem) distinct.1
    | false =>
      have apart := ne_of_beq_false heq
      exact (ih distinct.2).trans ⟨.inr, fun h => h.elim (fun h => absurd h.1 apart) id⟩

end Text

namespace Datum

/-! ## Fields -/

def isAbsent : Datum → Bool
  | .absent => true
  | _ => false

/-- The fields that are there. -/
def present (fields : List (Text × Datum)) : List (Text × Datum) := fields.filter fun f => !f.2.isAbsent

/-- What a field holds, if it is there. -/
def value? (fields : List (Text × Datum)) (name : Text) : Option Datum := (present fields).lookup name

theorem sortFields_perm {α : Type} (fields : List (Text × α)) : (sortFields fields).Perm fields :=
  List.mergeSort_perm _ _

theorem pairwise_sortFields {α : Type} (fields : List (Text × α)) :
    (sortFields fields).Pairwise fun f g => f.1 ≤ g.1 :=
  Text.pairwise_mergeSort Prod.fst fields

theorem sortFields_map {α β : Type} (f : α → β) (fields : List (Text × α)) :
    sortFields (fields.map fun x => (x.1, f x.2)) = (sortFields fields).map fun x => (x.1, f x.2) := by
  unfold sortFields
  rw [List.map_mergeSort (s := fun a b : Text × β => a.1.le b.1)]
  exact fun _ _ _ _ => rfl

/-! ## Sameness -/

/-- Structural equality. -/
inductive Same : Datum → Datum → Prop
  | null : Same .null .null
  | absent : Same .absent .absent
  | bool (b : Bool) : Same (.bool b) (.bool b)
  | int (n : Int) : Same (.int n) (.int n)
  | float (x : Binary64) : Same (.float x) (.float x)
  | text (t : Text) : Same (.text t) (.text t)
  | array {ds es : List Datum} (length : ds.length = es.length)
      (items : ∀ (i : Nat) (d e : Datum), ds[i]? = some d → es[i]? = some e → Same d e) : Same (.array ds) (.array es)
  | object {fs gs : List (Text × Datum)} (names : ∀ name, (value? fs name).isSome = (value? gs name).isSome)
      (values : ∀ name d e, value? fs name = some d → value? gs name = some e → Same d e) :
      Same (.object fs) (.object gs)

/-- Data in which no object has two fields of one name and every number is one of the given ones. -/
inductive Over (numbers : Binary64 → Prop) : Datum → Prop
  | null : Over numbers .null
  | absent : Over numbers .absent
  | bool (b : Bool) : Over numbers (.bool b)
  | int (n : Int) : Over numbers (.int n)
  | float {x : Binary64} (h : numbers x) : Over numbers (.float x)
  | text (t : Text) : Over numbers (.text t)
  | array {ds : List Datum} (items : ∀ d ∈ ds, Over numbers d) : Over numbers (.array ds)
  | object {fs : List (Text × Datum)} (names : (fs.map Prod.fst).Nodup) (values : ∀ f ∈ fs, Over numbers f.2) :
      Over numbers (.object fs)

variable {numbers : Binary64 → Prop} {fs gs : List (Text × Datum)} {name : Text} {d : Datum}

theorem mem_of_mem_present {f : Text × Datum} (h : f ∈ present fs) : f ∈ fs := (List.mem_filter.1 h).1

theorem nodup_present (h : (fs.map Prod.fst).Nodup) : ((present fs).map Prod.fst).Nodup :=
  h.sublist (List.filter_sublist.map _)

/-- Where no name comes twice, a field that is there is what a look-up finds. -/
theorem value?_eq_some (h : (fs.map Prod.fst).Nodup) : value? fs name = some d ↔ (name, d) ∈ present fs :=
  Text.lookup_eq_some_iff (nodup_present h)

theorem Over.of_value? (h : Over numbers (.object fs)) (hd : value? fs name = some d) : Over numbers d := by
  cases h with
  | object names values => exact values _ (mem_of_mem_present ((value?_eq_some names).1 hd))

theorem mem_sortFields_present {f : Text × Datum} : f ∈ sortFields (present fs) ↔ f ∈ present fs :=
  (sortFields_perm _).mem_iff

theorem isSome_value? (h : (fs.map Prod.fst).Nodup) :
    (value? fs name).isSome = true ↔ name ∈ (sortFields (present fs)).map Prod.fst := by
  rw [Option.isSome_iff_exists]
  constructor
  · rintro ⟨d, hd⟩
    exact List.mem_map_of_mem (mem_sortFields_present.2 ((value?_eq_some h).1 hd))
  · intro mem
    obtain ⟨⟨_, d⟩, field, rfl⟩ := List.mem_map.1 mem
    exact ⟨d, (value?_eq_some h).2 (mem_sortFields_present.1 field)⟩

theorem value?_of_getElem? (h : (fs.map Prod.fst).Nodup) {j : Nat} {f : Text × Datum}
    (hf : (sortFields (present fs))[j]? = some f) : value? fs f.1 = some f.2 :=
  (value?_eq_some h).2 (mem_sortFields_present.1 (List.mem_of_getElem? hf))

/-- The names of an object's fields in their order depend on which names there are, and on no more. -/
theorem names_sortFields_eq (hf : (fs.map Prod.fst).Nodup) (hg : (gs.map Prod.fst).Nodup)
    (names : ∀ name, (value? fs name).isSome = (value? gs name).isSome) :
    (sortFields (present fs)).map Prod.fst = (sortFields (present gs)).map Prod.fst := by
  have distinct {fs : List (Text × Datum)} (h : (fs.map Prod.fst).Nodup) :
      ((sortFields (present fs)).map Prod.fst).Nodup :=
    ((sortFields_perm _).map Prod.fst).nodup_iff.2 (nodup_present h)
  refine List.Perm.eq_of_pairwise (fun _ _ _ _ => List.le_antisymm)
    (List.pairwise_map.2 (pairwise_sortFields _)) (List.pairwise_map.2 (pairwise_sortFields _)) ?_
  refine (List.perm_ext_iff_of_nodup (distinct hf) (distinct hg)).2 fun name => ?_
  rw [← isSome_value? hf, ← isSome_value? hg, names]

/-- Fields of one name have one place among as many others. -/
theorem exists_index (hf : (fs.map Prod.fst).Nodup) (hg : (gs.map Prod.fst).Nodup)
    (names : (sortFields (present fs)).map Prod.fst = (sortFields (present gs)).map Prod.fst) {e : Datum}
    (hd : value? fs name = some d) (he : value? gs name = some e) :
    ∃ j : Nat, (sortFields (present fs))[j]? = some (name, d) ∧ (sortFields (present gs))[j]? = some (name, e) := by
  obtain ⟨j, hj⟩ := List.mem_iff_getElem?.1 (mem_sortFields_present.2 ((value?_eq_some hf).1 hd))
  have name' := congrArg (·[j]?) names
  simp only [List.getElem?_map, hj, Option.map_some] at name'
  obtain ⟨⟨_, e'⟩, hg', rfl⟩ := Option.map_eq_some_iff.1 name'.symm
  have := value?_of_getElem? hg hg'
  rw [he] at this
  cases this
  exact ⟨j, hj, hg'⟩

/-- A datum is the same as itself. -/
theorem Over.same_self (h : Over numbers d) : Same d d := by
  induction h with
  | null => exact .null
  | absent => exact .absent
  | bool b => exact .bool b
  | int n => exact .int n
  | @float x _ => exact .float x
  | text t => exact .text t
  | array _ ih =>
    refine .array rfl fun i d e hd he => ?_
    rw [hd] at he
    cases he
    exact ih d (List.mem_of_getElem? hd)
  | object names _ ih =>
    refine .object (fun _ => rfl) fun name d e hd he => ?_
    rw [hd] at he
    cases he
    exact ih _ (mem_of_mem_present ((value?_eq_some names).1 hd))

end Datum
end Cddl
