import Cddl.Proofs.Json
import Cddl.Proofs.Binary64.Written
import Cddl.Proofs.Record.Tree
/-!
# Trees told by their JSON values

What an object denotes under a name is what the field of that name denotes, so records are told apart by the JSON values
that they denote.  Two nodes of one kind that denote the same JSON value are the same node, if their floating-point
literals are finite and none is a negative zero (`Node.eq_of_json`).
-/
namespace Cddl

/-- The value of a field of an object. -/
def Json.get? (name : String) : Json → Option Json
  | .object fields => fields.lookup (Text.ofString name)
  | _ => none

/-- A number that JSON tells from every other: it is finite, and no negative zero. -/
def Binary64.Plain (x : Binary64) : Prop := x.isFinite = true ∧ x ≠ .zero true ∧ x.Canonical

namespace Datum

theorem jsonItemValues_eq (ds : List Datum) : jsonItemValues ds = ds.map json := by
  induction ds with
  | nil => rfl
  | cons d ds ih => rw [jsonItemValues, ih, List.map_cons, json]

/-- A look-up finds the value of what is looked up. -/
theorem lookup_jsonFieldValues (name : Text) : ∀ fs : List (Text × Datum),
    (jsonFieldValues fs).lookup name = (value? fs name).map json
  | [] => rfl
  | (key, d) :: fs => by
    have ih := lookup_jsonFieldValues name fs
    unfold value? present at ih ⊢
    by_cases absent : d = .absent
    · subst absent
      exact ih
    · have there : d.json? = some d.json := json?_of_present absent
      have kept : (!(key, d).2.isAbsent) = true := by cases d <;> first | rfl | exact absurd rfl absent
      rw [jsonFieldValues, there, List.filter_cons, if_pos kept]
      simp only [Option.map_some, Option.toList_some, List.singleton_append, List.lookup_cons]
      cases name == key with
      | true => rfl
      | false => exact ih

theorem get?_json (d : Datum) (name : String) : d.json.get? name = (d.get? name).map json := by
  cases d with
  | object fs => exact lookup_jsonFieldValues _ fs
  | float x =>
    rw [json, json?]
    cases x.written? <;> rfl
  | _ => rfl

/-- Records are told apart by the JSON values that they denote. -/
theorem telling_json : Telling Binary64.Plain fun d e => d.json = e.json where
  text h := Json.string.inj h
  bool h := Json.bool.inj h
  int h := Int.cast_injective (Json.number.inj h)
  float := by
    rintro x y ⟨finite, signed, canonical⟩ ⟨finite', signed', canonical'⟩ h
    obtain ⟨d, written⟩ := Binary64.exists_written finite
    obtain ⟨d', written'⟩ := Binary64.exists_written finite'
    have same : d.signed = d'.signed := by simpa [json, json?, written, written'] using h
    exact Binary64.eq_of_written canonical canonical' signed signed' written written' same
  array {ds es} h := by
    have values := Json.array.inj h
    rw [jsonItemValues_eq, jsonItemValues_eq, ← List.forall₂_eq_eq_eq, List.forall₂_map_left_iff,
      List.forall₂_map_right_iff] at values
    exact values
  get {d e} name h := by
    have values := congrArg (Json.get? name) h
    rw [get?_json, get?_json] at values
    cases hd : d.get? name <;> cases he : e.get? name <;> simp [hd, he] at values
    · exact .none
    · exact .some values

end Datum

/-- **Two nodes of one kind that denote the same JSON value are the same**, if JSON tells their floating-point
numbers. -/
theorem Node.eq_of_json {n m : Node} (kind : n.kind = m.kind) (plain : ∀ v ∈ n.literals, v.Over Binary64.Plain)
    (plain' : ∀ v ∈ m.literals, v.Over Binary64.Plain) (h : n.record.json = m.record.json) : n = m :=
  eq_of_record Datum.telling_json kind plain plain' h

end Cddl
