import Cddl.Proofs.Record.Tree
import Mathlib.Data.List.Nodup
/-!
# Records as data

No record has two fields of one name, and the numbers in it are those of its literals.  So keys tell records apart, and
with them nodes: records of one kind that are structurally equal are the records of one node (`Node.same_record_iff`).
-/
namespace Cddl

variable {numbers : Binary64 → Prop}

/-- Names that are spelled in different ways are different. -/
theorem Text.nodup_names {names : List String} (h : names.Nodup) : (names.map ofString).Nodup :=
  List.Nodup.map (fun _ _ => ofString_inj.1) h

namespace Datum

variable {d : Datum} {fs gs : List (Text × Datum)} {names names' : List String}

/-! ## Fields -/

/-- Fields that have the given names, in their order, and hold the given numbers; some names may be left out. -/
structure Fields (numbers : Binary64 → Prop) (names : List String) (fs : List (Text × Datum)) : Prop where
  names : (fs.map Prod.fst).Sublist (names.map Text.ofString)
  values : ∀ f ∈ fs, f.2.Over numbers

namespace Fields

theorem nil : Fields numbers [] [] := ⟨List.Sublist.slnil, List.forall_mem_nil _⟩

theorem field {name : String} (h : d.Over numbers) : Fields numbers [name] (field name d) :=
  ⟨List.Sublist.refl _, List.forall_mem_singleton.2 h⟩

theorem field? {name : String} {v : Option Datum} (h : ∀ d ∈ v, d.Over numbers) :
    Fields numbers [name] (field? name v) := by
  cases v with
  | none => exact ⟨List.nil_sublist _, List.forall_mem_nil _⟩
  | some d => exact field (h d rfl)

theorem append (h : Fields numbers names fs) (h' : Fields numbers names' gs) :
    Fields numbers (names ++ names') (fs ++ gs) where
  names := by
    rw [List.map_append, List.map_append]
    exact h.names.append h'.names
  values := List.forall_mem_append.2 ⟨h.values, h'.values⟩

theorem object (h : Fields numbers names fs) (distinct : names.Nodup) : (object fs).Over numbers :=
  .object ((Text.nodup_names distinct).sublist h.names) h.values

end Fields

theorem over_list {α : Type} {r : α → Datum} {xs : List α} (h : ∀ x ∈ xs, (r x).Over numbers) :
    (array (xs.map r)).Over numbers :=
  .array (List.forall_mem_map.2 h)

theorem over_option {α : Type} {r : α → Datum} {o : Option α} (h : ∀ x ∈ o, (r x).Over numbers) :
    ∀ d ∈ o.map r, d.Over numbers := by
  intro d hd
  obtain ⟨x, hx, rfl⟩ := Option.map_eq_some_iff.1 hd
  exact h x hx

end Datum

open Datum (Fields over_list over_option)

theorem Location.over_record (l : Location) : l.record.Over numbers := by
  refine .object (Text.nodup_names (by decide : ["line", "column", "offset"].Nodup)) ?_
  simp only [List.forall_mem_cons]
  exact ⟨.int _, .int _, .int _, List.forall_mem_nil _⟩

theorem Span.over_record (s : Span) : s.record.Over numbers := by
  refine .object (Text.nodup_names (by decide : ["start", "end"].Nodup)) ?_
  simp only [List.forall_mem_cons]
  exact ⟨s.start.over_record, s.stop.over_record, List.forall_mem_nil _⟩

/-- A record is as its own fields are. -/
theorem Datum.Over.nodeRecord {names : List String} {fs : List (Text × Datum)} {kind : String} {span : Option Span}
    (h : Fields numbers names fs) (distinct : ("kind" :: (names ++ ["span"])).Nodup) :
    (Cddl.nodeRecord kind fs span).Over numbers :=
  (((Fields.field (.text kind)).append h).append (.field? (over_option fun s _ => s.over_record))).object distinct

theorem Identifier.over_record (i : Identifier) : i.record.Over numbers :=
  .nodeRecord ((Fields.field (.text _)).append (.field? (over_option fun _ _ => .text _))) (by decide)

theorem Occur.over_record (o : Occur) : o.record.Over numbers := by
  cases o with
  | between lower upper =>
    have bound (o : Option Int) : ∀ d ∈ o.map Datum.decimal, d.Over numbers := over_option fun _ _ => .text _
    exact Fields.object (((Fields.field (.text _)).append (.field? (bound lower))).append (.field? (bound upper)))
      (by decide)
  | _ => exact Fields.object (.field (.text _)) (List.nodup_singleton _)

theorem RangeOrControl.over_record (o : RangeOrControl) : o.record.Over numbers := by
  cases o with
  | range inclusive => exact Fields.object ((Fields.field (.text _)).append (.field (.bool _))) (by decide)
  | control name => exact Fields.object ((Fields.field (.text _)).append (.field (.text _))) (by decide)

theorem Literal.over_content {v : Literal} (h : v.Over numbers) : v.content.Over numbers := by
  cases v with
  | float x => exact .float (h x rfl)
  | _ => exact .text _

theorem Literal.over_record {v : Literal} (h : v.Over numbers) : v.record.Over numbers := by
  have encoding : Fields numbers ["encoding"] v.encodingField := by
    cases v with
    | bytes => exact .field (.text _)
    | _ => exact ⟨List.nil_sublist _, List.forall_mem_nil _⟩
  exact .nodeRecord (((Fields.field (.text _)).append encoding).append (.field (over_content h))) (by decide)

namespace Node

variable {n : Node}

/-! ## Nodes of any kind -/

theorem fields_name {i : Identifier} {a : Option GenericArgs} (key : String)
    (below : ∀ c ∈ ofName i a, c.record.Over numbers) :
    Fields numbers [key, "genericArgs"] (Datum.field key i.record ++ argsField a) := by
  rw [argsField_eq]
  exact (Fields.field (below _ List.mem_cons_self)).append (.field? (over_option fun a ha =>
    below (genericArgs a) (List.mem_cons_of_mem _ (List.mem_map_of_mem (Option.mem_toList.2 ha)))))

theorem fields_occurrence {o : Option Occurrence} (below : ∀ c ∈ ofOccurrence o, c.record.Over numbers) :
    Fields numbers ["occur"] (Datum.field? "occur" (o.map Occurrence.record)) :=
  .field? (over_option fun o ho => below (occurrence o) (List.mem_map_of_mem (Option.mem_toList.2 ho)))

theorem fields_params {p : Option GenericParams} (below : ∀ c ∈ ofParams p, c.record.Over numbers) :
    Fields numbers ["genericParams"] (Datum.field? "genericParams" (p.map GenericParams.record)) :=
  .field? (over_option fun p hp => below (genericParams p) (List.mem_map_of_mem (Option.mem_toList.2 hp)))

theorem over_type2 {t : Type2} (own : ∀ v ∈ (type2 t).literals, v.Over numbers)
    (below : ∀ c ∈ (type2 t).children, c.record.Over numbers) : t.record.Over numbers := by
  have bound (o : Option Int) : ∀ d ∈ o.map Datum.decimal, d.Over numbers := over_option fun _ _ => .text _
  cases t with
  | literal v =>
    have content := Literal.over_content (own v (literals_of_child List.mem_cons_self (mem_literals_value v)))
    exact .nodeRecord (.field content) (by decide)
  | typename | unwrap | choiceFromGroup => exact .nodeRecord (fields_name "ident" below) (by decide)
  | parenthesized | map | array | choiceFromInlineGroup =>
    exact .nodeRecord (.field (below _ List.mem_cons_self)) (by decide)
  | tagged tag =>
    exact .nodeRecord ((Fields.field? (bound tag)).append (.field (below _ List.mem_cons_self))) (by decide)
  | major _ constraint => exact .nodeRecord ((Fields.field (.int _)).append (.field? (bound constraint))) (by decide)
  | any => exact .nodeRecord .nil (by decide)

/-- The record of a node holds given numbers if its literals are among them, and so do the records right below it. -/
theorem over_record_of_children (own : ∀ v ∈ n.literals, v.Over numbers)
    (below : ∀ c ∈ n.children, c.record.Over numbers) : n.record.Over numbers := by
  cases n with
  | document d =>
    have rules : ∀ r ∈ d.rules, r.record.Over numbers := fun r hr => below (rule r) (List.mem_map_of_mem hr)
    exact .nodeRecord (.field (over_list rules)) (by decide)
  | rule r =>
    obtain ⟨body, span⟩ := r
    have body : body.record.Over numbers := by cases body <;> exact below _ List.mem_cons_self
    exact .nodeRecord (.field body) (by decide)
  | typeRule r =>
    obtain ⟨name, below⟩ := List.forall_mem_cons.1 below
    obtain ⟨params, value⟩ := List.forall_mem_append.1 below
    exact .nodeRecord ((((Fields.field name).append (fields_params params)).append (.field (.bool _))).append
      (.field (value _ List.mem_cons_self))) (by decide)
  | groupRule r =>
    obtain ⟨name, below⟩ := List.forall_mem_cons.1 below
    obtain ⟨params, entry⟩ := List.forall_mem_append.1 below
    exact .nodeRecord ((((Fields.field name).append (fields_params params)).append (.field (.bool _))).append
      (.field (entry _ List.mem_cons_self))) (by decide)
  | type t =>
    obtain ⟨choices, span⟩ := t
    have records : ∀ c ∈ choices, c.record.Over numbers := fun c hc => below (typeChoice c) (List.mem_map_of_mem hc)
    exact .nodeRecord (.field (typeChoiceRecords_eq choices ▸ over_list records)) (by decide)
  | typeChoice c =>
    obtain ⟨t, span⟩ := c
    exact .nodeRecord (.field (below _ List.mem_cons_self)) (by decide)
  | type1 t =>
    obtain ⟨operand, operator, span⟩ := t
    obtain ⟨left, right⟩ := List.forall_mem_cons.1 below
    have operators : Fields numbers ["operator"] (operatorField operator) := operatorField_eq operator ▸
      .field? (over_option fun o ho => right (Node.operator o) (List.mem_map_of_mem (Option.mem_toList.2 ho)))
    exact .nodeRecord ((Fields.field left).append operators) (by decide)
  | operator o =>
    obtain ⟨symbol, operand, span⟩ := o
    exact .nodeRecord ((Fields.field symbol.over_record).append (.field (below _ List.mem_cons_self))) (by decide)
  | type2 t => exact over_type2 own below
  | group g =>
    obtain ⟨choices, span⟩ := g
    have records : ∀ c ∈ choices, c.record.Over numbers := fun c hc => below (groupChoice c) (List.mem_map_of_mem hc)
    exact .nodeRecord (.field (groupChoiceRecords_eq choices ▸ over_list records)) (by decide)
  | groupChoice c =>
    obtain ⟨entries, span⟩ := c
    have records : ∀ e ∈ entries, e.record.Over numbers := by
      rintro ⟨entry, comma⟩ he
      have record : entry.record.Over numbers := below (groupEntry entry) (List.mem_map.2 ⟨_, he, rfl⟩)
      exact Fields.object ((Fields.field record).append (.field (.bool comma))) (by decide)
    exact .nodeRecord (.field (listedEntryRecords_eq entries ▸ over_list records)) (by decide)
  | groupEntry e =>
    cases e with
    | keyed | named => exact .nodeRecord (.field (below _ List.mem_cons_self)) (by decide)
    | inline o g =>
      obtain ⟨occurrence, group⟩ := List.forall_mem_append.1 below
      exact .nodeRecord ((fields_occurrence occurrence).append (.field (group _ List.mem_cons_self))) (by decide)
  | keyedEntry e =>
    obtain ⟨o, key, t, span⟩ := e
    obtain ⟨below, type⟩ := List.forall_mem_append.1 below
    obtain ⟨occurrence, keys⟩ := List.forall_mem_append.1 below
    have keys : Fields numbers ["memberKey"] (keyField key) := keyField_eq key ▸
      .field? (over_option fun k hk => keys (memberKey k) (List.mem_map_of_mem (Option.mem_toList.2 hk)))
    exact .nodeRecord (((fields_occurrence occurrence).append keys).append (.field (type _ List.mem_cons_self)))
      (by decide)
  | namedEntry e =>
    obtain ⟨o, name, args, span⟩ := e
    obtain ⟨occurrence, name⟩ := List.forall_mem_append.1 below
    have fields := (fields_occurrence occurrence).append (fields_name "name" name)
    rw [← List.append_assoc] at fields
    exact .nodeRecord fields (by decide)
  | occurrence o => exact .nodeRecord (.field o.occur.over_record) (by decide)
  | memberKey k =>
    cases k with
    | type1 => exact .nodeRecord ((Fields.field (below _ List.mem_cons_self)).append (.field (.bool _))) (by decide)
    | bareword | literal | enclosed => exact .nodeRecord (.field (below _ List.mem_cons_self)) (by decide)
  | nonMemberKey k => cases k <;> exact .nodeRecord (.field (below _ List.mem_cons_self)) (by decide)
  | genericParams p =>
    have params : ∀ q ∈ p.params, q.record.Over numbers := fun q hq => below (genericParam q) (List.mem_map_of_mem hq)
    exact .nodeRecord (.field (over_list params)) (by decide)
  | genericParam p => exact .nodeRecord (.field p.param.over_record) (by decide)
  | genericArgs a =>
    obtain ⟨args, span⟩ := a
    have records : ∀ b ∈ args, b.record.Over numbers := fun b hb => below (genericArg b) (List.mem_map_of_mem hb)
    exact .nodeRecord (.field (genericArgRecords_eq args ▸ over_list records)) (by decide)
  | genericArg a =>
    obtain ⟨arg, span⟩ := a
    exact .nodeRecord (.field (below _ List.mem_cons_self)) (by decide)
  | identifier i => exact i.over_record
  | value v => exact Literal.over_record (own v (mem_literals_value v))

/-- **The record of a node holds the numbers of its literals and no others**, and no two fields of one name. -/
theorem over_record {n : Node} (own : ∀ v ∈ n.literals, v.Over numbers) : n.record.Over numbers :=
  over_record_of_children own fun _ hc => over_record fun v hv => own v (literals_of_child hc hv)
termination_by n
decreasing_by exact sizeOf_child_lt hc

end Node

/-! ## Records that are structurally equal -/

/-- Structural equality respects the parts of data. -/
theorem Datum.telling_same : Telling (fun _ => True) Same where
  text h := by cases h; rfl
  bool h := by cases h; rfl
  int h := by cases h; rfl
  float _ _ h := by cases h; rfl
  array h := by
    cases h with
    | array length items =>
      exact List.forall₂_iff_get.2 ⟨length, fun i hd he =>
        items i _ _ (List.getElem?_eq_getElem hd) (List.getElem?_eq_getElem he)⟩
  get {d e} name h := by
    cases h with
    | @object fs gs names values =>
      have same := names (Text.ofString name)
      rw [get?_object, get?_object]
      cases hd : value? fs (Text.ofString name) <;> cases he : value? gs (Text.ofString name) <;> rw [hd, he] at same
      · exact .none
      · cases same
      · cases same
      · exact .some (values _ _ _ hd he)
    | _ => exact .none

/-- **Nodes of one kind are equal exactly if their records are structurally equal.** -/
theorem Node.same_record_iff {n m : Node} (kind : n.kind = m.kind) : n.record.Same m.record ↔ n = m := by
  constructor
  · exact eq_of_record Datum.telling_same kind (fun _ _ _ _ => trivial) (fun _ _ _ _ => trivial)
  · rintro rfl
    have among : n.record.Over fun _ => True := over_record fun _ _ _ _ => trivial
    exact among.same_self

end Cddl
