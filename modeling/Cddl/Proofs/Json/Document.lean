import Cddl.Command
import Cddl.Proofs.Json.Float
import Cddl.Proofs.Json.ReadBack
import Cddl.Proofs.Json.Tree
import Cddl.Proofs.Placement.Document
/-!
# The JSON text of a document

The tree of a document that was read leaves the program as a JSON text, in a line or in many.  The text denotes the
tree's record in either layout, and the record tells the tree.
-/
namespace Cddl

open Command (layout)

variable {s s' : Text} {d d' : Document}

theorem blankLayout (pretty : Bool) : Json.BlankLayout (layout pretty) := by
  cases pretty
  · exact Datum.blankLayout_compact
  · exact Datum.blankLayout_indented

/-- The literals of a document that was read are told by what they denote, if this is so for the floating-point ones. -/
theorem Document.plain_of_parse (h : parse s = .ok d)
    (floats : ∀ x, .float x ∈ d.literals → x.isFinite = true ∧ x ≠ .zero true) :
    ∀ v ∈ d.literals, v.Over Binary64.Plain := by
  rintro v hv x rfl
  exact ⟨(floats x hv).1, (floats x hv).2, canonical_of_parse h hv⟩

/-- **The JSON text of a tree determines the tree**, spans included, in either layout; and in both layouts it denotes
the record of the tree.  The floating-point literals of the source texts have to be finite, and none a negative zero,
since JSON has no words for those. -/
theorem json_of_parse (h : parse s = .ok d) (h' : parse s' = .ok d')
    (floats : ∀ x, .float x ∈ d.literals → x.isFinite = true ∧ x ≠ .zero true)
    (floats' : ∀ x, .float x ∈ d'.literals → x.isFinite = true ∧ x ≠ .zero true) :
    (∀ pretty, d.record.toJson (layout pretty) = d'.record.toJson (layout pretty) → d = d') ∧
      ∀ pretty, Json.read? (d.record.toJson (layout pretty)) = some d.record.json := by
  have reads (d : Document) (pretty : Bool) : Json.read? (d.record.toJson (layout pretty)) = some d.record.json :=
    Datum.read?_toJson (blankLayout pretty) d.record
  refine ⟨fun pretty same => ?_, reads d⟩
  have values : d.record.json = d'.record.json := by
    have := reads d pretty
    rw [same, reads d' pretty] at this
    exact (Option.some.inj this).symm
  have plain : ∀ v ∈ (Node.document d).literals, v.Over Binary64.Plain := Document.plain_of_parse h floats
  have plain' : ∀ v ∈ (Node.document d').literals, v.Over Binary64.Plain := Document.plain_of_parse h' floats'
  exact Node.document.inj (Node.eq_of_json rfl plain plain' values)

/-- A document of one rule, which gives a name to a number that JSON can tell. -/
def Document.isNumber (d : Document) : Bool :=
  match d.rules with
  | [⟨.type ⟨_, none, _, ⟨[⟨⟨.literal (.float x) _, none, _⟩, _⟩], _⟩, _⟩, _⟩] => x.isFinite && x ≠ .zero true
  | _ => false

theorem Document.isNumber_literals (h : d.isNumber = true) :
    ∀ x, .float x ∈ d.literals → x.isFinite = true ∧ x ≠ .zero true := by
  unfold isNumber at h
  split at h
  · rename_i x _ _ _ _ _ _ rules
    have literals : d.literals = [.float x] := by
      simp only [literals_eq, rules, Node.literals_eq (.rule _), Node.literals_eq (.typeRule _),
        Node.literals_eq (.identifier _), Node.literals_eq (.type _), Node.literals_eq (.typeChoice _),
        Node.literals_eq (.type1 _), Node.literals_eq (.type2 _), Node.literals_value,
        Node.children, Node.ofParams, Node.value?, Option.toList, List.map_cons, List.map_nil, List.flatMap_cons,
        List.flatMap_nil, List.nil_append, List.append_nil]
    intro y hy
    rw [literals] at hy
    cases List.mem_singleton.1 hy
    simpa using h
  · cases h

/-- Two spellings of a number, of the same length. -/
theorem json_of_parse_sample : ∃ d d', parse "a = 1.50e1" = .ok d ∧ parse "a = 15.000" = .ok d' ∧
    (∀ x, .float x ∈ d.literals → x.isFinite = true ∧ x ≠ .zero true) ∧
    (∀ x, .float x ∈ d'.literals → x.isFinite = true ∧ x ≠ .zero true) ∧
    (∀ pretty, d.record.toJson (layout pretty) = d'.record.toJson (layout pretty) → d = d') ∧
      ∀ pretty, Json.read? (d.record.toJson (layout pretty)) = some d.record.json := by
  have read : ∃ d, parse "a = 1.50e1" = .ok d ∧ d.isNumber = true :=
    exists_parse (n := 6) (p := Document.isNumber) (by decide +kernel)
  have read' : ∃ d, parse "a = 15.000" = .ok d ∧ d.isNumber = true :=
    exists_parse (n := 6) (p := Document.isNumber) (by decide +kernel)
  obtain ⟨d, h, number⟩ := read
  obtain ⟨d', h', number'⟩ := read'
  have floats := Document.isNumber_literals number
  have floats' := Document.isNumber_literals number'
  exact ⟨d, d', h, h', floats, floats', json_of_parse h h' floats floats'⟩

end Cddl
