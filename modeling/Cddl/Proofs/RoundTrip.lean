import Cddl.Proofs.Layout
import Cddl.Proofs.Layout.Document
import Cddl.Proofs.Literals
/-!
# Documents that are written and read again

The text of a document that was read is read to a document that says the same (`parse_render`).  Three things are lost
on the way and are left out: a number with a fraction or exponent, which may be written as another; a zero with a sign,
which is written without; and an entry under a range as the body of a rule, which is no longer seen to be one.
-/
namespace Cddl

open Production

variable {source : Text} {d : Document}

/-- The text of a document, a line for each rule. -/
def Document.render (d : Document) : Text := Text.join "\n" (d.rules.map Rule.render)

/-- The tokens of a document can be written, if its literals can. -/
theorem allPlain_of_spells {ts after : List Token} (rules : SpellsRules d.rules ts after) (read : ∀ t ∈ ts, t.Read)
    (literals : ∀ v ∈ d.literals, ¬ v.Excepted) : AllPlain ts := by
  intro t ht
  refine plain_of_read (read t ht) fun v hv => ?_
  rcases rules.covers v (List.mem_flatMap.2 ⟨t, ht, hv⟩) with listed | ⟨n, rfl⟩
  · exact literals v (d.literals_eq ▸ listed)
  · rintro (h | ⟨x, h⟩) <;> cases h

/-- **What a document is written as is read to a document that says the same.** -/
theorem parse_render (h : parse source = .ok d) (floats : ∀ x, .float x ∉ d.literals) (zeros : .int 0 ∉ d.literals)
    (keys : ∀ r ∈ d.rules, r.keyedByRange = false) : ∃ d', parse d.render = .ok d' ∧ d'.erase = d.erase := by
  obtain ⟨w, v, ts, hw, walk, ends, _, rules⟩ := parseFeed_ok (Feed.ends_ofCursor _) (parse_eq_ok_iff.1 h)
  have spelled := rules [v.current, v.upcoming] (List.cons_ne_nil _ _) v.shows_pair
  have laid := laid_of_shows hw (walk.shows v.shows_pair)
  have literals : ∀ v ∈ d.literals, ¬ v.Excepted := by
    rintro v hv (rfl | ⟨x, rfl⟩)
    · exact zeros hv
    · exact floats x hv
  have plain := allPlain_of_spells spelled (fun t ht => laid.2 t (List.mem_append_left _ ht)) literals
  obtain ⟨ps, written⟩ := exists_rules_layout spelled plain keys
  have ended : v.current.body = .mark .endOfInput := Token.is_iff.1 ends
  have behind (l : Location) : Respelled [v.current, v.upcoming] [.endAt l, .endAt l] := by
    rw [ends_of_shows hw walk ends]
    exact .same ended.symm (.same ended.symm .nil)
  obtain ⟨rs, hrs, again⟩ := written.spells .start _ (behind _)
  obtain ⟨d', read, rfl⟩ := exists_parse_of_layout (written.scans [] delimits_nil) again
  refine ⟨d', ?_, ?_⟩
  · rw [Document.render, ← written.text]
    exact read
  · rw [Document.erase, Document.erase, hrs]

/-- A document of one rule, which gives a name to the range from 1 to 2. -/
def Document.isRange (d : Document) : Bool :=
  match d.rules with
  | [⟨.type ⟨_, none, _, ⟨[⟨⟨.literal (.uint 1) _, some ⟨.range _, .literal (.uint 2) _, _⟩, _⟩, _⟩], _⟩, _⟩, _⟩] =>
    true
  | _ => false

theorem Document.isRange_literals (h : d.isRange = true) : d.literals = [.uint 1, .uint 2] := by
  unfold isRange at h
  split at h
  · rename_i rules
    simp only [literals_eq, rules, Node.literals_eq (.rule _), Node.literals_eq (.typeRule _),
      Node.literals_eq (.identifier _), Node.literals_eq (.type _), Node.literals_eq (.typeChoice _),
      Node.literals_eq (.type1 _), Node.literals_eq (.type2 _), Node.literals_eq (.operator _), Node.literals_value,
      Node.children, Node.ofParams, Node.value?, Option.toList, List.map_cons, List.map_nil, List.flatMap_cons,
      List.flatMap_nil, List.nil_append, List.append_nil, List.cons_append]
  · cases h

/-- A range without blanks is written with blanks, and means the same. -/
theorem parse_render_sample : ∃ d d', parse "a = 1..2" = .ok d ∧ (∀ x, .float x ∉ d.literals) ∧ .int 0 ∉ d.literals ∧
    (∀ r ∈ d.rules, r.keyedByRange = false) ∧ parse d.render = .ok d' ∧ d'.erase = d.erase := by
  have read : ∃ d, parse "a = 1..2" = .ok d ∧ (d.isRange && d.rules.all fun r => !r.keyedByRange) = true :=
    exists_parse (n := 6) (p := fun d => d.isRange && d.rules.all fun r => !r.keyedByRange) (by decide +kernel)
  obtain ⟨d, h, shape⟩ := read
  rw [Bool.and_eq_true, List.all_eq_true] at shape
  have literals := Document.isRange_literals shape.1
  have floats (x : Binary64) : .float x ∉ d.literals := by simp [literals]
  have zeros : .int 0 ∉ d.literals := by simp [literals]
  have keys : ∀ r ∈ d.rules, r.keyedByRange = false := fun r hr => by simpa using shape.2 r hr
  obtain ⟨d', again, same⟩ := parse_render h floats zeros keys
  exact ⟨d, d', h, floats, zeros, keys, again, same⟩

end Cddl
