import Cddl.Proofs.Binary64.Canonical
import Cddl.Proofs.Literals
import Cddl.Proofs.Stretch.Document
/-!
# Floating-point literals of a tree

Every floating-point literal of a document that was read was rounded from a numeral, so it is in the one form that a
number is written in (`Document.canonical_of_parse`).
-/
namespace Cddl

variable {x : Binary64} {s r : Text} {n : Nat}

/-! ## Tokens -/

theorem Numeral.integer_ne_float (negative : Bool) (n : Nat) : integer negative n ≠ .float x := by
  cases negative <;> exact fun h => nomatch h

theorem Numeral.canonical_of_read {v : Literal} (h : read s = .literal v n) (hv : v = .float x) : x.Canonical := by
  rw [read_eq] at h
  split at h
  · split at h <;> cases h
    exact absurd hv (integer_ne_float _ _)
  · unfold readDecimal at h
    simp only [] at h
    split at h <;> cases h
    · exact absurd hv (integer_ne_float _ _)
    · cases hv
      exact Binary64.canonical_ofText _

/-- What is scanned where a number begins is read as one numeral or as two. -/
theorem Scan.exists_read {body : Token.Body} (h : number s = .token body n) :
    (∃ v k, Numeral.read s = .literal v k ∧ body = .value v) ∨
      ∃ s' lower upper inclusive k m, Numeral.read s = .literal lower k ∧ Numeral.read s' = .literal upper m ∧
        body = .range lower upper inclusive := by
  unfold number at h
  split at h
  · cases h
  · rename_i v k read
    simp only [] at h
    split at h
    · cases h
      exact .inl ⟨v, k, read, rfl⟩
    · split at h
      · cases h
      · rename_i upper m read'
        cases h
        exact .inr ⟨_, v, upper, _, k, m, read, read', rfl⟩

theorem Token.canonical_of_read {t : Token} (h : t.Read) (hx : .literal (.float x) ∈ t.leaves) : x.Canonical := by
  cases h with
  | ended l => cases hx
  | @scanned u r body more l scanned =>
    have numeric : body.isNumeric = true := by
      cases body with
      | value v =>
        cases List.mem_singleton.1 hx
        rfl
      | range lower upper inclusive => rfl
      | mark m => cases m <;> simp [leaves] at hx
      | tag major number => cases hx
    rcases Scan.exists_read (scan_numeric scanned numeric).2 with
      ⟨v, k, read, rfl⟩ | ⟨s, lower, upper, inclusive, k, m, read, read', rfl⟩
    · cases List.mem_singleton.1 hx
      exact Numeral.canonical_of_read read rfl
    · have bound : .float x = lower ∨ .float x = upper := by simpa [leaves] using hx
      rcases bound with bound | bound
      · exact Numeral.canonical_of_read read bound.symm
      · exact Numeral.canonical_of_read read' bound.symm

/-! ## Trees -/

/-- A literal of a node is among its leaves. -/
theorem Node.leaf_of_literal {n : Node} {v : Literal} (h : v ∈ n.literals) : .literal v ∈ n.leaves := by
  rw [literals_eq] at h
  rw [leaves_eq, List.mem_append]
  rcases List.mem_append.1 h with own | below
  · refine .inl ?_
    cases n with
    | value u =>
      cases List.mem_singleton.1 own
      exact List.mem_singleton_self _
    | _ => cases own
  · obtain ⟨c, hc, below⟩ := List.mem_flatMap.1 below
    exact .inr (List.mem_flatMap.2 ⟨c, hc, leaf_of_literal below⟩)
termination_by n
decreasing_by exact sizeOf_child_lt hc

theorem Document.canonical_of_parse {source : Text} {d : Document} (h : parse source = .ok d)
    (hx : .float x ∈ d.literals) : x.Canonical := by
  obtain ⟨w, v, ts, hw, walk, _, _, rules⟩ := parseFeed_ok (Feed.ends_ofCursor _) (parse_eq_ok_iff.1 h)
  have spelled := rules [v.current, v.upcoming] (List.cons_ne_nil _ _) v.shows_pair
  have laid := laid_of_shows hw (walk.shows v.shows_pair)
  have leaf : .literal (.float x) ∈ (d.rules.map Node.rule).flatMap Node.leaves := by
    rw [Document.literals_eq] at hx
    obtain ⟨r, hr, hx⟩ := List.mem_flatMap.1 hx
    exact List.mem_flatMap.2 ⟨_, List.mem_map_of_mem hr, Node.leaf_of_literal hx⟩
  rw [spelled.yields] at leaf
  obtain ⟨t, ht, leaf⟩ := List.mem_flatMap.1 leaf
  exact Token.canonical_of_read (laid.2 t (List.mem_append_left _ ht)) leaf

end Cddl
