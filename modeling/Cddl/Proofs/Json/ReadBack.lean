import Cddl.Proofs.Json
/-!
# JSON texts read back

Data is written as a text that denotes it, in any layout that puts nothing but blanks between the parts
(`read?_toJson`).
-/
namespace Cddl

open CodeUnit (ofChar)

namespace Json

variable {t r w rest : Text}

/-! ## Blanks -/

/-- Nothing but blanks. -/
def Blank (w : Text) : Prop := ∀ u ∈ w, isBlank u = true

theorem blank_nil : Blank [] := List.forall_mem_nil _

theorem skip_append (hw : Blank w) (t : Text) : skip (w ++ t) = skip t := List.dropWhile_append_of_pos hw

theorem skip_cons {u : CodeUnit} (hu : isBlank u = false) (r : Text) : skip (u :: r) = u :: r :=
  List.dropWhile_cons_of_neg (by rw [hu]; exact Bool.false_ne_true)

/-- What may follow a value: a unit that could belong to a number may not. -/
def Stops (rest : Text) : Prop := ∀ u ∈ rest.head?, Binary64.isNumberUnit u = false

theorem stops_nil : Stops [] := fun _ h => nomatch h

theorem stops_cons {u : CodeUnit} (hu : Binary64.isNumberUnit u = false) (r : Text) : Stops (u :: r) := by
  rintro v ⟨⟩
  exact hu

theorem isNumberUnit_of_isBlank {u : CodeUnit} (h : isBlank u = true) : Binary64.isNumberUnit u = false := by
  simp only [isBlank, Bool.or_eq_true, decide_eq_true_iff] at h
  rcases h with ((rfl | rfl) | rfl) | rfl <;> decide

theorem isBlank_of_isNumberUnit {u : CodeUnit} (h : Binary64.isNumberUnit u = true) : isBlank u = false := by
  by_contra blank
  rw [isNumberUnit_of_isBlank (Bool.eq_true_of_not_eq_false blank)] at h
  cases h

theorem Stops.takeWhile (h : Stops rest) : rest.takeWhile Binary64.isNumberUnit = [] := by
  cases rest with
  | nil => rfl
  | cons u r => exact List.takeWhile_cons_of_neg (by rw [h u rfl]; exact Bool.false_ne_true)

theorem Stops.dropWhile (h : Stops rest) : rest.dropWhile Binary64.isNumberUnit = rest := by
  cases rest with
  | nil => rfl
  | cons u r => exact List.dropWhile_cons_of_neg (by rw [h u rfl]; exact Bool.false_ne_true)

theorem Stops.behind (hw : Blank w) (h : Stops rest) : Stops (w ++ rest) := by
  cases w with
  | nil => exact h
  | cons u r => exact stops_cons (isNumberUnit_of_isBlank (hw u List.mem_cons_self)) (r ++ rest)

/-! ## Entries in a row -/

section

variable {α : Type} {closing : CodeUnit} {part? : Nat → Text → Option (α × Text)}

/-- A text that is read as an entry, with enough fuel, whatever follows that may. -/
structure Entry (closing : CodeUnit) (part? : Nat → Text → Option (α × Text)) (p : Text) (a : α) : Prop where
  opens : ∃ u r, p = u :: r ∧ isBlank u = false ∧ u ≠ closing
  reads : ∀ {fuel : Nat} {w rest : Text}, p.length ≤ fuel → Blank w → Stops rest →
    part? fuel (w ++ (p ++ rest)) = some (a, rest)

/-- A unit that ends a row, and is told from all that stands in the row. -/
structure Closes (closing : CodeUnit) : Prop where
  comma : closing ≠ ','
  blank : isBlank closing = false
  number : Binary64.isNumberUnit closing = false

theorem closes_bracket : Closes (ofChar ']') := ⟨by decide, by decide, by decide⟩

theorem closes_brace : Closes (ofChar '\x7d') := ⟨by decide, by decide, by decide⟩

theorem row?_join (hc : Closes closing) {fuel : Nat} {between before : Text} (hb : Blank between) (hb' : Blank before) :
    ∀ {ps : List Text} {as : List α} {p : Text} {a : α} {n : Nat} {w : Text}, Entry closing part? p a →
      List.Forall₂ (Entry closing part?) ps as → ps.length < n → (∀ q ∈ p :: ps, q.length ≤ fuel) → Blank w →
        row? closing (part? fuel) n (w ++ (Text.join ("," ++ between) (p :: ps) ++ (before ++ closing :: rest))) =
          some (a :: as, rest)
  | [], _, p, a, n + 1, w, first, .nil, _, short, hw => by
    have stops : Stops (before ++ closing :: rest) := (stops_cons hc.number rest).behind hb'
    rw [Text.join_singleton, row?, first.reads (short p List.mem_cons_self) hw stops]
    simp only [Option.bind_some, skip_append hb', skip_cons hc.blank, if_neg hc.comma, if_true]
  | q :: ps, _ :: _, p, a, n + 1, w, first, .cons next more, long, short, hw => by
    have comma : Text.ofString "," = [ofChar ','] := by decide
    have text : Text.join ("," ++ between) (p :: q :: ps) ++ (before ++ closing :: rest) =
        p ++ ofChar ',' :: (between ++ (Text.join ("," ++ between) (q :: ps) ++ (before ++ closing :: rest))) := by
      rw [Text.join_cons_cons, comma]
      simp only [List.append_assoc, List.cons_append, List.nil_append]
    have others := row?_join hc hb hb' next more (Nat.lt_of_succ_lt_succ long)
      (fun q hq => short q (List.mem_cons_of_mem _ hq)) hb
    have comma_blank : isBlank (ofChar ',') = false := by decide
    rw [text, row?, first.reads (short p List.mem_cons_self) hw (stops_cons (by decide) _)]
    simp only [Option.bind_some, skip_cons comma_blank, if_true, others, Option.map_some]

/-- No part of a list is longer than the list, and parts that are not empty are no more than its units. -/
theorem bounds_join (separator : Text) : ∀ {ps : List Text}, (∀ p ∈ ps, p ≠ []) →
    ps.length ≤ (Text.join separator ps).length ∧ ∀ p ∈ ps, p.length ≤ (Text.join separator ps).length
  | [], _ => ⟨Nat.le_refl _, List.forall_mem_nil _⟩
  | [p], nonempty => by
    have positive := List.length_pos_iff.2 (nonempty p List.mem_cons_self)
    rw [Text.join_singleton]
    exact ⟨positive, List.forall_mem_singleton.2 (Nat.le_refl _)⟩
  | p :: q :: ps, nonempty => by
    obtain ⟨first, more⟩ := List.forall_mem_cons.1 nonempty
    obtain ⟨count, longest⟩ := bounds_join separator more
    have positive := List.length_pos_iff.2 first
    rw [Text.join_cons_cons, List.length_append, List.length_append]
    refine ⟨?_, List.forall_mem_cons.2 ⟨by omega, fun r hr => ?_⟩⟩
    · rw [List.length_cons]
      omega
    · have := longest r hr
      omega

theorem Entry.ne_nil {p : Text} {a : α} (h : Entry closing part? p a) : p ≠ [] := by
  obtain ⟨u, r, rfl, _⟩ := h.opens
  exact List.cons_ne_nil u r

theorem ne_nil_of_entries {ps : List Text} {as : List α} (h : List.Forall₂ (Entry closing part?) ps as) :
    ∀ p ∈ ps, p ≠ [] := by
  induction h with
  | nil => exact List.forall_mem_nil _
  | cons first _ ih => exact List.forall_mem_cons.2 ⟨first.ne_nil, ih⟩

open Datum (JsonLayout)

/-- Nothing but blanks is put between the parts, a colon aside. -/
structure BlankLayout (layout : JsonLayout) : Prop where
  lineBreak : ∀ depth, Blank (layout.lineBreak depth)
  colon : ∃ w, layout.colon = ofChar ':' :: w ∧ Blank w

theorem exists_enclose (layout : JsonLayout) (depth : Nat) (opening closing : CodeUnit) (ps : List Text) :
    ∃ inner, layout.enclose depth [opening] [closing] ps = opening :: inner := by
  unfold JsonLayout.enclose
  split <;> exact ⟨_, rfl⟩

theorem enclose_cons (layout : JsonLayout) (depth : Nat) (opening closing : CodeUnit) (p : Text) (ps : List Text) :
    layout.enclose depth [opening] [closing] (p :: ps) = opening :: (layout.lineBreak (depth + 1) ++
      (Text.join ("," ++ layout.lineBreak (depth + 1)) (p :: ps) ++ (layout.lineBreak depth ++ [closing]))) := by
  rw [JsonLayout.enclose, if_neg (List.cons_ne_nil p ps)]
  simp only [List.append_assoc, List.cons_append, List.nil_append]

/-- Behind an opening unit there is a row, if there is not the closing unit. -/
theorem enclosed?_of_row {part? : Text → Option (α × Text)} {fuel : Nat} (hw : Blank w)
    (opens : ∃ u r, t = u :: r ∧ isBlank u = false ∧ u ≠ closing) :
    enclosed? closing part? fuel (w ++ t) = row? closing part? fuel t := by
  obtain ⟨u, r, rfl, hu, differs⟩ := opens
  rw [enclosed?, skip_append hw, skip_cons hu]
  simp only [if_neg differs]

/-- What is enclosed is read as its entries. -/
theorem enclosed?_enclose {layout : JsonLayout} (blank : BlankLayout layout) (hc : Closes closing) {opening : CodeUnit}
    {depth fuel : Nat} {ps : List Text} {as : List α} (entries : List.Forall₂ (Entry closing part?) ps as)
    (enough : (layout.enclose depth [opening] [closing] ps).length ≤ fuel + 1) {inner : Text}
    (written : layout.enclose depth [opening] [closing] ps = opening :: inner) :
    enclosed? closing (part? fuel) fuel (inner ++ rest) = some (as, rest) := by
  cases entries with
  | nil =>
    obtain rfl : [closing] = inner := (List.cons.inj written).2
    rw [List.singleton_append, enclosed?, skip_cons hc.blank]
    simp only [if_true]
  | @cons p a ps as first more =>
    have nonempty : ∀ q ∈ p :: ps, q ≠ [] := ne_nil_of_entries (.cons first more)
    rw [enclose_cons] at enough written
    cases written
    simp only [List.append_assoc, List.singleton_append]
    rw [enclosed?_of_row (blank.lineBreak (depth + 1))]
    · obtain ⟨count, longest⟩ := bounds_join ("," ++ layout.lineBreak (depth + 1)) nonempty
      simp only [List.length_cons, List.length_append, List.length_nil] at enough count
      have long : ps.length < fuel := by omega
      have short : ∀ q ∈ p :: ps, q.length ≤ fuel := fun q hq => by
        have := longest q hq
        omega
      exact row?_join hc (blank.lineBreak (depth + 1)) (blank.lineBreak depth) first more long short blank_nil
    · obtain ⟨u, r, hp, hu, differs⟩ := first.opens
      rw [Text.join_cons, hp]
      exact ⟨_, _, rfl, hu, differs⟩

end

/-! ## Values -/

/-- A text that denotes a value where it stands. -/
abbrev Denotes (p : Text) (j : Json) : Prop := Entry (ofChar ']') value? p j

theorem value?_append (hw : Blank w) (fuel : Nat) (t : Text) : value? fuel (w ++ t) = value? fuel t := by
  cases fuel with
  | zero => rfl
  | succ fuel => rw [value?, value?, skip_append hw]

theorem Denotes.of_reads {p : Text} {j : Json} (opens : ∃ u r, p = u :: r ∧ isBlank u = false ∧ u ≠ ofChar ']')
    (reads : ∀ {fuel : Nat} {rest : Text}, p.length ≤ fuel + 1 → Stops rest →
      value? (fuel + 1) (p ++ rest) = some (j, rest)) : Denotes p j where
  opens := opens
  reads := by
    intro fuel w rest enough hw stops
    rw [value?_append hw]
    cases fuel with
    | zero =>
      obtain ⟨u, r, rfl, _⟩ := opens
      cases enough
    | succ fuel => exact reads enough stops

section

variable {u : CodeUnit} {fuel : Nat}

theorem value?_word (hu : u = ofChar 'n' ∨ u = ofChar 't' ∨ u = ofChar 'f') (r : Text) :
    value? (fuel + 1) (u :: r) = word? (u :: r) := by
  have plain : isBlank u = false ∧ u ≠ ofChar '"' ∧ u ≠ ofChar '[' ∧ u ≠ ofChar '\x7b' ∧
      Binary64.isNumberUnit u = false := by
    rcases hu with rfl | rfl | rfl <;> decide
  obtain ⟨blank, quote, bracket, brace, number⟩ := plain
  rw [value?, skip_cons blank]
  simp only [if_neg quote, if_neg bracket, if_neg brace, number, Bool.false_eq_true, if_false]

theorem value?_number (hu : Binary64.isNumberUnit u = true) (r : Text) :
    value? (fuel + 1) (u :: r) = number? (u :: r) := by
  have other {v : CodeUnit} (hv : Binary64.isNumberUnit v = false) : u ≠ v := by
    rintro rfl
    rw [hu] at hv
    cases hv
  have quote : u ≠ ofChar '"' := other (by decide)
  have bracket : u ≠ ofChar '[' := other (by decide)
  have brace : u ≠ ofChar '\x7b' := other (by decide)
  rw [value?, skip_cons (isBlank_of_isNumberUnit hu)]
  simp only [if_neg quote, if_neg bracket, if_neg brace, hu, if_true]

end

theorem denotes_quoted (t : Text) : Denotes t.jsonQuoted (.string t) := by
  have quote : Text.ofString "\"" = [ofChar '"'] := by decide
  have text : t.jsonQuoted = ofChar '"' :: (t.jsonEscaped ++ [ofChar '"']) := by
    rw [Text.jsonQuoted, quote]
    rfl
  refine .of_reads ⟨_, _, text, by decide, by decide⟩ fun _ _ => ?_
  have plain : isBlank (ofChar '"') = false := by decide
  rw [text, List.cons_append, value?, skip_cons plain]
  simp only [if_true, List.append_assoc, List.cons_append, List.nil_append, readJson_jsonEscaped, Option.map_some]

/-- A word of the given length is read as what it stands for. -/
theorem denotes_word {p : Text} {j : Json} (opens : p.head? = some (ofChar 'n') ∨ p.head? = some (ofChar 't') ∨
    p.head? = some (ofChar 'f')) (reads : ∀ rest, word? (p ++ rest) = some (j, rest)) : Denotes p j := by
  cases p with
  | nil => rcases opens with h | h | h <;> cases h
  | cons u r =>
    have hu : u = ofChar 'n' ∨ u = ofChar 't' ∨ u = ofChar 'f' := by simpa using opens
    refine .of_reads ⟨u, r, rfl, ?_⟩ fun _ _ => ?_
    · rcases hu with rfl | rfl | rfl <;> decide
    · rw [List.cons_append, value?_word hu]
      exact reads _

/-- A text that does not begin another one of at least its length does not begin what goes on from there. -/
theorem not_prefix_append {s t : Text} (long : s.length ≤ t.length) (h : ¬ s <+: t) (rest : Text) : ¬ s <+: t ++ rest :=
  fun begins => h (List.prefix_of_prefix_length_le begins (List.prefix_append t rest) long)

theorem word?_null (rest : Text) : word? ("null" ++ rest) = some (.null, rest) := by
  rw [word?, if_pos (List.prefix_append _ _), List.drop_left' (by decide)]

theorem word?_true (rest : Text) : word? ("true" ++ rest) = some (.bool true, rest) := by
  rw [word?, if_neg (not_prefix_append (by decide) (by decide) rest), if_pos (List.prefix_append _ _),
    List.drop_left' (by decide)]

theorem word?_false (rest : Text) : word? ("false" ++ rest) = some (.bool false, rest) := by
  rw [word?, if_neg (not_prefix_append (by decide) (by decide) rest),
    if_neg (not_prefix_append (by decide) (by decide) rest), if_pos (List.prefix_append _ _),
    List.drop_left' (by decide)]

theorem denotes_null : Denotes "null" .null := denotes_word (.inl rfl) word?_null

theorem denotes_number {p : Text} {d : Decimal} (units : p.all Binary64.isNumberUnit = true)
    (read : Decimal.read? p = some d) : Denotes p (.number d.signed) := by
  have all : ∀ u ∈ p, Binary64.isNumberUnit u = true := List.all_eq_true.1 units
  have run {rest : Text} (stops : Stops rest) : number? (p ++ rest) = some (.number d.signed, rest) := by
    rw [number?, List.takeWhile_append_of_pos all, List.dropWhile_append_of_pos all, stops.takeWhile, stops.dropWhile,
      List.append_nil, read, Option.map_some]
  cases p with
  | nil => cases read
  | cons u r =>
    have hu := all u List.mem_cons_self
    refine .of_reads ⟨u, r, rfl, isBlank_of_isNumberUnit hu, ?_⟩ fun _ stops => ?_
    · rintro rfl
      exact absurd hu (by decide)
    · rw [List.cons_append, value?_number hu]
      exact run stops

variable {layout : Datum.JsonLayout}

theorem denotes_array (blank : BlankLayout layout) (depth : Nat) {ps : List Text} {js : List Json}
    (items : List.Forall₂ Denotes ps js) : Denotes (layout.enclose depth "[" "]" ps) (.array js) := by
  have opening : Text.ofString "[" = [ofChar '['] := by decide
  have closing : Text.ofString "]" = [ofChar ']'] := by decide
  rw [opening, closing]
  obtain ⟨inner, text⟩ := exists_enclose layout depth (ofChar '[') (ofChar ']') ps
  refine .of_reads ⟨_, _, text, by decide, by decide⟩ fun {fuel rest} enough stops => ?_
  have plain : isBlank (ofChar '[') = false := by decide
  have quote : ofChar '[' ≠ ofChar '"' := by decide
  rw [text, List.cons_append, value?, skip_cons plain]
  simp only [if_neg quote, if_true, enclosed?_enclose blank closes_bracket items enough text, Option.map_some]

/-- A text that denotes a field of an object. -/
abbrev DenotesField (p : Text) (f : Text × Json) : Prop := Entry (ofChar '\x7d') (fun fuel => field? (value? fuel)) p f

theorem denotes_field (blank : BlankLayout layout) (name : Text) {p : Text} {j : Json} (h : Denotes p j) :
    DenotesField (name.jsonQuoted ++ layout.colon ++ p) (name, j) := by
  have quote : Text.ofString "\"" = [ofChar '"'] := by decide
  obtain ⟨colon, text, spaces⟩ := blank.colon
  have written : name.jsonQuoted ++ layout.colon ++ p =
      ofChar '"' :: (name.jsonEscaped ++ ofChar '"' :: ofChar ':' :: (colon ++ p)) := by
    rw [Text.jsonQuoted, quote, text]
    simp only [List.append_assoc, List.cons_append, List.nil_append]
  refine ⟨⟨_, _, written, by decide, by decide⟩, fun {fuel w rest} enough hw stops => ?_⟩
  have mark : isBlank (ofChar '"') = false := by decide
  have mark' : isBlank (ofChar ':') = false := by decide
  have short : p.length ≤ fuel := by
    rw [List.length_append] at enough
    omega
  rw [written]
  simp only [field?, skip_append hw, List.cons_append, List.append_assoc, skip_cons mark, if_true, readJson_jsonEscaped,
    Option.bind_some, skip_cons mark', h.reads short spaces stops, Option.map_some]

theorem denotes_object (blank : BlankLayout layout) (depth : Nat) {ps : List Text} {fs : List (Text × Json)}
    (fields : List.Forall₂ DenotesField ps fs) : Denotes (layout.enclose depth "\x7b" "\x7d" ps) (.object fs) := by
  have opening : Text.ofString "\x7b" = [ofChar '\x7b'] := by decide
  have closing : Text.ofString "\x7d" = [ofChar '\x7d'] := by decide
  rw [opening, closing]
  obtain ⟨inner, text⟩ := exists_enclose layout depth (ofChar '\x7b') (ofChar '\x7d') ps
  refine .of_reads ⟨_, _, text, by decide, by decide⟩ fun {fuel rest} enough stops => ?_
  have plain : isBlank (ofChar '\x7b') = false := by decide
  have quote : ofChar '\x7b' ≠ ofChar '"' := by decide
  have bracket : ofChar '\x7b' ≠ ofChar '[' := by decide
  rw [text, List.cons_append, value?, skip_cons plain]
  simp only [if_neg quote, if_neg bracket, if_true, enclosed?_enclose blank closes_brace fields enough text,
    Option.map_some]

end Json

/-! ## Data -/

namespace Datum

open Json

variable {layout : JsonLayout}

theorem blankLayout_compact : BlankLayout .compact := ⟨fun _ => blank_nil, [], by decide, blank_nil⟩

theorem blankLayout_indented : BlankLayout .indented := by
  have colon : Text.ofString ": " = [ofChar ':', ofChar ' '] := by decide
  have feed : Text.ofString "\n" = [ofChar '\n'] := by decide
  refine ⟨fun depth u hu => ?_, [ofChar ' '], colon, fun u hu => ?_⟩
  · simp only [JsonLayout.indented, feed, List.singleton_append, List.mem_cons, Text.spaces, List.mem_replicate] at hu
    rcases hu with rfl | ⟨_, rfl⟩ <;> decide
  · cases List.mem_singleton.1 hu
    decide

theorem denotes_float (x : Binary64) : Denotes (jsonNumber x) (x.written?.elim .null fun d => .number d.signed) := by
  cases x with
  | nan | infinity => exact denotes_null
  | finite negative significand exponent =>
    obtain ⟨d, written⟩ : ∃ d, (Binary64.finite negative significand exponent).written? = some d := ⟨_, rfl⟩
    obtain ⟨d', read, same⟩ := Binary64.read?_toText written
    rw [written, Option.elim_some, ← same]
    exact denotes_number (Binary64.all_toText negative significand exponent) read

theorem denotes_int (n : Int) : Denotes (Text.ofInt n) (.number n) := by
  obtain ⟨d, read, value⟩ := Decimal.read?_ofInt n
  rw [← value]
  exact denotes_number (Binary64.all_ofInt n) read

mutual

theorem denotes_json (blank : BlankLayout layout) : ∀ (d : Datum) (depth : Nat), Denotes (jsonAt layout depth d) d.json
  | .null, _ => denotes_null
  | .absent, _ => denotes_null
  | .bool true, _ => denotes_word (.inr (.inl rfl)) word?_true
  | .bool false, _ => denotes_word (.inr (.inr rfl)) word?_false
  | .int n, _ => denotes_int n
  | .float x, _ => denotes_float x
  | .text t, _ => denotes_quoted t
  | .array items, depth => denotes_array blank depth (denotes_items blank items (depth + 1))
  | .object fields, depth => denotes_object blank depth (denotes_fields blank fields (depth + 1))

theorem denotes_items (blank : BlankLayout layout) : ∀ (ds : List Datum) (depth : Nat),
    List.Forall₂ Denotes (jsonItems layout depth ds) (jsonItemValues ds)
  | [], _ => .nil
  | d :: ds, depth => .cons (denotes_json blank d depth) (denotes_items blank ds depth)

theorem denotes_fields (blank : BlankLayout layout) : ∀ (fs : List (Text × Datum)) (depth : Nat),
    List.Forall₂ DenotesField (jsonFields layout depth fs) (jsonFieldValues fs)
  | [], _ => .nil
  | (name, d) :: fs, depth => by
    have more := denotes_fields blank fs depth
    by_cases h : d = .absent
    · subst h
      exact more
    · rw [jsonFieldValues, json?_of_present h, jsonFields]
      · exact .cons (denotes_field blank name (denotes_json blank d depth)) more
      · exact h

end

/-- **The text of data denotes the data**, in any layout that puts nothing but blanks between the parts. -/
theorem read?_toJson (blank : BlankLayout layout) (d : Datum) : Json.read? (d.toJson layout) = some d.json := by
  have reads := (denotes_json blank d 0).reads (Nat.le_refl _) blank_nil stops_nil
  rw [List.nil_append, List.append_nil] at reads
  rw [Json.read?, toJson, reads]
  rfl

end Datum
end Cddl
