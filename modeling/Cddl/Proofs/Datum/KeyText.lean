import Cddl.Datum.Key
import Cddl.Proofs.Datum.Quoted
/-!
# The texts of keys

A key is a JSON string or stands free of the units that separate keys from each other (`IsKeyText`), so the keys that a
shape is made of can be read off from it.
-/
namespace Cddl

namespace Binary64

/-! ## Numbers -/

/-- The units that finite numbers are written with. -/
def isNumberUnit (u : CodeUnit) : Bool := u.isDigit || u = '.' || u = '-' || u = '+' || u = 'e'

theorem isNumberUnit_of_isDigit {u : CodeUnit} (h : u.isDigit = true) : isNumberUnit u = true := by
  unfold isNumberUnit
  rw [h]
  rfl

theorem all_ofNat (n : Nat) : (Text.ofNat n).all isNumberUnit = true :=
  List.all_eq_true.2 fun _ h => isNumberUnit_of_isDigit (Text.isDigit_of_mem_ofNat h)

theorem all_ofInt (n : Int) : (Text.ofInt n).all isNumberUnit = true := by
  unfold Text.ofInt
  split
  · rw [List.all_cons, all_ofNat]
    decide
  · exact all_ofNat _

theorem all_exponentText (n : Int) : (exponentText n).all isNumberUnit = true := by
  have minus : (Text.ofString "e-").all isNumberUnit = true := by decide
  have plus : (Text.ofString "e+").all isNumberUnit = true := by decide
  unfold exponentText
  split
  · rw [List.all_append, minus, all_ofNat, Bool.and_self]
  · rw [List.all_append, plus, all_ofNat, Bool.and_self]

/-- Laying digits out adds no more than zeros, a point and an exponent to them. -/
theorem all_layOut {digits : Text} {point : Int} (h : digits.all isNumberUnit = true) :
    (layOut digits point).all isNumberUnit = true := by
  have zeros (n : Nat) : (zeros n).all isNumberUnit = true :=
    List.all_eq_true.2 fun u hu => by rw [(List.mem_replicate.1 hu).2]; decide
  have dot : (Text.ofString ".").all isNumberUnit = true := by decide
  have low : (Text.ofString "0.").all isNumberUnit = true := by decide
  have left (n : Nat) : (digits.take n).all isNumberUnit = true :=
    List.all_eq_true.2 fun u hu => List.all_eq_true.1 h u (List.mem_of_mem_take hu)
  have right (n : Nat) : (digits.drop n).all isNumberUnit = true :=
    List.all_eq_true.2 fun u hu => List.all_eq_true.1 h u (List.mem_of_mem_drop hu)
  unfold layOut
  simp only []
  split
  · simp only [List.all_append, h, zeros, Bool.and_self]
  split
  · simp only [List.all_append, left, dot, right, Bool.and_self]
  split
  · simp only [List.all_append, low, zeros, h, Bool.and_self]
  split
  · simp only [List.all_append, h, all_exponentText, Bool.and_self]
  · simp only [List.all_append, left, dot, right, all_exponentText, Bool.and_self]

/-- Laying digits out loses none of them. -/
theorem mem_layOut {digits : Text} {point : Int} {u : CodeUnit} (h : u ∈ digits) : u ∈ layOut digits point := by
  have halves (n : Nat) : u ∈ digits.take n ∨ u ∈ digits.drop n := by
    rw [← List.mem_append, List.take_append_drop]
    exact h
  unfold layOut
  simp only []
  split
  · exact List.mem_append_left _ h
  split
  · rcases halves point.toNat with h | h
    · exact List.mem_append_left _ (List.mem_append_left _ h)
    · exact List.mem_append_right _ h
  split
  · exact List.mem_append_right _ h
  split
  · exact List.mem_append_left _ h
  · rcases halves 1 with h | h
    · exact List.mem_append_left _ (List.mem_append_left _ (List.mem_append_left _ h))
    · exact List.mem_append_left _ (List.mem_append_right _ h)

theorem mem_of_mem_significantDigits {t : Text} {u : CodeUnit} (h : u ∈ significantDigits t) : u ∈ t := by
  unfold significantDigits at h
  exact List.mem_reverse.1 ((List.dropWhile_sublist _).mem (List.mem_reverse.1 h))

theorem mem_significantDigits {t : Text} {u : CodeUnit} (h : u ∈ t) (hu : u ≠ CodeUnit.ofChar '0') :
    u ∈ significantDigits t := by
  unfold significantDigits
  rw [List.mem_reverse]
  have split := List.mem_reverse.2 h
  rw [← List.takeWhile_append_dropWhile (p := fun u : CodeUnit => u = '0') (l := t.reverse)] at split
  rcases List.mem_append.1 split with h | h
  · exact absurd (of_decide_eq_true (List.all_eq_true.1 List.all_takeWhile u h)) hu
  · exact h

/-- The shortest decimal is one of few digits that reads back, or else the number itself. -/
theorem shortest_cases (significand : Nat) (exponent : Int) :
    (ofDecimal (shortest significand exponent) = .finite false significand exponent ∧
      (shortest significand exponent).negative = false) ∨
    shortest significand exponent =
      ⟨false, significand * powerOfTwo exponent.toNat * Nat.pow 5 (-exponent).toNat, min exponent 0⟩ := by
  unfold shortest
  simp only []
  split
  · rename_i d found
    obtain ⟨n, _, grid⟩ := List.exists_of_findSome?_eq_some found
    unfold onGrid? at grid
    simp only [] at grid
    have reads := List.find?_some grid
    refine .inl ⟨of_decide_eq_true reads, ?_⟩
    have listed := List.mem_of_find?_eq_some grid
    split at listed <;>
    · simp only [List.mem_cons, List.not_mem_nil, or_false] at listed
      rcases listed with rfl | rfl <;> rfl
  · exact .inr rfl

/-- No zero is written for a number that is none. -/
theorem digits_shortest_ne_zero {significand : Nat} (exponent : Int) (h : significand ≠ 0) :
    (shortest significand exponent).digits ≠ 0 := by
  have power (b n : Nat) (hb : 0 < b) : Nat.pow b n ≠ 0 := Nat.pos_iff_ne_zero.1 (Nat.pow_pos hb)
  rcases shortest_cases significand exponent with ⟨reads, _⟩ | whole
  · intro zero
    unfold ofDecimal at reads
    rw [if_pos (by rw [zero]; rfl)] at reads
    injection reads with _ value
    exact h value.symm
  · rw [whole]
    exact Nat.mul_ne_zero (Nat.mul_ne_zero h (power 2 _ (by decide))) (power 5 _ (by decide))

/-- Some digit of a finite number other than zero is not a zero. -/
theorem exists_mem_toText (negative : Bool) {significand : Nat} (exponent : Int) (h : significand ≠ 0) :
    ∃ u ∈ toText (.finite negative significand exponent), u.isDigit = true ∧ u ≠ CodeUnit.ofChar '0' := by
  obtain ⟨u, mem, digit, hu⟩ := Text.exists_mem_ofNat (digits_shortest_ne_zero exponent h)
  refine ⟨u, ?_, digit, hu⟩
  have written : u ∈ decimalText (shortest significand exponent) := mem_layOut (mem_significantDigits mem hu)
  unfold toText
  simp only [if_neg h]
  split
  · exact List.mem_cons_of_mem _ written
  · exact written

theorem toText_ne_nil (negative : Bool) (significand : Nat) (exponent : Int) :
    toText (.finite negative significand exponent) ≠ [] := by
  by_cases h : significand = 0
  · unfold toText
    simp only [if_pos h]
    decide
  · obtain ⟨u, mem, _⟩ := exists_mem_toText negative exponent h
    exact List.ne_nil_of_mem mem

theorem all_toText (negative : Bool) (significand : Nat) (exponent : Int) :
    (toText (.finite negative significand exponent)).all isNumberUnit = true := by
  have zero : (Text.ofString "0").all isNumberUnit = true := by decide
  have sign : isNumberUnit '-' = true := by decide
  have written : (decimalText (shortest significand exponent)).all isNumberUnit = true :=
    all_layOut (List.all_eq_true.2 fun _ h => isNumberUnit_of_isDigit
      (Text.isDigit_of_mem_ofNat (mem_of_mem_significantDigits h)))
  unfold toText
  simp only []
  split
  · exact zero
  split
  · rw [List.all_cons, sign, written, Bool.and_self]
  · exact written

/-- The one way in which a value is written as a significand and an exponent. -/
def Canonical : Binary64 → Prop
  | .nan => True
  | .infinity _ => True
  | .finite _ significand exponent =>
    significand < powerOfTwo 53 ∧ -1074 ≤ exponent ∧ exponent ≤ 971 ∧ (powerOfTwo 52 ≤ significand ∨ exponent = -1074)

def IsZero (x : Binary64) : Prop := x = zero true ∨ x = zero false

theorem Canonical.isZero {negative : Bool} {exponent : Int} (h : (finite negative 0 exponent).Canonical) :
    (finite negative 0 exponent).IsZero := by
  obtain ⟨_, _, _, normal | rfl⟩ := h
  · exact absurd normal (by decide)
  · cases negative
    · exact .inr rfl
    · exact .inl rfl

/-- No other number is written as a zero. -/
theorem toText_ne_zero {x : Binary64} (hx : x.Canonical) (nonzero : ¬ x.IsZero) : x.toText ≠ "0" ∧ x.toText ≠ "-0" := by
  cases x with
  | nan => decide
  | infinity negative => cases negative <;> decide
  | finite negative significand exponent =>
    have some : significand ≠ 0 := by
      rintro rfl
      exact nonzero hx.isZero
    obtain ⟨u, mem, digit, hu⟩ := exists_mem_toText negative exponent some
    have only (s : Text) (hs : s.all (fun u => !u.isDigit || u = CodeUnit.ofChar '0') = true)
        (h : toText (.finite negative significand exponent) = s) : False := by
      have zero := List.all_eq_true.1 hs u (h ▸ mem)
      rw [digit, Bool.not_true, Bool.false_or] at zero
      exact hu (of_decide_eq_true zero)
    exact ⟨only _ (by decide), only _ (by decide)⟩

end Binary64

/-! ## Keys in a row -/

/-- The units that stand between the parts of a shape and at its end. -/
def CodeUnit.endsKey (u : CodeUnit) : Bool := u = ',' || u = ']' || u = '\x7d'

inductive IsKeyText : Text → Prop
  | quoted (t : Text) : IsKeyText t.jsonQuoted
  | bare {k : Text} (nonempty : k ≠ []) (units : ∀ u ∈ k, u.endsKey = false)
    (unquoted : k.head? ≠ some (CodeUnit.ofChar '"')) :
      IsKeyText k

theorem head?_jsonQuoted_append (t a : Text) : (t.jsonQuoted ++ a).head? = some (CodeUnit.ofChar '"') := by
  have quote : Text.ofString "\"" = [CodeUnit.ofChar '"'] := by decide
  rw [Text.jsonQuoted, quote]
  rfl

theorem head?_append_of_ne_nil {s t : Text} (h : s ≠ []) : (s ++ t).head? = s.head? := by
  obtain ⟨u, r, rfl⟩ := List.exists_cons_of_ne_nil h
  rfl

/-- The longest stretch without a unit that ends a key. -/
theorem takeWhile_bare {k a : Text} {u : CodeUnit} (units : ∀ u ∈ k, u.endsKey = false) (hu : u.endsKey = true) :
    (k ++ u :: a).takeWhile (fun u => !u.endsKey) = k := by
  rw [List.takeWhile_append_of_pos fun u h => by rw [units u h]; rfl, List.takeWhile_cons, hu]
  exact List.append_nil k

/-- A way of writing parts that shows where a part ends. -/
structure Delimited (P : Text → Prop) : Prop where
  opens : ∀ {p}, P p → ∃ u r, p = u :: r ∧ u.endsKey = false
  splits : ∀ {p q a b u v}, P p → P q → u.endsKey = true → v.endsKey = true → p ++ u :: a = q ++ v :: b →
    p = q ∧ u = v ∧ a = b

theorem delimited_keyText : Delimited IsKeyText where
  opens := by
    intro p hp
    cases hp with
    | quoted t => exact ⟨'"', t.jsonEscaped ++ "\"", rfl, by decide⟩
    | bare nonempty units _ =>
      obtain ⟨u, r, rfl⟩ := List.exists_cons_of_ne_nil nonempty
      exact ⟨u, r, rfl, units u List.mem_cons_self⟩
  splits := by
    intro p q a b u v hp hq hu hv h
    have heads (s t : Text) {x y : CodeUnit} (ht : t ≠ []) (unquoted : t.head? ≠ some (CodeUnit.ofChar '"'))
        (h : s.jsonQuoted ++ x :: a = t ++ y :: b) : False := by
      have := congrArg List.head? h
      rw [head?_jsonQuoted_append, head?_append_of_ne_nil ht] at this
      exact unquoted this.symm
    cases hp with
    | quoted s =>
      cases hq with
      | quoted t =>
        obtain ⟨rfl, rest⟩ := jsonQuoted_append_inj h
        cases rest
        exact ⟨rfl, rfl, rfl⟩
      | bare nonempty _ unquoted => exact (heads s q nonempty unquoted h).elim
    | bare nonempty units unquoted =>
      cases hq with
      | quoted t =>
        have := congrArg List.head? h
        rw [head?_jsonQuoted_append, head?_append_of_ne_nil nonempty] at this
        exact (unquoted this).elim
      | bare _ units' _ =>
        have same := congrArg (List.takeWhile fun u => !u.endsKey) h
        rw [takeWhile_bare units hu, takeWhile_bare units' hv] at same
        subst same
        cases List.append_cancel_left h
        exact ⟨rfl, rfl, rfl⟩

/-- A field of a shape: the name in quotes, a colon and the key. -/
def fieldText (f : Text × Text) : Text := f.1.jsonQuoted ++ ":" ++ f.2

theorem fieldText_append_inj {f g : Text × Text} {a b : Text} (h : fieldText f ++ a = fieldText g ++ b) :
    f.1 = g.1 ∧ f.2 ++ a = g.2 ++ b := by
  unfold fieldText at h
  rw [List.append_assoc, List.append_assoc, List.append_assoc, List.append_assoc] at h
  obtain ⟨names, rest⟩ := jsonQuoted_append_inj h
  exact ⟨names, List.append_cancel_left rest⟩

theorem delimited_fieldText : Delimited fun p => ∃ f : Text × Text, IsKeyText f.2 ∧ p = fieldText f where
  opens := by
    rintro p ⟨f, _, rfl⟩
    exact ⟨'"', f.1.jsonEscaped ++ "\"" ++ ":" ++ f.2, rfl, by decide⟩
  splits := by
    rintro p q a b u v ⟨f, hf, rfl⟩ ⟨g, hg, rfl⟩ hu hv h
    obtain ⟨names, rest⟩ := fieldText_append_inj h
    obtain ⟨keys, stop, rest⟩ := delimited_keyText.splits hf hg hu hv rest
    exact ⟨by rw [fieldText, fieldText, names, keys], stop, rest⟩

/-- A part in a row is followed by a unit that ends it. -/
theorem exists_join_cons {c : CodeUnit} (hc : c.endsKey = true) (p : Text) (ps : List Text) :
    ∃ u r, Text.join "," (p :: ps) ++ [c] = p ++ u :: r ∧ u.endsKey = true ∧
      ((ps = [] ∧ u = c) ∨ (ps ≠ [] ∧ u = ',' ∧ r = Text.join "," ps ++ [c])) := by
  have comma : Text.ofString "," = [CodeUnit.ofChar ','] := by decide
  cases ps with
  | nil => exact ⟨c, [], by rw [Text.join_singleton], hc, .inl ⟨rfl, rfl⟩⟩
  | cons q qs =>
    refine ⟨',', Text.join "," (q :: qs) ++ [c], ?_, by decide, .inr ⟨List.cons_ne_nil _ _, rfl, rfl⟩⟩
    rw [Text.join_cons_cons, List.append_assoc, List.append_assoc, comma]
    rfl

/-- **Parts with commas between them are told apart.** -/
theorem Delimited.join_inj {P : Text → Prop} (hP : Delimited P) {c : CodeUnit} (hc : c.endsKey = true)
    (closing : c ≠ ',') : ∀ {ps qs : List Text}, (∀ p ∈ ps, P p) → (∀ q ∈ qs, P q) →
      Text.join "," ps ++ [c] = Text.join "," qs ++ [c] → ps = qs := by
  have apart {p : Text} {ps : List Text} (hp : P p) (h : [c] = Text.join "," (p :: ps) ++ [c]) : False := by
    obtain ⟨u, r, rfl, hu⟩ := hP.opens hp
    obtain ⟨_, _, row, _⟩ := exists_join_cons hc (u :: r) ps
    rw [row, List.cons_append] at h
    rw [← (List.cons.inj h).1, hc] at hu
    cases hu
  intro ps
  induction ps with
  | nil =>
    intro qs _ hqs h
    cases qs with
    | nil => rfl
    | cons q qs => exact (apart (hqs q List.mem_cons_self) h).elim
  | cons p ps ih =>
    intro qs hps hqs h
    cases qs with
    | nil => exact (apart (hps p List.mem_cons_self) h.symm).elim
    | cons q qs =>
      obtain ⟨u, a, row, hu, more⟩ := exists_join_cons hc p ps
      obtain ⟨v, b, row', hv, more'⟩ := exists_join_cons hc q qs
      rw [row, row'] at h
      obtain ⟨rfl, rfl, rfl⟩ := hP.splits (hps p List.mem_cons_self) (hqs q List.mem_cons_self) hu hv h
      rcases more with ⟨rfl, rfl⟩ | ⟨_, comma, rest⟩
      · rcases more' with ⟨rfl, _⟩ | ⟨_, comma, _⟩
        · rfl
        · exact absurd comma closing
      · rcases more' with ⟨_, final⟩ | ⟨_, _, rest'⟩
        · exact absurd (final.symm.trans comma) closing
        · rw [ih (fun p hp => hps p (List.mem_cons_of_mem _ hp)) (fun q hq => hqs q (List.mem_cons_of_mem _ hq))
            (rest.symm.trans rest')]

/-! ## Shapes -/

def arrayShape (keys : List Text) : Text := "[" ++ Text.join "," keys ++ "]"

def objectShape (fields : List (Text × Text)) : Text := "\x7b" ++ Text.join "," (fields.map fieldText) ++ "\x7d"

theorem arrayShape_inj {ks ls : List Text} (hks : ∀ k ∈ ks, IsKeyText k) (hls : ∀ l ∈ ls, IsKeyText l)
    (h : arrayShape ks = arrayShape ls) : ks = ls := by
  have closing : Text.ofString "]" = [CodeUnit.ofChar ']'] := by decide
  unfold arrayShape at h
  rw [closing, List.append_assoc, List.append_assoc] at h
  exact delimited_keyText.join_inj (by decide) (by decide) hks hls (List.append_cancel_left h)

theorem objectShape_inj {fs gs : List (Text × Text)} (hfs : ∀ f ∈ fs, IsKeyText f.2) (hgs : ∀ g ∈ gs, IsKeyText g.2)
    (h : objectShape fs = objectShape gs) : fs = gs := by
  have closing : Text.ofString "\x7d" = [CodeUnit.ofChar '\x7d'] := by decide
  have part {fs : List (Text × Text)} (hfs : ∀ f ∈ fs, IsKeyText f.2) :
      ∀ p ∈ fs.map fieldText, ∃ f : Text × Text, IsKeyText f.2 ∧ p = fieldText f := fun p hp =>
    let ⟨f, hf, heq⟩ := List.mem_map.1 hp
    ⟨f, hfs f hf, heq.symm⟩
  unfold objectShape at h
  rw [closing, List.append_assoc, List.append_assoc] at h
  have texts := delimited_fieldText.join_inj (by decide) (by decide) (part hfs) (part hgs) (List.append_cancel_left h)
  refine List.map_inj_right (fun f g hfg => ?_) |>.1 texts
  obtain ⟨names, keys⟩ := fieldText_append_inj (a := []) (b := []) (congrArg (· ++ []) hfg)
  rw [List.append_nil, List.append_nil] at keys
  exact Prod.ext names keys

/-- No array has the shape of an object. -/
theorem arrayShape_ne_objectShape (ks : List Text) (fs : List (Text × Text)) : arrayShape ks ≠ objectShape fs := by
  intro h
  have heads := congrArg List.head? h
  have opening : Text.ofString "[" = [CodeUnit.ofChar '['] := by decide
  have opening' : Text.ofString "\x7b" = [CodeUnit.ofChar '\x7b'] := by decide
  rw [arrayShape, objectShape, opening, opening'] at heads
  exact absurd (Option.some.inj heads) (by decide)

end Cddl
