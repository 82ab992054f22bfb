import Cddl.Datum.Json
import Cddl.Proofs.Text
/-!
# JSON strings read back

`readJson` undoes the escapes of a JSON string.  So a string shows where it ends, and no two texts have the same one.
-/
namespace Cddl

/-- What the unit after a backslash stands for. -/
def jsonUnescape (u : CodeUnit) : CodeUnit :=
  if u = 'b' then 0x08 else if u = 't' then '\t' else if u = 'n' then '\n' else if u = 'f' then 0x0C
  else if u = 'r' then '\r' else u

/-- What a JSON string encloses and what follows it; the text begins behind the opening quote. -/
def readJson : Text → Option (Text × Text)
  | [] => none
  | u :: r =>
    if u = '"' then some ([], r)
    else if u = '\\' then
      match r with
      | e :: r =>
        if e = 'u' then
          match r with
          | a :: b :: c :: d :: r => (readJson r).map
            fun (t, rest) => (UInt16.ofNat (Text.toNat 16 [a, b, c, d]) :: t, rest)
          | _ => none
        else (readJson r).map fun (t, rest) => (jsonUnescape e :: t, rest)
      | [] => none
    else (readJson r).map fun (t, rest) => (u :: t, rest)

theorem readJson_quote (r : Text) : readJson (CodeUnit.ofChar '"' :: r) = some ([], r) := by
  rw [readJson.eq_def]
  simp only [if_true]

/-- The units that stand for themselves in a JSON string. -/
theorem readJson_cons {u : CodeUnit} (quote : u ≠ '"') (backslash : u ≠ '\\') (r : Text) :
    readJson (u :: r) = (readJson r).map fun (t, rest) => (u :: t, rest) := by
  rw [readJson.eq_def]
  simp only [if_neg quote, if_neg backslash]

/-- The units that a backslash and one unit more stand for. -/
theorem readJson_short {s : Text} {e u : CodeUnit} (hs : s = [CodeUnit.ofChar '\\', e]) (long : e ≠ 'u')
    (stands : jsonUnescape e = u)
    (r : Text) : readJson (s ++ r) = (readJson r).map fun (t, rest) => (u :: t, rest) := by
  have quote : CodeUnit.ofChar '\\' ≠ '"' := by decide
  rw [hs, List.cons_append, List.cons_append, readJson.eq_def]
  simp only [if_neg quote, if_neg long, if_true, List.nil_append, stands]

theorem CodeUnit.toNat_hexDigits (u : CodeUnit) : Text.toNat 16 u.hexDigits = u.toNat := by
  have zeros (n : Nat) : Text.toNat 16 (List.replicate n (CodeUnit.ofChar '0')) = 0 := by
    induction n with
    | zero => rfl
    | succ n ih => exact ih
  unfold hexDigits
  rw [Text.toNat_append, zeros]
  exact Text.toNat_toDigits (by decide) (by decide) _

theorem CodeUnit.length_hexDigits (u : CodeUnit) : u.hexDigits.length = 4 := by
  have := (Nat.length_toDigits_le_iff (n := u.toNat) (b := 16) (k := 4) (by decide) (by decide)).2 u.toNat_lt
  unfold hexDigits
  rw [List.length_append, List.length_replicate, List.length_map]
  omega

theorem readJson_hexDigits (u : CodeUnit) (r : Text) :
    readJson ("\\u" ++ u.hexDigits ++ r) = (readJson r).map fun (t, rest) => (u :: t, rest) := by
  have value := u.toNat_hexDigits
  have length := u.length_hexDigits
  match digits : u.hexDigits, length with
  | [a, b, c, d], _ =>
    rw [digits] at value
    have back : UInt16.ofNat (Text.toNat 16 [a, b, c, d]) = u := by rw [value]; exact UInt16.ofNat_toNat
    have quote : CodeUnit.ofChar '\\' ≠ '"' := by decide
    have escape : Text.ofString "\\u" = [CodeUnit.ofChar '\\', CodeUnit.ofChar 'u'] := by decide
    rw [escape, List.cons_append, List.cons_append, List.cons_append, readJson.eq_def]
    simp only [if_neg quote, if_true, List.cons_append, List.nil_append, back]

theorem readJson_jsonEscaped_unit (u : CodeUnit) (r : Text) :
    readJson (u.jsonEscaped ++ r) = (readJson r).map fun (t, rest) => (u :: t, rest) := by
  unfold CodeUnit.jsonEscaped
  split
  · exact readJson_short (e := '"') (by decide) (by decide) (by rw [‹u = _›]; decide) r
  split
  · exact readJson_short (e := '\\') (by decide) (by decide) (by rw [‹u = _›]; decide) r
  split
  · exact readJson_short (e := 'b') (by decide) (by decide) (by rw [‹u = _›]; decide) r
  split
  · exact readJson_short (e := 't') (by decide) (by decide) (by rw [‹u = _›]; decide) r
  split
  · exact readJson_short (e := 'n') (by decide) (by decide) (by rw [‹u = _›]; decide) r
  split
  · exact readJson_short (e := 'f') (by decide) (by decide) (by rw [‹u = _›]; decide) r
  split
  · exact readJson_short (e := 'r') (by decide) (by decide) (by rw [‹u = _›]; decide) r
  split
  · exact readJson_hexDigits u r
  · exact readJson_cons ‹_› ‹_› r

/-- **What a JSON string encloses can be read off from it, whatever follows.** -/
theorem readJson_jsonEscaped (t r : Text) : readJson (t.jsonEscaped ++ (CodeUnit.ofChar '"' :: r)) = some (t, r) := by
  fun_induction Text.jsonEscaped t with
  | case1 => exact readJson_quote r
  | case2 u => rw [readJson_jsonEscaped_unit, readJson_quote]; rfl
  | case3 u v s pair ih =>
    have high : u.isHigh = true := (Bool.and_eq_true_iff.1 pair).1
    have low : v.isLow = true := (Bool.and_eq_true_iff.1 pair).2
    have plain {x y : CodeUnit} {f : CodeUnit → Bool} (hx : f x = true) (hy : f y = false) : x ≠ y := by
      rintro rfl
      rw [hx] at hy
      cases hy
    rw [List.cons_append, List.cons_append, readJson_cons (plain high (by decide)) (plain high (by decide)),
      readJson_cons (plain low (by decide)) (plain low (by decide)), ih]
    rfl
  | case4 u v s _ ih => rw [List.append_assoc, readJson_jsonEscaped_unit, ih]; rfl

/-- A JSON string is not the beginning of another one. -/
theorem jsonQuoted_append_inj {s t a b : Text} (h : s.jsonQuoted ++ a = t.jsonQuoted ++ b) : s = t ∧ a = b := by
  have inside : s.jsonEscaped ++ (CodeUnit.ofChar '"' :: a) = t.jsonEscaped ++ (CodeUnit.ofChar '"' :: b) := by
    have quote : Text.ofString "\"" = [CodeUnit.ofChar '"'] := by decide
    simpa only [Text.jsonQuoted, quote, List.append_assoc, List.cons_append, List.nil_append, List.cons.injEq, true_and]
      using h
  have read := readJson_jsonEscaped s a
  rw [inside, readJson_jsonEscaped] at read
  cases read
  exact ⟨rfl, rfl⟩

end Cddl
