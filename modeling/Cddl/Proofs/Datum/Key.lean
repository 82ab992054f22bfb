import Cddl.Proofs.Datum.KeyText
import Cddl.Proofs.Datum.Same
/-!
# Keys decide structural equality

`HasKey` says which key a datum has in a table of shapes.  Keying a datum adds shapes at the end of the table and takes
none away, so a key that a datum has it keeps, and all the keys that are ever given out belong to the last table.
-/
namespace Cddl

/-! ## What a key shows -/

/-- What the text of a key shows of the datum; arrays and objects are told apart only by their shapes. -/
inductive KeyKind where
  | null | absent | bool | int | float | text | part
  deriving DecidableEq

def Text.keyKind (k : Text) : KeyKind :=
  if k.head? = some (CodeUnit.ofChar '"') then .text
  else if k.head? = some (CodeUnit.ofChar '#') then .part
  else if k.head? = some (CodeUnit.ofChar 'n') then .null
  else if k.head? = some (CodeUnit.ofChar 'u') then .absent
  else if k.head? = some (CodeUnit.ofChar 't') ∨ k.head? = some (CodeUnit.ofChar 'f') then .bool
  else if k.getLast? = some (CodeUnit.ofChar 'n') then .int
  else .float

def Datum.keyKind : Datum → KeyKind
  | .null => .null
  | .absent => .absent
  | .bool _ => .bool
  | .int _ => .int
  | .float _ => .float
  | .text _ => .text
  | .array _ => .part
  | .object _ => .part

/-- The key of the shape at an index. -/
def partKey (i : Nat) : Text := "#" ++ Text.ofNat i

theorem partKey_inj {i j : Nat} (h : partKey i = partKey j) : i = j :=
  Text.ofNat_injective (List.append_cancel_left h)

open Binary64 (isNumberUnit)

theorem keyKind_of_number {k : Text} {u : CodeUnit} (head : k.head? = some u) (hu : isNumberUnit u = true) :
    k.keyKind = if k.getLast? = some (CodeUnit.ofChar 'n') then .int else .float := by
  have not (c : CodeUnit) (hc : isNumberUnit c = false) : k.head? ≠ some c := by
    intro h
    rw [head] at h
    cases h
    rw [hc] at hu
    cases hu
  unfold Text.keyKind
  rw [if_neg (not _ (by decide)), if_neg (not _ (by decide)), if_neg (not _ (by decide)), if_neg (not _ (by decide)),
    if_neg (not_or.2 ⟨not _ (by decide), not _ (by decide)⟩)]

theorem keyKind_int (n : Int) : (Text.ofInt n ++ "n").keyKind = .int := by
  have last : Text.ofString "n" = [CodeUnit.ofChar 'n'] := by decide
  obtain ⟨u, r, split⟩ := List.exists_cons_of_ne_nil (Text.ofInt_ne_nil n)
  have hu := List.all_eq_true.1 (Binary64.all_ofInt n) u (split ▸ List.mem_cons_self)
  rw [keyKind_of_number (u := u) (by rw [split]; rfl) hu, last, List.getLast?_concat, if_pos rfl]

theorem keyKind_float (x : Binary64) : (Datum.floatKey x).keyKind = .float := by
  unfold Datum.floatKey
  split
  · decide
  · cases x with
    | nan => decide
    | infinity negative => cases negative <;> decide
    | finite negative significand exponent =>
      have units := Binary64.all_toText negative significand exponent
      have nonempty := Binary64.toText_ne_nil negative significand exponent
      obtain ⟨u, r, split⟩ := List.exists_cons_of_ne_nil nonempty
      have hu := List.all_eq_true.1 units u (split ▸ List.mem_cons_self)
      rw [keyKind_of_number (u := u) (by rw [split]; rfl) hu]
      refine if_neg fun last => ?_
      have := List.all_eq_true.1 units _ (List.mem_of_getLast? last)
      exact absurd this (by decide)

theorem apart_of_number {u : CodeUnit} (hu : isNumberUnit u = true) : u.endsKey = false ∧ u ≠ '"' := by
  have not (c : CodeUnit) (hc : isNumberUnit c = false) : u ≠ c := by
    rintro rfl
    rw [hc] at hu
    cases hu
  unfold CodeUnit.endsKey
  rw [decide_eq_false (not _ (by decide)), decide_eq_false (not _ (by decide)), decide_eq_false (not _ (by decide))]
  exact ⟨rfl, not _ (by decide)⟩

theorem isKeyText_of_number {k : Text} (nonempty : k ≠ []) (h : k.all isNumberUnit = true) : IsKeyText k := by
  refine .bare nonempty (fun u hu => (apart_of_number (List.all_eq_true.1 h u hu)).1) fun head => ?_
  exact (apart_of_number (List.all_eq_true.1 h _ (List.mem_of_head? head))).2 rfl

theorem isKeyText_of_word {k : Text} (nonempty : k ≠ []) (units : k.all (fun u => !u.endsKey) = true)
    (unquoted : k.head? ≠ some (CodeUnit.ofChar '"')) : IsKeyText k :=
  .bare nonempty (fun u hu => (Bool.not_eq_true' _).mp (List.all_eq_true.1 units u hu)) unquoted

theorem IsKeyText.append {s t : Text} (hs : IsKeyText s) (bare : s.head? ≠ some (CodeUnit.ofChar '"'))
    (ht : t.all (fun u => !u.endsKey) = true) : IsKeyText (s ++ t) := by
  cases hs with
  | quoted t =>
    have head := head?_jsonQuoted_append t []
    rw [List.append_nil] at head
    exact absurd head bare
  | bare nonempty units _ =>
    refine .bare (List.append_ne_nil_of_left_ne_nil nonempty t) ?_ ?_
    · exact List.forall_mem_append.2 ⟨units, fun u hu => (Bool.not_eq_true' _).mp (List.all_eq_true.1 ht u hu)⟩
    · rw [head?_append_of_ne_nil nonempty]
      exact bare

namespace Datum

/-! ## Keys in a table -/

/-- A datum has a key in a table of shapes. -/
inductive HasKey (shapes : List Text) : Datum → Text → Prop
  | null : HasKey shapes .null "null"
  | absent : HasKey shapes .absent "undefined"
  | bool (b : Bool) : HasKey shapes (.bool b) (if b then "true" else "false")
  | int (n : Int) : HasKey shapes (.int n) (Text.ofInt n ++ "n")
  | float (x : Binary64) : HasKey shapes (.float x) (floatKey x)
  | text (t : Text) : HasKey shapes (.text t) t.jsonQuoted
  | array {ds : List Datum} {ks : List Text} {i : Nat} (length : ks.length = ds.length)
      (items : ∀ (j : Nat) (d : Datum) (k : Text), ds[j]? = some d → ks[j]? = some k → HasKey shapes d k)
      (known : shapes[i]? = some (arrayShape ks)) : HasKey shapes (.array ds) (partKey i)
  | object {fs : List (Text × Datum)} {ks : List Text} {i : Nat} (length : ks.length = (sortFields (present fs)).length)
      (values : ∀ (j : Nat) (f : Text × Datum) (k : Text), (sortFields (present fs))[j]? = some f → ks[j]? = some k →
        HasKey shapes f.2 k)
      (known : shapes[i]? = some (objectShape (((sortFields (present fs)).map Prod.fst).zip ks))) :
      HasKey shapes (.object fs) (partKey i)

variable {shapes shapes' : List Text} {d e : Datum} {k l : Text}

/-- A key is kept as shapes are added. -/
theorem HasKey.mono (h : HasKey shapes d k) (more : shapes <+: shapes') : HasKey shapes' d k := by
  have kept {i : Nat} {shape : Text} (h : shapes[i]? = some shape) : shapes'[i]? = some shape := by
    obtain ⟨rest, rfl⟩ := more
    rw [List.getElem?_append_left (List.getElem?_eq_some_iff.1 h).1]
    exact h
  induction h with
  | null => exact .null
  | absent => exact .absent
  | bool b => exact .bool b
  | int n => exact .int n
  | float x => exact .float x
  | text t => exact .text t
  | array length _ known ih => exact .array length ih (kept known)
  | object length _ known ih => exact .object length ih (kept known)

theorem HasKey.keyKind (h : HasKey shapes d k) : k.keyKind = d.keyKind := by
  cases h with
  | null => decide
  | absent => decide
  | bool b => cases b <;> decide
  | int n => exact keyKind_int n
  | float x => exact keyKind_float x
  | text t =>
    have head := head?_jsonQuoted_append t []
    rw [List.append_nil] at head
    unfold Text.keyKind
    rw [if_pos head]
    rfl
  | array => rfl
  | object => rfl

theorem HasKey.isKeyText (h : HasKey shapes d k) : IsKeyText k := by
  have digits (i : Nat) : (Text.ofNat i).all (fun u => !u.endsKey) = true := List.all_eq_true.2 fun u hu =>
    (Bool.not_eq_true' _).mpr (apart_of_number (Binary64.isNumberUnit_of_isDigit (Text.isDigit_of_mem_ofNat hu))).1
  have part (i : Nat) : IsKeyText (partKey i) :=
    isKeyText_of_word (by decide) (by decide) (by decide) |>.append (by decide) (digits i)
  cases h with
  | null => exact isKeyText_of_word (by decide) (by decide) (by decide)
  | absent => exact isKeyText_of_word (by decide) (by decide) (by decide)
  | bool b => cases b <;> exact isKeyText_of_word (by decide) (by decide) (by decide)
  | int n =>
    refine (isKeyText_of_number (Text.ofInt_ne_nil n) (Binary64.all_ofInt n)).append ?_ (by decide)
    intro head
    exact (apart_of_number (List.all_eq_true.1 (Binary64.all_ofInt n) _ (List.mem_of_head? head))).2 rfl
  | float x =>
    unfold floatKey
    split
    · exact isKeyText_of_word (by decide) (by decide) (by decide)
    · cases x with
      | nan => exact isKeyText_of_word (by decide) (by decide) (by decide)
      | infinity negative => cases negative <;> exact isKeyText_of_word (by decide) (by decide) (by decide)
      | finite => exact isKeyText_of_number (Binary64.toText_ne_nil _ _ _) (Binary64.all_toText _ _ _)
  | text t => exact .quoted t
  | array => exact part _
  | object => exact part _

/-! ## Keying -/

/-- A computation that only adds shapes to a table without repetitions, and whose result is right in the table that it
leaves behind. -/
def Interns {β : Type} (m : StateM KeyTable β) (result : List Text → β → Prop) : Prop :=
  ∀ table : KeyTable, table.shapes.Nodup → ∃ b table', m table = (b, table') ∧ table.shapes <+: table'.shapes ∧
    table'.shapes.Nodup ∧ result table'.shapes b

namespace Interns

variable {α β γ : Type}

theorem bind {m : StateM KeyTable β} {f : β → StateM KeyTable γ} {P : List Text → β → Prop} {Q : List Text → γ → Prop}
    (hm : Interns m P) (mono : ∀ {s s' : List Text} {b : β}, P s b → s <+: s' → P s' b)
    (hf : ∀ b, Interns (f b) fun s c => P s b → Q s c) : Interns (m >>= f) Q := by
  intro table distinct
  obtain ⟨b, table', first, more, distinct', hb⟩ := hm table distinct
  obtain ⟨c, table'', second, more', distinct'', hc⟩ := hf b table' distinct'
  refine ⟨c, table'', ?_, more.trans more', distinct'', hc (mono hb more')⟩
  have step : (m >>= f) table = f (m table).1 (m table).2 := rfl
  rw [step, first]
  exact second

theorem pure {b : β} {P : List Text → β → Prop} (h : ∀ s, P s b) : Interns (pure b) P := fun table distinct =>
  ⟨b, table, rfl, List.prefix_refl _, distinct, h _⟩

/-- A shape is numbered by where it stands in the table. -/
theorem number (shape : Text) :
    Interns (KeyTable.number shape) fun s k => ∃ i, k = partKey i ∧ s[i]? = some shape := by
  intro table distinct
  unfold KeyTable.number
  cases h : table.shapes.idxOf? shape with
  | some i =>
    obtain ⟨hi, found, _⟩ := List.idxOf?_eq_some_iff.1 h
    exact ⟨partKey i, table, rfl, List.prefix_refl _, distinct, i, rfl, List.getElem?_eq_some_iff.2 ⟨hi, found⟩⟩
  | none =>
    refine ⟨partKey table.shapes.length, ⟨table.shapes ++ [shape]⟩, rfl, List.prefix_append _ _, ?_, _, rfl, ?_⟩
    · have new : shape ∉ table.shapes := List.idxOf?_eq_none_iff.1 h
      refine List.nodup_append.2 ⟨distinct, List.nodup_cons.2 ⟨List.not_mem_nil, List.nodup_nil⟩, fun x hx y hy => ?_⟩
      rintro rfl
      rw [List.mem_singleton.1 hy] at hx
      exact new hx
    · exact List.getElem?_concat_length

theorem mapM {m : α → StateM KeyTable β} {P : α → List Text → β → Prop} (g : α → β → γ)
    (mono : ∀ (a : α) {s s' : List Text} {b : β}, P a s b → s <+: s' → P a s' b) :
    ∀ l : List α, (∀ a ∈ l, Interns (m a) (P a)) →
      Interns (l.mapM fun a => do return g a (← m a)) fun s cs => ∃ bs, cs = List.zipWith g l bs ∧
        bs.length = l.length ∧ ∀ (j : Nat) (a : α) (b : β), l[j]? = some a → bs[j]? = some b → P a s b
  | [], _ => by
    rw [List.mapM_nil]
    exact pure fun s => ⟨[], rfl, rfl, fun j a b h => by cases h⟩
  | a :: l, h => by
    rw [List.mapM_cons]
    refine bind (m := do return g a (← m a)) (P := fun s c => ∃ b, c = g a b ∧ P a s b) ?_ ?_ ?_
    · exact bind (h a List.mem_cons_self) (mono a) fun b => pure fun s hb => ⟨b, rfl, hb⟩
    · rintro s s' c ⟨b, rfl, hb⟩ more
      exact ⟨b, rfl, mono a hb more⟩
    · intro c
      refine bind (mapM g mono l fun a ha => h a (List.mem_cons_of_mem _ ha)) ?_ fun cs => pure ?_
      · rintro s s' cs ⟨bs, rfl, length, all⟩ more
        exact ⟨bs, rfl, length, fun j a b ha hb => mono a (all j a b ha hb) more⟩
      · rintro s ⟨bs, rfl, length, all⟩ ⟨b, rfl, hb⟩
        refine ⟨b :: bs, rfl, by rw [List.length_cons, List.length_cons, length], fun j x y hx hy => ?_⟩
        cases j with
        | zero =>
          cases hx
          cases hy
          exact hb
        | succ j => exact all j x y hx hy

end Interns

theorem itemKeys_eq : ∀ ds : List Datum, itemKeys ds = ds.map key
  | [] => rfl
  | d :: ds => by rw [itemKeys, itemKeys_eq ds, List.map_cons]

theorem fieldKeys_eq : ∀ fs : List (Text × Datum), fieldKeys fs = (present fs).map fun f => (f.1, key f.2)
  | [] => rfl
  | (name, d) :: fs => by
    cases d
    case absent => exact fieldKeys_eq fs
    all_goals
      rw [fieldKeys, fieldKeys_eq fs]
      · rfl
      · intro h
        cases h

theorem Interns.keys {ds : List Datum} (h : ∀ d ∈ ds, Interns (key d) fun s k => HasKey s d k) :
    Interns (ds.mapM key) fun s ks => ks.length = ds.length ∧
      ∀ (j : Nat) (d : Datum) (k : Text), ds[j]? = some d → ks[j]? = some k → HasKey s d k := by
  intro table distinct
  obtain ⟨_, table', run, more, distinct', ks, rfl, length, all⟩ :=
    mapM (m := key) (P := fun d s k => HasKey s d k) (fun _ k => k) (fun _ => HasKey.mono) ds h table distinct
  have same : List.zipWith (fun (_ : Datum) k => k) ds ks = ks :=
    (List.map_zip_eq_zipWith (f := Prod.snd)).symm.trans (List.map_snd_zip (Nat.le_of_eq length))
  rw [same] at run
  exact ⟨ks, table', run, more, distinct', length, all⟩

theorem Interns.fields {fs : List (Text × Datum)} (h : ∀ f ∈ fs, Interns (key f.2) fun s k => HasKey s f.2 k) :
    Interns (fs.mapM fun f => do return f.1.jsonQuoted ++ ":" ++ (← key f.2)) fun s parts => ∃ ks,
      parts = ((fs.map Prod.fst).zip ks).map fieldText ∧ ks.length = fs.length ∧
        ∀ (j : Nat) (f : Text × Datum) (k : Text), fs[j]? = some f → ks[j]? = some k → HasKey s f.2 k := by
  intro table distinct
  obtain ⟨_, table', run, more, distinct', ks, rfl, length, all⟩ :=
    mapM (m := fun f : Text × Datum => key f.2) (P := fun f s k => HasKey s f.2 k)
      (fun f k => f.1.jsonQuoted ++ ":" ++ k) (fun _ => HasKey.mono) fs h table distinct
  refine ⟨_, table', run, more, distinct', ks, ?_, length, all⟩
  rw [List.zip, List.map_zipWith, List.zipWith_map_left]
  rfl

/-- **Keying a datum gives it its key in the table that is left behind.** -/
theorem key_interns (d : Datum) : Interns (key d) fun s k => HasKey s d k := by
  cases d with
  | null => exact .pure fun _ => .null
  | absent => exact .pure fun _ => .absent
  | bool b => exact .pure fun _ => .bool b
  | int n => exact .pure fun _ => .int n
  | float x => exact .pure fun _ => .float x
  | text t => exact .pure fun _ => .text t
  | array ds =>
    rw [key, keyArray, itemKeys_eq, List.mapM_map]
    refine .bind (.keys fun d hd => key_interns d) ?_ fun ks => ?_
    · rintro s s' ks ⟨length, all⟩ more
      exact ⟨length, fun j d k hd hk => (all j d k hd hk).mono more⟩
    · intro table distinct
      obtain ⟨_, table', run, more, distinct', i, rfl, known⟩ := Interns.number (arrayShape ks) table distinct
      exact ⟨_, table', run, more, distinct', fun ⟨length, all⟩ => .array length all known⟩
  | object fs =>
    rw [key, keyObject, fieldKeys_eq, sortFields_map, List.mapM_map]
    refine .bind (.fields fun f hf => key_interns f.2) ?_ fun parts => ?_
    · rintro s s' parts ⟨ks, rfl, length, all⟩ more
      exact ⟨ks, rfl, length, fun j f k hf hk => (all j f k hf hk).mono more⟩
    · intro table distinct
      obtain ⟨_, table', run, more, distinct', i, rfl, known⟩ :=
        Interns.number ("\x7b" ++ Text.join "," parts ++ "\x7d") table distinct
      refine ⟨_, table', run, more, distinct', ?_⟩
      rintro ⟨ks, rfl, length, all⟩
      exact .object length all known
termination_by d
decreasing_by
  · have := List.sizeOf_lt_of_mem hd
    simp only [array.sizeOf_spec]
    omega
  · have := List.sizeOf_lt_of_mem (mem_of_mem_present ((sortFields_perm _).mem_iff.1 hf))
    obtain ⟨name, d⟩ := f
    simp only [object.sizeOf_spec, Prod.mk.sizeOf_spec] at this ⊢
    omega

/-! ## Keys of the same and of different data -/

variable {numbers : Binary64 → Prop} {x y : Binary64}

theorem floatKey_inj (hx : x.Canonical) (hy : y.Canonical)
    (written : ¬ x.IsZero → ¬ y.IsZero → x.toText = y.toText → x = y) (h : floatKey x = floatKey y) : x = y := by
  have minus : floatKey (Binary64.zero true) = "-0" := by decide
  have plus : floatKey (Binary64.zero false) = "0" := by decide
  have other {z : Binary64} (hz : ¬ z.IsZero) : floatKey z = z.toText := if_neg fun h => hz (.inl h)
  have apart {z : Binary64} (hz : z.Canonical) (nonzero : ¬ z.IsZero) :
      floatKey z ≠ "0" ∧ floatKey z ≠ "-0" := by
    rw [other nonzero]
    exact Binary64.toText_ne_zero hz nonzero
  by_cases hx0 : x.IsZero
  · by_cases hy0 : y.IsZero
    · rcases hx0 with rfl | rfl <;> rcases hy0 with rfl | rfl
      · rfl
      · exact absurd h (by decide)
      · exact absurd h (by decide)
      · rfl
    · rcases hx0 with rfl | rfl
      · exact absurd (h.symm.trans minus) (apart hy hy0).2
      · exact absurd (h.symm.trans plus) (apart hy hy0).1
  · by_cases hy0 : y.IsZero
    · rcases hy0 with rfl | rfl
      · exact absurd (h.trans minus) (apart hx hx0).2
      · exact absurd (h.trans plus) (apart hx hx0).1
    · rw [other hx0, other hy0] at h
      exact written hx0 hy0 h

theorem HasKey.keyKind_eq (h : HasKey shapes d k) (h' : HasKey shapes e l) (same : k = l) : d.keyKind = e.keyKind := by
  rw [← h.keyKind, ← h'.keyKind, same]

theorem isKeyText_of_mem {α : Type} {g : α → Datum} {xs : List α} {ks : List Text}
    (length : ks.length = xs.length)
    (all : ∀ (j : Nat) (x : α) (k : Text), xs[j]? = some x → ks[j]? = some k → HasKey shapes (g x) k) :
    ∀ k ∈ ks, IsKeyText k := by
  intro k hk
  obtain ⟨j, hj⟩ := List.mem_iff_getElem?.1 hk
  have inside := (List.getElem?_eq_some_iff.1 hj).1
  exact (all j _ k (List.getElem?_eq_getElem (length ▸ inside)) hj).isKeyText

theorem known_unique {i j : Nat} {shape shape' : Text} (known : shapes[i]? = some shape)
    (known' : shapes[j]? = some shape') (h : partKey i = partKey j) : shape = shape' := by
  rw [partKey_inj h, known'] at known
  exact (Option.some.inj known).symm

/-- **Data with one key is the same.** -/
theorem HasKey.same (canonical : ∀ x, numbers x → x.Canonical)
    (written : ∀ x y, numbers x → numbers y → ¬ x.IsZero → ¬ y.IsZero → x.toText = y.toText → x = y)
    (h : HasKey shapes d k) : ∀ {e : Datum} {l : Text}, HasKey shapes e l → Over numbers d → Over numbers e → k = l →
      Same d e := by
  induction h with
  | null =>
    intro e l h' _ _ heq
    have kinds := keyKind_eq .null h' heq
    cases h' with
    | null => exact .null
    | _ => cases kinds
  | absent =>
    intro e l h' _ _ heq
    have kinds := keyKind_eq .absent h' heq
    cases h' with
    | absent => exact .absent
    | _ => cases kinds
  | bool b =>
    intro e l h' _ _ heq
    have kinds := keyKind_eq (.bool b) h' heq
    cases h' with
    | bool c =>
      have : b = c := by revert heq; cases b <;> cases c <;> decide
      exact this ▸ .bool b
    | _ => cases kinds
  | int n =>
    intro e l h' _ _ heq
    have kinds := keyKind_eq (.int n) h' heq
    cases h' with
    | int m =>
      obtain rfl := Text.ofInt_injective (List.append_cancel_right heq)
      exact .int n
    | _ => cases kinds
  | float x =>
    intro e l h' hd he heq
    have kinds := keyKind_eq (.float x) h' heq
    cases h' with
    | float y =>
      cases hd with | float hx =>
      cases he with | float hy =>
      obtain rfl := floatKey_inj (canonical x hx) (canonical y hy) (written x y hx hy) heq
      exact .float x
    | _ => cases kinds
  | text t =>
    intro e l h' _ _ heq
    have kinds := keyKind_eq (.text t) h' heq
    cases h' with
    | text t' =>
      obtain rfl := (jsonQuoted_append_inj (a := []) (b := []) (congrArg (· ++ []) heq)).1
      exact .text t
    | _ => cases kinds
  | @array ds ks i length items known ih =>
    intro e l h' hd he heq
    have kinds := keyKind_eq (.array length items known) h' heq
    cases h' with
    | @array es ls j length' items' known' =>
      cases hd with | array hd =>
      cases he with | array he =>
      obtain rfl := arrayShape_inj (isKeyText_of_mem (g := id) length items)
        (isKeyText_of_mem (g := id) length' items') (known_unique known known' heq)
      refine .array (length.symm.trans length') fun j d e hj hj' => ?_
      have inside := (List.getElem?_eq_some_iff.1 hj).1
      have key := List.getElem?_eq_getElem (length ▸ inside : j < ks.length)
      exact ih j d _ hj key (items' j e _ hj' key) (hd d (List.mem_of_getElem? hj))
        (he e (List.mem_of_getElem? hj')) rfl
    | object _ _ known' => exact absurd (known_unique known known' heq) (arrayShape_ne_objectShape _ _)
    | _ => cases kinds
  | @object fs ks i length values known ih =>
    intro e l h' hd he heq
    have kinds := keyKind_eq (.object length values known) h' heq
    cases h' with
    | array _ _ known' => exact absurd (known_unique known known' heq).symm (arrayShape_ne_objectShape _ _)
    | @object gs ls j length' values' known' =>
      cases hd with | object distinct hd =>
      cases he with | object distinct' he =>
      have pairs := objectShape_inj (fun p hp => isKeyText_of_mem length values _ (List.of_mem_zip hp).2)
        (fun p hp => isKeyText_of_mem length' values' _ (List.of_mem_zip hp).2) (known_unique known known' heq)
      have names := congrArg (List.map Prod.fst) pairs
      rw [List.map_fst_zip (by rw [List.length_map]; omega), List.map_fst_zip (by rw [List.length_map]; omega)] at names
      have keys := congrArg (List.map Prod.snd) pairs
      rw [List.map_snd_zip (by rw [List.length_map]; omega), List.map_snd_zip (by rw [List.length_map]; omega)] at keys
      subst keys
      refine .object (fun name => ?_) fun name d e hvd hve => ?_
      · rw [Bool.eq_iff_iff, isSome_value? distinct, isSome_value? distinct', names]
      · obtain ⟨j, hj, hj'⟩ := exists_index distinct distinct' names hvd hve
        have inside := (List.getElem?_eq_some_iff.1 hj).1
        have key := List.getElem?_eq_getElem (length ▸ inside : j < ks.length)
        exact ih j _ _ hj key (values' j _ _ hj' key) (hd _ (mem_of_mem_present ((value?_eq_some distinct).1 hvd)))
          (he _ (mem_of_mem_present ((value?_eq_some distinct').1 hve))) rfl
    | _ => cases kinds

/-- **The same data has one key.** -/
theorem Same.key_eq (table : shapes.Nodup) (h : Same d e) : ∀ {k l : Text}, HasKey shapes d k → HasKey shapes e l →
    Over numbers d → Over numbers e → k = l := by
  have numbered {i j : Nat} {shape shape' : Text} (known : shapes[i]? = some shape) (known' : shapes[j]? = some shape')
      (h : shape = shape') : partKey i = partKey j := by
    obtain ⟨hi, _⟩ := List.getElem?_eq_some_iff.1 known
    rw [(List.getElem?_inj hi table).1 (known.trans (h ▸ known'.symm))]
  induction h with
  | null | absent | bool | int | float | text =>
    intro k l h h' _ _
    cases h
    cases h'
    rfl
  | array size _ ih =>
    intro k l h h' hd he
    cases h with | @array _ ks _ length items known =>
    cases h' with | @array _ ls _ length' items' known' =>
    cases hd with | array hd =>
    cases he with | array he =>
    refine numbered known known' (congrArg arrayShape (List.ext_getElem (by omega) fun j hj hj' => ?_))
    have first := List.getElem?_eq_getElem (length ▸ hj : j < _)
    have second := List.getElem?_eq_getElem (length' ▸ hj' : j < _)
    exact ih j _ _ first second (items j _ _ first (List.getElem?_eq_getElem hj))
      (items' j _ _ second (List.getElem?_eq_getElem hj')) (hd _ (List.mem_of_getElem? first))
      (he _ (List.mem_of_getElem? second))
  | object names _ ih =>
    intro k l h h' hd he
    cases h with | @object _ ks _ length values known =>
    cases h' with | @object _ ls _ length' values' known' =>
    cases hd with | object distinct hd =>
    cases he with | object distinct' he =>
    have order := names_sortFields_eq distinct distinct' names
    have size := congrArg List.length order
    rw [List.length_map, List.length_map] at size
    have keys : ks = ls := by
      refine List.ext_getElem (by omega) fun j hj hj' => ?_
      have first := List.getElem?_eq_getElem (length ▸ hj : j < _)
      have second := List.getElem?_eq_getElem (length' ▸ hj' : j < _)
      have name := congrArg (·[j]?) order
      simp only [List.getElem?_map, first, second, Option.map_some, Option.some.injEq] at name
      have found := value?_of_getElem? distinct first
      have found' := value?_of_getElem? distinct' second
      rw [← name] at found'
      exact ih _ _ _ found found' (values j _ _ first (List.getElem?_eq_getElem hj))
        (values' j _ _ second (List.getElem?_eq_getElem hj'))
        (hd _ (mem_of_mem_present (mem_sortFields_present.1 (List.mem_of_getElem? first))))
        (he _ (mem_of_mem_present (mem_sortFields_present.1 (List.mem_of_getElem? second))))
    exact numbered known known' (by rw [order, keys])

/-- **Keys given out by one table are equal exactly where the data is structurally equal.**  The data may be built over
any canonical numbers of which no two that are not zero are written alike. -/
theorem keys_eq_iff_same {numbers : Binary64 → Prop} (canonical : ∀ x, numbers x → x.Canonical)
    (written : ∀ x y, numbers x → numbers y → ¬ x.IsZero → ¬ y.IsZero → x.toText = y.toText → x = y)
    (data : List Datum) (built : ∀ d ∈ data, d.Over numbers) :
    ∃ keys : List Text, ((data.mapM key).run {}).1 = keys ∧ keys.length = data.length ∧
      ∀ (i j : Nat) (d e : Datum), data[i]? = some d → data[j]? = some e → (keys[i]? = keys[j]? ↔ Same d e) := by
  obtain ⟨keys, table, run, _, distinct, length, all⟩ :=
    (Interns.keys fun d _ => key_interns d : Interns (data.mapM key) _) {} List.nodup_nil
  refine ⟨keys, congrArg Prod.fst run, length, fun i j d e hi hj => ?_⟩
  have first := List.getElem?_eq_getElem (length ▸ (List.getElem?_eq_some_iff.1 hi).1 : i < keys.length)
  have second := List.getElem?_eq_getElem (length ▸ (List.getElem?_eq_some_iff.1 hj).1 : j < keys.length)
  have hd := all i d _ hi first
  have he := all j e _ hj second
  have overd := built d (List.mem_of_getElem? hi)
  have overe := built e (List.mem_of_getElem? hj)
  rw [first, second, Option.some.injEq]
  exact ⟨hd.same canonical written he overd overe, fun same => same.key_eq distinct hd he overd overe⟩

/-- Two objects of one field, the first with another field that is not there, and an array of a negative zero. -/
theorem keys_eq_iff_same_sample :
    let half : Binary64 := .finite false (powerOfTwo 52) (-53)
    let data := [.object [("b", .absent), ("a", .float half)], .object [("a", .float half)],
      .array [.float (.zero true), .float .nan]]
    ∃ keys : List Text, ((data.mapM key).run {}).1 = keys ∧ keys.length = 3 ∧ keys[0]? = keys[1]? ∧
      keys[0]? ≠ keys[2]? := by
  intro half data
  have canonical : ∀ x ∈ [half, .zero true, .nan], x.Canonical := by
    intro x hx
    simp only [List.mem_cons, List.not_mem_nil, or_false] at hx
    rcases hx with rfl | rfl | rfl
    · exact ⟨by decide, by decide, by decide, .inl (by decide)⟩
    · exact ⟨by decide, by decide, by decide, .inr rfl⟩
    · exact trivial
  have written : ∀ x y, x ∈ [half, .zero true, .nan] → y ∈ [half, .zero true, .nan] → ¬ x.IsZero → ¬ y.IsZero →
      x.toText = y.toText → x = y := by
    have apart : half.toText ≠ "NaN" := by decide +kernel
    intro x y hx hy hx0 hy0 h
    simp only [List.mem_cons, List.not_mem_nil, or_false] at hx hy
    rcases hx with rfl | rfl | rfl
    · rcases hy with rfl | rfl | rfl
      · rfl
      · exact absurd (.inl rfl) hy0
      · exact absurd h apart
    · exact absurd (.inl rfl) hx0
    · rcases hy with rfl | rfl | rfl
      · exact absurd h.symm apart
      · exact absurd (.inl rfl) hy0
      · rfl
  have built : ∀ d ∈ data, d.Over (· ∈ [half, .zero true, .nan]) := by
    have field : Over (· ∈ [half, .zero true, .nan]) (.float half) := .float List.mem_cons_self
    have object (fs : List (Text × Datum)) (names : (fs.map Prod.fst).Nodup)
        (values : ∀ f ∈ fs, f.2 = .absent ∨ f.2 = .float half) : Over (· ∈ [half, .zero true, .nan]) (.object fs) := by
      refine .object names fun f hf => ?_
      rcases values f hf with h | h
      · exact h ▸ .absent
      · exact h ▸ field
    simp only [data, List.forall_mem_cons]
    refine ⟨object _ (by decide) (by simp), object _ (by decide) (by simp), .array ?_, by simp⟩
    simp only [List.forall_mem_cons]
    exact ⟨.float (by simp), .float (by simp), by simp⟩
  obtain ⟨keys, run, length, all⟩ := keys_eq_iff_same canonical written data built
  refine ⟨keys, run, length, (all 0 1 _ _ rfl rfl).2 ?_, fun h => ?_⟩
  · refine .object (fun _ => rfl) fun name d e hd he => ?_
    have same : some d = some e := hd.symm.trans he
    cases same
    exact ((built _ List.mem_cons_self).of_value? hd).same_self
  · cases (all 0 2 _ _ rfl rfl).1 h

end Datum
end Cddl
