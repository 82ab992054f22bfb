import Cddl.Arena
/-!
# What interning and linking change

Interning adds a slot at most, and linking changes no value and gives a parent to no slot that has one.  Each fact is
about one of the questions that a slot answers: which value it holds, which slot is its parent, and which are below it.
-/
namespace Cddl.Arena

variable {α : Type} {a b : Arena α} {i j p c : Nat} {x y : α}

/-- The value that a slot holds. -/
def value? (a : Arena α) (i : Nat) : Option α := a.slots[i]?.map Slot.value

/-- The slots linked below a slot, in the order of their first links. -/
def children (a : Arena α) (i : Nat) : List Nat := (a.slots[i]?.map Slot.children).getD []

theorem lt_size_of_value? (h : a.value? i = some x) : i < a.size := by
  obtain ⟨s, hs, _⟩ := Option.map_eq_some_iff.1 h
  exact (Array.getElem?_eq_some_iff.1 hs).1

theorem exists_value? (h : i < a.size) : ∃ x, a.value? i = some x := by
  unfold value?
  rw [Array.getElem?_eq_getElem h]
  exact ⟨_, rfl⟩

/-- Slots with a parent are there. -/
theorem lt_size_of_parent? (h : a.parent? i = some p) : i < a.size := by
  obtain ⟨s, hs, _⟩ := Option.bind_eq_some_iff.1 h
  exact (Array.getElem?_eq_some_iff.1 hs).1

theorem index?_natCast (h : i < a.size) : a.index? i = some i := by
  unfold index?
  rw [if_pos ⟨Int.natCast_nonneg i, by rw [Int.toNat_natCast]; exact h⟩, Int.toNat_natCast]

theorem index?_eq_some {n : Nat} (h : a.index? n = some i) : n = i ∧ i < a.size := by
  unfold index? at h
  split at h
  · rename_i inside
    rw [Int.toNat_natCast] at h inside
    cases h
    exact ⟨rfl, inside.2⟩
  · cases h

/-! ## Interning -/

theorem value?_push {s : Slot α} :
    value? ⟨a.slots.push s⟩ i = if i = a.size then some s.value else a.value? i := by
  unfold value?
  rw [Array.getElem?_push]
  split
  · rw [if_pos ‹_›]
    rfl
  · rw [if_neg ‹_›]

theorem parent?_push {s : Slot α} : parent? ⟨a.slots.push s⟩ i = if i = a.size then s.parent else a.parent? i := by
  unfold parent?
  rw [Array.getElem?_push]
  split
  · rw [if_pos ‹_›]
    rfl
  · rw [if_neg ‹_›]

section

variable [DecidableEq α]

theorem value?_of_find? (h : a.find? x = some i) : a.value? i = some x := by
  obtain ⟨inside, found, _⟩ := Array.findIdx?_eq_some_iff_getElem.1 h
  unfold value?
  rw [Array.getElem?_eq_getElem inside, Option.map_some, of_decide_eq_true found]

theorem find?_isSome : (a.find? x).isSome = true ↔ ∃ i, a.value? i = some x := by
  constructor
  · intro h
    obtain ⟨i, hi⟩ := Option.isSome_iff_exists.1 h
    exact ⟨i, value?_of_find? hi⟩
  · rintro ⟨i, hi⟩
    obtain ⟨s, hs, rfl⟩ := Option.map_eq_some_iff.1 hi
    unfold find?
    rw [Option.isSome_iff_ne_none, ne_eq, Array.findIdx?_eq_none_iff]
    intro none
    exact absurd rfl (of_decide_eq_false (none s (Array.mem_of_getElem? hs)))

theorem intern_of_find? (h : a.find? x = some i) : a.intern x = (i, a) := by
  unfold intern
  rw [h]

theorem intern_of_new (h : a.find? x = none) : a.intern x = (a.size, ⟨a.slots.push { value := x }⟩) := by
  unfold intern
  rw [h]

/-- The slot that a value is interned in holds it. -/
theorem value?_intern (x : α) : (a.intern x).2.value? (a.intern x).1 = some x := by
  cases h : a.find? x with
  | some i =>
    rw [intern_of_find? h]
    exact value?_of_find? h
  | none =>
    rw [intern_of_new h, value?_push, if_pos rfl]

/-- Interning changes no slot that is there. -/
theorem value?_intern_of_some (h : a.value? i = some y) : (a.intern x).2.value? i = some y := by
  cases hx : a.find? x with
  | some j => rw [intern_of_find? hx]; exact h
  | none =>
    rw [intern_of_new hx, value?_push, if_neg (Nat.ne_of_lt (lt_size_of_value? h))]
    exact h

theorem value?_intern_iff : (a.intern x).2.value? i = some y ↔
    a.value? i = some y ∨ (y = x ∧ a.find? x = none ∧ i = a.size) := by
  cases hx : a.find? x with
  | some j => simp [intern_of_find? hx]
  | none =>
    rw [intern_of_new hx, value?_push]
    split
    · rename_i last
      constructor
      · intro h
        exact .inr ⟨(Option.some.inj h).symm, rfl, last⟩
      · rintro (h | ⟨rfl, _⟩)
        · exact absurd last (Nat.ne_of_lt (lt_size_of_value? h))
        · rfl
    · exact ⟨.inl, fun h => h.elim id fun h => absurd h.2.2 ‹_›⟩

theorem parent?_intern : (a.intern x).2.parent? i = a.parent? i := by
  cases hx : a.find? x with
  | some j => rw [intern_of_find? hx]
  | none =>
    rw [intern_of_new hx, parent?_push]
    split
    · rename_i last
      symm
      rw [Option.eq_none_iff_forall_ne_some]
      intro p hp
      exact absurd last (Nat.ne_of_lt (lt_size_of_parent? hp))
    · rfl

theorem children_intern : (a.intern x).2.children i = a.children i := by
  cases hx : a.find? x with
  | some j => rw [intern_of_find? hx]
  | none =>
    rw [intern_of_new hx]
    unfold children
    rw [Array.getElem?_push]
    split
    · rename_i last
      rw [last, show a.slots[a.slots.size]? = none from Array.getElem?_eq_none (Nat.le_refl _)]
      rfl
    · rfl

end

/-! ## Linking -/

theorem value?_link {p c : Int} (h : a.link p c = .ok b) : b.value? i = a.value? i := by
  unfold link at h
  split at h
  · split at h
    · cases h
    · cases h
      unfold value?
      rw [Array.getElem?_modify, Array.getElem?_modify]
      split <;> split <;> simp [Option.map_map, Function.comp_def, addChild, setParent]
  · cases h

/-- A link is the parent of a slot that has none yet, and of no other slot. -/
theorem parent?_link (h : a.link p c = .ok b) :
    b.parent? i = if i = c then a.parent? i <|> some p else a.parent? i := by
  have kept (s : Slot α) : (addChild c s).parent = s.parent := rfl
  unfold link at h
  split at h
  · rename_i p' c' hp hc
    obtain ⟨rfl, _⟩ := index?_eq_some hp
    obtain ⟨rfl, size⟩ := index?_eq_some hc
    split at h
    · cases h
    · cases h
      unfold parent?
      rw [Array.getElem?_modify, Array.getElem?_modify]
      by_cases hi : i = c
      · subst hi
        rw [if_pos rfl, if_pos rfl, Array.getElem?_eq_getElem size]
        split <;> rfl
      · rw [if_neg hi, if_neg (Ne.symm hi)]
        split
        · cases a.slots[i]? <;> rfl
        · rfl
  · cases h

/-- A link is added to the slots below its upper slot, unless it is there. -/
theorem children_link (h : a.link p c = .ok b) :
    b.children i = if i = p ∧ c ∉ a.children i then a.children i ++ [c] else a.children i := by
  unfold link at h
  split at h
  · rename_i p' c' hp hc
    obtain ⟨rfl, size⟩ := index?_eq_some hp
    obtain ⟨rfl, _⟩ := index?_eq_some hc
    split at h
    · cases h
    · cases h
      have kept : (a.slots.modify c (setParent p))[i]?.map Slot.children = a.slots[i]?.map Slot.children := by
        rw [Array.getElem?_modify]
        split
        · rw [Option.map_map]
          rfl
        · rfl
      unfold children
      rw [Array.getElem?_modify]
      by_cases hi : i = p
      · subst hi
        rw [if_pos rfl, Option.map_map, show (Slot.children ∘ addChild c : Slot α → List Nat) =
          (fun cs => if c ∈ cs then cs else cs ++ [c]) ∘ Slot.children from rfl, ← Option.map_map, kept,
          Array.getElem?_eq_getElem size]
        simp only [true_and, Option.map_some, Option.getD_some]
        split <;> rfl
      · rw [if_neg (Ne.symm hi), kept, if_neg fun same => hi same.1]
  · cases h

theorem link_ok (hp : p < a.size) (hc : c < a.size) (apart : c ≠ p) (above : c ∉ a.ancestors p) :
    ∃ b, a.link p c = .ok b := by
  unfold link
  rw [index?_natCast hp, index?_natCast hc]
  simp only [if_neg (not_or.2 ⟨apart, above⟩)]
  exact ⟨_, rfl⟩

end Cddl.Arena
