import Cddl.Node
import Cddl.Proofs.Arena
import Mathlib.Data.List.Nodup
import Mathlib.Logic.Relation
/-!
# Parents form a forest

Whatever is asked of an arena, the way up from each of its slots ends at a slot without a parent, since a link that
would lead from a slot up to itself is refused (`forest_of_calls`).  What is listed below the slots need not be as
orderly: a slot can be listed below many but has one parent, and only the parents are looked at before a link is made.
A circle in the lists goes through a slot that is listed below another one than its parent (`crossing_of_circle`), and
there are such circles (`circle_of_calls`).
-/
namespace Cddl.Arena

open Relation

variable {α : Type} {a b : Arena α} {i j p c q : Nat} {l l' : List Nat}

/-! ## The way up -/

/-- The second slot is the parent of the first. -/
def Up (a : Arena α) (i p : Nat) : Prop := a.parent? i = some p

/-- The slots above a slot, from the nearest one up to one without a parent.  Nothing bounds the way; a slot that is
above itself has none. -/
inductive WayUp (a : Arena α) : Nat → List Nat → Prop where
  | top {i : Nat} (bare : a.parent? i = none) : WayUp a i []
  | up {i p : Nat} {l : List Nat} (parent : a.parent? i = some p) (more : WayUp a p l) : WayUp a i (p :: l)

namespace WayUp

theorem unique (h : a.WayUp i l) (h' : a.WayUp i l') : l = l' := by
  induction h generalizing l' with
  | top bare =>
    cases h' with
    | top => rfl
    | up parent =>
      rw [bare] at parent
      cases parent
  | up parent _ ih =>
    cases h' with
    | top bare =>
      rw [bare] at parent
      cases parent
    | up parent' more' =>
      rw [parent] at parent'
      cases parent'
      rw [ih more']

/-- What is above a slot on the way is a shorter way. -/
theorem of_mem (h : a.WayUp i l) (hq : q ∈ l) : ∃ l', a.WayUp q l' ∧ l'.length < l.length := by
  induction h with
  | top => exact absurd hq List.not_mem_nil
  | @up i p l _ more ih =>
    rcases List.mem_cons.1 hq with rfl | hq
    · exact ⟨l, more, Nat.lt_succ_self _⟩
    · obtain ⟨l', h', less⟩ := ih hq
      exact ⟨l', h', Nat.lt_succ_of_lt less⟩

theorem not_mem_self (h : a.WayUp i l) : i ∉ l := by
  intro mem
  obtain ⟨l', h', less⟩ := h.of_mem mem
  rw [h.unique h'] at less
  exact Nat.lt_irrefl _ less

theorem nodup (h : a.WayUp i l) : l.Nodup := by
  induction h with
  | top => exact .nil
  | up _ more ih => exact List.nodup_cons.2 ⟨more.not_mem_self, ih⟩

theorem mem_iff (h : a.WayUp i l) : q ∈ l ↔ TransGen a.Up i q := by
  induction h with
  | top bare =>
    refine ⟨fun hq => absurd hq List.not_mem_nil, fun hq => ?_⟩
    obtain ⟨p, hp, _⟩ := TransGen.head'_iff.1 hq
    rw [Up, bare] at hp
    cases hp
  | @up i p l parent _ ih =>
    rw [List.mem_cons, ih, ← reflTransGen_iff_eq_or_transGen, TransGen.head'_iff]
    constructor
    · exact fun hq => ⟨p, parent, hq⟩
    · rintro ⟨p', hp', hq⟩
      rw [Up, parent] at hp'
      cases hp'
      exact hq

/-- A way up is one of any arena in which its slots have the same parents. -/
theorem congr (h : a.WayUp i l) (same : ∀ j ∈ i :: l, b.parent? j = a.parent? j) : b.WayUp i l := by
  induction h with
  | top bare => exact .top ((same _ List.mem_cons_self).trans bare)
  | up parent _ ih =>
    exact .up ((same _ List.mem_cons_self).trans parent) (ih fun j hj => same j (List.mem_cons_of_mem _ hj))

theorem climb_eq (h : a.WayUp i l) : ∀ {k : Nat}, l.length ≤ k → a.climb k i = l := by
  induction h with
  | top bare =>
    intro k _
    cases k with
    | zero => rfl
    | succ k =>
      unfold climb
      rw [bare]
  | up parent _ ih =>
    intro k hk
    obtain ⟨k, rfl⟩ := Nat.exists_eq_add_of_le' (Nat.lt_of_lt_of_le (Nat.succ_pos _) hk)
    unfold climb
    rw [parent]
    exact congrArg _ (ih (Nat.le_of_succ_le_succ hk))

/-- There are as many slots as the way up can have, so the bound on the climb cuts no way short. -/
theorem ancestors_eq (h : a.WayUp i l) (known : ∀ {i p : Nat}, a.parent? i = some p → p < a.size) :
    a.ancestors i = l := by
  have inside : l ⊆ List.range a.size := by
    intro q hq
    obtain ⟨p, _, hp⟩ := TransGen.tail'_iff.1 (h.mem_iff.1 hq)
    exact List.mem_range.2 (known hp)
  have short := h.nodup.length_le_of_subset inside
  rw [List.length_range] at short
  exact h.climb_eq short

end WayUp

/-! ## Forests -/

/-- The ways up end, and the lists of what is below the slots agree with the parents. -/
structure Forest (a : Arena α) : Prop where
  ends (i : Nat) : ∃ l, a.WayUp i l
  listed {i p : Nat} : a.parent? i = some p → i ∈ a.children p
  known {p c : Nat} : c ∈ a.children p → c < a.size
  once (p : Nat) : (a.children p).Nodup
  /-- What is listed below a slot has a parent, be it that slot or another. -/
  placed {p c : Nat} : c ∈ a.children p → ∃ q, a.parent? c = some q

theorem lt_size_of_mem_children (h : c ∈ a.children p) : p < a.size := by
  rw [← Nat.not_le]
  intro outside
  rw [children, show a.slots[p]? = none from Array.getElem?_eq_none outside] at h
  cases h

namespace Forest

theorem parent_lt_size (h : a.Forest) (hp : a.parent? i = some p) : p < a.size :=
  lt_size_of_mem_children (h.listed hp)

/-- The slots that a climb finds are the whole way up. -/
theorem wayUp_ancestors (h : a.Forest) (i : Nat) : a.WayUp i (a.ancestors i) := by
  obtain ⟨l, hl⟩ := h.ends i
  rw [hl.ancestors_eq h.parent_lt_size]
  exact hl

theorem mem_ancestors (h : a.Forest) : q ∈ a.ancestors i ↔ TransGen a.Up i q := (h.wayUp_ancestors i).mem_iff

theorem mem_cons_ancestors (h : a.Forest) : q ∈ i :: a.ancestors i ↔ ReflTransGen a.Up i q := by
  rw [List.mem_cons, h.mem_ancestors, reflTransGen_iff_eq_or_transGen]

theorem not_above_self (h : a.Forest) (i : Nat) : ¬ TransGen a.Up i i := by
  rw [← h.mem_ancestors]
  exact (h.wayUp_ancestors i).not_mem_self

theorem empty : Forest ({} : Arena α) where
  ends i := ⟨[], .top rfl⟩
  listed h := by cases h
  known h := by cases h
  once _ := .nil
  placed h := by cases h

theorem intern [DecidableEq α] (h : a.Forest) (x : α) : (a.intern x).2.Forest where
  ends i := by
    obtain ⟨l, hl⟩ := h.ends i
    exact ⟨l, hl.congr fun j _ => parent?_intern⟩
  listed hp := by
    rw [parent?_intern] at hp
    rw [children_intern]
    exact h.listed hp
  known hc := by
    rw [children_intern] at hc
    obtain ⟨y, hy⟩ := exists_value? (h.known hc)
    exact lt_size_of_value? (value?_intern_of_some hy)
  once p := by
    rw [children_intern]
    exact h.once p
  placed hc := by
    rw [children_intern] at hc
    rw [parent?_intern]
    exact h.placed hc

end Forest

/-! ## Refused links and made ones -/

/-- An integer that is the number of a slot. -/
def IsSlot (a : Arena α) (i : Int) : Prop := 0 ≤ i ∧ i < a.size

theorem isSlot_iff {i : Int} : a.IsSlot i ↔ ∃ n : Nat, i = n ∧ n < a.size := by
  constructor
  · rintro ⟨positive, inside⟩
    exact ⟨i.toNat, (Int.toNat_of_nonneg positive).symm, by omega⟩
  · rintro ⟨n, rfl, inside⟩
    exact ⟨Int.natCast_nonneg n, by omega⟩

theorem link_of_missing {p c : Int} (h : ¬ (a.IsSlot p ∧ a.IsSlot c)) : a.link p c = .error (.noSlot p c) := by
  have none {i : Int} (hi : ¬ a.IsSlot i) : a.index? i = none := if_neg fun inside => hi (by
    rw [isSlot_iff]
    exact ⟨i.toNat, (Int.toNat_of_nonneg inside.1).symm, inside.2⟩)
  unfold link
  rcases not_and_or.1 h with h | h
  · rw [none h]
  · rw [none h]
    cases a.index? p <;> rfl

theorem link_of_above (hp : p < a.size) (hc : c < a.size) (above : c = p ∨ c ∈ a.ancestors p) :
    a.link p c = .error .overwrite := by
  unfold link
  rw [index?_natCast hp, index?_natCast hc]
  exact if_pos above

theorem isSlot_of_link {p c : Int} (hb : a.link p c = .ok b) : a.IsSlot p ∧ a.IsSlot c := by
  by_contra missing
  rw [link_of_missing missing] at hb
  cases hb

/-- Links are made between slots of which the lower is not above the upper. -/
theorem of_link (hb : a.link p c = .ok b) : p < a.size ∧ c < a.size ∧ c ∉ p :: a.ancestors p := by
  have there := isSlot_of_link hb
  have hp : p < a.size := Int.ofNat_lt.1 there.1.2
  have hc : c < a.size := Int.ofNat_lt.1 there.2.2
  refine ⟨hp, hc, fun above => ?_⟩
  rw [link_of_above hp hc (List.mem_cons.1 above)] at hb
  cases hb

theorem size_link {p c : Int} (hb : a.link p c = .ok b) : b.size = a.size := by
  unfold link at hb
  split at hb
  · split at hb
    · cases hb
    · cases hb
      exact Array.size_modify.trans Array.size_modify
  · cases hb

theorem parent?_link_of_some (hb : a.link p c = .ok b) (hi : a.parent? i = some q) : b.parent? i = some q := by
  rw [parent?_link hb, hi]
  exact ite_self _

theorem mem_children_link (hb : a.link p c = .ok b) : i ∈ b.children q ↔ i ∈ a.children q ∨ (q = p ∧ i = c) := by
  rw [children_link hb]
  split
  · rename_i new
    rw [List.mem_append, List.mem_singleton]
    exact or_congr_right (iff_and_self.2 fun _ => new.1)
  · rename_i old
    refine ⟨.inl, fun h => h.elim id ?_⟩
    rintro ⟨rfl, rfl⟩
    by_contra missing
    exact old ⟨rfl, missing⟩

namespace Forest

/-- A link takes away no way up: that of the upper slot does not meet the lower one, so a lower slot that had no parent
gets a way up, and every way up that ended there goes on with it. -/
theorem exists_wayUp_link (h : a.Forest) (hb : a.link p c = .ok b) (i : Nat) : ∃ l, b.WayUp i l := by
  cases hc : a.parent? c with
  | some q =>
    obtain ⟨l, hl⟩ := h.ends i
    refine ⟨l, hl.congr fun j _ => ?_⟩
    rw [parent?_link hb]
    split
    · rename_i same
      subst same
      rw [hc]
      rfl
    · rfl
  | none =>
    have other {j : Nat} (hj : j ≠ c) : b.parent? j = a.parent? j := by rw [parent?_link hb, if_neg hj]
    have below : b.WayUp c (p :: a.ancestors p) := by
      refine .up (by rw [parent?_link hb, if_pos rfl, hc]; rfl) ((h.wayUp_ancestors p).congr fun j hj => other ?_)
      rintro rfl
      exact (of_link hb).2.2 hj
    obtain ⟨l, hl⟩ := h.ends i
    induction hl with
    | @top i bare =>
      by_cases hi : i = c
      · exact ⟨_, hi ▸ below⟩
      · exact ⟨[], .top ((other hi).trans bare)⟩
    | @up i q l parent _ ih =>
      by_cases hi : i = c
      · exact ⟨_, hi ▸ below⟩
      · obtain ⟨l', hl'⟩ := ih
        exact ⟨q :: l', .up ((other hi).trans parent) hl'⟩

theorem link (h : a.Forest) (hb : a.link p c = .ok b) : b.Forest where
  ends := h.exists_wayUp_link hb
  listed {i q} hq := by
    rw [mem_children_link hb]
    cases hi : a.parent? i with
    | some q' =>
      rw [parent?_link_of_some hb hi] at hq
      cases hq
      exact .inl (h.listed hi)
    | none =>
      rw [parent?_link hb, hi] at hq
      split at hq
      · rename_i same
        cases hq
        exact .inr ⟨rfl, same⟩
      · cases hq
  known {q i} hi := by
    rw [size_link hb]
    rcases (mem_children_link hb).1 hi with hi | ⟨_, rfl⟩
    · exact h.known hi
    · exact (of_link hb).2.1
  once q := by
    rw [children_link hb]
    split
    · rename_i new
      rw [← List.concat_eq_append]
      exact (h.once q).concat new.2
    · exact h.once q
  placed {q i} hi := by
    rcases (mem_children_link hb).1 hi with hi | ⟨_, rfl⟩
    · obtain ⟨q', hq'⟩ := h.placed hi
      exact ⟨q', parent?_link_of_some hb hq'⟩
    · rw [parent?_link hb, if_pos rfl]
      cases a.parent? i with
      | some q' => exact ⟨q', rfl⟩
      | none => exact ⟨p, rfl⟩

end Forest

/-! ## Any calls -/

/-- What can be asked of an arena. -/
inductive Call (α : Type) where
  | intern (x : α)
  | find (x : α)
  | get (i : Int)
  | link (parent child : Int)

section

variable [DecidableEq α]

/-- The arena behind a call.  A link that is refused leaves it as it was. -/
def Call.step (a : Arena α) : Call α → Arena α
  | .intern x => (a.intern x).2
  | .find _ => a
  | .get _ => a
  | .link parent child => (a.link parent child).toOption.getD a

/-- The arena behind some calls on an empty one. -/
def after (calls : List (Call α)) : Arena α := calls.foldl Call.step {}

theorem step_link {p c : Int} (hb : a.link p c = .ok b) : Call.step a (.link p c) = b := by
  rw [Call.step, hb]
  rfl

theorem step_link_of_error {p c : Int} {f : LinkFault} (hf : a.link p c = .error f) : Call.step a (.link p c) = a := by
  rw [Call.step, hf]
  rfl

theorem after_append {calls more : List (Call α)} : after (calls ++ more) = more.foldl Call.step (after calls) :=
  List.foldl_append

/-- A call leaves an arena as it is, interns a value or links two slots. -/
theorem step_cases (a : Arena α) (call : Call α) :
    call.step a = a ∨ (∃ x, call.step a = (a.intern x).2) ∨ ∃ p c : Nat, a.link p c = .ok (call.step a) := by
  cases call with
  | intern x => exact .inr (.inl ⟨x, rfl⟩)
  | find => exact .inl rfl
  | get => exact .inl rfl
  | link p c =>
    cases hb : a.link p c with
    | error f => exact .inl (step_link_of_error hb)
    | ok b =>
      obtain ⟨hp, hc⟩ := isSlot_of_link hb
      obtain ⟨p, rfl, _⟩ := isSlot_iff.1 hp
      obtain ⟨c, rfl, _⟩ := isSlot_iff.1 hc
      exact .inr (.inr ⟨p, c, step_link hb ▸ hb⟩)

theorem Forest.step (h : a.Forest) (call : Call α) : (call.step a).Forest := by
  rcases step_cases a call with same | ⟨x, interned⟩ | ⟨p, c, linked⟩
  · rw [same]
    exact h
  · rw [interned]
    exact h.intern x
  · exact h.link linked

theorem parent?_step (hi : a.parent? i = some p) (call : Call α) : (call.step a).parent? i = some p := by
  rcases step_cases a call with same | ⟨x, interned⟩ | ⟨p, c, linked⟩
  · rw [same]
    exact hi
  · rw [interned]
    exact parent?_intern.trans hi
  · exact parent?_link_of_some linked hi

theorem Forest.foldl (h : a.Forest) (calls : List (Call α)) : (calls.foldl Call.step a).Forest := by
  induction calls generalizing a with
  | nil => exact h
  | cons call calls ih => exact ih (h.step call)

theorem parent?_foldl (hi : a.parent? i = some p) (calls : List (Call α)) :
    (calls.foldl Call.step a).parent? i = some p := by
  induction calls generalizing a with
  | nil => exact hi
  | cons call calls ih => exact ih (parent?_step hi call)

/-- What a link of two slots changes: the lower one gets the upper one as its parent if it has none, and is listed below
it if it is not. -/
structure Linked (a b : Arena α) (p c : Nat) : Prop where
  size : b.size = a.size
  value (i : Nat) : b.value? i = a.value? i
  parent (i : Nat) : b.parent? i = if i = c then a.parent? i <|> some p else a.parent? i
  children (i : Nat) : b.children i = if i = p ∧ c ∉ a.children i then a.children i ++ [c] else a.children i

/-- How a link of two numbers ends. -/
structure LinkRule (a : Arena α) (p c : Int) : Prop where
  missing : a.link p c = .error (.noSlot p c) ↔ ¬ (a.IsSlot p ∧ a.IsSlot c)
  refused : a.link p c = .error .overwrite ↔ (a.IsSlot p ∧ a.IsSlot c) ∧ ReflTransGen a.Up p.toNat c.toNat
  kept {f : LinkFault} : a.link p c = .error f → Call.step a (.link p c) = a
  made : a.IsSlot p ∧ a.IsSlot c → ¬ ReflTransGen a.Up p.toNat c.toNat →
    a.link p c = .ok (Call.step a (.link p c)) ∧ Linked a (Call.step a (.link p c)) p.toNat c.toNat

theorem Forest.linkRule (h : a.Forest) (p c : Int) : a.LinkRule p c := by
  by_cases there : a.IsSlot p ∧ a.IsSlot c
  · obtain ⟨p, rfl, hp⟩ := isSlot_iff.1 there.1
    obtain ⟨c, rfl, hc⟩ := isSlot_iff.1 there.2
    by_cases above : ReflTransGen a.Up p c
    · have refused := link_of_above hp hc (List.mem_cons.1 (h.mem_cons_ancestors.2 above))
      exact {
        missing := iff_of_false (by rw [refused]; exact fun h => by cases h) (not_not_intro there)
        refused := iff_of_true refused ⟨there, above⟩
        kept := step_link_of_error
        made := fun _ free => absurd above free }
    · have free : c ∉ p :: a.ancestors p := fun mem => above (h.mem_cons_ancestors.1 mem)
      obtain ⟨b, hb⟩ := link_ok hp hc (List.ne_of_not_mem_cons free) (List.not_mem_of_not_mem_cons free)
      exact {
        missing := iff_of_false (by rw [hb]; exact fun h => by cases h) (not_not_intro there)
        refused := iff_of_false (by rw [hb]; exact fun h => by cases h) fun h => above h.2
        kept := step_link_of_error
        made := fun _ _ => by
          rw [step_link hb]
          exact ⟨hb, size_link hb, fun _ => value?_link hb, fun _ => parent?_link hb, fun _ => children_link hb⟩ }
  · have refused := link_of_missing there
    exact {
      missing := iff_of_true refused there
      refused := iff_of_false (by rw [refused]; exact fun h => by cases h) fun h => there h.1
      kept := step_link_of_error
      made := fun h => absurd h there }

/-- **Behind any calls the parents of the slots form a forest that no later call takes a parent from, and a link is
refused just where a slot is missing or the lower slot is the upper one or above it.** -/
theorem forest_of_calls (calls : List (Call α)) :
    (after calls).Forest ∧
    (∀ more i p, (after calls).parent? i = some p → (after (calls ++ more)).parent? i = some p) ∧
    ∀ p c, (after calls).LinkRule p c := by
  have forest : (after calls).Forest := Forest.empty.foldl calls
  refine ⟨forest, fun more i p hi => ?_, forest.linkRule⟩
  rw [after_append]
  exact parent?_foldl hi more

end

/-! ## Circles in the lists -/

/-- The second slot is listed below the first. -/
def Down (a : Arena α) (p c : Nat) : Prop := c ∈ a.children p

/-- On a way down through the lists a slot is met below another one than its parent. -/
def Crosses (a : Arena α) (i j : Nat) : Prop :=
  ∃ p c q, ReflTransGen a.Down i p ∧ a.Down p c ∧ ReflTransGen a.Down c j ∧ a.parent? c = some q ∧ q ≠ p

/-- A way down is a way up backwards, as far as it meets each slot below its parent. -/
theorem Forest.up_or_crosses (h : a.Forest) (down : TransGen a.Down i j) : TransGen a.Up j i ∨ a.Crosses i j := by
  induction down with
  | @single c hc =>
    obtain ⟨q, hq⟩ := h.placed hc
    by_cases same : q = i
    · exact .inl (.single (same ▸ hq))
    · exact .inr ⟨i, c, q, .refl, hc, .refl, hq, same⟩
  | @tail k c before hc ih =>
    obtain ⟨q, hq⟩ := h.placed hc
    rcases ih with up | ⟨p, k', q', first, hk, second, hq', other⟩
    · by_cases same : q = k
      · exact .inl (.head (same ▸ hq) up)
      · exact .inr ⟨k, c, q, before.to_reflTransGen, hc, .refl, hq, same⟩
    · exact .inr ⟨p, k', q', first, hk, second.tail hc, hq', other⟩

/-- **A circle in the lists of what is below the slots meets a slot below another one than its parent.** -/
theorem crossing_of_circle [DecidableEq α] (calls : List (Call α)) (circle : TransGen (after calls).Down i i) :
    (after calls).Crosses i i := by
  have forest : (after calls).Forest := Forest.empty.foldl calls
  exact (forest.up_or_crosses circle).resolve_left (forest.not_above_self i)

/-- The third of three slots is linked below the first and below the second, and then the second below the third. -/
def circling : List (Call Node) :=
  [.intern (.value (.text "a")), .intern (.value (.text "b")), .intern (.value (.text "c")), .link 0 2, .link 1 2,
    .link 2 1]

theorem circling_lists : 2 ∈ (after circling).children 1 ∧ 1 ∈ (after circling).children 2 := by decide +kernel

theorem crossing_of_circle_sample : TransGen (after circling).Down 1 1 ∧ (after circling).Crosses 1 1 :=
  have circle : TransGen (after circling).Down 1 1 := .tail (.single circling_lists.1) circling_lists.2
  ⟨circle, crossing_of_circle circling circle⟩

/-- The lists of what is below the slots can have a circle. -/
theorem circle_of_calls : ∃ (calls : List (Call Node)) (i : Nat), TransGen (after calls).Down i i :=
  ⟨circling, 1, .tail (.single circling_lists.1) circling_lists.2⟩

end Cddl.Arena
