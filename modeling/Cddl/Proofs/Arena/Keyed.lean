import Cddl.Arena.Keyed
import Cddl.Proofs.Arena
import Cddl.Proofs.Binary64.ReadBack
import Cddl.Proofs.Datum.Key
/-!
# Interning by keys

Keys decide which content is the same, and go on doing so while shapes are numbered for other content and for questions
that add nothing.  So an arena that slots are found in by key has one slot for each content of a kind, whatever it has
been called for before (`canonical_of_calls`), and questions that are put in between change no other answer
(`find_aside`).
-/
namespace Cddl

/-- Data as it can be built: no object has two fields of one name, and a number is written in one way. -/
def Datum.Sound (d : Datum) : Prop := d.Over Binary64.Canonical

namespace KeyedArena

open Datum

variable {a b : KeyedArena} {kind kind' : NodeKind} {content content' : Datum} {shapes shapes' : List Text}
  {key k l : Text} {i j : Nat}

/-! ## Keys of slots -/

/-- A kind is the one that its label names. -/
theorem ofLabel?_label (kind : NodeKind) : NodeKind.ofLabel? kind.label = some kind := by
  cases kind <;> decide +kernel

theorem label_inj (h : Text.ofString kind.label = Text.ofString kind'.label) : kind = kind' := by
  have named := ofLabel?_label kind
  rw [h, ofLabel?_label kind'] at named
  exact (Option.some.inj named).symm

theorem colon_free (kind : NodeKind) :
    (Text.ofString kind.label).all (fun u => decide (u ≠ CodeUnit.ofChar ':')) = true := by
  cases kind <;> decide +kernel

/-- The kind and the key of the content can be read off from the key of a slot. -/
theorem slotText_inj (h : Text.ofString kind.label ++ ":" ++ k = Text.ofString kind'.label ++ ":" ++ l) :
    kind = kind' ∧ k = l := by
  have colon : Text.ofString ":" = [CodeUnit.ofChar ':'] := by decide
  have first (kind : NodeKind) (k : Text) :
      (Text.ofString kind.label ++ ":" ++ k).takeWhile (fun u => decide (u ≠ CodeUnit.ofChar ':')) = kind.label := by
    rw [colon, List.append_assoc, List.takeWhile_append_of_pos (List.all_eq_true.1 (colon_free kind))]
    exact List.append_nil _
  have labels := congrArg (List.takeWhile fun u => decide (u ≠ CodeUnit.ofChar ':')) h
  rw [first, first] at labels
  obtain rfl := label_inj labels
  exact ⟨rfl, List.append_cancel_left h⟩

/-- A slot for some content under a kind has a key in a table of shapes. -/
def HasSlotKey (shapes : List Text) (kind : NodeKind) (content : Datum) (key : Text) : Prop :=
  ∃ k, HasKey shapes content k ∧ key = Text.ofString kind.label ++ ":" ++ k

theorem HasSlotKey.mono (h : HasSlotKey shapes kind content key) (more : shapes <+: shapes') :
    HasSlotKey shapes' kind content key :=
  let ⟨k, hk, heq⟩ := h
  ⟨k, hk.mono more, heq⟩

theorem slotKey_interns (kind : NodeKind) (content : Datum) :
    Interns (slotKey kind content) fun s key => HasSlotKey s kind content key :=
  .bind (key_interns content) (fun hk more => hk.mono more) fun k => .pure fun _ => fun hk => ⟨k, hk, rfl⟩

/-- Keys of slots are equal exactly for the same content under one kind. -/
theorem HasSlotKey.eq_iff (table : shapes.Nodup) (sound : content.Sound) (sound' : content'.Sound)
    (h : HasSlotKey shapes kind content k) (h' : HasSlotKey shapes kind' content' l) :
    k = l ↔ kind = kind' ∧ Same content content' := by
  obtain ⟨k, hk, rfl⟩ := h
  obtain ⟨l, hl, rfl⟩ := h'
  constructor
  · intro heq
    obtain ⟨kinds, keys⟩ := slotText_inj heq
    exact ⟨kinds, hk.same (fun _ => id) (fun x y => Binary64.toText_injective) hl sound sound' keys⟩
  · rintro ⟨rfl, same⟩
    rw [same.key_eq table hk hl sound sound']

/-! ## What an arena keeps to -/

/-- A slot has some content under a kind. -/
def Holds (a : KeyedArena) (kind : NodeKind) (content : Datum) (i : Nat) : Prop :=
  ∃ x, a.arena.value? i = some x ∧ x.kind = kind ∧ x.content.Same content

/-- Slots stand where they say, and each is entered under its own key and no other; no key is entered twice. -/
structure Valid (a : KeyedArena) : Prop where
  shapes : a.keys.shapes.Nodup
  keys : (a.entries.map Prod.fst).Nodup
  entered : ∀ key i, (key, i) ∈ a.entries → ∃ x, a.arena.value? i = some x ∧
    HasSlotKey a.keys.shapes x.kind x.content key
  listed : ∀ i x, a.arena.value? i = some x → ∃ key, (key, i) ∈ a.entries
  placed : ∀ i x, a.arena.value? i = some x → x.idx = i
  sound : ∀ i x, a.arena.value? i = some x → x.content.Sound

variable {arena : Arena Interned} {table : KeyTable}

namespace Valid

theorem empty : Valid {} := by
  have none {i : Nat} {x : Interned} (h : Arena.value? {} i = some x) : False :=
    absurd (Arena.lt_size_of_value? h) (Nat.not_lt_zero i)
  exact ⟨List.nodup_nil, List.nodup_nil, fun _ _ h => absurd h List.not_mem_nil, fun _ _ h => (none h).elim,
    fun _ _ h => (none h).elim, fun _ _ h => (none h).elim⟩

/-- More shapes may be numbered. -/
theorem number (va : a.Valid) (more : a.keys.shapes <+: table.shapes) (distinct : table.shapes.Nodup) :
    Valid { a with keys := table } where
  shapes := distinct
  keys := va.keys
  entered key i h :=
    let ⟨x, hx, has⟩ := va.entered key i h
    ⟨x, hx, has.mono more⟩
  listed := va.listed
  placed := va.placed
  sound := va.sound

/-- What slots hold is all that counts of them. -/
theorem relink (va : a.Valid) (same : ∀ i, arena.value? i = a.arena.value? i) : Valid { a with arena := arena } where
  shapes := va.shapes
  keys := va.keys
  entered key i h := by
    rw [same]
    exact va.entered key i h
  listed i x h := va.listed i x (same i ▸ h)
  placed i x h := va.placed i x (same i ▸ h)
  sound i x h := va.sound i x (same i ▸ h)

/-- What is looked up by key is the slot that has the content under the kind. -/
theorem lookup_iff (va : a.Valid) (sound : content.Sound) (has : HasSlotKey a.keys.shapes kind content key) :
    a.entries.lookup key = some i ↔ a.Holds kind content i := by
  rw [Text.lookup_eq_some_iff va.keys]
  constructor
  · intro mem
    obtain ⟨x, hx, own⟩ := va.entered key i mem
    obtain ⟨kinds, same⟩ := (own.eq_iff va.shapes (va.sound i x hx) sound has).1 rfl
    exact ⟨x, hx, kinds, same⟩
  · rintro ⟨x, hx, rfl, same⟩
    obtain ⟨key', mem⟩ := va.listed i x hx
    obtain ⟨y, hy, own⟩ := va.entered key' i mem
    rw [hx] at hy
    cases hy
    rwa [(own.eq_iff va.shapes (va.sound i x hx) sound has).2 ⟨rfl, same⟩] at mem

/-- A new slot, entered under a key that is not yet entered. -/
theorem push (va : a.Valid) (sound : content.Sound) (has : HasSlotKey a.keys.shapes kind content key)
    (new : a.entries.lookup key = none) :
    Valid ⟨⟨a.arena.slots.push { value := ⟨a.arena.size, kind, content⟩ }⟩, (key, a.arena.size) :: a.entries,
      a.keys⟩ := by
  have old {i : Nat} {x : Interned} (h : a.arena.value? i = some x) :
      Arena.value? ⟨a.arena.slots.push { value := ⟨a.arena.size, kind, content⟩ }⟩ i = some x := by
    rw [Arena.value?_push, if_neg (Nat.ne_of_lt (Arena.lt_size_of_value? h))]
    exact h
  have cases_ {i : Nat} {x : Interned}
      (h : Arena.value? ⟨a.arena.slots.push { value := ⟨a.arena.size, kind, content⟩ }⟩ i = some x) :
      (i = a.arena.size ∧ x = ⟨a.arena.size, kind, content⟩) ∨ a.arena.value? i = some x := by
    rw [Arena.value?_push] at h
    split at h
    · exact .inl ⟨‹_›, (Option.some.inj h).symm⟩
    · exact .inr h
  refine ⟨va.shapes, ?_, ?_, ?_, ?_, ?_⟩
  · rw [List.map_cons, List.nodup_cons]
    refine ⟨fun mem => ?_, va.keys⟩
    obtain ⟨⟨_, j⟩, entry, rfl⟩ := List.mem_map.1 mem
    rw [(Text.lookup_eq_some_iff va.keys).2 entry] at new
    cases new
  · intro key' i mem
    rcases List.mem_cons.1 mem with same | mem
    · cases same
      exact ⟨_, by rw [Arena.value?_push, if_pos rfl], has⟩
    · obtain ⟨x, hx, own⟩ := va.entered key' i mem
      exact ⟨x, old hx, own⟩
  · intro i x h
    rcases cases_ h with ⟨rfl, rfl⟩ | h
    · exact ⟨key, List.mem_cons_self⟩
    · obtain ⟨key', mem⟩ := va.listed i x h
      exact ⟨key', List.mem_cons_of_mem _ mem⟩
  · intro i x h
    rcases cases_ h with ⟨rfl, rfl⟩ | h
    · rfl
    · exact va.placed i x h
  · intro i x h
    rcases cases_ h with ⟨rfl, rfl⟩ | h
    · exact sound
    · exact va.sound i x h

end Valid

/-! ## One call -/

theorem exists_slotKey (va : a.Valid) (kind : NodeKind) (content : Datum) : ∃ key table,
    (slotKey kind content).run a.keys = (key, table) ∧ Valid { a with keys := table } ∧
      HasSlotKey table.shapes kind content key := by
  obtain ⟨key, table, run, more, distinct, has⟩ := slotKey_interns kind content a.keys va.shapes
  exact ⟨key, table, run, va.number more distinct, has⟩

theorem find_spec (va : a.Valid) (kind : NodeKind) (sound : content.Sound) : (a.find kind content).2.Valid ∧
    (a.find kind content).2.arena = a.arena ∧ ∀ i, (a.find kind content).1 = some i ↔ a.Holds kind content i := by
  obtain ⟨key, table, run, vb, has⟩ := exists_slotKey va kind content
  have found : a.find kind content = (a.entries.lookup key, { a with keys := table }) := by
    unfold find
    rw [run]
  rw [found]
  exact ⟨vb, rfl, fun i => vb.lookup_iff sound has⟩

theorem intern_of_holds (va : a.Valid) (sound : content.Sound) (h : a.Holds kind content i) :
    (a.intern kind content).2.Valid ∧ (a.intern kind content).1 = i ∧ (a.intern kind content).2.arena = a.arena := by
  obtain ⟨key, table, run, vb, has⟩ := exists_slotKey va kind content
  have known : a.entries.lookup key = some i := (vb.lookup_iff sound has).2 h
  have interned : a.intern kind content = (i, { a with keys := table }) := by
    unfold intern
    simp only [run, known]
  rw [interned]
  exact ⟨vb, rfl, rfl⟩

theorem intern_of_new (va : a.Valid) (sound : content.Sound) (h : ∀ i, ¬ a.Holds kind content i) :
    (a.intern kind content).2.Valid ∧ (a.intern kind content).1 = a.arena.size ∧
      (a.intern kind content).2.arena = ⟨a.arena.slots.push { value := ⟨a.arena.size, kind, content⟩ }⟩ := by
  obtain ⟨key, table, run, vb, has⟩ := exists_slotKey va kind content
  have new : a.entries.lookup key = none :=
    Option.eq_none_iff_forall_ne_some.2 fun i hi => h i ((vb.lookup_iff sound has).1 hi)
  have interned : a.intern kind content = (a.arena.size,
      ⟨⟨a.arena.slots.push { value := ⟨a.arena.size, kind, content⟩ }⟩, (key, a.arena.size) :: a.entries, table⟩) := by
    unfold intern
    simp only [run, new]
  rw [interned]
  exact ⟨vb.push sound has new, rfl, rfl⟩

theorem Holds.unique (va : a.Valid) (sound : content.Sound) (hi : a.Holds kind content i)
    (hj : a.Holds kind content j) : i = j := by
  obtain ⟨-, -, found⟩ := find_spec va kind sound
  have same : some i = some j := ((found i).2 hi).symm.trans ((found j).2 hj)
  exact Option.some.inj same

/-- Content is held where it has been interned, and there only. -/
theorem holds_intern (va : a.Valid) (sound : content.Sound) (j : Nat) :
    (a.intern kind content).2.Holds kind content j ↔ j = (a.intern kind content).1 := by
  have there : (a.intern kind content).2.Valid ∧
      (a.intern kind content).2.Holds kind content (a.intern kind content).1 := by
    by_cases known : ∃ i, a.Holds kind content i
    · obtain ⟨i, h⟩ := known
      obtain ⟨vb, slot, same⟩ := intern_of_holds va sound h
      refine ⟨vb, ?_⟩
      unfold Holds
      rw [same, slot]
      exact h
    · obtain ⟨vb, slot, pushed⟩ := intern_of_new va sound (not_exists.1 known)
      refine ⟨vb, ⟨a.arena.size, kind, content⟩, ?_, rfl, Over.same_self sound⟩
      rw [pushed, slot, Arena.value?_push, if_pos rfl]
  exact ⟨fun h => h.unique there.1 sound there.2, fun h => h ▸ there.2⟩

/-- What interning promises.  No content of a kind has two slots, and slots stand where they say.  Content that is
interned is given the one slot that holds it, which is a new one only if none has held it, and then the only new one.  A
question finds that slot unless interning would add it, and changes none. -/
structure Canonical (a : KeyedArena) : Prop where
  unique : ∀ i j x y, a.arena.value? i = some x → a.arena.value? j = some y → x.kind = y.kind →
    x.content.Same y.content → i = j
  placed : ∀ i x, a.arena.value? i = some x → x.idx = i
  held : ∀ kind content, content.Sound → ∀ j,
    (a.intern kind content).2.Holds kind content j ↔ j = (a.intern kind content).1
  known : ∀ kind content, content.Sound → (∃ i, a.Holds kind content i) → (a.intern kind content).2.arena = a.arena
  added : ∀ kind content, content.Sound → (¬ ∃ i, a.Holds kind content i) → (a.intern kind content).1 = a.arena.size ∧
    (a.intern kind content).2.arena = ⟨a.arena.slots.push { value := ⟨a.arena.size, kind, content⟩ }⟩
  found : ∀ kind content, content.Sound → (a.find kind content).2.arena = a.arena ∧
    (a.find kind content).1 =
      if (a.intern kind content).2.arena.size = a.arena.size then some (a.intern kind content).1 else none

theorem Valid.canonical (va : a.Valid) : a.Canonical where
  unique i j x y hx hy kinds same := by
    have sound := va.sound j y hy
    exact Holds.unique va sound ⟨x, hx, kinds, same⟩ ⟨y, hy, rfl, Over.same_self sound⟩
  placed := va.placed
  held _ _ sound j := holds_intern va sound j
  known _ _ sound := fun ⟨_, h⟩ => (intern_of_holds va sound h).2.2
  added _ _ sound none := (intern_of_new va sound (not_exists.1 none)).2
  found kind content sound := by
    obtain ⟨-, same, found⟩ := find_spec va kind sound
    refine ⟨same, ?_⟩
    by_cases known : ∃ i, a.Holds kind content i
    · obtain ⟨i, h⟩ := known
      obtain ⟨-, slot, kept⟩ := intern_of_holds va sound h
      rw [kept, if_pos rfl, slot]
      exact (found i).2 h
    · obtain ⟨-, slot, pushed⟩ := intern_of_new va sound (not_exists.1 known)
      have larger : (a.intern kind content).2.arena.size ≠ a.arena.size := by
        rw [pushed]
        simp [Arena.size]
      rw [if_neg larger]
      exact Option.eq_none_iff_forall_ne_some.2 fun i hi => known ⟨i, (found i).1 hi⟩

/-! ## Calls in a row -/

/-- A call for data as it can be built. -/
def Call.Sound : Call → Prop
  | .intern _ content => content.Sound
  | .find _ content => content.Sound
  | .link .. => True
  | .get _ => True

theorem step_link {parent child : Int} (linked : a.arena.link parent child = .ok arena) :
    a.step (.link parent child) = (.linked none, { a with arena := arena }) := by
  simp only [step, link, linked, Except.map]

theorem step_link_of_error {parent child : Int} {fault : LinkFault}
    (linked : a.arena.link parent child = .error fault) : a.step (.link parent child) = (.linked (some fault), a) := by
  simp only [step, link, linked, Except.map]

/-- A call is answered by the slots alone, whatever keys there are, and leaves an arena as it should be. -/
theorem step_spec (va : a.Valid) (vb : b.Valid) (same : a.arena = b.arena) {call : Call} (sound : call.Sound) :
    (a.step call).2.Valid ∧ (a.step call).1 = (b.step call).1 ∧ (a.step call).2.arena = (b.step call).2.arena := by
  have holds (kind : NodeKind) (content : Datum) (i : Nat) : a.Holds kind content i ↔ b.Holds kind content i := by
    unfold Holds
    rw [same]
  cases call with
  | intern kind content =>
    have step (a : KeyedArena) :
        a.step (.intern kind content) = (.interned (a.intern kind content).1, (a.intern kind content).2) := rfl
    rw [step, step]
    by_cases known : ∃ i, a.Holds kind content i
    · obtain ⟨i, h⟩ := known
      obtain ⟨after, slot, kept⟩ := intern_of_holds va sound h
      obtain ⟨-, slot', kept'⟩ := intern_of_holds vb sound ((holds kind content i).1 h)
      exact ⟨after, by rw [slot, slot'], kept.trans (same.trans kept'.symm)⟩
    · obtain ⟨after, slot, pushed⟩ := intern_of_new va sound (not_exists.1 known)
      have none : ∀ i, ¬ b.Holds kind content i := fun i h => known ⟨i, (holds kind content i).2 h⟩
      obtain ⟨-, slot', pushed'⟩ := intern_of_new vb sound none
      exact ⟨after, by rw [slot, slot', same], by rw [pushed, pushed', same]⟩
  | find kind content =>
    obtain ⟨after, kept, found⟩ := find_spec va kind sound
    obtain ⟨-, kept', found'⟩ := find_spec vb kind sound
    have answers : (a.find kind content).1 = (b.find kind content).1 :=
      Option.ext fun i => (found i).trans ((holds kind content i).trans (found' i).symm)
    exact ⟨after, congrArg Answer.found answers, kept.trans (same.trans kept'.symm)⟩
  | link parent child =>
    cases linked : a.arena.link parent child with
    | error fault =>
      rw [step_link_of_error linked, step_link_of_error (same ▸ linked)]
      exact ⟨va, rfl, same⟩
    | ok arena =>
      rw [step_link linked, step_link (same ▸ linked)]
      exact ⟨va.relink fun i => Arena.value?_link linked, rfl, rfl⟩
  | get i =>
    have got : a.get i = b.get i := by
      unfold get
      rw [same]
    exact ⟨va, congrArg Answer.got got, same⟩

theorem valid_run (va : a.Valid) : ∀ {calls : List Call}, (∀ call ∈ calls, call.Sound) → (a.run calls).2.Valid := by
  intro calls sound
  induction calls generalizing a with
  | nil => exact va
  | cons call calls ih =>
    obtain ⟨first, rest⟩ := List.forall_mem_cons.1 sound
    exact ih (step_spec va va rfl first).1 rest

theorem run_alike (va : a.Valid) (vb : b.Valid) (same : a.arena = b.arena) : ∀ {calls : List Call},
    (∀ call ∈ calls, call.Sound) →
      (a.run calls).1 = (b.run calls).1 ∧ (a.run calls).2.arena = (b.run calls).2.arena := by
  intro calls sound
  induction calls generalizing a b with
  | nil => exact ⟨rfl, same⟩
  | cons call calls ih =>
    obtain ⟨first, rest⟩ := List.forall_mem_cons.1 sound
    obtain ⟨va', answer, arena⟩ := step_spec va vb same first
    obtain ⟨vb', -, -⟩ := step_spec vb va same.symm first
    obtain ⟨answers, last⟩ := ih va' vb' arena rest
    exact ⟨congrArg₂ List.cons answer answers, last⟩

/-- A question that is put in between leaves the answers to all other calls as they are, and the slots too. -/
theorem find_aside (va : a.Valid) (aside : content.Sound) : ∀ {calls : List Call} {n : Nat}, n ≤ calls.length →
    (∀ call ∈ calls, call.Sound) →
      (a.run (calls.insertIdx n (.find kind content))).1.eraseIdx n = (a.run calls).1 ∧
        (a.run (calls.insertIdx n (.find kind content))).2.arena = (a.run calls).2.arena := by
  intro calls n le sound
  induction calls generalizing a n with
  | nil =>
    obtain rfl : n = 0 := Nat.le_zero.1 le
    exact ⟨rfl, (find_spec va kind aside).2.1⟩
  | cons call calls ih =>
    cases n with
    | zero =>
      obtain ⟨vb, kept, -⟩ := find_spec va kind aside
      exact run_alike vb va kept sound
    | succ n =>
      obtain ⟨first, rest⟩ := List.forall_mem_cons.1 sound
      obtain ⟨answers, last⟩ := ih (step_spec va va rfl first).1 (Nat.le_of_succ_le_succ le) rest
      exact ⟨congrArg (List.cons _) answers, last⟩

/-- **Interning is canonical, whatever an arena has been called for**, and questions in between, wherever they are put,
change nothing else. -/
theorem canonical_of_calls (calls : List Call) (sound : ∀ call ∈ calls, call.Sound) :
    (run {} calls).2.Canonical ∧ ∀ n ≤ calls.length, ∀ kind content, content.Sound →
      (run {} (calls.insertIdx n (.find kind content))).1.eraseIdx n = (run {} calls).1 ∧
        (run {} (calls.insertIdx n (.find kind content))).2.arena = (run {} calls).2.arena :=
  ⟨(valid_run .empty sound).canonical, fun _ le _ _ aside => find_aside .empty aside le sound⟩

/-- The same content under two kinds, its fields in another order, asked for, linked and looked at. -/
theorem canonical_of_calls_sample :
    let zero : Text × Datum := ("n", .float (.zero true))
    let name : Text × Datum := ("t", .text "x")
    let calls := [Call.intern .value (.object [zero, name]), .find .value (.object [name, ("u", .absent), zero]),
      .intern .type2 (.object [name, zero]), .link 0 1, .get 1]
    (∀ call ∈ calls, call.Sound) ∧ (run {} calls).2.Canonical ∧
      ((.object [name] : Datum).Sound ∧ 2 ≤ calls.length ∧
        (run {} (calls.insertIdx 2 (.find .value (.object [name])))).1.eraseIdx 2 = (run {} calls).1) := by
  intro zero name calls
  have object (fs : List (Text × Datum)) (names : (fs.map Prod.fst).Nodup)
      (values : ∀ f ∈ fs, f = zero ∨ f = name ∨ f.2 = .absent) : (Datum.object fs).Sound := by
    refine .object names fun f hf => ?_
    rcases values f hf with rfl | rfl | h
    · exact .float ⟨by decide, by decide, by decide, .inr rfl⟩
    · exact .text _
    · exact h ▸ .absent
  have sound : ∀ call ∈ calls, call.Sound := by
    simp only [calls, List.forall_mem_cons]
    refine ⟨object _ (by decide) (by simp), object _ (by decide) (by simp), object _ (by decide) (by simp), trivial,
      trivial, by simp⟩
  have aside : (Datum.object [name]).Sound := object _ (by decide) (by simp)
  obtain ⟨canonical, apart⟩ := canonical_of_calls calls sound
  exact ⟨sound, canonical, aside, by decide, (apart 2 (by decide) .value _ aside).1⟩

end KeyedArena
end Cddl
