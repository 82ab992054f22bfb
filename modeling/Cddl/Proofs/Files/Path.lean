import Cddl.Files.Path
import Cddl.Proofs.Text
import Mathlib.Data.List.Induction
/-!
# Plain paths

A path that has been made plain is read back as the parts that it was put together from.  So names that lead into a
directory, one in another, can be told from the path of what they lead to (`beneath_inj`), and it makes no difference
whether they are put behind the directory's path all at once or one by one (`beneath_child`).  What is shown of a path
leads where the path does (`resolve_shown`), and says the same in every working directory if it stays below that
(`shown_of_below`).
-/
namespace Cddl.Path

/-- A name that something in a directory can have. -/
structure IsName (name : Text) : Prop where
  ne_nil : name ≠ []
  ne_here : name ≠ here
  ne_up : name ≠ up
  unbroken : CodeUnit.ofChar '/' ∉ name

instance : DecidablePred IsName := fun name =>
  decidable_of_iff (name ≠ [] ∧ name ≠ here ∧ name ≠ up ∧ CodeUnit.ofChar '/' ∉ name)
    ⟨fun h => ⟨h.1, h.2.1, h.2.2.1, h.2.2.2⟩, fun h => ⟨h.1, h.2, h.3, h.4⟩⟩

/-- The parts of a path once it is made plain. -/
def steps (path : Text) : List Text := plainParts (isAbsolute path) (parts path)

/-- The path of what names lead to from a directory, one in another. -/
def beneath (directory : Text) (names : List Text) : Text := ofParts (isAbsolute directory) (steps directory ++ names)

/-! ## Parts that are plain already -/

/-- Plain parts, the last of them first: each stays as it is behind those before it. -/
inductive Settled (absolute : Bool) : List Text → Prop
  | nil : Settled absolute []
  | cons {before : List Text} {part : Text} (rest : Settled absolute before)
      (kept : push absolute before part = part :: before) (unbroken : CodeUnit.ofChar '/' ∉ part) :
      Settled absolute (part :: before)

variable {absolute : Bool} {before ps names : List Text} {directory name part : Text}

theorem push_name (h : IsName name) : push absolute before name = name :: before := by
  unfold push
  rw [decide_eq_false h.ne_nil, decide_eq_false h.ne_here, if_neg (by decide), if_neg h.ne_up]

/-- A part is left out, leads up or stays. -/
theorem push_cases (absolute : Bool) (before : List Text) (part : Text) :
    push absolute before part = before ∨ push absolute before part = [] ∨ push absolute before part = before.tail ∨
      push absolute before part = part :: before := by
  unfold push
  split
  · exact .inl rfl
  · split
    · rename_i up
      subst up
      cases before with
      | nil =>
        cases absolute with
        | true => exact .inr (.inl rfl)
        | false => exact .inr (.inr (.inr rfl))
      | cons last rest =>
        dsimp only
        split
        · exact .inr (.inr (.inr rfl))
        · exact .inr (.inr (.inl rfl))
    · exact .inr (.inr (.inr rfl))

namespace Settled

theorem tail (h : Settled absolute before) : Settled absolute before.tail := by
  cases h with
  | nil => exact .nil
  | cons rest => exact rest

theorem push (h : Settled absolute before) (unbroken : CodeUnit.ofChar '/' ∉ part) :
    Settled absolute (Path.push absolute before part) := by
  rcases push_cases absolute before part with same | same | same | same
  · rw [same]
    exact h
  · rw [same]
    exact .nil
  · rw [same]
    exact h.tail
  · rw [same]
    exact .cons h same unbroken

theorem foldl (h : Settled absolute before) (unbroken : ∀ p ∈ ps, CodeUnit.ofChar '/' ∉ p) :
    Settled absolute (ps.foldl (Path.push absolute) before) := by
  induction ps generalizing before with
  | nil => exact h
  | cons p ps ih =>
    exact ih (h.push (unbroken p List.mem_cons_self)) fun q hq => unbroken q (List.mem_cons_of_mem p hq)

theorem append_names (h : Settled absolute before) (proper : ∀ n ∈ names, IsName n) :
    Settled absolute (names.reverse ++ before) := by
  induction names generalizing before with
  | nil => exact h
  | cons n names ih =>
    have first := proper n List.mem_cons_self
    rw [List.reverse_cons, List.append_assoc]
    exact ih (.cons h (push_name first) first.unbroken) fun m hm => proper m (List.mem_cons_of_mem n hm)

/-- Settled parts are what becomes of themselves. -/
theorem foldl_push (h : Settled absolute before) : before.reverse.foldl (Path.push absolute) [] = before := by
  induction h with
  | nil => rfl
  | cons _ kept _ ih => rw [List.reverse_cons, List.foldl_append, ih, List.foldl_cons, List.foldl_nil, kept]

theorem unbroken (h : Settled absolute before) : ∀ p ∈ before, CodeUnit.ofChar '/' ∉ p := by
  induction h with
  | nil => exact fun p hp => absurd hp List.not_mem_nil
  | cons _ _ unbroken ih => exact fun p hp => (List.mem_cons.1 hp).elim (fun same => same ▸ unbroken) (ih p)

theorem ne_nil (h : Settled absolute before) : ∀ p ∈ before, p ≠ [] := by
  induction h with
  | nil => exact fun p hp => absurd hp List.not_mem_nil
  | @cons before part _ kept _ ih =>
    refine fun p hp => (List.mem_cons.1 hp).elim ?_ (ih p)
    rintro rfl rfl
    exact List.cons_ne_self _ _ kept.symm

end Settled

/-! ## Reading a plain path back -/

theorem parts_slash (path : Text) : parts (CodeUnit.ofChar '/' :: path) = [] :: parts path :=
  List.splitOn_append_cons_self_of_not_mem List.not_mem_nil path

theorem parts_unbroken : ∀ (path : Text), ∀ p ∈ parts path, CodeUnit.ofChar '/' ∉ p
  | [], p, hp => by
    rw [List.mem_singleton.1 hp]
    exact List.not_mem_nil
  | u :: path, p, hp => by
    have ih := parts_unbroken path
    by_cases slash : u = CodeUnit.ofChar '/'
    · rw [slash, parts_slash] at hp
      rcases List.mem_cons.1 hp with rfl | hp
      · exact List.not_mem_nil
      · exact ih p hp
    · have more : parts (u :: path) = (parts path).modifyHead (u :: ·) := by
        rw [parts, List.splitOn_cons_eq_if_modifyHead, if_neg (by rwa [beq_iff_eq]), parts]
      rw [more] at hp
      cases split : parts path with
      | nil => exact absurd split (List.splitOn_ne_nil _ _)
      | cons first rest =>
        rw [split] at hp ih
        rcases List.mem_cons.1 hp with rfl | hp
        · exact fun mem => (List.mem_cons.1 mem).elim (fun h => slash h.symm) (ih first List.mem_cons_self)
        · exact ih p (List.mem_cons_of_mem first hp)

/-- Parts that are not empty make up a path that is not absolute, and are read back from it. -/
theorem read_join (some : ps ≠ []) (present : ∀ p ∈ ps, p ≠ []) (unbroken : ∀ p ∈ ps, CodeUnit.ofChar '/' ∉ p) :
    isAbsolute (Text.join "/" ps) = false ∧ parts (Text.join "/" ps) = ps := by
  refine ⟨?_, List.splitOn_intercalate _ unbroken some⟩
  cases ps with
  | nil => exact absurd rfl some
  | cons p ps =>
    cases first : p with
    | nil => exact absurd first (present p List.mem_cons_self)
    | cons u r =>
      rw [Text.join_cons, isAbsolute, List.cons_append, List.head?_cons]
      refine decide_eq_false fun slash => unbroken p List.mem_cons_self ?_
      rw [first, ← Option.some.inj slash]
      exact List.mem_cons_self

theorem plainParts_join (h : Settled absolute ps.reverse) : plainParts absolute (parts (Text.join "/" ps)) = ps := by
  cases ps with
  | nil => rfl
  | cons p ps =>
    have split : parts (Text.join "/" (p :: ps)) = p :: ps :=
      List.splitOn_intercalate _ (fun q hq => h.unbroken q (List.mem_reverse.2 hq)) (List.cons_ne_nil p ps)
    have kept := h.foldl_push
    rw [List.reverse_reverse] at kept
    rw [split, plainParts, kept, List.reverse_reverse]

/-- **A plain path is read back as its parts**, and starts from where it was made to start. -/
theorem read_ofParts (h : Settled absolute ps.reverse) :
    isAbsolute (ofParts absolute ps) = absolute ∧ steps (ofParts absolute ps) = ps := by
  have plain := plainParts_join h
  cases absolute with
  | true =>
    refine ⟨rfl, ?_⟩
    have starts : ofParts true ps = CodeUnit.ofChar '/' :: Text.join "/" ps := rfl
    rw [steps, starts, parts_slash]
    exact plain
  | false =>
    cases ps with
    | nil => exact ⟨rfl, rfl⟩
    | cons p ps =>
      have path : ofParts false (p :: ps) = Text.join "/" (p :: ps) := rfl
      have relative := (read_join (List.cons_ne_nil p ps) (fun q hq => h.ne_nil q (List.mem_reverse.2 hq))
        fun q hq => h.unbroken q (List.mem_reverse.2 hq)).1
      rw [path, steps, relative]
      exact ⟨rfl, plain⟩

/-! ## What is in a directory -/

theorem settled_foldl (path : Text) : Settled absolute ((parts path).foldl (push absolute) []) :=
  Settled.nil.foldl (parts_unbroken path)

theorem settled_steps (path : Text) : Settled (isAbsolute path) (steps path).reverse := by
  rw [steps, plainParts, List.reverse_reverse]
  exact settled_foldl path

theorem read_beneath (directory : Text) (proper : ∀ n ∈ names, IsName n) :
    isAbsolute (beneath directory names) = isAbsolute directory ∧
      steps (beneath directory names) = steps directory ++ names := by
  apply read_ofParts
  rw [List.reverse_append]
  exact (settled_steps directory).append_names proper

/-- **Names can be told from the path of what they lead to.** -/
theorem beneath_inj {others : List Text} (proper : ∀ n ∈ names, IsName n) (proper' : ∀ n ∈ others, IsName n)
    (h : beneath directory names = beneath directory others) : names = others := by
  have steps := (read_beneath directory proper).2
  rw [h, (read_beneath directory proper').2] at steps
  exact (List.append_cancel_left steps).symm

theorem child_name (h : IsName name) : child directory name = beneath directory [name] := by
  rw [child, beneath, steps, plainParts, plainParts, List.foldl_append, List.foldl_cons, List.foldl_nil, push_name h,
    List.reverse_cons]

theorem beneath_child (h : IsName name) (names : List Text) :
    beneath (child directory name) names = beneath directory (name :: names) := by
  have proper : ∀ n ∈ [name], IsName n := fun n hn => List.mem_singleton.1 hn ▸ h
  obtain ⟨start, steps⟩ := read_beneath directory proper
  rw [child_name h, beneath, start, steps, List.append_assoc, List.singleton_append, beneath]

example : beneath "./a//b/../c" ["d", "e.cddl"] = "a/c/d/e.cddl" := by decide

/-! ## Shown paths -/

variable {cwd path : Text} {common out down : List Text}

theorem push_stay (h : part = [] ∨ part = here) : push absolute before part = before := by
  unfold push
  rw [if_pos (by simpa using h)]

theorem push_up_name (h : IsName name) : push absolute (name :: before) up = before := by
  show (if name = up then up :: name :: before else before) = before
  rw [if_neg h.ne_up]

theorem push_up_ups (k : Nat) : push false (List.replicate k up) up = List.replicate (k + 1) up := by
  cases k <;> rfl

theorem push_up (proper : ∀ n ∈ before, IsName n) : push true before up = before.tail := by
  cases before with
  | nil => rfl
  | cons last rest => exact push_up_name (proper last List.mem_cons_self)

theorem foldl_push_names (proper : ∀ n ∈ names, IsName n) :
    names.foldl (push absolute) before = names.reverse ++ before := by
  induction names generalizing before with
  | nil => rfl
  | cons n names ih =>
    rw [List.foldl_cons, push_name (proper n List.mem_cons_self), ih fun m hm => proper m (List.mem_cons_of_mem n hm),
      List.reverse_cons, List.append_assoc, List.singleton_append]

/-- Going up takes names back. -/
theorem foldl_push_ups (k : Nat) (proper : ∀ n ∈ before, IsName n) :
    (List.replicate k up).foldl (push true) before = before.drop k := by
  induction k generalizing before with
  | zero => rfl
  | succ k ih =>
    rw [List.replicate_succ, List.foldl_cons, push_up proper, ih fun n hn => proper n (List.mem_of_mem_tail hn),
      List.drop_tail]

/-- From the root nothing leads up, so plain parts are names. -/
theorem Settled.isName (h : Settled true before) : ∀ n ∈ before, IsName n := by
  induction h with
  | nil => exact fun n hn => absurd hn List.not_mem_nil
  | @cons before part _ kept unbroken ih =>
    have grows : Path.push true before part ≠ before := fun same => List.cons_ne_self _ _ (kept.symm.trans same)
    refine List.forall_mem_cons.2 ⟨⟨?_, ?_, ?_, unbroken⟩, ih⟩
    · rintro rfl
      exact grows rfl
    · rintro rfl
      exact grows rfl
    · rintro rfl
      rw [push_up ih] at kept
      have length := congrArg List.length kept
      rw [List.length_tail, List.length_cons] at length
      omega

theorem isName_of_mem_resolve (cwd path : Text) : ∀ n ∈ resolve cwd path, IsName n := by
  intro n hn
  have unbroken : ∀ p ∈ (if isAbsolute path then parts path else parts cwd ++ parts path), CodeUnit.ofChar '/' ∉ p := by
    intro p hp
    split at hp
    · exact parts_unbroken path p hp
    · exact (List.mem_append.1 hp).elim (parts_unbroken cwd p) (parts_unbroken path p)
  exact (Settled.nil.foldl unbroken).isName n (List.mem_reverse.1 hn)

theorem exists_apart (ss ts : List Text) :
    ∃ common, ss = common ++ (apart ss ts).1 ∧ ts = common ++ (apart ss ts).2 := by
  induction ss, ts using apart.induct with
  | case1 ss s ts ih =>
    obtain ⟨common, out, down⟩ := ih
    refine ⟨s :: common, ?_, ?_⟩
    · rw [apart, if_pos rfl, List.cons_append, ← out]
    · rw [apart, if_pos rfl, List.cons_append, ← down]
  | case2 s ss t ts other =>
    rw [apart, if_neg other]
    exact ⟨[], rfl, rfl⟩
  | case3 ss ts other =>
    rw [apart]
    · exact ⟨[], rfl, rfl⟩
    · exact other

/-- The way to a path leads up from the working directory to what contains both, and down from there. -/
theorem exists_relative (cwd path : Text) : ∃ common out down, plainParts true (parts cwd) = common ++ out ∧
    resolve cwd path = common ++ down ∧ relative cwd path = Text.join "/" (List.replicate out.length up ++ down) := by
  obtain ⟨common, start, target⟩ := exists_apart (plainParts true (parts cwd)) (resolve cwd path)
  refine ⟨common, _, _, start, target, ?_⟩
  rw [← List.map_const']
  rfl

theorem resolve_join (split : plainParts true (parts cwd) = common ++ out) (proper : ∀ n ∈ down, IsName n)
    (some : List.replicate out.length up ++ down ≠ []) :
    resolve cwd (Text.join "/" (List.replicate out.length up ++ down)) = common ++ down := by
  have steps : ∀ p ∈ List.replicate out.length up ++ down, p ≠ [] ∧ CodeUnit.ofChar '/' ∉ p := by
    intro p hp
    rcases List.mem_append.1 hp with up | name
    · rw [List.eq_of_mem_replicate up]
      decide
    · exact ⟨(proper p name).ne_nil, (proper p name).unbroken⟩
  obtain ⟨relative, read⟩ := read_join some (fun p hp => (steps p hp).1) fun p hp => (steps p hp).2
  have start : (parts cwd).foldl (push true) [] = out.reverse ++ common.reverse := by
    rw [← List.reverse_append, ← split, plainParts, List.reverse_reverse]
  rw [resolve, relative, if_neg Bool.false_ne_true, read, plainParts, List.foldl_append, List.foldl_append,
    foldl_push_ups _ (settled_foldl cwd).isName, foldl_push_names proper, start, List.drop_left' List.length_reverse,
    List.reverse_append, List.reverse_reverse, List.reverse_reverse]

/-- **What is shown of a path leads where the path does.** -/
theorem resolve_shown (cwd path : Text) : resolve cwd (shown cwd path) = resolve cwd path := by
  obtain ⟨common, out, down, start, target, way⟩ := exists_relative cwd path
  have names := isName_of_mem_resolve cwd path
  rw [target] at names
  unfold shown
  split
  · rfl
  · rename_i some
    rw [way] at some ⊢
    rw [target]
    exact resolve_join start (fun n hn => names n (List.mem_append_right common hn))
      fun none => some (by rw [none]; rfl)

example : shown "/a/b" "../b/c/./d" = "c/d" ∧ shown "/a/b" "/a/c" = "../c" ∧ shown "/a/b" "x/.." = "x/.." := by decide

/-! ## Paths that stay below -/

/-- Parts that are made plain lead up some times, and then to names; from the root on, as many names before them are
taken back.  The last part stands first. -/
theorem exists_steps (proper : ∀ n ∈ before, IsName n) (unbroken : ∀ p ∈ ps, CodeUnit.ofChar '/' ∉ p) :
    ∃ k names, (∀ n ∈ names, IsName n) ∧ ps.foldl (push false) [] = names ++ List.replicate k up ∧
      ps.foldl (push true) before = names ++ before.drop k := by
  induction ps using List.reverseRecOn with
  | nil => exact ⟨0, [], nofun, rfl, rfl⟩
  | append_singleton ps p ih =>
    obtain ⟨k, names, names', plain, rooted⟩ := ih fun q hq => unbroken q (List.mem_append_left _ hq)
    rw [List.foldl_append, List.foldl_append, plain, rooted, List.foldl_cons, List.foldl_cons, List.foldl_nil,
      List.foldl_nil]
    by_cases left : p = [] ∨ p = here
    · rw [push_stay left, push_stay left]
      exact ⟨k, names, names', rfl, rfl⟩
    · obtain ⟨some, moves⟩ := not_or.1 left
      by_cases leads : p = up
      · have all : ∀ n ∈ names ++ before.drop k, IsName n := fun n hn =>
          (List.mem_append.1 hn).elim (names' n) fun hn => proper n (List.mem_of_mem_drop hn)
        rw [leads, push_up all]
        cases names with
        | nil =>
          refine ⟨k + 1, [], nofun, push_up_ups k, ?_⟩
          rw [List.nil_append, List.nil_append, List.tail_drop]
        | cons n names =>
          obtain ⟨name, names'⟩ := List.forall_mem_cons.1 names'
          exact ⟨k, names, names', push_up_name name, rfl⟩
      · have name : IsName p := ⟨some, moves, leads, unbroken p (List.mem_append_right _ List.mem_cons_self)⟩
        rw [push_name name, push_name name]
        exact ⟨k, p :: names, List.forall_mem_cons.2 ⟨name, names'⟩, rfl, rfl⟩

theorem apart_append (ss ts : List Text) : apart ss (ss ++ ts) = ([], ts) := by
  induction ss with
  | nil =>
    rw [List.nil_append, apart]
    exact nofun
  | cons s ss ih => rw [List.cons_append, apart, if_pos rfl, ih]

/-- **A path that does not lead out of where it starts is shown as it is when it is made plain**, whatever the working
directory is. -/
theorem shown_of_below (start : isAbsolute path = false) (below : up ∉ steps path) :
    shown cwd path = if steps path = [] then path else plain path := by
  obtain ⟨k, names, names', plainly, rooted⟩ :=
    exists_steps (settled_foldl cwd).isName (parts_unbroken path)
  have own : steps path = List.replicate k up ++ names.reverse := by
    rw [steps, start, plainParts, plainly, List.reverse_append, List.reverse_replicate]
  have none : k = 0 := by
    refine Nat.eq_zero_of_not_pos fun more => below ?_
    rw [own]
    exact List.mem_append_left _ (List.mem_replicate.2 ⟨Nat.ne_of_gt more, rfl⟩)
  subst none
  rw [List.replicate_zero, List.nil_append] at own
  have inside : resolve cwd path = plainParts true (parts cwd) ++ steps path := by
    rw [resolve, start, if_neg Bool.false_ne_true, plainParts, List.foldl_append, rooted, List.drop_zero,
      List.reverse_append, own, plainParts]
  have way : relative cwd path = Text.join "/" (steps path) := by
    rw [relative, inside, apart_append]
    rfl
  have made : plain path = ofParts false (steps path) := by rw [plain, steps, start]
  rw [shown, way, made]
  cases h : steps path with
  | nil => rfl
  | cons p ps =>
    have first : p ≠ [] := (names' p (by rw [← List.mem_reverse, ← own, h]; exact List.mem_cons_self)).ne_nil
    have some : Text.join "/" (p :: ps) ≠ [] := by
      rw [Text.join_cons]
      exact List.append_ne_nil_of_left_ne_nil first _
    rw [if_neg some, if_neg (List.cons_ne_nil p ps)]
    rfl

end Cddl.Path
