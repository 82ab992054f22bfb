import Cddl.Proofs.Files.Listing
import Mathlib.Data.List.Forall2
/-!
# Directories that are listed in another order

The system lists what is in a directory in no particular order.  A tree whose directories list what they hold in another
order holds the same files under the same paths (`Relisted.files`), and lists the same schema files in the same order
(`Relisted.schemaFiles_eq`).
-/
namespace Cddl

namespace FileEntry

/-- The same entries in another order, in this directory or in one that it holds. -/
inductive Relisted : List (Text × FileEntry) → List (Text × FileEntry) → Prop
  | nil : Relisted [] []
  | cons (f : Text × FileEntry) {entries entries' : List (Text × FileEntry)} (rest : Relisted entries entries') :
      Relisted (f :: entries) (f :: entries')
  | inside (name : Text) {inner inner' entries : List (Text × FileEntry)} (below : Relisted inner inner') :
      Relisted ((name, .directory inner) :: entries) ((name, .directory inner') :: entries)
  | swap (f g : Text × FileEntry) (entries : List (Text × FileEntry)) :
      Relisted (f :: g :: entries) (g :: f :: entries)
  | trans {entries entries' entries'' : List (Text × FileEntry)} (first : Relisted entries entries')
      (second : Relisted entries' entries'') : Relisted entries entries''

/-- The same thing, but that a directory may list what it holds in another order. -/
inductive Alike : FileEntry → FileEntry → Prop
  | same (e : FileEntry) : Alike e e
  | relisted {entries entries' : List (Text × FileEntry)} (h : Relisted entries entries') :
      Alike (.directory entries) (.directory entries')

end FileEntry

namespace Files

/-- What a path leads to, or that it leads nowhere, in the same files listed in another order. -/
inductive LookAlike : Except FileFault FileEntry → Except FileFault FileEntry → Prop
  | error (f : FileFault) : LookAlike (.error f) (.error f)
  | ok {e e' : FileEntry} (h : e.Alike e') : LookAlike (.ok e) (.ok e')

/-- The same files below the same working directory, in directories that may list them in another order. -/
structure Relisted (fs fs' : Files) : Prop where
  look : ∀ path, LookAlike (fs.look path) (fs'.look path)
  cwd : fs'.cwd = fs.cwd

end Files

namespace FileEntry

variable {entries entries' : List (Text × FileEntry)} {e e' : FileEntry} {name : Text}

namespace Relisted

theorem of_perm (h : entries.Perm entries') : Relisted entries entries' := by
  induction h with
  | nil => exact .nil
  | cons f _ ih => exact .cons f ih
  | swap f g entries => exact .swap g f entries
  | trans _ _ ih ih' => exact .trans ih ih'

/-! ## Schema files -/

theorem perm_schemaFilesIn (h : Relisted entries entries') :
    ∀ directory, (schemaFilesIn directory entries).Perm (schemaFilesIn directory entries') := by
  induction h with
  | nil => exact fun _ => .refl _
  | cons f _ ih =>
    intro directory
    rw [schemaFilesIn, schemaFilesIn]
    exact (ih directory).append_left _
  -- What is below is in the same order already.
  | inside name _ ih =>
    intro directory
    have same := Text.mergeSort_eq_of_perm (ih (Path.child directory name))
    rw [schemaFilesIn, schemaFilesIn, schemaFilesAt, schemaFilesAt, same]
  | swap f g entries =>
    intro directory
    rw [schemaFilesIn_eq, schemaFilesIn_eq]
    exact (List.Perm.swap g f entries).flatMap_right _
  | trans _ _ ih ih' => exact fun directory => (ih directory).trans (ih' directory)

/-- **The order in which directories are listed makes no difference to the schema files.** -/
theorem schemaFiles_eq (h : Relisted entries entries') (directory : Text) :
    schemaFiles directory entries = schemaFiles directory entries' :=
  Text.mergeSort_eq_of_perm (h.perm_schemaFilesIn directory)

/-! ## Looking a path up -/

theorem perm_names (h : Relisted entries entries') : (entries.map Prod.fst).Perm (entries'.map Prod.fst) := by
  induction h with
  | nil => exact .nil
  | cons f _ ih => exact ih.cons f.1
  | inside name => exact .refl _
  | swap f g entries => exact .swap g.1 f.1 _
  | trans _ _ ih ih' => exact ih.trans ih'

end Relisted

theorem Alike.trans {e'' : FileEntry} (h : e.Alike e') (h' : e'.Alike e'') : e.Alike e'' := by
  cases h with
  | same => exact h'
  | relisted h =>
    cases h' with
    | same => exact .relisted h
    | relisted h' => exact .relisted (h.trans h')

theorem found_alike_of_eq {x y : Option FileEntry} (h : x = y) : Option.Rel Alike x y := by
  subst h
  cases x with
  | none => exact .none
  | some e => exact .some (.same e)

theorem found_alike_trans {x y z : Option FileEntry} (h : Option.Rel Alike x y) (h' : Option.Rel Alike y z) :
    Option.Rel Alike x z := by
  cases h with
  | none => exact h'
  | some alike =>
    cases h' with
    | some alike' => exact .some (alike.trans alike')

/-- A name leads to the same thing from two listings of a directory, or to nothing from both. -/
theorem Relisted.inside_alike (h : Relisted entries entries') (distinct : (entries.map Prod.fst).Nodup) (name : Text) :
    Option.Rel Alike (inside? entries name) (inside? entries' name) := by
  induction h with
  | nil => exact .none
  | cons f _ ih =>
    rw [inside?, inside?, List.lookup_cons, List.lookup_cons]
    cases name == f.1 with
    | true => exact .some (.same f.2)
    | false => exact ih (List.nodup_cons.1 distinct).2
  | inside own below =>
    rw [inside?, inside?, List.lookup_cons, List.lookup_cons]
    cases name == own with
    | true => exact .some (.relisted below)
    | false => exact found_alike_of_eq rfl
  -- Only here it matters that names are distinct: of two things with one name the first would be found.
  | swap f g entries =>
    have apart : f.1 ≠ g.1 := fun same => (List.nodup_cons.1 distinct).1 (same ▸ List.mem_cons_self)
    apply found_alike_of_eq
    rw [inside?, inside?, List.lookup_cons, List.lookup_cons, List.lookup_cons, List.lookup_cons]
    cases first : name == f.1 with
    | true => rw [eq_of_beq first, beq_false_of_ne apart]
    | false => rfl
  | trans first _ ih ih' =>
    exact found_alike_trans (ih distinct) (ih' (first.perm_names.nodup_iff.1 distinct))

/-- Of two listings of a directory both are directories, in which names lead to the same things. -/
theorem Alike.exists_directory (h : (FileEntry.directory entries).Alike e') (distinct : (entries.map Prod.fst).Nodup) :
    ∃ entries', e' = .directory entries' ∧ ∀ name, Option.Rel Alike (inside? entries name) (inside? entries' name) := by
  cases h with
  | same => exact ⟨entries, rfl, fun _ => found_alike_of_eq rfl⟩
  | relisted h => exact ⟨_, rfl, h.inside_alike distinct⟩

theorem WellNamed.inside (h : (FileEntry.directory entries).WellNamed) (found : inside? entries name = some e) :
    e.WellNamed := by
  cases h with
  | directory _ distinct inside => exact inside _ ((Text.lookup_eq_some_iff distinct).1 found)

/-- Only a directory can be gone on from. -/
theorem follow_other {above : List FileEntry} (other : ∀ inner, e ≠ .directory inner) (part : Text) (rest : List Text) :
    follow above e (part :: rest) = .error .notDirectory := by
  rw [follow]
  exact other

/-- Following a path in two listings of a tree leads to the same thing, or to the same fault. -/
theorem follow_alike {above above' : List FileEntry} (h : e.Alike e') (named : e.WellNamed)
    (before : List.Forall₂ Alike above above') (namedAbove : ∀ d ∈ above, d.WellNamed) (parts : List Text) :
    Files.LookAlike ((follow above e parts).map Prod.snd) ((follow above' e' parts).map Prod.snd) := by
  induction parts generalizing above above' e e' with
  | nil => exact .ok h
  | cons part rest ih =>
    by_cases directory : ∃ entries, e = .directory entries
    · obtain ⟨entries, rfl⟩ := directory
      have distinct : (entries.map Prod.fst).Nodup := by cases named with | directory _ distinct _ => exact distinct
      obtain ⟨entries', rfl, inside⟩ := h.exists_directory distinct
      unfold follow
      dsimp only
      split
      · exact ih h named before namedAbove
      · split
        · cases before with
          | nil => exact ih (.same outside) (.directory nofun .nil nofun) .nil nofun
          | cons up before =>
            exact ih up (namedAbove _ List.mem_cons_self) before fun d hd => namedAbove d (List.mem_cons_of_mem _ hd)
        · have next := inside part
          generalize found : inside? entries part = x, inside? entries' part = y at next
          cases next with
          | none => exact .error _
          | some alike =>
            exact ih alike (named.inside found) (.cons h before) (List.forall_mem_cons.2 ⟨named, namedAbove⟩)
    · have other := fun inner same => directory ⟨inner, same⟩
      cases h with
      | same =>
        rw [follow_other other, follow_other other]
        exact .error _
      | relisted h => exact absurd rfl (other _)

/-- **A tree that is listed in another order holds the same files.** -/
theorem Relisted.files (h : Relisted entries entries') (named : (FileEntry.directory entries).WellNamed) {cwd : Text} :
    ((FileEntry.directory entries).files cwd).Relisted ((FileEntry.directory entries').files cwd) where
  look path := by
    show Files.LookAlike (look _ path) (look _ path)
    unfold look base
    split
    · exact .error _
    · split
      · exact follow_alike (.same outside) (.directory nofun .nil nofun) .nil nofun _
      · exact follow_alike (.relisted h) named .nil nofun _
  cwd := rfl

end FileEntry
end Cddl
