import Cddl.Proofs.Agreement
import Cddl.Proofs.Files.Relisted
/-!
# Checking what paths stand for

A check is given paths, of files and of directories, and looks at the files that those stand for, one after the other.
It fails if one of them does, whether it goes on then or stops; what it says up to there is the same (`check_listed`).
The system may list what is in a directory in any order: a check says the same of it and ends the same.
-/
namespace Cddl

namespace CheckResult

variable {r : CheckResult} {all shown rs : List CheckResult}

/-! ## Stopping at a failure -/

/-- Something failed, and it was the last that was looked at. -/
def EndsInFailure (rs : List CheckResult) : Prop := ∃ before r, rs = before ++ [r] ∧ r.success = false

/-- What is shown of outcomes up to a failure: the least beginning that ends in one, and all of them if none is one. -/
inductive UpToFailure (all : List CheckResult) : List CheckResult → Prop
  | none (passed : ∀ r ∈ all, r.success = true) : UpToFailure all all
  | some {shown : List CheckResult} (begins : shown <+: all) (ends : EndsInFailure shown)
      (least : ∀ rs, rs <+: all → EndsInFailure rs → shown.length ≤ rs.length) : UpToFailure all shown

theorem EndsInFailure.pos (h : EndsInFailure rs) : 1 ≤ rs.length := by
  obtain ⟨before, r, rfl, _⟩ := h
  rw [List.length_append, List.length_singleton]
  exact Nat.le_add_left 1 _

/-- A failure behind an outcome that is none is a failure of what comes after. -/
theorem endsInFailure_cons (passed : r.success = true) : EndsInFailure (r :: rs) ↔ EndsInFailure rs := by
  constructor
  · rintro ⟨before, last, same, failed⟩
    cases before with
    | nil =>
      obtain ⟨rfl, rfl⟩ := List.cons.inj same
      rw [passed] at failed
      cases failed
    | cons _ before =>
      obtain ⟨rfl, rfl⟩ := List.cons.inj same
      exact ⟨before, last, rfl, failed⟩
  · rintro ⟨before, last, rfl, failed⟩
    exact ⟨r :: before, last, rfl, failed⟩

theorem UpToFailure.cons (passed : r.success = true) (h : UpToFailure all shown) :
    UpToFailure (r :: all) (r :: shown) := by
  cases h with
  | none rest => exact .none fun s hs => (List.mem_cons.1 hs).elim (fun same => same ▸ passed) (rest s)
  | some begins ends least =>
    refine .some ((List.prefix_cons_inj r).2 begins) ((endsInFailure_cons passed).2 ends) ?_
    intro rs begins' ends'
    cases rs with
    | nil => exact absurd ends'.pos (by decide)
    | cons s rs =>
      obtain ⟨rfl, begins₂⟩ := List.cons_prefix_cons.1 begins'
      exact Nat.succ_le_succ (least rs begins₂ ((endsInFailure_cons passed).1 ends'))

theorem upToFailure_untilFailure : ∀ all, UpToFailure all (untilFailure all)
  | [] => .none fun r hr => absurd hr List.not_mem_nil
  | r :: all => by
    rw [untilFailure]
    split
    · exact (upToFailure_untilFailure all).cons ‹_›
    · rename_i failed
      exact .some ⟨all, rfl⟩ ⟨[], r, rfl, eq_false_of_ne_true failed⟩ fun rs _ ends => ends.pos

/-- To stop at the first failure does not hide that there is one. -/
theorem any_untilFailure : ∀ all, (untilFailure all).any (fun r => !r.success) = all.any fun r => !r.success
  | [] => rfl
  | r :: all => by
    rw [untilFailure]
    split
    · rw [List.any_cons, List.any_cons, any_untilFailure all]
    · rename_i failed
      rw [List.any_cons, List.any_cons, eq_false_of_ne_true failed]
      rfl

end CheckResult

namespace Files

variable {fs fs' : Files} {path file : Text} {paths : List Text} {e : FileEntry}

/-! ## What paths stand for -/

/-- A file passes if it can be read and what it holds is a schema. -/
def Passes (fs : Files) (file : Text) : Prop :=
  ∃ content d, fs.read file = .ok content ∧ parse (Text.ofUtf8 content) = .ok d

/-- What a path stands for: itself, or the schema files that are in a directory at any depth, in ascending order. -/
inductive StandsFor (fs : Files) (path : Text) : List Text → Prop
  | itself {e : FileEntry} (found : fs.look path = .ok e) (other : ∀ entries, e ≠ .directory entries) :
      StandsFor fs path [path]
  | directory {entries : List (Text × FileEntry)} {files : List Text} (found : fs.look path = .ok (.directory entries))
      (ascending : files.Pairwise (· < ·))
      (exact : ∀ file, file ∈ files ↔ ∃ names, FileEntry.HoldsSchema entries names ∧ file = Path.beneath path names) :
      StandsFor fs path files

theorem standsFor_expand (found : fs.look path = .ok e) (named : e.WellNamed) : fs.StandsFor path (expand path e) := by
  cases e with
  | directory entries =>
    exact .directory found (FileEntry.ascending_schemaFiles named path) fun _ => FileEntry.mem_schemaFiles named
  | file => exact .itself found fun _ => FileEntry.noConfusion
  | locked => exact .itself found fun _ => FileEntry.noConfusion
  | special => exact .itself found fun _ => FileEntry.noConfusion

/-- **Paths that lead somewhere stand for files**, each for its own and one after the other. -/
theorem exists_collect (there : ∀ path ∈ paths, ∃ e, fs.look path = .ok e ∧ e.WellNamed) :
    ∃ listed, List.Forall₂ fs.StandsFor paths listed ∧ fs.collect paths = .ok listed.flatten := by
  induction paths with
  | nil => exact ⟨[], .nil, rfl⟩
  | cons path paths ih =>
    obtain ⟨e, found, named⟩ := there path List.mem_cons_self
    obtain ⟨listed, stand, collected⟩ := ih fun p hp => there p (List.mem_cons_of_mem path hp)
    refine ⟨expand path e :: listed, .cons (standsFor_expand found named) stand, ?_⟩
    rw [collect, found]
    dsimp only
    rw [collected]
    rfl

theorem success_check : (fs.check file).success = true ↔ fs.Passes file := by
  rw [check, Passes]
  cases reads : fs.read file with
  | error reason =>
    constructor
    · exact fun h => by cases h
    · rintro ⟨_, _, h, _⟩
      cases h
  | ok content =>
    rw [CheckResult.ofContent]
    cases parses : parse (Text.ofUtf8 content) with
    | ok d => exact ⟨fun _ => ⟨content, d, rfl, parses⟩, fun _ => rfl⟩
    | error ds =>
      constructor
      · exact fun h => by cases h
      · rintro ⟨_, d, ⟨⟩, h⟩
        rw [parses] at h
        cases h

/-! ## Listing in another order -/

namespace Relisted

variable (h : fs.Relisted fs')
include h

theorem check (file : Text) : fs'.check file = fs.check file := by
  have read : fs'.read file = fs.read file := by
    unfold Files.read
    have alike := h.look file
    generalize fs.look file = x, fs'.look file = y at alike
    cases alike with
    | error => rfl
    | ok alike => cases alike <;> rfl
  rw [Files.check, Files.check, read, h.cwd]

theorem collect : ∀ paths, fs'.collect paths = fs.collect paths
  | [] => rfl
  | path :: paths => by
    have rest := collect paths
    have alike := h.look path
    rw [Files.collect, Files.collect, rest]
    generalize fs.look path = x, fs'.look path = y at alike
    cases alike with
    | error => rfl
    | ok alike =>
      cases alike with
      | same => rfl
      | relisted listing =>
        dsimp only
        rw [expand, expand, listing.schemaFiles_eq]

/-- **The order in which directories are listed makes no difference to a check.** -/
theorem runCheck (paths : List Text) (failFast json : Bool) :
    Command.runCheck fs' paths failFast json = Command.runCheck fs paths failFast json := by
  have same : fs'.check = fs.check := funext h.check
  rw [Command.runCheck, Command.runCheck, h.collect paths, same]

end Relisted

end Files

namespace Command

open Outcome

variable {fs : Files} {paths files : List Text} {failFast json : Bool}

/-! ## The check -/

theorem runCheck_of_collect (collected : fs.collect paths = .ok files) (some : files ≠ []) :
    runCheck fs paths failFast json =
      { failed := (files.map fs.check).any fun r => !r.success
        out := checkReport json
          (if failFast then CheckResult.untilFailure (files.map fs.check) else files.map fs.check) } := by
  rw [runCheck, collected]
  cases files with
  | nil => exact absurd rfl some
  | cons file files =>
    cases failFast with
    | false => rfl
    | true =>
      dsimp only
      rw [if_pos rfl, CheckResult.any_untilFailure]
      rfl

/-- What comes of a check of paths that stand for the given files. -/
structure ChecksAll (fs : Files) (paths files : List Text) (json : Bool) : Prop where
  failed : ∀ failFast, (run fs (.check paths failFast json)).failed = true ↔ ∃ file ∈ files, ¬fs.Passes file
  judged : ∀ file ∈ files, (fs.check file).success = true ↔ fs.Passes file
  shown : (run fs (.check paths false json)).out = checkReport json (files.map fs.check)
  shownUpToFailure : ∃ rs, CheckResult.UpToFailure (files.map fs.check) rs ∧
    (run fs (.check paths true json)).out = checkReport json rs

theorem checksAll_of_collect (collected : fs.collect paths = .ok files) (some : files ≠ []) (json : Bool) :
    ChecksAll fs paths files json where
  failed failFast := by
    rw [run, runCheck_of_collect collected some, List.any_map, List.any_eq_true]
    refine exists_congr fun file => and_congr_right fun _ => ?_
    rw [← Files.success_check, Function.comp_apply, Bool.not_eq_true', Bool.not_eq_true]
  judged _ _ := Files.success_check
  shown := by
    rw [run, runCheck_of_collect collected some]
    rfl
  shownUpToFailure := by
    refine ⟨_, CheckResult.upToFailure_untilFailure _, ?_⟩
    rw [run, runCheck_of_collect collected some]
    rfl

/-- **A check looks at the schema files that its paths stand for, and fails exactly if one of them does.**  In what
order the system lists the files of a directory makes no difference. -/
theorem check_listed (there : ∀ path ∈ paths, ∃ e, fs.look path = .ok e ∧ e.WellNamed) :
    (∃ listed, List.Forall₂ fs.StandsFor paths listed ∧ fs.collect paths = .ok listed.flatten ∧
      (listed.flatten ≠ [] → ∀ json, ChecksAll fs paths listed.flatten json)) ∧
    ∀ fs', fs.Relisted fs' → ∀ failFast json,
      run fs' (.check paths failFast json) = run fs (.check paths failFast json) := by
  obtain ⟨listed, stand, collected⟩ := Files.exists_collect there
  exact ⟨⟨listed, stand, collected, checksAll_of_collect collected⟩, fun _ alike => alike.runCheck paths⟩

/-- What a directory holds: among others a schema, one in a directory, and a schema file that may not be read. -/
def sampleEntries : List (Text × FileEntry) :=
  [("p.cddl", .special sampleSchema), ("b0.cddl", .locked), ("n.txt", .file sampleSchema),
    ("b", .directory [("z.cddl", .file sampleSchema)]), ("b-x.cddl", .file sampleSchema)]

theorem sampleEntries_wellNamed : (FileEntry.directory sampleEntries).WellNamed := by
  have inner : (FileEntry.directory [("z.cddl", .file sampleSchema)]).WellNamed :=
    .directory (List.forall_mem_singleton.2 (by decide)) (by decide) (List.forall_mem_singleton.2 .file)
  refine .directory ?_ (by decide) ?_
  · have proper : ∀ name ∈ sampleEntries.map Prod.fst, Path.IsName name := by decide
    exact fun f hf => proper f.1 (List.mem_map_of_mem hf)
  · simp only [sampleEntries, List.forall_mem_cons]
    exact ⟨.special, .locked, .file, inner, .file, nofun⟩

/-- The schema files of the sample.  A hyphen comes before the slash of a path, and a digit behind it. -/
def sampleFiles : List Text := ["d/b-x.cddl", "d/b/z.cddl", "d/b0.cddl"]

theorem schemaFiles_sampleEntries : FileEntry.schemaFiles "d/." sampleEntries = sampleFiles := by
  have inner : List.mergeSort [Text.ofString "d/b/z.cddl"] Text.le = [Text.ofString "d/b/z.cddl"] :=
    List.mergeSort_singleton _
  have found : (FileEntry.schemaFilesIn "d/." sampleEntries).Perm sampleFiles := by
    have unsorted : FileEntry.schemaFilesIn "d/." sampleEntries = [Text.ofString "d/b0.cddl"] ++
        ([Text.ofString "d/b/z.cddl"].mergeSort Text.le ++ [Text.ofString "d/b-x.cddl"]) := rfl
    rw [unsorted, inner]
    decide
  have sorted : sampleFiles.Pairwise fun s t => s.le t = true := by decide
  rw [FileEntry.schemaFiles, Text.mergeSort_eq_of_perm found, List.mergeSort_of_pairwise sorted]

/-- A directory, listed in two ways, and a file that holds no schema. -/
theorem check_listed_sample :
    let paths : List Text := ["d/.", "n"]
    let files : List Text := sampleFiles ++ [Text.ofString "n"]
    let holding (entries : List (Text × FileEntry)) : Files :=
      (FileEntry.directory [("n", .file (sampleSchema.take 3)), ("d", .directory entries)]).files
    let fs := holding sampleEntries
    (∀ path ∈ paths, ∃ e, fs.look path = .ok e ∧ e.WellNamed) ∧
      (∃ listed, List.Forall₂ fs.StandsFor paths listed ∧ listed.flatten = files) ∧
      (∀ json, ChecksAll fs paths files json) ∧
      (∃ file ∈ files, ¬fs.Passes file) ∧
      ∀ failFast json, run (holding sampleEntries.reverse) (.check paths failFast json) =
        run fs (.check paths failFast json) := by
  intro paths files holding fs
  have there : ∀ path ∈ paths, ∃ e, fs.look path = .ok e ∧ e.WellNamed :=
    List.forall_mem_cons.2 ⟨⟨_, rfl, sampleEntries_wellNamed⟩, List.forall_mem_singleton.2 ⟨_, rfl, .file⟩⟩
  have collected : fs.collect paths = .ok files := by
    have expanded : fs.collect paths = .ok (FileEntry.schemaFiles "d/." sampleEntries ++ [Text.ofString "n"]) := rfl
    rw [expanded, schemaFiles_sampleEntries]
  have refused : ¬fs.Passes "d/b0.cddl" := by
    rintro ⟨_, _, h, _⟩
    cases h
  have named : (FileEntry.directory [("n", .file (sampleSchema.take 3)), ("d", .directory sampleEntries)]).WellNamed :=
    .directory (List.forall_mem_cons.2 ⟨by decide, List.forall_mem_singleton.2 (by decide)⟩) (by decide)
      (List.forall_mem_cons.2 ⟨.file, List.forall_mem_singleton.2 sampleEntries_wellNamed⟩)
  have relisted : fs.Relisted (holding sampleEntries.reverse) :=
    FileEntry.Relisted.files (.cons _ (.inside _ (.of_perm (List.reverse_perm _).symm))) named
  obtain ⟨⟨listed, stand, same, checks⟩, alike⟩ := check_listed there
  have flat : listed.flatten = files := Except.ok.inj (same.symm.trans collected)
  rw [flat] at checks
  exact ⟨there, ⟨listed, stand, flat⟩, checks (by decide), ⟨_, by decide, refused⟩, alike _ relisted⟩

end Command
end Cddl
