import Cddl.Command
import Cddl.Proofs.Ancestry.Document
import Mathlib.Data.List.Forall2
/-!
# Three commands on one file

Listing the rules of a schema, checking it and listing its nodes start from the same reading of a file.  So the three
commands succeed together or fail together, count the same rules and report the same faults (`commands_agree`).  Listing
the nodes does the most work, and none of it can fail: the index over any document can be built.
-/
namespace Cddl

open Outcome

/-- A summary says of a diagnostic what its code and message are, and where it is. -/
structure ErrorSummary.Sums (d : Diagnostic) (e : ErrorSummary) : Prop where
  code : e.code = d.code.label
  message : e.message = d.message
  line : e.line = d.location.map Location.line
  column : e.column = d.location.map Location.column

theorem ErrorSummary.forall₂_sums : ∀ ds : List Diagnostic, List.Forall₂ Sums ds (ds.map ofDiagnostic)
  | [] => .nil
  | _ :: ds => .cons ⟨rfl, rfl, rfl, rfl⟩ (forall₂_sums ds)

namespace Command

/-- What a check prints of the outcomes for files. -/
def checkReport (json : Bool) (results : List CheckResult) : Text :=
  if json then unlines [(Datum.array (results.map CheckResult.record)).toJson .indented]
  else unlines (results.flatMap CheckResult.lines)

/-! ## Each command on a file -/

section

variable {fs : Files} {file activity failure : Text} {content : List UInt8} {ds : List Diagnostic} {d : Document}
  {go : Document → Outcome} {failFast json : Bool}

theorem withDocument_of_file (found : fs.look file = .ok (.file content)) :
    withDocument fs file activity failure go =
      match Cddl.parse (Text.ofUtf8 content) with
      | .error ds => faulty activity ds
      | .ok d => go d := by
  have read : fs.read file = .ok content := by rw [Files.read, found]
  unfold withDocument
  split
  · rename_i fails
    rw [read] at fails
    cases fails
  · rename_i reads
    rw [read] at reads
    cases reads
    rfl

/-- To stop at the first failure makes no difference where there is one file. -/
theorem untilFailure_singleton (r : CheckResult) : CheckResult.untilFailure [r] = [r] := by
  rw [CheckResult.untilFailure, CheckResult.untilFailure]
  split <;> rfl

theorem runCheck_of_file (found : fs.look file = .ok (.file content)) :
    runCheck fs [file] failFast json =
      { failed := !(CheckResult.ofContent (Path.shown fs.cwd file) (.ok content)).success
        out := checkReport json [.ofContent (Path.shown fs.cwd file) (.ok content)] } := by
  have collected : fs.collect [file] = .ok [file] := by
    rw [Files.collect, found, Files.collect]
    rfl
  have checked : fs.check file = .ofContent (Path.shown fs.cwd file) (.ok content) := by
    rw [Files.check, Files.read, found]
  have stops (r : CheckResult) : (if failFast then CheckResult.untilFailure [r] else [r]) = [r] := by
    rw [untilFailure_singleton, ite_self]
  simp only [runCheck, collected, List.map_cons, List.map_nil, checked, stops, List.any_cons, List.any_nil,
    Bool.or_false]
  rfl

theorem runParents_of_known (fs : Files) (file : Text) {kind : Option Text} (json : Bool)
    (known : ∀ name ∈ kind, (NodeKind.ofLabel? name).isSome) : ∃ k, runParents fs file kind json =
      withDocument fs file ("Indexing " ++ file ++ "...") "Failed to index"
        (listNodes ("Indexing " ++ file ++ "...") k json) := by
  cases kind with
  | none => exact ⟨none, rfl⟩
  | some name =>
    obtain ⟨k, hk⟩ := Option.isSome_iff_exists.1 (known name rfl)
    refine ⟨some k, ?_⟩
    simp only [runParents, hk]

/-- The nodes of any document can be listed. -/
theorem listNodes_succeeds (activity : Text) (kind : Option NodeKind) (json : Bool) (d : Document) :
    (listNodes activity kind json d).failed = false := by
  obtain ⟨x, made, _⟩ := Ancestry.exists_ofDocument d
  simp only [listNodes, made]
  cases json <;> rfl

end

/-! ## All of them -/

/-- Outcomes of listing the rules of a file, of checking it and of listing its nodes, where the file holds a schema.  A
check shows the file under a path of its own. -/
structure AllRead (file shown : Text) (rules : Nat) (json : Bool) (listing check index : Outcome) : Prop where
  succeeded : listing.failed = false ∧ check.failed = false ∧ index.failed = false
  counted : listing.progress = started ("Parsing " ++ file ++ "...") ++
    Outcome.succeeded ("Parsed " ++ counted rules "rule(s)")
  checked : check.out = checkReport json [⟨shown, true, rules, []⟩]

/-- The same outcomes where the file holds no schema, for the reasons given. -/
structure AllFaulty (file shown : Text) (ds : List Diagnostic) (json : Bool)
    (listing check index : Outcome) : Prop where
  failed : listing.failed = true ∧ check.failed = true ∧ index.failed = true
  counted : listing.progress = started ("Parsing " ++ file ++ "...") ++
    gaveUp ("Parsing failed with " ++ counted ds.length "error(s)")
  countedAlike : index.progress = started ("Indexing " ++ file ++ "...") ++
    gaveUp ("Parsing failed with " ++ Command.counted ds.length "error(s)")
  printed : listing.out = unlines [Diagnostic.renderAll ds]
  printedAlike : index.out = listing.out
  checked : ∃ errors, List.Forall₂ ErrorSummary.Sums ds errors ∧
    check.out = checkReport json [⟨shown, false, 0, errors⟩]

/-- **On a file that can be read the three commands succeed together or fail together**, whatever their options: they
count the same rules in a schema, and report the same faults in the same order where there is none. -/
theorem commands_agree {fs : Files} {file : Text} {content : List UInt8} {kind : Option Text}
    (found : fs.look file = .ok (.file content)) (known : ∀ name ∈ kind, (NodeKind.ofLabel? name).isSome)
    (listJson indented failFast checkJson indexJson : Bool) :
    match Cddl.parse (Text.ofUtf8 content) with
    | .ok d => AllRead file (Path.shown fs.cwd file) d.rules.length checkJson
        (run fs (.parse file none listJson indented)) (run fs (.check [file] failFast checkJson))
        (run fs (.parents file kind indexJson))
    | .error ds => AllFaulty file (Path.shown fs.cwd file) ds checkJson
        (run fs (.parse file none listJson indented)) (run fs (.check [file] failFast checkJson))
        (run fs (.parents file kind indexJson)) := by
  obtain ⟨k, index⟩ := runParents_of_known fs file indexJson known
  simp only [run, runParse, index, withDocument_of_file found, runCheck_of_file found, CheckResult.ofContent]
  cases Cddl.parse (Text.ofUtf8 content) with
  | ok d =>
    refine ⟨⟨?_, rfl, listNodes_succeeds _ _ _ _⟩, ?_, rfl⟩
    · cases listJson <;> rfl
    · cases listJson <;> rfl
  | error ds => exact ⟨⟨rfl, rfl, rfl⟩, rfl, rfl, rfl, rfl, _, ErrorSummary.forall₂_sums ds, rfl⟩

/-- The bytes of `a = int`. -/
def sampleSchema : List UInt8 := [97, 32, 61, 32, 105, 110, 116]

/-- A schema and a part of it that is none, with the rules alone asked for. -/
theorem commands_agree_sample :
    let fs := (FileEntry.directory [("a", .file sampleSchema), ("b", .file (sampleSchema.take 3))]).files
    (∃ d, Cddl.parse (Text.ofUtf8 sampleSchema) = .ok d ∧
      AllRead "a" "a" d.rules.length false (run fs (.parse "a" none false false)) (run fs (.check ["a"] true false))
        (run fs (.parents "a" (some "rule") false))) ∧
    ∃ ds, Cddl.parse (Text.ofUtf8 (sampleSchema.take 3)) = .error ds ∧
      AllFaulty "b" "b" ds true (run fs (.parse "b" none true true)) (run fs (.check ["b"] false true))
        (run fs (.parents "b" (some "rule") true)) := by
  intro fs
  have known : ∀ name ∈ some (Text.ofString "rule"), (NodeKind.ofLabel? name).isSome := by decide
  have schema : Text.ofUtf8 sampleSchema = "a = int" := by decide
  have part : Text.ofUtf8 (sampleSchema.take 3) = "a =" := by decide
  have read : ∃ d, Cddl.parse "a = int" = .ok d := exists_parse_of_within (n := 4) (by decide +kernel)
  have unread : ∀ d, Cddl.parse "a =" ≠ .ok d := not_parse_of_within (n := 4) (by decide +kernel)
  constructor
  · obtain ⟨d, h⟩ := read
    have found : fs.look "a" = .ok (.file sampleSchema) := rfl
    have agree := commands_agree found known false false true false false
    rw [schema, h] at agree
    exact ⟨d, schema ▸ h, agree⟩
  · have found : fs.look "b" = .ok (.file (sampleSchema.take 3)) := rfl
    have agree := commands_agree found known true true false true true
    rw [part] at agree ⊢
    cases h : Cddl.parse "a =" with
    | ok d => exact absurd h (unread d)
    | error ds =>
      rw [h] at agree
      exact ⟨ds, rfl, agree⟩

end Command
end Cddl
