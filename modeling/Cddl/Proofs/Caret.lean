import Cddl.Proofs.Datum.KeyText
import Cddl.Proofs.Report
import Cddl.Proofs.Token.Counters
/-!
# Where a caret points

A report on a text ends with the line of the place that it is about, and with a caret below that.  Lines are told apart
a second time when a report is shown, and the counters of the place have to lead to the same line and into it as far as
the place lies (`reports_point`).
-/
namespace Cddl

/-! ## Lines -/

namespace Text

variable {s t l : Text} {ls : List Text} {u : CodeUnit} {i start : Nat}

theorem lines_feed (r : Text) : lines (CodeUnit.ofChar '\n' :: r) = [] :: lines r := by rw [lines, if_pos rfl]

theorem lines_cons (dark : u ≠ CodeUnit.ofChar '\n') (h : lines s = l :: ls) : lines (u :: s) = (u :: l) :: ls := by
  rw [lines, if_neg dark, h]

theorem exists_lines : ∀ s : Text, ∃ ls, lines s = (s.takeWhile fun u => u ≠ CodeUnit.ofChar '\n') :: ls
  | [] => ⟨[], rfl⟩
  | u :: r => by
    by_cases feed : u = CodeUnit.ofChar '\n'
    · subst feed
      exact ⟨lines r, lines_feed r⟩
    · obtain ⟨ls, h⟩ := exists_lines r
      refine ⟨ls, ?_⟩
      rw [lines_cons feed h, List.takeWhile_cons, if_pos (decide_eq_true feed)]

theorem length_lines : ∀ s : Text, (lines s).length = s.count (CodeUnit.ofChar '\n') + 1
  | [] => rfl
  | u :: r => by
    have ih := length_lines r
    by_cases feed : u = CodeUnit.ofChar '\n'
    · subst feed
      rw [lines_feed, List.length_cons, ih, List.count_cons_self]
    · obtain ⟨ls, h⟩ := exists_lines r
      rw [lines_cons feed h, List.count_cons_of_ne feed, ← ih, h]
      rfl

theorem lines_append_feed : ∀ s t : Text, lines (s ++ CodeUnit.ofChar '\n' :: t) = lines s ++ lines t
  | [], t => lines_feed t
  | u :: r, t => by
    have ih := lines_append_feed r t
    by_cases feed : u = CodeUnit.ofChar '\n'
    · subst feed
      rw [List.cons_append, lines_feed, lines_feed, ih]
      rfl
    · obtain ⟨ls, h⟩ := exists_lines r
      rw [h] at ih
      rw [List.cons_append, lines_cons feed ih, lines_cons feed h]
      rfl

theorem lines_join : ∀ {ps : List Text}, ps ≠ [] → lines (join "\n" ps) = ps.flatMap lines
  | [p], _ => by rw [join_singleton, List.flatMap_singleton]
  | p :: q :: ps, _ => by
    have feed (t : Text) : Text.ofString "\n" ++ t = CodeUnit.ofChar '\n' :: t := rfl
    rw [join_cons_cons, feed, lines_append_feed, lines_join (List.cons_ne_nil q ps), List.flatMap_cons (x := p)]

/-- A text without line feeds is a line. -/
theorem lines_unbroken (h : CodeUnit.ofChar '\n' ∉ s) : lines s = [s] := by
  obtain ⟨ls, hs⟩ := exists_lines s
  have one := length_lines s
  rw [List.count_eq_zero.2 h, hs] at one
  have dark : ∀ u ∈ s, decide (u ≠ CodeUnit.ofChar '\n') = true := fun u hu => decide_eq_true fun feed => h (feed ▸ hu)
  have all : (s ++ []).takeWhile (fun u => u ≠ CodeUnit.ofChar '\n') = s ++ [] := List.takeWhile_append_of_pos dark
  rw [List.append_nil] at all
  rw [hs, all, List.length_eq_zero_iff.1 (Nat.succ.inj one)]

/-- What is left of a line from an offset on. -/
def lineFrom (s : Text) (i : Nat) : Text := (s.drop i).takeWhile fun u => u ≠ CodeUnit.ofChar '\n'

theorem not_mem_lineFrom : CodeUnit.ofChar '\n' ∉ s.lineFrom i := fun h => by
  have dark := List.all_eq_true.1 List.all_takeWhile _ h
  exact of_decide_eq_true dark rfl

end Text

namespace LineStart

variable {source : Text} {offset start : Nat}

/-- There is no line feed between the start of a line and an offset in it. -/
theorem not_mem_between (h : LineStart source offset start) :
    CodeUnit.ofChar '\n' ∉ (source.drop start).take (offset - start) := by
  intro mem
  obtain ⟨i, hi⟩ := List.mem_iff_getElem?.1 mem
  have less : i < offset - start := by
    by_contra more
    rw [List.getElem?_take, if_neg more] at hi
    cases hi
  rw [List.getElem?_take, if_pos less, List.getElem?_drop] at hi
  exact h.unbroken (start + i) (Nat.le_add_right ..) (by omega) hi

theorem take_eq (h : LineStart source offset start) :
    source.take offset = source.take start ++ (source.drop start).take (offset - start) := by
  rw [← List.take_add, Nat.add_sub_cancel' h.le]

theorem count_take (h : LineStart source offset start) :
    (source.take offset).count (CodeUnit.ofChar '\n') = (source.take start).count (CodeUnit.ofChar '\n') := by
  rw [h.take_eq, List.count_append, List.count_eq_zero.2 h.not_mem_between, Nat.add_zero]

/-- As many lines come before the line of an offset as there are line feeds. -/
theorem getElem?_lines (h : LineStart source offset start) :
    source.lines[(source.take offset).count (CodeUnit.ofChar '\n')]? = some (source.lineFrom start) := by
  rw [h.count_take]
  rcases Nat.eq_zero_or_pos start with rfl | positive
  · obtain ⟨ls, hs⟩ := Text.exists_lines source
    rw [hs]
    rfl
  · have feed : source[start - 1]? = some (CodeUnit.ofChar '\n') := h.behind.resolve_left (Nat.ne_of_gt positive)
    have front : source.take start = source.take (start - 1) ++ [CodeUnit.ofChar '\n'] := by
      obtain ⟨n, rfl⟩ := Nat.exists_eq_add_of_le' positive
      rw [List.take_add_one]
      exact congrArg _ (congrArg Option.toList feed)
    have whole : source.lines = Text.lines (source.take (start - 1)) ++ Text.lines (source.drop start) := by
      rw [← Text.lines_append_feed, ← List.singleton_append, ← List.append_assoc, ← front, List.take_append_drop]
    obtain ⟨ls, hs⟩ := Text.exists_lines (source.drop start)
    rw [front, List.count_append, List.count_singleton_self, ← Text.length_lines, whole,
      List.getElem?_append_right (Nat.le_refl _), Nat.sub_self, hs]
    rfl

/-- What a line is from an offset on, if so much of it is left out as lies before the offset. -/
theorem drop_lineFrom (h : LineStart source offset start) (inside : offset ≤ source.length) :
    (source.lineFrom start).drop (offset - start) = source.lineFrom offset := by
  have dark : ∀ u ∈ (source.drop start).take (offset - start), decide (u ≠ CodeUnit.ofChar '\n') = true := fun u hu =>
    decide_eq_true fun feed => h.not_mem_between (feed ▸ hu)
  have length : ((source.drop start).take (offset - start)).length = offset - start := by
    have := h.le
    rw [List.length_take, List.length_drop]
    omega
  have rest : (source.drop start).drop (offset - start) = source.drop offset := by
    rw [List.drop_drop, Nat.add_sub_cancel' h.le]
  have line : source.lineFrom start = (source.drop start).take (offset - start) ++ source.lineFrom offset := by
    rw [Text.lineFrom, Text.lineFrom, ← rest, ← List.takeWhile_append_of_pos dark, List.take_append_drop]
  rw [line, List.drop_left' length]

end LineStart

/-! ## Places of faults -/

namespace Feed

variable {source : Text} {c : Cursor} {i : Nat} {fault : Fault}

/-- Where a token or a fault stands. -/
def place : Except LexFault Token → Location
  | .ok t => t.location
  | .error f => f.location

theorem counted_next (tracks : c.Tracks source) : (place c.next.1).Counted source := by
  have here := (tracks.skip (n := Cursor.triviaLength false c.rest)).readHere.2
  unfold Cursor.next Cursor.skipTrivia
  cases read : (c.skip (Cursor.triviaLength false c.rest)).readHere.1 with
  | ok t => rwa [read] at here
  | error f => rwa [read] at here

/-- The counters of whatever is read from a text agree. -/
theorem counted_of_item (tracks : c.Tracks source) : ∀ n, (place ((ofCursor c).item n)).Counted source := by
  have first := counted_next tracks
  fun_induction ofCursor c with
  | case1 c t h ends =>
    intro n
    rwa [item_constant, ← h]
  | case2 c t h ends _ ih =>
    intro n
    cases n with
    | zero => rwa [h] at first
    | succ n =>
      rw [item_prepend_succ]
      exact ih tracks.next (counted_next tracks.next) n
  | case3 c f h moved ih =>
    intro n
    cases n with
    | zero => rwa [h] at first
    | succ n =>
      rw [item_prepend_succ]
      exact ih tracks.next (counted_next tracks.next) n
  | case4 c f h stuck =>
    intro n
    rwa [item_constant, ← h]

/-- So do those of every fault that is met, be it the lexer's or the grammar's. -/
theorem counted_of_meets (met : (ofText source).Meets i fault) : fault.location.Counted source := by
  have counted : (place ((ofText source).item i)).Counted source := counted_of_item (Cursor.tracks_start source) i
  cases met with
  | lexical clear item => rwa [item] at counted
  | mismatch clear item => rwa [item] at counted
  | parenthesis clear item => rwa [item] at counted

end Feed

/-! ## Reports -/

namespace Diagnostic

variable {source : Text} {d : Diagnostic} {l : Location} {start : Nat}

/-- A line of a source behind its number. -/
def numbered (n : Int) (line : Text) : Text := "  " ++ Text.ofInt n ++ " | " ++ line

/-- A caret at an index, and nothing but spaces before it. -/
def caretAt (k : Nat) : Text := Text.spaces k ++ "^"

/-- A report on a place in a source ends with two lines: the line of the place behind its number, and a caret.  What the
first of them holds from the caret's index on is what the line holds from the place on. -/
structure Points (source : Text) (d : Diagnostic) (l : Location) : Prop where
  location : d.location = some l
  counted : l.Counted source
  inside : l.offset ≤ source.length
  shown : ∃ before start k, LineStart source l.offset.toNat start ∧
    d.render.lines = before ++ [numbered l.line (source.lineFrom start), caretAt k] ∧
    (numbered l.line (source.lineFrom start)).drop k = source.lineFrom l.offset.toNat

theorem excerptLines_of_counted (shows : d.source = some source) (nonempty : source ≠ []) (place : d.location = some l)
    (counted : l.Counted source) (begins : LineStart source l.offset.toNat start) :
    d.excerptLines = excerpt (source.lineFrom start) l := by
  have number := counted.line
  have first : 1 ≤ l.line := by omega
  have index : (l.line - 1).toNat = (source.take l.offset.toNat).count (CodeUnit.ofChar '\n') := by omega
  have line : sourceLine? source l = some (source.lineFrom start) := by
    rw [sourceLine?, if_pos first, index, begins.getElem?_lines]
  simp only [excerptLines, shows, place, if_neg nonempty, line]

/-- The caret's index is the width of what stands before the line, and the column. -/
theorem excerpt_eq (line : Text) (l : Location) : excerpt line l =
    [[], numbered l.line line, caretAt ((Text.ofInt l.line).length + 5 + (l.column - 1).toNat)] := by
  have two : Text.ofString "  " = Text.spaces 2 := by decide
  have width : 2 + ((Text.ofInt l.line).length + 3 + (l.column - 1).toNat) =
    (Text.ofInt l.line).length + 5 + (l.column - 1).toNat := by omega
  simp only [excerpt, caretAt, numbered, two, Text.spaces, ← List.append_assoc, List.replicate_append_replicate, width]

theorem not_mem_numbered {line : Text} (unbroken : CodeUnit.ofChar '\n' ∉ line) (n : Int) :
    CodeUnit.ofChar '\n' ∉ numbered n line := by
  have number : CodeUnit.ofChar '\n' ∉ Text.ofInt n := fun h =>
    absurd (List.all_eq_true.1 (Binary64.all_ofInt n) _ h) (by decide)
  have margin : CodeUnit.ofChar '\n' ∉ Text.ofString "  " := by decide
  have bar : CodeUnit.ofChar '\n' ∉ Text.ofString " | " := by decide
  simp only [numbered, List.mem_append, number, margin, bar, unbroken, or_self, not_false_eq_true]

theorem not_mem_caretAt (k : Nat) : CodeUnit.ofChar '\n' ∉ caretAt k := by
  have spaces : CodeUnit.ofChar '\n' ∉ Text.spaces k := fun h => absurd (List.eq_of_mem_replicate h) (by decide)
  have caret : CodeUnit.ofChar '\n' ∉ Text.ofString "^" := by decide
  simp only [caretAt, List.mem_append, spaces, caret, or_self, not_false_eq_true]

theorem drop_numbered (n : Int) (line : Text) (k : Nat) :
    (numbered n line).drop ((Text.ofInt n).length + 5 + k) = line.drop k := by
  have width : (Text.ofInt n).length + 5 + k = ("  " ++ Text.ofInt n ++ " | " : Text).length + k := by
    have margin : (Text.ofString "  ").length = 2 := by decide
    have bar : (Text.ofString " | ").length = 3 := by decide
    rw [List.length_append, List.length_append, margin, bar]
    omega
  rw [width, numbered, List.drop_length_add_append]

theorem points_of_counted (shows : d.source = some source) (nonempty : source ≠ []) (place : d.location = some l)
    (counted : l.Counted source) (inside : l.offset ≤ source.length) : Points source d l := by
  obtain ⟨start, begins, column⟩ := counted.column
  have number := not_mem_numbered (Text.not_mem_lineFrom (s := source) (i := start)) l.line
  refine ⟨place, counted, inside, d.heading.lines ++ Text.lines ("  " ++ d.message) ++ [[]], start,
    (Text.ofInt l.line).length + 5 + (l.column - 1).toNat, begins, ?_, ?_⟩
  · rw [render, excerptLines_of_counted shows nonempty place counted begins, excerpt_eq,
      List.cons_append, Text.lines_join (List.cons_ne_nil _ _)]
    simp only [List.cons_append, List.nil_append, List.flatMap_cons, List.flatMap_nil, List.append_nil,
      Text.lines_unbroken number, Text.lines_unbroken (not_mem_caretAt _), Text.lines_unbroken List.not_mem_nil,
      List.append_assoc]
  · have rest : (l.column - 1).toNat = l.offset.toNat - start := by
      have := counted.offset
      omega
    have upTo : l.offset.toNat ≤ source.length := by omega
    rw [drop_numbered, rest, begins.drop_lineFrom upTo]

end Diagnostic

/-- There are no reports on the empty text. -/
theorem reports_nil : reports [] = [] := by
  obtain ⟨d, h⟩ : ∃ d, parse [] = .ok d := exists_parse_of_within (n := 1) (by decide +kernel)
  rw [reports, h]

/-- **Every report on a text ends with the line that it is about and a caret, and the caret points at the place that is
reported.** -/
theorem reports_point (source : Text) : ∀ d ∈ reports source, ∃ l, d.Points source l := by
  intro d hd
  cases hp : parseFeed (.ofText source) with
  | ok d =>
    rw [reports, parse_eq_ok_iff.2 hp] at hd
    cases hd
  | error faults =>
    have nonempty : source ≠ [] := by
      rintro rfl
      rw [reports_nil] at hd
      cases hd
    rw [reports, parse_of_faults hp] at hd
    obtain ⟨l, place, _, inside⟩ := (reported_of_faults hp).placed d hd
    obtain ⟨fault, mem, rfl⟩ := List.mem_map.1 hd
    obtain ⟨i, _, met⟩ := (parseFeed_error (Feed.ends_ofCursor _) hp).2.1.exists_meets fault mem
    have counted := Feed.counted_of_meets met
    have shows : (fault.diagnostic source source).source = some source := by cases fault <;> rfl
    obtain rfl : fault.location = l := Option.some.inj (Fault.location_diagnostic.symm.trans place)
    exact ⟨_, Diagnostic.points_of_counted shows nonempty place counted inside⟩

/-- The end of a text behind its last line feed. -/
theorem reports_point_sample : ∃ d ∈ reports "a = 1\nb =\n", ∃ l, d.Points "a = 1\nb =\n" l := by
  have unread : ∀ d, parse "a = 1\nb =\n" ≠ .ok d := not_parse_of_within (n := 8) (by decide +kernel)
  cases hp : parseFeed (.ofText "a = 1\nb =\n") with
  | ok d => exact absurd (parse_eq_ok_iff.2 hp) (unread d)
  | error faults =>
    obtain ⟨d, hd⟩ := List.exists_mem_of_ne_nil _ ((reported_of_faults hp).failed.2 fun ⟨d, read⟩ => unread d read)
    have mem : d ∈ reports "a = 1\nb =\n" := by rwa [reports, parse_of_faults hp]
    exact ⟨d, mem, reports_point _ d mem⟩

end Cddl
