import Cddl.Proofs.Placement.Document
import Cddl.Proofs.Recovery
import Cddl.Proofs.Token.Tiling
/-!
# What is reported on a text

The tokens of a text are taken while its grammar is followed, and faults are met in either.  It makes no difference that
they are met together: what is reported is what would be, had all tokens been taken first (`parse_of_tokenize`).  The
reports come in the order of the text (`reported_of_text`).
-/
namespace Cddl

namespace Feed.MeetsAll

variable {F : Feed} {lo : Nat} {faults : List Fault}

theorem exists_meets (h : F.MeetsAll lo faults) : ∀ fault ∈ faults, ∃ i, lo ≤ i ∧ F.Meets i fault := by
  induction h with
  | nil => exact fun fault hf => absurd hf List.not_mem_nil
  | fatal le met =>
    intro fault hf
    rw [List.mem_singleton.1 hf]
    exact ⟨_, le, met⟩
  | @mild lo i wanted t faults le met _ _ ih =>
    intro fault hf
    rcases List.mem_cons.1 hf with rfl | hf
    · exact ⟨i, le, met⟩
    · obtain ⟨j, more, met⟩ := ih fault hf
      exact ⟨j, by omega, met⟩

/-- All faults but the last are met by the grammar. -/
theorem eq_append (h : F.MeetsAll lo faults) : faults ≠ [] → ∃ (before : List Fault) (last : Fault),
    faults = before ++ [last] ∧ ∀ fault ∈ before, ∃ wanted t, fault = .mismatch wanted t := by
  induction h with
  | nil => exact fun h => absurd rfl h
  | @fatal _ _ fault => exact fun _ => ⟨[], fault, rfl, fun _ h => absurd h List.not_mem_nil⟩
  | @mild lo i wanted t faults _ _ _ _ ih =>
    intro _
    by_cases more : faults = []
    · subst more
      exact ⟨[], .mismatch wanted t, rfl, fun _ h => absurd h List.not_mem_nil⟩
    · obtain ⟨before, last, rfl, mild⟩ := ih more
      exact ⟨.mismatch wanted t :: before, last, rfl, List.forall_mem_cons.2 ⟨⟨wanted, t, rfl⟩, mild⟩⟩

end Feed.MeetsAll

/-! ## Faults in a text -/

namespace Cursor.Run

variable {c : Cursor} {ts : List Token} {stop : Option LexFault} {f : LexFault} {fault : Fault} {faults : List Fault}
  {t : Token} {i j lo : Nat}

theorem bounds_of_meets (h : c.Run ts stop) (met : (Feed.ofCursor c).Meets i fault) :
    c.place.offset ≤ fault.location.offset ∧ fault.location.offset ≤ c.place.offset + c.rest.length := by
  have token {t : Token} (clear : (Feed.ofCursor c).Clear i) (item : (Feed.ofCursor c).item i = .ok t) :
      c.place.offset ≤ t.location.offset ∧ t.location.offset ≤ c.place.offset + c.rest.length := by
    obtain ⟨low, high⟩ := h.bounds.1 t (h.mem_of_item clear item)
    simp only [Token.stop, Location.shift] at high
    omega
  cases met with
  | lexical clear item =>
    obtain ⟨low, high, _⟩ := h.bounds.2 _ (h.fault_of_item clear item)
    exact ⟨low, high⟩
  | mismatch clear item => exact token clear item
  | parenthesis clear item => exact token clear item

/-- Every token but the end of input takes room. -/
theorem offset_lt_stop (item : (Feed.ofCursor c).item i = .ok t) (more : t.is .endOfInput = false) :
    t.location.offset < t.stop.offset := by
  have room := Laid.length_pos (Feed.read_of_item item).1 more
  simp only [Token.stop, Location.shift]
  omega

/-- What is met later stands later in the text. -/
theorem offset_lt_of_meets (h : c.Run ts stop) (less : i < j) (clear : (Feed.ofCursor c).Clear i)
    (item : (Feed.ofCursor c).item i = .ok t) (more : t.is .endOfInput = false)
    (met : (Feed.ofCursor c).Meets j fault) : t.location.offset < fault.location.offset := by
  refine Int.lt_of_lt_of_le (offset_lt_stop item more) ?_
  cases met with
  | lexical clear' item' => exact (h.bounds.2 _ (h.fault_of_item clear' item')).2.2 t (h.mem_of_item clear item)
  | mismatch _ item' => exact Feed.stop_le_of_item less item item'
  | parenthesis _ item' => exact Feed.stop_le_of_item less item item'

theorem pairwise_of_meetsAll (h : c.Run ts stop) (met : (Feed.ofCursor c).MeetsAll lo faults) :
    faults.Pairwise fun (e f : Fault) => e.location.offset < f.location.offset := by
  induction met with
  | nil => exact .nil
  | fatal => exact List.pairwise_singleton _ _
  | @mild lo i wanted t faults _ met last rest ih =>
    refine .cons (fun fault hf => ?_) ih
    have more : t.is .endOfInput = false := by
      refine Bool.eq_false_iff.2 fun ends => ?_
      rw [last ends] at hf
      exact absurd hf List.not_mem_nil
    obtain ⟨j, less, met'⟩ := rest.exists_meets fault hf
    cases met with
    | mismatch clear item => exact h.offset_lt_of_meets less clear item more met'

/-- A fault that ends the reading of a text without tokens is the one that it is read to, or comes before that. -/
theorem fatal_of_meets (h : c.Run ts (some f)) (met : (Feed.ofCursor c).Meets i fault) (fatal : fault.isFatal = true) :
    fault = .lexical f ∨ ∃ l, fault = .parenthesizedBody l ∧ l.offset < f.location.offset := by
  cases met with
  | lexical clear item => exact .inl (congrArg Fault.lexical (Option.some.inj (h.fault_of_item clear item)).symm)
  | mismatch => cases fatal
  | @parenthesis t clear item opening =>
    have behind := (h.bounds.2 f rfl).2.2 t (h.mem_of_item clear item)
    have room := offset_lt_stop item (not_end_of_is opening (by decide))
    exact .inr ⟨t.location, rfl, Int.lt_of_lt_of_le room behind⟩

/-- A stream with a fault does not come to the end of input before. -/
theorem not_ended (h : c.Run ts (some f)) (clear : (Feed.ofCursor c).Clear i)
    (item : (Feed.ofCursor c).item i = .ok t) : t.is .endOfInput = false :=
  (h.length_le (Option.some_ne_none f)).1 t (h.mem_of_item clear item)

end Cursor.Run

/-! ## Reports -/

def Diagnostic.isMismatch (d : Diagnostic) : Bool :=
  match d.family with
  | .mismatch .. => true
  | _ => false

section

variable {read shown : Text} {fault : Fault} {source : Text}

theorem Fault.location_diagnostic : (fault.diagnostic read shown).location = some fault.location := by
  cases fault <;> rfl

theorem Fault.family_diagnostic (h : ∀ f, fault ≠ .lexical f) : (fault.diagnostic read shown).family ≠ .lexical := by
  cases fault with
  | lexical f => exact absurd rfl (h f)
  | mismatch wanted found => exact fun h => by cases h
  | parenthesizedBody place => exact fun h => by cases h

theorem parse_of_faults {faults : List Fault} (h : parseFeed (.ofText source) = .error faults) :
    parse source = .error (faults.map (Fault.diagnostic source source)) :=
  mapError_eq_error_iff.2 ⟨faults, h, rfl⟩

theorem exists_faults {ds : List Diagnostic} (h : parse source = .error ds) : ∃ faults,
    parseFeed (.ofText source) = .error faults ∧ faults.map (Fault.diagnostic source source) = ds :=
  mapError_eq_error_iff.1 h

/-- A stream that is read to a document comes to the end of input. -/
theorem exists_end_of_parseFeed {F : Feed} {d : Document} (hF : F.Ends) (h : parseFeed F = .ok d) :
    ∃ i t, F.Clear i ∧ F.item i = .ok t ∧ t.is .endOfInput = true := by
  obtain ⟨w, v, ts, hw, walk, ends, _, _⟩ := parseFeed_ok hF h
  have there := (Window.on_ofFeed hw).steps walk
  exact ⟨_, v.current, there.clear, (there.item 0).symm, ends⟩

/-- A text without tokens is met with the fault that it is read to, or with a form before it that ends the reading,
after faults of the grammar only. -/
theorem exists_faults_of_run {ts : List Token} {f : LexFault} (run : (Cursor.start source).Run ts (some f)) :
    ∃ (before : List Fault) (last : Fault), parseFeed (.ofText source) = .error (before ++ [last]) ∧
      (∀ fault ∈ before, ∃ wanted t, fault = .mismatch wanted t) ∧
        (last = .lexical f ∨ ∃ l, last = .parenthesizedBody l ∧ l.offset < f.location.offset) := by
  have ends := Feed.ends_ofCursor (.start source)
  cases hp : parseFeed (.ofText source) with
  | ok d =>
    obtain ⟨i, t, clear, item, last⟩ := exists_end_of_parseFeed ends hp
    rw [run.not_ended clear item] at last
    cases last
  | error faults =>
    obtain ⟨hne, met, stopped⟩ := parseFeed_error ends hp
    obtain ⟨before, last, rfl, mild⟩ := met.eq_append hne
    have fatal : last.isFatal = true := by
      rcases stopped with ⟨fault, mem, fatal⟩ | ⟨i, t, clear, item, last⟩
      · rcases List.mem_append.1 mem with mem | mem
        · obtain ⟨wanted, t, rfl⟩ := mild fault mem
          cases fatal
        · rwa [← List.mem_singleton.1 mem]
      · rw [run.not_ended clear item] at last
        cases last
    obtain ⟨i, _, there⟩ := met.exists_meets last (List.mem_append_right _ List.mem_cons_self)
    exact ⟨before, last, rfl, mild, run.fatal_of_meets there fatal⟩

/-- **A text is read as its tokens are, and no fault in it is lost.**  A text that is cut into tokens is read or
reported on as the list of them is, and no report says of a part of it that it is no token.  The reports on any other
text end with the fault that it is read to, or with a form before that which is left out on purpose; none of the others
is on what is no token. -/
theorem parse_of_tokenize (source : Text) :
    match tokenize source with
    | .ok ts => parse source = parseTokens ts source ∧
        ∀ ds, parse source = .error ds → ∀ d ∈ ds, d.family ≠ .lexical
    | .error fault => ∃ ds last, parse source = .error (ds ++ [last]) ∧ (∀ d ∈ ds, d.family ≠ .lexical) ∧
        (last = fault.diagnostic source ∨
          last.family = .unimplemented ∧ ∃ l, last.location = some l ∧ l.offset < fault.location.offset) := by
  obtain ⟨ts, stop, run⟩ := (Cursor.start source).exists_run
  cases stop with
  | none =>
    rw [run.tokenize_ok]
    refine ⟨?_, fun ds hds d hd => ?_⟩
    · rw [parse, Feed.ofText, (run.ofCursor_eq rfl).2]
      rfl
    · obtain ⟨faults, hf, rfl⟩ := exists_faults hds
      obtain ⟨fault, mem, rfl⟩ := List.mem_map.1 hd
      obtain ⟨i, _, met⟩ := (parseFeed_error (Feed.ends_ofCursor _) hf).2.1.exists_meets fault mem
      refine Fault.family_diagnostic fun f hlex => ?_
      subst hlex
      cases met with
      | lexical clear item => cases run.fault_of_item clear item
  | some f =>
    rw [run.tokenize_error]
    obtain ⟨before, last, hp, mild, cause⟩ := exists_faults_of_run run
    refine ⟨before.map (Fault.diagnostic source source), last.diagnostic source source, ?_, fun d hd => ?_, ?_⟩
    · rw [parse_of_faults hp, List.map_append]
      rfl
    · obtain ⟨fault, mem, rfl⟩ := List.mem_map.1 hd
      obtain ⟨wanted, t, rfl⟩ := mild fault mem
      exact Fault.family_diagnostic fun f h => by cases h
    · rcases cause with rfl | ⟨l, rfl, less⟩
      · exact .inl rfl
      · exact .inr ⟨rfl, l, rfl, less⟩

/-- The reports on a text: none, if it can be read. -/
def reports (source : Text) : List Diagnostic :=
  match parse source with
  | .ok _ => []
  | .error ds => ds

/-- What is to be said of the reports on a text. -/
structure Reported (source : Text) (ds : List Diagnostic) : Prop where
  /-- There is a report if and only if the text cannot be read. -/
  failed : ds ≠ [] ↔ ¬ ∃ d, parse source = .ok d
  /-- From all that is reported but the last, the reading has gone on. -/
  mild : ∀ d ∈ ds.dropLast, d.isMismatch = true ∧ d.fatal = false
  last : ∀ d, ds.getLast? = some d → d.isMismatch = true ∨ d.family = .lexical ∨ d.family = .unimplemented
  /-- Every report is on a place in the text, or right behind it. -/
  placed : ∀ d ∈ ds, ∃ l, d.location = some l ∧ 0 ≤ l.offset ∧ l.offset ≤ source.length
  /-- Each report is on a place behind those of the reports before it. -/
  ordered : ds.Pairwise fun d e => ∃ l m, d.location = some l ∧ e.location = some m ∧ l.offset < m.offset

theorem reported_of_faults {faults : List Fault} (h : parseFeed (.ofText source) = .error faults) :
    Reported source (faults.map (Fault.diagnostic source source)) := by
  obtain ⟨ts, stop, run⟩ := (Cursor.start source).exists_run
  obtain ⟨hne, met, _⟩ := parseFeed_error (Feed.ends_ofCursor _) h
  obtain ⟨before, last, rfl, mild⟩ := met.eq_append hne
  have all : (before ++ [last]).map (Fault.diagnostic source source) =
      before.map (Fault.diagnostic source source) ++ [last.diagnostic source source] := List.map_append
  refine ⟨⟨fun _ => ?_, fun _ => ?_⟩, fun d hd => ?_, fun d hd => ?_, fun d hd => ?_, ?_⟩
  · rintro ⟨d, read⟩
    rw [parse_of_faults h] at read
    cases read
  · rw [all]
    exact List.append_ne_nil_of_right_ne_nil _ (List.cons_ne_nil _ _)
  · rw [all, List.dropLast_concat] at hd
    obtain ⟨fault, mem, rfl⟩ := List.mem_map.1 hd
    obtain ⟨wanted, t, rfl⟩ := mild fault mem
    exact ⟨rfl, rfl⟩
  · rw [all, List.getLast?_concat] at hd
    cases hd
    cases last with
    | lexical => exact .inr (.inl rfl)
    | mismatch => exact .inl rfl
    | parenthesizedBody => exact .inr (.inr rfl)
  · obtain ⟨fault, mem, rfl⟩ := List.mem_map.1 hd
    obtain ⟨i, _, there⟩ := met.exists_meets fault mem
    obtain ⟨low, high⟩ := run.bounds_of_meets there
    exact ⟨_, Fault.location_diagnostic, low, by rwa [← Int.zero_add (source.length : Int)]⟩
  · refine List.pairwise_map.2 ((run.pairwise_of_meetsAll met).imp fun less => ?_)
    exact ⟨_, _, Fault.location_diagnostic, Fault.location_diagnostic, less⟩

/-- **The reports on a text come in the order of the text, and only the last can have ended the reading.** -/
theorem reported_of_text (source : Text) : Reported source (reports source) := by
  cases hp : parseFeed (.ofText source) with
  | ok d =>
    have read : parse source = .ok d := parse_eq_ok_iff.2 hp
    have none : reports source = [] := by rw [reports, read]
    rw [none]
    exact ⟨⟨fun h => absurd rfl h, fun h => absurd ⟨d, read⟩ h⟩, fun _ h => absurd h List.not_mem_nil,
      fun _ h => (by cases h), fun _ h => absurd h List.not_mem_nil, .nil⟩
  | error faults =>
    have all : reports source = faults.map (Fault.diagnostic source source) := by rw [reports, parse_of_faults hp]
    rw [all]
    exact reported_of_faults hp

end
end Cddl
