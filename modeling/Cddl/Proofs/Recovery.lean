import Cddl.Proofs.Phrase.Rule
import Cddl.Proofs.Reading.Outcome
/-!
# Reading on behind a fault

A document that cannot be read is met with faults in the order of its tokens: each rule that fails does so at a token
behind those at which others have failed, and so does the search for the next rule (`parseFeed_error`).
-/
namespace Cddl

open Production Reader

/-! ## Faults and where they are met -/

namespace Feed

/-- A fault with the item at an index, which nothing unreadable comes before. -/
inductive Meets (F : Feed) : Nat → Fault → Prop
  | lexical {i : Nat} {f : LexFault} (clear : F.Clear i) (item : F.item i = .error f) : Meets F i (.lexical f)
  | mismatch {i : Nat} {wanted : Expectation} {t : Token} (clear : F.Clear i) (item : F.item i = .ok t) :
      Meets F i (.mismatch wanted t)
  | parenthesis {i : Nat} {t : Token} (clear : F.Clear i) (item : F.item i = .ok t) (opening : t.is .leftParen = true) :
      Meets F i (.parenthesizedBody t.location)

/-- Faults with later and later items, the first of them at an index at the earliest.  None comes after one that ends
the reading, or after one with the end of input. -/
inductive MeetsAll (F : Feed) : Nat → List Fault → Prop
  | nil {lo : Nat} : MeetsAll F lo []
  | fatal {lo i : Nat} {fault : Fault} (le : lo ≤ i) (met : F.Meets i fault) (fatal : fault.isFatal = true) :
      MeetsAll F lo [fault]
  | mild {lo i : Nat} {wanted : Expectation} {t : Token} {faults : List Fault} (le : lo ≤ i)
      (met : F.Meets i (.mismatch wanted t)) (last : t.is .endOfInput = true → faults = [])
      (rest : MeetsAll F (i + 1) faults) : MeetsAll F lo (.mismatch wanted t :: faults)

end Feed

namespace Window

variable {w u v : Window} {F : Feed} {i lo lo' : Nat} {t : Token} {ts : List Token} {f : LexFault} {fault : Fault}

/-- A window that a walk from the start of a stream has led to, at an index. -/
structure On (w : Window) (F : Feed) (i : Nat) : Prop where
  item : ∀ n, w.item n = F.item (i + n)
  clear : F.Clear i

theorem advance_eq_error (h : w.advance = (.error f, v)) : w.feed.item 0 = .error f := by
  have first := w.feed.pull_fst
  unfold advance at h
  split at h <;> rename_i heq <;> cases h
  rw [← first, heq]

namespace On

theorem advance (on : w.On F i) (h : w.advance = (.ok t, v)) : v.On F (i + 1) where
  item n := by rw [item_of_advance h, on.item, Nat.add_comm n 1, ← Nat.add_assoc]
  clear j hj := by
    by_cases here : j = i
    · subst here
      exact ⟨w.current, (on.item 0).symm⟩
    · exact on.clear j (by omega)

theorem steps (on : w.On F i) (h : w.Steps ts v) : v.On F (i + ts.length) := by
  induction h generalizing i with
  | nil => exact on
  | @cons w u v ts move _ ih =>
    rw [List.length_cons, ← Nat.add_assoc, Nat.add_right_comm]
    exact ih (on.advance move)

theorem mismatch (on : w.On F i) (wanted : Expectation) : F.Meets i (.mismatch wanted w.current) :=
  .mismatch on.clear (on.item 0).symm

/-- A move fails at the second item after the current one. -/
theorem stuck (on : w.On F i) (h : w.advance = (.error f, v)) : F.Meets (i + 2) (.lexical f) := by
  refine .lexical (fun j hj => ?_) ?_
  · by_cases here : j = i
    · exact ⟨w.current, here ▸ (on.item 0).symm⟩
    by_cases next : j = i + 1
    · exact ⟨w.upcoming, next ▸ (on.item 1).symm⟩
    · exact on.clear j (by omega)
  · rw [← on.item 2]
    exact advance_eq_error h

end On

/-- A reading has failed, with an item at an index at the earliest.  If it did not fail for good, the window that is
left shows the item. -/
inductive Stops (w : Window) (F : Feed) (lo : Nat) : Fault → Window → Prop
  | mild {wanted : Expectation} {i : Nat} {ts : List Token} {v : Window} (le : lo ≤ i) (walk : w.Steps ts v)
      (on : v.On F i) : Stops w F lo (.mismatch wanted v.current) v
  | fatal {fault : Fault} {i : Nat} {v : Window} (le : lo ≤ i) (met : F.Meets i fault) (fatal : fault.isFatal = true) :
      Stops w F lo fault v

namespace Stops

theorem after (walk : w.Steps ts u) (h : u.Stops F lo fault v) : w.Stops F lo fault v := by
  cases h with
  | mild le more on => exact .mild le (walk.trans more) on
  | fatal le met fatal => exact .fatal le met fatal

theorem mono (h : w.Stops F lo fault v) (le : lo' ≤ lo) : w.Stops F lo' fault v := by
  cases h with
  | mild le' walk on => exact .mild (Nat.le_trans le le') walk on
  | fatal le' met fatal => exact .fatal (Nat.le_trans le le') met fatal

end Stops

theorem On.stops {α : Type} {x : Except Fault α × Window} (on : w.On F i) (h : w.Reaches x) (hx : x.1 = .error fault) :
    w.Stops F i fault x.2 := by
  cases h with
  | result => cases hx
  | mismatch walk =>
    cases hx
    exact .mild (Nat.le_add_right _ _) walk (on.steps walk)
  | parenthesis walk opening =>
    cases hx
    have there := on.steps walk
    exact .fatal (Nat.le_add_right _ _) (.parenthesis there.clear (there.item 0).symm opening) rfl
  | @lexical _ ts _ _ walk stuck =>
    cases hx
    have le : i ≤ i + ts.length + 2 := by omega
    exact .fatal le ((on.steps walk).stuck stuck) rfl

/-! ## One rule -/

/-- Where a rule fails; behind its name, if that is the item before the index. -/
theorem On.stops_rule (on : w.On F i) (start : lo ≤ i ∨ lo = i + 1 ∧ w.current.is .name = true)
    (h : (closed rule).run.run w = (.error fault, v)) : w.Stops F lo fault v := by
  have walks := walks_nested w.size
  rw [run_closed] at h
  rcases start with le | ⟨rfl, name⟩
  · have stops := on.stops (walks_rule walks w) (congrArg Prod.fst h)
    rw [h] at stops
    exact stops.mono le
  · rcases rule_of_name walks name with ⟨u, move, reaches⟩ | ⟨f, u, stuck, thrown⟩
    · have stops := (on.advance move).stops reaches (congrArg Prod.fst h)
      rw [h] at stops
      exact stops.after (.one move)
    · rw [thrown] at h
      cases h
      exact .fatal (Nat.le_succ _) (on.stuck stuck) rfl

/-! ## The way to the next rule -/

/-- How the search for the next rule comes out: at the end of input or a name past the given offset, or at a token that
cannot be read. -/
inductive Resumes (w : Window) (failedAt : Int) : Except Fault Unit × Window → Prop
  | found {ts : List Token} {v : Window} (walk : w.Steps ts v)
      (there : v.current.is .endOfInput = true ∨ v.current.is .name = true ∧ failedAt < v.current.location.offset) :
      Resumes w failedAt (.ok (), v)
  | lexical {f : LexFault} {ts : List Token} {u v : Window} (walk : w.Steps ts u) (stuck : u.advance = (.error f, v)) :
      Resumes w failedAt (.error (.lexical f), v)

theorem Resumes.after {failedAt : Int} {x : Except Fault Unit × Window} (walk : w.Steps ts u)
    (h : u.Resumes failedAt x) : w.Resumes failedAt x := by
  cases h with
  | found more there => exact .found (walk.trans more) there
  | lexical more stuck => exact .lexical (walk.trans more) stuck

theorem run_resynchronize {failedAt : Int} {n : Nat} (w : Window) : (resynchronize failedAt (n + 1)).run.run w =
    if w.current.is .endOfInput || (startsRule w.current w.upcoming && failedAt < w.current.location.offset) then
      (.ok (), w)
    else
      ExceptT.bindCont (fun _ => resynchronize failedAt n)
        (Reader.advance.run.run w).1 (Reader.advance.run.run w).2 := by
  have step : (resynchronize failedAt (n + 1)).run.run w =
      (if w.current.is .endOfInput || (startsRule w.current w.upcoming && failedAt < w.current.location.offset) then
        return () else (do let _ ← Reader.advance; resynchronize failedAt n) : Reader Unit).run.run w := rfl
  rw [step]
  split <;> rfl

theorem run_resynchronize_end {failedAt : Int} (ends : w.current.is .endOfInput = true) :
    ∀ n, (resynchronize failedAt n).run.run w = (.ok (), w)
  | 0 => rfl
  | n + 1 => by rw [run_resynchronize, ends, Bool.true_or, if_pos rfl]

/-- The search comes to its end, if it may move on by as many tokens as there are. -/
theorem resumes_resynchronize {failedAt : Int} : ∀ {n : Nat} {w : Window}, w.Ends → w.size ≤ n →
    w.Resumes failedAt ((resynchronize failedAt n).run.run w)
  | 0, w, _, hn => .found .nil (.inl (current_of_size (Nat.le_zero.1 hn)))
  | n + 1, w, hw, hn => by
    rw [run_resynchronize, run_advance]
    split
    · rename_i found
      simp only [startsRule, Bool.or_eq_true, Bool.and_eq_true, decide_eq_true_eq, and_assoc] at found
      exact .found .nil (found.imp_right fun h => ⟨h.1, h.2.2⟩)
    · rename_i on
      have more : w.current.is .endOfInput = false := by
        rw [Bool.or_eq_true, not_or] at on
        exact Bool.eq_false_iff.2 on.1
      cases move : w.advance with
      | mk result v =>
        cases result with
        | ok t =>
          have less := size_of_advance hw move more
          exact (resumes_resynchronize (hw.advance move) (by omega)).after (.one move)
        | error f => exact .lexical .nil move

/-- Behind a rule that has failed there is less to be consumed than there was at its start. -/
theorem size_lt_of_resumed (hw : w.Ends) (more : w.current.is .endOfInput = false) (walk : w.Steps ts v)
    (there : v.current.is .endOfInput = true ∨ v.current.is .name = true ∧
      w.current.location.offset < v.current.location.offset) : v.size < w.size := by
  refine walk.size_lt hw ?_ more
  rintro rfl
  cases walk
  rcases there with ends | ⟨_, past⟩
  · rw [more] at ends
    cases ends
  · exact Int.lt_irrefl _ past

end Window

/-! ## All rules -/

namespace Session

variable {F : Feed} {s t : Session} {lo i : Nat}

/-- What becomes of a session that reads on: the faults that it collects, and one that ends it or the end of input. -/
inductive Adds (s : Session) (F : Feed) (lo : Nat) : Except Fault (List Rule) × Session → Prop
  | finished {rules : List Rule} {t : Session} {faults : List Fault} {i : Nat}
      (kept : t.collected = s.collected ++ faults) (met : F.MeetsAll lo faults) (on : t.window.On F i)
      (ends : t.window.current.is .endOfInput = true) : Adds s F lo (.ok rules, t)
  | failed {fault : Fault} {t : Session} {faults : List Fault} (kept : t.collected = s.collected ++ faults)
      (met : F.MeetsAll lo (faults ++ [fault])) (fatal : fault.isFatal = true) : Adds s F lo (.error fault, t)

theorem Adds.map {x : Except Fault (List Rule) × Session} {f : List Rule → List Rule} (h : s.Adds F lo x) :
    s.Adds F lo (x.1.map f, x.2) := by
  cases h with
  | finished kept met on ends => exact .finished kept met on ends
  | failed kept met fatal => exact .failed kept met fatal

/-- A session may start over with any window, if it keeps what it has collected. -/
theorem Adds.of_collected {x : Except Fault (List Rule) × Session} (h : t.Adds F lo x)
    (same : t.collected = s.collected) : s.Adds F lo x := by
  cases h with
  | finished kept met on ends => exact .finished (same ▸ kept) met on ends
  | failed kept met fatal => exact .failed (same ▸ kept) met fatal

theorem Adds.mild {x : Except Fault (List Rule) × Session} {wanted : Expectation} {found : Token}
    (collected : t.collected = s.collected ++ [.mismatch wanted found]) (le : lo ≤ i)
    (met : F.Meets i (.mismatch wanted found)) (more : found.is .endOfInput = false) (h : t.Adds F (i + 1) x) :
    s.Adds F lo x := by
  have last {faults : List Fault} : found.is .endOfInput = true → faults = [] := fun ends => by
    rw [more] at ends
    cases ends
  cases h with
  | finished kept rest on ends =>
    rw [collected, List.append_assoc] at kept
    exact .finished kept (.mild le met last rest) on ends
  | failed kept rest fatal =>
    rw [collected, List.append_assoc] at kept
    exact .failed kept (.mild le met last rest) fatal

theorem rules_end (ends : s.window.current.is .endOfInput = true) : ∀ n, rules n s = (.ok [], s)
  | 0 => rfl
  | n + 1 => by rw [rules, if_pos ends]

/-- Behind a rule that has failed: the fault comes before those of the search for the next rule and of the rules
there. -/
theorem adds_resumed {n : Nat} {v : Window} {wanted : Expectation} {failedAt : Int} {x : Except Fault Unit × Window}
    (le : lo ≤ i) (on : v.On F i) (more : v.current.is .endOfInput = false) (resumes : v.Resumes failedAt x)
    (next : ∀ us u, v.Steps us u →
      u.current.is .endOfInput = true ∨ u.current.is .name = true ∧ failedAt < u.current.location.offset →
        Adds ⟨u, s.collected ++ [.mismatch wanted v.current]⟩ F (i + 1)
          (rules n ⟨u, s.collected ++ [.mismatch wanted v.current]⟩)) :
    s.Adds F lo (match (x.1, Session.mk x.2 (s.collected ++ [.mismatch wanted v.current])) with
      | (.ok (), t) => rules n t
      | (.error fault, t) => (.error fault, t)) := by
  cases resumes with
  | @lexical f us u x walk stuck =>
    have beyond : i + 1 ≤ i + us.length + 2 := by omega
    have fatal : F.MeetsAll (i + 1) [.lexical f] := .fatal beyond ((on.steps walk).stuck stuck) rfl
    have failed : Adds ⟨x, s.collected ++ [.mismatch wanted v.current]⟩ F (i + 1)
        (.error (.lexical f), ⟨x, s.collected ++ [.mismatch wanted v.current]⟩) :=
      .failed (List.append_nil _).symm fatal rfl
    exact .mild rfl le (on.mismatch wanted) more failed
  | found walk found => exact .mild rfl le (on.mismatch wanted) more (next _ _ walk found)

/-- **A session meets later and later faults until it is at its end.**  If a fault has been met with the item that its
window shows, the item is the end of input or the name of the next rule. -/
theorem adds_rules : ∀ (n : Nat) (s : Session) (lo i : Nat), s.window.On F i → s.window.Ends → s.window.size ≤ n →
    lo ≤ i ∨ lo = i + 1 ∧ (s.window.current.is .endOfInput = true ∨ s.window.current.is .name = true) →
      s.Adds F lo (rules n s)
  | 0, s, lo, i, on, _, hsize, _ =>
    .finished (List.append_nil _).symm .nil on (Window.current_of_size (Nat.le_zero.1 hsize))
  | n + 1, s, lo, i, on, hw, hsize, start => by
    unfold rules
    split
    case isTrue ends => exact .finished (List.append_nil _).symm .nil on ends
    case isFalse notEnd =>
      have more : s.window.current.is .endOfInput = false := Bool.eq_false_iff.2 notEnd
      have start : lo ≤ i ∨ lo = i + 1 ∧ s.window.current.is .name = true :=
        start.imp_right fun h => ⟨h.1, h.2.resolve_left notEnd⟩
      simp only [read_eq]
      generalize hr : (closed rule).run.run s.window = result
      obtain ⟨fault | r, v⟩ := result
      · have stops := on.stops_rule start hr
        simp only []
        cases stops with
        | fatal le met fatal =>
          rw [if_pos fatal]
          exact .failed (List.append_nil _).symm (.fatal le met fatal) fatal
        | @mild wanted j ts _ le walk there =>
          rw [if_neg (show ¬ (Fault.mismatch wanted v.current).isFatal = true from Bool.false_ne_true)]
          simp only [recover, read_eq]
          have met := there.mismatch wanted
          have hv := walk.ends hw
          have resumes : v.Resumes s.window.current.location.offset
              ((resynchronize s.window.current.location.offset v.size).run.run v) :=
            Window.resumes_resynchronize hv (Nat.le_refl _)
          by_cases ends : v.current.is .endOfInput = true
          · -- nothing is left to search, so no fault comes after one with the end of input
            rw [Window.run_resynchronize_end ends]
            simp only []
            rw [rules_end ends]
            exact .finished rfl (.mild le met (fun _ => rfl) .nil) there ends
          · -- the search may stop where it began: at a name, which the next rule takes before it can fail
            refine adds_resumed le there (Bool.eq_false_iff.2 ends) resumes fun us u walk' found => ?_
            have less := Window.size_lt_of_resumed hw more (walk.trans walk') found
            have start' : j + 1 ≤ j + us.length ∨ j + 1 = j + us.length + 1 ∧
                (u.current.is .endOfInput = true ∨ u.current.is .name = true) := by
              cases us with
              | nil => exact .inr ⟨rfl, found.imp_right And.left⟩
              | cons => exact .inl (by rw [List.length_cons]; omega)
            exact adds_rules n ⟨u, s.collected ++ [.mismatch wanted v.current]⟩ (j + 1) _ (there.steps walk')
              (walk'.ends hv) (show u.size ≤ n by omega) start'
      · obtain ⟨ts, walk, hne, spelled⟩ := reads_closed_rule hw hr
        have unended := (spelled _ (List.cons_ne_nil _ _) v.shows_pair).unended
        have less := walk.size hw unended
        have taken := List.length_pos_iff.2 hne
        have behind : lo ≤ i + ts.length := by omega
        have rest := adds_rules n { s with window := v } lo _ (on.steps walk) (walk.ends hw)
          (show v.size ≤ n by omega) (.inl behind)
        simp only []
        have all : s.Adds F lo (rules n { s with window := v }) := rest.of_collected rfl
        exact all.map

end Session

/-! ## Documents -/

variable {F : Feed}

/-- The window on the first two tokens of a stream is missing only if one of them is. -/
theorem Window.ofFeed_error {f : LexFault} (h : Window.ofFeed F = .error f) : ∃ i, F.Meets i (.lexical f) := by
  unfold Window.ofFeed at h
  simp only [bind, Except.bind] at h
  split at h
  case h_1 fault first =>
    cases h
    rw [Feed.pull_fst] at first
    exact ⟨0, .lexical (fun _ h => absurd h (Nat.not_lt_zero _)) first⟩
  case h_2 current hcurrent =>
    rw [Feed.pull_fst] at hcurrent
    split at h
    case h_1 fault second =>
      cases h
      rw [Feed.pull_fst, Feed.pull_item] at second
      refine ⟨1, .lexical (fun j hj => ?_) second⟩
      obtain rfl : j = 0 := by omega
      exact ⟨current, hcurrent⟩
    case h_2 => cases h

theorem Window.on_ofFeed {w : Window} (h : Window.ofFeed F = .ok w) : w.On F 0 where
  item n := by rw [Window.item_ofFeed h, Nat.zero_add]
  clear _ h := absurd h (Nat.not_lt_zero _)

/-- What is read from a stream, from the window on its first two tokens on. -/
theorem parseFeed_of_window {w : Window} (h : Window.ofFeed F = .ok w) :
    parseFeed F = match Session.rules w.size ⟨w, []⟩ with
      | (.error fault, s) => .error (s.collected ++ [fault])
      | (.ok rules, s) =>
        if s.collected = [] then .ok ⟨rules, some ⟨w.current.location, s.window.lastStop⟩⟩ else .error s.collected := by
  unfold parseFeed Session.ofFeed
  rw [h]
  simp only [Except.map, Session.document]
  generalize Session.rules w.size ⟨w, []⟩ = x
  obtain ⟨_ | _, s⟩ := x <;> rfl

/-- **The faults that a document cannot be read for are met one after the other.**  The last of them ends the reading,
or else the reading has come to the end of input. -/
theorem parseFeed_error {faults : List Fault} (hF : F.Ends) (h : parseFeed F = .error faults) :
    faults ≠ [] ∧ F.MeetsAll 0 faults ∧ ((∃ fault ∈ faults, fault.isFatal = true) ∨
      ∃ i t, F.Clear i ∧ F.item i = .ok t ∧ t.is .endOfInput = true) := by
  unfold parseFeed Session.ofFeed at h
  cases hw : Window.ofFeed F with
  | error f =>
    rw [hw] at h
    cases h
    obtain ⟨i, met⟩ := Window.ofFeed_error hw
    exact ⟨List.cons_ne_nil _ _, .fatal (Nat.zero_le _) met rfl, .inl ⟨_, List.mem_cons_self, rfl⟩⟩
  | ok w =>
    rw [hw] at h
    simp only [Except.map, Session.document] at h
    have adds := Session.adds_rules w.size ⟨w, []⟩ 0 0 (Window.on_ofFeed hw) (Window.ends_ofFeed hF hw) (Nat.le_refl _)
      (.inl (Nat.le_refl _))
    generalize Session.rules w.size ⟨w, []⟩ = result at h adds
    cases adds with
    | @finished rules t fs i kept met there ends =>
      simp only [] at h
      split at h
      · cases h
      · rename_i some
        cases h
        rw [kept] at some ⊢
        exact ⟨some, met, .inr ⟨i, t.window.current, there.clear, (there.item 0).symm, ends⟩⟩
    | @failed fault t fs kept met fatal =>
      cases h
      rw [kept]
      exact ⟨List.append_ne_nil_of_right_ne_nil _ (List.cons_ne_nil _ _), met,
        .inl ⟨fault, List.mem_append_right _ List.mem_cons_self, fatal⟩⟩

end Cddl
