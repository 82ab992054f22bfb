import Cddl.Grammar.Document
/-!
# Reading, step by step

What a reader does to a window when it succeeds: it walks over some tokens.  `Window.Steps` is such a walk and
`Window.Shows` what a window has in front of it, so that a fact about a reader can be told in terms of the tokens alone.
The equations for the readers' own operations stand at the end.
-/
namespace Cddl

/-! ## Marks -/

theorem Token.is_iff {t : Token} {m : Mark} : t.is m = true ↔ t.body = .mark m := by
  unfold Token.is
  exact decide_eq_true_iff

/-- A token is one mark at most. -/
theorem Token.not_is {t : Token} {m m' : Mark} (h : t.is m = true) (hm : m ≠ m') : t.is m' = false := by
  rw [Token.is_iff] at h
  unfold Token.is
  rw [h, decide_eq_false_iff_not]
  intro heq
  cases heq
  exact hm rfl

theorem Token.not_is_of_body {t : Token} {m : Mark} {b : Token.Body} (h : t.body = b) (hb : b ≠ .mark m) :
    t.is m = false := by
  unfold Token.is
  rw [h]
  exact decide_eq_false hb

theorem Token.not_is_of_value {t : Token} {m : Mark} {v : Literal} (h : t.body = .value v) : t.is m = false :=
  Token.not_is_of_body h nofun

theorem Token.not_is_of_tag {t : Token} {m : Mark} {k : Nat} {n : Option Nat} (h : t.body = .tag k n) :
    t.is m = false :=
  Token.not_is_of_body h nofun

theorem Token.not_is_of_range {t : Token} {m : Mark} {l u : Literal} {i : Bool} (h : t.body = .range l u i) :
    t.is m = false := Token.not_is_of_body h nofun

/-! ## What is in front of a window -/

/-- The item at an index of a stream, which never runs out of them. -/
def Feed.item (f : Feed) (n : Nat) : Except LexFault Token := (f.items[n]?).getD f.last

theorem Feed.item_ofTokens (ts : List Token) (i : Nat) :
    (ofTokens ts).item i = .ok ((ts[i]?).getD (.endAt ((ts.getLast?.map Token.location).getD .start))) := by
  unfold Feed.item ofTokens
  rw [List.getElem?_map]
  cases ts[i]? <;> rfl

/-- Up to an index a stream has tokens only. -/
def Feed.Clear (f : Feed) (n : Nat) : Prop := ∀ i < n, ∃ t, f.item i = .ok t

/-- After its items, a stream has no token but the end of input. -/
def Feed.Ends (f : Feed) : Prop := ∀ t, f.last = .ok t → t.is .endOfInput = true

theorem Feed.pull_fst (f : Feed) : f.pull.1 = f.item 0 := by
  unfold Feed.pull Feed.item
  cases h : f.items <;> simp

theorem Feed.pull_item (f : Feed) (n : Nat) : f.pull.2.item n = f.item (n + 1) := by
  unfold Feed.pull Feed.item
  cases h : f.items <;> simp [h]

theorem Feed.pull_last (f : Feed) : f.pull.2.last = f.last := by
  unfold Feed.pull
  cases f.items <;> rfl

/-- The place after some tokens, where the first of them follows the given place. -/
def stopAfter (pre : Location) : List Token → Location
  | [] => pre
  | t :: ts => stopAfter t.stop ts

theorem stopAfter_append (pre : Location) : ∀ ts us : List Token,
    stopAfter pre (ts ++ us) = stopAfter (stopAfter pre ts) us
  | [], _ => rfl
  | t :: ts, us => stopAfter_append t.stop ts us

/-- No token of a list is the end of input. -/
def Unended (ts : List Token) : Prop := ∀ t ∈ ts, t.is .endOfInput = false

@[simp] theorem unended_nil : Unended [] := fun _ h => absurd h List.not_mem_nil

@[simp] theorem unended_cons {t : Token} {ts : List Token} :
    Unended (t :: ts) ↔ t.is .endOfInput = false ∧ Unended ts := List.forall_mem_cons

@[simp] theorem unended_append {ts us : List Token} : Unended (ts ++ us) ↔ Unended ts ∧ Unended us :=
  List.forall_mem_append

namespace Window

/-- The item at an index of what a window has in front of it, the current token first. -/
def item (w : Window) : Nat → Except LexFault Token
  | 0 => .ok w.current
  | 1 => .ok w.upcoming
  | n + 2 => w.feed.item n

/-- A window has some tokens in front of it, and perhaps more. -/
def Shows (w : Window) (ts : List Token) : Prop := ∀ i t, ts[i]? = some t → w.item i = .ok t

/-- A walk over tokens, each of which the first window's stream has in turn. -/
inductive Steps : Window → List Token → Window → Prop
  | nil {w : Window} : Steps w [] w
  | cons {w u v : Window} {ts : List Token} (move : w.advance = (.ok w.current, u)) (rest : Steps u ts v) :
      Steps w (w.current :: ts) v

theorem eq_current_of_advance {w v : Window} {t : Token} (h : w.advance = (.ok t, v)) : t = w.current := by
  unfold advance at h
  split at h <;> cases h
  rfl

theorem advance_eq_ok {w v : Window} {t : Token} (h : w.advance = (.ok t, v)) :
    w.feed.item 0 = .ok v.upcoming ∧ v.current = w.upcoming ∧ v.feed = w.feed.pull.2 ∧ v.lastStop = w.current.stop := by
  have first := w.feed.pull_fst
  unfold advance at h
  split at h <;> rename_i heq <;> cases h
  rw [heq] at first
  exact ⟨first.symm, rfl, by rw [heq], rfl⟩

theorem item_of_advance {w v : Window} {t : Token} (h : w.advance = (.ok t, v)) : ∀ n, v.item n = w.item (n + 1)
  | 0 => by simp only [item, (advance_eq_ok h).2.1]
  | 1 => by simp only [item, (advance_eq_ok h).1]
  | n + 2 => by simp only [item, (advance_eq_ok h).2.2.1, Feed.pull_item]

theorem lastStop_of_advance {w v : Window} {t : Token} (h : w.advance = (.ok t, v)) : v.lastStop = w.current.stop :=
  (advance_eq_ok h).2.2.2

/-- A window moves on if there is a token to move up behind the upcoming one. -/
theorem exists_advance {w : Window} {t : Token} (h : w.item 2 = .ok t) : ∃ v, w.advance = (.ok w.current, v) := by
  have first : w.feed.pull.1 = .ok t := by rw [Feed.pull_fst]; exact h
  refine ⟨⟨w.upcoming, t, w.feed.pull.2, w.current.stop⟩, ?_⟩
  unfold advance
  split <;> rename_i heq <;> rw [heq] at first <;> cases first
  rw [heq]

namespace Shows

variable {w : Window} {t u : Token} {ts us : List Token}

theorem current (h : w.Shows (t :: ts)) : w.current = t := by
  have := h 0 t rfl
  simpa only [item, Except.ok.injEq] using this

theorem upcoming (h : w.Shows (t :: u :: ts)) : w.upcoming = u := by
  have := h 1 u rfl
  simpa only [item, Except.ok.injEq] using this

theorem left (h : w.Shows (ts ++ us)) : w.Shows ts := fun i t hi =>
  h i t (by rw [List.getElem?_append_left (List.getElem?_eq_some_iff.1 hi).1]; exact hi)

end Shows

/-- The two tokens that a window is made of stand in front of it. -/
theorem shows_pair (w : Window) : w.Shows [w.current, w.upcoming]
  | 0, t, h => by simp only [item]; simpa using h
  | 1, t, h => by simp only [item]; simpa using h
  | n + 2, t, h => by simp at h

theorem shows_cons_iff {w v : Window} {t : Token} {ts : List Token} (h : w.advance = (.ok t, v)) :
    w.Shows (w.current :: ts) ↔ v.Shows ts := by
  constructor
  · intro hw i u hi
    rw [item_of_advance h]
    exact hw (i + 1) u hi
  · intro hv i u hi
    cases i with
    | zero => simpa only [item, List.getElem?_cons_zero, Except.ok.injEq, Option.some.injEq] using hi
    | succ i =>
      rw [← item_of_advance h]
      exact hv i u hi

namespace Steps

variable {w u v : Window} {t : Token} {ts us after : List Token}

theorem one (h : w.advance = (.ok t, v)) : w.Steps [t] v := by
  have := eq_current_of_advance h
  subst this
  exact .cons h .nil

theorem trans (h : w.Steps ts u) (h' : u.Steps us v) : w.Steps (ts ++ us) v := by
  induction h with
  | nil => exact h'
  | cons move _ ih => exact .cons move (ih h')

theorem split : ∀ {ts : List Token} {w : Window}, w.Steps (ts ++ us) v → ∃ u, w.Steps ts u ∧ u.Steps us v
  | [], w, h => ⟨w, .nil, h⟩
  | _ :: _, _, .cons move rest =>
    let ⟨u, first, second⟩ := split rest
    ⟨u, .cons move first, second⟩

theorem head (h : w.Steps (t :: ts) v) : w.current = t := by cases h; rfl

theorem tail (h : w.Steps (t :: ts) v) : ∃ u, w.advance = (.ok t, u) ∧ u.lastStop = t.stop ∧ u.Steps ts v := by
  cases h with
  | cons move rest => exact ⟨_, move, lastStop_of_advance move, rest⟩

theorem shows (h : w.Steps ts v) (hv : v.Shows after) : w.Shows (ts ++ after) := by
  induction h with
  | nil => exact hv
  | cons move _ ih => exact (shows_cons_iff move).2 (ih hv)

theorem lastStop (h : w.Steps ts v) : v.lastStop = stopAfter w.lastStop ts := by
  induction h with
  | nil => rfl
  | cons move _ ih => rw [ih, lastStop_of_advance move]; rfl

theorem item (h : w.Steps ts v) (n : Nat) : v.item n = w.item (ts.length + n) := by
  induction h with
  | nil => rw [List.length_nil, Nat.zero_add]
  | @cons w u v ts move _ ih =>
    rw [ih, item_of_advance move, List.length_cons]
    congr 1
    omega

/-- A window walks over tokens in front of it if two more come after them. -/
theorem of_shows : ∀ {ts : List Token} {w : Window}, w.Shows (ts ++ t :: t' :: after) → ∃ v, w.Steps ts v ∧
    v.Shows (t :: t' :: after)
  | [], w, h => ⟨w, .nil, h⟩
  | a :: ts, w, h => by
    have hc : w.current = a := h.current
    have : ∃ c, w.item 2 = .ok c := by
      cases ts with
      | nil => exact ⟨t', h 2 t' rfl⟩
      | cons b ts => cases ts with
        | nil => exact ⟨t, h 2 t rfl⟩
        | cons c ts => exact ⟨c, h 2 c rfl⟩
    obtain ⟨c, hc2⟩ := this
    obtain ⟨u, move⟩ := exists_advance hc2
    subst hc
    have hu : u.Shows (ts ++ t :: t' :: after) := (shows_cons_iff move).1 h
    obtain ⟨v, hs, hv⟩ := of_shows hu
    exact ⟨v, .cons move hs, hv⟩

end Steps

/-! ## How much is in front of a window -/

/-- A stream that ends does so under every window on it. -/
def Ends (w : Window) : Prop := w.feed.Ends

theorem Ends.advance {w v : Window} {t : Token} (hw : w.Ends) (h : w.advance = (.ok t, v)) : v.Ends := by
  intro u hu
  rw [(advance_eq_ok h).2.2.1, Feed.pull_last] at hu
  exact hw u hu

theorem Steps.ends {w v : Window} {ts : List Token} (hw : w.Ends) (h : w.Steps ts v) : v.Ends := by
  induction h with
  | nil => exact hw
  | cons move _ ih => exact ih (hw.advance move)

/-- A token counts once; the end of input does not count, however often it is passed. -/
theorem size_add_of_advance {w v : Window} {t : Token} (hw : w.Ends) (h : w.advance = (.ok t, v)) :
    v.size + (if w.current.is .endOfInput then 0 else 1) ≤ w.size := by
  obtain ⟨hup, hcur, hfeed, _⟩ := advance_eq_ok h
  unfold size
  rw [hcur, hfeed]
  unfold Feed.item at hup
  cases hi : w.feed.items with
  | nil =>
    rw [hi] at hup
    have : v.upcoming.is .endOfInput = true := hw _ hup
    rw [this]
    simp only [Feed.pull, hi, List.length_nil, if_true]
    omega
  | cons a as =>
    simp only [Feed.pull, hi, List.length_cons]
    split <;> split <;> split <;> omega

theorem size_of_advance {w v : Window} {t : Token} (hw : w.Ends) (h : w.advance = (.ok t, v))
    (ht : w.current.is .endOfInput = false) : v.size + 1 ≤ w.size := by
  have := size_add_of_advance hw h
  rwa [ht, if_neg Bool.false_ne_true] at this

theorem Steps.size {w v : Window} {ts : List Token} (hw : w.Ends) (h : w.Steps ts v) (hts : Unended ts) :
    v.size + ts.length ≤ w.size := by
  induction h with
  | nil => simp
  | @cons w u v ts move _ ih =>
    obtain ⟨htoken, hts⟩ := unended_cons.1 hts
    have first := size_of_advance hw move htoken
    have rest := ih (hw.advance move) hts
    rw [List.length_cons]
    omega

theorem Steps.size_le {w v : Window} {ts : List Token} (hw : w.Ends) (h : w.Steps ts v) : v.size ≤ w.size := by
  induction h with
  | nil => exact Nat.le_refl _
  | cons move _ ih => exact Nat.le_trans (ih (hw.advance move)) (Nat.le_of_add_right_le (size_add_of_advance hw move))

/-- A walk that begins with a token before the end of input leaves less to be consumed. -/
theorem Steps.size_lt {w v : Window} {ts : List Token} (hw : w.Ends) (h : w.Steps ts v) (hts : ts ≠ [])
    (more : w.current.is .endOfInput = false) : v.size < w.size := by
  cases h with
  | nil => exact absurd rfl hts
  | cons move rest => exact Nat.lt_of_le_of_lt (rest.size_le (hw.advance move)) (size_of_advance hw move more)

/-- Nothing but the end of input is left where there is nothing to consume. -/
theorem current_of_size {w : Window} (h : w.size = 0) : w.current.is .endOfInput = true := by
  unfold Window.size at h
  cases hc : w.current.is .endOfInput with
  | true => rfl
  | false => simp [hc] at h

end Window

/-! ## What readers give -/

namespace Reader

variable {α β : Type}

/-- A reader succeeds on a window, with the given result, and leaves the last window behind. -/
def Gives (r : Reader α) (w : Window) (a : α) (v : Window) : Prop := r.run.run w = (Except.ok a, v)

variable {w v : Window} {a b : α}

theorem gives_pure : (pure a : Reader α).Gives w b v ↔ a = b ∧ w = v := by
  constructor
  · intro h; cases h; exact ⟨rfl, rfl⟩
  · rintro ⟨rfl, rfl⟩; rfl

theorem gives_bind {r : Reader α} {f : α → Reader β} {b : β} :
    (r >>= f).Gives w b v ↔ ∃ a u, r.Gives w a u ∧ (f a).Gives u b v := by
  have step : (r >>= f).run.run w = ExceptT.bindCont f (r.run.run w).1 (r.run.run w).2 := rfl
  unfold Gives
  rw [step]
  obtain ⟨_ | a, u⟩ := r.run.run w
  · constructor
    · intro h; cases h
    · rintro ⟨_, _, h, _⟩; cases h
  · constructor
    · exact fun h => ⟨a, u, rfl, h⟩
    · rintro ⟨_, _, h, h'⟩; cases h; exact h'

theorem gives_current {t : Token} : current.Gives w t v ↔ w.current = t ∧ w = v := by
  constructor
  · intro h; cases h; exact ⟨rfl, rfl⟩
  · rintro ⟨rfl, rfl⟩; rfl

theorem gives_upcoming {t : Token} : upcoming.Gives w t v ↔ w.upcoming = t ∧ w = v := by
  constructor
  · intro h; cases h; exact ⟨rfl, rfl⟩
  · rintro ⟨rfl, rfl⟩; rfl

theorem gives_get {u : Window} : (get : Reader Window).Gives w u v ↔ w = u ∧ w = v := by
  constructor
  · intro h; cases h; exact ⟨rfl, rfl⟩
  · rintro ⟨rfl, rfl⟩; rfl

theorem gives_at? {m : Mark} {x : Bool} : (at? m).Gives w x v ↔ w.current.is m = x ∧ w = v := by
  constructor
  · intro h; cases h; exact ⟨rfl, rfl⟩
  · rintro ⟨rfl, rfl⟩; rfl

theorem gives_spanFrom {l : Location} {s : Span} :
    (spanFrom l).Gives w s v ↔ (⟨l, w.lastStop⟩ : Span) = s ∧ w = v := by
  constructor
  · intro h; cases h; exact ⟨rfl, rfl⟩
  · rintro ⟨rfl, rfl⟩; rfl

theorem not_gives_fail {x : Expectation} : ¬ (fail x : Reader α).Gives w a v := by
  intro h; cases h

theorem not_gives_throw {f : Fault} : ¬ (throw f : Reader α).Gives w a v := by
  intro h; cases h

theorem gives_set {u : Window} {x : PUnit} : (set u : Reader PUnit).Gives w x v ↔ u = v := by
  constructor
  · intro h; cases h; rfl
  · rintro rfl; rfl

theorem gives_advance {t : Token} : advance.Gives w t v ↔ w.advance = (.ok t, v) := by
  unfold advance
  rw [gives_bind]
  constructor
  · rintro ⟨_, _, h, h'⟩
    obtain ⟨rfl, rfl⟩ := gives_get.1 h
    generalize w.advance = moved at h'
    obtain ⟨f | t', u⟩ := moved
    · obtain ⟨_, _, _, hres⟩ := gives_bind.1 h'
      exact absurd hres not_gives_throw
    · obtain ⟨_, _, hset, hres⟩ := gives_bind.1 h'
      obtain rfl := gives_set.1 hset
      obtain ⟨rfl, rfl⟩ := gives_pure.1 hres
      rfl
  · intro h
    refine ⟨w, w, gives_get.2 ⟨rfl, rfl⟩, ?_⟩
    rw [h]
    exact gives_bind.2 ⟨⟨⟩, v, gives_set.2 rfl, gives_pure.2 ⟨rfl, rfl⟩⟩

theorem gives_expect {m : Mark} {x : Expectation} {t : Token} :
    (expect m x).Gives w t v ↔ w.current.is m = true ∧ w.advance = (.ok t, v) := by
  unfold expect
  rw [gives_bind]
  constructor
  · rintro ⟨_, u, h, h'⟩
    obtain ⟨rfl, rfl⟩ := gives_at?.1 h
    cases hc : w.current.is m with
    | true => rw [hc, if_pos rfl] at h'; exact ⟨rfl, gives_advance.1 h'⟩
    | false => rw [hc, if_neg Bool.false_ne_true] at h'; exact absurd h' not_gives_fail
  · rintro ⟨hc, h⟩
    refine ⟨_, w, gives_at?.2 ⟨hc, rfl⟩, ?_⟩
    rw [if_pos rfl]
    exact gives_advance.2 h

theorem gives_ite {c : Prop} [Decidable c] {r s : Reader α} :
    (if c then r else s).Gives w a v ↔ (c ∧ r.Gives w a v) ∨ (¬ c ∧ s.Gives w a v) := by
  split <;> rename_i h <;> simp [h]

end Reader
end Cddl
