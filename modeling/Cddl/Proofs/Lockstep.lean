import Cddl.Proofs.Reading.Outcome
import Cddl.Proofs.Respan
/-!
# Two readings side by side

Two readings are in lockstep if from related windows they come out alike: both with results that agree and windows that
are related again, or both with related faults.  A `View` says what of a place counts in the comparison.  Nothing else
of two windows may differ that a reader could see, so each production keeps in step with itself, whatever the view, the
relation of the windows, and the two readers of what is nested (`lockstep_rule`).
-/
namespace Cddl

/-! ## What counts of a place -/

/-- What a comparison keeps of a span, and which places it takes for the same. -/
structure View where
  span : Option Span → Option Span
  place : Location → Location → Prop
  shift {l l' : Location} (h : place l l') (n : Int) : place (l.shift n) (l'.shift n)
  stretch {l l' m m' : Location} (h : place l l') (h' : place m m') : span (some ⟨l, m⟩) = span (some ⟨l', m'⟩)
  start {s s' : Option Span} {l l' : Location} (h : span s = span s') (h' : place l l') :
    place ((s.map Span.start).getD l) ((s'.map Span.start).getD l')

/-- Every place counts. -/
def View.exact : View where
  span := id
  place := Eq
  shift h _ := by rw [h]
  stretch h h' := by rw [h, h']
  start h h' := by
    have h : _ = _ := h
    rw [id, id] at h
    rw [h, h']

/-- No place counts. -/
def View.blind : View where
  span := noSpan
  place _ _ := True
  shift _ _ := trivial
  stretch _ _ := rfl
  start _ _ := trivial

/-! ## Tokens -/

/-- Two tokens that differ in nothing but places that do not count. -/
structure Token.Alike (V : View) (t t' : Token) : Prop where
  body : t.body = t'.body
  text : t.text = t'.text
  location : V.place t.location t'.location

namespace Token.Alike

variable {V : View} {t t' : Token}

theorem is (h : t.Alike V t') (m : Mark) : t.is m = t'.is m := by unfold Token.is; rw [h.body]

theorem stop (h : t.Alike V t') : V.place t.stop t'.stop := by
  unfold Token.stop
  rw [h.text]
  exact V.shift h.location _

theorem identifier (h : t.Alike V t') :
    (Production.identifier t).respan V.span = (Production.identifier t').respan V.span := by
  have span : V.span (some t.span) = V.span (some t'.span) := V.stretch h.location h.stop
  unfold Production.identifier Identifier.respan
  rw [h.text]
  split
  · rw [span]
  · split <;> rw [span]

theorem operatorSymbol? (h : t.Alike V t') : Production.operatorSymbol? t = Production.operatorSymbol? t' := by
  unfold Production.operatorSymbol?
  rw [h.is, h.is, h.text]

end Token.Alike

/-! ## Windows -/

/-- A relation of the windows of two readings. -/
abbrev WindowRel := Window → Window → Prop

/-- A relation of windows whose first shows a current token with a property. -/
def WindowRel.Where (R : WindowRel) (P : Token → Prop) : WindowRel := fun w w' => R w w' ∧ P w.current

/-- What two readings come out with: results that agree and related windows, or related faults. -/
inductive Paired {α β : Type} (E : Fault → Fault → WindowRel) (S : WindowRel) (Q : α → β → Prop) :
    Except Fault α × Window → Except Fault β × Window → Prop
  | ok {a : α} {b : β} {v v' : Window} (value : Q a b) (windows : S v v') : Paired E S Q (.ok a, v) (.ok b, v')
  | error {f f' : Fault} {v v' : Window} (fault : E f f' v v') : Paired E S Q (.error f, v) (.error f', v')

theorem Paired.widen {α β : Type} {E : Fault → Fault → WindowRel} {S T : WindowRel} {Q : α → β → Prop}
    {x : Except Fault α × Window} {x' : Except Fault β × Window} (h : Paired E S Q x x')
    (sub : ∀ w w', S w w' → T w w') : Paired E T Q x x' := by
  cases h with
  | ok value windows => exact .ok value (sub _ _ windows)
  | error fault => exact .error fault

/-- Related windows look alike, and readings that fail there fail alike.  Whether a number is joined to an asterisk is
the one thing that the grammar learns from places. -/
structure Abreast (V : View) (E : Fault → Fault → WindowRel) (R : WindowRel) : Prop where
  current {w w' : Window} (h : R w w') : w.current.Alike V w'.current
  upcoming {w w' : Window} (h : R w w') : w.upcoming.Alike V w'.upcoming
  lastStop {w w' : Window} (h : R w w') : V.place w.lastStop w'.lastStop
  size {w w' : Window} (h : R w w') : w.size = w'.size
  joined {w w' : Window} (h : R w w') (star : w.current.is .asterisk = true) :
    Production.uintAt? w.current.stop w.upcoming = Production.uintAt? w'.current.stop w'.upcoming
  mismatch {w w' : Window} (h : R w w') (x : Expectation) : E (.mismatch x w.current) (.mismatch x w'.current) w w'
  parenthesis {w w' : Window} (h : R w w') (opening : w.current.is .leftParen = true) :
    E (.parenthesizedBody w.current.location) (.parenthesizedBody w'.current.location) w w'

/-- Windows that look alike and stay so when both move on over a token.  The relation behind the token may be a narrower
one. -/
structure Forward (V : View) (E : Fault → Fault → WindowRel) (R S : WindowRel) : Prop where
  outer : Abreast V E R
  inner : Abreast V E S
  widen {w w' : Window} (h : S w w') : R w w'
  advance {w w' : Window} (h : R w w') (more : w.current.is .endOfInput = false) :
    Paired E S (Token.Alike V) (Reader.advance.run.run w) (Reader.advance.run.run w')

section
variable {V : View} {E : Fault → Fault → WindowRel} {R S T : WindowRel}

theorem Forward.again (hf : Forward V E R S) : Forward V E S S :=
  ⟨hf.inner, hf.inner, id, fun h => hf.advance (hf.widen h)⟩

theorem Forward.back (hf : Forward V E R S) : Forward V E R R where
  outer := hf.outer
  inner := hf.outer
  widen := id
  advance h more := (hf.advance h more).widen fun _ _ => hf.widen

theorem Abreast.where (h : Abreast V E R) (P : Token → Prop) : Abreast V E (R.Where P) where
  current h' := h.current h'.1
  upcoming h' := h.upcoming h'.1
  lastStop h' := h.lastStop h'.1
  size h' := h.size h'.1
  joined h' := h.joined h'.1
  mismatch h' := h.mismatch h'.1
  parenthesis h' := h.parenthesis h'.1

end

/-! ## Readers -/

/-- From related windows, two readers come out alike. -/
def Lockstep {α β : Type} (E : Fault → Fault → WindowRel) (R S : WindowRel) (Q : α → β → Prop) (r : Reader α)
    (r' : Reader β) : Prop := ∀ w w', R w w' → Paired E S Q (r.run.run w) (r'.run.run w')

/-- Two values that are the same for all that counts of them. -/
abbrev Same {α γ : Type} (g : α → γ) (a b : α) : Prop := g a = g b

namespace Lockstep

variable {α α' β β' γ : Type} {V : View} {E : Fault → Fault → WindowRel} {R R' S T : WindowRel} {Q : α → α' → Prop}
  {P : β → β' → Prop} {r : Reader α} {r' : Reader α'} {f : α → Reader β} {f' : α' → Reader β'}

theorem before (h : Lockstep E R S Q r r') (sub : ∀ w w', R' w w' → R w w') : Lockstep E R' S Q r r' :=
  fun w w' hw => h w w' (sub w w' hw)

theorem after (h : Lockstep E R S Q r r') (sub : ∀ w w', S w w' → T w w') : Lockstep E R T Q r r' :=
  fun w w' hw => (h w w' hw).widen sub

theorem within (h : Lockstep E R S Q r r') {C : Token → Prop} : Lockstep E (R.Where C) S Q r r' :=
  h.before fun _ _ => And.left

theorem pure {a : α} {a' : α'} (h : Q a a') : Lockstep E R R Q (Pure.pure a) (Pure.pure a') := fun _ _ hw => .ok h hw

theorem stay {a : α} {a' : α'} {C : Token → Prop} (h : Q a a') :
    Lockstep E (R.Where C) R Q (Pure.pure a) (Pure.pure a') := (pure h).within

theorem bind (hr : Lockstep E R S Q r r') (hf : ∀ a a', Q a a' → Lockstep E S T P (f a) (f' a')) :
    Lockstep E R T P (r >>= f) (r' >>= f') := by
  intro w w' hw
  have step : (r >>= f).run.run w = ExceptT.bindCont f (r.run.run w).1 (r.run.run w).2 := rfl
  have step' : (r' >>= f').run.run w' = ExceptT.bindCont f' (r'.run.run w').1 (r'.run.run w').2 := rfl
  have first := hr w w' hw
  rw [step, step']
  generalize r.run.run w = x at first
  generalize r'.run.run w' = x' at first
  cases first with
  | ok value windows => exact hf _ _ value _ _ windows
  | error fault => exact .error fault

theorem map {g : α → β} {g' : α' → β'} (hr : Lockstep E R S Q r r') (hg : ∀ a a', Q a a' → P (g a) (g' a')) :
    Lockstep E R S P (r >>= fun a => Pure.pure (g a)) (r' >>= fun a => Pure.pure (g' a)) :=
  bind hr fun a a' h => pure (hg a a' h)

theorem ite {c c' : Prop} [Decidable c] [Decidable c'] {s : Reader α} {s' : Reader α'} (same : c ↔ c')
    (hr : c → Lockstep E R S Q r r') (hs : ¬ c → Lockstep E R S Q s s') :
    Lockstep E R S Q (if c then r else s) (if c' then r' else s') := by
  by_cases h : c
  · rw [if_pos h, if_pos (same.1 h)]
    exact hr h
  · rw [if_neg h, if_neg fun h' => h (same.2 h')]
    exact hs h

theorem current (hR : Abreast V E R) {f : Token → Reader β} {f' : Token → Reader β'}
    (hf : ∀ t t', t.Alike V t' → Lockstep E (R.Where (· = t)) S P (f t) (f' t')) :
    Lockstep E R S P (Reader.current >>= f) (Reader.current >>= f') :=
  fun w w' hw => hf w.current w'.current (hR.current hw) w w' ⟨hw, rfl⟩

theorem upcoming (hR : Abreast V E R) {f : Token → Reader β} {f' : Token → Reader β'}
    (hf : ∀ t t', t.Alike V t' → Lockstep E R S P (f t) (f' t')) :
    Lockstep E R S P (Reader.upcoming >>= f) (Reader.upcoming >>= f') :=
  fun w w' hw => hf w.upcoming w'.upcoming (hR.upcoming hw) w w' hw

theorem at? (hR : Abreast V E R) (m : Mark) {f : Bool → Reader β} {f' : Bool → Reader β'}
    (hf : ∀ b, Lockstep E (R.Where (·.is m = b)) S P (f b) (f' b)) :
    Lockstep E R S P (Reader.at? m >>= f) (Reader.at? m >>= f') := by
  intro w w' hw
  have same : w'.current.is m = w.current.is m := ((hR.current hw).is m).symm
  have step : (Reader.at? m >>= f).run.run w = (f (w.current.is m)).run.run w := rfl
  have step' : (Reader.at? m >>= f').run.run w' = (f' (w'.current.is m)).run.run w' := rfl
  rw [step, step', same]
  exact hf _ w w' ⟨hw, rfl⟩

/-- A choice by the mark that the current token is. -/
theorem when (hR : Abreast V E R) (m : Mark) {s : Reader α} {s' : Reader α'}
    (hr : Lockstep E (R.Where (·.is m = true)) S Q r r') (hs : Lockstep E R S Q s s') :
    Lockstep E R S Q (do if ← Reader.at? m then r else s) (do if ← Reader.at? m then r' else s') :=
  at? hR m fun
    | true => hr
    | false => hs.within

theorem fail (hR : Abreast V E R) (x : Expectation) : Lockstep E R S Q (Reader.fail x) (Reader.fail x) :=
  fun _ _ hw => .error (hR.mismatch hw x)

theorem advance (hf : Forward V E R S) {C : Token → Prop} (more : ∀ t, C t → t.is .endOfInput = false) :
    Lockstep E (R.Where C) S (Token.Alike V) Reader.advance Reader.advance :=
  fun _ _ hw => hf.advance hw.1 (more _ hw.2)

/-- Moving on over a mark. -/
theorem pastMark (hf : Forward V E R S) {m : Mark} (hm : m ≠ .endOfInput) :
    Lockstep E (R.Where (·.is m = true)) S (Token.Alike V) Reader.advance Reader.advance :=
  advance hf fun _ h => Token.not_is h hm

theorem expect (hf : Forward V E R S) {m : Mark} (x : Expectation) (hm : m ≠ .endOfInput) :
    Lockstep E R S (Token.Alike V) (Reader.expect m x) (Reader.expect m x) :=
  when hf.outer m (pastMark hf hm) (fail hf.outer x)

theorem spanFrom (hR : Abreast V E R) {l l' : Location} (h : V.place l l') :
    Lockstep E R R (fun s s' => V.span (some s) = V.span (some s')) (Reader.spanFrom l) (Reader.spanFrom l') :=
  fun _ _ hw => .ok (V.stretch h (hR.lastStop hw)) hw

theorem lastStop (hR : Abreast V E R) {f : Location → Reader β} {f' : Location → Reader β'}
    (hf : ∀ l l', V.place l l' → Lockstep E R S P (f l) (f' l')) :
    Lockstep E R S P (MonadState.get >>= fun w => f w.lastStop) (MonadState.get >>= fun w => f' w.lastStop) :=
  fun w w' hw => hf w.lastStop w'.lastStop (hR.lastStop hw) w w' hw

theorem atMostWhile (hR : Abreast V E R) {test : Token → Bool} {g : α → γ} {item item' : Reader α}
    (same : ∀ t t', t.Alike V t' → test t = test t')
    (hitem : Lockstep E (R.Where (test · = true)) R (Same g) item item') :
    ∀ n, Lockstep E R R (Same (List.map g)) (Reader.atMostWhile test item n) (Reader.atMostWhile test item' n)
  | 0 => pure rfl
  | n + 1 => by
    refine current hR fun t t' ht => ite (by rw [same t t' ht]) (fun passed => ?_) fun _ => stay rfl
    have first : Lockstep E (R.Where (· = t)) R (Same g) item item' :=
      hitem.before fun _ _ hw => ⟨hw.1, by rw [hw.2]; exact passed⟩
    refine bind first fun a a' ha => map (atMostWhile hR same hitem n) fun as as' has => ?_
    simp only [Same, List.map_cons] at ha has ⊢
    rw [ha, has]

/-- A loop takes the same turns on both sides. -/
theorem manyWhile (hR : Abreast V E R) {test : Token → Bool} {g : α → γ} {item item' : Reader α}
    (same : ∀ t t', t.Alike V t' → test t = test t')
    (hitem : Lockstep E (R.Where (test · = true)) R (Same g) item item') :
    Lockstep E R R (Same (List.map g)) (Reader.manyWhile test item) (Reader.manyWhile test item') := by
  intro w w' hw
  have step (i : Reader α) (u : Window) :
      (Reader.manyWhile test i).run.run u = (Reader.atMostWhile test i u.size).run.run u := rfl
  rw [step, step, ← hR.size hw]
  exact atMostWhile hR same hitem _ w w' hw

/-- A loop whose items each begin with a mark that they move on over. -/
theorem manyAfter (hf : Forward V E R R) {m : Mark} {g : α → γ} {item item' : Reader α}
    (hitem : Lockstep E R R (Same g) item item') (hm : m ≠ .endOfInput) :
    Lockstep E R R (Same (List.map g)) (Reader.manyWhile (·.is m) (do let _ ← Reader.advance; item))
      (Reader.manyWhile (·.is m) (do let _ ← Reader.advance; item')) :=
  manyWhile hf.outer (fun _ _ h => h.is m) (bind (pastMark hf hm) fun _ _ _ => hitem)

end Lockstep
end Cddl
