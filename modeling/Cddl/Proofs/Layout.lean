import Cddl.Proofs.Phrase.Complete.Document
import Cddl.Proofs.Placement.Document
/-!
# Texts that are laid out

A layout is a text cut into blanks and tokens, together with what each token is to be read to.  `Layout.Scans` says that
the lexer agrees, and then the whole text is read to the tokens of the layout (`Feed.ofCursor_layout`), each where its
text stands.
-/
namespace Cddl

/-- The place behind a text that begins at a place. -/
def Location.past (l : Location) (t : Text) : Location := t.foldl Location.advance l

/-- A part of a text: blanks, or the text of a token and what that is read to. -/
inductive Piece where
  | blank (t : Text)
  | token (body : Token.Body) (t : Text)

def Piece.text : Piece → Text
  | .blank t | .token _ t => t

/-- A text that a token is read from, whatever comes behind it. -/
def Scanned (body : Token.Body) (t rest : Text) : Prop :=
  ∃ u r, t = u :: r ∧ Cursor.isSpace u = false ∧ u ≠ CodeUnit.ofChar ';' ∧ scan u (r ++ rest) = .token body r.length

namespace Layout

def text (ps : List Piece) : Text := ps.flatMap Piece.text

/-- The tokens of a layout that begins at a place. -/
def tokens (l : Location) : List Piece → List Token
  | [] => []
  | .blank t :: ps => tokens (l.past t) ps
  | .token body t :: ps => ⟨body, t, l⟩ :: tokens (l.past t) ps

/-- Every token of a layout is read from its text, with the rest of the layout and another text behind it. -/
def Scans : List Piece → Text → Prop
  | [], _ => True
  | .blank t :: ps, rest => t.all Cursor.isSpace = true ∧ Scans ps rest
  | .token body t :: ps, rest => Scanned body t (text ps ++ rest) ∧ Scans ps rest

variable {l : Location} {t rest : Text} {body : Token.Body} {ps qs : List Piece}

@[simp] theorem text_nil : text [] = [] := rfl

@[simp] theorem text_blank : text (.blank t :: ps) = t ++ text ps := rfl

@[simp] theorem text_token : text (.token body t :: ps) = t ++ text ps := rfl

@[simp] theorem text_append : text (ps ++ qs) = text ps ++ text qs := List.flatMap_append

@[simp] theorem tokens_nil : tokens l [] = [] := rfl

@[simp] theorem tokens_blank : tokens l (.blank t :: ps) = tokens (l.past t) ps := rfl

@[simp] theorem tokens_token : tokens l (.token body t :: ps) = ⟨body, t, l⟩ :: tokens (l.past t) ps := rfl

theorem past_append (l : Location) (s t : Text) : l.past (s ++ t) = (l.past s).past t := List.foldl_append

@[simp] theorem tokens_append : tokens l (ps ++ qs) = tokens l ps ++ tokens (l.past (text ps)) qs := by
  induction ps generalizing l with
  | nil => rfl
  | cons p ps ih =>
    cases p with
    | blank t => rw [List.cons_append, tokens_blank, ih, text_blank, past_append, tokens_blank]
    | token body t => rw [List.cons_append, tokens_token, ih, text_token, past_append, tokens_token, List.cons_append]

theorem scans_append : Scans (ps ++ qs) rest ↔ Scans ps (text qs ++ rest) ∧ Scans qs rest := by
  induction ps with
  | nil => simp [Scans]
  | cons p ps ih =>
    cases p with
    | blank t => simp only [List.cons_append, Scans, ih, and_assoc]
    | token body t => simp only [List.cons_append, Scans, ih, and_assoc, text_append, List.append_assoc]

theorem offset_past (l : Location) (t : Text) : (l.past t).offset = l.offset + t.length := by
  induction t generalizing l with
  | nil => exact (Int.add_zero _).symm
  | cons u t ih =>
    have step := ih (l.advance u)
    rw [Location.offset_advance] at step
    rw [List.length_cons]
    exact step.trans (by omega)

/-- No token of a layout begins before the layout does. -/
theorem offset_le_of_mem {t : Token} (h : t ∈ tokens l ps) : l.offset ≤ t.location.offset := by
  induction ps generalizing l with
  | nil => cases h
  | cons p ps ih =>
    cases p with
    | blank b =>
      have := ih h
      rw [offset_past] at this
      omega
    | token body b =>
      rcases List.mem_cons.1 h with rfl | h
      · exact Int.le_refl _
      · have := ih h
        rw [offset_past] at this
        omega

end Layout

/-! ## Reading a layout -/

namespace Cursor

variable {l : Location} {s t : Text} {u : CodeUnit} {r : Text}

theorem skip_append (l : Location) : ∀ (s t : Text), skip s.length ⟨l, s ++ t⟩ = ⟨l.past s, t⟩ := by
  intro s
  induction s generalizing l with
  | nil => exact fun _ => rfl
  | cons u s ih => exact fun t => ih (l.advance u) t

theorem triviaLength_append (h : s.all isSpace = true) (t : Text) :
    triviaLength false (s ++ t) = s.length + triviaLength false t := by
  induction s with
  | nil => exact (Nat.zero_add _).symm
  | cons u s ih =>
    rw [List.all_cons, Bool.and_eq_true] at h
    rw [List.cons_append, triviaLength, if_neg Bool.false_ne_true, if_pos h.1, ih h.2, List.length_cons]
    omega

theorem triviaLength_token (hu : isSpace u = false) (hc : u ≠ CodeUnit.ofChar ';') :
    triviaLength false (u :: r) = 0 := by
  rw [triviaLength, if_neg Bool.false_ne_true, hu, if_neg Bool.false_ne_true, if_neg hc]

theorem clear_of_triviaLength (h : triviaLength false (u :: r) = 0) : isSpace u = false ∧ u ≠ CodeUnit.ofChar ';' := by
  rw [triviaLength, if_neg Bool.false_ne_true] at h
  constructor
  · refine Bool.eq_false_iff.2 fun space => ?_
    rw [if_pos space] at h
    cases h
  · rintro rfl
    rw [if_neg (by decide), if_pos rfl] at h
    cases h

theorem skipTrivia_append (h : s.all isSpace = true) (ht : triviaLength false t = 0) :
    skipTrivia ⟨l, s ++ t⟩ = ⟨l.past s, t⟩ := by
  unfold skipTrivia
  rw [triviaLength_append h, ht]
  exact skip_append l s t

/-- A token is read where its text stands, and the cursor goes on behind it. -/
theorem next_of_scanned {body : Token.Body} {rest : Text} (hs : s.all isSpace = true) (h : Scanned body t rest) :
    next ⟨l, s ++ (t ++ rest)⟩ = (.ok ⟨body, t, l.past s⟩, ⟨(l.past s).past t, rest⟩) := by
  obtain ⟨u, r, rfl, space, comment, scanned⟩ := h
  unfold next
  rw [List.cons_append, skipTrivia_append hs (triviaLength_token space comment)]
  unfold readHere
  simp only [scanned, List.take_left']
  rw [← skip_append (l.past s) (u :: r) rest]
  rfl

end Cursor

/-- The tokens that come to an end at a place. -/
def Feed.sealed (ts : List Token) (l : Location) : Feed := ⟨ts.map .ok ++ [.ok (.endAt l)], .ok (.endAt l)⟩

theorem Scanned.not_end {body : Token.Body} {t rest : Text} {l : Location} (h : Scanned body t rest) :
    (⟨body, t, l⟩ : Token).is .endOfInput = false := by
  obtain ⟨u, r, _, _, _, scanned⟩ := h
  refine Token.not_is_of_body rfl ?_
  rintro rfl
  exact scan_ne_end scanned

/-- **A text that is laid out is read to the tokens of the layout.** -/
theorem Feed.ofCursor_layout {ps : List Piece} (h : Layout.Scans ps []) (l : Location) (s : Text)
    (hs : s.all Cursor.isSpace = true) : ofCursor ⟨l, s ++ Layout.text ps⟩ =
      sealed (Layout.tokens (l.past s) ps) ((l.past s).past (Layout.text ps)) := by
  induction ps generalizing l s with
  | nil =>
    have next : (Cursor.next ⟨l, s ++ []⟩).1 = .ok (.endAt (l.past s)) := by
      unfold Cursor.next
      rw [Cursor.skipTrivia_append hs rfl]
      rfl
    exact ofCursor_end next rfl
  | cons p ps ih =>
    cases p with
    | blank t =>
      have blanks : (s ++ t).all Cursor.isSpace = true := by rw [List.all_append, hs, h.1]; rfl
      have rest := ih h.2 l (s ++ t) blanks
      rwa [Layout.past_append, List.append_assoc, ← Layout.past_append (l.past s)] at rest
    | token body t =>
      have read := Cursor.next_of_scanned (l := l) hs (by simpa using h.1)
      rw [Layout.text_token, ofCursor_token (congrArg Prod.fst read) h.1.not_end, read]
      have rest := ih h.2 ((l.past s).past t) [] rfl
      rw [List.nil_append] at rest
      rw [rest, Layout.past_append]
      rfl

/-- The window on tokens that come to an end shows them, and then the end. -/
theorem Window.exists_ofFeed_sealed (ts : List Token) (l : Location) :
    ∃ w, ofFeed (.sealed ts l) = .ok w ∧ w.Shows (ts ++ [.endAt l, .endAt l]) := by
  obtain ⟨w, hw⟩ : ∃ w, ofFeed (.sealed ts l) = .ok w := by
    match ts with
    | [] => exact ⟨_, rfl⟩
    | [_] => exact ⟨_, rfl⟩
    | _ :: _ :: _ => exact ⟨_, rfl⟩
  refine ⟨w, hw, fun i t hi => ?_⟩
  rw [item_ofFeed hw]
  unfold Feed.item Feed.sealed
  rcases Nat.lt_trichotomy i ts.length with less | rfl | more
  · rw [List.getElem?_append_left less] at hi
    rw [List.getElem?_append_left (by simpa using less), List.getElem?_map, hi]
    rfl
  · rw [List.getElem?_append_right (Nat.le_refl _), Nat.sub_self] at hi
    rw [List.getElem?_append_right (by simp)]
    cases hi
    simp
  · rw [List.getElem?_append_right (by omega)] at hi
    rw [List.getElem?_eq_none (by simp; omega)]
    obtain ⟨k, hk⟩ : ∃ k, i - ts.length = k + 1 := ⟨i - ts.length - 1, by omega⟩
    rw [hk, List.getElem?_cons_succ] at hi
    cases k with
    | zero => cases hi; rfl
    | succ k => cases hi

/-- A text is read to the rules that its tokens spell. -/
theorem exists_parse_of_sealed {source : Text} {rs : List Rule} {ts : List Token} {l : Location}
    (feed : Feed.ofText source = .sealed ts l) (spelled : SpellsRules rs ts [.endAt l, .endAt l]) :
    ∃ d, parse source = .ok d ∧ d.rules = rs := by
  obtain ⟨w, hw, shown⟩ := Window.exists_ofFeed_sealed ts l
  obtain ⟨v, walk, behind⟩ := Window.Steps.of_shows shown
  have ends : v.current.is .endOfInput = true := by rw [behind.current]; rfl
  have start : Window.ofFeed (.ofText source) = .ok w := (congrArg Window.ofFeed feed).trans hw
  have read := parseFeed_of_spells (Feed.ends_ofCursor _) start spelled (Nat.le_refl _) walk behind ends
  exact ⟨_, parse_eq_ok_iff.2 read, rfl⟩

/-- **A text is read to the rules that the tokens of its layout spell.** -/
theorem exists_parse_of_layout {ps : List Piece} {rs : List Rule} (h : Layout.Scans ps [])
    (spelled : SpellsRules rs (Layout.tokens .start ps)
      [.endAt (Location.past .start (Layout.text ps)), .endAt (Location.past .start (Layout.text ps))]) :
    ∃ d, parse (Layout.text ps) = .ok d ∧ d.rules = rs :=
  exists_parse_of_sealed (Feed.ofCursor_layout h .start [] rfl) spelled

/-- Where a text comes to an end, the window on it shows nothing but that. -/
theorem ends_of_shows {w v : Window} {ts : List Token} {c : Cursor} (hw : Window.ofFeed (.ofCursor c) = .ok w)
    (walk : w.Steps ts v) (ends : v.current.is .endOfInput = true) : v.upcoming = v.current := by
  have here : (Feed.ofCursor c).item ts.length = .ok v.current := by
    rw [← Window.item_ofFeed hw, ← Nat.add_zero ts.length, ← walk.item]
    rfl
  have next : (Feed.ofCursor c).item (ts.length + 1) = .ok v.upcoming := by
    rw [← Window.item_ofFeed hw, ← walk.item]
    rfl
  rw [Feed.item_succ_of_end ends here] at next
  exact (Except.ok.inj next).symm

end Cddl
