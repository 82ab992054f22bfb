import Cddl.Proofs.Layout
import Cddl.Schema.Render
/-!
# What tokens say

A token says a word, and a range in one token says three.  How a number or a string is spelled is no part of a word, nor
where it stands.  `Keeps ts ws` says that the words are those of the tokens, but for a comma at the end of a key in
parentheses and a cut behind it, which may be missing.
-/
namespace Cddl

/-- The marks that are read from more than one text. -/
def Mark.varies (m : Mark) : Bool := [.name, .control, .rangeOperator].contains m

/-- What is said by a token that is no range. -/
inductive Word where
  | mark (m : Mark)
  /-- A name or an operator, which is told from others by its text. -/
  | named (m : Mark) (t : Text)
  /-- An integer, signed or not. -/
  | number (n : Int)
  | float (x : Binary64)
  | text (content : Text)
  | bytes (encoding : ByteEncoding) (content : Text)
  | tag (major : Nat) (number : Option Nat)
  deriving DecidableEq

def Literal.word : Literal → Word
  | .int n => .number n
  | .uint n => .number n
  | .float x => .float x
  | .text content => .text content
  | .bytes encoding content => .bytes encoding content

/-- What a text says that is read to a body. -/
def Token.Body.words (b : Body) (t : Text) : List Word :=
  match b with
  | .mark m => [if m.varies then .named m t else .mark m]
  | .value v => [v.word]
  | .range lower upper inclusive =>
    [lower.word, .named .rangeOperator (RangeOrControl.range inclusive).render, upper.word]
  | .tag major number => [.tag major number]

def Token.words (t : Token) : List Word := t.body.words t.text

theorem Token.Body.words_mark {m : Mark} (hm : m.varies = false) (t : Text) : (mark m).words t = [.mark m] := by
  rw [words, hm]
  rfl

theorem Token.Body.words_named {m : Mark} (hm : m.varies = true) (t : Text) : (mark m).words t = [.named m t] := by
  rw [words, hm]
  rfl

/-- Whether an arrow is next, perhaps behind a cut. -/
def beginsArrow (ts : List Token) : Bool := nextIs .arrow ts || (nextIs .cut ts && nextIs .arrow ts.tail)

/-- Some words are what some tokens say, but for a comma before a closing parenthesis that an arrow comes behind, and a
cut between the two. -/
inductive Keeps : List Token → List Word → Prop
  | nil : Keeps [] []
  | token (t : Token) {ts : List Token} {ws : List Word} (more : Keeps ts ws) : Keeps (t :: ts) (t.words ++ ws)
  | comma {k c : Token} {ts : List Token} {ws : List Word} (comma : k.is .comma = true)
      (closing : c.is .rightParen = true) (arrow : beginsArrow ts = true) (more : Keeps (c :: ts) ws) :
      Keeps (k :: c :: ts) ws
  | cut {c k a : Token} {ts : List Token} {ws : List Word} (closing : c.is .rightParen = true)
      (cut : k.is .cut = true) (arrow : a.is .arrow = true) (more : Keeps (a :: ts) ws) :
      Keeps (c :: k :: a :: ts) (c.words ++ ws)

/-- Whether a comma or a cut stands where it may be missing from the words. -/
def mayLose : List Token → Bool
  | [] => false
  | t :: ts => (t.is .comma && nextIs .rightParen ts && beginsArrow ts.tail) ||
    (t.is .rightParen && nextIs .cut ts && nextIs .arrow ts.tail) || mayLose ts

variable {t c : Token} {ts us as : List Token} {ws vs : List Word} {m : Mark} {s : Text} {body : Token.Body}
  {cut : Bool}

theorem beginsArrow_append (h : beginsArrow ts = true) : beginsArrow (ts ++ us) = true := by
  unfold beginsArrow at h ⊢
  match ts, h with
  | [t], h =>
    have arrow : nextIs .arrow [t] = true := by simpa [nextIs] using h
    exact Bool.or_eq_true_iff.2 (.inl arrow)
  | _ :: _ :: _, h => exact h

namespace Keeps

theorem append (h : Keeps ts ws) (h' : Keeps us vs) : Keeps (ts ++ us) (ws ++ vs) := by
  induction h with
  | nil => exact h'
  | token t _ ih =>
    rw [List.append_assoc]
    exact .token t ih
  | @comma k c ts ws comma closing arrow _ ih =>
    exact .comma comma closing (beginsArrow_append arrow) ih
  | cut closing cut arrow _ ih =>
    rw [List.append_assoc]
    exact .cut closing cut arrow ih

/-- A token with a body that says the same. -/
theorem same (h : t.words = body.words s) (more : Keeps ts ws) : Keeps (t :: ts) (body.words s ++ ws) :=
  h ▸ .token t more

theorem mark (h : t.is m = true) (hm : m.varies = false) (more : Keeps ts ws) : Keeps (t :: ts) (.mark m :: ws) := by
  have word : t.words = [.mark m] := by rw [Token.words, Token.is_iff.1 h, Token.Body.words_mark hm]
  have kept := Keeps.token t more
  rwa [word] at kept

theorem name (h : t.is m = true) (hm : m.varies = true) (more : Keeps ts ws) :
    Keeps (t :: ts) (.named m t.text :: ws) := by
  have word : t.words = [.named m t.text] := by rw [Token.words, Token.is_iff.1 h, Token.Body.words_named hm]
  have kept := Keeps.token t more
  rwa [word] at kept

theorem single (t : Token) : Keeps [t] t.words := by
  have kept := Keeps.token t .nil
  rwa [List.append_nil] at kept

/-- **Where no comma and no cut can go missing, nothing does.** -/
theorem eq_words (h : Keeps ts ws) (all : mayLose ts = false) : ws = ts.flatMap Token.words := by
  induction h with
  | nil => rfl
  | token t _ ih =>
    rw [mayLose, Bool.or_eq_false_iff] at all
    rw [List.flatMap_cons, ih all.2]
  | comma comma closing arrow =>
    simp [mayLose, nextIs, comma, closing, arrow] at all
  | cut closing cut arrow =>
    simp [mayLose, nextIs, closing, cut, arrow] at all

end Keeps

/-! ## Keys in parentheses -/

theorem SpellsArrow.begins (h : SpellsArrow cut as) : beginsArrow (as ++ us) = true := by
  cases h with
  | plain arrow => simp [beginsArrow, nextIs, arrow]
  | cut mark arrow => simp [beginsArrow, nextIs, mark, arrow]

/-- The end of a key in parentheses keeps no cut. -/
theorem SpellsArrow.keeps_behind (h : SpellsArrow cut as) (closing : c.is .rightParen = true) (more : Keeps us ws) :
    Keeps (c :: (as ++ us)) (.mark .rightParen :: .mark .arrow :: ws) := by
  cases h with
  | plain arrow => exact .mark closing (by decide) (.mark arrow (by decide) more)
  | cut mark arrow =>
    have word : c.words = [.mark .rightParen] := by
      rw [Token.words, Token.is_iff.1 closing, Token.Body.words_mark (by decide)]
    have kept : Keeps _ (c.words ++ .mark .arrow :: ws) := .cut closing mark arrow (.mark arrow (by decide) more)
    rwa [word] at kept

/-- A comma at the end of a key in parentheses is not kept either. -/
theorem SpellsArrow.keeps_comma {cs : List Token} (h : SpellsArrow cut as)
    (hcs : cs = [] ∨ ∃ k, cs = [k] ∧ k.is .comma = true) (closing : c.is .rightParen = true) (more : Keeps us ws) :
    Keeps (cs ++ c :: (as ++ us)) (.mark .rightParen :: .mark .arrow :: ws) := by
  rcases hcs with rfl | ⟨k, rfl, comma⟩
  · exact h.keeps_behind closing more
  · exact .comma comma closing h.begins (h.keeps_behind closing more)

/-! ## Words of a layout -/

namespace Layout

variable {gap : Text} {m' : Mark} {s' : Text} {ps qs : List Piece} {l : Location}

/-- What the pieces of a text say. -/
def words : List Piece → List Word
  | [] => []
  | .blank _ :: ps => words ps
  | .token body t :: ps => body.words t ++ words ps

@[simp] theorem words_nil : words [] = [] := rfl

@[simp] theorem words_blank : words (.blank s :: ps) = words ps := rfl

@[simp] theorem words_token : words (.token body s :: ps) = body.words s ++ words ps := rfl

@[simp] theorem words_append : words (ps ++ qs) = words ps ++ words qs := by
  induction ps with
  | nil => rfl
  | cons p ps ih =>
    cases p with
    | blank t => exact ih
    | token body t => rw [List.cons_append, words_token, ih, words_token, List.append_assoc]

/-- The tokens of a layout say what its pieces do, wherever it begins. -/
theorem flatMap_words (l : Location) (ps : List Piece) : (tokens l ps).flatMap Token.words = words ps := by
  induction ps generalizing l with
  | nil => rfl
  | cons p ps ih =>
    cases p with
    | blank t => exact ih _
    | token body t => rw [tokens_token, List.flatMap_cons, ih, words_token, Token.words]

end Layout
end Cddl
