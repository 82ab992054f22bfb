import Cddl.Proofs.Phrase.Rule
import Cddl.Proofs.Token.Plain
/-!
# Texts in pieces

`Layout.Writes t ps` says that the pieces `ps` make up the text `t` and are read again, whatever comes behind that
delimits them.  What is written for a phrase is put together from what is written for its parts.
-/
namespace Cddl

open Production

/-- The text that a phrase is written as. -/
def Phrase.render : Phrase → Text
  | .type2 t => t.render
  | .operator o => renderOperator o
  | .type1 t => t.render
  | .choices cs => (renderTypeChoices cs).flatMap fun t => " / " ++ t
  | .type t => t.render
  | .args a => renderArgs a
  | .moreArgs as => (renderGenericArgs as).flatMap fun t => ", " ++ t
  | .entry e => e.render
  | .entries es => Text.join " " (renderListedEntries es)
  | .groupChoice c => c.render
  | .groupChoices cs => (renderGroupChoices cs).flatMap fun t => " // " ++ t
  | .group g => g.render

variable {m m' : Mark} {s s' gap t rest : Text} {body : Token.Body} {ps qs : List Piece} {l : Location}

theorem delimits_of_head (h : t.head?.any delimiters.contains = true) (s : Text) : Delimits (t ++ s) := by
  cases t with
  | nil => cases h
  | cons u t => exact delimits_cons (List.contains_iff_mem.1 h)

/-- Alternatives, arguments and groups after a first one begin with what stands between them. -/
theorem delimits_flatMap {separator : Text} (h : separator.head?.any delimiters.contains = true) (ts : List Text)
    {rest : Text} (hr : Delimits rest) : Delimits ((ts.flatMap fun t => separator ++ t) ++ rest) := by
  cases ts with
  | nil => exact hr
  | cons t ts =>
    rw [List.flatMap_cons, List.append_assoc, List.append_assoc]
    exact delimits_of_head h _

namespace Layout

theorem scans_nil : Scans [] rest := trivial

theorem scans_token (h : Scanned body t (text ps ++ rest)) (more : Scans ps rest) : Scans (.token body t :: ps) rest :=
  ⟨h, more⟩

theorem scans_blank (h : t.all Cursor.isSpace = true) (more : Scans ps rest) : Scans (.blank t :: ps) rest := ⟨h, more⟩

theorem delimits_token (h : t.head?.any delimiters.contains = true) :
    Delimits (text (.token body t :: ps) ++ rest) := by
  rw [text_token, List.append_assoc]
  exact delimits_of_head h _

theorem delimits_blank (h : t.head?.any delimiters.contains = true) : Delimits (text (.blank t :: ps) ++ rest) := by
  rw [text_blank, List.append_assoc]
  exact delimits_of_head h _

theorem scanned_alone (h : Scan.standsOut s [] m = true) : Scanned (.mark m) s rest := scanned_symbol h

theorem scanned_spaced (h : Scan.standsOut s gap m = true) : Scanned (.mark m) s (text (.blank gap :: ps) ++ rest) := by
  rw [text_blank, List.append_assoc]
  exact scanned_symbol h

/-- Pieces between two marks, with a gap within each. -/
def enclosed (m m' : Mark) (s s' gap : Text) (ps : List Piece) : List Piece :=
  .token (.mark m) s :: .blank gap :: (ps ++ [.blank gap, .token (.mark m') s'])

theorem text_enclosed : text (enclosed m m' s s' gap ps) = s ++ (gap ++ (text ps ++ (gap ++ s'))) := by
  simp [enclosed]

theorem tokens_enclosed : tokens l (enclosed m m' s s' gap ps) = ⟨.mark m, s, l⟩ ::
    (tokens ((l.past s).past gap) ps ++ [⟨.mark m', s', (((l.past s).past gap).past (text ps)).past gap⟩]) := by
  simp [enclosed]

theorem scans_enclosed (opening : Scan.standsOut s [] m = true) (closing : Scan.standsOut s' [] m' = true)
    (space : gap.all Cursor.isSpace = true) (behind : (gap ++ s').head?.any delimiters.contains = true)
    (inner : ∀ rest, Delimits rest → Scans ps rest) : Scans (enclosed m m' s s' gap ps) rest := by
  have closed : Scans [.blank gap, .token (.mark m') s'] rest :=
    scans_blank space (scans_token (scanned_alone closing) scans_nil)
  refine scans_token (scanned_alone opening) (scans_blank space (scans_append.2 ⟨inner _ ?_, closed⟩))
  rw [text_blank, text_token, text_nil, List.append_nil]
  exact delimits_of_head behind rest

/-! ## Pieces of a text -/

/-- Pieces that make up a text and are read again in front of what delimits them. -/
structure Writes (t : Text) (ps : List Piece) : Prop where
  text : text ps = t
  scans : ∀ rest, Delimits rest → Scans ps rest

namespace Writes

theorem nil : Writes [] [] := ⟨rfl, fun _ _ => scans_nil⟩

theorem token (scanned : ∀ rest, Delimits rest → Scanned body t rest) : Writes t [.token body t] :=
  ⟨List.append_nil t, fun rest hr => scans_token (scanned rest hr) scans_nil⟩

theorem blank (space : gap.all Cursor.isSpace = true) (more : Writes t ps) : Writes (gap ++ t) (.blank gap :: ps) :=
  ⟨by rw [text_blank, more.text], fun rest hr => scans_blank space (more.scans rest hr)⟩

/-- A symbol that can be told from whatever follows. -/
theorem alone (stands : Scan.standsOut s [] m = true)
    (more : Writes t ps) : Writes (s ++ t) (.token (.mark m) s :: ps) :=
  ⟨by rw [text_token, more.text], fun rest hr => scans_token (scanned_alone stands) (more.scans rest hr)⟩

/-- A symbol with a blank on either side. -/
theorem spaced (stands : Scan.standsOut s " " m = true) (more : Writes t ps) :
    Writes (" " ++ (s ++ (" " ++ t))) (.blank " " :: .token (.mark m) s :: .blank " " :: ps) where
  text := by rw [text_blank, text_token, text_blank, more.text]
  scans rest hr := by
    have behind := scans_blank (t := " ") (by decide) (more.scans rest hr)
    exact scans_blank (by decide) (scans_token (scanned_spaced stands) behind)

theorem append (first : Writes s ps) (more : Writes t qs) (behind : ∀ rest, Delimits rest → Delimits (t ++ rest)) :
    Writes (s ++ t) (ps ++ qs) where
  text := by rw [text_append, first.text, more.text]
  scans rest hr := by
    refine scans_append.2 ⟨first.scans _ ?_, more.scans rest hr⟩
    rw [more.text]
    exact behind rest hr

theorem enclosed (inner : Writes t ps) (opening : Scan.standsOut s [] m = true)
    (closing : Scan.standsOut s' [] m' = true) (space : gap.all Cursor.isSpace = true)
    (behind : (gap ++ s').head?.any delimiters.contains = true) :
    Writes (s ++ (gap ++ (t ++ (gap ++ s')))) (enclosed m m' s s' gap ps) :=
  ⟨by rw [text_enclosed, inner.text], fun _ _ => scans_enclosed opening closing space behind inner.scans⟩

/-- Nothing stands between the marks and what they enclose. -/
theorem tight (inner : Writes t ps) (opening : Scan.standsOut s [] m = true) (closing : Scan.standsOut s' [] m' = true)
    (behind : s'.head?.any delimiters.contains = true) : Writes (s ++ (t ++ s')) (Layout.enclosed m m' s s' [] ps) := by
  show Writes (s ++ (([] : Text) ++ (t ++ (([] : Text) ++ s')))) _
  exact inner.enclosed opening closing rfl behind

end Writes
end Layout
end Cddl
