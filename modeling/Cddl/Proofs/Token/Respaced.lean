import Cddl.Proofs.Relaid
import Cddl.Proofs.Token.Spaced
import Cddl.Proofs.Token.Tiling
/-!
# Tokens with other blanks between them

The text of a token is read to that token wherever a blank or a comment, or nothing at all, stands behind it.  So the
tokens of a text can be written out again with any blanks between them: what is read are the same tokens in other places
(`tokenize_respaced`).
-/
namespace Cddl

open CodeUnit (ofChar)

variable {gap first s r : Text} {texts : List Text} {ts : List Token} {u : CodeUnit}

/-! ## Blanks between tokens -/

/-- White space and comments that end with their line, so that a token may come behind. -/
inductive Separator : Text → Prop
  | nil : Separator []
  | space {u : CodeUnit} {r : Text} (is : u = ofChar ' ' ∨ u = ofChar '\t' ∨ u = ofChar '\r' ∨ u = ofChar '\n')
      (rest : Separator r) : Separator (u :: r)
  | comment {line r : Text} (inside : ∀ u ∈ line, u ≠ ofChar '\n') (rest : Separator r) :
      Separator (ofChar ';' :: (line ++ ofChar '\n' :: r))

/-- Texts written one behind the other, each with a separator behind it that is not empty unless the text is the
last. -/
inductive Respaced : List Text → Text → Prop
  | nil : Respaced [] []
  | cons {t gap s : Text} {texts : List Text} (blank : Separator gap) (apart : texts ≠ [] → gap ≠ [])
      (more : Respaced texts s) : Respaced (t :: texts) (t ++ (gap ++ s))

/-- What is to be written for a list of tokens: the texts of all but the end of input. -/
def writtenTexts (ts : List Token) : List Text := (ts.filter fun t => !t.is .endOfInput).map Token.text

theorem writtenTexts_token {t : Token} (more : t.is .endOfInput = false) :
    writtenTexts (t :: ts) = t.text :: writtenTexts ts := by
  unfold writtenTexts
  rw [List.filter_cons_of_pos (by rw [more, Bool.not_false]), List.map_cons]

theorem writtenTexts_end {t : Token} (ends : t.is .endOfInput = true) : writtenTexts (t :: ts) = writtenTexts ts := by
  unfold writtenTexts
  rw [List.filter_cons_of_neg (by rw [ends, Bool.not_true]; exact Bool.false_ne_true)]

namespace Separator

theorem trivia (h : Separator gap) (after : Text) : Trivia gap after := by
  induction h with
  | nil => exact .nil
  | space is _ ih => exact .space is ih
  | comment inside _ ih =>
    refine .comment inside (fun u first => (Option.some.inj first).symm) (.space ?_ ih)
    exact .inr (.inr (.inr rfl))

theorem mem_separators (h : Separator (u :: r)) : u ∈ separators := by
  cases h with
  | space is =>
    apply Cddl.mem_separators.2
    rcases is with rfl | rfl | rfl | rfl <;> decide
  | comment => exact Cddl.mem_separators.2 (.inr (.inr (.inr (.inr rfl))))

/-- A token may stand behind a separator. -/
theorem isGap (h : Separator gap) (space : Cursor.isSpace u = false) (comment : u ≠ ofChar ';') : Cursor.Gap gap u :=
  fun r => by rw [(h.trivia _).triviaLength, Cursor.triviaLength_token space comment, Nat.add_zero]

end Separator

/-- What comes behind a text that is written out, if anything does, begins with white space or a comment. -/
theorem Respaced.behind (more : Respaced texts s) (blank : Separator gap) (apart : texts ≠ [] → gap ≠ []) :
    ∀ c, (gap ++ s).head? = some c → c ∈ separators := by
  intro c first
  cases gap with
  | nil =>
    cases more with
    | nil => cases first
    | cons => exact absurd rfl (apart (List.cons_ne_nil _ _))
  | cons u gap =>
    cases first
    exact blank.mem_separators

/-! ## Tokens by themselves -/

/-- **The text of a token is a token by itself**, with a separator behind it or nothing. -/
theorem scan_alone {body : Token.Body} {n : Nat} (h : scan u r = .token body n)
    (behind : ∀ c, s.head? = some c → c ∈ separators) : scan u (r.take n ++ s) = .token body n := by
  have length : (r.take n).length = n := List.length_take_of_le (scan_extent h)
  have alone : scan u (r.take n) = .token body n := by
    rw [← List.take_append_drop n r] at h
    exact scan_cut h (Nat.le_of_eq length.symm)
  cases s with
  | nil => rwa [List.append_nil]
  | cons c s => exact scan_break (.inl (behind c rfl)) alone

namespace Cursor

variable {c : Cursor} {l : Location} {fault : Option LexFault}

/-- A token that is read from one text is read from another that has its text, and reading goes on behind it. -/
theorem next_alone {t : Token} (h : c.next.1 = .ok t) (more : t.is .endOfInput = false) (blank : Separator first)
    (behind : ∀ c, s.head? = some c → c ∈ separators) :
    ∃ l', next ⟨l, first ++ (t.text ++ s)⟩ = (.ok { t with location := l.past first }, ⟨l', s⟩) := by
  obtain ⟨place, rest⟩ := c
  obtain ⟨gap, u, r, n, rfl, hg, scanned, here⟩ := exists_gap h more
  obtain ⟨space, comment⟩ := clear_of_gap (hg r)
  have length : (r.take n).length = n := List.length_take_of_le (scan_extent scanned)
  have read := next_of_gap (l := l) (blank.isGap space comment) (scan_alone scanned behind)
  rw [List.take_left' length, List.drop_left' length] at read
  rw [here]
  exact ⟨_, read⟩

/-- **Tokens that are written out with other blanks are read again, up to the end.** -/
theorem Run.respaced (h : c.Run ts fault) (whole : fault = none) : ∀ {l : Location} {first s : Text}, Separator first →
    Respaced (writtenTexts ts) s → ∃ us, Run ⟨l, first ++ s⟩ us none ∧ us.map Token.said = ts.map Token.said := by
  induction h with
  | fault => cases whole
  | @ended c t h ends =>
    intro l first s blank spread
    rw [writtenTexts_end ends] at spread
    obtain ⟨_, own, _⟩ := next_end h ends
    cases spread
    have all : triviaLength false (first ++ []) = first.length := (blank.trivia []).triviaLength
    have read : (next ⟨l, first ++ []⟩).1 = .ok (.endAt (l.past first)) := by
      unfold next
      rw [skipTrivia_eq, all, List.take_left, List.drop_left]
      rfl
    refine ⟨_, .ended read rfl, ?_⟩
    rw [own]
    rfl
  | @token c t ts fault h more _ ih =>
    intro l first s blank spread
    rw [writtenTexts_token more] at spread
    cases spread with
    | cons blank' apart spread =>
      obtain ⟨l', read⟩ := next_alone (l := l) h more blank (spread.behind blank' apart)
      obtain ⟨us, run, said⟩ := ih whole (l := l') blank' spread
      refine ⟨_, .token (congrArg Prod.fst read) more (by rw [read]; exact run), ?_⟩
      rw [List.map_cons, List.map_cons, said]
      rfl

end Cursor

/-- **Tokens are the same with any blanks between them.** -/
theorem tokenize_respaced {source : Text} (h : tokenize source = .ok ts) (blank : Separator first)
    (spread : Respaced (writtenTexts ts) s) :
    ∃ us, tokenize (first ++ s) = .ok us ∧ us.map Token.said = ts.map Token.said := by
  obtain ⟨us, run, said⟩ := (Cursor.Run.of_tokenize h).respaced rfl (l := .start) blank spread
  exact ⟨us, run.tokenize_ok, said⟩

/-- Tokens that stand close, some of which could be read as one, behind a comment and with blanks of every kind. -/
theorem tokenize_respaced_sample : ∃ ts us, tokenize "a=1..b" = .ok ts ∧ Separator ";\n" ∧
    Respaced (writtenTexts ts) "a;x\n= \t1\r\n.. b" ∧ tokenize (";\n" ++ ("a;x\n= \t1\r\n.. b" : Text)) = .ok us ∧
      us.map Token.said = ts.map Token.said := by
  have run : (Cursor.start "a=1..b").Run [_, _, _, _, _, _] none :=
    .token rfl rfl (.token rfl rfl (.token rfl rfl (.token rfl rfl (.token rfl rfl (.ended rfl rfl)))))
  have blank : Separator ";\n" := .comment (List.forall_mem_nil _) .nil
  have space {u : CodeUnit} (is : u = ofChar ' ' ∨ u = ofChar '\t' ∨ u = ofChar '\r' ∨ u = ofChar '\n') :
      Separator [u] :=
    .space is .nil
  have comment : Separator (ofChar ';' :: ([ofChar 'x'] ++ [ofChar '\n'])) :=
    .comment (List.forall_mem_singleton.2 (by decide)) .nil
  have pieces : ("a;x\n= \t1\r\n.. b" : Text) = [ofChar 'a'] ++ ((ofChar ';' :: ([ofChar 'x'] ++ [ofChar '\n'])) ++
      ([ofChar '='] ++ ([ofChar ' ', ofChar '\t'] ++ ([ofChar '1'] ++ ([ofChar '\r', ofChar '\n'] ++
        ([ofChar '.', ofChar '.'] ++ ([ofChar ' '] ++ ([ofChar 'b'] ++ ([] ++ []))))))))) := by decide
  have respaced : Respaced ["a", "=", "1", "..", "b"] "a;x\n= \t1\r\n.. b" := by
    rw [pieces]
    exact .cons comment (fun _ => by decide) <|
      .cons (.space (.inl rfl) (space (.inr (.inl rfl)))) (fun _ => by decide) <|
      .cons (.space (.inr (.inr (.inl rfl))) (space (.inr (.inr (.inr rfl))))) (fun _ => by decide) <|
      .cons (space (.inl rfl)) (fun _ => by decide) <|
      .cons .nil (fun none => absurd rfl none) .nil
  obtain ⟨us, again, said⟩ := tokenize_respaced run.tokenize_ok blank respaced
  exact ⟨_, us, run.tokenize_ok, blank, respaced, again, said⟩

end Cddl
