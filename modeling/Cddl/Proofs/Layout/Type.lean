import Cddl.Proofs.Respan
import Cddl.Proofs.Layout.Writes
import Cddl.Proofs.Phrase.Respelled
/-!
# What is written for a phrase

The text of a phrase has a layout, and wherever that is read again, its tokens spell a phrase that says the same.  A
token looks only at what comes right behind it, and a rule at two tokens, so each phrase can be laid out by itself.
-/
namespace Cddl

open Production

/-- Tokens spell a phrase, up to the spans in it. -/
def SpellsAlike : Phrase → Location → List Token → List Token → Prop
  | .type2 t, pre, ts, after => ∃ t', t'.erase = t.erase ∧ Spells (.type2 t') pre ts after
  | .operator o, pre, ts, after => ∃ o', eraseOperator o' = eraseOperator o ∧ Spells (.operator o') pre ts after
  | .type1 t, pre, ts, after => ∃ t', t'.erase = t.erase ∧ Spells (.type1 t') pre ts after
  | .choices cs, pre, ts, after =>
    ∃ cs', eraseTypeChoices cs' = eraseTypeChoices cs ∧ Spells (.choices cs') pre ts after
  | .type t, pre, ts, after => ∃ t', t'.erase = t.erase ∧ Spells (.type t') pre ts after
  | .args a, pre, ts, after => ∃ a', eraseArgs a' = eraseArgs a ∧ Spells (.args a') pre ts after
  | .moreArgs as, pre, ts, after => ∃ as', eraseGenericArgs as' = eraseGenericArgs as ∧
    Spells (.moreArgs as') pre ts after
  | .entry e, pre, ts, after => ∃ e', e'.erase = e.erase ∧ Spells (.entry e') pre ts after
  | .entries es, pre, ts, after => ∃ es', eraseListedEntries es' = eraseListedEntries es ∧
    Spells (.entries es') pre ts after
  | .groupChoice c, pre, ts, after => ∃ c', c'.erase = c.erase ∧ Spells (.groupChoice c') pre ts after
  | .groupChoices cs, pre, ts, after =>
    ∃ cs', eraseGroupChoices cs' = eraseGroupChoices cs ∧ Spells (.groupChoices cs') pre ts after
  | .group g, pre, ts, after => ∃ g', g'.erase = g.erase ∧ Spells (.group g') pre ts after

/-- A layout of the text of a phrase that the tokens `ts` spell before `after`. -/
structure Phrase.LaidOut (p : Phrase) (ts after : List Token) (ps : List Piece) : Prop extends
    Layout.Writes p.render ps where
  respelled : ∀ l, Respelled ts (Layout.tokens l ps)
  spells : ∀ l pre after', Respelled after after' → SpellsAlike p pre (Layout.tokens l ps) after'

namespace Phrase.LaidOut

variable {p q : Phrase} {pre : Location} {t : Token} {ts us after : List Token} {ps qs : List Piece} {l : Location}

theorem respelled_pair (first : p.LaidOut ts (us ++ after) ps) (more : q.LaidOut us after qs) (l : Location) :
    Respelled (ts ++ us) (Layout.tokens l (ps ++ qs)) := by
  rw [Layout.tokens_append]
  exact (first.respelled _).append (more.respelled _)

end Phrase.LaidOut

open Layout

/-! ## Operands -/

variable {n : Nat} {pre : Location} {t o c : Token} {args : Option GenericArgs} {ts us as os after : List Token}
  {g : Group} {ty : TypeExpr} {s : Option Span} {ps qs : List Piece}

theorem writes_literal {v : Literal} {b : Token.Body} (scanned : ∀ rest, Delimits rest → Scanned b v.render rest) :
    Writes (Phrase.type2 (.literal v s)).render [.token b v.render] := by
  rw [Phrase.render, Type2.render]
  exact .token scanned

theorem laidOut_literal {v : Literal} (body : t.body = .value v) (plain : t.Plain) :
    (Phrase.type2 (.literal v s)).LaidOut [t] after [.token (.value v) v.render] where
  toWrites := by
    unfold Token.Plain at plain
    rw [body] at plain
    exact writes_literal fun _ => scanned_literal plain
  respelled l := .same body.symm .nil
  spells l pre after' _ := by
    refine ⟨_, ?_, .literal rfl⟩
    rfl

/-- A name that was read can be read again, with what may follow it. -/
theorem scanned_plain_name (name : t.is .name = true) (plain : t.Plain) {rest : Text} (hr : Delimits rest) :
    Scanned (.mark .name) t.text rest := by
  unfold Token.Plain at plain
  rw [Token.is_iff.1 name] at plain
  exact scanned_name plain hr

theorem delimits_args {rest : Text} (hr : Delimits rest) : Delimits (renderArgs args ++ rest) := by
  cases args with
  | none => exact hr
  | some a =>
    obtain ⟨as, span⟩ := a
    rw [renderArgs, GenericArgs.render, List.append_assoc, List.append_assoc]
    exact delimits_of_head (by decide) _

/-- A name and its arguments. -/
theorem writes_name (name : t.is .name = true) (plain : t.Plain) (inner : Writes (Phrase.args args).render ps) :
    Writes (t.text ++ renderArgs args) (.token (.mark .name) t.text :: ps) :=
  (Writes.token fun _ => scanned_plain_name name plain).append inner fun _ => delimits_args

theorem writes_typename (name : t.is .name = true) (plain : t.Plain) (inner : Writes (Phrase.args args).render ps) :
    Writes (Phrase.type2 (.typename (identifier t) args s)).render (.token (.mark .name) t.text :: ps) := by
  rw [Phrase.render, Type2.render, render_identifier]
  exact writes_name name plain inner

theorem writes_unwrap (name : t.is .name = true) (plain : t.Plain) (inner : Writes (Phrase.args args).render ps) :
    Writes (Phrase.type2 (.unwrap (identifier t) args s)).render
      (.token (.mark .tilde) "~" :: .token (.mark .name) t.text :: ps) := by
  rw [Phrase.render, Type2.render, render_identifier, List.append_assoc]
  exact .alone (by decide) (writes_name name plain inner)

theorem writes_choiceFromGroup (name : t.is .name = true) (plain : t.Plain)
    (inner : Writes (Phrase.args args).render ps) :
    Writes (Phrase.type2 (.choiceFromGroup (identifier t) args s)).render
      (.token (.mark .ampersand) "&" :: .token (.mark .name) t.text :: ps) := by
  rw [Phrase.render, Type2.render, render_identifier, List.append_assoc]
  exact .alone (by decide) (writes_name name plain inner)

theorem laidOut_typename (name : t.is .name = true) (plain : t.Plain) (inner : (Phrase.args args).LaidOut ts after ps) :
    (Phrase.type2 (.typename (identifier t) args s)).LaidOut (t :: ts) after (.token (.mark .name) t.text :: ps) where
  toWrites := writes_typename name plain inner.toWrites
  respelled l := .mark name (inner.respelled _)
  spells l pre after' same := by
    rw [tokens_token]
    apply Exists.elim (inner.spells _ _ _ same)
    rintro a' ⟨ha, args⟩
    exact ⟨_, by simp only [Type2.erase, ha, erase_identifier_token], .typename rfl args⟩

theorem laidOut_unwrap (opening : o.is .tilde = true) (name : t.is .name = true) (plain : t.Plain)
    (inner : (Phrase.args args).LaidOut ts after ps) :
    (Phrase.type2 (.unwrap (identifier t) args s)).LaidOut (o :: t :: ts) after
      (.token (.mark .tilde) "~" :: .token (.mark .name) t.text :: ps) where
  toWrites := writes_unwrap name plain inner.toWrites
  respelled l := .mark opening (.mark name (inner.respelled _))
  spells l pre after' same := by
    rw [tokens_token, tokens_token]
    apply Exists.elim (inner.spells _ _ _ same)
    rintro a' ⟨ha, args⟩
    exact ⟨_, by simp only [Type2.erase, ha, erase_identifier_token], .unwrap rfl rfl args⟩

theorem laidOut_choiceFromGroup (opening : o.is .ampersand = true) (name : t.is .name = true) (plain : t.Plain)
    (inner : (Phrase.args args).LaidOut ts after ps) :
    (Phrase.type2 (.choiceFromGroup (identifier t) args s)).LaidOut (o :: t :: ts) after
      (.token (.mark .ampersand) "&" :: .token (.mark .name) t.text :: ps) where
  toWrites := writes_choiceFromGroup name plain inner.toWrites
  respelled l := .mark opening (.mark name (inner.respelled _))
  spells l pre after' same := by
    rw [tokens_token, tokens_token]
    apply Exists.elim (inner.spells _ _ _ same)
    rintro a' ⟨ha, args⟩
    exact ⟨_, by simp only [Type2.erase, ha, erase_identifier_token], .choiceFromGroup rfl rfl args⟩

theorem writes_parenthesized (inner : Writes (Phrase.type ty).render ps) :
    Writes (Phrase.type2 (.parenthesized ty s)).render (enclosed .leftParen .rightParen "(" ")" [] ps) := by
  rw [Phrase.render, Type2.render, List.append_assoc]
  exact inner.tight (by decide) (by decide) (by decide)

theorem writes_map (inner : Writes (Phrase.group g).render ps) :
    Writes (Phrase.type2 (.map g s)).render (enclosed .leftBrace .rightBrace "\x7b" "\x7d" " " ps) := by
  have written : (Phrase.type2 (.map g s)).render = "\x7b" ++ (" " ++ (g.render ++ (" " ++ "\x7d"))) := by
    have first : ("\x7b " : Text) = "\x7b" ++ " " := by decide
    have last : (" \x7d" : Text) = " " ++ "\x7d" := by decide
    simp [Phrase.render, Type2.render, first, last]
  rw [written]
  exact inner.enclosed (by decide) (by decide) (by decide) (by decide)

theorem writes_array (inner : Writes (Phrase.group g).render ps) :
    Writes (Phrase.type2 (.array g s)).render (enclosed .leftBracket .rightBracket "[" "]" " " ps) := by
  have written : (Phrase.type2 (.array g s)).render = "[" ++ (" " ++ (g.render ++ (" " ++ "]"))) := by
    have first : ("[ " : Text) = "[" ++ " " := by decide
    have last : (" ]" : Text) = " " ++ "]" := by decide
    simp [Phrase.render, Type2.render, first, last]
  rw [written]
  exact inner.enclosed (by decide) (by decide) (by decide) (by decide)

/-- A group between parentheses. -/
theorem writes_inline (inner : Writes (Phrase.group g).render ps) :
    Writes ("( " ++ g.render ++ " )") (enclosed .leftParen .rightParen "(" ")" " " ps) := by
  have written : "( " ++ g.render ++ " )" = "(" ++ (" " ++ (g.render ++ (" " ++ ")"))) := by
    have first : ("( " : Text) = "(" ++ " " := by decide
    have last : (" )" : Text) = " " ++ ")" := by decide
    simp [first, last]
  rw [written]
  exact inner.enclosed (by decide) (by decide) (by decide) (by decide)

theorem writes_choiceFromInlineGroup (inner : Writes (Phrase.group g).render ps) :
    Writes (Phrase.type2 (.choiceFromInlineGroup g s)).render
      (.token (.mark .ampersand) "&" :: enclosed .leftParen .rightParen "(" ")" " " ps) := by
  have written : (Phrase.type2 (.choiceFromInlineGroup g s)).render = "&" ++ ("( " ++ g.render ++ " )") := by
    have first : ("&( " : Text) = "&" ++ "( " := by decide
    simp [Phrase.render, Type2.render, first]
  rw [written]
  exact .alone (by decide) (writes_inline inner)

theorem writes_tagged {number : Option Nat} (inner : Writes (Phrase.type ty).render ps) :
    Writes (Phrase.type2 (.tagged (number.map Int.ofNat) ty s)).render
      (.token (.tag 6 number) ("#6" ++ renderDotted (number.map Int.ofNat)) ::
        enclosed .leftParen .rightParen "(" ")" [] ps) := by
  have written : (Phrase.type2 (.tagged (number.map Int.ofNat) ty s)).render =
      (Text.ofString "#6" ++ renderDotted (number.map Int.ofNat)) ++ ("(" ++ (ty.render ++ ")")) := by
    simp [Phrase.render, Type2.render]
  rw [written]
  refine (Writes.token fun _ => scanned_tag 6 number).append ?_ fun rest _ => ?_
  · exact inner.tight (by decide) (by decide) (by decide)
  · rw [List.append_assoc]
    exact delimits_of_head (by decide) _

theorem writes_major (major : Nat) (number : Option Nat) :
    Writes (Phrase.type2 (.major major (number.map Int.ofNat) s)).render
      [.token (.tag major number)
        (CodeUnit.ofChar '#' :: (Text.ofNat major ++ renderDotted (number.map Int.ofNat)))] := by
  have written : (Phrase.type2 (.major major (number.map Int.ofNat) s)).render =
      CodeUnit.ofChar '#' :: (Text.ofNat major ++ renderDotted (number.map Int.ofNat)) := by
    have mark : ("#" : Text) = [CodeUnit.ofChar '#'] := by decide
    simp [Phrase.render, Type2.render, mark, Text.ofInt_natCast]
  rw [written]
  exact .token fun _ => scanned_tag major number

theorem writes_any : Writes (Phrase.type2 (.any s)).render [.token (.mark .hash) "#"] := by
  rw [Phrase.render, Type2.render]
  exact .token fun _ => scanned_hash

/-- An operand that is written between brackets. -/
theorem laidOut_bracketed {p : Phrase} {x : Type2} {m m' : Mark} {f f' gap : Text} (opening : o.is m = true)
    (inner : p.LaidOut ts (c :: after) ps) (closing : c.is m' = true)
    (writes : Writes (Phrase.type2 x).render (enclosed m m' f f' gap ps))
    (told : ∀ {pre u u' ts after}, u.is m = true → u'.is m' = true → SpellsAlike p u.stop ts (u' :: after) →
      SpellsAlike (.type2 x) pre (u :: (ts ++ [u'])) after) :
    (Phrase.type2 x).LaidOut (o :: (ts ++ [c])) after (enclosed m m' f f' gap ps) where
  toWrites := writes
  respelled l := by
    rw [tokens_enclosed]
    exact .mark opening ((inner.respelled _).append (.mark closing .nil))
  spells l pre after' same := by
    rw [tokens_enclosed]
    exact told (Token.is_iff.2 rfl) (Token.is_iff.2 rfl) (inner.spells _ _ _ (.mark closing same))

theorem laidOut_parenthesized (opening : o.is .leftParen = true) (inner : (Phrase.type ty).LaidOut ts (c :: after) ps)
    (closing : c.is .rightParen = true) : (Phrase.type2 (.parenthesized ty s)).LaidOut (o :: (ts ++ [c])) after
      (enclosed .leftParen .rightParen "(" ")" [] ps) := by
  refine laidOut_bracketed opening inner closing (writes_parenthesized inner.toWrites) ?_
  rintro pre u u' ts after hu hu' ⟨ty', hty, type⟩
  exact ⟨_, by simp only [Type2.erase, hty], .parenthesized hu type hu'⟩

theorem laidOut_map (opening : o.is .leftBrace = true) (inner : (Phrase.group g).LaidOut ts (c :: after) ps)
    (closing : c.is .rightBrace = true) : (Phrase.type2 (.map g s)).LaidOut (o :: (ts ++ [c])) after
      (enclosed .leftBrace .rightBrace "\x7b" "\x7d" " " ps) := by
  refine laidOut_bracketed opening inner closing (writes_map inner.toWrites) ?_
  rintro pre u u' ts after hu hu' ⟨g', hg, group⟩
  exact ⟨_, by simp only [Type2.erase, hg], .map hu group hu'⟩

theorem laidOut_array (opening : o.is .leftBracket = true) (inner : (Phrase.group g).LaidOut ts (c :: after) ps)
    (closing : c.is .rightBracket = true) : (Phrase.type2 (.array g s)).LaidOut (o :: (ts ++ [c])) after
      (enclosed .leftBracket .rightBracket "[" "]" " " ps) := by
  refine laidOut_bracketed opening inner closing (writes_array inner.toWrites) ?_
  rintro pre u u' ts after hu hu' ⟨g', hg, group⟩
  exact ⟨_, by simp only [Type2.erase, hg], .array hu group hu'⟩

theorem laidOut_choiceFromInlineGroup {x : Token} (mark : x.is .ampersand = true) (opening : o.is .leftParen = true)
    (inner : (Phrase.group g).LaidOut ts (c :: after) ps) (closing : c.is .rightParen = true) :
    (Phrase.type2 (.choiceFromInlineGroup g s)).LaidOut (x :: o :: (ts ++ [c])) after
      (.token (.mark .ampersand) "&" :: enclosed .leftParen .rightParen "(" ")" " " ps) where
  toWrites := writes_choiceFromInlineGroup inner.toWrites
  respelled l := by
    rw [tokens_token, tokens_enclosed]
    exact .mark mark (.mark opening ((inner.respelled _).append (.mark closing .nil)))
  spells l pre after' same := by
    rw [tokens_token, tokens_enclosed]
    apply Exists.elim (inner.spells _ _ _ (.mark closing same))
    rintro g' ⟨hg, group⟩
    exact ⟨_, by simp only [Type2.erase, hg], .choiceFromInlineGroup rfl rfl group rfl⟩

theorem laidOut_tagged {x : Token} {number : Option Nat} (body : x.body = .tag 6 number)
    (opening : o.is .leftParen = true) (inner : (Phrase.type ty).LaidOut ts (c :: after) ps)
    (closing : c.is .rightParen = true) :
    (Phrase.type2 (.tagged (number.map Int.ofNat) ty s)).LaidOut (x :: o :: (ts ++ [c])) after
      (.token (.tag 6 number) ("#6" ++ renderDotted (number.map Int.ofNat)) ::
        enclosed .leftParen .rightParen "(" ")" [] ps) where
  toWrites := writes_tagged inner.toWrites
  respelled l := by
    rw [tokens_token, tokens_enclosed]
    exact .same body.symm (.mark opening ((inner.respelled _).append (.mark closing .nil)))
  spells l pre after' same := by
    rw [tokens_token, tokens_enclosed]
    apply Exists.elim (inner.spells _ _ _ (.mark closing same))
    rintro ty' ⟨hty, type⟩
    exact ⟨_, by simp only [Type2.erase, hty], .tagged rfl rfl type rfl⟩

theorem laidOut_major {major : Nat} {number : Option Nat} (body : t.body = .tag major number) (bound : major ≤ 7)
    (free : major = 6 → nextIs .leftParen after = false) :
    (Phrase.type2 (.major major (number.map Int.ofNat) s)).LaidOut [t] after
      [.token (.tag major number)
        (CodeUnit.ofChar '#' :: (Text.ofNat major ++ renderDotted (number.map Int.ofNat)))] where
  toWrites := writes_major major number
  respelled l := .same body.symm .nil
  spells l pre after' same := by
    refine ⟨_, ?_, .major rfl bound fun six => same.not_next (by decide) (free six)⟩
    rfl

theorem laidOut_any (mark : t.is .hash = true) :
    (Phrase.type2 (.any s)).LaidOut [t] after [.token (.mark .hash) "#"] where
  toWrites := writes_any
  respelled l := .mark mark .nil
  spells l pre after' _ := by
    refine ⟨_, ?_, .any rfl⟩
    rfl

/-! ## Operators and types -/

variable {x : Type2} {op : Option Operator} {t₁ : Type1} {cs : List TypeChoice} {as : List GenericArg}
  {symbol : RangeOrControl}

theorem render_operatorSymbol (mark : operatorSymbol? t = some symbol) (plain : t.Plain) : symbol.render = t.text := by
  unfold operatorSymbol? at mark
  unfold Token.Plain at plain
  split at mark
  · rename_i isRange
    cases mark
    rw [Token.is_iff.1 isRange] at plain
    rcases plain with text | text
    · rw [text]; rfl
    · rw [text]; rfl
  · split at mark
    · rename_i isControl
      cases mark
      rw [Token.is_iff.1 isControl] at plain
      obtain ⟨name, text, _⟩ := plain
      rw [text]
      rfl
    · cases mark

theorem scanned_operator (mark : operatorSymbol? t = some symbol) (plain : t.Plain) {rest : Text} :
    Scanned t.body t.text (text (.blank " " :: ps) ++ rest) := by
  unfold Token.Plain at plain
  rcases is_of_operatorSymbol? mark with is | is
  · rw [Token.is_iff.1 is] at plain ⊢
    rcases plain with text | text
    · rw [text]
      exact scanned_spaced (by decide)
    · rw [text]
      exact scanned_spaced (by decide)
  · rw [Token.is_iff.1 is] at plain ⊢
    obtain ⟨name, text, named⟩ := plain
    rw [text]
    exact scanned_control named (delimits_blank (by decide))

theorem laidOut_noOperator (free : nextIsOperator after = false) : (Phrase.operator none).LaidOut [] after [] where
  toWrites := .nil
  respelled _ := .nil
  spells _ _ _ same := ⟨none, rfl, .noOperator (same.not_nextIsOperator free)⟩

theorem writes_someOperator (mark : operatorSymbol? t = some symbol) (plain : t.Plain)
    (inner : Writes (Phrase.type2 x).render ps) : Writes (Phrase.operator (some ⟨symbol, x, s⟩)).render
      (.blank " " :: .token t.body t.text :: .blank " " :: ps) where
  text := by
    have operand : text ps = x.render := inner.text
    simp [Phrase.render, renderOperator, Operator.render, operand, render_operatorSymbol mark plain]
  scans rest hr := by
    have operand := scans_blank (t := " ") (by decide) (inner.scans rest hr)
    exact scans_blank (by decide) (scans_token (scanned_operator mark plain) operand)

theorem laidOut_someOperator (mark : operatorSymbol? t = some symbol) (plain : t.Plain)
    (inner : (Phrase.type2 x).LaidOut ts after ps) :
    (Phrase.operator (some ⟨symbol, x, s⟩)).LaidOut (t :: ts) after
      (.blank " " :: .token t.body t.text :: .blank " " :: ps) where
  toWrites := writes_someOperator mark plain inner.toWrites
  respelled l := .same rfl (inner.respelled _)
  spells l pre after' same := by
    rw [tokens_blank, tokens_token, tokens_blank]
    apply Exists.elim (inner.spells _ _ _ same)
    rintro x' ⟨hx, operand⟩
    exact ⟨_, by simp only [eraseOperator, Operator.erase, hx], .someOperator mark operand⟩

/-- The pieces of a range: two literals, each with what it is read to, and an operator between them. -/
def rangePieces (lower upper : Literal) (b b' : Token.Body) (inclusive : Bool) : List Piece :=
  [.token b lower.render, .blank " ", .token (.mark .rangeOperator) (RangeOrControl.range inclusive).render,
    .blank " ", .token b' upper.render]

theorem writes_range {lower upper : Literal} {b b' : Token.Body} {inclusive : Bool} {stop : Location}
    (scanned : ∀ rest, Delimits rest → Scanned b lower.render rest)
    (scanned' : ∀ rest, Delimits rest → Scanned b' upper.render rest) :
    Writes (Phrase.type1 (rangeType1 t lower upper inclusive stop)).render
      (rangePieces lower upper b b' inclusive) := by
  have written : (Phrase.type1 (rangeType1 t lower upper inclusive stop)).render =
      lower.render ++ (" " ++ ((RangeOrControl.range inclusive).render ++ (" " ++ upper.render))) := by
    simp [Phrase.render, Type1.render, rangeType1, Type2.render, renderOperator, Operator.render]
  have stands : Scan.standsOut (RangeOrControl.range inclusive).render " " .rangeOperator = true := by
    cases inclusive <;> decide
  rw [written]
  refine (Writes.token scanned).append (.spaced stands (.token scanned')) fun rest _ => ?_
  rw [List.append_assoc]
  exact delimits_of_head (by decide) _

/-- A range in one token is written with blanks, and read as three. -/
theorem laidOut_range {lower upper : Literal} {inclusive : Bool} {stop : Location}
    (body : t.body = .range lower upper inclusive) (plain : t.Plain) :
    (Phrase.type1 (rangeType1 t lower upper inclusive stop)).LaidOut [t] after
      (rangePieces lower upper (.value lower) (.value upper) inclusive) where
  toWrites := by
    unfold Token.Plain at plain
    rw [body] at plain
    exact writes_range (fun _ => scanned_literal plain.1) (fun _ => scanned_literal plain.2)
  respelled l := .range body rfl rfl rfl .nil
  spells l pre after' same := by
    have mark (l : Location) : operatorSymbol? ⟨.mark .rangeOperator, (RangeOrControl.range inclusive).render, l⟩ =
        some (.range inclusive) := by cases inclusive <;> rfl
    refine ⟨_, ?_, .operands (.literal rfl) (.someOperator (mark _) (.literal rfl))⟩
    rfl

theorem delimits_operator {rest : Text} (hr : Delimits rest) : Delimits (renderOperator op ++ rest) := by
  cases op with
  | none => exact hr
  | some o =>
    rw [renderOperator, List.append_assoc]
    exact delimits_of_head (by decide) _

theorem writes_operands (operand : Writes (Phrase.type2 x).render ps)
    (operator : Writes (Phrase.operator op).render qs) : Writes (Phrase.type1 ⟨x, op, s⟩).render (ps ++ qs) := by
  rw [Phrase.render, Type1.render]
  exact operand.append operator fun _ => delimits_operator

theorem laidOut_operands (operand : (Phrase.type2 x).LaidOut ts (us ++ after) ps)
    (operator : (Phrase.operator op).LaidOut us after qs) :
    (Phrase.type1 ⟨x, op, s⟩).LaidOut (ts ++ us) after (ps ++ qs) where
  toWrites := writes_operands operand.toWrites operator.toWrites
  respelled := operand.respelled_pair operator
  spells l pre after' same := by
    rw [tokens_append]
    apply Exists.elim (operand.spells _ _ _ ((operator.respelled _).append same))
    rintro x' ⟨hx, first⟩
    apply Exists.elim (operator.spells _ _ _ same)
    rintro op' ⟨hop, second⟩
    exact ⟨_, by simp only [Type1.erase, hx, hop], .operands first second⟩

theorem laidOut_noChoices (free : nextIs .typeChoice after = false) : (Phrase.choices []).LaidOut [] after [] where
  toWrites := .nil
  respelled _ := .nil
  spells _ _ _ same := ⟨[], rfl, .noChoices (same.not_next (by decide) free)⟩

/-- A type and more after what stands between them. -/
theorem writes_types (first : Writes (Phrase.type1 t₁).render ps) (more : Writes (Phrase.choices cs).render qs) :
    Writes (t₁.render ++ (Phrase.choices cs).render) (ps ++ qs) :=
  first.append more fun _ => delimits_flatMap (by decide) _

theorem writes_moreChoices (first : Writes (Phrase.type1 t₁).render ps) (more : Writes (Phrase.choices cs).render qs) :
    Writes (Phrase.choices (typeChoice t₁ :: cs)).render
      (.blank " " :: .token (.mark .typeChoice) "/" :: .blank " " :: (ps ++ qs)) := by
  have written : (Phrase.choices (typeChoice t₁ :: cs)).render =
      " " ++ ("/" ++ (" " ++ (t₁.render ++ (Phrase.choices cs).render))) := by
    have separator : (" / " : Text) = " " ++ ("/" ++ " ") := by decide
    simp [Phrase.render, renderTypeChoices, TypeChoice.render, typeChoice, separator]
  rw [written]
  exact .spaced (by decide) (writes_types first more)

theorem laidOut_moreChoices (mark : t.is .typeChoice = true) (first : (Phrase.type1 t₁).LaidOut ts (us ++ after) ps)
    (more : (Phrase.choices cs).LaidOut us after qs) :
    (Phrase.choices (typeChoice t₁ :: cs)).LaidOut (t :: (ts ++ us)) after
      (.blank " " :: .token (.mark .typeChoice) "/" :: .blank " " :: (ps ++ qs)) where
  toWrites := writes_moreChoices first.toWrites more.toWrites
  respelled l := .mark mark (first.respelled_pair more _)
  spells l pre after' same := by
    rw [tokens_blank, tokens_token, tokens_blank, tokens_append]
    apply Exists.elim (first.spells _ _ _ ((more.respelled _).append same))
    rintro t' ⟨ht, type1⟩
    apply Exists.elim (more.spells _ _ _ same)
    rintro cs' ⟨hcs, choices⟩
    exact ⟨_, by simp only [eraseTypeChoices, TypeChoice.erase, typeChoice, ht, hcs], .moreChoices rfl type1 choices⟩

theorem writes_type (first : Writes (Phrase.type1 t₁).render ps) (more : Writes (Phrase.choices cs).render qs) :
    Writes (Phrase.type ⟨typeChoice t₁ :: cs, s⟩).render (ps ++ qs) := by
  have written : (Phrase.type ⟨typeChoice t₁ :: cs, s⟩).render = t₁.render ++ (Phrase.choices cs).render := by
    simp [Phrase.render, TypeExpr.render, renderTypeChoices, TypeChoice.render, typeChoice, Text.join_cons]
  rw [written]
  exact writes_types first more

theorem laidOut_type (first : (Phrase.type1 t₁).LaidOut ts (us ++ after) ps)
    (more : (Phrase.choices cs).LaidOut us after qs) :
    (Phrase.type ⟨typeChoice t₁ :: cs, s⟩).LaidOut (ts ++ us) after (ps ++ qs) where
  toWrites := writes_type first.toWrites more.toWrites
  respelled := first.respelled_pair more
  spells l pre after' same := by
    rw [tokens_append]
    apply Exists.elim (first.spells _ _ _ ((more.respelled _).append same))
    rintro t' ⟨ht, type1⟩
    apply Exists.elim (more.spells _ _ _ same)
    rintro cs' ⟨hcs, choices⟩
    exact ⟨_, by simp only [TypeExpr.erase, eraseTypeChoices, TypeChoice.erase, typeChoice, ht, hcs],
      .type type1 choices⟩

/-! ## Arguments -/

theorem laidOut_noArgs (free : nextIs .leftAngle after = false) : (Phrase.args none).LaidOut [] after [] where
  toWrites := .nil
  respelled _ := .nil
  spells _ _ _ same := ⟨none, rfl, .noArgs (same.not_next (by decide) free)⟩

theorem laidOut_noMoreArgs (free : nextIs .comma after = false) : (Phrase.moreArgs []).LaidOut [] after [] where
  toWrites := .nil
  respelled _ := .nil
  spells _ _ _ same := ⟨[], rfl, .noMoreArgs (same.not_next (by decide) free)⟩

/-- An argument and more after what stands between them. -/
theorem writes_listed (first : Writes (Phrase.type1 t₁).render ps) (more : Writes (Phrase.moreArgs as).render qs) :
    Writes (t₁.render ++ (Phrase.moreArgs as).render) (ps ++ qs) :=
  first.append more fun _ => delimits_flatMap (by decide) _

theorem writes_moreArgs {s : Option Span} (first : Writes (Phrase.type1 t₁).render ps)
    (more : Writes (Phrase.moreArgs as).render qs) : Writes (Phrase.moreArgs (⟨t₁, s⟩ :: as)).render
      (.token (.mark .comma) "," :: .blank " " :: (ps ++ qs)) := by
  have written : (Phrase.moreArgs (⟨t₁, s⟩ :: as)).render =
      "," ++ (" " ++ (t₁.render ++ (Phrase.moreArgs as).render)) := by
    have separator : (", " : Text) = "," ++ " " := by decide
    simp [Phrase.render, renderGenericArgs, GenericArg.render, separator]
  rw [written]
  exact .alone (by decide) (.blank (by decide) (writes_listed first more))

theorem laidOut_moreArgs (mark : t.is .comma = true) (first : (Phrase.type1 t₁).LaidOut ts (us ++ after) ps)
    (more : (Phrase.moreArgs as).LaidOut us after qs) :
    (Phrase.moreArgs (⟨t₁, t₁.span⟩ :: as)).LaidOut (t :: (ts ++ us)) after
      (.token (.mark .comma) "," :: .blank " " :: (ps ++ qs)) where
  toWrites := writes_moreArgs first.toWrites more.toWrites
  respelled l := .mark mark (first.respelled_pair more _)
  spells l pre after' same := by
    rw [tokens_token, tokens_blank, tokens_append]
    apply Exists.elim (first.spells _ _ _ ((more.respelled _).append same))
    rintro t' ⟨ht, type1⟩
    apply Exists.elim (more.spells _ _ _ same)
    rintro as' ⟨has, args⟩
    exact ⟨_, by simp only [eraseGenericArgs, GenericArg.erase, ht, has], .moreArgs rfl type1 args⟩

theorem writes_someArgs {s' : Option Span} (first : Writes (Phrase.type1 t₁).render ps)
    (more : Writes (Phrase.moreArgs as).render qs) : Writes (Phrase.args (some ⟨⟨t₁, s'⟩ :: as, s⟩)).render
      (enclosed .leftAngle .rightAngle "<" ">" [] (ps ++ qs)) := by
  have written : (Phrase.args (some ⟨⟨t₁, s'⟩ :: as, s⟩)).render =
      "<" ++ (t₁.render ++ (Phrase.moreArgs as).render ++ ">") := by
    simp [Phrase.render, renderArgs, GenericArgs.render, renderGenericArgs, GenericArg.render, Text.join_cons]
  rw [written]
  exact (writes_listed first more).tight (by decide) (by decide) (by decide)

theorem laidOut_someArgs {s' : Option Span} (opening : o.is .leftAngle = true)
    (first : (Phrase.type1 t₁).LaidOut ts (us ++ c :: after) ps)
    (more : (Phrase.moreArgs as).LaidOut us (c :: after) qs) (closing : c.is .rightAngle = true) :
    (Phrase.args (some ⟨⟨t₁, s'⟩ :: as, s⟩)).LaidOut (o :: (ts ++ us ++ [c])) after
      (enclosed .leftAngle .rightAngle "<" ">" [] (ps ++ qs)) where
  toWrites := writes_someArgs first.toWrites more.toWrites
  respelled l := by
    rw [tokens_enclosed]
    exact .mark opening ((first.respelled_pair more _).append (.mark closing .nil))
  spells l pre after' same := by
    rw [tokens_enclosed, tokens_append]
    apply Exists.elim (first.spells _ _ _ ((more.respelled _).append (.mark closing same)))
    rintro t' ⟨ht, type1⟩
    apply Exists.elim (more.spells _ _ _ (.mark closing same))
    rintro as' ⟨has, args⟩
    exact ⟨_, by simp only [eraseArgs, GenericArgs.erase, eraseGenericArgs, GenericArg.erase, ht, has],
      .someArgs rfl type1 args rfl⟩

end Cddl
