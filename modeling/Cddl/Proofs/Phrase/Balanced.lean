import Cddl.Proofs.Phrase
/-!
# Parentheses in pairs

Every parenthesis that a phrase is spelled with is one of a pair (`Spells.balanced`).  Which parenthesis closes another
one is a matter of the tokens alone: behind what is balanced there is one place to look (`Balanced.append_inj`).  So the
tokens tell whether all of them are in parentheses, and in how many (`Enclosed`).
-/
namespace Cddl

/-- Whether a token is a parenthesis. -/
def Token.isParen (t : Token) : Bool := t.is .leftParen || t.is .rightParen

/-- Tokens in which each parenthesis is one of a pair. -/
inductive Balanced : List Token → Prop
  | nil : Balanced []
  | other {t : Token} (free : t.isParen = false) : Balanced [t]
  | append {ts us : List Token} (first : Balanced ts) (rest : Balanced us) : Balanced (ts ++ us)
  | pair {o c : Token} {ts : List Token} (opening : o.is .leftParen = true) (inside : Balanced ts)
      (closing : c.is .rightParen = true) : Balanced (o :: (ts ++ [c]))

/-- Tokens in a number of pairs of parentheses; what is in all of them does not begin with another. -/
inductive Enclosed : Nat → List Token → Prop
  | bare {ts : List Token} (start : nextIs .leftParen ts = false) : Enclosed 0 ts
  | pair {n : Nat} {o c : Token} {ts : List Token} (opening : o.is .leftParen = true) (inside : Balanced ts)
      (within : Enclosed n ts) (closing : c.is .rightParen = true) : Enclosed (n + 1) (o :: (ts ++ [c]))

variable {t o c d : Token} {m : Mark} {ts us rest rest' after : List Token} {pre : Location}

/-! ## What is no parenthesis -/

theorem Token.not_paren_of_is (h : t.is m = true) (hm : m ≠ .leftParen ∧ m ≠ .rightParen) : t.isParen = false := by
  rw [isParen, Token.not_is h hm.1, Token.not_is h hm.2]
  rfl

theorem Token.not_paren_of_value {v : Literal} (h : t.body = .value v) : t.isParen = false := by
  rw [isParen, Token.not_is_of_value h, Token.not_is_of_value h]
  rfl

theorem Token.not_paren_of_tag {major : Nat} {number : Option Nat} (h : t.body = .tag major number) :
    t.isParen = false := by
  rw [isParen, Token.not_is_of_tag h, Token.not_is_of_tag h]
  rfl

theorem Token.not_paren_of_range {lower upper : Literal} {inclusive : Bool}
    (h : t.body = .range lower upper inclusive) : t.isParen = false := by
  rw [isParen, Token.not_is_of_range h, Token.not_is_of_range h]
  rfl

/-! ## The parenthesis that closes another -/

/-- What is behind the parenthesis that closes the one before some tokens, of which as many more as given are closed
first. -/
def behindParen : Nat → List Token → Option (List Token)
  | _, [] => none
  | n, t :: ts =>
    if t.is .leftParen then behindParen (n + 1) ts
    else if t.is .rightParen then
      match n with
      | 0 => some ts
      | n + 1 => behindParen n ts
    else behindParen n ts

variable {n : Nat}

theorem behindParen_other (free : t.isParen = false) : behindParen n (t :: ts) = behindParen n ts := by
  obtain ⟨left, right⟩ := Bool.or_eq_false_iff.1 free
  cases n <;> rw [behindParen, if_neg (Bool.eq_false_iff.1 left), if_neg (Bool.eq_false_iff.1 right)]

theorem behindParen_opening (opening : o.is .leftParen = true) :
    behindParen n (o :: ts) = behindParen (n + 1) ts := by
  cases n <;> rw [behindParen, if_pos opening]

theorem behindParen_closing (closing : c.is .rightParen = true) : behindParen 0 (c :: ts) = some ts := by
  rw [behindParen, if_neg (Bool.eq_false_iff.1 (Token.not_is closing (by decide))), if_pos closing]

theorem behindParen_closing_inner (closing : c.is .rightParen = true) :
    behindParen (n + 1) (c :: ts) = behindParen n ts := by
  rw [behindParen, if_neg (Bool.eq_false_iff.1 (Token.not_is closing (by decide))), if_pos closing]

namespace Balanced

theorem cons (free : t.isParen = false) (h : Balanced ts) : Balanced (t :: ts) := .append (.other free) h

/-- A pair of marks other than parentheses. -/
theorem between (opening : o.isParen = false) (inside : Balanced ts) (closing : c.isParen = false) :
    Balanced (o :: (ts ++ [c])) := cons opening (inside.append (.other closing))

/-- No parenthesis in what is balanced closes one before it. -/
theorem behindParen_append (h : Balanced ts) (n : Nat) (after : List Token) :
    behindParen n (ts ++ after) = behindParen n after := by
  induction h generalizing n after with
  | nil => rfl
  | other free => exact behindParen_other free
  | append _ _ ih ih' => rw [List.append_assoc, ih, ih']
  | pair opening _ closing ih =>
    rw [List.cons_append, behindParen_opening opening, List.append_assoc, ih, List.singleton_append,
      behindParen_closing_inner closing]

/-- **A parenthesis is closed in one place.** -/
theorem append_inj (h : Balanced ts) (h' : Balanced us) (closing : c.is .rightParen = true)
    (closing' : d.is .rightParen = true) (same : ts ++ c :: rest = us ++ d :: rest') :
    ts = us ∧ c = d ∧ rest = rest' := by
  have behind : rest = rest' := by
    have found : behindParen 0 (ts ++ c :: rest) = some rest := by
      rw [h.behindParen_append, behindParen_closing closing]
    rw [same, h'.behindParen_append, behindParen_closing closing'] at found
    exact (Option.some.inj found).symm
  obtain ⟨inside, tail⟩ := List.append_inj' same (by rw [behind, List.length_cons, List.length_cons])
  exact ⟨inside, (List.cons.inj tail).1, behind⟩

end Balanced

/-! ## What phrases are spelled with -/

theorem SpellsOccurrence.balanced {oc : Option Occurrence} (h : SpellsOccurrence oc ts after) : Balanced ts := by
  cases h with
  | none => exact .nil
  | optional mark => exact .other (Token.not_paren_of_is mark (by decide))
  | oneOrMore mark => exact .other (Token.not_paren_of_is mark (by decide))
  | zeroOrMore mark => exact .other (Token.not_paren_of_is mark (by decide))
  | upTo mark upper =>
    exact .cons (Token.not_paren_of_is mark (by decide)) (.other (Token.not_paren_of_value (body_of_uintAt? upper).1))
  | atLeast lower mark =>
    exact .cons (Token.not_paren_of_value lower) (.other (Token.not_paren_of_is mark (by decide)))
  | fromTo lower mark upper =>
    exact .cons (Token.not_paren_of_value lower) (.cons (Token.not_paren_of_is mark (by decide))
      (.other (Token.not_paren_of_value (body_of_uintAt? upper).1)))

theorem SpellsArrow.balanced {cut : Bool} (h : SpellsArrow cut ts) : Balanced ts := by
  cases h with
  | plain arrow => exact .other (Token.not_paren_of_is arrow (by decide))
  | cut mark arrow =>
    exact .cons (Token.not_paren_of_is mark (by decide)) (.other (Token.not_paren_of_is arrow (by decide)))

theorem Token.not_paren_of_operatorSymbol? {s : RangeOrControl} (h : Production.operatorSymbol? t = some s) :
    t.isParen = false :=
  (is_of_operatorSymbol? h).elim (Token.not_paren_of_is · (by decide)) (Token.not_paren_of_is · (by decide))

/-- **In what a phrase is spelled with, each parenthesis is one of a pair.** -/
theorem Spells.balanced {p : Phrase} (h : Spells p pre ts after) : Balanced ts := by
  induction h with
  | literal body => exact .other (Token.not_paren_of_value body)
  | typename name _ ih => exact .cons (Token.not_paren_of_is name (by decide)) ih
  | parenthesized opening _ closing ih => exact .pair opening ih closing
  | map opening _ closing ih | array opening _ closing ih =>
    exact .between (Token.not_paren_of_is opening (by decide)) ih (Token.not_paren_of_is closing (by decide))
  | unwrap opening name _ ih | choiceFromGroup opening name _ ih =>
    exact .cons (Token.not_paren_of_is opening (by decide)) (.cons (Token.not_paren_of_is name (by decide)) ih)
  | choiceFromInlineGroup mark opening _ closing ih =>
    exact .cons (Token.not_paren_of_is mark (by decide)) (.pair opening ih closing)
  | tagged body opening _ closing ih => exact .cons (Token.not_paren_of_tag body) (.pair opening ih closing)
  | major body => exact .other (Token.not_paren_of_tag body)
  | any mark => exact .other (Token.not_paren_of_is mark (by decide))
  | someOperator mark _ ih => exact .cons (Token.not_paren_of_operatorSymbol? mark) ih
  | range body => exact .other (Token.not_paren_of_range body)
  | moreChoices mark _ _ ih ih' | moreArgs mark _ _ ih ih' | moreGroupChoices mark _ _ ih ih' =>
    exact .cons (Token.not_paren_of_is mark (by decide)) (ih.append ih')
  | someArgs opening _ _ closing ih ih' =>
    exact .between (Token.not_paren_of_is opening (by decide)) (ih.append ih')
      (Token.not_paren_of_is closing (by decide))
  | inlineEntry occurrence opening _ closing _ ih => exact occurrence.balanced.append (.pair opening ih closing)
  | enclosedEntry occurrence opening _ closing arrow _ ih ih' =>
    have behind := (Balanced.pair opening ih closing).append (arrow.balanced.append ih')
    rw [List.cons_append, List.append_assoc, List.singleton_append] at behind
    exact occurrence.balanced.append behind
  | colonEntry occurrence _ _ mark _ _ ih ih' =>
    exact occurrence.balanced.append (ih.append (.cons (Token.not_paren_of_is mark (by decide)) ih'))
  | arrowEntry occurrence _ _ arrow _ ih ih' =>
    exact occurrence.balanced.append (ih.append (arrow.balanced.append ih'))
  | namedEntry occurrence _ _ _ ih => exact occurrence.balanced.append ih
  | keylessEntry occurrence _ _ _ _ _ ih ih' => exact occurrence.balanced.append (ih.append ih')
  | commaEntry _ mark _ ih ih' => exact ih.append (.cons (Token.not_paren_of_is mark (by decide)) ih')
  | groupChoice _ ih => exact ih
  | operands _ _ ih ih' | type _ _ ih ih' | plainEntry _ _ _ ih ih' | group _ _ ih ih' => exact ih.append ih'
  | noOperator | noChoices | noArgs | noMoreArgs | noEntries | noGroupChoices => exact .nil

end Cddl
