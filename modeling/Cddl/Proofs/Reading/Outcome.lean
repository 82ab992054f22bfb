import Cddl.Proofs.Reading
/-!
# How a reading can come out

A reader walks over tokens, whether it succeeds or not.  Where it fails, it does so at the token that the walk has led
to, or at the one that could not be read when it moved on from there (`walks_rule`).
-/
namespace Cddl

/-- The ways in which a reading from a window can come out, with the window that it leaves behind. -/
inductive Window.Reaches {α : Type} (w : Window) : Except Fault α × Window → Prop
  | result {a : α} {ts : List Token} {v : Window} (walk : w.Steps ts v) : Reaches w (.ok a, v)
  | mismatch {wanted : Expectation} {ts : List Token} {v : Window} (walk : w.Steps ts v) :
      Reaches w (.error (.mismatch wanted v.current), v)
  | parenthesis {ts : List Token} {v : Window} (walk : w.Steps ts v) (opening : v.current.is .leftParen = true) :
      Reaches w (.error (.parenthesizedBody v.current.location), v)
  | lexical {f : LexFault} {ts : List Token} {u v : Window} (walk : w.Steps ts u) (stuck : u.advance = (.error f, v)) :
      Reaches w (.error (.lexical f), v)

theorem Window.Reaches.after {α : Type} {w u : Window} {ts : List Token} {x : Except Fault α × Window}
    (walk : w.Steps ts u) (h : u.Reaches x) : w.Reaches x := by
  cases h with
  | result more => exact .result (walk.trans more)
  | mismatch more => exact .mismatch (walk.trans more)
  | parenthesis more opening => exact .parenthesis (walk.trans more) opening
  | lexical more stuck => exact .lexical (walk.trans more) stuck

namespace Reader

variable {α β : Type} {r s : Reader α} {f : α → Reader β} {w v : Window}

/-- What a reader does to a window is no more than a walk, which may end at a fault. -/
def Walks (r : Reader α) : Prop := ∀ w : Window, w.Reaches (r.run.run w)

theorem run_get {f : Window → Reader α} (w : Window) : (get >>= f).run.run w = (f w).run.run w := rfl

/-- Moving on fails where the next token cannot be read, and only there. -/
theorem run_advance (w : Window) : advance.run.run w = (w.advance.1.mapError Fault.lexical, w.advance.2) := by
  unfold advance
  rw [run_get]
  generalize w.advance = moved
  obtain ⟨_ | _, v⟩ := moved <;> rfl

namespace Walks

theorem pure (a : α) : (Pure.pure a : Reader α).Walks := fun _ => .result .nil

theorem bind (hr : r.Walks) (hf : ∀ a, (f a).Walks) : (r >>= f).Walks := by
  intro w
  have step : (r >>= f).run.run w = ExceptT.bindCont f (r.run.run w).1 (r.run.run w).2 := rfl
  have first := hr w
  rw [step]
  generalize r.run.run w = x at first
  cases first with
  | result walk => exact (hf _ _).after walk
  | mismatch walk => exact .mismatch walk
  | parenthesis walk opening => exact .parenthesis walk opening
  | lexical walk stuck => exact .lexical walk stuck

theorem map {g : α → β} (hr : r.Walks) : (r >>= fun a => Pure.pure (g a)).Walks := bind hr fun a => pure (g a)

theorem ite {c : Prop} [Decidable c] (hr : r.Walks) (hs : s.Walks) : (if c then r else s).Walks := by
  by_cases h : c
  · rwa [if_pos h]
  · rwa [if_neg h]

theorem current : Reader.current.Walks := fun _ => .result .nil

theorem upcoming : Reader.upcoming.Walks := fun _ => .result .nil

theorem get : (MonadState.get : Reader Window).Walks := fun _ => .result .nil

theorem at? (m : Mark) : (Reader.at? m).Walks := fun _ => .result .nil

theorem spanFrom (l : Location) : (Reader.spanFrom l).Walks := fun _ => .result .nil

theorem fail (wanted : Expectation) : (Reader.fail wanted : Reader α).Walks := fun _ => .mismatch .nil

theorem advance : Reader.advance.Walks := by
  intro w
  rw [run_advance]
  cases moved : w.advance with
  | mk result v =>
    cases result with
    | ok t => exact .result (.one moved)
    | error fault => exact .lexical .nil moved

theorem expect (m : Mark) (wanted : Expectation) : (Reader.expect m wanted).Walks :=
  bind (at? m) fun _ => ite advance (fail wanted)

theorem atMostWhile {test : Token → Bool} (hr : r.Walks) : ∀ n, (Reader.atMostWhile test r n).Walks
  | 0 => pure []
  | n + 1 => bind current fun _ => ite (bind hr fun _ => bind (atMostWhile hr n) fun _ => pure _) (pure [])

theorem manyWhile {test : Token → Bool} (hr : r.Walks) : (Reader.manyWhile test r).Walks :=
  bind get fun _ => atMostWhile hr _

end Walks
end Reader

/-- The readers of what is nested walk. -/
structure Nested.Walks (nested : Nested) : Prop where
  type1 : nested.type1.Walks
  group : nested.group.Walks

namespace Production

open Reader

variable {α : Type} {r : Reader α} {nested : Nested}

/-! ## Names and parameters -/

theorem walks_inAngles (hr : r.Walks) : (inAngles r).Walks :=
  .bind (.expect _ _) fun _ => .bind hr fun _ => .bind (.manyWhile (.bind .advance fun _ => hr)) fun _ =>
    .map (.expect _ _)

theorem walks_genericParams : genericParams.Walks :=
  .bind (walks_inAngles (.map (.expect _ _))) fun _ => .map (.spanFrom _)

theorem walks_genericArgs (hn : nested.Walks) : (genericArgs nested).Walks :=
  .bind (walks_inAngles (.map hn.type1)) fun _ => .map (.spanFrom _)

theorem walks_ifAngle (hr : r.Walks) : (ifAngle r).Walks :=
  .bind (.at? _) fun _ => .ite (.map hr) (.pure _)

/-! ## Types -/

theorem walks_moreChoices {r : Reader Type1} (hr : r.Walks) : (moreChoices r).Walks :=
  .manyWhile (.bind .advance fun _ => .map hr)

theorem walks_typeExpr {r : Reader Type1} (hr : r.Walks) : (typeExpr r).Walks :=
  .bind .current fun _ => .bind hr fun _ => .bind (walks_moreChoices hr) fun _ => .map (.spanFrom _)

theorem walks_closedBy {m : Mark} (hr : r.Walks) : (closedBy m r).Walks :=
  .bind hr fun _ => .map (.expect _ _)

theorem walks_typename (hn : nested.Walks) (t : Token) : (typename nested t).Walks :=
  .bind (walks_ifAngle (walks_genericArgs hn)) fun _ => .map (.spanFrom _)

theorem walks_unwrap (hn : nested.Walks) (start : Location) : (unwrap nested start).Walks :=
  .bind (.expect _ _) fun _ => .bind (walks_ifAngle (walks_genericArgs hn)) fun _ => .map (.spanFrom _)

theorem walks_choiceFrom (hn : nested.Walks) (start : Location) : (choiceFrom nested start).Walks := by
  refine .bind (.at? _) fun _ => .ite ?_ ?_
  · exact .bind .advance fun _ => .bind (walks_closedBy hn.group) fun _ => .map (.spanFrom _)
  · exact .bind (.expect _ _) fun _ => .bind (walks_ifAngle (walks_genericArgs hn)) fun _ =>
      .map (.spanFrom _)

theorem walks_tagged (hn : nested.Walks) (major : Nat) (number : Option Nat) (start : Location) :
    (tagged nested major number start).Walks := by
  have inside : (closedBy .rightParen (typeExpr nested.type1)).Walks := walks_closedBy (walks_typeExpr hn.type1)
  refine .ite (.fail _) (.bind .advance fun _ => .bind (.at? _) fun _ => .ite ?_ ?_)
  · exact .bind .advance fun _ => .bind inside fun _ => .map (.spanFrom _)
  · exact .map (.spanFrom _)

theorem walks_marked (hn : nested.Walks) (m : Mark) (t : Token) : (marked nested m t).Walks := by
  have spanned {α β : Type} {r : Reader α} {f : α → Option Span → β} (hr : r.Walks) :
      (do let _ ← advance; let a ← r; return f a (some (← spanFrom t.location)) : Reader β).Walks :=
    .bind .advance fun _ => .bind hr fun _ => .map (.spanFrom _)
  cases m with
  | name => exact .bind .advance fun _ => walks_typename hn t
  | leftParen => exact spanned (walks_closedBy (walks_typeExpr hn.type1))
  | leftBrace => exact spanned (walks_closedBy hn.group)
  | leftBracket => exact spanned (walks_closedBy hn.group)
  | tilde => exact .bind .advance fun _ => walks_unwrap hn _
  | ampersand => exact .bind .advance fun _ => walks_choiceFrom hn _
  | hash => exact .bind .advance fun _ => .map (.spanFrom _)
  | _ => exact .fail _

theorem walks_type2 (hn : nested.Walks) : (type2 nested).Walks := by
  refine .bind .current fun t => ?_
  cases t.body with
  | value v => exact .bind .advance fun _ => .map (.spanFrom _)
  | tag major number => exact walks_tagged hn major number _
  | range => exact .fail _
  | mark m => exact walks_marked hn m t

theorem walks_operator? (hn : nested.Walks) : (operator? nested).Walks := by
  refine .bind .current fun t => ?_
  cases operatorSymbol? t with
  | none => exact .pure _
  | some symbol => exact .bind .advance fun _ => .bind (walks_type2 hn) fun _ => .map (.spanFrom _)

theorem walks_type1 (hn : nested.Walks) : (type1 nested).Walks := by
  have operands (t : Token) : (do
      let operand ← type2 nested
      let operator ← operator? nested
      return ⟨operand, operator, some (← spanFrom t.location)⟩ : Reader Type1).Walks :=
    .bind (walks_type2 hn) fun _ => .bind (walks_operator? hn) fun _ => .map (.spanFrom _)
  refine .bind .current fun t => ?_
  cases t.body with
  | range => exact .bind .advance fun _ => .map .get
  | _ => exact operands t

/-! ## Occurrences -/

theorem walks_joinedUint (t : Token) : (joinedUint t).Walks := by
  refine .bind .current fun u => ?_
  cases uintAt? t.stop u with
  | none => exact .pure _
  | some n => exact .map .advance

theorem walks_asterisk (lower : Option Int) : (asterisk lower).Walks :=
  .bind .advance fun t => .map (walks_joinedUint t)

theorem walks_occur? : occur?.Walks := by
  refine .bind .current fun t => ?_
  split
  · exact .map .advance
  · exact .map .advance
  · exact .map (walks_asterisk _)
  · exact .bind .upcoming fun _ => .ite (.bind .advance fun _ => .map (walks_asterisk _)) (.pure _)
  · exact .pure _

theorem walks_occurrence? : occurrence?.Walks := by
  refine .bind .current fun _ => .bind walks_occur? fun o => ?_
  cases o with
  | none => exact .pure _
  | some occur => exact .map (.spanFrom _)

/-! ## Groups -/

theorem walks_arrow : arrow.Walks :=
  .bind (.at? _) fun _ => .ite (.bind .advance fun _ => .map (.expect _ _))
    (.map (.expect _ _))

theorem walks_colonKey (t : Type1) : (colonKey t).Walks := by
  unfold colonKey
  cases colonKey? t with
  | none => exact .fail _
  | some key => exact .pure _

theorem walks_keyedEntry (start : Location) (occurrence : Option Occurrence) (key : Option MemberKey)
    (type : TypeExpr) : (keyedEntry start occurrence key type).Walks := .map (.spanFrom _)

variable (hn : nested.Walks) (start : Location) (occurrence : Option Occurrence)
include hn

theorem walks_parenthesizedEntry : (parenthesizedEntry nested start occurrence).Walks := by
  refine .bind .advance fun _ => .bind (walks_closedBy hn.group) fun _ => .bind (.at? _) fun _ =>
    .bind (.at? _) fun _ => .ite ?_ ?_
  · exact .bind walks_arrow fun _ => .bind (walks_typeExpr (walks_type1 hn)) fun _ => walks_keyedEntry _ _ _ _
  · exact .map (.spanFrom _)

theorem walks_keylessEntry (first : Type1) : (keylessEntry nested start occurrence first).Walks := by
  refine .bind (.at? _) fun _ => ?_
  split
  · exact .map (.spanFrom _)
  · exact .bind (walks_moreChoices (walks_type1 hn)) fun _ => .bind (.spanFrom _) fun _ => walks_keyedEntry _ _ _ _

theorem walks_typeEntry : (typeEntry nested start occurrence).Walks := by
  have value {key : MemberKey} : (do
      let type ← typeExpr (type1 nested)
      keyedEntry start occurrence (some key) type : Reader GroupEntry).Walks :=
    .bind (walks_typeExpr (walks_type1 hn)) fun _ => walks_keyedEntry _ _ _ _
  refine .bind (walks_type1 hn) fun first => .bind (.at? _) fun _ => .ite ?_ ?_
  · exact .bind (walks_colonKey first) fun _ => .bind .advance fun _ => value
  refine .bind (.at? _) fun _ => .bind (.at? _) fun _ => .ite ?_ ?_
  · exact .bind walks_arrow fun _ => .bind (.spanFrom _) fun _ => value
  · exact walks_keylessEntry hn start occurrence first

omit start occurrence

theorem walks_groupEntry : (groupEntry nested).Walks :=
  .bind .current fun _ => .bind walks_occurrence? fun _ => .bind (.at? _) fun _ =>
    .ite (walks_parenthesizedEntry hn _ _) (walks_typeEntry hn _ _)

theorem walks_listedEntry : (listedEntry nested).Walks :=
  .bind (walks_groupEntry hn) fun _ => .bind (.at? _) fun _ => .ite (.map .advance) (.pure _)

theorem walks_groupChoice : (groupChoice nested).Walks :=
  .bind .current fun _ => .bind (.manyWhile (walks_listedEntry hn)) fun _ => .map (.spanFrom _)

theorem walks_group : (group nested).Walks :=
  .bind .current fun _ => .bind (walks_groupChoice hn) fun _ =>
    .bind (.manyWhile (.bind .advance fun _ => walks_groupChoice hn)) fun _ => .map (.spanFrom _)

omit hn

/-- At every depth of nesting. -/
theorem walks_nested : ∀ n, (Production.nested n).Walks
  | 0 => ⟨.fail _, .bind .current fun _ => .map (.spanFrom _)⟩
  | n + 1 => ⟨walks_type1 (walks_nested n), walks_group (walks_nested n)⟩

theorem run_closed (production : Nested → Reader α) (w : Window) :
    (closed production).run.run w = (production (Production.nested w.size)).run.run w := run_get w

/-! ## Rules -/

theorem walks_assignment : assignment.Walks := by
  refine .bind .current fun t => ?_
  cases assignment? t with
  | none => exact .fail _
  | some a => exact .map .advance

theorem walks_ruleBody (hn : nested.Walks) (start : Location) (name : Identifier) (params : Option GenericParams)
    (a : Assignment) : (ruleBody nested start name params a).Walks := by
  have choice : (groupBody a).Walks := .bind .current fun _ => .map .upcoming
  refine .bind choice fun _ => .ite ?_ ?_
  · exact .bind (walks_groupEntry hn) fun _ => .map (.spanFrom _)
  · exact .bind (walks_typeExpr (walks_type1 hn)) fun _ => .map (.spanFrom _)

theorem run_at? {m : Mark} {s : Reader α} (w : Window) :
    (do if ← at? m then r else s : Reader α).run.run w = (if w.current.is m then r else s).run.run w := rfl

/-- What is thrown at an opening parenthesis is thrown nowhere else. -/
theorem walks_unparenthesized (hr : r.Walks) :
    (do if ← at? .leftParen then throw (.parenthesizedBody (← current).location) else r : Reader α).Walks := by
  intro w
  rw [run_at?]
  by_cases opening : w.current.is .leftParen = true
  · rw [if_pos opening]
    exact .parenthesis .nil opening
  · rw [if_neg opening]
    exact hr w

/-- A rule after its name, which starts at the given place. -/
theorem walks_named (hn : nested.Walks) (start : Location) (name : Token) : (do
    let params ← ifAngle genericParams
    let a ← assignment
    if ← at? .leftParen then throw (.parenthesizedBody (← current).location)
    else ruleBody nested start (identifier name) params a : Reader Rule).Walks :=
  .bind (walks_ifAngle walks_genericParams) fun _ => .bind walks_assignment fun _ =>
    walks_unparenthesized (walks_ruleBody hn _ _ _ _)

/-- **However the reading of a rule comes out, it has walked to there over tokens.** -/
theorem walks_rule (hn : nested.Walks) : (rule nested).Walks :=
  .bind .current fun _ => .bind (.expect _ _) fun name => walks_named hn _ name

/-- A rule that begins with a name is not given up before the token after the name. -/
theorem rule_of_name (hn : nested.Walks) {w : Window} (name : w.current.is .name = true) :
    (∃ u, w.advance = (.ok w.current, u) ∧ u.Reaches ((rule nested).run.run w)) ∨
      ∃ f u, w.advance = (.error f, u) ∧ (rule nested).run.run w = (.error (.lexical f), u) := by
  have first : (expect .name .ruleName).run.run w = (w.advance.1.mapError Fault.lexical, w.advance.2) := by
    rw [expect, run_at?, if_pos name, run_advance]
  have step : ∃ rest : Token → Reader Rule, (∀ t, (rest t).Walks) ∧ (rule nested).run.run w =
      ExceptT.bindCont rest ((expect .name .ruleName).run.run w).1 ((expect .name .ruleName).run.run w).2 :=
    ⟨_, fun t => walks_named hn _ t, rfl⟩
  obtain ⟨rest, walks, run⟩ := step
  rw [run, first]
  cases moved : w.advance with
  | mk result u =>
    cases result with
    | ok t =>
      obtain rfl := Window.eq_current_of_advance moved
      exact .inl ⟨u, rfl, walks _ u⟩
    | error f => exact .inr ⟨f, u, rfl, rfl⟩

end Production
end Cddl
