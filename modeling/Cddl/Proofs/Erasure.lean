import Cddl.Grammar.Production
import Cddl.Proofs.Text
import Cddl.Schema.Render
/-!
# Trees without places

`erase` takes the spans out of a tree and leaves everything else.  Two trees with the same erasure say the same, and
differ only in where they were read.
-/
namespace Cddl

/-! ## Erasure -/

def Identifier.erase (i : Identifier) : Identifier := { i with span := none }

def Occurrence.erase (o : Occurrence) : Occurrence := { o with span := none }

def GenericParam.erase (p : GenericParam) : GenericParam := ⟨p.param.erase, none⟩

def GenericParams.erase (p : GenericParams) : GenericParams := ⟨p.params.map GenericParam.erase, none⟩

mutual

def TypeExpr.erase : TypeExpr → TypeExpr
  | ⟨choices, _⟩ => ⟨eraseTypeChoices choices, none⟩

def eraseTypeChoices : List TypeChoice → List TypeChoice
  | [] => []
  | c :: cs => c.erase :: eraseTypeChoices cs

def TypeChoice.erase : TypeChoice → TypeChoice
  | ⟨type1, _⟩ => ⟨type1.erase, none⟩

def Type1.erase : Type1 → Type1
  | ⟨operand, operator, _⟩ => ⟨operand.erase, eraseOperator operator, none⟩

def eraseOperator : Option Operator → Option Operator
  | none => none
  | some o => some o.erase

def Operator.erase : Operator → Operator
  | ⟨symbol, operand, _⟩ => ⟨symbol, operand.erase, none⟩

def Type2.erase : Type2 → Type2
  | .literal v _ => .literal v none
  | .typename ident args _ => .typename ident.erase (eraseArgs args) none
  | .parenthesized type _ => .parenthesized type.erase none
  | .map group _ => .map group.erase none
  | .array group _ => .array group.erase none
  | .unwrap ident args _ => .unwrap ident.erase (eraseArgs args) none
  | .choiceFromInlineGroup group _ => .choiceFromInlineGroup group.erase none
  | .choiceFromGroup ident args _ => .choiceFromGroup ident.erase (eraseArgs args) none
  | .tagged tag type _ => .tagged tag type.erase none
  | .major major constraint _ => .major major constraint none
  | .any _ => .any none

def Group.erase : Group → Group
  | ⟨choices, _⟩ => ⟨eraseGroupChoices choices, none⟩

def eraseGroupChoices : List GroupChoice → List GroupChoice
  | [] => []
  | c :: cs => c.erase :: eraseGroupChoices cs

def GroupChoice.erase : GroupChoice → GroupChoice
  | ⟨entries, _⟩ => ⟨eraseListedEntries entries, none⟩

def eraseListedEntries : List ListedEntry → List ListedEntry
  | [] => []
  | e :: es => e.erase :: eraseListedEntries es

def ListedEntry.erase : ListedEntry → ListedEntry
  | ⟨entry, comma⟩ => ⟨entry.erase, comma⟩

def GroupEntry.erase : GroupEntry → GroupEntry
  | .keyed entry _ => .keyed entry.erase none
  | .named entry _ => .named entry.erase none
  | .inline occurrence group _ => .inline (occurrence.map Occurrence.erase) group.erase none

def KeyedEntry.erase : KeyedEntry → KeyedEntry
  | ⟨occurrence, key, type, _⟩ => ⟨occurrence.map Occurrence.erase, eraseKey key, type.erase, none⟩

def eraseKey : Option MemberKey → Option MemberKey
  | none => none
  | some k => some k.erase

def NamedEntry.erase : NamedEntry → NamedEntry
  | ⟨occurrence, name, args, _⟩ => ⟨occurrence.map Occurrence.erase, name.erase, eraseArgs args, none⟩

def MemberKey.erase : MemberKey → MemberKey
  | .type1 type1 cut _ => .type1 type1.erase cut none
  | .bareword ident _ => .bareword ident.erase none
  | .literal v _ => .literal v none
  | .enclosed key _ => .enclosed key.erase none

def NonMemberKey.erase : NonMemberKey → NonMemberKey
  | .group group _ => .group group.erase none
  | .type type _ => .type type.erase none

def eraseArgs : Option GenericArgs → Option GenericArgs
  | none => none
  | some a => some a.erase

def GenericArgs.erase : GenericArgs → GenericArgs
  | ⟨args, _⟩ => ⟨eraseGenericArgs args, none⟩

def eraseGenericArgs : List GenericArg → List GenericArg
  | [] => []
  | a :: as => a.erase :: eraseGenericArgs as

def GenericArg.erase : GenericArg → GenericArg
  | ⟨arg, _⟩ => ⟨arg.erase, none⟩

end

def TypeRule.erase (r : TypeRule) : TypeRule :=
  { r with name := r.name.erase, params := r.params.map GenericParams.erase, value := r.value.erase, span := none }

def GroupRule.erase (r : GroupRule) : GroupRule :=
  { r with name := r.name.erase, params := r.params.map GenericParams.erase, entry := r.entry.erase, span := none }

def RuleBody.erase : RuleBody → RuleBody
  | .type r => .type r.erase
  | .group r => .group r.erase

def Rule.erase (r : Rule) : Rule := ⟨r.body.erase, none⟩

def Document.erase (d : Document) : Document := ⟨d.rules.map Rule.erase, none⟩

/-! ## Names -/

namespace Production

/-- A name is written as it was read. -/
theorem render_identifier (t : Token) : (identifier t).render = t.text := by
  have rest {mark : Text} (h : mark <+: t.text) : mark ++ t.text.drop mark.length = t.text := by
    obtain ⟨tail, split⟩ := h
    rw [← split, List.drop_left]
  unfold identifier
  split
  · exact rest ‹_›
  · split
    · exact rest ‹_›
    · rfl

theorem erase_identifier {t u : Token} (h : t.text = u.text) : (identifier t).erase = (identifier u).erase := by
  unfold identifier
  rw [h]
  split
  · rfl
  · split <;> rfl

theorem erase_identifier_token (t : Token) (body : Token.Body) (l : Location) :
    (identifier ⟨body, t.text, l⟩).erase = (identifier t).erase := erase_identifier rfl

/-! ## Keys before a colon -/

theorem render_colonKey {t : Type1} {key : MemberKey} (h : colonKey? t = some key) : key.render = t.render ++ ":" := by
  obtain ⟨operand, operator, span⟩ := t
  unfold colonKey? at h
  split at h
  · rename_i hop harg
    cases hop
    cases harg
    cases h
    simp [MemberKey.render, Type1.render, Type2.render, renderArgs, renderOperator]
  · rename_i hop harg
    cases hop
    cases harg
    cases h
    simp [MemberKey.render, Type1.render, Type2.render, renderOperator]
  · cases h

end Production

/-! ## Keys in parentheses -/

/-- The entry of a list that has just one. -/
def soleOf? : List ListedEntry → Option GroupEntry
  | [e] => some e.entry
  | _ => none

/-- The entry of a group that has just one. -/
def Group.sole? (g : Group) : Option GroupEntry :=
  match g.choices with
  | [c] => soleOf? c.entries
  | _ => none

/-- The type that an entry amounts to when it stands alone in parentheses as a key. -/
def GroupEntry.type? : GroupEntry → Option TypeExpr
  | .keyed ⟨none, none, type, _⟩ _ => some type
  | .named ⟨none, name, args, span⟩ _ => some (Production.typeOfName name args span)
  | _ => none

theorem render_type? {e : GroupEntry} {type : TypeExpr} (h : e.type? = some type) : type.render = e.render := by
  unfold GroupEntry.type? at h
  split at h <;> cases h
  · simp [GroupEntry.render, KeyedEntry.render, renderOccurrence, renderKey]
  · simp [GroupEntry.render, NamedEntry.render, renderOccurrence, Production.typeOfName, TypeExpr.render,
      renderTypeChoices, TypeChoice.render, Type1.render, Type2.render, renderOperator]

theorem of_soleOf? {es : List ListedEntry} {e : GroupEntry} (h : soleOf? es = some e) : ∃ comma, es = [⟨e, comma⟩] := by
  match es, h with
  | [⟨e', comma⟩], h =>
    cases h
    exact ⟨comma, rfl⟩

theorem of_sole? {g : Group} {e : GroupEntry} (h : g.sole? = some e) : ∃ comma s s', g = ⟨[⟨[⟨e, comma⟩], s⟩], s'⟩ := by
  match g, h with
  | ⟨[⟨es, s⟩], s'⟩, h =>
    obtain ⟨comma, rfl⟩ := of_soleOf? h
    exact ⟨comma, s, s', rfl⟩

namespace Production

theorem enclosedKey_eq (g : Group) :
    enclosedKey g = match g.sole?.bind GroupEntry.type? with
      | some type => .type type g.span
      | none => .group g g.span := by
  obtain ⟨choices, span⟩ := g
  rcases choices with _ | ⟨⟨entries, s⟩, cs⟩
  · rfl
  rcases entries with _ | ⟨⟨e, c⟩, es⟩
  · cases cs <;> rfl
  rcases e with ⟨⟨occurrence, key, type, _⟩, _⟩ | ⟨⟨occurrence, name, args, _⟩, _⟩ | _
  · cases occurrence <;> cases key <;> cases es <;> cases cs <;> rfl
  · cases occurrence <;> cases es <;> cases cs <;> rfl
  · cases es <;> cases cs <;> rfl

end Production

end Cddl
