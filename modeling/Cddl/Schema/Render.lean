import Cddl.Binary64.Shortest
import Cddl.Schema
/-!
# Nodes as text

A node on one line, for diagnostics and listings: comments, layout and the spelling of numbers are gone, and every token
that carries meaning is kept.
-/
namespace Cddl

/-! ## Literals -/

/-- A unit of text as it stands between quotes. -/
def CodeUnit.textEscaped (u : CodeUnit) : Text :=
  if u = '\\' then "\\\\"
  else if u = '"' then "\\\""
  else if u = '\n' then "\\n"
  else if u = '\t' then "\\t"
  else if u = '\r' then "\\r"
  else [u]

def renderText (content : Text) : Text := "\"" ++ content.flatMap CodeUnit.textEscaped ++ "\""

/-- A unit of a byte string as it stands between quotes. -/
def CodeUnit.bytesEscaped (u : CodeUnit) : Text := if u = '\'' then "\\'" else [u]

def ByteEncoding.mark : ByteEncoding → Text
  | .utf8 => []
  | .base16 => "h"
  | .base64 => "b64"

def renderBytes (encoding : ByteEncoding) (content : Text) : Text :=
  encoding.mark ++ "'" ++ content.flatMap CodeUnit.bytesEscaped ++ "'"

/-- Whether a text would be read as an integer. -/
def looksWhole (t : Text) : Bool :=
  let digits := if t.head? = some '-' then t.drop 1 else t
  digits ≠ [] && digits.all CodeUnit.isDigit

/-- A number with a fraction or exponent, so that it reads as a floating-point number. -/
def renderFloat (x : Binary64) : Text :=
  let t := x.toText
  if looksWhole t then t ++ ".0" else t

def Literal.render : Literal → Text
  | .int n => Text.ofInt n
  | .uint n => Text.ofInt n
  | .float x => renderFloat x
  | .text content => renderText content
  | .bytes encoding content => renderBytes encoding content

/-! ## Names and occurrences -/

def Socket.render : Socket → Text
  | .type => "$"
  | .group => "$$"

def Identifier.render (i : Identifier) : Text := (i.socket.map Socket.render).getD [] ++ i.name

def GenericParams.render (p : GenericParams) : Text :=
  "<" ++ Text.join ", " (p.params.map fun param => param.param.render) ++ ">"

/-- A number that may be missing. -/
def renderBound (n : Option Int) : Text := (n.map Text.ofInt).getD []

def Occurrence.render (o : Occurrence) : Text :=
  match o.occur with
  | .optional => "?"
  | .zeroOrMore => "*"
  | .oneOrMore => "+"
  | .between lower upper => renderBound lower ++ "*" ++ renderBound upper

/-- An occurrence in front of an entry. -/
def renderOccurrence : Option Occurrence → Text
  | some o => o.render ++ " "
  | none => []

/-- A number after a dot, where there is one. -/
def renderDotted : Option Int → Text
  | some n => "." ++ Text.ofInt n
  | none => []

def RangeOrControl.render : RangeOrControl → Text
  | .range inclusive => if inclusive then ".." else "..."
  | .control name => "." ++ name

/-! ## Types and groups -/

mutual

def TypeExpr.render : TypeExpr → Text
  | ⟨choices, _⟩ => Text.join " / " (renderTypeChoices choices)

def renderTypeChoices : List TypeChoice → List Text
  | [] => []
  | c :: cs => c.render :: renderTypeChoices cs

def TypeChoice.render : TypeChoice → Text
  | ⟨type1, _⟩ => type1.render

def Type1.render : Type1 → Text
  | ⟨operand, operator, _⟩ => operand.render ++ renderOperator operator

/-- The operator and second operand after a first one. -/
def renderOperator : Option Operator → Text
  | none => []
  | some o => " " ++ o.render

def Operator.render : Operator → Text
  | ⟨symbol, operand, _⟩ => symbol.render ++ " " ++ operand.render

def Type2.render : Type2 → Text
  | .literal v _ => v.render
  | .typename ident args _ => ident.render ++ renderArgs args
  | .parenthesized type _ => "(" ++ type.render ++ ")"
  | .map group _ => "\x7b " ++ group.render ++ " \x7d"
  | .array group _ => "[ " ++ group.render ++ " ]"
  | .unwrap ident args _ => "~" ++ ident.render ++ renderArgs args
  | .choiceFromInlineGroup group _ => "&( " ++ group.render ++ " )"
  | .choiceFromGroup ident args _ => "&" ++ ident.render ++ renderArgs args
  | .tagged tag type _ => "#6" ++ renderDotted tag ++ "(" ++ type.render ++ ")"
  | .major major constraint _ => "#" ++ Text.ofInt major ++ renderDotted constraint
  | .any _ => "#"

def Group.render : Group → Text
  | ⟨choices, _⟩ => Text.join " // " (renderGroupChoices choices)

def renderGroupChoices : List GroupChoice → List Text
  | [] => []
  | c :: cs => c.render :: renderGroupChoices cs

def GroupChoice.render : GroupChoice → Text
  | ⟨entries, _⟩ => Text.join " " (renderListedEntries entries)

def renderListedEntries : List ListedEntry → List Text
  | [] => []
  | e :: es => e.render :: renderListedEntries es

def ListedEntry.render : ListedEntry → Text
  | ⟨entry, comma⟩ => entry.render ++ (if comma then ("," : Text) else [])

def GroupEntry.render : GroupEntry → Text
  | .keyed entry _ => entry.render
  | .named entry _ => entry.render
  | .inline occurrence group _ => renderOccurrence occurrence ++ "( " ++ group.render ++ " )"

def KeyedEntry.render : KeyedEntry → Text
  | ⟨occurrence, key, type, _⟩ => renderOccurrence occurrence ++ renderKey key ++ type.render

/-- A key in front of a type. -/
def renderKey : Option MemberKey → Text
  | none => []
  | some k => k.render ++ " "

def NamedEntry.render : NamedEntry → Text
  | ⟨occurrence, name, args, _⟩ => renderOccurrence occurrence ++ name.render ++ renderArgs args

def MemberKey.render : MemberKey → Text
  | .type1 type1 cut _ => type1.render ++ (if cut then (" ^" : Text) else []) ++ " =>"
  | .bareword ident _ => ident.render ++ ":"
  | .literal v _ => v.render ++ ":"
  | .enclosed key _ => key.render ++ " =>"

def NonMemberKey.render : NonMemberKey → Text
  | .group group _ => "(" ++ group.render ++ ")"
  | .type type _ => "(" ++ type.render ++ ")"

def renderArgs : Option GenericArgs → Text
  | none => []
  | some a => a.render

def GenericArgs.render : GenericArgs → Text
  | ⟨args, _⟩ => "<" ++ Text.join ", " (renderGenericArgs args) ++ ">"

def renderGenericArgs : List GenericArg → List Text
  | [] => []
  | a :: as => a.render :: renderGenericArgs as

def GenericArg.render : GenericArg → Text
  | ⟨arg, _⟩ => arg.render

end

/-! ## Rules -/

/-- The name and parameters that a rule begins with. -/
def renderHead (name : Identifier) (params : Option GenericParams) : Text :=
  name.render ++ (params.map GenericParams.render).getD []

def TypeRule.render (r : TypeRule) : Text :=
  renderHead r.name r.params ++ " " ++ (if r.adds then "/=" else "=") ++ " " ++ r.value.render

def GroupRule.render (r : GroupRule) : Text :=
  renderHead r.name r.params ++ " " ++ (if r.adds then "//=" else "=") ++ " " ++ r.entry.render

def Rule.render (r : Rule) : Text :=
  match r.body with
  | .type r => r.render
  | .group r => r.render

/-! ## Listings -/

/-- What a rule defines, in words. -/
def Rule.describe (r : Rule) : Text :=
  match r.body with
  | .type r => if r.adds then "type choice alternate" else "type rule"
  | .group r => if r.adds then "group choice alternate" else "group rule"

/-- A line for each rule: what it defines, in a column of 22, and its text. -/
def Document.summary (d : Document) : List Text :=
  d.rules.map fun r => r.describe.padRight 22 ++ " " ++ r.render

end Cddl
