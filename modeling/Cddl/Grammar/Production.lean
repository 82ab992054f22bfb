import Cddl.Grammar.Window
import Cddl.Schema
/-!
# The productions of the grammar

Types and groups contain each other, but only behind a token that opens the inner one.  So each production is given the
readers of what may be nested in it, and `nested` ties the knot by the depth of nesting, which the number of tokens
bounds.
-/
namespace Cddl

/-- Readers of what may stand inside brackets. -/
structure Nested where
  type1 : Reader Type1
  group : Reader Group

namespace Production

open Reader

/-! ## Names and parameters -/

/-- A name, with the socket that it starts with split off. -/
def identifier (t : Token) : Identifier :=
  if Text.ofString "$$" <+: t.text then ⟨t.text.drop 2, some .group, some t.span⟩
  else if Text.ofString "$" <+: t.text then ⟨t.text.drop 1, some .type, some t.span⟩
  else ⟨t.text, none, some t.span⟩

/-- One or more items with commas between them, in angle brackets; the place of the opening one and the items. -/
def inAngles {α : Type} (item : Reader α) : Reader (Location × List α) := do
  let opening ← expect .leftAngle .argumentStart
  let first ← item
  let others ← manyWhile (·.is .comma) (do let _ ← advance; item)
  let _ ← expect .rightAngle .argumentEnd
  return (opening.location, first :: others)

def genericParam : Reader GenericParam := do
  let name := identifier (← expect .name .parameterName)
  return ⟨name, name.span⟩

def genericParams : Reader GenericParams := do
  let (start, params) ← inAngles genericParam
  return ⟨params, some (← spanFrom start)⟩

def genericArg (nested : Nested) : Reader GenericArg := do
  let arg ← nested.type1
  return ⟨arg, arg.span⟩

def genericArgs (nested : Nested) : Reader GenericArgs := do
  let (start, args) ← inAngles (genericArg nested)
  return ⟨args, some (← spanFrom start)⟩

/-- What a reader reads from an opening angle bracket on, if there is one. -/
def ifAngle {α : Type} (r : Reader α) : Reader (Option α) := do
  if ← at? .leftAngle then return some (← r) else return none

/-! ## Types -/

def typeChoice (type1 : Type1) : TypeChoice := ⟨type1, type1.span⟩

/-- The alternatives after a first one. -/
def moreChoices (type1 : Reader Type1) : Reader (List TypeChoice) :=
  manyWhile (·.is .typeChoice) do
    let _ ← advance
    return typeChoice (← type1)

def typeExpr (type1 : Reader Type1) : Reader TypeExpr := do
  let start := (← current).location
  let first ← type1
  let others ← moreChoices type1
  return ⟨typeChoice first :: others, some (← spanFrom start)⟩

/-- A group or type up to the mark that closes it. -/
def closedBy {α : Type} (m : Mark) (r : Reader α) : Reader α := do
  let a ← r
  let _ ← expect m (.closing m)
  return a

/-- A type that begins with a name, after the name. -/
def typename (nested : Nested) (t : Token) : Reader Type2 := do
  let args ← ifAngle (genericArgs nested)
  return .typename (identifier t) args (some (← spanFrom t.location))

/-- A type that begins with `~`, after that. -/
def unwrap (nested : Nested) (start : Location) : Reader Type2 := do
  let name ← expect .name .unwrappedName
  let args ← ifAngle (genericArgs nested)
  return .unwrap (identifier name) args (some (← spanFrom start))

/-- A type that begins with `&`, after that. -/
def choiceFrom (nested : Nested) (start : Location) : Reader Type2 := do
  if ← at? .leftParen then
    let _ ← advance
    let group ← closedBy .rightParen nested.group
    return .choiceFromInlineGroup group (some (← spanFrom start))
  else
    let name ← expect .name .choiceOperand
    let args ← ifAngle (genericArgs nested)
    return .choiceFromGroup (identifier name) args (some (← spanFrom start))

/-- A type that begins with a tag, which is the current token.  Only major type 6 has something tagged. -/
def tagged (nested : Nested) (major : Nat) (number : Option Nat) (start : Location) : Reader Type2 := do
  if 7 < major then fail .majorType
  else
    let _ ← advance
    if major = 6 && (← at? .leftParen) then
      let _ ← advance
      let type ← closedBy .rightParen (typeExpr nested.type1)
      return .tagged (number.map Int.ofNat) type (some (← spanFrom start))
    else return .major major (number.map Int.ofNat) (some (← spanFrom start))

/-- A type that begins with a mark, which is the current token. -/
def marked (nested : Nested) (m : Mark) (t : Token) : Reader Type2 :=
  match m with
  | .name => do
    let _ ← advance
    typename nested t
  | .leftParen => do
    let _ ← advance
    let type ← closedBy .rightParen (typeExpr nested.type1)
    return .parenthesized type (some (← spanFrom t.location))
  | .leftBrace => do
    let _ ← advance
    let group ← closedBy .rightBrace nested.group
    return .map group (some (← spanFrom t.location))
  | .leftBracket => do
    let _ ← advance
    let group ← closedBy .rightBracket nested.group
    return .array group (some (← spanFrom t.location))
  | .tilde => do
    let _ ← advance
    unwrap nested t.location
  | .ampersand => do
    let _ ← advance
    choiceFrom nested t.location
  | .hash => do
    let _ ← advance
    return .any (some (← spanFrom t.location))
  | _ => fail .typeExpression

def type2 (nested : Nested) : Reader Type2 := do
  let t ← current
  match t.body with
  | .value v =>
    let _ ← advance
    return .literal v (some (← spanFrom t.location))
  | .tag major number => tagged nested major number t.location
  | .range .. => fail .typeExpression
  | .mark m => marked nested m t

/-- The type that a range token spells.  The spans of its three parts follow from where the operator stands in its
text. -/
def rangeType1 (t : Token) (lower upper : Literal) (inclusive : Bool) (stop : Location) : Type1 :=
  let operatorAt := (Text.indexOf? ".." t.text).getD 0
  let operatorStart := t.location.shift operatorAt
  let upperStart := t.location.shift (operatorAt + if inclusive then 2 else 3)
  let operator : Operator :=
    ⟨.range inclusive, .literal upper (some ⟨upperStart, stop⟩), some ⟨operatorStart, stop⟩⟩
  ⟨.literal lower (some ⟨t.location, operatorStart⟩), some operator, some ⟨t.location, stop⟩⟩

/-- The operator that a token is, if it is one. -/
def operatorSymbol? (t : Token) : Option RangeOrControl :=
  if t.is .rangeOperator then some (.range (t.text = ".."))
  else if t.is .control then some (.control (t.text.drop 1))
  else none

def operator? (nested : Nested) : Reader (Option Operator) := do
  let t ← current
  match operatorSymbol? t with
  | some symbol =>
    let _ ← advance
    let operand ← type2 nested
    return some ⟨symbol, operand, some (← spanFrom t.location)⟩
  | none => return none

def type1 (nested : Nested) : Reader Type1 := do
  let t ← current
  match t.body with
  | .range lower upper inclusive =>
    let _ ← advance
    return rangeType1 t lower upper inclusive (← get).lastStop
  | _ =>
    let operand ← type2 nested
    let operator ← operator? nested
    return ⟨operand, operator, some (← spanFrom t.location)⟩

/-! ## Occurrences -/

/-- The unsigned integer that stands right at the given place, if the current token is one. -/
def uintAt? (stop : Location) (t : Token) : Option Int :=
  match t.body with
  | .value (.uint n) => if t.location.offset = stop.offset then some n else none
  | _ => none

/-- Consumes an unsigned integer that is joined to the token before it. -/
def joinedUint (before : Token) : Reader (Option Int) := do
  match uintAt? before.stop (← current) with
  | some n =>
    let _ ← advance
    return some n
  | none => return none

/-- An asterisk, perhaps with an upper bound joined to it, after the given lower bound. -/
def asterisk (lower : Option Int) : Reader Occur := do
  let star ← advance
  let upper ← joinedUint star
  return if lower = none && upper = none then .zeroOrMore else .between lower upper

def occur? : Reader (Option Occur) := do
  match (← current).body with
  | .mark .optional =>
    let _ ← advance
    return some .optional
  | .mark .plus =>
    let _ ← advance
    return some .oneOrMore
  | .mark .asterisk => return some (← asterisk none)
  | .value (.uint n) =>
    if (← upcoming).is .asterisk then
      let _ ← advance
      return some (← asterisk (some n))
    else return none
  | _ => return none

def occurrence? : Reader (Option Occurrence) := do
  let start := (← current).location
  match ← occur? with
  | some occur => return some ⟨occur, some (← spanFrom start)⟩
  | none => return none

/-! ## Groups -/

/-- An arrow, with a cut before it or not; whether there was one. -/
def arrow : Reader Bool := do
  if ← at? .cut then
    let _ ← advance
    let _ ← expect .arrow .arrow
    return true
  else
    let _ ← expect .arrow .arrow
    return false

/-- The key that a colon makes of the type before it, if it can. -/
def colonKey? (type1 : Type1) : Option MemberKey :=
  match type1.operator, type1.operand with
  | none, .typename ident none span => some (.bareword ident span)
  | none, .literal v span => some (.literal v span)
  | _, _ => none

def colonKey (type1 : Type1) : Reader MemberKey :=
  match colonKey? type1 with
  | some key => return key
  | none => fail .key

/-- The type that a named entry stands for when it stands alone in parentheses. -/
def typeOfName (name : Identifier) (args : Option GenericArgs) (span : Option Span) : TypeExpr :=
  ⟨[⟨⟨.typename name args span, none, span⟩, span⟩], span⟩

/-- A parenthesized key is a type if it holds a single entry without a key or an occurrence, and a group otherwise. -/
def enclosedKey (group : Group) : NonMemberKey :=
  match group.choices with
  | [⟨[⟨.keyed ⟨none, none, type, _⟩ _, _⟩], _⟩] => .type type group.span
  | [⟨[⟨.named ⟨none, name, args, span⟩ _, _⟩], _⟩] => .type (typeOfName name args span) group.span
  | _ => .group group group.span

/-- The entry that ends with the last token consumed. -/
def keyedEntry (start : Location) (occurrence : Option Occurrence) (key : Option MemberKey) (type : TypeExpr) :
    Reader GroupEntry := do
  let span := some (← spanFrom start)
  return .keyed ⟨occurrence, key, type, span⟩ span

/-- An entry that begins with a parenthesis, which is the current token. -/
def parenthesizedEntry (nested : Nested) (start : Location) (occurrence : Option Occurrence) :
    Reader GroupEntry := do
  let _ ← advance
  let group ← closedBy .rightParen nested.group
  if (← at? .arrow) || (← at? .cut) then
    let _ ← arrow
    let key : MemberKey := .enclosed (enclosedKey group) group.span
    let type ← typeExpr (type1 nested)
    keyedEntry start occurrence (some key) type
  else return .inline occurrence group (some (← spanFrom start))

/-- An entry without a key, after its first type.  A name by itself may be the name of a group. -/
def keylessEntry (nested : Nested) (start : Location) (occurrence : Option Occurrence) (first : Type1) :
    Reader GroupEntry := do
  match first.operand, first.operator, ← at? .typeChoice with
  | .typename ident args _, none, false =>
    let span := some (← spanFrom start)
    return .named ⟨occurrence, ident, args, span⟩ span
  | _, _, _ =>
    let others ← moreChoices (type1 nested)
    let type : TypeExpr := ⟨typeChoice first :: others, some (← spanFrom ((first.span.map Span.start).getD start))⟩
    keyedEntry start occurrence none type

/-- An entry that begins with a type, which may turn out to be its key. -/
def typeEntry (nested : Nested) (start : Location) (occurrence : Option Occurrence) : Reader GroupEntry := do
  let first ← type1 nested
  if ← at? .colon then
    let key ← colonKey first
    let _ ← advance
    let type ← typeExpr (type1 nested)
    keyedEntry start occurrence (some key) type
  else if (← at? .arrow) || (← at? .cut) then
    let cut ← arrow
    let key : MemberKey := .type1 first cut (some (← spanFrom ((first.span.map Span.start).getD start)))
    let type ← typeExpr (type1 nested)
    keyedEntry start occurrence (some key) type
  else keylessEntry nested start occurrence first

def groupEntry (nested : Nested) : Reader GroupEntry := do
  let start := (← current).location
  let occurrence ← occurrence?
  if ← at? .leftParen then parenthesizedEntry nested start occurrence
  else typeEntry nested start occurrence

def listedEntry (nested : Nested) : Reader ListedEntry := do
  let entry ← groupEntry nested
  if ← at? .comma then
    let _ ← advance
    return ⟨entry, true⟩
  else return ⟨entry, false⟩

/-- The tokens that no entry of a group begins with and that end a group choice. -/
def endsChoice (t : Token) : Bool :=
  t.is .rightParen || t.is .rightBrace || t.is .rightBracket || t.is .groupChoice || t.is .endOfInput

def groupChoice (nested : Nested) : Reader GroupChoice := do
  let start := (← current).location
  let entries ← manyWhile (fun t => !endsChoice t) (listedEntry nested)
  return ⟨entries, some (← spanFrom start)⟩

def group (nested : Nested) : Reader Group := do
  let start := (← current).location
  let first ← groupChoice nested
  let others ← manyWhile (·.is .groupChoice) (do let _ ← advance; groupChoice nested)
  return ⟨first :: others, some (← spanFrom start)⟩

/-! ## The knot -/

/-- A group without entries, which is what there is where no token is left. -/
def emptyGroup : Reader Group := do
  let span := some (← spanFrom (← current).location)
  return ⟨[⟨[], span⟩], span⟩

/-- Readers for `n` levels of nesting.  Below them no token is left, and the readers answer so.  A level is made only
when it is entered. -/
def nested : Nat → Nested
  | 0 => ⟨fail .typeExpression, emptyGroup⟩
  | n + 1 => ⟨fun w => type1 (nested n) w, fun w => group (nested n) w⟩

/-- A production with readers for as many levels as there are tokens. -/
def closed {α : Type} (production : Nested → Reader α) : Reader α := do
  production (nested (← get).size)

end Production
end Cddl
