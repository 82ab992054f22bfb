import Cddl.Literal
import Cddl.Location
/-!
# Schemas

The tree of a CDDL document.  A node owns the nodes below it and knows nothing of those above.  Spans are optional,
since a tree may be built by hand, and take part in equality: two nodes are the same only if they were read in the same
place.
Literals have none, so equal literals are equal wherever they stand.
-/
namespace Cddl

/-! ## Leaves -/

/-- The mark of a name that other schemas may add to: one dollar sign for a type, two for a group. -/
inductive Socket where
  | type | group
  deriving DecidableEq, Repr

structure Identifier where
  name : Text
  socket : Option Socket := none
  span : Option Span := none
  deriving DecidableEq, Repr

/-- How often an entry may occur; `between` counts from a lower to an upper bound, where they are given. -/
inductive Occur where
  | optional
  | zeroOrMore
  | oneOrMore
  | between (lower upper : Option Int)
  deriving DecidableEq, Repr

structure Occurrence where
  occur : Occur
  span : Option Span := none
  deriving DecidableEq, Repr

structure GenericParam where
  param : Identifier
  span : Option Span := none
  deriving DecidableEq, Repr

/-- The names after a rule's own, in angle brackets. -/
structure GenericParams where
  params : List GenericParam
  span : Option Span := none
  deriving DecidableEq, Repr

/-- What joins two operands. -/
inductive RangeOrControl where
  | range (inclusive : Bool)
  | control (name : Text)
  deriving DecidableEq, Repr

/-! ## Types and groups -/

mutual

/-- Alternative types. -/
structure TypeExpr where
  choices : List TypeChoice
  span : Option Span := none

structure TypeChoice where
  type1 : Type1
  span : Option Span := none

/-- An operand by itself or joined to another; the lower bound of a range is the first of the two. -/
structure Type1 where
  operand : Type2
  operator : Option Operator := none
  span : Option Span := none

structure Operator where
  symbol : RangeOrControl
  operand : Type2
  span : Option Span := none

inductive Type2 where
  | literal (value : Literal) (span : Option Span)
  | typename (ident : Identifier) (args : Option GenericArgs) (span : Option Span)
  | parenthesized (type : TypeExpr) (span : Option Span)
  | map (group : Group) (span : Option Span)
  | array (group : Group) (span : Option Span)
  /-- `~name` -/
  | unwrap (ident : Identifier) (args : Option GenericArgs) (span : Option Span)
  /-- `&( group )` -/
  | choiceFromInlineGroup (group : Group) (span : Option Span)
  /-- `&name` -/
  | choiceFromGroup (ident : Identifier) (args : Option GenericArgs) (span : Option Span)
  /-- `#6.tag(type)` -/
  | tagged (tag : Option Int) (type : TypeExpr) (span : Option Span)
  /-- `#major.constraint` -/
  | major (major : Int) (constraint : Option Int) (span : Option Span)
  /-- `#` -/
  | any (span : Option Span)

/-- Alternative groups. -/
structure Group where
  choices : List GroupChoice
  span : Option Span := none

structure GroupChoice where
  entries : List ListedEntry
  span : Option Span := none

/-- An entry and whether a comma follows it. -/
structure ListedEntry where
  entry : GroupEntry
  comma : Bool

inductive GroupEntry where
  | keyed (entry : KeyedEntry) (span : Option Span)
  | named (entry : NamedEntry) (span : Option Span)
  | inline (occurrence : Option Occurrence) (group : Group) (span : Option Span)

/-- A type with an optional key. -/
structure KeyedEntry where
  occurrence : Option Occurrence := none
  key : Option MemberKey := none
  type : TypeExpr
  span : Option Span := none

/-- A name, of a type or of a group. -/
structure NamedEntry where
  occurrence : Option Occurrence := none
  name : Identifier
  args : Option GenericArgs := none
  span : Option Span := none

inductive MemberKey where
  | type1 (type1 : Type1) (cut : Bool) (span : Option Span)
  | bareword (ident : Identifier) (span : Option Span)
  | literal (value : Literal) (span : Option Span)
  | enclosed (key : NonMemberKey) (span : Option Span)

/-- What stands in parentheses in the place of a key. -/
inductive NonMemberKey where
  | group (group : Group) (span : Option Span)
  | type (type : TypeExpr) (span : Option Span)

/-- The types after a name, in angle brackets. -/
structure GenericArgs where
  args : List GenericArg
  span : Option Span := none

structure GenericArg where
  arg : Type1
  span : Option Span := none

end

/-! ## Rules and documents -/

/-- `name = type`, or `name /= type` where the type is added to the rule's others. -/
structure TypeRule where
  name : Identifier
  params : Option GenericParams := none
  adds : Bool
  value : TypeExpr
  span : Option Span := none

/-- `name = entry`, or `name //= entry` where the entry is added to the rule's others. -/
structure GroupRule where
  name : Identifier
  params : Option GenericParams := none
  adds : Bool
  entry : GroupEntry
  span : Option Span := none

inductive RuleBody where
  | type (rule : TypeRule)
  | group (rule : GroupRule)

structure Rule where
  body : RuleBody
  span : Option Span := none

structure Document where
  rules : List Rule
  span : Option Span := none

/-! ## Reading nodes -/

/-- The name of a rule without its socket. -/
def Rule.name (r : Rule) : Text :=
  match r.body with
  | .type r => r.name.name
  | .group r => r.name.name

def Type2.span : Type2 → Option Span
  | .literal _ s | .typename _ _ s | .parenthesized _ s | .map _ s | .array _ s | .unwrap _ _ s
  | .choiceFromInlineGroup _ s | .choiceFromGroup _ _ s | .tagged _ _ s | .major _ _ s | .any s => s

/-- The literal that a type consists of, if it is one. -/
def Type2.literal? : Type2 → Option Literal
  | .literal v _ => some v
  | _ => none

def GroupEntry.span : GroupEntry → Option Span
  | .keyed _ s | .named _ s | .inline _ _ s => s

def MemberKey.span : MemberKey → Option Span
  | .type1 _ _ s | .bareword _ s | .literal _ s | .enclosed _ s => s

def NonMemberKey.span : NonMemberKey → Option Span
  | .group _ s | .type _ s => s

end Cddl
