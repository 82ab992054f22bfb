import Cddl.Schema.Equality
import Cddl.Schema.Record
import Cddl.Schema.Render
/-!
# Nodes of any kind

A node of a schema's tree together with its kind, what it says about itself, and the nodes right below it in the order
in which they are written.  `Node.parentKinds` lists the kinds of node that each kind can stand right below.
-/
namespace Cddl

inductive NodeKind where
  | document
  | rule
  | typeRule
  | groupRule
  | type
  | typeChoice
  | type1
  | operator
  | type2
  | group
  | groupChoice
  | groupEntry
  | keyedEntry
  | namedEntry
  | occurrence
  | memberKey
  | nonMemberKey
  | genericParams
  | genericParam
  | genericArgs
  | genericArg
  | identifier
  | value
  deriving DecidableEq, Repr

namespace NodeKind

def all : List NodeKind :=
  [document, rule, typeRule, groupRule, type, typeChoice, type1, operator, type2, group, groupChoice, groupEntry,
    keyedEntry, namedEntry, occurrence, memberKey, nonMemberKey, genericParams, genericParam, genericArgs, genericArg,
    identifier, value]

def label : NodeKind → String
  | document => "cddl"
  | rule => "rule"
  | typeRule => "type_rule"
  | groupRule => "group_rule"
  | type => "type"
  | typeChoice => "type_choice"
  | type1 => "type1"
  | operator => "operator"
  | type2 => "type2"
  | group => "group"
  | groupChoice => "group_choice"
  | groupEntry => "group_entry"
  | keyedEntry => "value_member_key_entry"
  | namedEntry => "type_groupname_entry"
  | occurrence => "occurrence"
  | memberKey => "member_key"
  | nonMemberKey => "non_member_key"
  | genericParams => "generic_params"
  | genericParam => "generic_param"
  | genericArgs => "generic_args"
  | genericArg => "generic_arg"
  | identifier => "identifier"
  | value => "value"

/-- The kind that a text names. -/
def ofLabel? (t : Text) : Option NodeKind := all.find? fun k => Text.ofString k.label = t

/-- The kinds of node that a node of this kind can stand right below. -/
def parentKinds : NodeKind → List NodeKind
  | document => []
  | rule => [document]
  | typeRule => [rule]
  | groupRule => [rule]
  | type => [typeRule, type2, keyedEntry, nonMemberKey]
  | typeChoice => [type]
  | type1 => [typeChoice, memberKey, genericArg]
  | operator => [type1]
  | type2 => [type1, operator]
  | group => [type2, groupEntry, nonMemberKey]
  | groupChoice => [group]
  | groupEntry => [groupRule, groupChoice]
  | keyedEntry => [groupEntry]
  | namedEntry => [groupEntry]
  | occurrence => [keyedEntry, namedEntry, groupEntry]
  | memberKey => [keyedEntry]
  | nonMemberKey => [memberKey]
  | genericParams => [typeRule, groupRule]
  | genericParam => [genericParams]
  | genericArgs => [type2, namedEntry]
  | genericArg => [genericArgs]
  | identifier => [typeRule, groupRule, type2, namedEntry, memberKey, genericParam]
  | value => [type2, memberKey]

end NodeKind

inductive Node where
  | document (d : Document)
  | rule (r : Rule)
  | typeRule (r : TypeRule)
  | groupRule (r : GroupRule)
  | type (t : TypeExpr)
  | typeChoice (c : TypeChoice)
  | type1 (t : Type1)
  | operator (o : Operator)
  | type2 (t : Type2)
  | group (g : Group)
  | groupChoice (c : GroupChoice)
  | groupEntry (e : GroupEntry)
  | keyedEntry (e : KeyedEntry)
  | namedEntry (e : NamedEntry)
  | occurrence (o : Occurrence)
  | memberKey (k : MemberKey)
  | nonMemberKey (k : NonMemberKey)
  | genericParams (p : GenericParams)
  | genericParam (p : GenericParam)
  | genericArgs (a : GenericArgs)
  | genericArg (a : GenericArg)
  | identifier (i : Identifier)
  | value (v : Literal)
  deriving DecidableEq

namespace Node

def kind : Node → NodeKind
  | document _ => .document
  | rule _ => .rule
  | typeRule _ => .typeRule
  | groupRule _ => .groupRule
  | type _ => .type
  | typeChoice _ => .typeChoice
  | type1 _ => .type1
  | operator _ => .operator
  | type2 _ => .type2
  | group _ => .group
  | groupChoice _ => .groupChoice
  | groupEntry _ => .groupEntry
  | keyedEntry _ => .keyedEntry
  | namedEntry _ => .namedEntry
  | occurrence _ => .occurrence
  | memberKey _ => .memberKey
  | nonMemberKey _ => .nonMemberKey
  | genericParams _ => .genericParams
  | genericParam _ => .genericParam
  | genericArgs _ => .genericArgs
  | genericArg _ => .genericArg
  | identifier _ => .identifier
  | value _ => .value

/-- The text that stands for a node in listings. -/
def label : Node → Text
  | document d => Text.ofNat d.rules.length ++ " rule(s)"
  | rule r => r.name
  | typeRule r => r.name.render
  | groupRule r => r.name.render
  | type t => t.render
  | typeChoice c => c.render
  | type1 t => t.render
  | operator o => o.render
  | type2 t => t.render
  | group g => g.render
  | groupChoice c => c.render
  | groupEntry e => e.render
  | keyedEntry e => e.render
  | namedEntry e => e.render
  | occurrence o => o.render
  | memberKey k => k.render
  | nonMemberKey k => k.render
  | genericParams p => p.render
  | genericParam p => p.param.render
  | genericArgs a => a.render
  | genericArg a => a.render
  | identifier i => i.render
  | value v => v.render

/-- The content of a node as data. -/
def record : Node → Datum
  | document d => d.record
  | rule r => r.record
  | typeRule r => r.record
  | groupRule r => r.record
  | type t => t.record
  | typeChoice c => c.record
  | type1 t => t.record
  | operator o => o.record
  | type2 t => t.record
  | group g => g.record
  | groupChoice c => c.record
  | groupEntry e => e.record
  | keyedEntry e => e.record
  | namedEntry e => e.record
  | occurrence o => o.record
  | memberKey k => k.record
  | nonMemberKey k => k.record
  | genericParams p => p.record
  | genericParam p => p.record
  | genericArgs a => a.record
  | genericArg a => a.record
  | identifier i => i.record
  | value v => v.record

/-- The stretch of source text that a node was read from; a literal has none of its own. -/
def span : Node → Option Span
  | document d => d.span
  | rule r => r.span
  | typeRule r => r.span
  | groupRule r => r.span
  | type t => t.span
  | typeChoice c => c.span
  | type1 t => t.span
  | operator o => o.span
  | type2 t => t.span
  | group g => g.span
  | groupChoice c => c.span
  | groupEntry e => e.span
  | keyedEntry e => e.span
  | namedEntry e => e.span
  | occurrence o => o.span
  | memberKey k => k.span
  | nonMemberKey k => k.span
  | genericParams p => p.span
  | genericParam p => p.span
  | genericArgs a => a.span
  | genericArg a => a.span
  | identifier i => i.span
  | value _ => none

/-! ## The nodes below -/

def ofParams (p : Option GenericParams) : List Node := p.toList.map genericParams

def ofArgs (a : Option GenericArgs) : List Node := a.toList.map genericArgs

def ofOccurrence (o : Option Occurrence) : List Node := o.toList.map occurrence

/-- A name and the types given to it. -/
def ofName (ident : Identifier) (args : Option GenericArgs) : List Node := identifier ident :: ofArgs args

/-- The nodes right below a node, in the order in which they are written. -/
def children : Node → List Node
  | document d => d.rules.map rule
  | rule ⟨.type r, _⟩ => [typeRule r]
  | rule ⟨.group r, _⟩ => [groupRule r]
  | typeRule r => identifier r.name :: (ofParams r.params ++ [type r.value])
  | groupRule r => identifier r.name :: (ofParams r.params ++ [groupEntry r.entry])
  | type t => t.choices.map typeChoice
  | typeChoice c => [type1 c.type1]
  | type1 t => type2 t.operand :: t.operator.toList.map operator
  | operator o => [type2 o.operand]
  | type2 (.literal v _) => [value v]
  | type2 (.typename ident args _) => ofName ident args
  | type2 (.parenthesized t _) => [type t]
  | type2 (.map g _) => [group g]
  | type2 (.array g _) => [group g]
  | type2 (.unwrap ident args _) => ofName ident args
  | type2 (.choiceFromInlineGroup g _) => [group g]
  | type2 (.choiceFromGroup ident args _) => ofName ident args
  | type2 (.tagged _ t _) => [type t]
  | type2 (.major ..) => []
  | type2 (.any _) => []
  | group g => g.choices.map groupChoice
  | groupChoice c => c.entries.map fun e => groupEntry e.entry
  | groupEntry (.keyed e _) => [keyedEntry e]
  | groupEntry (.named e _) => [namedEntry e]
  | groupEntry (.inline o g _) => ofOccurrence o ++ [group g]
  | keyedEntry e => ofOccurrence e.occurrence ++ e.key.toList.map memberKey ++ [type e.type]
  | namedEntry e => ofOccurrence e.occurrence ++ ofName e.name e.args
  | occurrence _ => []
  | memberKey (.type1 t _ _) => [type1 t]
  | memberKey (.bareword ident _) => [identifier ident]
  | memberKey (.literal v _) => [value v]
  | memberKey (.enclosed k _) => [nonMemberKey k]
  | nonMemberKey (.group g _) => [group g]
  | nonMemberKey (.type t _) => [type t]
  | genericParams p => p.params.map genericParam
  | genericParam p => [identifier p.param]
  | genericArgs a => a.args.map genericArg
  | genericArg a => [type1 a.arg]
  | identifier _ => []
  | value _ => []

end Node
end Cddl
