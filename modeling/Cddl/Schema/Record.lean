import Cddl.Datum
import Cddl.Schema
/-!
# Nodes as records

The form in which a tree leaves the program: each node is an object that names its kind first and its span last.
Integers that a schema spells out become decimal texts, since they may be of any size.  Fields for what a node does not
have are left out.
-/
namespace Cddl

open Datum (field field? decimal)

def Location.record (l : Location) : Datum :=
  .object [("line", .int l.line), ("column", .int l.column), ("offset", .int l.offset)]

def Span.record (s : Span) : Datum := .object [("start", s.start.record), ("end", s.stop.record)]

/-- The record of a node of the given kind. -/
def nodeRecord (kind : String) (fields : List (Text × Datum)) (span : Option Span) : Datum :=
  .object (field "kind" (.text kind) ++ fields ++ field? "span" (span.map Span.record))

/-! ## Leaves -/

def ByteEncoding.label : ByteEncoding → String
  | .utf8 => "utf8"
  | .base16 => "b16"
  | .base64 => "b64"

/-- The word for a literal's type. -/
def Literal.label : Literal → String
  | .int _ => "int"
  | .uint _ => "uint"
  | .float _ => "float"
  | .text _ => "text"
  | .bytes .. => "bytes"

/-- What a literal denotes, as data. -/
def Literal.content : Literal → Datum
  | .int n => decimal n
  | .uint n => decimal n
  | .float x => .float x
  | .text t => .text t
  | .bytes _ t => .text t

def Literal.encodingField : Literal → List (Text × Datum)
  | .bytes e _ => field "encoding" (.text e.label)
  | _ => []

def Literal.record (v : Literal) : Datum :=
  nodeRecord "value" (field "type" (.text v.label) ++ v.encodingField ++ field "value" v.content) none

/-- The kind of the type that consists of a literal. -/
def Literal.typeKind : Literal → String
  | .int _ => "int_value"
  | .uint _ => "uint_value"
  | .float _ => "float_value"
  | .text _ => "text_value"
  | .bytes .utf8 _ => "utf8_bytes"
  | .bytes .base16 _ => "b16_bytes"
  | .bytes .base64 _ => "b64_bytes"

def Socket.label : Socket → String
  | .type => "$"
  | .group => "$$"

def Identifier.record (i : Identifier) : Datum :=
  nodeRecord "identifier"
    (field "ident" (.text i.name) ++ field? "socket" (i.socket.map fun s => .text s.label)) i.span

def Occur.record : Occur → Datum
  | .optional => .object (field "kind" (.text "optional"))
  | .zeroOrMore => .object (field "kind" (.text "zero_or_more"))
  | .oneOrMore => .object (field "kind" (.text "one_or_more"))
  | .between lower upper =>
    .object (field "kind" (.text "exact") ++ field? "lower" (lower.map decimal) ++ field? "upper" (upper.map decimal))

def Occurrence.record (o : Occurrence) : Datum := nodeRecord "occurrence" (field "occur" o.occur.record) o.span

def GenericParam.record (p : GenericParam) : Datum := nodeRecord "generic_param" (field "param" p.param.record) p.span

def GenericParams.record (p : GenericParams) : Datum :=
  nodeRecord "generic_params" (field "params" (.array (p.params.map GenericParam.record))) p.span

def RangeOrControl.record : RangeOrControl → Datum
  | .range inclusive => .object (field "kind" (.text "range") ++ field "inclusive" (.bool inclusive))
  | .control name => .object (field "kind" (.text "control") ++ field "name" (.text name))

/-! ## Types and groups -/

mutual

def TypeExpr.record : TypeExpr → Datum
  | ⟨choices, span⟩ => nodeRecord "type" (field "typeChoices" (.array (typeChoiceRecords choices))) span

def typeChoiceRecords : List TypeChoice → List Datum
  | [] => []
  | c :: cs => c.record :: typeChoiceRecords cs

def TypeChoice.record : TypeChoice → Datum
  | ⟨type1, span⟩ => nodeRecord "type_choice" (field "type1" type1.record) span

def Type1.record : Type1 → Datum
  | ⟨operand, operator, span⟩ =>
    nodeRecord "type1" (field "type2" operand.record ++ operatorField operator) span

def operatorField : Option Operator → List (Text × Datum)
  | none => []
  | some o => field "operator" o.record

def Operator.record : Operator → Datum
  | ⟨symbol, operand, span⟩ =>
    nodeRecord "operator" (field "operator" symbol.record ++ field "type2" operand.record) span

def Type2.record : Type2 → Datum
  | .literal v span => nodeRecord v.typeKind (field "value" v.content) span
  | .typename ident args span => nodeRecord "typename" (field "ident" ident.record ++ argsField args) span
  | .parenthesized type span => nodeRecord "parenthesized_type" (field "pt" type.record) span
  | .map group span => nodeRecord "map" (field "group" group.record) span
  | .array group span => nodeRecord "array" (field "group" group.record) span
  | .unwrap ident args span => nodeRecord "unwrap" (field "ident" ident.record ++ argsField args) span
  | .choiceFromInlineGroup group span => nodeRecord "choice_from_inline_group" (field "group" group.record) span
  | .choiceFromGroup ident args span =>
    nodeRecord "choice_from_group" (field "ident" ident.record ++ argsField args) span
  | .tagged tag type span =>
    nodeRecord "tagged_data" (field? "tag" (tag.map decimal) ++ field "t" type.record) span
  | .major major constraint span =>
    nodeRecord "data_major_type" (field "mt" (.int major) ++ field? "constraint" (constraint.map decimal)) span
  | .any span => nodeRecord "any" [] span

def Group.record : Group → Datum
  | ⟨choices, span⟩ => nodeRecord "group" (field "groupChoices" (.array (groupChoiceRecords choices))) span

def groupChoiceRecords : List GroupChoice → List Datum
  | [] => []
  | c :: cs => c.record :: groupChoiceRecords cs

def GroupChoice.record : GroupChoice → Datum
  | ⟨entries, span⟩ => nodeRecord "group_choice" (field "groupEntries" (.array (listedEntryRecords entries))) span

def listedEntryRecords : List ListedEntry → List Datum
  | [] => []
  | e :: es => e.record :: listedEntryRecords es

def ListedEntry.record : ListedEntry → Datum
  | ⟨entry, comma⟩ => .object (field "entry" entry.record ++ field "trailingComma" (.bool comma))

def GroupEntry.record : GroupEntry → Datum
  | .keyed entry span => nodeRecord "value_member_key" (field "ge" entry.record) span
  | .named entry span => nodeRecord "type_groupname" (field "ge" entry.record) span
  | .inline occurrence group span =>
    nodeRecord "inline_group"
      (field? "occur" (occurrence.map Occurrence.record) ++ field "group" group.record) span

def KeyedEntry.record : KeyedEntry → Datum
  | ⟨occurrence, key, type, span⟩ =>
    nodeRecord "value_member_key_entry"
      (field? "occur" (occurrence.map Occurrence.record) ++ keyField key ++ field "entryType" type.record) span

def keyField : Option MemberKey → List (Text × Datum)
  | none => []
  | some k => field "memberKey" k.record

def NamedEntry.record : NamedEntry → Datum
  | ⟨occurrence, name, args, span⟩ =>
    nodeRecord "type_groupname_entry"
      (field? "occur" (occurrence.map Occurrence.record) ++ field "name" name.record ++ argsField args) span

def MemberKey.record : MemberKey → Datum
  | .type1 type1 cut span => nodeRecord "type1" (field "t1" type1.record ++ field "isCut" (.bool cut)) span
  | .bareword ident span => nodeRecord "bareword" (field "ident" ident.record) span
  | .literal v span => nodeRecord "value" (field "value" v.record) span
  | .enclosed key span => nodeRecord "non_member_key" (field "nonMemberKey" key.record) span

def NonMemberKey.record : NonMemberKey → Datum
  | .group group span => nodeRecord "group" (field "group" group.record) span
  | .type type span => nodeRecord "type" (field "type" type.record) span

def argsField : Option GenericArgs → List (Text × Datum)
  | none => []
  | some a => field "genericArgs" a.record

def GenericArgs.record : GenericArgs → Datum
  | ⟨args, span⟩ => nodeRecord "generic_args" (field "args" (.array (genericArgRecords args))) span

def genericArgRecords : List GenericArg → List Datum
  | [] => []
  | a :: as => a.record :: genericArgRecords as

def GenericArg.record : GenericArg → Datum
  | ⟨arg, span⟩ => nodeRecord "generic_arg" (field "arg" arg.record) span

end

/-! ## Rules and documents -/

def TypeRule.record (r : TypeRule) : Datum :=
  nodeRecord "type_rule"
    (field "name" r.name.record ++ field? "genericParams" (r.params.map GenericParams.record) ++
      field "isTypeChoiceAlternate" (.bool r.adds) ++ field "value" r.value.record) r.span

def GroupRule.record (r : GroupRule) : Datum :=
  nodeRecord "group_rule"
    (field "name" r.name.record ++ field? "genericParams" (r.params.map GenericParams.record) ++
      field "isGroupChoiceAlternate" (.bool r.adds) ++ field "entry" r.entry.record) r.span

def RuleBody.record : RuleBody → Datum
  | .type r => r.record
  | .group r => r.record

def Rule.record (r : Rule) : Datum := nodeRecord "rule" (field "rule" r.body.record) r.span

def Document.record (d : Document) : Datum :=
  nodeRecord "cddl" (field "rules" (.array (d.rules.map Rule.record))) d.span

end Cddl
