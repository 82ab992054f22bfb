import Cddl.Token.Cursor
/-!
# Why a schema is not in the language

A fault is a cause with its place.  Its code and wording follow from the cause, and the source text is only added when
the fault is reported.
-/
namespace Cddl

/-- What the grammar could have gone on with. -/
inductive Expectation where
  | ruleName
  | assignment
  | parameterName
  | argumentEnd
  | argumentStart
  | typeExpression
  | majorType
  | closing (m : Mark)
  | unwrappedName
  | choiceOperand
  | arrow
  | key
  deriving DecidableEq, Repr

namespace Expectation

def message : Expectation → Text
  | .ruleName => "rule name"
  | .assignment => "'=', '/=' or '//='"
  | .parameterName => "generic parameter name"
  | .argumentEnd => "',' or '>'"
  | .argumentStart => "'<'"
  | .typeExpression => "type expression"
  | .majorType => "major type 0 to 7"
  | .closing .rightParen => "')'"
  | .closing .rightBrace => "'\x7d'"
  | .closing .rightBracket => "']'"
  | .closing m => m.label
  | .unwrappedName => "type name after '~'"
  | .choiceOperand => "group name or '(' after '&'"
  | .arrow => "'=>'"
  | .key => "bareword or value before ':'"

def code : Expectation → Diagnostic.Code
  | .assignment => .expectedAssignment
  | .parameterName => .illegalToken
  | .argumentEnd => .illegalToken
  | .typeExpression => .unrecognizedType2
  | .majorType => .unrecognizedType2
  | _ => .unexpectedToken

end Expectation

inductive Fault where
  | lexical (f : LexFault)
  /-- A token that the grammar cannot go on with. -/
  | mismatch (wanted : Expectation) (found : Token)
  /-- A rule whose body starts with a parenthesis, which could be a type or a group. -/
  | parenthesizedBody (place : Location)
  deriving DecidableEq, Repr

namespace Fault

/-- A fault that ends the reading; from the others it goes on at the next rule. -/
def isFatal : Fault → Bool
  | .mismatch .. => false
  | _ => true

def location : Fault → Location
  | .lexical f => f.location
  | .mismatch _ found => found.location
  | .parenthesizedBody place => place

/-- The report on a fault.  What is no token is shown in the text that the tokens were read from, and what is no schema
in the text that the reader was told to show. -/
def diagnostic (read shown : Text) : Fault → Diagnostic
  | .lexical f => f.diagnostic read
  | .mismatch wanted found =>
    .mismatch wanted.code wanted.message found.describe { location := found.location, source := shown }
  | .parenthesizedBody place =>
    .unimplemented "Parenthesized group entries as rule bodies are not supported" { location := place, source := shown }

end Fault
end Cddl
