import Cddl.Literal
import Cddl.Location
/-!
# Tokens

A token carries its source text and place, and a body that says what the text means to the grammar.
-/
namespace Cddl

/-- The tokens that mean no more than their text. -/
inductive Mark where
  | endOfInput
  | name
  | rangeOperator
  | control
  | hash
  | assign
  | extendType
  | extendGroup
  | typeChoice
  | groupChoice
  | leftParen
  | rightParen
  | leftBrace
  | rightBrace
  | leftBracket
  | rightBracket
  | leftAngle
  | rightAngle
  | comma
  | colon
  | arrow
  | cut
  | optional
  | asterisk
  | plus
  | tilde
  | ampersand
  deriving DecidableEq, Repr

namespace Token

/-- What a token means to the grammar. -/
inductive Body where
  | mark (m : Mark)
  | value (v : Literal)
  /-- Two numbers with a range operator right between them. -/
  | range (lower upper : Literal) (inclusive : Bool)
  /-- `#` with a major type and perhaps a number after a dot. -/
  | tag (major : Nat) (number : Option Nat)
  deriving DecidableEq, Repr

end Token

structure Token where
  body : Token.Body
  text : Text
  location : Location
  deriving DecidableEq, Repr

namespace Token

def endAt (l : Location) : Token := ⟨.mark .endOfInput, [], l⟩

def is (t : Token) (m : Mark) : Bool := t.body = .mark m

/-- The place right after a token, taken to stand in one line. -/
def stop (t : Token) : Location := t.location.shift t.text.length

def span (t : Token) : Span := ⟨t.location, t.stop⟩

/-! ## In messages -/

end Token

def Mark.label : Mark → String
  | .endOfInput => "EOF"
  | .name => "IDENT"
  | .rangeOperator => "RANGEOP"
  | .control => "CONTROL"
  | .hash => "HASH"
  | .assign => "ASSIGN"
  | .extendType => "TCHOICEALT"
  | .extendGroup => "GCHOICEALT"
  | .typeChoice => "TCHOICE"
  | .groupChoice => "GCHOICE"
  | .leftParen => "LPAREN"
  | .rightParen => "RPAREN"
  | .leftBrace => "LBRACE"
  | .rightBrace => "RBRACE"
  | .leftBracket => "LBRACKET"
  | .rightBracket => "RBRACKET"
  | .leftAngle => "LANGLEBRACKET"
  | .rightAngle => "RANGLEBRACKET"
  | .comma => "COMMA"
  | .colon => "COLON"
  | .arrow => "ARROWMAP"
  | .cut => "CUT"
  | .optional => "OPTIONAL"
  | .asterisk => "ASTERISK"
  | .plus => "ONEORMORE"
  | .tilde => "UNWRAP"
  | .ampersand => "GTOCHOICE"

namespace Token

def Body.label : Body → String
  | .mark m => m.label
  | .value _ => "VALUE"
  | .range .. => "RANGE"
  | .tag .. => "TAG"

/-- A token as messages name it. -/
def describe (t : Token) : Text :=
  if t.is .endOfInput then "end of input" else t.body.label ++ " '" ++ t.text ++ "'"

end Token
end Cddl
