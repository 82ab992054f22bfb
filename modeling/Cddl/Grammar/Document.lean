import Cddl.Grammar.Production
/-!
# Rules and whole documents

A fault in one rule does not hide those in the next: it is collected, and reading resumes at the next place where a rule
can begin.  A lexical fault, and a form that is left out on purpose, end the reading.
-/
namespace Cddl

/-! ## Rules -/

namespace Production

open Reader

/-- The ways in which a name is given its meaning. -/
inductive Assignment where
  | define | extendType | extendGroup
  deriving DecidableEq, Repr

def assignment? (t : Token) : Option Assignment :=
  match t.body with
  | .mark .assign => some .define
  | .mark .extendType => some .extendType
  | .mark .extendGroup => some .extendGroup
  | _ => none

def assignment : Reader Assignment := do
  match assignment? (← current) with
  | some a =>
    let _ ← advance
    return a
  | none => fail .assignment

def startsOccurrence (t : Token) : Bool := t.is .optional || t.is .asterisk || t.is .plus

def isValue (t : Token) : Bool :=
  match t.body with
  | .value _ => true
  | _ => false

/-- Whether a rule body that begins with the two tokens can only be an entry of a group. -/
def startsGroupEntry (first second : Token) : Bool :=
  startsOccurrence first || (isValue first && second.is .asterisk) || second.is .colon || second.is .arrow ||
    second.is .cut

/-- Whether the body of a rule is read as a group entry. -/
def groupBody (a : Assignment) : Reader Bool := do
  return a = .extendGroup || (a = .define && startsGroupEntry (← current) (← upcoming))

/-- What stands to the right of an assignment, as a rule. -/
def ruleBody (nested : Nested) (start : Location) (name : Identifier) (params : Option GenericParams)
    (a : Assignment) : Reader Rule := do
  if ← groupBody a then
    let entry ← groupEntry nested
    let span := some (← spanFrom start)
    return ⟨.group ⟨name, params, a = .extendGroup, entry, span⟩, span⟩
  else
    let type ← typeExpr (type1 nested)
    let span := some (← spanFrom start)
    return ⟨.type ⟨name, params, a = .extendType, type, span⟩, span⟩

def rule (nested : Nested) : Reader Rule := do
  let start := (← current).location
  let name ← expect .name .ruleName
  let params ← ifAngle genericParams
  let a ← assignment
  if ← at? .leftParen then throw (.parenthesizedBody (← current).location)
  else ruleBody nested start (identifier name) params a

/-- Whether a rule can begin with the two tokens. -/
def startsRule (first second : Token) : Bool :=
  first.is .name && ((assignment? second).isSome || second.is .leftAngle)

/-- Moves on, by at most `n` tokens, to the end of input or to where a rule can begin past the given offset. -/
def resynchronize (failedAt : Int) : Nat → Reader Unit
  | 0 => return ()
  | n + 1 => do
    let t ← current
    if t.is .endOfInput || (startsRule t (← upcoming) && failedAt < t.location.offset) then return ()
    else
      let _ ← advance
      resynchronize failedAt n

end Production

/-! ## Documents -/

/-- The reading of a document: the window, and the faults that did not end it. -/
structure Session where
  window : Window
  collected : List Fault := []

namespace Session

def ofFeed (feed : Feed) : Except LexFault Session := (Window.ofFeed feed).map (⟨·, []⟩)

/-- Reads one thing; a fault in it is not collected. -/
def read {α : Type} (r : Reader α) (s : Session) : Except Fault α × Session :=
  let (result, window) := r.run.run s.window
  (result, { s with window })

/-- Collects a fault of the rule that began at the given offset, and goes to where the next rule can begin. -/
def recover (s : Session) (failedAt : Int) (fault : Fault) : Except Fault Unit × Session :=
  { s with collected := s.collected ++ [fault] }.read (Production.resynchronize failedAt s.window.size)

/-- Reads rules up to the end of input.  Each turn consumes a token at least, so `n` turns suffice for `n` tokens. -/
def rules : Nat → Session → Except Fault (List Rule) × Session
  | 0, s => (.ok [], s)
  | n + 1, s =>
    if s.window.current.is .endOfInput then (.ok [], s)
    else
      match s.read (Production.closed Production.rule) with
      | (.ok rule, s) =>
        let (rest, s) := rules n s
        (rest.map (rule :: ·), s)
      | (.error fault, t) =>
        if fault.isFatal then (.error fault, t)
        else
          match t.recover s.window.current.location.offset fault with
          | (.ok (), t) => rules n t
          | (.error fault, t) => (.error fault, t)

def document (s : Session) : Except Fault Document × Session :=
  let start := s.window.current.location
  let (result, s) := rules s.window.size s
  (result.map (⟨·, some ⟨start, s.window.lastStop⟩⟩), s)

end Session

/-! ## Reading -/

/-- The document that a stream of tokens spells, or every fault that was met. -/
def parseFeed (feed : Feed) : Except (List Fault) Document :=
  match Session.ofFeed feed with
  | .error fault => .error [.lexical fault]
  | .ok s =>
    match s.document with
    | (.error fault, s) => .error (s.collected ++ [fault])
    | (.ok document, s) => if s.collected = [] then .ok document else .error s.collected

/-- The document that a text spells, or a report on everything that is wrong with it. -/
def parse (source : Text) : Except (List Diagnostic) Document :=
  (parseFeed (.ofText source)).mapError fun faults => faults.map (Fault.diagnostic source source)

/-- The document that a list of tokens spells.  The text they are said to come from is only shown in the reports. -/
def parseTokens (tokens : List Token) (shown : Text) : Except (List Diagnostic) Document :=
  (parseFeed (.ofTokens tokens)).mapError fun faults => faults.map (Fault.diagnostic shown shown)

end Cddl
