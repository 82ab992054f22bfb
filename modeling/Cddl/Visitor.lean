import Cddl.Node.Tree
/-!
# Visitors

A visitor has methods for some kinds of node and says nothing of the others.  A node is given to the method for its
kind, together with the walk below it; the method decides whether the walk is taken.  Where there is no method the walk
is taken, and it gives each node right below to the visitor in turn, in the order in which they are written.
-/
namespace Cddl

structure Visitor (m : Type → Type) where
  /-- What is done at the nodes of a kind, in terms of the walk below the node. -/
  method? : NodeKind → Option (Node → m Unit → m Unit)

namespace Visitor

variable {m : Type → Type} [Monad m] (v : Visitor m)

omit [Monad m] in
/-- Gives a node to the method for its kind, or takes the walk below it. -/
def dispatch (n : Node) (walk : m Unit) : m Unit :=
  match v.method? n.kind with
  | some method => method n walk
  | none => walk

/-! ## Leaves -/

def visitIdentifier (i : Identifier) : m Unit := v.dispatch (.identifier i) (pure ())

def visitValue (x : Literal) : m Unit := v.dispatch (.value x) (pure ())

def visitOccurrence (o : Occurrence) : m Unit := v.dispatch (.occurrence o) (pure ())

def visitOccurrence? : Option Occurrence → m Unit
  | none => pure ()
  | some o => v.visitOccurrence o

/-! ## Parameters -/

def visitGenericParam (p : GenericParam) : m Unit := v.dispatch (.genericParam p) (v.visitIdentifier p.param)

def visitGenericParams (p : GenericParams) : m Unit :=
  v.dispatch (.genericParams p) (p.params.forM v.visitGenericParam)

def visitGenericParams? : Option GenericParams → m Unit
  | none => pure ()
  | some p => v.visitGenericParams p

/-! ## Types and groups -/

mutual

def visitType : TypeExpr → m Unit
  | t@⟨choices, _⟩ => v.dispatch (.type t) (visitTypeChoices choices)

def visitTypeChoices : List TypeChoice → m Unit
  | [] => pure ()
  | c :: cs => do
    visitTypeChoice c
    visitTypeChoices cs

def visitTypeChoice : TypeChoice → m Unit
  | c@⟨type1, _⟩ => v.dispatch (.typeChoice c) (visitType1 type1)

def visitType1 : Type1 → m Unit
  | t@⟨operand, operator, _⟩ => v.dispatch (.type1 t) do
    visitType2 operand
    visitOperator? operator

def visitOperator? : Option Operator → m Unit
  | none => pure ()
  | some o => visitOperator o

def visitOperator : Operator → m Unit
  | o@⟨_, operand, _⟩ => v.dispatch (.operator o) (visitType2 operand)

def visitType2 : Type2 → m Unit
  | t@(.literal x _) => v.dispatch (.type2 t) (v.visitValue x)
  | t@(.typename ident args _) | t@(.unwrap ident args _) | t@(.choiceFromGroup ident args _) =>
    v.dispatch (.type2 t) do
      v.visitIdentifier ident
      visitGenericArgs? args
  | t@(.parenthesized type _) | t@(.tagged _ type _) => v.dispatch (.type2 t) (visitType type)
  | t@(.map group _) | t@(.array group _) | t@(.choiceFromInlineGroup group _) =>
    v.dispatch (.type2 t) (visitGroup group)
  | t@(.major ..) | t@(.any _) => v.dispatch (.type2 t) (pure ())

def visitGroup : Group → m Unit
  | g@⟨choices, _⟩ => v.dispatch (.group g) (visitGroupChoices choices)

def visitGroupChoices : List GroupChoice → m Unit
  | [] => pure ()
  | c :: cs => do
    visitGroupChoice c
    visitGroupChoices cs

def visitGroupChoice : GroupChoice → m Unit
  | c@⟨entries, _⟩ => v.dispatch (.groupChoice c) (visitListedEntries entries)

def visitListedEntries : List ListedEntry → m Unit
  | [] => pure ()
  | ⟨entry, _⟩ :: es => do
    visitGroupEntry entry
    visitListedEntries es

def visitGroupEntry : GroupEntry → m Unit
  | e@(.keyed entry _) => v.dispatch (.groupEntry e) (visitKeyedEntry entry)
  | e@(.named entry _) => v.dispatch (.groupEntry e) (visitNamedEntry entry)
  | e@(.inline occurrence group _) => v.dispatch (.groupEntry e) do
    v.visitOccurrence? occurrence
    visitGroup group

def visitKeyedEntry : KeyedEntry → m Unit
  | e@⟨occurrence, key, type, _⟩ => v.dispatch (.keyedEntry e) do
    v.visitOccurrence? occurrence
    visitMemberKey? key
    visitType type

def visitNamedEntry : NamedEntry → m Unit
  | e@⟨occurrence, name, args, _⟩ => v.dispatch (.namedEntry e) do
    v.visitOccurrence? occurrence
    v.visitIdentifier name
    visitGenericArgs? args

def visitMemberKey? : Option MemberKey → m Unit
  | none => pure ()
  | some k => visitMemberKey k

def visitMemberKey : MemberKey → m Unit
  | k@(.type1 type1 _ _) => v.dispatch (.memberKey k) (visitType1 type1)
  | k@(.bareword ident _) => v.dispatch (.memberKey k) (v.visitIdentifier ident)
  | k@(.literal x _) => v.dispatch (.memberKey k) (v.visitValue x)
  | k@(.enclosed key _) => v.dispatch (.memberKey k) (visitNonMemberKey key)

def visitNonMemberKey : NonMemberKey → m Unit
  | k@(.group group _) => v.dispatch (.nonMemberKey k) (visitGroup group)
  | k@(.type type _) => v.dispatch (.nonMemberKey k) (visitType type)

def visitGenericArgs? : Option GenericArgs → m Unit
  | none => pure ()
  | some a => visitGenericArgs a

def visitGenericArgs : GenericArgs → m Unit
  | a@⟨args, _⟩ => v.dispatch (.genericArgs a) (visitGenericArgList args)

def visitGenericArgList : List GenericArg → m Unit
  | [] => pure ()
  | a :: as => do
    visitGenericArg a
    visitGenericArgList as

def visitGenericArg : GenericArg → m Unit
  | a@⟨arg, _⟩ => v.dispatch (.genericArg a) (visitType1 arg)

end

/-! ## Rules and documents -/

def visitTypeRule (r : TypeRule) : m Unit := v.dispatch (.typeRule r) do
  v.visitIdentifier r.name
  v.visitGenericParams? r.params
  v.visitType r.value

def visitGroupRule (r : GroupRule) : m Unit := v.dispatch (.groupRule r) do
  v.visitIdentifier r.name
  v.visitGenericParams? r.params
  v.visitGroupEntry r.entry

def visitRuleBody : RuleBody → m Unit
  | .type r => v.visitTypeRule r
  | .group r => v.visitGroupRule r

def visitRule (r : Rule) : m Unit := v.dispatch (.rule r) (v.visitRuleBody r.body)

def visitDocument (d : Document) : m Unit := v.dispatch (.document d) (d.rules.forM v.visitRule)

/-! ## Any node -/

/-- Gives a node of any kind to the visitor. -/
def visit : Node → m Unit
  | .document d => v.visitDocument d
  | .rule r => v.visitRule r
  | .typeRule r => v.visitTypeRule r
  | .groupRule r => v.visitGroupRule r
  | .type t => v.visitType t
  | .typeChoice c => v.visitTypeChoice c
  | .type1 t => v.visitType1 t
  | .operator o => v.visitOperator o
  | .type2 t => v.visitType2 t
  | .group g => v.visitGroup g
  | .groupChoice c => v.visitGroupChoice c
  | .groupEntry e => v.visitGroupEntry e
  | .keyedEntry e => v.visitKeyedEntry e
  | .namedEntry e => v.visitNamedEntry e
  | .occurrence o => v.visitOccurrence o
  | .memberKey k => v.visitMemberKey k
  | .nonMemberKey k => v.visitNonMemberKey k
  | .genericParams p => v.visitGenericParams p
  | .genericParam p => v.visitGenericParam p
  | .genericArgs a => v.visitGenericArgs a
  | .genericArg a => v.visitGenericArg a
  | .identifier i => v.visitIdentifier i
  | .value x => v.visitValue x

/-- The walk below a node, without its own method. -/
def walk : Node → m Unit
  | .document d => d.rules.forM v.visitRule
  | .rule r => v.visitRuleBody r.body
  | .typeRule r => do
    v.visitIdentifier r.name
    v.visitGenericParams? r.params
    v.visitType r.value
  | .groupRule r => do
    v.visitIdentifier r.name
    v.visitGenericParams? r.params
    v.visitGroupEntry r.entry
  | .type t => v.visitTypeChoices t.choices
  | .typeChoice c => v.visitType1 c.type1
  | .type1 t => do
    v.visitType2 t.operand
    v.visitOperator? t.operator
  | .operator o => v.visitType2 o.operand
  | .type2 (.literal x _) => v.visitValue x
  | .type2 (.typename ident args _) | .type2 (.unwrap ident args _) | .type2 (.choiceFromGroup ident args _) => do
    v.visitIdentifier ident
    v.visitGenericArgs? args
  | .type2 (.parenthesized type _) | .type2 (.tagged _ type _) => v.visitType type
  | .type2 (.map group _) | .type2 (.array group _) | .type2 (.choiceFromInlineGroup group _) => v.visitGroup group
  | .type2 (.major ..) | .type2 (.any _) => pure ()
  | .group g => v.visitGroupChoices g.choices
  | .groupChoice c => v.visitListedEntries c.entries
  | .groupEntry (.keyed entry _) => v.visitKeyedEntry entry
  | .groupEntry (.named entry _) => v.visitNamedEntry entry
  | .groupEntry (.inline occurrence group _) => do
    v.visitOccurrence? occurrence
    v.visitGroup group
  | .keyedEntry e => do
    v.visitOccurrence? e.occurrence
    v.visitMemberKey? e.key
    v.visitType e.type
  | .namedEntry e => do
    v.visitOccurrence? e.occurrence
    v.visitIdentifier e.name
    v.visitGenericArgs? e.args
  | .occurrence _ => pure ()
  | .memberKey (.type1 type1 _ _) => v.visitType1 type1
  | .memberKey (.bareword ident _) => v.visitIdentifier ident
  | .memberKey (.literal x _) => v.visitValue x
  | .memberKey (.enclosed key _) => v.visitNonMemberKey key
  | .nonMemberKey (.group group _) => v.visitGroup group
  | .nonMemberKey (.type type _) => v.visitType type
  | .genericParams p => p.params.forM v.visitGenericParam
  | .genericParam p => v.visitIdentifier p.param
  | .genericArgs a => v.visitGenericArgList a.args
  | .genericArg a => v.visitType1 a.arg
  | .identifier _ => pure ()
  | .value _ => pure ()

/-- A node of any kind is given to the method for its kind, or walked below. -/
theorem visit_eq (n : Node) : v.visit n = v.dispatch n (v.walk n) := by
  cases n with
  | type x | typeChoice x | type1 x | operator x | type2 x | group x | groupChoice x | groupEntry x | keyedEntry x
  | namedEntry x | memberKey x | nonMemberKey x | genericArgs x | genericArg x => cases x <;> rfl
  | _ => rfl

/-! ## Records of visits -/

/-- A visitor that records each node that it has a method for, and then takes the walk below it or stops. -/
def recorder (step? : NodeKind → Option Tree.Step) : Visitor (StateM (List Node)) where
  method? kind := (step? kind).map fun step n walk => do
    modify (· ++ [n])
    match step with
    | .walk => walk
    | .stop => pure ()

/-- What is recorded when a node is given to such a visitor. -/
def trace (step? : NodeKind → Option Tree.Step) (n : Node) : List Node := (((recorder step?).visit n).run []).2

/-- What is recorded below a node. -/
def traceBelow (step? : NodeKind → Option Tree.Step) (n : Node) : List Node := (((recorder step?).walk n).run []).2

end Visitor
end Cddl
