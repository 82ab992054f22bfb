import Cddl.Grammar.Document
import Cddl.Node
/-!
# Reading piece by piece

A session can be asked for any one thing of the grammar, not only for a whole document, and asked again after it has
failed.  It goes on from where the last request has left it.
-/
namespace Cddl

/-- What a single production reads. -/
inductive Part where
  | rule
  | genericParams
  | genericArgs
  | type
  | type1
  | type2
  | group
  | groupChoice
  | groupEntry
  | occurrence
  deriving DecidableEq, Repr

namespace Part

open Production

/-- The reader of a part.  Only an occurrence can be missing. -/
def reader : Part → Reader (Option Node)
  | .rule => do return some (.rule (← closed Production.rule))
  | .genericParams => do return some (.genericParams (← Production.genericParams))
  | .genericArgs => do return some (.genericArgs (← closed Production.genericArgs))
  | .type => do return some (.type (← closed fun nested => typeExpr (Production.type1 nested)))
  | .type1 => do return some (.type1 (← closed Production.type1))
  | .type2 => do return some (.type2 (← closed Production.type2))
  | .group => do return some (.group (← closed Production.group))
  | .groupChoice => do return some (.groupChoice (← closed Production.groupChoice))
  | .groupEntry => do return some (.groupEntry (← closed Production.groupEntry))
  | .occurrence => do return (← occurrence?).map .occurrence

end Part

/-- What a session can be asked for. -/
inductive Request where
  | document
  | part (p : Part)
  deriving DecidableEq, Repr

namespace Session

/-- The answer to a request, and the session after it. -/
def ask (s : Session) : Request → Except Fault (Option Node) × Session
  | .document => let (result, s) := s.document; (result.map (some ∘ .document), s)
  | .part p => s.read p.reader

/-- The session after some requests. -/
def after (s : Session) (requests : List Request) : Session := requests.foldl (fun s r => (s.ask r).2) s

end Session
end Cddl
