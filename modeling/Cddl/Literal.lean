import Cddl.Binary64
/-!
# Literal values
-/
namespace Cddl

/-- How the content of a byte string is spelled: as plain text, in base 16 or in base 64. -/
inductive ByteEncoding where
  | utf8 | base16 | base64
  deriving DecidableEq, Repr

/-- A literal, with text and byte content as it stands after the escapes are resolved.  Integers are exact and remember
whether they were written with a sign, since only an unsigned one may count occurrences. -/
inductive Literal where
  | int (n : Int)
  | uint (n : Int)
  | float (x : Binary64)
  | text (content : Text)
  | bytes (encoding : ByteEncoding) (content : Text)
  deriving DecidableEq, Repr

end Cddl
