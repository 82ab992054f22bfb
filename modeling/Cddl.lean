import Cddl.Main
import Cddl.Arena.Keyed
import Cddl.Grammar.Request
import Cddl.Visitor
import Cddl.Proofs.Containment.Document
import Cddl.Proofs.Datum.Key
import Cddl.Proofs.Grammar
import Cddl.Proofs.Joined
import Cddl.Proofs.Relaid
import Cddl.Proofs.Report
import Cddl.Proofs.RoundTrip
import Cddl.Proofs.Termination
import Cddl.Proofs.Ancestry.Listing
import Cddl.Proofs.Stretch
import Cddl.Proofs.Stretch.Document
import Cddl.Proofs.Stretch.Order
import Cddl.Proofs.Stretch.Count
import Cddl.Proofs.Token.Cut
import Cddl.Proofs.Loosened
import Cddl.Proofs.Loosened.Entry
import Cddl.Proofs.Loosened.Rule
import Cddl.Proofs.Phrase.Apart
import Cddl.Proofs.Spaced
import Cddl.Proofs.Ancestry.Rooted
import Cddl.Proofs.Ancestry.Kinds
import Cddl.Proofs.Ancestry.Keyed
import Cddl.Proofs.Reading.Request
import Cddl.Proofs.Shape
import Cddl.Proofs.Arena.Keyed
import Cddl.Proofs.Words
import Cddl.Proofs.Alone
import Cddl.Proofs.Asterisk
import Cddl.Proofs.Redefined
import Cddl.Proofs.Extended
import Cddl.Proofs.Token.ReadBack
import Cddl.Proofs.Recovery.Attempts
import Cddl.Proofs.Token.Counters
import Cddl.Proofs.Token.Longest.Numeral
import Cddl.Proofs.Token.Respaced
import Cddl.Proofs.Agreement
import Cddl.Proofs.Caret
import Cddl.Proofs.Visits
import Cddl.Proofs.Json.Document
import Cddl.Proofs.Checked
