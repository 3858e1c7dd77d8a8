import LetLang.Number.Text
import LetLang.Json.Fragment
import LetLang.Json.Parser
import LetLang.Expr.Printer
import LetLang.Expr.Reader
import LetLang.Expr.Reading
import LetLang.Expr.Dismantle
import LetLang.Eval.Machine
import LetLang.Eval.Rules
import LetLang.Session
import LetLang.Main
import LetLang.Proofs.Derivation
import LetLang.Proofs.Replay
import LetLang.Proofs.DepthLimit
import LetLang.Proofs.FiniteDouble
import LetLang.Proofs.Grammar
import LetLang.Proofs.Malformed
import LetLang.Proofs.DataIndependence
import LetLang.Proofs.Bindings
import LetLang.Proofs.Sequencing
import LetLang.Proofs.ExactDouble
import LetLang.Proofs.IntegerText
import LetLang.Proofs.Spelling
import LetLang.Proofs.RoundTrip
import LetLang.Proofs.Isolation
import LetLang.Proofs.LastWrite
import LetLang.Proofs.Footprint
import LetLang.Proofs.Reporting
import LetLang.Proofs.Walk
import LetLang.Proofs.Commuting
import LetLang.Proofs.Causes
import LetLang.Proofs.Concatenation
import LetLang.Proofs.Constants
import LetLang.Proofs.RoundingInterval
import LetLang.Proofs.DecimalText
import LetLang.Proofs.Unambiguous
import LetLang.Proofs.Elision
import LetLang.Proofs.Documents
import LetLang.Proofs.PlainNumeral
import LetLang.Proofs.NearestDouble
import LetLang.Proofs.Teardown
