import Reckoner.Session
import Reckoner.Main
import Reckoner.Proofs.ShortCircuit
import Reckoner.Proofs.Growth
import Reckoner.Proofs.Reach
import Reckoner.Proofs.Exhaustion
import Reckoner.Proofs.Homomorphism
import Reckoner.Proofs.Syntax.Meaning
import Reckoner.Proofs.LastSplit
import Reckoner.Proofs.Alongside
import Reckoner.Proofs.Derivation
import Reckoner.Proofs.DiceCount
import Reckoner.Proofs.Nesting
import Reckoner.Proofs.Number.Finite
import Reckoner.Proofs.Overflow
import Reckoner.Proofs.Draws
import Reckoner.Proofs.OtherLimits
import Reckoner.Proofs.Token
import Reckoner.Proofs.Insertion
import Reckoner.Proofs.Apart
import Reckoner.Proofs.ImplicitProduct
import Reckoner.Proofs.Diceless
import Reckoner.Proofs.SessionGrowth
import Reckoner.Proofs.Termination
import Reckoner.Proofs.Alphabet
import Reckoner.Proofs.ArgumentList
import Reckoner.Proofs.Conversation
import Reckoner.Proofs.ReportLines
import Reckoner.Proofs.Rounds
import Reckoner.Proofs.RollTotal
import Reckoner.Proofs.RollLines
import Reckoner.Proofs.FlatChain
import Reckoner.Proofs.Settings
import Reckoner.Proofs.Factorial
import Reckoner.Proofs.Number.Display
import Reckoner.Proofs.Trailing
import Reckoner.Proofs.LongestName
import Reckoner.Proofs.SplitPoints
import Reckoner.Proofs.Scanners
