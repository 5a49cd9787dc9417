import Bourse.Exchange
import Bourse.Main
import Bourse.Service
import Bourse.Simulation.Command
import Bourse.Proofs.Decimal.Rounding
import Bourse.Proofs.Decimal.Sum
import Bourse.Proofs.Decimal.Quotient
import Bourse.Proofs.Decimal.Product
import Bourse.Proofs.Fill
import Bourse.Proofs.Store
import Bourse.Proofs.Book
import Bourse.Proofs.Conservation
import Bourse.Proofs.Overfill
import Bourse.Proofs.Priority
import Bourse.Proofs.Custom
import Bourse.Proofs.Conduct
import Bourse.Proofs.Crowd
import Bourse.Proofs.Shared
import Bourse.Proofs.Turns
import Bourse.Proofs.Alone
import Bourse.Proofs.Course
import Bourse.Proofs.Uncrossed
import Bourse.Proofs.Precedence
import Bourse.Proofs.Ledger
import Bourse.Proofs.Trace
import Bourse.Proofs.Cut
import Bourse.Proofs.Mending
import Bourse.Proofs.Sweep
import Bourse.Proofs.Mirror
import Bourse.Proofs.Beside
import Bourse.Proofs.Overlooked
import Bourse.Proofs.Lasting
import Bourse.Proofs.Recovery
import Bourse.Proofs.Demand
import Bourse.Proofs.Tally
import Bourse.Proofs.Account
import Bourse.Proofs.Headroom
import Bourse.Proofs.Upheld
import Bourse.Proofs.News
import Bourse.Proofs.Nomination
import Bourse.Proofs.Price
import Bourse.Proofs.Likeness
import Bourse.Proofs.Apart
import Bourse.Proofs.Average
import Bourse.Proofs.Faults
import Bourse.Proofs.Lifecycle
import Bourse.Proofs.Value
import Bourse.Proofs.Counters
import Bourse.Proofs.Quotes
import Bourse.Proofs.Owners
import Bourse.Proofs.Completion
import Bourse.Proofs.Repeat
import Bourse.Proofs.SellPass
import Bourse.Proofs.Time.Gregorian
import Bourse.Proofs.Text.Digits
import Bourse.Proofs.Time.Session
import Bourse.Proofs.Time.Hours
import Bourse.Proofs.Decimal.Text
import Bourse.Proofs.Time.Text
import Bourse.Proofs.Json
import Bourse.Proofs.Wire
