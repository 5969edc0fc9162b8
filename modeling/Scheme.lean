import Scheme.Main
import Scheme.Proofs.Binding
import Scheme.Proofs.Definition
import Scheme.Proofs.Depth
import Scheme.Proofs.Drivers
import Scheme.Proofs.Expansion
import Scheme.Proofs.Faults.Announced
import Scheme.Proofs.Identity
import Scheme.Proofs.Isolation
import Scheme.Proofs.Persistence
import Scheme.Proofs.Reading.Completion
import Scheme.Proofs.Reading.Grammar
import Scheme.Proofs.Reading.RoundTrip
import Scheme.Proofs.Procedures
import Scheme.Proofs.Reentry
import Scheme.Proofs.Scoping
import Scheme.Proofs.TailCalls
import Scheme.Proofs.Texts
import Scheme.Proofs.Towers
import Scheme.Proofs.Trampoline
import Scheme.Proofs.Reading.Layout
import Scheme.Proofs.Accounting
import Scheme.Proofs.Reading.Advance
import Scheme.Proofs.Numbers.Division
import Scheme.Proofs.Numbers.Order
import Scheme.Proofs.Append
import Scheme.Proofs.Equality
import Scheme.Proofs.FrameText
import Scheme.Proofs.Numbers.Shortest
import Scheme.Proofs.Numbers.Kinds
import Scheme.Proofs.Operands
