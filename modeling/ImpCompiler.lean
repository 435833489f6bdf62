import ImpCompiler.ErrorLog
import ImpCompiler.Main
import ImpCompiler.Stack
import ImpCompiler.Proofs.Lower.Meaning
import ImpCompiler.Proofs.Code.Available
import ImpCompiler.Proofs.Code.Numbering
import ImpCompiler.Proofs.Live.Classes
import ImpCompiler.Proofs.Live.Liveness
import ImpCompiler.Proofs.Live.Ranges
import ImpCompiler.Proofs.Lower.Available
import ImpCompiler.Proofs.Code.Exits
import ImpCompiler.Proofs.Lower.Control
import ImpCompiler.Proofs.Lower.Programs
import ImpCompiler.Proofs.Lower.Returns
import ImpCompiler.Proofs.Lower.Slots
import ImpCompiler.Proofs.Typing.Complete
import ImpCompiler.Proofs.Lower.Dominance
import ImpCompiler.Proofs.Machine.Allocation
import ImpCompiler.Proofs.Machine.Storage
import ImpCompiler.Proofs.Tree.Fold
import ImpCompiler.Proofs.Jobs.Threads
import ImpCompiler.Proofs.Token.Layout
import ImpCompiler.Proofs.Tree.Derives
import ImpCompiler.Proofs.Code.Session
import ImpCompiler.Proofs.Typing.Order
import ImpCompiler.Proofs.Typing.Places
import ImpCompiler.Proofs.Code.Ordering
import ImpCompiler.Proofs.Machine.Places
import ImpCompiler.Proofs.Live.Exact
import ImpCompiler.Proofs.Lower.Forward
import ImpCompiler.Proofs.Live.Canonical
import ImpCompiler.Proofs.Live.Coalescing
import ImpCompiler.Proofs.Live.Paths
import ImpCompiler.Proofs.Typing.Indices
import ImpCompiler.Proofs.Code.Reachable
import ImpCompiler.Proofs.Code.Housed
import ImpCompiler.Proofs.Machine.Pressure
import ImpCompiler.Proofs.Live.Copies
import ImpCompiler.Proofs.Lower.Copies
import ImpCompiler.Proofs.Machine.Moves
import ImpCompiler.Proofs.Tree.Normal
import ImpCompiler.Proofs.Token.Respacing
import ImpCompiler.Proofs.Typing.Scopes
import ImpCompiler.Proofs.Lower.Strings
import ImpCompiler.Proofs.Token.Window
import ImpCompiler.Proofs.Token.Modes
import ImpCompiler.Proofs.Tree.Descent
