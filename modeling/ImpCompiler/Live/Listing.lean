import ImpCompiler.Live.Analysis
import ImpCompiler.Output

/-!
# Live.Listing — the listing of code with live ranges

The text of a module is one piece of output. On demand the live ranges of its
functions follow, one piece for each function, which is numbered for it.
-/

namespace ImpCompiler

set_option autoImplicit false

inductive ListingError where
  | write (e : WriteError)
  | live (e : LiveError)

namespace Module

def writeIntervals (sink : Sink) : List Func → List Func × Sink × Option ListingError
  | [] => ([], sink, none)
  | f :: rest =>
    match f.intervals with
    | (f, .error e) => (f :: rest, sink, some (.live e))
    | (f, .ok iv) =>
      match sink.write iv.text with
      | (sink, some e) => (f :: rest, sink, some (.write e))
      | (sink, none) =>
        let (rest, sink, stop) := writeIntervals sink rest
        (f :: rest, sink, stop)

/-- Writes a module to a sink, with the live ranges of its functions if `live` says
so. -/
def write (m : Module) (live : Bool) (sink : Sink) : Module × Sink × Option ListingError :=
  match sink.write m.text with
  | (sink, some e) => (m, sink, some (.write e))
  | (sink, none) =>
    if live then
      let (fs, sink, stop) := writeIntervals sink m.functions
      ({ m with functions := fs }, sink, stop)
    else (m, sink, none)

end Module

end ImpCompiler
