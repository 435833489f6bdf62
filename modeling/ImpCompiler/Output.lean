import ImpCompiler.Text

/-!
# Output — where results go

Results are gathered in the buffers of writers and reach the sink in one piece each
time a writer is flushed. A sink may have room for a limited number of pieces and
refuses those beyond it.
-/

namespace ImpCompiler

set_option autoImplicit false

inductive WriteError where
  | refused
  deriving DecidableEq, Repr

def WriteError.message : WriteError → Text
  | .refused => "write failed"

structure Sink where
  content : Text
  /-- How many more pieces the sink takes; none if there is no limit. -/
  room : Option Nat
  deriving Repr

namespace Sink

def unlimited : Sink := ⟨[], none⟩

def limited (n : Nat) : Sink := ⟨[], some n⟩

/-- Takes a piece, unless there is no room for it. -/
def write (s : Sink) (t : Text) : Sink × Option WriteError :=
  match s.room with
  | none => (⟨s.content ++ t, none⟩, none)
  | some (n + 1) => (⟨s.content ++ t, some n⟩, none)
  | some 0 => (s, some .refused)

end Sink

structure Writer where
  buffer : Text
  deriving Repr

namespace Writer

def empty : Writer := ⟨[]⟩

def add (w : Writer) (t : Text) : Writer := ⟨w.buffer ++ t⟩

/-- Passes the buffer on to a sink. It is empty afterwards, also if the sink refused
it. -/
def flush (w : Writer) (s : Sink) : Writer × Sink × Option WriteError := (empty, s.write w.buffer)

end Writer

end ImpCompiler
