/-!
# Sinks

A sink keeps the texts that are written to it. One with a capacity refuses every text that would
take it beyond that many bytes, and keeps none of it.
-/

namespace YamlSieve.Output

structure Sink where
  /-- The most bytes the sink takes; without it, it takes any text. -/
  capacity : Option Nat := none
  /-- All that was written so far. -/
  content  : String := ""
deriving DecidableEq, Repr

namespace Sink

def admits (text : String) (sink : Sink) : Bool :=
  match sink.capacity with
  | none   => true
  | some n => sink.content.utf8ByteSize + text.utf8ByteSize ≤ n

/-- Writes a text, unless it does not fit. -/
def write? (text : String) (sink : Sink) : Option Sink :=
  if sink.admits text then some { sink with content := sink.content ++ text } else none

end Sink
end YamlSieve.Output
