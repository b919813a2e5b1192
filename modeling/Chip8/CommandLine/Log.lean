import Chip8.Machine.Execution

/-!
# The log

What a run of the program tells about itself. Each event has a level, and a run shows the events
whose level its verbosity reaches. The machine itself writes nothing: `Machine.narrate` tells what
a number of frames of it are to show.
-/

namespace Chip8

namespace CommandLine

/-- How much an event matters. -/
inductive Level where
  | error
  | warn
  | info
  | debug
  | trace
deriving DecidableEq, Repr

/-- The name of a level at the head of a line. -/
def Level.name : Level → String
  | .error => "ERROR"
  | .warn => "WARN"
  | .info => "INFO"
  | .debug => "DEBUG"
  | .trace => "TRACE"

/-- The least verbosity at which events of the level are shown. -/
def Level.verbosity : Level → Nat
  | .error | .warn => 0
  | .info => 1
  | .debug => 2
  | .trace => 3

/-- Something that the log can tell. -/
inductive Event where
  | speedSet (speed : Nat)
  /-- A program of so many bytes was loaded. -/
  | loaded (size : Nat)
  | running (path : String) (frames speed : Nat)
  | fetched (pc word : UInt16)
  | pausing (pc : UInt16) (fault : Fault)
  /-- The frames owed for so many seconds are not run. -/
  | dropping (time : Float32)
  /-- A tone still sounds at the end. -/
  | soundActive
deriving DecidableEq, Repr

namespace Event

def level : Event → Level
  | .speedSet _ | .loaded _ => .debug
  | .running .. | .soundActive => .info
  | .fetched .. => .trace
  | .pausing .. => .error
  | .dropping _ => .warn

def text : Event → String
  | .speedSet speed => s!"Speed set to {speed}"
  | .loaded size => s!"Loaded {size} byte ROM at 0x" ++ Numeral.hex 3 Memory.romStart
  | .running path frames speed => s!"Running {path} for {frames} frames at speed {speed}"
  | .fetched pc word => "0x" ++ Numeral.hex 4 pc.toNat ++ ": " ++ Numeral.hex 4 word.toNat
  | .pausing pc fault => "Pausing at PC 0x" ++ Numeral.hex 4 pc.toNat ++ ": " ++ fault.message
  | .dropping time => "Dropping " ++ Numeral.thousandths time ++ "s of frame backlog"
  | .soundActive => "Sound timer still active"

/-- The line of the event: its level and its text. -/
def line (e : Event) : String := e.level.name ++ " " ++ e.text

end Event

/-- The lines that a run of the given verbosity shows, in order. -/
def logLines (verbosity : Nat) (events : List Event) : List String :=
  (events.filter fun e => e.level.verbosity ≤ verbosity).map Event.line

end CommandLine

namespace Machine

open CommandLine (Event)

/-- The events of one step of `m` that gave `answer`: the word, if one was fetched, and the fault,
if there was one. -/
def stepEvents (m : Machine) (answer : Answer) : List Event :=
  if m.paused then []
  else
    let fetched :=
      match m.fetch with
      | .ok word => [Event.fetched m.pc word]
      | .error _ => []
    match answer with
    | .ok _ => fetched
    | .error fault => fetched ++ [.pausing m.pc fault]

/-- The events of the next `frames` frames. -/
def narrate : (frames : Nat) → Machine → List Event
  | 0, _ => []
  | frames + 1, m =>
    let (answer, next) := m.cycle
    m.stepEvents answer ++ narrate frames next

end Machine

end Chip8
