import Chip8.CommandLine.Arguments
import Chip8.CommandLine.Log
import Chip8.Pacer

/-!
# A run of the program

The program reads its arguments and a file, plays the file for a number of frames and prints the
display. A `Session` is such a run under way. It goes on in turns until the frames asked for were
run, a fault ended it or the machine was found paused: one frame a turn, or in real time the frames
that are due after each measured interval.

`run` is the whole program as a function of what it reads (`World`) and its arguments, and `Report`
is all that it leaves.
-/

namespace Chip8.CommandLine

/-- Why a run ended without a result. -/
inductive Failure where
  /-- The arguments start no run. -/
  | refused (refusal : Refusal)
  /-- The file could not be read, for a reason given by the system. -/
  | unreadable (reason : String)
  /-- The program could not be loaded. -/
  | unloadable (fault : Fault)
  | stopped (fault : Fault)
deriving DecidableEq, Repr

namespace Failure

/-- The exit code of a failed run: 2 if the arguments are at fault, and otherwise 1. -/
def exitCode : Failure → UInt8
  | .refused _ => 2
  | .unreadable _ | .unloadable _ | .stopped _ => 1

def message : Failure → String
  | .refused refusal => refusal.message
  | .unreadable _ => "Failed to read ROM file"
  | .unloadable _ => "Failed to load ROM into CHIP-8 memory"
  | .stopped _ => "Chip8 Execution error"

def causes : Failure → List String
  | .refused _ => []
  | .unreadable reason => [reason]
  | .unloadable fault | .stopped fault => [fault.message]

end Failure

/-! ## Turns -/

/-- What a session does before it looks again at whether it is due. -/
inductive Turn where
  /-- One frame. -/
  | frame
  /-- The frames that are due after so many seconds. -/
  | interval (dt : Float32)
deriving DecidableEq, Repr

namespace Turn

def run : Turn → Pacer → Answer × Pacer
  | .frame, p => p.runFrame
  | .interval dt, p => p.update dt

/-- The time that the turn drops. -/
def dropped? : Turn → Pacer → Option Float32
  | .frame, _ => none
  | .interval dt, p => p.dropped? dt

/-- The events of the frames that the turn runs, and then that of the time it drops. -/
def events (t : Turn) (p : Pacer) : List Event :=
  p.machine.narrate ((t.run p).2.frames - p.frames) ++ ((t.dropped? p).map .dropping).toList

end Turn

/-! ## Sessions -/

structure Session where
  settings : Settings
  pacer : Pacer
  /-- What the log has to tell so far. -/
  events : Array Event
  /-- The fault that ended the run. -/
  fault : Option Fault := none
  /-- Whether the machine was found paused. -/
  halted : Bool := false

namespace Session

/-- The machine with a program loaded and the keys pressed in their order. -/
def startMachine (s : Settings) (rom : List UInt8) (key : Random.Key) : Except Fault Machine :=
  (((Machine.ofKey key).setSpeed s.speed).load rom).map fun m =>
    s.keys.foldl (fun m key => m.press key.val.toUInt8) m

/-- The events up to the first frame. -/
def opening (s : Settings) (rom : List UInt8) : Array Event :=
  #[.speedSet s.speed, .loaded rom.length, .running s.path s.frames s.speed]

/-- A session before its first turn. -/
def start (s : Settings) (rom : List UInt8) (key : Random.Key) : Except Fault Session :=
  (startMachine s rom key).map fun machine =>
    { settings := s, pacer := { machine }, events := opening s rom }

def isDue (s : Session) : Bool :=
  s.fault.isNone && !s.halted && decide (s.pacer.frames < s.settings.frames)

/-- The session after one turn. -/
def turn (s : Session) (t : Turn) : Session :=
  let (answer, pacer) := t.run s.pacer
  let s := { s with pacer := pacer, events := s.events ++ t.events s.pacer }
  match answer with
  | .error fault => { s with fault := some fault }
  | .ok outcome => { s with halted := outcome == .paused }

/-- Takes the turns that are due, at most `turns` of them. Turn `k` is `go k`. -/
def play (go : Nat → Turn) : (turns k : Nat) → Session → Session
  | 0, _, s => s
  | turns + 1, k, s => if s.isDue then play go turns (k + 1) (s.turn (go k)) else s

def output (s : Session) : String :=
  s.pacer.machine.display.text ++
    if s.settings.dump then s.pacer.machine.summary ++ "\n" else ""

/-- The events after the last frame. -/
def closing (s : Session) : Array Event :=
  if s.fault.isNone && s.pacer.machine.hasSound then #[.soundActive] else #[]

/-- The result of a session after its last turn. -/
def result (s : Session) : Except Failure String :=
  match s.fault with
  | some fault => .error (.stopped fault)
  | none => .ok s.output

end Session

/-! ## The whole program -/

/-- What a run depends on besides its arguments. -/
structure World where
  /-- The bytes of a file, or why it cannot be read. -/
  fileAt : String → Except String (List UInt8)
  /-- The key of the random bytes, which the system draws. -/
  key : Random.Key
  /-- The length of each interval measured in real time. -/
  interval : Nat → Float32
  /-- The program sleeps for a frame's length in each interval. -/
  frameStep_le_interval : ∀ k, Pacer.frameStep ≤ interval k

structure Report where
  exitCode : UInt8
  output : String
  error : Option String
  causes : List String
  log : List String
deriving DecidableEq, Repr

namespace Report

/-- The report of a failed run, which prints nothing. -/
def ofFailure (failure : Failure) (log : List String) : Report where
  exitCode := failure.exitCode
  output := ""
  error := some failure.message
  causes := failure.causes
  log := log

/-- The report of a run with a result and a log. -/
def ofResult (log : List String) : Except Failure String → Report
  | .ok output => { exitCode := 0, output, error := none, causes := [], log }
  | .error failure => ofFailure failure log

/-- The report of a run whose arguments start none: help is printed, and all else is an error. -/
def ofRefusal : Refusal → Report
  | .help =>
    { exitCode := 0, output := Refusal.help.message, error := none, causes := [], log := [] }
  | refusal => ofFailure (.refused refusal) []

/-- The report of a program that could not be loaded. -/
def unloadable (s : Settings) (fault : Fault) : Report :=
  ofFailure (.unloadable fault) (logLines s.verbosity [.speedSet s.speed])

/-- The report of a session after its last turn. -/
def ofSession (s : Session) : Report :=
  ofResult (logLines s.settings.verbosity (s.events ++ s.closing).toList) s.result

end Report

/-- Turn `k` of a session. -/
def World.go (w : World) (s : Settings) (k : Nat) : Turn :=
  if s.realtime then .interval (w.interval k) else .frame

/-- The run of a program that was read. As many turns as frames are enough, since no interval is
shorter than a frame. -/
def runRom (w : World) (s : Settings) (rom : List UInt8) : Report :=
  match Session.start s rom w.key with
  | .error fault => .unloadable s fault
  | .ok session => .ofSession (session.play (w.go s) s.frames 0)

def runSettings (w : World) (s : Settings) : Report :=
  match w.fileAt s.path with
  | .error reason => .ofFailure (.unreadable reason) []
  | .ok rom => runRom w s rom

def run (w : World) (arguments : List String) : Report :=
  match Settings.ofArguments arguments with
  | .error refusal => .ofRefusal refusal
  | .ok s => runSettings w s

end Chip8.CommandLine
