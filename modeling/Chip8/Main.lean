import Chip8.CommandLine.Session

/-!
# The command line program

Reads a file, plays it and prints the display, with the log on standard error as it comes. All
decisions are made by `Chip8.CommandLine`; this file reads, waits and prints.
-/

namespace Chip8.CommandLine

/-- Prints the events that the verbosity lets through. -/
def showEvents (verbosity : Nat) (events : Array Event) : IO Unit :=
  (logLines verbosity events.toList).forM fun line => IO.eprintln line

/-- The seconds between two readings of the clock in nanoseconds. -/
def secondsBetween (start stop : Nat) : Float32 := ((stop - start).toFloat / 1e9).toFloat32

/-- Takes the turns of a session, in real time after waiting for a frame's length each. -/
partial def playLive (s : Session) (clock : Nat) : IO Session := do
  if !s.isDue then return s
  if s.settings.realtime then IO.sleep 17
  let now ← IO.monoNanosNow
  let next := s.turn (if s.settings.realtime then .interval (secondsBetween clock now) else .frame)
  showEvents s.settings.verbosity (next.events.extract s.events.size next.events.size)
  playLive next now

def showReport (r : Report) : IO UInt32 := do
  IO.print r.output
  if let some error := r.error then
    IO.eprintln ("Error: " ++ error)
    r.causes.forM fun cause => IO.eprintln ("  caused by: " ++ cause)
  return r.exitCode.toUInt32

/-- A key that differs from run to run, each word from four bytes of the system. -/
def freshKey : IO Random.Key := do
  let bytes ← IO.getRandomBytes 32
  let word (i : Nat) : UInt32 :=
    ((bytes.toList.drop (4 * i)).take 4).foldr (fun byte word => word * 256 + byte.toUInt32) 0
  return Vector.ofFn fun i => word i

def readFile (path : String) : IO (Except String (List UInt8)) := do
  match ← (IO.FS.readBinFile path).toBaseIO with
  | .ok bytes => return .ok bytes.toList
  | .error (.noFileOrDirectory ..) => return .error "No such file or directory (os error 2)"
  | .error e => return .error (toString e)

def runLive (s : Settings) (rom : List UInt8) : IO UInt32 := do
  match Session.start s rom (← freshKey) with
  | .error fault =>
    showEvents s.verbosity #[.speedSet s.speed]
    showReport (.unloadable s fault)
  | .ok session =>
    showEvents s.verbosity session.events
    let session ← playLive session (← IO.monoNanosNow)
    showEvents s.verbosity session.closing
    showReport (.ofSession session)

end Chip8.CommandLine

open Chip8.CommandLine in
def main (arguments : List String) : IO UInt32 := do
  match Settings.ofArguments arguments with
  | .error refusal => showReport (.ofRefusal refusal)
  | .ok s =>
    match ← readFile s.path with
    | .error reason => showReport (.ofFailure (.unreadable reason) [])
    | .ok rom => runLive s rom
