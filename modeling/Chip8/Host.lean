import Chip8.Pacer

/-!
# The host's calls

What a host may do to a machine and its pacer, as data. A history of a machine is a list of calls,
so that what holds throughout every history can be said about `Pacer.performAll`.
-/

namespace Chip8

inductive Call where
  | load (rom : List UInt8)
  | step
  /-- Runs one frame of the machine that the pacer does not count. -/
  | cycle
  | runFrame
  /-- Lets time go by. -/
  | update (dt : Float32)
  | tick
  | press (key : UInt8)
  | release (key : UInt8)
  | setSpeed (speed : UInt8)
  | speedUp
  | speedDown

namespace Pacer

def mapMachine (f : Machine → Machine) (p : Pacer) : Pacer := { p with machine := f p.machine }

/-- An answer of the machine, with the machine put back into its pacer. -/
def answered (p : Pacer) : Answer × Machine → Except Fault (Option Outcome) × Pacer
  | (answer, machine) => (answer.map some, { p with machine := machine })

/-- Carries out a call. The answer holds an outcome if the call runs the machine. -/
def perform (p : Pacer) : Call → Except Fault (Option Outcome) × Pacer
  | .load rom =>
    match p.machine.load rom with
    | .ok machine => (.ok none, { p with machine := machine })
    | .error fault => (.error fault, p)
  | .step => p.answered p.machine.step
  | .cycle => p.answered p.machine.cycle
  | .runFrame => p.runFrame.map (·.map some) id
  | .update dt => (p.update dt).map (·.map some) id
  | .tick => (.ok none, p.mapMachine Machine.tick)
  | .press key => (.ok none, p.mapMachine (·.press key))
  | .release key => (.ok none, p.mapMachine (·.release key))
  | .setSpeed speed => (.ok none, p.mapMachine (·.setSpeed speed.toNat))
  | .speedUp => (.ok none, p.mapMachine Machine.speedUp)
  | .speedDown => (.ok none, p.mapMachine Machine.speedDown)

/-- The pacer after a list of calls, the first one first. -/
def performAll (p : Pacer) (calls : List Call) : Pacer :=
  calls.foldl (fun p call => (p.perform call).2) p

def ofSeed (seed : UInt64) : Pacer := { machine := Machine.ofSeed seed }

end Pacer

end Chip8
