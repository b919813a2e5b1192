import Chip8.Machine.Execution

/-!
# Frames in time

A host calls `Pacer.update` with the time that went by, in seconds. The pacer keeps what is owed to
the machine and runs one frame for each whole sixtieth of a second in it. After a long stall it
does not catch up: eight frames are run at most, and a frame's worth or more that is still owed
then is dropped.

All times are single precision, rounded after each addition and subtraction.
-/

namespace Chip8

/-- A machine, the time owed to it, and the number of frames that were run. -/
structure Pacer where
  machine : Machine
  owed : Float32 := 0
  frames : Nat := 0

namespace Pacer

def frameRate : Float32 := 60

/-- The length of a frame in seconds. -/
def frameStep : Float32 := 1 / frameRate

/-- The number of frames that one update may run. -/
def maxFrames : Nat := 8

/-- Runs one frame, however much time went by. -/
def runFrame (p : Pacer) : Answer × Pacer :=
  let (answer, machine) := p.machine.cycle
  (answer, { p with machine := machine, frames := p.frames + 1 })

/-- Runs frames while one is owed, `budget` of them at most. The answer is that of the last frame,
or `last` if none was run, and the first fault ends it. -/
def drain : (budget : Nat) → (last : Outcome) → Pacer → Answer × Pacer
  | 0, last, p => if frameStep ≤ p.owed then (.ok last, { p with owed := 0 }) else (.ok last, p)
  | budget + 1, last, p =>
    if frameStep ≤ p.owed then
      match runFrame { p with owed := p.owed - frameStep } with
      | (.ok outcome, next) => drain budget outcome next
      | (.error fault, next) => (.error fault, next)
    else (.ok last, p)

/-- The time that `drain` drops: a frame's worth or more that is still owed when the budget is used
up, if no frame met a fault. -/
def backlog? : (budget : Nat) → Pacer → Option Float32
  | 0, p => if frameStep ≤ p.owed then some p.owed else none
  | budget + 1, p =>
    if frameStep ≤ p.owed then
      match runFrame { p with owed := p.owed - frameStep } with
      | (.ok _, next) => backlog? budget next
      | (.error _, _) => none
    else none

/-- Adds the time that went by and runs the frames that are due. -/
def update (p : Pacer) (dt : Float32) : Answer × Pacer :=
  drain maxFrames (if p.machine.paused then .paused else .idle) { p with owed := p.owed + dt }

/-- The time that an update drops. -/
def dropped? (p : Pacer) (dt : Float32) : Option Float32 :=
  backlog? maxFrames { p with owed := p.owed + dt }

end Pacer

end Chip8
