import Chip8.Host
import Chip8.Main
import Chip8.Proofs.Arguments
import Chip8.Proofs.Bounds
import Chip8.Proofs.Faults
import Chip8.Proofs.Loading
import Chip8.Proofs.Pacing
import Chip8.Proofs.Pausing
import Chip8.Proofs.Safety
import Chip8.Proofs.Subroutines
import Chip8.Proofs.Timers
import Chip8.Proofs.Updates
import Chip8.Proofs.Sessions
import Chip8.Proofs.RealTime
import Chip8.Proofs.Stores
import Chip8.Proofs.Keys
import Chip8.Proofs.RandomBytes
import Chip8.Proofs.Schedules
import Chip8.Proofs.Strokes
import Chip8.Proofs.ControlFlow
import Chip8.Proofs.Sprites
import Chip8.Proofs.Footprints
import Chip8.Proofs.Overlays
import Chip8.Proofs.Stamps
import Chip8.Proofs.Arithmetic
import Chip8.Proofs.Blocks
import Chip8.Proofs.Plots
import Chip8.Proofs.Patterns
import Chip8.Proofs.Pictures
import Chip8.Proofs.Logs
import Chip8.Proofs.KeyOptions
import Chip8.Proofs.Refusals
