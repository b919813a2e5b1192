import Chip8.Machine.Basic
import Chip8.Numeral

/-!
# Parameters of the command line

The program takes one path and some options. An option has a long name and most have a short one;
some take a value and the others are flags. This file has their names and the rules for their
values: speeds, numbers of frames, and lists of keys.
-/

namespace Chip8.CommandLine

/-- Something that can be given on the command line. -/
inductive Parameter where
  | path
  | speed
  | frames
  | keys
  | realtime
  | dump
  | verbose
  | help
deriving DecidableEq, Repr

namespace Parameter

/-- The name of the parameter in messages, with its value. -/
def usageName : Parameter → String
  | .path => "<ROM_PATH>"
  | .speed => "--speed <SPEED>"
  | .frames => "--frames <FRAMES>"
  | .keys => "--keys <KEYS>"
  | .realtime => "--realtime"
  | .dump => "--dump"
  | .verbose => "--verbose..."
  | .help => "--help"

/-- The option of a long name, written without its dashes. Long names are not abbreviated. -/
def ofLong? (name : List Char) : Option Parameter :=
  match String.ofList name with
  | "speed" => some .speed
  | "frames" => some .frames
  | "keys" => some .keys
  | "realtime" => some .realtime
  | "dump" => some .dump
  | "verbose" => some .verbose
  | "help" => some .help
  | _ => none

def ofShort? : Char → Option Parameter
  | 's' => some .speed
  | 'f' => some .frames
  | 'k' => some .keys
  | 'd' => some .dump
  | 'v' => some .verbose
  | 'h' => some .help
  | _ => none

def takesValue : Parameter → Bool
  | .path | .speed | .frames | .keys => true
  | .realtime | .dump | .verbose | .help => false

end Parameter

/-! ## Values -/

/-- Why a value was refused. -/
inductive ValueError where
  | numeral (error : Numeral.ReadError)
  | above (limit : Nat)
  | below (limit : Nat)
  | notAKey (text : List Char)
deriving DecidableEq, Repr

def ValueError.message : ValueError → String
  | .numeral error => error.message
  | .above limit => s!"exceeds maximum of {limit}"
  | .below limit => s!"less than minimum of {limit}"
  | .notAKey text => "Invalid key: '" ++ String.ofList text ++ "', expected 0-F"

/-- The greatest number of eight bits. -/
def byteLimit : Nat := UInt8.size - 1

def frameLimit : Nat := UInt64.size - 1

/-- Reads a speed: a decimal number in the range of speeds. -/
def readSpeed (text : List Char) : Except ValueError Nat :=
  match Numeral.read 10 byteLimit text with
  | .error e => .error (.numeral e)
  | .ok speed =>
    if speed > Machine.maxSpeed then .error (.above Machine.maxSpeed)
    else if speed < Machine.minSpeed then .error (.below Machine.minSpeed)
    else .ok speed

/-- Reads a number of frames, hexadecimal after `0x` or `0X` and otherwise decimal. -/
def readFrames (text : List Char) : Except ValueError Nat :=
  let number :=
    match text with
    | '0' :: 'x' :: digits => Numeral.read 16 frameLimit digits
    | '0' :: 'X' :: digits => Numeral.read 16 frameLimit digits
    | digits => Numeral.read 10 frameLimit digits
  number.mapError .numeral

/-- Reads a key: a hexadecimal number of at most 15. -/
def readKey (text : List Char) : Except ValueError Nibble :=
  match (Numeral.read 16 byteLimit text).toOption.bind Nibble.ofNat? with
  | some key => .ok key
  | none => .error (.notAKey text)

/-- The pieces of a text between its commas; a text without a comma is its own only piece. -/
def piecesOf : List Char → List (List Char)
  | [] => [[]]
  | c :: cs =>
    if c = ',' then [] :: piecesOf cs
    else
      match piecesOf cs with
      | [] => [[c]]
      | piece :: pieces => (c :: piece) :: pieces

end Chip8.CommandLine
