import Chip8.CommandLine.Parameter
import Chip8.CommandLine.PlainText

/-!
# Reading the arguments

Arguments are read from left to right. A value may stand in an argument of its own (`-s 3`) or be
attached (`-s3`, `-s=3`, `--speed=3`), flags may be grouped behind one dash, and after `--` every
argument is a path.

A path or a value in an argument of its own is kept pending and looked at when the next option, the
next path or the end comes. An argument that cannot be placed at all is reported at once, before
whatever is pending. So in `-s 9 --bogus` the unknown option is reported, and in `-s 9 rom` the
speed.
-/

namespace Chip8.CommandLine

/-- Why the arguments do not start a run. -/
inductive Refusal where
  | help
  /-- An option that does not exist, or one path too many. -/
  | unexpectedArgument (text : List Char)
  /-- A value that the parameter does not admit. -/
  | invalidValue (text : List Char) (parameter : Parameter) (error : ValueError)
  /-- No value, or an empty path. -/
  | missingValue (parameter : Parameter)
  /-- An option that may be given once was given again. -/
  | repeated (parameter : Parameter)
  /-- A value attached to a flag. -/
  | unexpectedValue (text : List Char) (parameter : Parameter)
  | missingPath
deriving DecidableEq, Repr

def helpText : String :=
  "Usage: [OPTIONS] <ROM_PATH>\n\n" ++
  "Options:\n" ++
  "  -s, --speed <SPEED>    Frames between timer ticks (1-5)\n" ++
  "  -f, --frames <FRAMES>  Number of frames to run\n" ++
  "      --realtime         Pace frames at 60 Hz instead of running as fast as possible\n" ++
  "  -k, --keys <KEYS>      Keys (0-F) held down for the whole run\n" ++
  "  -d, --dump             Print the register state after the run\n" ++
  "  -v, --verbose...       Increase log verbosity (-v info, -vv debug, -vvv trace)\n" ++
  "  -h, --help             Print help\n"

/-- The end of a message, where help is offered. -/
def helpOffer (closing : String) : List String :=
  [closing ++ "\n\nFor more information, try '", "--help", "'."]

/-- The text for arguments that start no run, in runs of one style. Quoted arguments and names stand
out from the text around them, except in the reason for which a value was refused. -/
def Refusal.runs : Refusal → List String
  | .help => [helpText]
  | .unexpectedArgument text =>
    ["unexpected argument '", String.ofList text] ++ helpOffer "' found"
  | .invalidValue text parameter error =>
    ["invalid value '", String.ofList text, "' for '", parameter.usageName] ++
      helpOffer ("': " ++ error.message)
  | .missingValue parameter =>
    ["a value is required for '", parameter.usageName] ++ helpOffer "' but none was supplied"
  | .repeated parameter =>
    ["the argument '", parameter.usageName] ++ helpOffer "' cannot be used multiple times"
  | .unexpectedValue text parameter =>
    ["unexpected value '", String.ofList text, "' for '", parameter.usageName] ++
      helpOffer "' found; no more were expected"
  | .missingPath =>
    ["the following required arguments were not provided:\n  ", "<ROM_PATH>"] ++ helpOffer ""

/-- The text shown for arguments that start no run, as plain text. A change of style ends a control
sequence, so each run is plain text by itself. -/
def Refusal.message (r : Refusal) : String :=
  String.ofList (r.runs.flatMap fun run => PlainText.plain run.toList)

/-- What the arguments ask for. -/
structure Settings where
  path : String := ""
  speed : Nat := 1
  frames : Nat := 600
  keys : List Nibble := []
  realtime : Bool := false
  dump : Bool := false
  verbosity : Nat := 0
deriving DecidableEq, Repr

/-- How far the arguments have been read. -/
structure Reader where
  settings : Settings := {}
  /-- The parameters met so far that may not be met again. -/
  given : List Parameter := []
  /-- A parameter that was met but not yet looked at, with its value if that has come. -/
  pending : Option (Parameter × Option (List Char)) := none
  /-- Whether only paths may follow. -/
  pathsOnly : Bool := false
deriving DecidableEq, Repr

namespace Reader

/-! ## Taking in a parameter -/

/-- Marks a parameter as given, unless it was given before. -/
def mark (r : Reader) (p : Parameter) : Except Refusal Reader :=
  if p ∈ r.given then .error (.repeated p) else .ok { r with given := p :: r.given }

/-- Reads a value, and blames it on the parameter if that fails. -/
def readAs {α : Type} (p : Parameter) (readValue : List Char → Except ValueError α)
    (text : List Char) : Except Refusal α :=
  (readValue text).mapError (.invalidValue text p)

def accept (r : Reader) (p : Parameter) (text : List Char) : Except Refusal Reader :=
  let s := r.settings
  match p with
  | .path =>
    if text.isEmpty then .error (.missingValue .path)
    else .ok { r with settings := { s with path := String.ofList text } }
  | .speed => do
    let r ← r.mark p
    let speed ← readAs p readSpeed text
    return { r with settings := { s with speed } }
  | .frames => do
    let r ← r.mark p
    let frames ← readAs p readFrames text
    return { r with settings := { s with frames } }
  | .keys => do
    let keys ← (piecesOf text).mapM (readAs p readKey)
    return { r with settings := { s with keys := s.keys ++ keys } }
  | .realtime | .dump | .verbose | .help => .error (.unexpectedValue text p)

def raise (r : Reader) (p : Parameter) : Except Refusal Reader :=
  let s := r.settings
  match p with
  | .realtime => do return { ← r.mark p with settings := { s with realtime := true } }
  | .dump => do return { ← r.mark p with settings := { s with dump := true } }
  | .verbose => .ok { r with settings := { s with verbosity := s.verbosity + 1 } }
  | .help => .error .help
  | .path | .speed | .frames | .keys => .error (.missingValue p)

def settle (r : Reader) : Except Refusal Reader :=
  match r.pending with
  | none => .ok r
  | some (p, none) => .error (.missingValue p)
  | some (p, some text) => { r with pending := none }.accept p text

/-! ## Placing an argument -/

/-- Places a path: only one is expected. -/
def placePath (r : Reader) (text : List Char) : Except Refusal Reader :=
  if .path ∈ r.given then .error (.unexpectedArgument text)
  else do
    let r ← r.settle
    return { r with given := .path :: r.given, pending := some (.path, some text) }

/-- Places an option that takes a value, with the value if it is attached. -/
def placeOption (r : Reader) (p : Parameter) (attached : Option (List Char)) :
    Except Refusal Reader := do
  let r ← r.settle
  match attached with
  | some text => r.accept p text
  | none => return { r with pending := some (p, none) }

def placeFlag (r : Reader) (p : Parameter) : Except Refusal Reader := do (← r.settle).raise p

/-- Places an option by its long name, with what follows an equals sign. -/
def placeLong (r : Reader) (name : List Char) (attached : Option (List Char)) :
    Except Refusal Reader :=
  match Parameter.ofLong? name with
  | none => .error (.unexpectedArgument ('-' :: '-' :: name))
  | some p =>
    if p.takesValue then r.placeOption p attached
    else
      match attached with
      | some text => .error (.unexpectedValue text p)
      | none => r.placeFlag p

/-- The value attached to a short option: the rest of its argument, less one equals sign. -/
def attachedValue? : List Char → Option (List Char)
  | [] => none
  | '=' :: text => some text
  | text => some text

/-- Places the options of a group of short names; one that takes a value ends the group. -/
def placeShort (r : Reader) : List Char → Except Refusal Reader
  | [] => .ok r
  | c :: rest =>
    match Parameter.ofShort? c with
    | none => .error (.unexpectedArgument ['-', c])
    | some p =>
      if p.takesValue then r.placeOption p (attachedValue? rest)
      else do (← r.placeFlag p).placeShort rest

/-- Places a text that names no option: the value that is waited for, or a path. -/
def placeText (r : Reader) (text : List Char) : Except Refusal Reader :=
  match r.pending with
  | some (p, none) => .ok { r with pending := some (p, some text) }
  | _ => r.placePath text

/-- The parts of a long option before and after its first equals sign. -/
def splitLong (text : List Char) : List Char × Option (List Char) :=
  (text.takeWhile (· != '='), (text.dropWhile (· != '=')).tail?)

def place (r : Reader) (argument : List Char) : Except Refusal Reader :=
  if r.pathsOnly then r.placePath argument
  else
    match argument with
    | ['-', '-'] => .ok { r with pathsOnly := true }
    | '-' :: '-' :: text => r.placeLong (splitLong text).1 (splitLong text).2
    | ['-'] => r.placeText argument
    | '-' :: group => r.placeShort group
    | text => r.placeText text

/-- Looks at what is pending at the end, when the path has to be there. -/
def finish (r : Reader) : Except Refusal Settings := do
  let r ← r.settle
  if .path ∈ r.given then return r.settings else throw .missingPath

end Reader

/-- What the arguments ask for. -/
def Settings.ofArguments (arguments : List String) : Except Refusal Settings := do
  let r ← arguments.foldlM (fun (r : Reader) a => r.place a.toList) {}
  r.finish

end Chip8.CommandLine
