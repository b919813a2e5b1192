/-!
# Plain text

Messages are shown as plain text: control characters other than blanks are left out, and so are
control sequences, which begin with the escape character and may change colours or the title of a
window. Nothing but graphic characters and blanks is left.
-/

namespace Chip8.CommandLine.PlainText

/-- A space, a visible character, or any character beyond ASCII. -/
def isGraphic (c : Char) : Bool := (' ' ≤ c && c ≤ '~') || '\x7f' < c

/-- A tab, line feed, form feed or carriage return. -/
def isBlank (c : Char) : Bool := c == '\t' || c == '\n' || c == '\x0c' || c == '\r'

/-- How much of a control sequence has gone by. -/
inductive State where
  /-- None: the text is not within a sequence. -/
  | ground
  | escape
  /-- The escape character and more, where one final character is missing. -/
  | intermediate
  /-- The head of a sequence with parameters, which a letter or a mark near the letters ends. -/
  | parameters
  /-- The introducer of a string for the device, which has a head of its own. -/
  | device
  /-- Parameters in the head of a string for the device. -/
  | deviceParameters
  /-- Marks after them, which another parameter may not follow. -/
  | deviceMarks
  /-- A string, which a terminator ends. -/
  | string
  /-- A command to the system around the terminal, which the bell ends. -/
  | command
deriving DecidableEq, Repr

/-- The terminator of a string is a single byte, and it counts within the encoding of a character
as well. -/
def terminates (c : Char) : Bool := (String.utf8EncodeChar c).contains 0x9C

namespace State

/-- The state after a character that is not shown. Two control characters cancel a sequence, and
the escape character begins another one. -/
def next (s : State) (c : Char) : State :=
  if c = '\x18' ∨ c = '\x1a' then .ground
  else if c = '\x1b' then .escape
  else
    match s with
    | .ground => .ground
    | .escape =>
      if ' ' ≤ c ∧ c ≤ '/' then .intermediate
      else if c = '[' then .parameters
      else if c = 'P' then .device
      else if c = 'X' ∨ c = '^' ∨ c = '_' then .string
      else if c = ']' then .command
      else if '0' ≤ c ∧ c ≤ '~' then .ground
      else .escape
    | .intermediate => if '0' ≤ c ∧ c ≤ '~' then .ground else .intermediate
    | .parameters => if '@' ≤ c ∧ c ≤ '~' then .ground else .parameters
    | .device =>
      if ' ' ≤ c ∧ c ≤ '/' then .deviceMarks
      else if '0' ≤ c ∧ c ≤ '?' then .deviceParameters
      else if '@' ≤ c ∧ c ≤ '~' then .string
      else .device
    | .deviceParameters =>
      if ' ' ≤ c ∧ c ≤ '/' then .deviceMarks
      else if '<' ≤ c ∧ c ≤ '~' then .string
      else .deviceParameters
    | .deviceMarks => if '0' ≤ c ∧ c ≤ '~' then .string else .deviceMarks
    | .string => if terminates c then .ground else .string
    | .command => if c = '\x07' then .ground else .command

/-- Whether a character is shown. Blanks are shown within the head of a sequence too, but not
within strings and commands. -/
def shows : State → Char → Bool
  | .ground, c => isGraphic c || isBlank c
  | .escape, c | .intermediate, c | .parameters, c => isBlank c
  | .device, _ | .deviceParameters, _ | .deviceMarks, _ | .string, _ | .command, _ => false

end State

/-- The plain text of a text that begins in a state. What follows a shown character is shown, up to
the next control character: a blank within a sequence interrupts the sequence, and after that
control character the sequence goes on. A character beyond ASCII ends it. -/
def plainFrom (s : State) (interrupted : Bool) : List Char → List Char
  | [] => []
  | c :: cs =>
    if (if interrupted then .ground else s).shows c then
      c :: plainFrom (if '\x7f' < c then .ground else s) true cs
    else plainFrom (s.next c) false cs

def plain (text : List Char) : List Char := plainFrom .ground false text

end Chip8.CommandLine.PlainText
