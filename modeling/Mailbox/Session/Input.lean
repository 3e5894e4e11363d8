import Mailbox.Text.Numeral
import Mailbox.Text.Pieces
import Mailbox.Text.Space
set_option autoImplicit false

/-!
# Input

The values that wait to be read by a program, in order.  They come from an argument, where commas
stand between them, or from a stream of bytes, one value a line.

Normative source: SPEC_FULL.md, section A6.8.  The third source of values, a terminal, is in
`Mailbox.Session.Terminal`.

Scope: a stream that has been read up to its end stays at its end, and does not fail otherwise than
by bytes that are not UTF-8.
-/

namespace Mailbox

/-- One waiting value: its text, or a line of bytes that is not UTF-8. -/
inductive Supply where
  | text (s : String)
  | undecodable
  deriving DecidableEq, Repr, Inhabited

/-- Why no value could be read. -/
inductive InputFault where
  | noNumber
  | noCharacter
  | badNumber (text : String) (cause : Text.NumeralFault)
  | emptyCharacter
  | severalCharacters (text : String)
  | undecodable
  deriving DecidableEq, Repr

/-- The fault in words. -/
def InputFault.message : InputFault → String
  | .noNumber => "Program is awaiting input, but there is no more input"
  | .noCharacter => "Program is awaiting char input, but there is no more input"
  | .badNumber text cause => s!"Invalid number input `{text}`: {cause.message}"
  | .emptyCharacter => "Expected a single character, found no characters"
  | .severalCharacters text => s!"Expected a single character, found `{text}`"
  | .undecodable => "stream did not contain valid UTF-8"

/-- The values that have not been read yet. -/
structure Input where
  waiting : List Supply
  deriving DecidableEq, Repr, Inhabited

namespace Input

/-- Values given as they are. -/
def ofValues (values : List String) : Input :=
  ⟨values.map .text⟩

/-- Values with commas between them and white space around them. -/
def ofArgument (argument : String) : Input :=
  ofValues ((Text.separated (· == ',') argument.toList).map fun cs =>
    String.ofList (Text.trimList cs))

/-- A line without the carriage returns at its end. -/
def trimReturns (cs : List Char) : List Char :=
  (cs.reverse.dropWhile (· = '\r')).reverse

/-- The value of a line of bytes. -/
def supplyOfLine (line : List UInt8) : Supply :=
  match String.fromUTF8? ⟨line.toArray⟩ with
  | some s => .text (String.ofList (trimReturns s.toList))
  | none => .undecodable

/-- Values on the lines of a stream.  The last line may lack its newline byte. -/
def ofBytes (bytes : ByteArray) : Input :=
  ⟨(Text.ended (· == 10) bytes.data.toList).map supplyOfLine⟩

/-- What a waiting value is as a number.  White space around it does not count. -/
def number : Supply → Except InputFault Word
  | .text s =>
    match Text.readWord (Text.trimList s.toList) with
    | .ok w => .ok w
    | .error cause => .error (.badNumber (Text.trim s) cause)
  | .undecodable => .error .undecodable

/-- What a waiting value is as a character. -/
def character : Supply → Except InputFault Char
  | .text s =>
    match s.toList with
    | [] => .error .emptyCharacter
    | [c] => .ok c
    | _ :: _ :: _ => .error (.severalCharacters s)
  | .undecodable => .error .undecodable

/-- Reads a number.  A value that is there is used up whether it is a number or not. -/
def readNumber (input : Input) : Except InputFault Word × Input :=
  match input.waiting with
  | [] => (.error .noNumber, input)
  | supply :: rest => (number supply, ⟨rest⟩)

/-- Reads a character.  A value that is there is used up whether it is a character or not. -/
def readChar (input : Input) : Except InputFault Char × Input :=
  match input.waiting with
  | [] => (.error .noCharacter, input)
  | supply :: rest => (character supply, ⟨rest⟩)

end Input

end Mailbox
