import FairLocks.Decimal.Shortest

/-!
# Faults in a JSON text

A fault has a cause and a place. The place is kept as the number of bytes that lie behind it, which
a reader knows from what it has not read; line and column are counted when the fault is reported.
Lines end at line feeds and columns count bytes.
-/
namespace FairLocks.Json

open FairLocks.Decimal (Binary64 Layout)

/-- What stands in the text where something else is due. -/
inductive Found where
  | null
  | bool (b : Bool)
  | integer (n : Int)
  | float (negative : Bool) (x : Binary64)
  | string (s : String)
  | sequence
  | map
  deriving DecidableEq

inductive Cause where
  | endInValue
  | endInText
  | endInList
  | endInObject
  | expectedWord
  | expectedValue
  | expectedColon
  | expectedListEnd
  | expectedObjectEnd
  | trailingComma
  | trailingCharacters
  | keyNotText
  | controlCharacter
  | invalidEscape
  | loneSurrogate
  | surrogateAlone
  | invalidNumber
  | numberOutOfRange
  | invalidType (found : Found) (expected : String)
  | invalidValue (found : Found) (expected : String)
  | unknownVariant (name : String) (known : List String)
  | missingField (name : String)
  | duplicateField (name : String)
  | invalidLength (length : Nat) (title : String) (fields : Nat)
  deriving DecidableEq

/-- Floats are written without an exponent from `0.00001` to below `1e16`. -/
def floatLayout : Layout := ⟨-5, 15⟩

/-- A character within quotes, with control characters escaped. -/
def quoteChar (c : Char) : List Char :=
  match c with
  | '\n' => ['\\', 'n']
  | '\r' => ['\\', 'r']
  | '\t' => ['\\', 't']
  | '\x00' => ['\\', '0']
  | '"' => ['\\', '"']
  | '\\' => ['\\', '\\']
  | c =>
    if c.toNat < 0x20 ∨ (0x7f ≤ c.toNat ∧ c.toNat < 0xa0) then
      ['\\', 'u', '{'] ++ Nat.toDigits 16 c.toNat ++ ['}']
    else [c]

def Found.describe : Found → String
  | null => "null"
  | bool b => s!"boolean `{b}`"
  | integer n => s!"integer `{n}`"
  | float negative x =>
    let sign := if negative then "-" else ""
    s!"floating point `{sign}{x.text floatLayout}`"
  | string s => "string \"" ++ String.ofList (s.toList.flatMap quoteChar) ++ "\""
  | sequence => "sequence"
  | map => "map"

/-- The names that would have been right. -/
def oneOf (known : List String) : String :=
  let quoted := known.map fun name => s!"`{name}`"
  match quoted with
  | [] => "there are no variants"
  | [a] => s!"expected {a}"
  | [a, b] => s!"expected {a} or {b}"
  | all => "expected one of " ++ ", ".intercalate all

def Cause.message : Cause → String
  | endInValue => "EOF while parsing a value"
  | endInText => "EOF while parsing a string"
  | endInList => "EOF while parsing a list"
  | endInObject => "EOF while parsing an object"
  | expectedWord => "expected ident"
  | expectedValue => "expected value"
  | expectedColon => "expected `:`"
  | expectedListEnd => "expected `,` or `]`"
  | expectedObjectEnd => "expected `,` or `\x7d`"
  | trailingComma => "trailing comma"
  | trailingCharacters => "trailing characters"
  | keyNotText => "key must be a string"
  | controlCharacter => "control character (\\u0000-\\u001F) found while parsing a string"
  | invalidEscape => "invalid escape"
  | loneSurrogate => "lone leading surrogate in hex escape"
  | surrogateAlone => "unexpected end of hex escape"
  | invalidNumber => "invalid number"
  | numberOutOfRange => "number out of range"
  | invalidType found expected => s!"invalid type: {found.describe}, expected {expected}"
  | invalidValue found expected => s!"invalid value: {found.describe}, expected {expected}"
  | unknownVariant name known => s!"unknown variant `{name}`, {oneOf known}"
  | missingField name => s!"missing field `{name}`"
  | duplicateField name => s!"duplicate field `{name}`"
  | invalidLength length title fields =>
    s!"invalid length {length}, expected struct {title} with {fields} elements"

structure Fault where
  cause : Cause
  /-- Bytes of the text behind the place of the fault. -/
  behind : Nat
  deriving DecidableEq

/-- The number of bytes of a text. -/
def byteSize : List Char → Nat
  | [] => 0
  | c :: l => c.utf8Size + byteSize l

namespace Fault

/-- A fault before the unread text. -/
def before (cause : Cause) (unread : List Char) : Fault := ⟨cause, byteSize unread⟩

/-- A fault after the next `n` bytes of the unread text, or at the end of the text. -/
def past (cause : Cause) (n : Nat) (unread : List Char) : Fault := ⟨cause, byteSize unread - n⟩

/-- A fault after the next byte, or at the end of the text. -/
def peek (cause : Cause) (unread : List Char) : Fault := past cause 1 unread

end Fault

/-- Line and column, counting from `line` and `column`, of the place `offset` bytes on. -/
def position (line column offset : Nat) : List Char → Nat × Nat
  | [] => (line, column)
  | c :: l =>
    if offset < c.utf8Size then (line, column + offset)
    else if c = '\n' then position (line + 1) 0 (offset - 1) l
    else position line (column + c.utf8Size) (offset - c.utf8Size) l

/-- The report of a fault in a text. -/
def Fault.message (f : Fault) (text : List Char) : String :=
  let (line, column) := position 1 0 (byteSize text - f.behind) text
  s!"{f.cause.message} at line {line} column {column}"

/-- Reads a value from the front of a text and leaves the rest. -/
abbrev Reader (α : Type) := List Char → Except Fault (α × List Char)

end FairLocks.Json
