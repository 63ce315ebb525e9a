import FairLocks.Json.Text

/-!
# Numbers

An integer that fits 64 bits is read as it stands; any other number becomes a float, of which
nothing but the text is ever used. The digits that no longer fit 64 bits are dropped: in front of
the point each still counts as a power of ten, behind it none does. Passing over a number checks the
grammar alone.
-/
namespace FairLocks.Json

open FairLocks.Decimal (Binary64)

inductive Number where
  | natural (n : Nat)
  | negative (n : Int)
  | float (negative : Bool) (x : Binary64)
  deriving DecidableEq

def Number.found : Number → Found
  | natural n => .integer n
  | negative n => .integer n
  | float sign x => .float sign x

def digitValue (c : Char) : Nat := c.toNat - '0'.toNat

/-- The digits in front and the rest. -/
def splitDigits (l : List Char) : List Char × List Char :=
  (l.takeWhile Char.isDigit, l.dropWhile Char.isDigit)

/-- Digits read so far: their value, how many were taken into it, and how many did not fit. -/
structure Significand where
  value : Nat := 0
  taken : Nat := 0
  dropped : Nat := 0

namespace Significand

/-- Takes the digit in if all before it were taken in and the value stays within 64 bits. -/
def push (s : Significand) (c : Char) : Significand :=
  let value := s.value * 10 + digitValue c
  if s.dropped = 0 ∧ value < Nat.pow 2 64 then { s with value, taken := s.taken + 1 }
  else { s with dropped := s.dropped + 1 }

def ofDigits (value : Nat) (ds : List Char) : Significand := ds.foldl push { value }

end Significand

/-- The greatest exponent that can be written. -/
def greatestExponent : Nat := Nat.pow 2 31 - 1

/-- Reads the digits of an exponent, of which some have been read. An exponent that is too great
leaves only zero, and is a fault if the number would be great. -/
def readExponent (great : Bool) (exponent : Nat) : List Char → Except Fault (Option Nat × List Char)
  | [] => .ok (some exponent, [])
  | c :: l =>
    if c.isDigit then
      let next := exponent * 10 + digitValue c
      if next ≤ greatestExponent then readExponent great next l
      else if great then .error (.before .numberOutOfRange l)
      else .ok (none, l.dropWhile Char.isDigit)
    else .ok (some exponent, c :: l)

/-- A float from its significand and power of ten, in front of the rest of the text. -/
def floatOf (negative : Bool) (significand : Nat) (exponent : Int) (rest : List Char) :
    Except Fault (Number × List Char) :=
  match Binary64.ofDecimal? significand exponent with
  | some x => .ok (.float negative x, rest)
  | none => .error (.before .numberOutOfRange rest)

/-- Whether the exponent has a minus sign, and what follows the sign. -/
def exponentSign : List Char → Bool × List Char
  | '+' :: l => (false, l)
  | '-' :: l => (true, l)
  | l => (false, l)

/-- Reads what follows the letter of an exponent; `power` is the power of ten so far. -/
def readScaled (negative : Bool) (significand : Nat) (power : Int) (l : List Char) :
    Except Fault (Number × List Char) :=
  let (minus, l) := exponentSign l
  match l with
  | [] => .error (.before .endInValue [])
  | c :: r =>
    if c.isDigit then
      match readExponent (significand ≠ 0 && !minus) (digitValue c) r with
      | .error f => .error f
      | .ok (none, r) => .ok (.float negative Binary64.zero, r)
      | .ok (some e, r) => floatOf negative significand (if minus then power - e else power + e) r
    else .error (.peek .invalidNumber (c :: r))

/-- Reads what follows the point of a number. -/
def readFraction (negative : Bool) (whole : Significand) (l : List Char) :
    Except Fault (Number × List Char) :=
  let (ds, r) := splitDigits l
  let s := Significand.ofDigits whole.value ds
  let power : Int := whole.dropped - s.taken
  match ds, r with
  | [], [] => .error (.before .endInValue [])
  | [], r => .error (.peek .invalidNumber r)
  | _, 'e' :: r => readScaled negative s.value power r
  | _, 'E' :: r => readScaled negative s.value power r
  | _, r => floatOf negative s.value power r

/-- A number without point and exponent. Zero keeps its sign only as a float. -/
def integer (negative : Bool) (s : Significand) (rest : List Char) :
    Except Fault (Number × List Char) :=
  if s.dropped ≠ 0 then floatOf negative s.value s.dropped rest
  else if !negative then .ok (.natural s.value, rest)
  else if s.value = 0 ∨ Nat.pow 2 63 < s.value then floatOf negative s.value 0 rest
  else .ok (.negative (-s.value), rest)

/-- Reads what follows the whole part of a number. -/
def readTail (negative : Bool) (s : Significand) : List Char → Except Fault (Number × List Char)
  | '.' :: l => readFraction negative s l
  | 'e' :: l => readScaled negative s.value s.dropped l
  | 'E' :: l => readScaled negative s.value s.dropped l
  | l => integer negative s l

/-- Reads a number whose sign has been read. -/
def readNumber (negative : Bool) : Reader Number
  | [] => .error (.before .endInValue [])
  | c :: l =>
    if c = '0' then
      if (l.head?.any Char.isDigit) then .error (.peek .invalidNumber l)
      else readTail negative {} l
    else if c.isDigit then
      let (ds, r) := splitDigits (c :: l)
      readTail negative (Significand.ofDigits 0 ds) r
    else .error (.peek .invalidNumber (c :: l))

/-- Passes over what follows the letter of an exponent. -/
def skipExponent (l : List Char) : Except Fault (List Char) :=
  let (_, l) := exponentSign l
  match l with
  | [] => .error (.before .invalidNumber [])
  | c :: r =>
    if c.isDigit then .ok (r.dropWhile Char.isDigit) else .error (.peek .invalidNumber (c :: r))

/-- Passes over what follows the whole part of a number. -/
def skipTail : List Char → Except Fault (List Char)
  | '.' :: l =>
    match splitDigits l with
    | ([], r) => .error (.peek .invalidNumber r)
    | (_, 'e' :: r) => skipExponent r
    | (_, 'E' :: r) => skipExponent r
    | (_, r) => .ok r
  | 'e' :: l => skipExponent l
  | 'E' :: l => skipExponent l
  | l => .ok l

/-- Passes over a number whose sign has been read. -/
def skipNumber : List Char → Except Fault (List Char)
  | [] => .error (.before .invalidNumber [])
  | c :: l =>
    if c = '0' then
      if (l.head?.any Char.isDigit) then .error (.peek .invalidNumber l) else skipTail l
    else if c.isDigit then skipTail (l.dropWhile Char.isDigit)
    else .error (.peek .invalidNumber (c :: l))

/-- An integer in decimal, with a sign if it is negative. -/
def writeInt : Int → List Char
  | .ofNat n => Nat.toDigits 10 n
  | .negSucc n => '-' :: Nat.toDigits 10 (n + 1)

end FairLocks.Json
