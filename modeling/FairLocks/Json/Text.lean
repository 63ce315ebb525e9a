import FairLocks.Json.Fault

/-!
# Words and quoted texts

Blank space, the words of the format, and texts in quotes with their escapes. A text is written with
the fewest escapes: quotes, backslashes and control characters, of which some have a short form.
Reading accepts every escape of the format; a character beyond the first 65536 takes two, which must
come as a pair. Reading what was written gives the text back, whatever follows it.
-/
namespace FairLocks.Json

def isSpace (c : Char) : Bool := c = ' ' || c = '\n' || c = '\t' || c = '\r'

def skipSpace (l : List Char) : List Char := l.dropWhile isSpace

theorem length_skipSpace_le (l : List Char) : (skipSpace l).length ≤ l.length :=
  (List.dropWhile_sublist isSpace).length_le

/-- Reads the letters of a word, the first of which has been read already. -/
def skipWord : List Char → List Char → Except Fault (List Char)
  | [], l => .ok l
  | _ :: _, [] => .error (.before .endInValue [])
  | w :: ws, c :: l => if c = w then skipWord ws l else .error (.peek .expectedWord (c :: l))

def hexDigit? (c : Char) : Option Nat :=
  if '0' ≤ c ∧ c ≤ '9' then some (c.toNat - '0'.toNat)
  else if 'a' ≤ c ∧ c ≤ 'f' then some (c.toNat - 'a'.toNat + 10)
  else if 'A' ≤ c ∧ c ≤ 'F' then some (c.toNat - 'A'.toNat + 10)
  else none

def fourHex? (a b c d : Char) : Option Nat := do
  let a ← hexDigit? a
  let b ← hexDigit? b
  let c ← hexDigit? c
  let d ← hexDigit? d
  return ((a * 16 + b) * 16 + c) * 16 + d

/-- The fault of a text that does not go on with four hexadecimal digits. -/
def notHex (l : List Char) : Fault :=
  if byteSize l < 4 then .before .endInText [] else .past .invalidEscape 4 l

/-- Reads four hexadecimal digits. -/
def readHex (l : List Char) : Except Fault (Nat × List Char) :=
  match l with
  | a :: b :: c :: d :: r =>
    match fourHex? a b c d with
    | some n => .ok (n, r)
    | none => .error (notHex l)
  | _ => .error (notHex l)

/-- The first of the two escapes of a character beyond the first 65536. -/
def IsHighSurrogate (n : Nat) : Prop := 0xd800 ≤ n ∧ n ≤ 0xdbff

instance (n : Nat) : Decidable (IsHighSurrogate n) := inferInstanceAs (Decidable (_ ∧ _))

/-- The second of the two escapes of a character beyond the first 65536. -/
def IsLowSurrogate (n : Nat) : Prop := 0xdc00 ≤ n ∧ n ≤ 0xdfff

instance (n : Nat) : Decidable (IsLowSurrogate n) := inferInstanceAs (Decidable (_ ∧ _))

/-- The character that a pair of escapes stands for. -/
def ofSurrogates (high low : Nat) : Char :=
  Char.ofNat ((high - 0xd800) * 0x400 + (low - 0xdc00) + 0x10000)

/-- Reads the digits of the second escape of a pair whose first stands for `high`. -/
def readLow (high : Nat) : Reader Char := fun l =>
  match readHex l with
  | .error f => .error f
  | .ok (low, r) =>
    if IsLowSurrogate low then .ok (ofSurrogates high low, r)
    else .error (.before .loneSurrogate r)

/-- Reads the one character that is due between the escapes of a pair. -/
def expectBetween (due : Char) : List Char → Except Fault (List Char)
  | [] => .error (.before .endInText [])
  | c :: l => if c = due then .ok l else .error (.peek .surrogateAlone (c :: l))

/-- Reads the second escape of a pair whose first stands for `high`. -/
def readPair (high : Nat) : Reader Char := fun l =>
  match expectBetween '\\' l with
  | .error f => .error f
  | .ok l =>
    match expectBetween 'u' l with
    | .error f => .error f
    | .ok l => readLow high l

/-- Reads what follows the letter of a hexadecimal escape. -/
def readCodePoint : Reader Char := fun l =>
  match readHex l with
  | .error f => .error f
  | .ok (n, r) =>
    if IsLowSurrogate n then .error (.before .loneSurrogate r)
    else if IsHighSurrogate n then readPair n r
    else .ok (Char.ofNat n, r)

/-- The character that a backslash and a letter other than `u` stand for. -/
def shortEscape? : Char → Option Char
  | '"' => some '"'
  | '\\' => some '\\'
  | '/' => some '/'
  | 'b' => some '\x08'
  | 'f' => some '\x0c'
  | 'n' => some '\n'
  | 'r' => some '\r'
  | 't' => some '\t'
  | _ => none

/-- Reads what follows a backslash. -/
def readEscape : Reader Char
  | [] => .error (.before .endInText [])
  | c :: l =>
    match shortEscape? c with
    | some e => .ok (e, l)
    | none => if c = 'u' then readCodePoint l else .error (.peek .invalidEscape (c :: l))

theorem length_of_readHex {l r : List Char} {n : Nat} (h : readHex l = .ok (n, r)) :
    r.length < l.length := by
  unfold readHex at h
  split at h
  · split at h
    · cases h
      simp only [List.length_cons]
      omega
    · cases h
  · cases h

theorem length_of_readLow {high : Nat} {l r : List Char} {c : Char}
    (h : readLow high l = .ok (c, r)) : r.length < l.length := by
  unfold readLow at h
  split at h
  · cases h
  · rename_i hr
    have := length_of_readHex hr
    split at h
    · simp only [Except.ok.injEq, Prod.mk.injEq] at h
      rw [← h.2]
      exact this
    · cases h

theorem length_of_expectBetween {due : Char} {l r : List Char} (h : expectBetween due l = .ok r) :
    r.length < l.length := by
  unfold expectBetween at h
  split at h
  · cases h
  · split at h
    · cases h
      simp
    · cases h

theorem length_of_readPair {high : Nat} {l r : List Char} {c : Char}
    (h : readPair high l = .ok (c, r)) : r.length < l.length := by
  unfold readPair at h
  split at h
  · cases h
  · rename_i h₁
    have := length_of_expectBetween h₁
    split at h
    · cases h
    · rename_i h₂
      have := length_of_expectBetween h₂
      have := length_of_readLow h
      omega

theorem length_of_readCodePoint {l r : List Char} {c : Char}
    (h : readCodePoint l = .ok (c, r)) : r.length < l.length := by
  unfold readCodePoint at h
  split at h
  · cases h
  · rename_i hr
    have := length_of_readHex hr
    split at h
    · cases h
    · split at h
      · have := length_of_readPair h
        omega
      · cases h
        omega

theorem length_of_readEscape {l r : List Char} {c : Char} (h : readEscape l = .ok (c, r)) :
    r.length < l.length := by
  unfold readEscape at h
  split at h
  · cases h
  · split at h
    · cases h
      simp
    · split at h
      · have := length_of_readCodePoint h
        simp only [List.length_cons]
        omega
      · cases h

/-- Reads a text up to and with the closing quote; `read` is what has been read, last first. -/
def readQuoted (read : List Char) (l : List Char) : Except Fault (List Char × List Char) :=
  match l with
  | [] => .error (.before .endInText [])
  | '"' :: l => .ok (read.reverse, l)
  | '\\' :: l =>
    match h : readEscape l with
    | .error f => .error f
    | .ok (c, r) =>
      have := length_of_readEscape h
      readQuoted (c :: read) r
  | c :: l =>
    if c.toNat < 0x20 then .error (.peek .controlCharacter (c :: l)) else readQuoted (c :: read) l
termination_by l.length

/-- Reads a text whose opening quote has been read. -/
def readText : Reader String := fun l =>
  match readQuoted [] l with
  | .error f => .error f
  | .ok (s, r) => .ok (String.ofList s, r)

/-- Passes over a text whose opening quote has been read. Surrogates need not come in pairs. -/
def skipText (l : List Char) : Except Fault (List Char) :=
  match l with
  | [] => .error (.before .endInText [])
  | '"' :: l => .ok l
  | ['\\'] => .error (.before .endInText [])
  | '\\' :: c :: l =>
    if (shortEscape? c).isSome then skipText l
    else if c = 'u' then
      match h : readHex l with
      | .error f => .error f
      | .ok (_, r) =>
        have := length_of_readHex h
        skipText r
    else .error (.peek .invalidEscape (c :: l))
  | c :: l => if c.toNat < 0x20 then .error (.before .controlCharacter (c :: l)) else skipText l
termination_by l.length

/-- A character as it is written within quotes. -/
def escape (c : Char) : List Char :=
  match c with
  | '"' => ['\\', '"']
  | '\\' => ['\\', '\\']
  | '\x08' => ['\\', 'b']
  | '\t' => ['\\', 't']
  | '\n' => ['\\', 'n']
  | '\x0c' => ['\\', 'f']
  | '\r' => ['\\', 'r']
  | c =>
    if c.toNat < 0x20 then
      ['\\', 'u', '0', '0', Nat.digitChar (c.toNat / 16), Nat.digitChar (c.toNat % 16)]
    else [c]

def writeText (s : String) : List Char := '"' :: s.toList.flatMap escape ++ ['"']

end FairLocks.Json
