import FairLocks.Json.Skip

/-!
# Reading values of a known kind

Readers for scalars, lists, named alternatives and records. A record is written as an object, its
fields in any order, or as a list of its fields in their order. Fields that are not known are passed
over; a known field comes once. A scalar of the wrong kind is read to its end before it is refused,
so a fault inside it comes first.
-/
namespace FairLocks.Json

/-- The fault of a value of the wrong kind. -/
def unexpected (expected : String) (l : List Char) : Fault :=
  let scalar (found : Found) (r : List Char) : Fault := .before (.invalidType found expected) r
  let word (ws r : List Char) (found : Found) : Fault :=
    match skipWord ws r with
    | .error f => f
    | .ok r => scalar found r
  let number (negative : Bool) (r : List Char) : Fault :=
    match readNumber negative r with
    | .error f => f
    | .ok (n, r) => scalar n.found r
  match l with
  | [] => .peek .endInValue []
  | c :: r =>
    if c = 'n' then word ['u', 'l', 'l'] r .null
    else if c = 't' then word ['r', 'u', 'e'] r (.bool true)
    else if c = 'f' then word ['a', 'l', 's', 'e'] r (.bool false)
    else if c = '-' then number true r
    else if c.isDigit then number false (c :: r)
    else if c = '"' then
      match readText r with
      | .error f => f
      | .ok (s, r) => scalar (.string s) r
    else if c = '[' then scalar .sequence (c :: r)
    else if c = '{' then scalar .map (c :: r)
    else .peek .expectedValue (c :: r)

def readNull : Reader Unit := fun l =>
  match skipSpace l with
  | [] => .error (.peek .endInValue [])
  | 'n' :: r => (skipWord ['u', 'l', 'l'] r).map fun r => ((), r)
  | l => .error (unexpected "unit" l)

def readString : Reader String := fun l =>
  match skipSpace l with
  | [] => .error (.peek .endInValue [])
  | '"' :: r => readText r
  | l => .error (unexpected "a string" l)

/-- A kind of integer: what it is called and the range it has. -/
structure IntegerKind where
  name : String
  least : Int
  greatest : Int

/-- Ids and owners. -/
def signed64 : IntegerKind := ⟨"i64", -9223372036854775808, 9223372036854775807⟩

/-- Counts. -/
def unsigned64 : IntegerKind := ⟨"usize", 0, 18446744073709551615⟩

/-- Takes an integer of the kind from a number that has been read. -/
def IntegerKind.take (kind : IntegerKind) (n : Number) (rest : List Char) :
    Except Fault (Int × List Char) :=
  let inRange (i : Int) : Except Fault (Int × List Char) :=
    if kind.least ≤ i ∧ i ≤ kind.greatest then .ok (i, rest)
    else .error (.before (.invalidValue (.integer i) kind.name) rest)
  match n with
  | .natural i => inRange i
  | .negative i => inRange i
  | .float sign x => .error (.before (.invalidType (.float sign x) kind.name) rest)

def readInteger (kind : IntegerKind) : Reader Int := fun l =>
  let number (negative : Bool) (r : List Char) : Except Fault (Int × List Char) :=
    match readNumber negative r with
    | .error f => .error f
    | .ok (n, r) => kind.take n r
  match skipSpace l with
  | [] => .error (.peek .endInValue [])
  | c :: r =>
    if c = '-' then number true r
    else if c.isDigit then number false (c :: r)
    else .error (unexpected kind.name (c :: r))

def readId : Reader Int := readInteger signed64

def readCount : Reader Nat := fun l => (readInteger unsigned64 l).map fun (n, r) => (n.toNat, r)

/-- What comes next inside a list or an object. -/
inductive Next where
  /-- An item starts here. -/
  | item (text : List Char)
  /-- The closing character came; this is behind it. -/
  | closed (rest : List Char)

/-- Finds the next item of a list. The first follows the bracket, any other a comma. -/
def nextItem (first : Bool) (l : List Char) : Except Fault Next :=
  match skipSpace l with
  | [] => .error (.peek .endInList [])
  | c :: r =>
    if c = ']' then .ok (.closed r)
    else if first then .ok (.item (c :: r))
    else if c = ',' then
      match skipSpace r with
      | [] => .error (.peek .endInValue [])
      | d :: r => if d = ']' then .error (.peek .trailingComma (d :: r)) else .ok (.item (d :: r))
    else .error (.peek .expectedListEnd (c :: r))

/-- Reads items up to the closing bracket, `n` at most. -/
def readItems {α : Type} (item : Reader α) : Nat → Bool → Reader (List α)
  | 0, _, l => .error (.peek .expectedListEnd l)
  | n + 1, first, l =>
    match nextItem first l with
    | .error f => .error f
    | .ok (.closed r) => .ok ([], r)
    | .ok (.item r) =>
      match item r with
      | .error f => .error f
      | .ok (a, r) =>
        match readItems item n false r with
        | .error f => .error f
        | .ok (as, r) => .ok (a :: as, r)

/-- Reads a list. Every item takes at least one character, so the text bounds their number. -/
def readList {α : Type} (item : Reader α) : Reader (List α) := fun l =>
  match skipSpace l with
  | [] => .error (.peek .endInValue [])
  | '[' :: r => readItems item (r.length + 1) true r
  | l => .error (unexpected "a sequence" l)

/-- Finds the next key of an object, behind its opening quote. The first follows the brace, any
other a comma. -/
def nextKey (first : Bool) (l : List Char) : Except Fault Next :=
  let key (l : List Char) : Except Fault Next :=
    match l with
    | '"' :: r => .ok (.item r)
    | l => .error (.peek .keyNotText l)
  match skipSpace l with
  | [] => .error (.peek .endInObject [])
  | c :: r =>
    if c = '}' then .ok (.closed r)
    else if first then key (c :: r)
    else if c = ',' then
      match skipSpace r with
      | [] => .error (.peek .endInValue [])
      | d :: r => if d = '}' then .error (.peek .trailingComma (d :: r)) else key (d :: r)
    else .error (.peek .expectedObjectEnd (c :: r))

/-- Picks a named alternative; the name ends in front of `rest`. -/
def pick {α : Type} (known : List (String × α)) (name : String) (rest : List Char) :
    Except Fault (α × List Char) :=
  match known.find? fun v => v.1 = name with
  | some v => .ok (v.2, rest)
  | none => .error (.before (.unknownVariant name (known.map Prod.fst)) rest)

/-- Reads the rest of an alternative that is written as an object: its name, and null under it. -/
def readTagged {α : Type} (known : List (String × α)) : Reader α := fun l =>
  match skipSpace l with
  | [] => .error (.peek .endInObject [])
  | c :: r =>
    if c = '"' then
      match readText r with
      | .error f => .error f
      | .ok (name, r) =>
        match pick known name r with
        | .error f => .error f
        | .ok (a, r) =>
          match skipColon r with
          | .error f => .error f
          | .ok r =>
            match readNull r with
            | .error f => .error f
            | .ok ((), r) =>
              match skipSpace r with
              | '}' :: r => .ok (a, r)
              | [] => .error (.before .endInObject [])
              | r => .error (.before .expectedValue r)
    else if c = '}' then .error (.peek .expectedValue (c :: r))
    else .error (.peek .keyNotText (c :: r))

/-- Reads one of several named alternatives: the name, or an object with null under the name. -/
def readVariant {α : Type} (known : List (String × α)) : Reader α := fun l =>
  match skipSpace l with
  | [] => .error (.peek .endInValue [])
  | c :: r =>
    if c = '"' then
      match readText r with
      | .error f => .error f
      | .ok (name, r) => pick known name r
    else if c = '{' then readTagged known r
    else .error (.peek .expectedValue (c :: r))

/-- A whole text is one value with blank space around it. -/
def readWhole {α : Type} (value : Reader α) (l : List Char) : Except Fault α :=
  match value l with
  | .error f => .error f
  | .ok (a, r) =>
    match skipSpace r with
    | [] => .ok a
    | r => .error (.peek .trailingCharacters r)

end FairLocks.Json
