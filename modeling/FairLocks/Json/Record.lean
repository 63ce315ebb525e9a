import FairLocks.Json.Reader

/-!
# Records

A record type is described by its fields and by how a draft of it is completed. The description
fixes the order of the fields in a list, which of several missing fields is reported, and which may
be left out.
-/
namespace FairLocks.Json

/-- A field of a record that is read into drafts of type `δ`. -/
structure Field (δ : Type) where
  name : String
  /-- The draft has the field already. -/
  given : δ → Bool
  read : δ → Reader δ

/-- A record type `α` that is read by way of drafts of type `δ`. -/
structure Shape (δ α : Type) where
  title : String
  /-- In the order of declaration. -/
  fields : List (Field δ)
  blank : δ
  /-- The record, or the name of its first missing field. -/
  complete : δ → Except String α

namespace Shape

variable {δ α : Type}

/-- A known key that comes again is a fault behind the key; a closing brace there counts as read. -/
def duplicate (name : String) (l : List Char) : Fault :=
  match skipSpace l with
  | '}' :: r => .before (.duplicateField name) r
  | r => .before (.duplicateField name) r

/-- Reads the value under a key into the draft, or passes over it. -/
def readMember (s : Shape δ α) (draft : δ) (key : String) (l : List Char) :
    Except Fault (δ × List Char) :=
  match s.fields.find? fun f => f.name = key with
  | none =>
    match skipColon l with
    | .error f => .error f
    | .ok r => (skipValue r).map fun r => (draft, r)
  | some field =>
    if field.given draft then .error (duplicate field.name l)
    else
      match skipColon l with
      | .error f => .error f
      | .ok r => field.read draft r

/-- Reads members up to the closing brace, `n` at most. -/
def readMembers (s : Shape δ α) : Nat → Bool → δ → Reader δ
  | 0, _, _, l => .error (.peek .expectedObjectEnd l)
  | n + 1, first, draft, l =>
    match nextKey first l with
    | .error f => .error f
    | .ok (.closed r) => .ok (draft, r)
    | .ok (.item r) =>
      match readText r with
      | .error f => .error f
      | .ok (key, r) =>
        match s.readMember draft key r with
        | .error f => .error f
        | .ok (draft, r) => s.readMembers n false draft r

/-- Reads an object whose brace has been read. Every member takes at least one character, so the
text bounds their number. -/
def readObject (s : Shape δ α) : Reader α := fun l =>
  match s.readMembers (l.length + 1) true s.blank l with
  | .error f => .error f
  | .ok (draft, r) =>
    match s.complete draft with
    | .ok a => .ok (a, r)
    | .error name => .error (.before (.missingField name) r)

/-- Closes a list that has all the fields. -/
def closeList (l : List Char) : Except Fault (List Char) :=
  match skipSpace l with
  | [] => .error (.peek .endInList [])
  | c :: r =>
    if c = ']' then .ok r
    else if c = ',' then
      match skipSpace r with
      | ']' :: r => .error (.peek .trailingComma (']' :: r))
      | r => .error (.peek .trailingCharacters r)
    else .error (.peek .trailingCharacters (c :: r))

/-- Reads the fields in their order from a list, up to its end, which may come early. -/
def readFields (first : Bool) (draft : δ) :
    List (Field δ) → List Char → Except Fault (δ × List Char)
  | [], l => (closeList l).map fun r => (draft, r)
  | field :: fields, l =>
    match nextItem first l with
    | .error f => .error f
    | .ok (.closed r) => .ok (draft, r)
    | .ok (.item r) =>
      match field.read draft r with
      | .error f => .error f
      | .ok (draft, r) => readFields false draft fields r

/-- Reads a list of the fields, whose bracket has been read. It may end early if what is missing may
be left out. -/
def readListed (s : Shape δ α) : Reader α := fun l =>
  match readFields true s.blank s.fields l with
  | .error f => .error f
  | .ok (draft, r) =>
    match s.complete draft with
    | .ok a => .ok (a, r)
    | .error _ =>
      let length := (s.fields.takeWhile fun f => f.given draft).length
      .error (.before (.invalidLength length s.title s.fields.length) r)

def read (s : Shape δ α) : Reader α := fun l =>
  match skipSpace l with
  | [] => .error (.peek .endInValue [])
  | '[' :: r => s.readListed r
  | '{' :: r => s.readObject r
  | l => .error (unexpected ("struct " ++ s.title) l)

end Shape

end FairLocks.Json
