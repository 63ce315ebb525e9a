import FairLocks.Json.Text

/-!
# Writing values

Values are written without blank space, the fields of an object in the order given.
-/
namespace FairLocks.Json

/-- Parts with commas between them. -/
def joined : List (List Char) → List Char
  | [] => []
  | [a] => a
  | a :: as => a ++ ',' :: joined as

def writeList {α : Type} (item : α → List Char) (l : List α) : List Char :=
  '[' :: joined (l.map item) ++ [']']

def writeMember (m : String × List Char) : List Char := writeText m.1 ++ ':' :: m.2

def writeObject (members : List (String × List Char)) : List Char :=
  '{' :: joined (members.map writeMember) ++ ['}']

end FairLocks.Json
