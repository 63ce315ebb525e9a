import FairLocks.Codec

/-!
# Files

A tree of directories and files, and reading a configuration from a path in it. A path is walked
part by part; empty parts and single dots stay where they are, and two dots go up. Above the given
directory nothing is known but that it is a directory.
-/
namespace FairLocks

inductive FileTree where
  | file (content : ByteArray)
  | directory (entries : List (String × FileTree))

inductive FileError where
  | notFound
  | notDirectory
  | isDirectory
  | nulInPath
  | notUtf8
  deriving DecidableEq

def FileError.message : FileError → String
  | notFound => "No such file or directory (os error 2)"
  | notDirectory => "Not a directory (os error 20)"
  | isDirectory => "Is a directory (os error 21)"
  | nulInPath => "file name contained an unexpected NUL byte"
  | notUtf8 => "stream did not contain valid UTF-8"

namespace FileTree

/-- Walks the parts of a path from `here`, whose directories above it are `above`, nearest first. -/
def walk (above : List FileTree) (here : FileTree) : List String → Except FileError FileTree
  | [] => .ok here
  | part :: parts =>
    match here with
    | file _ => .error .notDirectory
    | directory entries =>
      if part = "" ∨ part = "." then walk above here parts
      else if part = ".." then
        match above with
        | [] => walk [] (directory []) parts
        | parent :: above => walk above parent parts
      else
        match entries.lookup part with
        | some next => walk (here :: above) next parts
        | none => .error .notFound

/-- Finds what a path leads to. An absolute path leads out of the tree. -/
def find (root : FileTree) (path : String) : Except FileError FileTree :=
  if path.toList.contains '\x00' then .error .nulInPath
  else if path.startsWith "/" then walk [] (directory []) (path.splitOn "/")
  else walk [] root (path.splitOn "/")

def readFile (root : FileTree) (path : String) : Except FileError String :=
  match root.find path with
  | .error e => .error e
  | .ok (directory _) => .error .isDirectory
  | .ok (file content) =>
    match String.fromUTF8? content with
    | some text => .ok text
    | none => .error .notUtf8

end FileTree

/-- Reads a configuration from a file; the path is named if the file cannot be read. -/
def Config.ofFile (root : FileTree) (path : String) : Except LockError Config :=
  match root.readFile path with
  | .error e => .error (.config s!"{path}: {e.message}")
  | .ok text => Config.ofText text

end FairLocks
