/-!
# Files by path

Reading a file can fail for a reason that the operating system gives, with a description and a
number. A run of the shell takes the function that reads as a parameter.

`FileTree` gives such a function without an operating system, so that a run with files can be
evaluated. It is a finite directory with what is below it, in which a path is resolved part by part:
every part but the last must name a directory. The lengths of a path and of its parts, in UTF-8,
are limited.
-/

namespace Backchain.Shell

inductive ReadFailure where
  | system (description : String) (code : Nat)
  | notUtf8
deriving DecidableEq

namespace ReadFailure

def notFound : ReadFailure := .system "No such file or directory" 2

def notADirectory : ReadFailure := .system "Not a directory" 20

def isADirectory : ReadFailure := .system "Is a directory" 21

def nameTooLong : ReadFailure := .system "File name too long" 36

def message : ReadFailure → String
  | .system description code => description ++ " (os error " ++ toString code ++ ")"
  | .notUtf8 => "stream did not contain valid UTF-8"

end ReadFailure

def maxNameSize : Nat := 255

def maxPathSize : Nat := 4095

/-- The bytes of a file, or why they cannot be read. -/
abbrev Content := Except ReadFailure (List UInt8)

inductive FileEntry where
  | file (bytes : List UInt8)
  | directory

/-- Entries by the names on the way to them. The directories on the way need no entry. -/
structure FileTree where
  entries : List (List String × FileEntry)

namespace FileTree

def entry? (tree : FileTree) (place : List String) : Option FileEntry :=
  match tree.entries.lookup place with
  | some entry => some entry
  | none =>
    if place = [] ∨ tree.entries.any (fun (names, _) => place.isPrefixOf names)
    then some .directory else none

/-- Where a path has led: to a place in the tree, or out of it, where only directories on the way
to the tree can be named. -/
inductive Location where
  | inside (place : List String)
  | outside

/-- Follows one part of a path. Dots and empty parts lead nowhere, but only from a directory. -/
def follow (tree : FileTree) (location : Location) (part : String) :
    Except ReadFailure Location :=
  match location with
  | .outside =>
    if part ∈ ["", ".", ".."] then .ok .outside
    else if part.utf8ByteSize > maxNameSize then .error .nameTooLong
    else .error .notFound
  | .inside place =>
    match tree.entry? place with
    | none => .error .notFound
    | some (.file _) => .error .notADirectory
    | some .directory =>
      if part = "" ∨ part = "." then .ok (.inside place)
      else if part = ".." then .ok (if place = [] then .outside else .inside place.dropLast)
      else if part.utf8ByteSize > maxNameSize then .error .nameTooLong
      else .ok (.inside (place ++ [part]))

def read (tree : FileTree) (path : String) : Content := do
  if path.utf8ByteSize > maxPathSize then throw .nameTooLong
  let parts := (path.toList.splitOn '/').map String.ofList
  let start : Location := if path.toList.head? = some '/' then .outside else .inside []
  match ← parts.foldlM tree.follow start with
  | .outside => .error .isADirectory
  | .inside place =>
    match tree.entry? place with
    | none => .error .notFound
    | some .directory => .error .isADirectory
    | some (.file bytes) => .ok bytes

end FileTree

end Backchain.Shell
