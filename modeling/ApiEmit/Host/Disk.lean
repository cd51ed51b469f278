/-
ApiEmit.Host.Disk — a file system in memory, with directories.

Places are counted from the working directory. The directories above it are written
with two dots, and the root with a slash; all of these exist.
-/
import ApiEmit.Host.FileSystem
import ApiEmit.Keyed
import ApiEmit.Text.Split

namespace ApiEmit

/-- Directories and files by the names that lead to them. -/
structure Disk where
  directories : List (List String) := []
  files : List (List String × String) := []
  deriving Repr, Inhabited

namespace Disk

/-- Whether a place lies above the working directory, or is the root. -/
def isOutside (place : List String) : Bool := place.all (· == "..") || place == ["/"]

/-- Whether a directory is at a place. -/
def isDirectory (disk : Disk) (place : List String) : Bool :=
  isOutside place || disk.directories.contains place

/-- The content of the file at a place. -/
def file? (disk : Disk) (place : List String) : Option String := disk.files.lookup place

/-- The place around a place. -/
def above (place : List String) : List String :=
  if place = ["/"] then place
  else if isOutside place then ".." :: place
  else place.dropLast

/-- How many bytes a path may have. -/
def maxPathSize : Nat := 4095

/-- How many bytes a name may have. -/
def maxNameSize : Nat := 255

/-- Whether a name can be that of a file. -/
def isName (name : String) : Bool :=
  name.utf8ByteSize ≤ maxNameSize && !name.toList.contains '\x00'

/-- The names of a path, and the place where they start. -/
def steps (path : String) : List String × List String :=
  match Text.split '/' path with
  | "" :: part :: parts => (["/"], (part :: parts).filter fun p => p ≠ "" && p ≠ ".")
  | parts => ([], parts.filter fun p => p ≠ "" && p ≠ ".")

/-- Goes to a directory, step by step. -/
def go? (disk : Disk) (place : List String) : List String → Option (List String)
  | [] => if disk.isDirectory place then some place else none
  | name :: rest =>
    if disk.isDirectory place then
      disk.go? (if name = ".." then above place else place ++ [name]) rest
    else
      none

/-- The place of a file that a path names, if the path is not too long and the directory around the
file exists. -/
def filePlace? (disk : Disk) (path : String) : Option (List String) :=
  match (Text.split '/' path).getLast? with
  | none => none
  | some name =>
    if name = "" ∨ name = "." ∨ name = ".." ∨ !isName name ∨ maxPathSize < path.utf8ByteSize then
      none
    else
      let (start, names) := steps path
      (disk.go? start names.dropLast).map (· ++ [name])

/-- The content of the file that a path names. -/
def read? (disk : Disk) (path : String) : Option String :=
  (disk.filePlace? path).bind disk.file?

/-- Makes a directory at a place, unless there is one or a file is in its way. -/
def makeDirectory? (disk : Disk) (place : List String) : Option Disk :=
  if disk.isDirectory place then some disk
  else if (disk.file? place).isSome then none
  else some { disk with directories := place :: disk.directories }

/-- Makes the directories of a path that are missing, from the outermost inwards. -/
def makeSteps? (disk : Disk) (place : List String) : List String → Option Disk
  | [] => some disk
  | name :: rest =>
    if name = ".." then
      disk.makeSteps? (above place) rest
    else
      (disk.makeDirectory? (place ++ [name])).bind fun disk =>
        disk.makeSteps? (place ++ [name]) rest

/-- Makes the directories of a path that are missing. -/
def makeDirectories? (disk : Disk) (path : String) : Option Disk :=
  let (start, names) := steps path
  if names.all isName && path.utf8ByteSize ≤ maxPathSize then disk.makeSteps? start names else none

/-- Sets the content of the file at a place. -/
def setFile (disk : Disk) (place : List String) (content : String) : Disk :=
  { disk with files := Keyed.put (·.1) (place, content) disk.files }

/-- Writes the file that a path names. -/
def write? (disk : Disk) (path content : String) : Option Disk :=
  (disk.filePlace? path).bind fun place =>
    if disk.isDirectory place then none
    else some (disk.setFile place content)

/-- A disk with nothing but the null device, which is an empty file. -/
def bare : Disk := ⟨[["/", "dev"]], [(["/", "dev", "null"], "")]⟩

/-- Puts a file into the working directory, with the directories on its path. -/
def addFile (disk : Disk) (file : String × String) : Disk :=
  let names := (steps file.1).2
  ((disk.makeSteps? [] names.dropLast).getD disk).setFile names file.2

/-- A disk with some files in the working directory. -/
def ofFiles (files : List (String × String)) : Disk :=
  files.foldl addFile bare

/-- Whether a place is in the working directory or below it. -/
def isRelative (place : List String) : Bool :=
  place.head? != some ".." && place.head? != some "/"

/-- The files in the working directory and below it, by relative path. -/
def relativeFiles (disk : Disk) : List (String × String) :=
  (disk.files.filter (isRelative ·.1)).map fun file => (String.intercalate "/" file.1, file.2)

/-- Keeps the disk that an attempt leaves, and says whether it was one. -/
def attempt (change : Disk → Option Disk) : StateM Disk Bool := fun disk =>
  match change disk with
  | some disk => (true, disk)
  | none => (false, disk)

instance : FileSystem (StateM Disk) where
  read? path := fun disk => (disk.read? path, disk)
  makeDirectories path := attempt (·.makeDirectories? path)
  write path content := attempt (·.write? path content)

end Disk

end ApiEmit
