/-
ApiEmit.Host.FileSystem — what is needed of a file system.
-/

namespace ApiEmit

/-- Reading and writing files. Directories are made with those around them; a success is told from
a failure, and not one failure from another. -/
class FileSystem (m : Type → Type) where
  read? : String → m (Option String)
  makeDirectories : String → m Bool
  write : String → String → m Bool

end ApiEmit
