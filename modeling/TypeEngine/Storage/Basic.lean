import TypeEngine.Storage.Location

/-!
What the library needs of a file system. Every operation takes a location as text; one that does
not start at the root is seen from the working directory.
-/

namespace TypeEngine.Storage

inductive Obstacle where
  | missing
  | notDirectory
  | isDirectory
  /-- Anything else, in the words of the machine. -/
  | other (reason : String)
  deriving DecidableEq, Repr

def Obstacle.message : Obstacle → String
  | missing => "no such file or directory"
  | notDirectory => "not a directory"
  | isDirectory => "is a directory"
  | other reason => reason

inductive Action where
  | opens
  | reads
  | makesDirectory
  | looks
  | removes
  deriving DecidableEq, Repr

def Action.name : Action → String
  | opens => "open"
  | reads => "read"
  | makesDirectory => "mkdir"
  | looks => "lstat"
  | removes => "unlinkat"

structure Denial where
  action : Action
  path : String
  cause : Obstacle
  deriving DecidableEq, Repr

def Denial.message (d : Denial) : String :=
  d.action.name ++ " " ++ d.path ++ ": " ++ d.cause.message

inductive Entry where
  /-- A file with its size in bytes and the time of its last change in nanoseconds. -/
  | file (size modified : Nat)
  | directory

end TypeEngine.Storage

namespace TypeEngine

open Storage in
/-- A file system that programs in `m` can use. -/
class Storage (m : Type → Type) where
  workingDirectory : m String
  entry : String → m (Except Denial Entry)
  read : String → m (Except Denial String)
  /-- The names in a directory, in order. -/
  children : String → m (List String)
  /-- Replaces the text of a file, or makes one in a directory that exists. -/
  write : String → String → m (Except Denial Unit)
  /-- Makes a directory and those above it that are missing. -/
  makeDirectories : String → m (Except Denial Unit)
  /-- Removes a file, or a directory with all that is in it. Nothing to remove is no failure. -/
  remove : String → m (Except Denial Unit)
  /-- Tells the user about something that does not stop the work. -/
  warn : String → m Unit

end TypeEngine
