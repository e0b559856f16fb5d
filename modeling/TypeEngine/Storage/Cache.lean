import TypeEngine.Host.Document
import TypeEngine.Storage.Basic
import TypeEngine.Storage.Digest

/-!
A directory of catalogs that were read before, each in a file named by a key of what it was made
from. The files are spelt by a codec.
-/

namespace TypeEngine.Storage

open Host (Catalog Codec)

structure Cache where
  dir : String

namespace Cache

/-- The start of what keys are made from. It changes with the form of catalog files. -/
def format : String := "catalog-v1"

def hexDigits (w : UInt32) : String :=
  let ds := Nat.toDigits 16 w.toNat
  .ofList (List.replicate (8 - ds.length) '0' ++ ds)

/-- What the key of a list of texts is the hash of: the texts, with a zero before each of them. -/
def message (texts : List String) : List UInt8 :=
  texts.foldl (fun bytes t => bytes ++ 0 :: t.toUTF8.data.toList) format.toUTF8.data.toList

/-- The key of a list of texts: sixteen digits of their hash. -/
def key (texts : List String) : String :=
  "".intercalate (((digest (message texts)).take 2).map hexDigits)

/-- The text with the blanks dropped at the end of each line, and without empty lines at the end. -/
def fingerprint (text : String) : String :=
  let isBlank := fun (c : Char) => c == ' ' || c == '\t' || c == '\r'
  let lines := (Text.splitOn '\n' text.toList).map (Text.dropEnd isBlank)
  .ofList (Text.dropEnd (· == '\n') (['\n'].intercalate lines))

def fileName (key : String) : String := "catalog-" ++ key ++ ".yaml"

def file (c : Cache) (key : String) : String := join c.dir (fileName key)

inductive StoreFault where
  | directory (cause : Denial)
  | write (cause : Denial)

def StoreFault.message : StoreFault → String
  | directory cause => "creating cache dir: " ++ cause.message
  | write cause => "writing cache: " ++ cause.message

def StoreFault.warning (f : StoreFault) : String :=
  "[catalog] warning: failed to cache catalog: " ++ f.message

variable {m : Type → Type} [Monad m] [Storage m]

/-- The catalog stored for a key. A file that cannot be understood is removed. -/
def lookup (c : Cache) (key : String) (codec : Codec := .yaml) : m (Option Catalog) := do
  match ← Storage.read (c.file key) with
  | .error _ => return none
  | .ok text =>
    match codec.parse text with
    | .ok catalog => return some catalog
    | .error _ =>
      discard (Storage.remove (m := m) (c.file key))
      return none

def store (c : Cache) (key : String) (catalog : Catalog) (codec : Codec := .yaml) :
    ExceptT StoreFault m Unit := do
  ExceptT.mk do return (← Storage.makeDirectories c.dir).mapError .directory
  ExceptT.mk do return (← Storage.write (c.file key) (codec.render catalog)).mapError .write

/-- A catalog, and whether it comes from the cache. -/
structure Found where
  catalog : Catalog
  hit : Bool

/-- The catalog stored for a key, or else the one that `load` gives, which is stored. -/
def cached {ε : Type} (c : Cache) (key : String) (load : ExceptT ε m Catalog) (codec : Codec := .yaml) :
    ExceptT ε m Found := do
  match ← ExceptT.lift (c.lookup key codec) with
  | some catalog => return ⟨catalog, true⟩
  | none =>
    let catalog ← load
    if let .error fault ← ExceptT.lift (c.store key catalog codec).run then
      ExceptT.lift (Storage.warn (fault.warning ++ "\n"))
    return ⟨catalog, false⟩

def clean (c : Cache) : m (Except Denial Unit) := Storage.remove c.dir

end Cache

end TypeEngine.Storage
