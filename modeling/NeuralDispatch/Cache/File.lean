import NeuralDispatch.Bytes

/-!
# Cache files

Compiled models are kept in files that the caller opens and hands to a driver.  A handle refers to
one file of a store, and two handles may refer to the same file.

Writing starts at the beginning of the file and leaves alone what lies behind the written bytes.
-/

namespace NeuralDispatch

/-- What a file has been opened for. -/
inductive FileMode where
  | readWrite
  | readOnly
  | writeOnly
  deriving DecidableEq, Inhabited, Repr

/-- An open file. -/
structure CacheFile where
  mode : FileMode := .readWrite
  contents : Bytes := []
  deriving DecidableEq, Inhabited, Repr

namespace CacheFile

def isEmpty (f : CacheFile) : Bool := f.contents.isEmpty

/-- All bytes of the file, if it may be read (`read_all`). -/
def read? (f : CacheFile) : Option Bytes :=
  if f.mode = .writeOnly then none else some f.contents

/-- The file after writing from its beginning, if it may be written (`write_all`).  Writing nothing
always succeeds. -/
def write? (f : CacheFile) (bytes : Bytes) : Option CacheFile :=
  if f.mode = .readOnly ∧ bytes ≠ [] then none
  else some { f with contents := bytes ++ f.contents.drop bytes.length }

/-- The file without its bytes, if it may be written (`truncate`). -/
def truncate? (f : CacheFile) : Option CacheFile :=
  if f.mode = .readOnly then none else some { f with contents := [] }

theorem read?_of_write? {f g : CacheFile} {bytes : Bytes} (written : f.write? bytes = some g)
    (readable : f.mode ≠ .writeOnly) :
    g.read? = some (bytes ++ f.contents.drop bytes.length) := by
  unfold write? at written
  split at written
  · simp at written
  · cases written
    simp [read?, readable]

end CacheFile

/-- A reference to an open file (`CacheHandle`). -/
structure FileHandle where
  index : Nat
  deriving DecidableEq, Inhabited, Repr

/-- The files that are open. -/
structure FileStore where
  files : List CacheFile := []
  deriving DecidableEq, Inhabited, Repr

namespace FileStore

/-- Opens a new, empty file. -/
def openNew (s : FileStore) (mode : FileMode) : FileStore × FileHandle :=
  (⟨s.files ++ [{ mode := mode }]⟩, ⟨s.files.length⟩)

def file? (s : FileStore) (h : FileHandle) : Option CacheFile := s.files[h.index]?

def setFile (s : FileStore) (h : FileHandle) (f : CacheFile) : FileStore :=
  ⟨s.files.set h.index f⟩

def read? (s : FileStore) (h : FileHandle) : Option Bytes := do (← s.file? h).read?

def write? (s : FileStore) (h : FileHandle) (bytes : Bytes) : Option FileStore := do
  return s.setFile h (← (← s.file? h).write? bytes)

def truncate? (s : FileStore) (h : FileHandle) : Option FileStore := do
  return s.setFile h (← (← s.file? h).truncate?)

end FileStore

end NeuralDispatch
