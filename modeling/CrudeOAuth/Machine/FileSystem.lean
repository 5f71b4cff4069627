import Mathlib.Tactic.Common
import Mathlib.Logic.Function.Basic

/-!
# Files and their times

Files are identified by device and inode; paths are links to them. A change of a file
sets its time of change, `ctime`, to the clock rounded down to a tick, so that two
changes in one tick may leave equal times.

All that the times promise is `FileOp.run_files`: a file is as it was before, or its
`ctime` is that of now. So a `ctime` that is a tick old is not given to any change to
come (`FileOp.run_files_of_old`).
-/

namespace Machine

structure FileId where
  dev : UInt64
  ino : UInt64
  deriving DecidableEq, Repr

/-- Times are nanoseconds since the epoch; those of a file that is not changed while the
    machine runs may be any. -/
structure File where
  content : List UInt8
  mode : UInt32
  isFile : Bool
  mtime : Int
  ctime : Int
  deriving DecidableEq, Repr

/-- What `stat` and `fstat` answer. -/
structure Metadata where
  id : FileId
  len : Nat
  mode : UInt32
  isFile : Bool
  mtime : Int
  ctime : Int
  deriving DecidableEq, Repr

def File.metadata (file : File) (id : FileId) : Metadata where
  id := id
  len := file.content.length
  mode := file.mode
  isFile := file.isFile
  mtime := file.mtime
  ctime := file.ctime

structure FileSystem where
  files : FileId → Option File
  links : String → Option FileId

namespace FileSystem

/-- The file at a path. -/
def find (fs : FileSystem) (path : String) : Option (FileId × File) := do
  let id ← fs.links path
  let file ← fs.files id
  return (id, file)

def setFile (fs : FileSystem) (id : FileId) (file : Option File) : FileSystem :=
  { fs with files := Function.update fs.files id file }

def setLink (fs : FileSystem) (path : String) (id : Option FileId) : FileSystem :=
  { fs with links := Function.update fs.links path id }

@[simp] theorem setLink_files (fs : FileSystem) (path : String) (id : Option FileId) :
    (fs.setLink path id).files = fs.files := rfl

theorem setFile_files (fs : FileSystem) (id id' : FileId) (file : Option File) :
    (fs.setFile id file).files id' = if id' = id then file else fs.files id' := by
  simp [setFile, Function.update_apply]

theorem find_eq_some {fs : FileSystem} {path : String} {id : FileId} {file : File} :
    fs.find path = some (id, file) ↔ fs.links path = some id ∧ fs.files id = some file := by
  simp [find, Option.bind_eq_some_iff]

end FileSystem

/-- The time that a change at the clock value `now` is given. -/
def roundDown (tick now : Nat) : Int := ((now / tick * tick : Nat) : Int)

theorem lt_roundDown {tick now : Nat} (htick : 0 < tick) {t : Int} (h : t + tick ≤ now) :
    t < roundDown tick now := by
  have hmod := Nat.mod_lt now htick
  have hdiv := Nat.div_add_mod' now tick
  unfold roundDown
  omega

/-! ## Changes -/

inductive FileOp
  /-- a new empty file -/
  | create (path : String) (id : FileId) (mode : UInt32) (isFile : Bool)
  /-- in place: the file keeps its identity and its mode -/
  | write (id : FileId) (content : List UInt8)
  | chmod (id : FileId) (mode : UInt32)
  | utimes (id : FileId) (mtime : Int)
  /-- The new path names the file that the old one named. Whether this is a change of the
      file is up to the file system. -/
  | rename (src dst : String) (changes : Bool)
  | unlink (path : String)
  /-- the file is gone, and its identity may be used again -/
  | free (id : FileId)
  deriving DecidableEq, Repr

/-- Changes a file at a time. -/
def FileSystem.modify (fs : FileSystem) (id : FileId) (time : Int) (f : File → File) : Option FileSystem :=
  (fs.files id).map fun file => fs.setFile id (some { f file with ctime := time })

def FileOp.run (tick now : Nat) (fs : FileSystem) : FileOp → Option FileSystem
  | .create path id mode isFile =>
    let time := roundDown tick now
    if fs.files id = none ∧ fs.links path = none then
      some ((fs.setFile id (some { content := [], mode, isFile, mtime := time, ctime := time })).setLink
        path (some id))
    else none
  | .write id content =>
    let time := roundDown tick now
    fs.modify id time fun file => { file with content, mtime := time }
  | .chmod id mode => fs.modify id (roundDown tick now) fun file => { file with mode }
  | .utimes id mtime => fs.modify id (roundDown tick now) fun file => { file with mtime }
  | .rename src dst changes => do
    let id ← fs.links src
    let changed := if changes then fs.modify id (roundDown tick now) (fun file => file) else some fs
    changed.map fun fs => (fs.setLink src none).setLink dst (some id)
  | .unlink path => some (fs.setLink path none)
  | .free id => some (fs.setFile id none)

theorem FileSystem.modify_files {fs fs' : FileSystem} {id : FileId} {time : Int} {f : File → File}
    (h : fs.modify id time f = some fs') {id' : FileId} {file : File}
    (hfile : fs'.files id' = some file) : fs.files id' = some file ∨ file.ctime = time := by
  obtain ⟨old, -, rfl⟩ := Option.map_eq_some_iff.1 h
  rw [FileSystem.setFile_files] at hfile
  split at hfile
  · obtain rfl := Option.some.inj hfile
    exact .inr rfl
  · exact .inl hfile

/-- A file that there is after an operation was there before as it is, or its `ctime` is that
    of the operation. -/
theorem FileOp.run_files {tick now : Nat} {fs fs' : FileSystem} {op : FileOp}
    (h : op.run tick now fs = some fs') {id : FileId} {file : File} (hfile : fs'.files id = some file) :
    fs.files id = some file ∨ file.ctime = roundDown tick now := by
  cases op with
  | create path id' mode isFile =>
    simp only [run] at h
    split at h
    · obtain rfl := Option.some.inj h
      rw [FileSystem.setLink_files, FileSystem.setFile_files] at hfile
      split at hfile
      · obtain rfl := Option.some.inj hfile
        exact .inr rfl
      · exact .inl hfile
    · cases h
  | write | chmod | utimes => exact FileSystem.modify_files h hfile
  | rename src dst changes =>
    -- Links are not files: only the change that goes with the renaming touches one.
    obtain ⟨id', -, h⟩ := Option.bind_eq_some_iff.1 h
    obtain ⟨fs₁, hfs₁, rfl⟩ := Option.map_eq_some_iff.1 h
    rw [FileSystem.setLink_files, FileSystem.setLink_files] at hfile
    split at hfs₁
    · exact FileSystem.modify_files hfs₁ hfile
    · obtain rfl := Option.some.inj hfs₁
      exact .inl hfile
  | unlink =>
    obtain rfl := Option.some.inj h
    exact .inl hfile
  | free =>
    obtain rfl := Option.some.inj h
    rw [FileSystem.setFile_files] at hfile
    split at hfile
    · cases hfile
    · exact .inl hfile

/-- A `ctime` that is a tick old is that of a file that was there before. -/
theorem FileOp.run_files_of_old {tick now : Nat} (htick : 0 < tick) {fs fs' : FileSystem} {op : FileOp}
    (h : op.run tick now fs = some fs') {id : FileId} {file : File} (hfile : fs'.files id = some file)
    (hold : file.ctime + tick ≤ now) : fs.files id = some file :=
  (run_files h hfile).resolve_right fun hctime => absurd hctime (Int.ne_of_lt (lt_roundDown htick hold))

end Machine
