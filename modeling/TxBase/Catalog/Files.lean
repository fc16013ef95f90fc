import Mathlib.Data.List.Dedup
import TxBase.Dbf.Types
import TxBase.Lib.Procedure

/-! The directory of a catalog as `src/catalog/journal.rs` uses it: the files that lie in it,
the directory of the journal, and the operations of `std::fs` on them. -/
namespace TxBase.Catalog
open Lib

/-- A name as the file system has it, which need not be valid UTF-8. -/
abbrev FileName := Bytes

structure IoError where
  notFound : Bool
  message : String
  deriving DecidableEq

inductive CatalogError where
  | io (error : IoError)
  | invalid (message : String)
  | table (name : String) (source : Dbf.DbfError)
  deriving DecidableEq

/-- The two directories of staged files. -/
inductive Side where
  | before | after
  deriving DecidableEq

inductive Directory where
  | journal
  | staged (side : Side)
  deriving DecidableEq

inductive FilePath where
  | target (name : FileName)
  | staged (side : Side) (name : String)
  | manifest
  | temporary
  deriving DecidableEq

inductive Entry where
  | directory (directory : Directory)
  | file (path : FilePath)
  deriving DecidableEq

/-- What lies in the directory of the journal. -/
structure JournalDirectory where
  staged : Side → Option (OrderedMap String Bytes)
  manifest : Option Bytes
  temporary : Option Bytes

/-- What lies in the directory of the catalog. -/
structure Root where
  files : FileName → Option Bytes
  journal : Option JournalDirectory

def journalDir : FileName := utf8 ".txbase.catalog.txn"

/-- The names under which there is a directory and not a file. -/
def isDirectory (name : FileName) : Bool := name = journalDir || name = utf8 ".."

namespace JournalDirectory

def empty : JournalDirectory := ⟨fun _ => none, none, none⟩

def entries (journal : JournalDirectory) : List Entry :=
  (if (journal.staged .before).isSome then [.directory (.staged .before)] else []) ++
  (if (journal.staged .after).isSome then [.directory (.staged .after)] else []) ++
  (if journal.manifest.isSome then [.file .manifest] else []) ++
  (if journal.temporary.isSome then [.file .temporary] else [])

def setStaged (journal : JournalDirectory) (side : Side) (files : Option (OrderedMap String Bytes)) :
    JournalDirectory :=
  { journal with staged := fun other => if other = side then files else journal.staged other }

end JournalDirectory

namespace Root

def stagedFiles (root : Root) (side : Side) : Option (OrderedMap String Bytes) :=
  root.journal.bind fun journal => journal.staged side

def get (root : Root) : FilePath → Option Bytes
  | .target name => root.files name
  | .staged side name => (root.stagedFiles side).bind (OrderedMap.get? name)
  | .manifest => root.journal.bind JournalDirectory.manifest
  | .temporary => root.journal.bind JournalDirectory.temporary

def hasParent (root : Root) : FilePath → Bool
  | .target _ => true
  | .staged side _ => (root.stagedFiles side).isSome
  | .manifest | .temporary => root.journal.isSome

def set (root : Root) (path : FilePath) (content : Option Bytes) : Root :=
  match path with
  | .target name => { root with files := Function.update root.files name content }
  | .staged side name =>
      { root with journal := root.journal.map fun journal =>
          journal.setStaged side ((journal.staged side).map fun files =>
            match content with
            | some bytes => OrderedMap.insert name bytes files
            | none => OrderedMap.erase name files) }
  | .manifest => { root with journal := root.journal.map fun journal =>
    { journal with manifest := content } }
  | .temporary =>
      { root with journal := root.journal.map fun journal => { journal with temporary := content } }

def list (root : Root) : Directory → Option (List Entry)
  | .journal => root.journal.map JournalDirectory.entries
  | .staged side => (root.stagedFiles side).map fun files =>
      files.keys.dedup.map fun name => .file (.staged side name)

def present (root : Root) : Entry → Bool
  | .directory directory => (root.list directory).isSome
  | .file path => (root.get path).isSome

def setDirectory (root : Root) (directory : Directory) (made : Bool) : Root :=
  match directory with
  | .journal => { root with journal := if made then some .empty else none }
  | .staged side =>
      { root with journal := root.journal.map fun journal =>
          journal.setStaged side (if made then some [] else none) }

end Root

/-- The operations of `std::fs`. -/
inductive FsOp where
  | present (entry : Entry)
  | createDir (directory : Directory)
  | createFile (path : FilePath)
  | writeAll (path : FilePath) (bytes : Bytes)
  | syncFile (path : FilePath)
  /-- The directory of the catalog if none is named. -/
  | syncDirectory (directory : Option Directory)
  | rename (source target : FilePath)
  | readFile (path : FilePath)
  | removeFile (path : FilePath)
  | readDir (directory : Directory)
  | removeDir (directory : Directory)

@[reducible] def FsOp.Reply : FsOp → Type
  | .present _ => Bool
  | .readFile _ => Bytes
  | .readDir _ => List Entry
  | _ => Unit

/-- The order in which a directory lists its entries. -/
class DirectoryOrder where
  order : List Entry → List Entry
  perm : ∀ entries, (order entries).Perm entries

@[reducible] def DirectoryOrder.plain : DirectoryOrder := ⟨id, fun _ => List.Perm.refl _⟩

def noEntry {α : Type} : Except IoError α := .error ⟨true, "No such file or directory"⟩

def isADirectory {α : Type} : Except IoError α := .error ⟨false, "Is a directory"⟩

def FilePath.isDirectory : FilePath → Bool
  | .target name => TxBase.Catalog.isDirectory name
  | _ => false

section Exec
variable [DirectoryOrder]

def exec : (op : FsOp) → Root → Except IoError op.Reply × Root
  | .present entry, root => (.ok (root.present entry), root)
  | .createDir directory, root =>
      if (root.list directory).isSome then (.error ⟨false, "File exists"⟩, root)
      else if directory ≠ .journal ∧ root.journal.isNone then (noEntry, root)
      else (.ok (), root.setDirectory directory true)
  | .createFile path, root =>
      if path.isDirectory then (isADirectory, root)
      else if root.hasParent path then (.ok (), root.set path (some []))
      else (noEntry, root)
  | .writeAll path bytes, root => (.ok (), root.set path (some bytes))
  | .syncFile _, root => (.ok (), root)
  | .syncDirectory _, root => (.ok (), root)
  | .rename source target, root =>
      match root.get source with
      | none => (noEntry, root)
      | some bytes =>
          if target.isDirectory then (isADirectory, root)
          else (.ok (), (root.set source none).set target (some bytes))
  | .readFile path, root =>
      if path.isDirectory then (isADirectory, root)
      else match root.get path with
        | none => (noEntry, root)
        | some bytes => (.ok bytes, root)
  | .removeFile path, root =>
      if path.isDirectory then (isADirectory, root)
      else match root.get path with
        | none => (noEntry, root)
        | some _ => (.ok (), root.set path none)
  | .readDir directory, root =>
      match root.list directory with
      | none => (noEntry, root)
      | some entries => (.ok (DirectoryOrder.order entries), root)
  | .removeDir directory, root =>
      match root.list directory with
      | none => (noEntry, root)
      | some [] => (.ok (), root.setDirectory directory false)
      | some _ => (.error ⟨false, "Directory not empty"⟩, root)

end Exec

end TxBase.Catalog
