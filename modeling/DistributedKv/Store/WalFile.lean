import DistributedKv.Lib.Volume
import DistributedKv.Store.Wal

/-!
The WAL (`internal/wal/wal.go`) over the system calls it makes. The file that it
has open and the file that its path stands for are two things: `Replace` gives the
path to a new file and only then opens that one.
-/

namespace DistributedKv

open Crash Prog Volume
open Framing (frame frames)

/-- The field `file` of a `WAL`: `nil` after `Close`, `closed` if the file was
closed and the field not cleared. -/
inductive Descriptor where
  | nil
  | closed
  | file (i : Nat)
  deriving DecidableEq, Repr

namespace WalFile

variable (path dir : String)

/-! ## The methods of the open file -/

def write (fd : Descriptor) (chunk : Bytes) : Prog Descriptor Vol (Except String Unit) :=
  match fd with
  | .file i => writeBytes i chunk
  | _ => return .error "file already closed"

def sync (fd : Descriptor) : Prog Descriptor Vol (Except String Unit) :=
  match fd with
  | .file i => store (syncFile i)
  | _ => return .error "file already closed"

def truncate (fd : Descriptor) (size : Nat) : Prog Descriptor Vol (Except String Unit) :=
  match fd with
  | .file i => store (truncateFile i size)
  | _ => return .error "file already closed"

/-- `Seek` and the reads: they change nothing and may fail. -/
def access (fd : Descriptor) : Prog Descriptor Vol (Except String Unit) :=
  match fd with
  | .file _ => attempt
  | _ => return .error "file already closed"

/-- What the open file holds. -/
def contents (fd : Descriptor) (v : Vol) : Bytes :=
  match fd with
  | .file i => (v.inodes[i]?.map Inode.content).getD []
  | _ => []

/-- Open the path, with a new file if there is none. -/
def openFile : Prog Descriptor Vol (Except String Unit) := do
  let v ← disk
  match v.dir (.path path) with
  | some i =>
      match ← attempt with
      | .error err => return .error err
      | .ok () =>
          modify fun _ => .file i
          return .ok ()
  | none =>
      match ← store (createFile (.path path)) with
      | .error err => return .error err
      | .ok () =>
          modify fun _ => .file v.inodes.length
          return .ok ()

/-! ## The methods of the WAL -/

/-- The directory is there and safe, so that `os.MkdirAll` changes nothing. -/
def newWAL : Prog Descriptor Vol (Except String Unit) := do
  match ← attempt with
  | .error err => return .error s!"create WAL directory for {repr path}: {err}"
  | .ok () =>
  match ← openFile path with
  | .error err => return .error s!"open WAL {repr path}: {err}"
  | .ok () => return .ok ()

def writeRecord (fd : Descriptor) (record : Bytes) : Prog Descriptor Vol (Except String Unit) :=
  if record.length = 0 ∨ record.length > maxRecordSize then
    return .error s!"WAL record size {record.length} is invalid"
  else do
    match ← write fd (Framing.header record.length) with
    | .error err => return .error err
    | .ok () => write fd record

def writeRecords (fd : Descriptor) : List Bytes → Prog Descriptor Vol (Except String Unit)
  | [] => return .ok ()
  | record :: records => do
      match ← writeRecord fd record with
      | .error err => return .error err
      | .ok () => writeRecords fd records

def appendBatch (records : List Bytes) : Prog Descriptor Vol (Except String Unit) := do
  if records = [] then return .ok ()
  else
    match ← read with
    | .nil => return .error "append to closed WAL"
    | fd =>
        match ← writeRecords fd records with
        | .error err => return .error s!"write WAL record {repr path}: {err}"
        | .ok () =>
        match ← sync fd with
        | .error err => return .error s!"sync WAL {repr path}: {err}"
        | .ok () => return .ok ()

def truncateLocked (fd : Descriptor) (size : Nat) : Prog Descriptor Vol (Except String Unit) := do
  match ← truncate fd size with
  | .error err => return .error s!"truncate torn WAL record {repr path}: {err}"
  | .ok () =>
  match ← sync fd with
  | .error err => return .error s!"sync truncated WAL {repr path}: {err}"
  | .ok () => return .ok ()

/-- The loop of `Replay`, as `Wal.replayLoop`, with the reads that may fail. -/
def replayLoop (fd : Descriptor) : Nat → Nat → List Bytes → Bytes →
    Prog Descriptor Vol (Except String (List Bytes × Option Nat))
  | 0, _, _, _ => return .error "unreachable"
  | fuel + 1, validBytes, records, rest => do
      match ← access fd with
      | .error err => return .error s!"read WAL header {repr path}: {err}"
      | .ok () =>
      match rest with
      | [] => return .ok (records, none)
      | a :: b :: c :: d :: rest =>
          let size := Framing.size a b c d
          if size = 0 ∨ size > maxRecordSize then
            return .error s!"WAL {repr path} has invalid record size {size} at byte {validBytes}"
          else
            match ← access fd with
            | .error err => return .error s!"read WAL record {repr path}: {err}"
            | .ok () =>
                if rest.length < size then return .ok (records, some validBytes)
                else
                  replayLoop fd fuel (validBytes + (4 + size)) (records ++ [rest.take size])
                    (rest.drop size)
      | _ => return .ok (records, some validBytes)

def seekEnd (fd : Descriptor) (records : List Bytes) :
    Prog Descriptor Vol (Except String (List Bytes)) := do
  match ← access fd with
  | .error err => return .error s!"seek WAL end {repr path}: {err}"
  | .ok () => return .ok records

def replay : Prog Descriptor Vol (Except String (List Bytes)) := do
  match ← read with
  | .nil => return .error "replay closed WAL"
  | fd =>
      match ← access fd with
      | .error err => return .error s!"seek WAL {repr path}: {err}"
      | .ok () =>
      let v ← disk
      match ← replayLoop path fd ((contents fd v).length + 1) 0 [] (contents fd v) with
      | .error err => return .error err
      | .ok (records, none) => seekEnd path fd records
      | .ok (records, some validBytes) =>
          match ← truncateLocked path fd validBytes with
          | .error err => return .error err
          | .ok () => seekEnd path fd records

def replaceMessages : Messages where
  create err := s!"create WAL replacement for {repr path}: {err}"
  write err := s!"write WAL replacement {repr path}: {err}"
  sync err := s!"sync WAL replacement {repr path}: {err}"
  close err := s!"close WAL replacement {repr path}: {err}"
  rename err := s!"replace WAL {repr path}: {err}"
  openDir err := s!"open WAL directory {repr dir}: {err}"
  syncDir err := s!"sync WAL directory {repr dir}: {err}"

/-- Closing a file closes it also when it returns an error. -/
def closeFile (fd : Descriptor) : Prog Descriptor Vol (Except String Unit) :=
  match fd with
  | .file _ => do
      let res ← attempt
      modify fun _ => .closed
      return res
  | _ => return .error "file already closed"

/-- The end of `Replace`: close the file that is open and open the new one. -/
def switchFile (fd : Descriptor) : Prog Descriptor Vol (Except String Unit) := do
  match ← attempt with
  | .error err => return .error s!"close WAL directory {repr dir}: {err}"
  | .ok () =>
  match ← closeFile fd with
  | .error err => return .error s!"close replaced WAL {repr path}: {err}"
  | .ok () =>
  match ← openFile path with
  | .error err => return .error s!"reopen replaced WAL {repr path}: {err}"
  | .ok () => return .ok ()

def replace (records : List Bytes) : Prog Descriptor Vol (Except String Unit) := do
  match ← read with
  | .nil => return .error "replace closed WAL"
  | fd =>
      withTemp (replaceMessages path dir) fun tmp i => do
        match ← publish (replaceMessages path dir) (.path path) tmp (writeRecords (.file i) records)
            i with
        | .error err => return .error err
        | .ok () => switchFile path dir fd

def close : Prog Descriptor Vol (Except String Unit) := do
  match ← read with
  | .nil => return .ok ()
  | fd =>
      let res ← closeFile fd
      modify fun _ => .nil
      return res

end WalFile

end DistributedKv
