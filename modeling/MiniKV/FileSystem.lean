import MiniKV.Names
import MiniKV.Lib.Prog
import MiniKV.Lib.Volatile

/-!
# The file system under the database

A directory maps names to inodes and every inode has a byte string; `LOCK` is
left out, of which only matters who holds it. Both sit
behind the page cache: creates, renames and unlinks reach the disk in issue
order, and entirely once a directory sync has succeeded; bytes reach the disk
in the order they were written, and entirely once a file sync has succeeded.

Every call of the source that may fail is one primitive here, and takes one
`Outcome` from a script: it may succeed, fail with part of its effect done, or
be the point at which the process is killed. A script that has run out means
no further fault.
-/

namespace MiniKV

open Lib

abbrev Inode := Nat

abbrev Dir := List (FileName × Inode)

namespace Dir

def lookup (d : Dir) (f : FileName) : Option Inode := (d.find? (fun e => e.1 = f)).map Prod.snd

def unlink (f : FileName) (d : Dir) : Dir := d.filter (fun e => e.1 ≠ f)

def link (f : FileName) (i : Inode) (d : Dir) : Dir := (f, i) :: d.unlink f

def move (src dst : FileName) (d : Dir) : Dir :=
  match d.lookup src with
  | some i => (d.unlink src).link dst i
  | none => d

def names (d : Dir) : List FileName := d.map Prod.fst

theorem lookup_unlink (f g : FileName) (d : Dir) :
    (d.unlink f).lookup g = if g = f then none else d.lookup g := by
  unfold lookup unlink
  rw [List.find?_filter]
  split
  · rename_i h
    subst h
    simp
  · rename_i h
    congr 2
    funext e
    by_cases he : e.1 = g
    · simp [he, h]
    · simp [he]

theorem lookup_link (f g : FileName) (i : Inode) (d : Dir) :
    (d.link f i).lookup g = if g = f then some i else d.lookup g := by
  unfold link
  by_cases h : f = g
  · simp [lookup, h]
  · have hl := lookup_unlink f g d
    rw [if_neg (Ne.symm h)] at hl ⊢
    rw [← hl]
    simp [lookup, h]

theorem lookup_move {src dst : FileName} {i : Inode} {d : Dir} (h : d.lookup src = some i)
    (g : FileName) :
    (d.move src dst).lookup g =
      if g = dst then some i else if g = src then none else d.lookup g := by
  simp only [move, h]
  rw [lookup_link, lookup_unlink]

theorem names_unlink (f : FileName) (d : Dir) :
    (d.unlink f).names = d.names.filter (fun g => g ≠ f) := by
  rw [names, names, unlink, List.filter_map]
  rfl

theorem nodup_unlink {d : Dir} (h : d.names.Nodup) (f : FileName) : (d.unlink f).names.Nodup := by
  rw [names_unlink]
  exact h.filter _

theorem nodup_link {d : Dir} (h : d.names.Nodup) (f : FileName) (i : Inode) :
    (d.link f i).names.Nodup := by
  refine List.nodup_cons.mpr ⟨?_, nodup_unlink h f⟩
  show f ∉ (d.unlink f).names
  rw [names_unlink]
  simp

theorem nodup_move {d : Dir} (h : d.names.Nodup) (src dst : FileName) :
    (d.move src dst).names.Nodup := by
  unfold move
  split
  · exact nodup_link (nodup_unlink h src) dst _
  · exact h

theorem mem_names {d : Dir} {f : FileName} : f ∈ d.names ↔ ∃ i, d.lookup f = some i := by
  unfold names lookup
  constructor
  · intro h
    obtain ⟨e, he, rfl⟩ := List.mem_map.mp h
    have hs : (d.find? (fun x => x.1 = e.1)).isSome = true :=
      List.find?_isSome.mpr ⟨e, he, by simp⟩
    obtain ⟨x, hx⟩ := Option.isSome_iff_exists.mp hs
    exact ⟨x.2, by rw [hx]; rfl⟩
  · rintro ⟨i, hi⟩
    obtain ⟨x, hx, -⟩ := Option.map_eq_some_iff.mp hi
    have hp := List.find?_some hx
    exact List.mem_map.mpr ⟨x, List.mem_of_find?_eq_some hx, by simpa using hp⟩

end Dir

/-! ## The disk -/

structure Disk where
  dir : Volatile Dir
  files : Inode → Volatile Bytes
  /-- The first inode never handed out. -/
  fresh : Inode

namespace Disk

def empty : Disk := ⟨.stable [], fun _ => .stable [], 0⟩

/-- The inode a running process finds under a name. -/
def lookup (d : Disk) (f : FileName) : Option Inode := d.dir.current.lookup f

def create (d : Disk) (f : FileName) : Disk :=
  { dir := d.dir.set (d.dir.current.link f d.fresh)
    files := Function.update d.files d.fresh (.stable [])
    fresh := d.fresh + 1 }

def append (d : Disk) (i : Inode) (p : Bytes) : Disk :=
  { d with files := Function.update d.files i ((d.files i).append p) }

def sync (d : Disk) (i : Inode) : Disk :=
  { d with files := Function.update d.files i (d.files i).flush }

def truncate (d : Disk) (i : Inode) (size : Nat) : Disk :=
  { d with files := Function.update d.files i ((d.files i).set ((d.files i).current.take size)) }

def rename (d : Disk) (src dst : FileName) : Disk :=
  { d with dir := d.dir.set (d.dir.current.move src dst) }

def remove (d : Disk) (f : FileName) : Disk :=
  { d with dir := d.dir.set (d.dir.current.unlink f) }

def syncDirectory (d : Disk) : Disk := { d with dir := d.dir.flush }

/-- A crash keeps one of the states the directory passed through since its last
sync, and independently one of the contents of every file. -/
def crash (d : Disk) (k : Nat) (cut : Inode → Nat) : Disk :=
  { dir := .stable (d.dir.survivor k)
    files := fun i => .stable ((d.files i).survivor (cut i))
    fresh := d.fresh }

end Disk

/-! ## Faults and ghost records -/

inductive Outcome where
  | ok
  /-- The call reports an error after this much of its effect. -/
  | fail (progress : Nat)
  /-- The process dies after this much of its effect. -/
  | kill (progress : Nat)
  deriving DecidableEq, Repr

/-- Directory operations as they happened, for statements about their order. -/
inductive Event where
  | renamed (dst : FileName) (content : Bytes)
  | removed (f : FileName)
  | directorySynced
  deriving DecidableEq, Repr

/-- What became of the writes, for statements about durability. -/
inductive Label where
  | appended (r : Record) (mode : SyncMode)
  | inDoubt (r : Record)
  | crashed
  deriving DecidableEq, Repr

structure Store where
  disk : Disk
  /-- Newest first. -/
  trace : List Event
  /-- Newest first. -/
  history : List Label

structure Fs where
  store : Store
  script : List Outcome

namespace Store

def empty : Store := ⟨.empty, [], []⟩

def onDisk (f : Disk → Disk) (s : Store) : Store := { s with disk := f s.disk }

def note (e : Event) (s : Store) : Store := { s with trace := e :: s.trace }

def label (l : Label) (s : Store) : Store := { s with history := l :: s.history }

/-- The write that was in doubt is in the log. -/
def commit (r : Record) (mode : SyncMode) (s : Store) : Store :=
  { s with history := .appended r mode :: s.history.tail }

@[simp] theorem onDisk_disk (f : Disk → Disk) (s : Store) : (s.onDisk f).disk = f s.disk := rfl
@[simp] theorem onDisk_history (f : Disk → Disk) (s : Store) :
    (s.onDisk f).history = s.history := rfl
@[simp] theorem onDisk_trace (f : Disk → Disk) (s : Store) : (s.onDisk f).trace = s.trace := rfl
@[simp] theorem note_disk (e : Event) (s : Store) : (s.note e).disk = s.disk := rfl
@[simp] theorem note_history (e : Event) (s : Store) : (s.note e).history = s.history := rfl
@[simp] theorem note_trace (e : Event) (s : Store) : (s.note e).trace = e :: s.trace := rfl
@[simp] theorem label_disk (l : Label) (s : Store) : (s.label l).disk = s.disk := rfl
@[simp] theorem label_history (l : Label) (s : Store) :
    (s.label l).history = l :: s.history := rfl
@[simp] theorem label_trace (l : Label) (s : Store) : (s.label l).trace = s.trace := rfl

end Store

/-! ## Primitives -/

abbrev Io (α : Type) := Prog Status Fs α

namespace Fs

/-- Take the next outcome of the script. -/
def next (s : Fs) : Outcome × Fs :=
  match s.script with
  | [] => (.ok, s)
  | x :: xs => (x, { s with script := xs })

def update (f : Store → Store) (s : Fs) : Fs := { s with store := f s.store }

end Fs

/-- A call whose effect happens whole or not at all. -/
def atomically (effect : Store → Store) (e : Status) : Io Unit := fun s =>
  match s.next with
  | (.ok, s) => (.ok (), s.update effect)
  | (.fail n, s) => (.error e, if n = 0 then s else s.update effect)
  | (.kill n, s) => (.killed, if n = 0 then s else s.update effect)

/-- `WritableFile::Sync` and `RecoveryFile::Sync` -/
def syncFile (i : Inode) : Io Unit := atomically (·.onDisk (·.sync i)) (.ioError "fdatasync")

/-- `RecoveryFile::Truncate` -/
def truncateFile (i : Inode) (size : Nat) : Io Unit :=
  atomically (·.onDisk (·.truncate i size)) (.ioError "ftruncate")

/-- `FlushEnvironment::CreateTruncated`. The temporary names it is called on have no
second link, so an older file under the name is simply replaced by an empty one. -/
def createTruncated (f : FileName) : Io Inode := do
  let s ← Prog.get
  atomically (·.onDisk (·.create f)) (.ioError "open")
  pure s.store.disk.fresh

/-- `PosixWritableFile::OpenAppend`, which creates a missing file. -/
def openAppend (f : FileName) : Io Inode := do
  let s ← Prog.get
  match s.store.disk.lookup f with
  | some i => do
    atomically id (.ioError "open")
    pure i
  | none => createTruncated f

/-- `FlushEnvironment::Rename` -/
def renameFile (src dst : FileName) : Io Unit := do
  let s ← Prog.get
  match s.store.disk.lookup src with
  | none => Prog.fail (.ioError "rename")
  | some i =>
    atomically (fun t => (t.onDisk (·.rename src dst)).note
      (.renamed dst (s.store.disk.files i).current)) (.ioError "rename")

/-- `FlushEnvironment::RemoveFile`: a missing file counts as removed. -/
def removeFile (f : FileName) : Io Unit := do
  let s ← Prog.get
  match s.store.disk.lookup f with
  | none => atomically id (.ioError "unlink")
  | some _ => atomically (fun t => (t.onDisk (·.remove f)).note (.removed f)) (.ioError "unlink")

/-- `FlushEnvironment::SyncDirectory`; only a success is a sync anyone may rely on. -/
def syncDirectory : Io Unit := fun s =>
  match s.next with
  | (.ok, s) => (.ok (), s.update (fun t => (t.onDisk (·.syncDirectory)).note .directorySynced))
  | (.fail n, s) => (.error (.ioError "fsync directory"),
      if n = 0 then s else s.update (·.onDisk (·.syncDirectory)))
  | (.kill n, s) => (.killed, if n = 0 then s else s.update (·.onDisk (·.syncDirectory)))

/-- Largest offset `off_t` has, beyond which no file grows. -/
def maximumFileSize : Nat := 2 ^ 63 - 1

/-- The part of a write that fits the file. -/
def fitting (d : Disk) (i : Inode) (data : Bytes) : Bytes :=
  data.take (maximumFileSize - (d.files i).current.length)

/-- `WriteAll`: short writes are resumed, so an error leaves some prefix written. -/
def writeAll (i : Inode) (data : Bytes) : Io Unit := fun s =>
  match s.next with
  | (.ok, s) =>
    let p := fitting s.store.disk i data
    (if p.length = data.length then .ok () else .error (.ioError "write"),
      s.update (·.onDisk (·.append i p)))
  | (.fail n, s) => (.error (.ioError "write"),
      s.update (·.onDisk (·.append i ((fitting s.store.disk i data).take n))))
  | (.kill n, s) => (.killed,
      s.update (·.onDisk (·.append i ((fitting s.store.disk i data).take n))))

/-- Read a whole file. -/
def readFile (f : FileName) : Io Bytes := do
  let s ← Prog.get
  match s.store.disk.lookup f with
  | none => Prog.fail (.ioError "open")
  | some i => do
    atomically id (.ioError "pread")
    pure (s.store.disk.files i).current

/-- A call that touches no file of the directory and may fail. -/
def fallible (e : Status) : Io Unit := atomically id e

end MiniKV
