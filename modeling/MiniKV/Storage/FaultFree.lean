import MiniKV.Storage.Log

/-!
# Runs without faults

Once the script of outcomes has run out no call fails any more, and what a
program does is a matter of the contents of the directory alone. This is how
the steps of `Open` act on these contents.
-/

namespace MiniKV

open Lib

/-! ## Contents -/

/-- The files of a directory are not linked to one another, and their inodes are in use. -/
structure Disk.Ordinary (d : Disk) : Prop where
  nodup : d.dir.current.names.Nodup
  unique : ∀ f g i, d.lookup f = some i → d.lookup g = some i → f = g
  linked : ∀ f i, d.lookup f = some i → i < d.fresh
  small : ∀ i, (d.files i).current.length ≤ maximumFileSize

namespace Store

/-- The contents that a running process finds under a name. -/
def view (st : Store) (f : FileName) : Option Bytes :=
  (st.disk.lookup f).map (fun i => (st.disk.files i).current)

/-- A state in which no further call fails. -/
def calm (st : Store) : Fs := ⟨st, []⟩

theorem view_eq_some {st : Store} {f : FileName} {b : Bytes} :
    st.view f = some b ↔ ∃ i, st.disk.lookup f = some i ∧ (st.disk.files i).current = b :=
  Option.map_eq_some_iff

theorem mem_names {st : Store} {f : FileName} :
    f ∈ st.disk.dir.current.names ↔ ∃ b, st.view f = some b := by
  rw [Dir.mem_names]
  constructor
  · rintro ⟨i, hi⟩
    exact ⟨_, view_eq_some.mpr ⟨i, hi, rfl⟩⟩
  · rintro ⟨b, hb⟩
    obtain ⟨i, hi, -⟩ := view_eq_some.mp hb
    exact ⟨i, hi⟩

/-! ## Removing files -/

/-- The state after `RemoveFile`. -/
def removed (f : FileName) (st : Store) : Store :=
  match st.disk.lookup f with
  | none => st
  | some _ => (st.onDisk (·.remove f)).note (.removed f)

theorem removeFile_calm (f : FileName) (st : Store) :
    removeFile f st.calm = (.ok (), (st.removed f).calm) := by
  unfold removeFile removed
  show (Prog.bind Prog.get _) st.calm = _
  cases hl : st.disk.lookup f with
  | none =>
    simp only [Prog.bind, Prog.get, calm, hl]
    rfl
  | some i =>
    simp only [Prog.bind, Prog.get, calm, hl]
    rfl

theorem lookup_removed (f g : FileName) (st : Store) :
    (st.removed f).disk.lookup g = if g = f then none else st.disk.lookup g := by
  unfold removed
  cases hl : st.disk.lookup f with
  | none =>
    dsimp only
    by_cases hg : g = f
    · rw [if_pos hg, hg, hl]
    · rw [if_neg hg]
  | some i => exact Dir.lookup_unlink f g _

theorem files_removed (f : FileName) (st : Store) : (st.removed f).disk.files = st.disk.files := by
  unfold removed
  split <;> rfl

theorem view_removed (f g : FileName) (st : Store) :
    (st.removed f).view g = if g = f then none else st.view g := by
  rw [view, lookup_removed, files_removed]
  split <;> rfl

theorem Ordinary.removed {st : Store} (h : st.disk.Ordinary) (f : FileName) :
    (st.removed f).disk.Ordinary := by
  have hsub : ∀ g i, (st.removed f).disk.lookup g = some i → st.disk.lookup g = some i := by
    intro g i hg
    rw [lookup_removed] at hg
    split at hg
    · cases hg
    · exact hg
  have hfresh : (st.removed f).disk.fresh = st.disk.fresh := by
    unfold Store.removed
    split <;> rfl
  refine ⟨?_, fun g g' i hg hg' => h.unique g g' i (hsub g i hg) (hsub g' i hg'), ?_, ?_⟩
  · unfold Store.removed
    split
    · exact h.nodup
    · show (Dir.unlink f _).names.Nodup
      rw [Dir.names_unlink]
      exact h.nodup.filter _
  · intro g i hg
    rw [hfresh]
    exact h.linked g i (hsub g i hg)
  · intro i
    rw [files_removed]
    exact h.small i

/-- The state after several removals. -/
def removedAll : List FileName → Store → Store
  | [], st => st
  | f :: fs, st => removedAll fs (st.removed f)

theorem removedAll_append (fs gs : List FileName) (st : Store) :
    removedAll (fs ++ gs) st = removedAll gs (removedAll fs st) := by
  induction fs generalizing st with
  | nil => rfl
  | cons f fs ih => exact ih _

theorem removeFiles_calm (fs : List FileName) (st : Store) :
    removeFiles fs st.calm = (.ok (), (removedAll fs st).calm) := by
  induction fs generalizing st with
  | nil => rfl
  | cons f fs ih =>
    rw [removeFiles, Prog.bind_of_ok (removeFile_calm f st)]
    exact ih _

theorem view_removedAll (fs : List FileName) (st : Store) (g : FileName) :
    (removedAll fs st).view g = if g ∈ fs then none else st.view g := by
  induction fs generalizing st with
  | nil => rfl
  | cons f fs ih =>
    rw [removedAll, ih, view_removed]
    by_cases hg : g = f
    · simp [hg]
    · simp [hg]

theorem Ordinary.removedAll {st : Store} (h : st.disk.Ordinary) (fs : List FileName) :
    (removedAll fs st).disk.Ordinary := by
  induction fs generalizing st with
  | nil => exact h
  | cons f fs ih => exact ih (Ordinary.removed h f)

/-! ## Syncing, reading and cutting -/

/-- The state after a successful `SyncDirectory`. -/
def directorySynced (st : Store) : Store := (st.onDisk (·.syncDirectory)).note .directorySynced

theorem syncDirectory_calm (st : Store) :
    syncDirectory st.calm = (.ok (), st.directorySynced.calm) := rfl

@[simp] theorem view_directorySynced (st : Store) (f : FileName) :
    st.directorySynced.view f = st.view f := rfl

theorem Ordinary.directorySynced {st : Store} (h : st.disk.Ordinary) :
    st.directorySynced.disk.Ordinary := ⟨h.nodup, h.unique, h.linked, h.small⟩

theorem fallible_calm (e : Status) (st : Store) : fallible e st.calm = (.ok (), st.calm) := rfl

theorem readFile_calm {st : Store} {f : FileName} {b : Bytes} (h : st.view f = some b) :
    readFile f st.calm = (.ok b, st.calm) := by
  obtain ⟨i, hi, rfl⟩ := view_eq_some.mp h
  unfold readFile
  show (Prog.bind Prog.get _) st.calm = _
  simp only [Prog.bind, Prog.get, calm, hi]
  rfl

theorem openAppend_calm {st : Store} {f : FileName} {i : Inode} (h : st.disk.lookup f = some i) :
    openAppend f st.calm = (.ok i, st.calm) := by
  unfold openAppend
  show (Prog.bind Prog.get _) st.calm = _
  simp only [Prog.bind, Prog.get, calm, h]
  rfl

/-- The state after a file has been cut and synced. -/
def cut (i : Inode) (size : Nat) (st : Store) : Store :=
  (st.onDisk (·.truncate i size)).onDisk (·.sync i)

theorem files_cut (i j : Inode) (size : Nat) (st : Store) :
    ((st.cut i size).disk.files j).current =
      if j = i then (st.disk.files i).current.take size else (st.disk.files j).current := by
  unfold cut
  simp only [onDisk_disk, Disk.sync, Disk.truncate]
  by_cases hj : j = i
  · rw [hj, Function.update_self, Function.update_self, if_pos rfl]
    rfl
  · rw [Function.update_of_ne hj, Function.update_of_ne hj, if_neg hj]

theorem view_cut {st : Store} (h : st.disk.Ordinary) {f : FileName} {i : Inode} {b : Bytes}
    (hf : st.disk.lookup f = some i) (hb : st.view f = some b) (size : Nat) (g : FileName) :
    (st.cut i size).view g = if g = f then some (b.take size) else st.view g := by
  obtain ⟨j, hj, rfl⟩ := view_eq_some.mp hb
  obtain rfl := Option.some.inj (hf.symm.trans hj)
  have hlookup : (st.cut i size).disk.lookup g = st.disk.lookup g := rfl
  rw [view, hlookup]
  by_cases hg : g = f
  · rw [hg, hf, Option.map_some, files_cut, if_pos rfl, if_pos rfl]
  · rw [if_neg hg]
    cases hl : st.disk.lookup g with
    | none => rw [view, hl]; rfl
    | some j =>
      have hne : j ≠ i := fun hji => hg (h.unique g f i (hji ▸ hl) hf)
      rw [view, hl, Option.map_some, Option.map_some, files_cut, if_neg hne]

theorem Ordinary.cut {st : Store} (h : st.disk.Ordinary) (i : Inode) (size : Nat) :
    (st.cut i size).disk.Ordinary := by
  refine ⟨h.nodup, h.unique, h.linked, fun j => ?_⟩
  rw [files_cut]
  split
  · exact (List.length_take_le' _ _).trans (h.small i)
  · exact h.small j

/-! ## Directories with given contents -/

/-- A directory that holds these files, each in an inode of its own. -/
def ofFiles (fs : List (FileName × Bytes)) : Store where
  disk := {
    dir := .stable (fs.zipIdx.map (fun e => (e.1.1, e.2)))
    files := fun i => .stable ((fs[i]?.map Prod.snd).getD [])
    fresh := fs.length }
  trace := []
  history := []

theorem lookup_ofFiles {fs : List (FileName × Bytes)} {f : FileName} {i : Inode}
    (h : (ofFiles fs).disk.lookup f = some i) : ∃ b, fs[i]? = some (f, b) := by
  obtain ⟨e, he, rfl⟩ := Option.map_eq_some_iff.mp h
  have hname : e.1 = f := by simpa using List.find?_some he
  obtain ⟨⟨⟨g, b⟩, n⟩, hm, rfl⟩ := List.mem_map.mp (List.mem_of_find?_eq_some he)
  obtain rfl : g = f := hname
  exact ⟨b, List.mk_mem_zipIdx_iff_getElem?.mp hm⟩

theorem ordinary_ofFiles {fs : List (FileName × Bytes)} (hnodup : (fs.map Prod.fst).Nodup)
    (hsmall : ∀ e ∈ fs, e.2.length ≤ maximumFileSize) : (ofFiles fs).disk.Ordinary := by
  refine ⟨?_, fun f g i hf hg => ?_, fun f i hf => ?_, fun i => ?_⟩
  · show ((fs.zipIdx.map (fun e => (e.1.1, e.2))).map Prod.fst).Nodup
    have hnames : (fs.zipIdx.map (fun e => (e.1.1, e.2))).map Prod.fst = fs.map Prod.fst := by
      nth_rewrite 2 [← List.zipIdx_map_fst 0 fs]
      rw [List.map_map, List.map_map]
      rfl
    rw [hnames]
    exact hnodup
  · obtain ⟨b, hb⟩ := lookup_ofFiles hf
    obtain ⟨b', hb'⟩ := lookup_ofFiles hg
    rw [hb] at hb'
    exact (Prod.mk.inj (Option.some.inj hb')).1
  · obtain ⟨b, hb⟩ := lookup_ofFiles hf
    exact (List.getElem?_eq_some_iff.mp hb).1
  · show ((fs[i]?.map Prod.snd).getD []).length ≤ _
    cases hi : fs[i]? with
    | none => exact Nat.zero_le _
    | some e => exact hsmall e (List.mem_of_getElem? hi)

end Store

/-! ## Programs that may not reject anything -/

/-- Without faults the program ends, and not with an error that rejects a directory. -/
def Benign {α : Type} (m : Io α) : Prop :=
  ∀ st : Store, ∃ r st', m st.calm = (r, Store.calm st') ∧ match r with
    | .ok _ => True
    | .error e => e.code ≠ .corruption ∧ e.code ≠ .versionMismatch
    | .killed => False

section

variable {α β : Type}

theorem Benign.pure (a : α) : Benign (Pure.pure a : Io α) := fun st => ⟨.ok a, st, rfl, trivial⟩

theorem Benign.bind {m : Io α} {f : α → Io β} (hm : Benign m) (hf : ∀ a, Benign (f a)) :
    Benign (m >>= f) := by
  intro st
  obtain ⟨r, st', hr, hok⟩ := hm st
  cases r with
  | ok a =>
    rw [Prog.bind_of_ok hr]
    exact hf a st'
  | error e => exact ⟨.error e, st', by rw [Prog.bind_apply, hr], hok⟩
  | killed => exact hok.elim

theorem Benign.attempt {m : Io α} (hm : Benign m) : Benign (Prog.attempt m) := by
  intro st
  obtain ⟨r, st', hr, hok⟩ := hm st
  cases r with
  | ok a => exact ⟨.ok (.ok a), st', by rw [Prog.attempt, hr], trivial⟩
  | error e => exact ⟨.ok (.error e), st', by rw [Prog.attempt, hr], trivial⟩
  | killed => exact hok.elim

theorem Benign.removeFile (f : FileName) : Benign (MiniKV.removeFile f) :=
  fun st => ⟨_, _, st.removeFile_calm f, trivial⟩

theorem Benign.removeFiles (fs : List FileName) : Benign (MiniKV.removeFiles fs) :=
  fun st => ⟨_, _, Store.removeFiles_calm fs st, trivial⟩

theorem Benign.fail {e : Status} (he : e.code ≠ .corruption ∧ e.code ≠ .versionMismatch) :
    Benign (Prog.fail e : Io α) := fun st => ⟨.error e, st, rfl, he⟩

theorem Benign.syncDirectory : Benign MiniKV.syncDirectory :=
  fun st => ⟨_, _, st.syncDirectory_calm, trivial⟩

theorem Benign.fallible (e : Status) : Benign (MiniKV.fallible e) :=
  fun st => ⟨_, _, Store.fallible_calm e st, trivial⟩

theorem Benign.syncFile (i : Inode) : Benign (MiniKV.syncFile i) :=
  fun st => ⟨.ok (), st.onDisk (·.sync i), rfl, trivial⟩

theorem Benign.createTruncated (f : FileName) : Benign (MiniKV.createTruncated f) :=
  fun st => ⟨.ok st.disk.fresh, st.onDisk (·.create f), rfl, trivial⟩

theorem Benign.openAppend (f : FileName) : Benign (MiniKV.openAppend f) := by
  intro st
  unfold MiniKV.openAppend
  show ∃ r st', (Prog.bind Prog.get _) st.calm = (r, Store.calm st') ∧ _
  cases hl : st.disk.lookup f with
  | some i =>
    simp only [Prog.bind, Prog.get, Store.calm, hl]
    exact ⟨.ok i, st, rfl, trivial⟩
  | none =>
    simp only [Prog.bind, Prog.get, Store.calm, hl]
    exact Benign.createTruncated f st

theorem Benign.writeAll (i : Inode) (data : Bytes) : Benign (MiniKV.writeAll i data) := by
  intro st
  have hrun : MiniKV.writeAll i data st.calm =
      (if (fitting st.disk i data).length = data.length then .ok () else .error (.ioError "write"),
        (st.onDisk (·.append i (fitting st.disk i data))).calm) := rfl
  by_cases hfit : (fitting st.disk i data).length = data.length
  · exact ⟨.ok (), _, by rw [hrun, if_pos hfit], trivial⟩
  · exact ⟨.error (.ioError "write"), _, by rw [hrun, if_neg hfit], by decide, by decide⟩

theorem Benign.renameFile (src dst : FileName) : Benign (MiniKV.renameFile src dst) := by
  intro st
  unfold MiniKV.renameFile
  show ∃ r st', (Prog.bind Prog.get _) st.calm = (r, Store.calm st') ∧ _
  cases hl : st.disk.lookup src with
  | none =>
    simp only [Prog.bind, Prog.get, Store.calm, hl]
    exact ⟨.error (.ioError "rename"), st, rfl, by decide, by decide⟩
  | some i =>
    simp only [Prog.bind, Prog.get, Store.calm, hl]
    exact ⟨.ok (), _, rfl, trivial⟩

theorem Benign.bestEffortRemove (fs : List FileName) : Benign (MiniKV.bestEffortRemove fs) := by
  induction fs with
  | nil => exact Benign.pure ()
  | cons f fs ih => exact Benign.bind (Benign.attempt (Benign.removeFile f)) (fun _ => ih)

theorem Benign.orAbandon (fs : List FileName) {call : Io Unit} (h : Benign call) :
    Benign (MiniKV.orAbandon fs call) := by
  intro st
  obtain ⟨r, st', hr, hok⟩ := h st
  cases r with
  | ok a =>
    have hattempt : Prog.attempt call st.calm = (.ok (.ok a), st'.calm) := by
      rw [Prog.attempt, hr]
    refine ⟨.ok (), st', ?_, trivial⟩
    rw [MiniKV.orAbandon, Prog.bind_of_ok hattempt]
    rfl
  | error e =>
    have hattempt : Prog.attempt call st.calm = (.ok (.error e), st'.calm) := by
      rw [Prog.attempt, hr]
    rw [MiniKV.orAbandon, Prog.bind_of_ok hattempt]
    exact Benign.bind (Benign.bestEffortRemove fs) (fun _ => Benign.fail hok) st'
  | killed => exact hok.elim

theorem Benign.publishManifest {F : StorageFormat} {o : FormatOptions} {v : Version} {b : Bytes}
    (h : F.encodeManifest o v = .ok b) : Benign (MiniKV.publishManifest F o v) := by
  unfold MiniKV.publishManifest
  rw [h]
  refine Benign.bind (Benign.pure b) (fun _ => ?_)
  refine Benign.bind (Benign.createTruncated _) (fun i => ?_)
  refine Benign.bind (Benign.orAbandon _ (Benign.writeAll i _)) (fun _ => ?_)
  refine Benign.bind (Benign.orAbandon _ (Benign.syncFile i)) (fun _ => ?_)
  exact Benign.bind (Benign.orAbandon _ (Benign.renameFile _ _)) (fun _ => Benign.syncDirectory)

end

end MiniKV
