import MiniKV.Storage.Image

/-!
# What a directory image stands for

`Admits` says which sequences of writes a history of appends, doubtful appends
and crashes may have left behind. `Recoverable` says which sequence an image
holds: the writes in the tables of its MANIFEST, then those in its logs. A crash
takes a recoverable image to a recoverable one that the longer history admits.
-/

namespace MiniKV

open Lib

/-! ## How a directory is used -/

structure Usage where
  /-- The machine may crash. -/
  crashes : Prop
  /-- A log is opened only when all that the previous one holds is in tables. -/
  single : Prop
  /-- The format options that the directory is opened with. -/
  formats : FormatOptions → Prop
  /-- What is left of the writes after the history from which the account is kept. -/
  origin : List Label → List Entry → Prop
  /-- The writes that may be made from there on, each after the history before it. -/
  writes : List Label → Record → SyncMode → Prop

/-! ## Histories -/

/-- The writes that may be left after a history, oldest first. A write in doubt may be left
or not. A crash leaves a prefix with every synced write, and what is left then is on stable
storage. -/
inductive Admits (κ : Usage) : List Label → List Entry → Prop
  | origin {H : List Label} {A : List Entry} (h : κ.origin H A) : Admits κ H A
  | appended {H : List Label} {A : List Entry} {r : Record} {mode : SyncMode} (h : Admits κ H A)
      (hr : κ.writes H r mode) : Admits κ (.appended r mode :: H) (A ++ [⟨r, mode = .sync⟩])
  | doubted {H : List Label} {A : List Entry} {r : Record} {mode : SyncMode} (h : Admits κ H A)
      (hr : κ.writes H r mode) : Admits κ (.inDoubt r :: H) A
  | kept {H : List Label} {A : List Entry} {r : Record} {mode : SyncMode} (h : Admits κ H A)
      (hr : κ.writes H r mode) : Admits κ (.inDoubt r :: H) (A ++ [⟨r, false⟩])
  | crashed {H : List Label} {L S : List Entry} (h : Admits κ H (L ++ S))
      (hS : ∀ e ∈ S, e.durable = false) : Admits κ (.crashed :: H) (settled L)

/-! ## Logs in use -/

/-- The writes of a log that another log may follow. -/
def Usage.Seals (κ : Usage) (I : List Entry) : Prop := (κ.crashes → Sealed I) ∧ (κ.single → I = [])

theorem Usage.seals_nil (κ : Usage) : κ.Seals [] := ⟨fun _ => sealed_nil, fun _ => rfl⟩

theorem Usage.Seals.settled {κ : Usage} {I : List Entry} (h : κ.Seals I) :
    κ.Seals (MiniKV.settled I) := by
  refine ⟨fun _ => sealed_settled I, fun hs => ?_⟩
  rw [h.2 hs]
  rfl

/-- No key has a value. -/
def noValues : Bytes → Option Bytes := fun _ => none

/-- The tables of a Version hold a sequence of writes. -/
structure Flushed (w : Version) (ts : List SSTableReader) (T : List Entry) : Prop where
  shown_eq : shown (tableRecords ts) = applyLog noValues (recordsOf T)
  le : ∀ r ∈ recordsOf T, r.sequence ≤ w.lastSequence

section

variable (F : StorageFormat) (o : FormatOptions) (m : Image)

/-- The image has the files of the readers. -/
def Files (ts : List SSTableReader) : Prop :=
  ∀ t ∈ ts, ∃ b, m (.sst t.generation) = some (.stable b) ∧
    F.openTable o b = .ok (t.metadata, t.records)

/-- The MANIFEST of the image is that of a Version. -/
def ManifestIs (w : Version) : Prop :=
  ∃ b, F.encodeManifest o w = .ok b ∧ m .manifest = some (.stable b)

/-- The logs that recovery replays. With two of them the first is not empty, and closed in
the way the directory is used. -/
inductive Logs (κ : Usage) (next : Nat) : List Entry → List Entry → Prop
  | none (rest : ∀ n, next ≤ n → m (.wal n) = none) : Logs κ next [] []
  | one {v : Volatile Bytes} {M : List Entry} (active : m (.wal next) = some v)
      (log : LogFile F κ.formats o M v) (rest : ∀ n, next < n → m (.wal n) = none) :
      Logs κ next [] M
  | two {u v : Volatile Bytes} {I M : List Entry} (frozen : m (.wal next) = some u)
      (frozenLog : LogFile F κ.formats o I u) (active : m (.wal (next + 1)) = some v)
      (log : LogFile F κ.formats o M v) (rest : ∀ n, next + 1 < n → m (.wal n) = none)
      (room : next ≠ maxUInt64) (ne : I ≠ []) (sealed : κ.Seals I) :
      Logs κ next I M

/-- A directory with a database in it. -/
structure Holds (κ : Usage) (w : Version) (ts : List SSTableReader) (T I M : List Entry) :
    Prop where
  manifest : ManifestIs F o m w
  files : Files F o m ts
  inv : TablesInv o w ts
  flushed : Flushed w ts T
  logs : Logs F o m κ w.nextFileNumber I M
  follows : Follows F o w.lastSequence (recordsOf (I ++ M))

/-- The sequence of writes that an image holds. -/
inductive Recoverable (κ : Usage) : List Entry → Prop
  | fresh (empty : ∀ f, m f = none) : Recoverable κ []
  | holds {w : Version} {ts : List SSTableReader} {T I M : List Entry}
      (h : Holds F o m κ w ts T I M) : Recoverable κ (T ++ I ++ M)

end

section

variable {F : StorageFormat} {o : FormatOptions} {m m' : Image}

theorem Image.Survivor.none {f : FileName} (h : m.Survivor m') (hf : m f = none) :
    m' f = none := by
  rcases h f with h | ⟨v, c, hv, -, -⟩
  · exact h.2
  · rw [hf] at hv
    cases hv

theorem Image.Survivor.stable {f : FileName} {b : Bytes} (h : m.Survivor m')
    (hf : m f = some (.stable b)) : m' f = some (.stable b) := by
  rcases h f with ⟨hn, -⟩ | ⟨v, c, hv, hc, hm⟩
  · rw [hf] at hn
    cases hn
  · rw [hf] at hv
    obtain rfl := Option.some.inj hv
    have he : c = b := List.mem_singleton.mp hc
    rw [hm, he]

/-- A crash takes the end of a log, and none of it where all entries are synced. -/
theorem Image.Survivor.log {f : FileName} {L : List Entry} {v : Volatile Bytes}
    {O : FormatOptions → Prop} (h : m.Survivor m') (hf : m f = some v) (hv : LogFile F O o L v) :
    ∃ L' S u, L = L' ++ S ∧ (∀ e ∈ S, e.durable = false) ∧ m' f = some u ∧
      LogFile F O o (settled L') u := by
  rcases h f with ⟨hn, -⟩ | ⟨v', c, hv', hc, hm⟩
  · rw [hf] at hn
    cases hn
  · rw [hf] at hv'
    obtain rfl := Option.some.inj hv'
    obtain ⟨L', S, hL, hS, hlog⟩ := hv.crash hc
    exact ⟨L', S, _, hL, hS, hm, hlog⟩

theorem Logs.crash {κ : Usage} {next : Nat} {I M : List Entry}
    (h : Logs F o m κ next I M) (hc : κ.crashes) (hs : m.Survivor m') :
    ∃ M' S, M = M' ++ S ∧ (∀ e ∈ S, e.durable = false) ∧
      Logs F o m' κ next (settled I) (settled M') := by
  cases h with
  | none rest => exact ⟨[], [], rfl, by simp, .none (fun n hn => hs.none (rest n hn))⟩
  | one active log rest =>
    obtain ⟨M', S, u, hM, hS, hu, hlog⟩ := hs.log active log
    exact ⟨M', S, hM, hS, .one hu hlog (fun n hn => hs.none (rest n hn))⟩
  | two frozen frozenLog active log rest room ne sealed =>
    obtain ⟨M', S, u, hM, hS, hu, hlog⟩ := hs.log active log
    obtain ⟨I', R, u', hI, hR, hu', hlog'⟩ := hs.log frozen frozenLog
    -- the first log is sealed, so none of it is lost
    have hnil : R = [] := Sealed.eq_nil (hI ▸ sealed.1 hc) hR
    rw [hnil, List.append_nil] at hI
    subst hI
    refine ⟨M', S, hM, hS, .two hu' hlog' hu hlog (fun n hn => hs.none (rest n hn)) room ?_
      sealed.settled⟩
    intro h
    exact ne (List.map_eq_nil_iff.mp h)

theorem Holds.crash {κ : Usage} {w : Version} {ts : List SSTableReader}
    {T I M : List Entry} (h : Holds F o m κ w ts T I M) (hc : κ.crashes)
    (hs : m.Survivor m') :
    ∃ M' S, M = M' ++ S ∧ (∀ e ∈ S, e.durable = false) ∧
      Holds F o m' κ w ts (settled T) (settled I) (settled M') := by
  obtain ⟨M', S, hM, hS, hlogs⟩ := h.logs.crash hc hs
  refine ⟨M', S, hM, hS, ?_, ?_, h.inv, ?_, hlogs, ?_⟩
  · obtain ⟨b, hb, hm⟩ := h.manifest
    exact ⟨b, hb, hs.stable hm⟩
  · intro t ht
    obtain ⟨b, hb, ho⟩ := h.files t ht
    exact ⟨b, hs.stable hb, ho⟩
  · exact ⟨by rw [recordsOf_settled]; exact h.flushed.shown_eq,
      by rw [recordsOf_settled]; exact h.flushed.le⟩
  · have hf := h.follows
    rw [hM, ← List.append_assoc, recordsOf_append] at hf
    have hpre := (Follows.append.mp hf).1
    rwa [← settled_append, recordsOf_settled]

/-- A crash leaves a recoverable image, which holds a prefix with every synced write. -/
theorem Recoverable.crash {κ : Usage} {A : List Entry} (h : Recoverable F o m κ A)
    (hc : κ.crashes) (hs : m.Survivor m') :
    ∃ L S, A = L ++ S ∧ (∀ e ∈ S, e.durable = false) ∧
      Recoverable F o m' κ (settled L) := by
  cases h with
  | fresh empty => exact ⟨[], [], rfl, by simp, .fresh (fun f => hs.none (empty f))⟩
  | @holds w ts T I M h =>
    obtain ⟨M', S, hM, hS, h'⟩ := h.crash hc hs
    refine ⟨T ++ I ++ M', S, by rw [hM, List.append_assoc (T ++ I)], hS, ?_⟩
    rw [settled_append, settled_append]
    exact .holds h'

end

/-! ## Stores -/

/-- Every image that a crash may leave holds a sequence that the history admits. -/
structure Durable (F : StorageFormat) (o : FormatOptions) (κ : Usage) (st : Store) : Prop where
  wf : st.disk.Wf
  images : Everywhere (fun m => ∃ A, Admits κ st.history A ∧ Recoverable F o m κ A) st

theorem Durable.crash {F : StorageFormat} {o : FormatOptions} {κ : Usage} {st : Store}
    (h : Durable F o κ st) (hc : κ.crashes) (k : Nat) (cut : Inode → Nat) :
    Durable F o κ (({ st with disk := st.disk.crash k cut }).label .crashed) := by
  refine ⟨h.wf.crash k cut, ?_⟩
  have hall := Everywhere.crash (Ψ := fun m => ∃ A, Admits κ (.crashed :: st.history) A ∧
    Recoverable F o m κ A) h.images (fun m m' hm hs => ?_) k cut
  · exact fun δ hδ => hall δ hδ
  · obtain ⟨A, hA, hr⟩ := hm
    obtain ⟨L, S, rfl, hS, hr'⟩ := hr.crash hc hs
    exact ⟨settled L, hA.crashed hS, hr'⟩

theorem durable_empty (F : StorageFormat) (o : FormatOptions) {κ : Usage} (hκ : κ.origin [] []) :
    Durable F o κ Store.empty := by
  refine ⟨Disk.wf_empty, fun δ hδ => ⟨[], .origin hκ, .fresh (fun f => ?_)⟩⟩
  rw [List.mem_singleton.mp hδ]
  by_cases hf : f.Core
  · rw [image_of_core hf]
    rfl
  · exact image_of_temporary hf

end MiniKV
