import MiniKV.State.Compact

/-!
# What the disk holds for a running database

`Stored` relates the contents of a database to one image of its directory. The
MANIFEST of the image is the Version in memory or the candidate that is being
published; the tables are there; the logs hold what is in the MemTables, and
perhaps one more record whose append failed. From such an image the database
can be recovered.

The writes are told apart by where they are: `T` in tables, `I` in the log of an
Immutable that is not yet published, `M` in the active log. `D` and `X` are the
records in doubt at the end of these two logs.
-/

namespace MiniKV

open Lib

/-- A Version that may be on its way to become the MANIFEST, with its readers. -/
inductive Candidate (x : Contents) : Version → List SSTableReader → Prop
  | flush {imm : ImmutableGeneration} {t : SSTableReader} {v : Version}
      (immutable : x.immutable = some imm) (unpublished : imm.versionPublished = false)
      (pending : imm.pendingTable = some t)
      (apply : x.version.apply x.format (flushEditOf x.mutableGeneration imm t) = .ok v) :
      Candidate x v (x.tables ++ [t])
  | compaction {c : CompactionState} (compaction : x.compaction = some c)
      (unpublished : c.versionPublished = false) (ready : c.candidateReady = true) :
      Candidate x c.candidate (liveTables c x.tables)

/-- An Immutable whose table is not yet part of the Version. -/
structure Frozen (F : StorageFormat) (O : FormatOptions → Prop) (x : Contents)
    (imm : ImmutableGeneration) (m : Image) (I D : List Entry) : Prop where
  memtable : imm.memtable = replayInto .empty (recordsOf I)
  ne_nil : I ≠ []
  generation : imm.generation = x.version.nextFileNumber
  active : x.mutableGeneration = imm.generation + 1
  room : imm.generation ≠ maxUInt64
  log : ∃ v, m (.wal imm.generation) = some v ∧ LogFile F O x.format (I ++ D) v

structure Stored (F : StorageFormat) (ρ : Regime) (x : Contents) (w : Option WalWriter)
    (H : List Label) (m : Image) (T I D M X : List Entry) : Prop where
  known : ρ.formats x.format
  manifest : ManifestIs F x.format m x.version ∨
    ∃ v ts, Candidate x v ts ∧ ManifestIs F x.format m v
  files : Files F x.format m x.tables
  pendingFile : ∀ imm t, x.immutable = some imm → imm.pendingTable = some t →
    Files F x.format m [t]
  outputFiles : ∀ c, x.compaction = some c → c.versionPublished = false →
    Files F x.format m c.publishedOutputs
  aligned : Aligned x.version x.tables
  flushed : Flushed x.version x.tables T
  mutable : x.mutableTable = replayInto .empty (recordsOf M)
  frozen : ∀ imm, x.immutable = some imm → imm.versionPublished = false →
    Frozen F ρ.formats x imm m I D
  thawed : (∀ imm, x.immutable = some imm → imm.versionPublished = true) →
    I = [] ∧ D = [] ∧ x.version.nextFileNumber = x.mutableGeneration
  sealed : m (.wal x.mutableGeneration) ≠ none → D = [] ∧ ρ.Seals I
  log : ∀ v, m (.wal x.mutableGeneration) = some v → LogFile F ρ.formats x.format (M ++ X) v
  numbers : ∀ n, x.mutableGeneration < n → m (.wal n) = none
  detached : w = none → M = [] ∧ X = [] ∧
    ∀ v, m (.wal x.mutableGeneration) = some v → v = .stable []
  attached : w ≠ none → m (.wal x.mutableGeneration) ≠ none
  clean : ∀ w', w = some w' → w'.status.isOk = true → X = [] ∧
    ∀ v, m (.wal x.mutableGeneration) = some v → v.current = logBytes F x.format (recordsOf M)
  follows : Follows F x.format x.version.lastSequence (recordsOf (I ++ D ++ M ++ X))
  last : ∀ r ∈ recordsOf (I ++ D ++ M ++ X), r.sequence ≤ x.lastSequence
  admits : Admits ρ.toUsage H (T ++ I ++ M)
  admitsAll : Admits ρ.toUsage H (T ++ I ++ D ++ M ++ X)

/-- The image of a database, for some distribution of its writes. -/
def StoredIn (F : StorageFormat) (ρ : Regime) (x : Contents) (w : Option WalWriter)
    (H : List Label) (m : Image) : Prop := ∃ T I D M X, Stored F ρ x w H m T I D M X

section

variable {F : StorageFormat} {ρ : Regime} {x : Contents} {w : Option WalWriter} {H : List Label}
  {m : Image} {T I D M X : List Entry}

/-! ## Facts about the logs -/

theorem Stored.doubt_cases (h : Stored F ρ x w H m T I D M X) : D = [] ∨ (M = [] ∧ X = []) := by
  by_cases hm : m (.wal x.mutableGeneration) = none
  · have hw : w = none := by
      by_contra hne
      exact h.attached hne hm
    exact Or.inr ⟨(h.detached hw).1, (h.detached hw).2.1⟩
  · exact Or.inl (h.sealed hm).1

/-- The doubtful end of the frozen log may be dropped. -/
theorem Stored.admits_dropped (h : Stored F ρ x w H m T I D M X) :
    Admits ρ.toUsage H (T ++ I ++ M ++ X) := by
  rcases h.doubt_cases with rfl | ⟨rfl, rfl⟩
  · have := h.admitsAll
    rwa [List.append_nil] at this
  · have := h.admits
    rwa [List.append_nil]

theorem Stored.mutable_nil (h : Stored F ρ x w H m T I D M X)
    (hm : x.mutableTable.entries = []) : M = [] := by
  by_contra hne
  have hrec : recordsOf M ≠ [] := by
    intro he
    exact hne (List.map_eq_nil_iff.mp he)
  have := replayInto_ne_nil (m := .empty) hrec
  rw [← h.mutable] at this
  exact this hm

/-- The newest record of a log is in the table that was replayed from it. -/
theorem lastOf_le_maximumSequence {o : FormatOptions} {n : Nat} {rs : List Record} (hne : rs ≠ [])
    (hf : Follows F o n rs) : lastOf n rs ≤ maximumSequence (replayInto .empty rs).entries := by
  obtain ⟨ss, r, rfl⟩ := List.eq_nil_or_concat rs |>.resolve_left hne
  rw [List.concat_eq_append] at hf ⊢
  have hmem : r ∈ (replayInto .empty (ss ++ [r])).entries := by
    rw [replayInto_append]
    have hfind := MemTable.findKey_insert (replayInto .empty ss) r r.key
    rw [if_pos rfl] at hfind
    exact findKey_mem hfind
  have hlast : lastOf n (ss ++ [r]) = r.sequence := by
    clear hf hmem hne
    induction ss generalizing n with
    | nil => rfl
    | cons s ss ih => exact ih
  rw [hlast]
  exact le_maximumSequence hmem

theorem maximumSequence_le_lastOf {o : FormatOptions} {n : Nat} {rs : List Record}
    (hf : Follows F o n rs) : maximumSequence (replayInto .empty rs).entries ≤ lastOf n rs := by
  refine maximumSequence_le (fun r hr => ?_)
  rcases mem_replayInto hr with hr | hr
  · exact hf.le_lastOf.2 r hr
  · cases hr

/-- A newer table on top of older records. -/
theorem shown_append_newer {rs : List Record} {t : SSTableReader} {o : FormatOptions}
    (ht : t.Coherent o) (hnew : ∀ s ∈ t.records, ∀ r ∈ rs, r.sequence < s.sequence) :
    shown (rs ++ t.records) = overlay t.records (shown rs) := by
  funext k
  unfold overlay shown newestRecord
  rw [newest_append, show newest Record.key Record.sequence k t.records = findKey t.records k from
    ht.newestRecord_eq k]
  cases hf : findKey t.records k with
  | none => rw [newer_none]
  | some s =>
    cases hr : newest Record.key Record.sequence k rs with
    | none => rfl
    | some r =>
      rw [newer, if_pos (hnew s (findKey_mem hf) r (newest_isNewest hr).mem)]
      rfl

/-! ## Recovery from the image -/

theorem Stored.logs_active {v : Nat} (h : Stored F ρ x w H m T I D M X)
    (hv : v = x.mutableGeneration) : Logs F x.format m ρ.toUsage v [] (M ++ X) := by
  subst hv
  cases hm : m (.wal x.mutableGeneration) with
  | none =>
    have hw : w = none := by
      by_contra hne
      exact h.attached hne hm
    obtain ⟨rfl, rfl, -⟩ := h.detached hw
    refine .none (fun n hn => ?_)
    rcases Nat.lt_or_eq_of_le hn with hlt | rfl
    · exact h.numbers n hlt
    · exact hm
  | some v => exact .one hm (h.log v hm) h.numbers

/-- Recovery from the Version that is in memory. -/
theorem Stored.recoverable_version (hinv : ContentsInv ρ x) (h : Stored F ρ x w H m T I D M X)
    (hman : ManifestIs F x.format m x.version) :
    ∃ A, Admits ρ.toUsage H A ∧ Recoverable F x.format m ρ.toUsage A := by
  have hinv' := hinv.tablesInv h.aligned
  by_cases hth : ∀ imm, x.immutable = some imm → imm.versionPublished = true
  · obtain ⟨rfl, rfl, hnext⟩ := h.thawed hth
    refine ⟨T ++ [] ++ (M ++ X), ?_, .holds ⟨hman, h.files, hinv', h.flushed,
      h.logs_active hnext, ?_⟩⟩
    · have := h.admitsAll
      simpa using this
    · have := h.follows
      simpa using this
  · obtain ⟨imm, himm, hun⟩ : ∃ imm, x.immutable = some imm ∧ imm.versionPublished = false := by
      by_contra hno
      refine hth (fun imm himm => ?_)
      by_contra hne
      exact hno ⟨imm, himm, by simpa using hne⟩
    have hfr := h.frozen imm himm hun
    obtain ⟨u, hu, hlog⟩ := hfr.log
    rw [hfr.generation] at hu
    cases hm : m (.wal x.mutableGeneration) with
    | none =>
      -- only the log of the Immutable is there, so it becomes the active one
      have hw : w = none := by
        by_contra hne
        exact h.attached hne hm
      obtain ⟨rfl, rfl, -⟩ := h.detached hw
      refine ⟨T ++ [] ++ (I ++ D), ?_, .holds ⟨hman, h.files, hinv', h.flushed,
        .one hu hlog (fun n hn => ?_), ?_⟩⟩
      · have := h.admitsAll
        simpa using this
      · rcases Nat.lt_or_eq_of_le (Nat.succ_le_of_lt hn) with hlt | he
        · exact h.numbers n (by rw [hfr.active, hfr.generation]; exact hlt)
        · rw [hfr.active, hfr.generation] at hm
          exact he ▸ hm
      · have := h.follows
        simpa using this
    | some v =>
      obtain ⟨rfl, hsealed⟩ := h.sealed (by rw [hm]; simp)
      rw [List.append_nil] at hlog
      have hv : m (.wal (x.version.nextFileNumber + 1)) = some v := by
        rw [← hfr.generation, ← hfr.active]
        exact hm
      refine ⟨T ++ I ++ (M ++ X), ?_, .holds ⟨hman, h.files, hinv', h.flushed,
        .two hu hlog hv (h.log v hm) (fun n hn => ?_) (hfr.generation ▸ hfr.room) hfr.ne_nil
          hsealed, ?_⟩⟩
      · have := h.admitsAll
        simpa using this
      · exact h.numbers n (by rw [hfr.active, hfr.generation]; exact hn)
      · have := h.follows
        simpa using this

theorem Files.append {o : FormatOptions} {ts us : List SSTableReader} (h : Files F o m ts)
    (h' : Files F o m us) : Files F o m (ts ++ us) := by
  intro t ht
  rcases List.mem_append.mp ht with ht | ht
  · exact h t ht
  · exact h' t ht

section

variable {imm : ImmutableGeneration} {t : SSTableReader} {v : Version}

/-- With the table of the Immutable the tables hold its writes as well. -/
theorem Stored.flushed_next (hinv : ContentsInv ρ x) (hord : ρ.ordered)
    (h : Stored F ρ x w H m T I D M X) (himm : x.immutable = some imm)
    (hun : imm.versionPublished = false) (hp : imm.pendingTable = some t)
    (happly : x.version.apply x.format (flushEditOf x.mutableGeneration imm t) = .ok v) :
    Flushed v (x.tables ++ [t]) (T ++ I) := by
  have hi := (hinv.order hord).immutable imm himm
  have hfr := h.frozen imm himm hun
  obtain ⟨hcoh, -, hrec⟩ := hi.pending t hp
  have hv := flushedVersion_of_apply hinv.sorted happly
  have hfI : Follows F x.format x.version.lastSequence (recordsOf I) := by
    have := h.follows
    rw [List.append_assoc, List.append_assoc, recordsOf_append] at this
    exact (Follows.append.mp this).1
  have hrecne : recordsOf I ≠ [] := by
    intro he
    exact hfr.ne_nil (List.map_eq_nil_iff.mp he)
  have hmax : lastOf x.version.lastSequence (recordsOf I) ≤ v.lastSequence := by
    rw [hv.last, hi.maximum, hfr.memtable]
    exact lastOf_le_maximumSequence hrecne hfI
  refine ⟨?_, ?_⟩
  · have hoverlay := overlay_replayInto .empty (recordsOf I) (shown (tableRecords x.tables))
    rw [tableRecords_snoc, shown_append_newer hcoh
      (fun s hs r hr => hi.newer_table hun hp hs hr), hrec, hfr.memtable, hoverlay,
      recordsOf_append, applyLog_append, ← h.flushed.shown_eq]
    rfl
  · intro r hr
    rw [recordsOf_append] at hr
    rcases List.mem_append.mp hr with hr | hr
    · have h1 := h.flushed.le r hr
      have h2 := hfI.le_lastOf.1
      omega
    · exact (hfI.le_lastOf.2 r hr).trans hmax

/-- The active log goes on after the writes of the Immutable. -/
theorem Stored.follows_next (hinv : ContentsInv ρ x) (hord : ρ.ordered)
    (h : Stored F ρ x w H m T I D M X) (himm : x.immutable = some imm)
    (hun : imm.versionPublished = false)
    (happly : x.version.apply x.format (flushEditOf x.mutableGeneration imm t) = .ok v) :
    Follows F x.format v.lastSequence (recordsOf (M ++ X)) := by
  rcases h.doubt_cases with rfl | ⟨rfl, rfl⟩
  · have hi := (hinv.order hord).immutable imm himm
    have hfr := h.frozen imm himm hun
    have hv := flushedVersion_of_apply hinv.sorted happly
    have hfollows := h.follows
    rw [List.append_nil, List.append_assoc, recordsOf_append] at hfollows
    obtain ⟨hI, hM⟩ := Follows.append.mp hfollows
    refine hM.mono ?_
    rw [hv.last, hi.maximum, hfr.memtable]
    exact maximumSequence_le_lastOf hI
  · trivial

theorem Stored.recoverable_flush (hinv : ContentsInv ρ x) (hord : ρ.ordered)
    (h : Stored F ρ x w H m T I D M X) (himm : x.immutable = some imm)
    (hun : imm.versionPublished = false) (hp : imm.pendingTable = some t)
    (happly : x.version.apply x.format (flushEditOf x.mutableGeneration imm t) = .ok v)
    (hman : ManifestIs F x.format m v) :
    ∃ A, Admits ρ.toUsage H A ∧ Recoverable F x.format m ρ.toUsage A := by
  have hv := flushedVersion_of_apply hinv.sorted happly
  have hnew := hinv.flushed hord himm hun hp happly
  refine ⟨T ++ I ++ [] ++ (M ++ X), ?_, .holds ⟨hman, h.files.append (h.pendingFile imm t himm hp),
    hnew.tablesInv (h.aligned.snoc hv.tables), h.flushed_next hinv hord himm hun hp happly,
    h.logs_active hv.next, ?_⟩⟩
  · have := h.admits_dropped
    simpa using this
  · have := h.follows_next hinv hord himm hun happly
    simpa using this

end

section

variable {c : CompactionState}

/-- The Version after a compaction that was left alone since it was planned. -/
theorem ContentsInv.written_candidate (hinv : ContentsInv ρ x) (hpl : ρ.planned)
    (hc : x.compaction = some c) (hun : c.versionPublished = false)
    (hready : c.candidateReady = true) :
    Written x.format x.version x.tables c ∧
      c.candidate = x.version.candidate (compactionEdit c) (compactedTables x.version c) := by
  have hcand := (hinv.pending c hc hun).ready hready
  have hw := hinv.written hpl hc hun hcand.outputs
  exact ⟨hw, (Version.apply_eq_ok.mp (hcand.planned hpl)).2⟩

theorem ContentsInv.candidate_fields (hinv : ContentsInv ρ x) (hpl : ρ.planned)
    (hc : x.compaction = some c) (hun : c.versionPublished = false)
    (hready : c.candidateReady = true) :
    c.candidate.nextFileNumber = x.version.nextFileNumber + c.outputMemtables.length ∧
      c.candidate.lastSequence = x.version.lastSequence := by
  obtain ⟨hw, he⟩ := hinv.written_candidate hpl hc hun hready
  have ha := (hinv.pending c hc hun).aligned
  rw [he, hw.candidate_eq (hinv.tablesInv ha)]
  exact ⟨rfl, rfl⟩

/-- A compaction is planned only where all logs are empty. -/
theorem Stored.planned_empty (hinv : ContentsInv ρ x) (hpl : ρ.planned)
    (h : Stored F ρ x w H m T I D M X) (hc : x.compaction = some c)
    (hun : c.versionPublished = false) :
    I = [] ∧ D = [] ∧ M = [] ∧ x.version.nextFileNumber = x.mutableGeneration := by
  obtain ⟨-, himm, hmut⟩ := (hinv.pending c hc hun).planned hpl
  obtain ⟨hI, hD, hnext⟩ := h.thawed (fun imm hi => by rw [himm] at hi; cases hi)
  exact ⟨hI, hD, h.mutable_nil hmut, hnext⟩

theorem Stored.flushed_compacted (hinv : ContentsInv ρ x) (hpl : ρ.planned)
    (h : Stored F ρ x w H m T I D M X) (hc : x.compaction = some c)
    (hun : c.versionPublished = false) (hready : c.candidateReady = true) :
    Flushed c.candidate (liveTables c x.tables) T := by
  have hp := hinv.pending c hc hun
  refine ⟨?_, ?_⟩
  · rw [hp.shown_live (hp.ready hready).outputs hinv.distinct]
    exact h.flushed.shown_eq
  · rw [(hinv.candidate_fields hpl hc hun hready).2]
    exact h.flushed.le

theorem Stored.files_live (h : Stored F ρ x w H m T I D M X) (hc : x.compaction = some c)
    (hun : c.versionPublished = false) : Files F x.format m (liveTables c x.tables) := by
  intro t ht
  rcases List.mem_append.mp ((liveTables_perm c x.tables).mem_iff.mp ht) with ht | ht
  · exact h.files t (mem_restOf.mp ht).1
  · exact h.outputFiles c hc hun t ht

theorem Stored.recoverable_compaction (hinv : ContentsInv ρ x) (hpl : ρ.planned)
    (h : Stored F ρ x w H m T I D M X) (hc : x.compaction = some c)
    (hun : c.versionPublished = false) (hready : c.candidateReady = true)
    (hman : ManifestIs F x.format m c.candidate) :
    ∃ A, Admits ρ.toUsage H A ∧ Recoverable F x.format m ρ.toUsage A := by
  obtain ⟨hw, he⟩ := hinv.written_candidate hpl hc hun hready
  obtain ⟨rfl, rfl, rfl, hnext⟩ := h.planned_empty hinv hpl hc hun
  have ha := (hinv.pending c hc hun).aligned
  have htables : TablesInv x.format c.candidate (liveTables c x.tables) := by
    rw [he]
    exact hw.tablesInv (hinv.tablesInv ha)
  obtain ⟨hcnext, hclast⟩ := hinv.candidate_fields hpl hc hun hready
  have hflushed := h.flushed_compacted hinv hpl hc hun hready
  have hfiles := h.files_live hc hun
  by_cases hnil : c.outputMemtables = []
  · -- the active log stays the active one
    rw [hnil, List.length_nil, Nat.add_zero, hnext] at hcnext
    refine ⟨T ++ [] ++ ([] ++ X), ?_, .holds ⟨hman, hfiles, htables, hflushed,
      h.logs_active hcnext, ?_⟩⟩
    · have := h.admitsAll
      simpa using this
    · have := h.follows
      rw [hclast]
      simpa using this
  · -- the active log is obsolete
    have hpos : 0 < c.outputMemtables.length := List.length_pos_iff.mpr hnil
    refine ⟨T ++ [] ++ [], ?_, .holds ⟨hman, hfiles, htables, hflushed,
      .none (fun n hn => h.numbers n (by omega)), trivial⟩⟩
    have := h.admits
    simpa using this

end

/-- The database can be recovered from the image. -/
theorem Stored.recoverable (hinv : ContentsInv ρ x) (hord : ρ.ordered) (hpl : ρ.planned)
    (h : Stored F ρ x w H m T I D M X) :
    ∃ A, Admits ρ.toUsage H A ∧ Recoverable F x.format m ρ.toUsage A := by
  rcases h.manifest with hman | ⟨v, ts, hcand, hman⟩
  · exact h.recoverable_version hinv hman
  · cases hcand with
    | flush himm hun hp happly => exact h.recoverable_flush hinv hord himm hun hp happly hman
    | compaction hc hun hready => exact h.recoverable_compaction hinv hpl hc hun hready hman

end

end MiniKV
