import MiniKV.State.Reads

/-!
# How writes and flushes change the contents

A write raises the last sequence number and adds a record to the Mutable. A
flush freezes the Mutable, publishes the table of the Immutable and lets the
Immutable go. Each is a change of the contents that keeps the invariant; a flush
leaves the view as it was.
-/

namespace MiniKV

open Lib

variable {ρ : Regime} {x y : Contents}

/-! ## Parts that carry over -/

theorem CandidateInv.transfer {c : CompactionState} (h : CandidateInv ρ x c)
    (ho : y.options = x.options) (hv : y.version = x.version) (ht : y.tables = x.tables) :
    CandidateInv ρ y c := by
  obtain ⟨⟩ := x
  obtain ⟨⟩ := y
  simp only at ho hv ht
  subst ho hv ht
  exact ⟨h.outputs, h.valid, h.sorted, h.aligned, h.planned, h.word, h.separate, h.last_le,
    h.next_le⟩

/-- A pending compaction looks at the tables, and bounds the generation from below. -/
theorem PendingInv.transfer {c : CompactionState} (h : PendingInv ρ x c)
    (ho : y.options = x.options) (hv : y.version = x.version) (ht : y.tables = x.tables)
    (hg : x.mutableGeneration ≤ y.mutableGeneration)
    (hp : ρ.planned → y.immutable = none ∧ y.mutableTable.entries = []) : PendingInv ρ y c := by
  have hready : c.candidateReady = true → CandidateInv ρ y c :=
    fun hr => (h.ready hr).transfer ho hv ht
  obtain ⟨⟩ := x
  obtain ⟨⟩ := y
  simp only at ho hv ht
  subst ho hv ht
  exact ⟨h.aligned, h.first_ne, h.room, h.build, h.newer, h.outputs, hready,
    fun hpl => ⟨(h.planned hpl).1, hp hpl⟩,
    fun hord n hn => lt_of_lt_of_le (h.numbers hord n hn) hg, h.beside, h.paths⟩

/-- Contents with the same tables keep the invariant when the order does. -/
theorem ContentsInv.transfer (h : ContentsInv ρ x) (ho : y.options = x.options)
    (hv : y.version = x.version) (ht : y.tables = x.tables) (hc : y.compaction = x.compaction)
    (hg : x.mutableGeneration ≤ y.mutableGeneration)
    (hp : ρ.planned → ∀ c, x.compaction = some c → c.versionPublished = false →
      y.immutable = none ∧ y.mutableTable.entries = [])
    (hfresh : ρ.planned → ∀ imm, y.immutable = some imm → imm.versionPublished = false →
      x.version.nextFileNumber ≤ imm.generation ∧ imm.generation < y.mutableGeneration)
    (hord : ρ.ordered → OrderInv y) : ContentsInv ρ y := by
  refine ⟨by rw [ho]; exact h.accepted, by rw [hv, Contents.format, ho]; exact h.version,
    by rw [hv]; exact h.sorted, by rw [ht, Contents.format, ho]; exact h.coherent,
    by rw [ht]; exact h.distinct, by rw [hv, ht]; exact h.aligned, ?_,
    by rw [hc, hv]; exact h.cleanup, hord,
    fun hpl => ⟨by rw [hv, ht]; exact (h.planned hpl).aligned, by rw [hv]; exact hfresh hpl⟩⟩
  intro c hcy hun
  rw [hc] at hcy
  exact (h.pending c hcy hun).transfer ho hv ht hg (fun hpl => hp hpl c hcy hun)

/-! ## Writing -/

theorem ImmutableInv.raise {imm : ImmutableGeneration} {n : Nat} {m : MemTable}
    (hi : ImmutableInv x imm) (hn : x.lastSequence ≤ n) :
    ImmutableInv { x with lastSequence := n, mutableTable := m } imm :=
  ⟨hi.ne_nil, hi.generation_ne, hi.walPath, hi.maximum, hi.valid,
    fun s hs => (hi.last s hs).trans hn, hi.newest, hi.pending, hi.unpublished, hi.published,
    hi.numbers⟩

/-- A sequence number is used up, whether or not the write succeeds. -/
theorem ContentsInv.raise (h : ContentsInv ρ x) (hn : x.lastSequence ≠ maxUInt64) :
    ContentsInv ρ { x with lastSequence := x.lastSequence + 1 } := by
  refine h.transfer rfl rfl rfl rfl (le_refl _)
    (fun hpl c hc hun => ((h.pending c hc hun).planned hpl).2)
    (fun hpl => (h.planned hpl).fresh) (fun hord => ?_)
  have hold := h.order hord
  have hword := hold.last_word
  refine ⟨hold.id_word, by dsimp only; omega, hold.separate, hold.next_le,
    hold.frontier.trans (Nat.le_succ _), fun r hr => (hold.tables r hr).trans (Nat.le_succ _),
    hold.valid, fun s hs => (hold.last s hs).trans (Nat.le_succ _), hold.newest,
    fun imm himm => (hold.immutable imm himm).raise (Nat.le_succ _)⟩

/-- A record with the next sequence number goes into the Mutable. -/
theorem ContentsInv.insert (h : ContentsInv ρ x) (hn : x.lastSequence ≠ maxUInt64) {r : Record}
    (hr : r.Valid x.format) (hseq : r.sequence = x.lastSequence + 1)
    (hp : ρ.planned → ∀ c, x.compaction = some c → c.versionPublished = true) :
    ContentsInv ρ { x with
      lastSequence := x.lastSequence + 1
      mutableTable := x.mutableTable.insert r } := by
  refine h.transfer rfl rfl rfl rfl (le_refl _) ?_ (fun hpl => (h.planned hpl).fresh)
    (fun hord => ?_)
  · intro hpl c hc hun
    rw [hp hpl c hc] at hun
    cases hun
  · have hold := h.order hord
    have hword := hold.last_word
    refine ⟨hold.id_word, by dsimp only; omega, hold.separate, hold.next_le,
      hold.frontier.trans (Nat.le_succ _), fun r hr => (hold.tables r hr).trans (Nat.le_succ _),
      ?_, ?_, ?_, fun imm himm => (hold.immutable imm himm).raise (Nat.le_succ _)⟩
    · intro s hs
      rcases MemTable.mem_insert hs with rfl | hs
      · exact hr
      · exact hold.valid s hs
    · intro s hs
      rcases MemTable.mem_insert hs with rfl | hs
      · exact hseq.le
      · exact (hold.last s hs).trans (Nat.le_succ _)
    · intro s hs
      rcases MemTable.mem_insert hs with rfl | hs
      · refine ⟨?_, fun u hu => ?_, fun u hu => ?_⟩
        · have := hold.frontier
          show x.version.lastSequence < s.sequence
          omega
        · have := hold.tables u hu
          omega
        · have hu' : u ∈ x.immutableRecords := hu
          unfold Contents.immutableRecords at hu'
          cases himm : x.immutable with
          | none =>
            rw [himm] at hu'
            cases hu'
          | some imm =>
            rw [himm] at hu'
            have := (hold.immutable imm himm).last u hu'
            omega
      · exact hold.newest s hs

theorem Contents.view_insert (x : Contents) (r : Record) (n : Nat) :
    ({ x with lastSequence := n, mutableTable := x.mutableTable.insert r } : Contents).view =
      Function.update x.view r.key r.visible :=
  overlay_insert x.mutableTable r x.below

/-! ## Freezing -/

theorem ContentsInv.freeze (h : ContentsInv ρ x) (hord : ρ.ordered)
    (hne : x.mutableTable.entries ≠ []) :
    ContentsInv ρ { x with
      immutable := some (.new x.mutableGeneration x.mutableTable)
      mutableGeneration := x.mutableGeneration + 1
      mutableTable := .empty } := by
  have hold := h.order hord
  have hgen : x.mutableGeneration ≠ 0 := by
    have h1 := h.version.next_ne
    have h2 := hold.next_le
    omega
  refine h.transfer rfl rfl rfl rfl (Nat.le_succ _) ?_ ?_ (fun _ => ?_)
  · intro hpl c hc hun
    exact absurd (((h.pending c hc hun).planned hpl).2.2) hne
  · intro _ imm he _
    obtain rfl := Option.some.inj he
    exact ⟨hold.next_le, Nat.lt_succ_self _⟩
  · refine ⟨hold.id_word, hold.last_word, hold.separate, hold.next_le.trans (Nat.le_succ _), hold.frontier, hold.tables,
      by simp, by simp, by simp, ?_⟩
    intro imm he
    obtain rfl := Option.some.inj he
    refine ⟨hne, hgen, rfl, rfl, hold.valid, hold.last, ?_, ?_, ?_, ?_, ?_⟩
    · intro s hs r hr _
      exact ((hold.newest s hs).2.1 r hr).le
    · intro t ht
      cases ht
    · intro _ s hs
      exact ⟨(hold.newest s hs).1, (hold.newest s hs).2.1⟩
    · intro hp
      cases hp
    · intro c hc hun n hn
      exact (h.pending c hc hun).numbers hord n hn

theorem Contents.view_freeze (himm : x.immutable = none) :
    ({ x with
      immutable := some (.new x.mutableGeneration x.mutableTable)
      mutableGeneration := x.mutableGeneration + 1
      mutableTable := .empty } : Contents).view = x.view := by
  have hnil : x.immutableRecords = [] := by simp [Contents.immutableRecords, himm]
  unfold Contents.view Contents.below
  rw [hnil]
  rfl

/-! ## The table of the Immutable -/

theorem OrderInv.setImmutable (h : OrderInv x) {imm imm' : ImmutableGeneration}
    (himm : x.immutable = some imm) (hm : imm'.memtable = imm.memtable)
    (hinv : ImmutableInv { x with immutable := some imm' } imm') :
    OrderInv { x with immutable := some imm' } := by
  have hrecords : Contents.immutableRecords { x with immutable := some imm' } =
      x.immutableRecords := by
    simp [Contents.immutableRecords, himm, hm]
  refine ⟨h.id_word, h.last_word, h.separate, h.next_le, h.frontier, h.tables, h.valid, h.last, ?_, ?_⟩
  · intro s hs
    rw [hrecords]
    exact h.newest s hs
  · intro imm'' he
    obtain rfl := Option.some.inj he
    exact hinv

/-- Keeping the table that was written for the Immutable. -/
theorem ContentsInv.setPending (h : ContentsInv ρ x) (hord : ρ.ordered)
    {imm : ImmutableGeneration} (himm : x.immutable = some imm) {t : SSTableReader}
    (ht : t.Coherent x.format) (hgen : t.generation = imm.generation)
    (hrec : t.records = imm.memtable.entries) :
    ContentsInv ρ { x with immutable := some { imm with pendingTable := some t } } := by
  have hold := h.order hord
  have hi := hold.immutable imm himm
  refine h.transfer rfl rfl rfl rfl (le_refl _) ?_ ?_ (fun _ => ?_)
  · intro hpl c hc hun
    have hnone := ((h.pending c hc hun).planned hpl).2.1
    rw [himm] at hnone
    cases hnone
  · intro hpl imm' he hun
    obtain rfl := Option.some.inj he
    exact (h.planned hpl).fresh imm himm hun
  · refine hold.setImmutable himm rfl ?_
    refine ⟨hi.ne_nil, hi.generation_ne, hi.walPath, hi.maximum, hi.valid, hi.last, hi.newest,
      ?_, hi.unpublished, hi.published, hi.numbers⟩
    intro t' ht'
    obtain rfl := Option.some.inj ht'
    exact ⟨ht, hgen, hrec⟩

/-- The log of a published Immutable is gone. -/
theorem ContentsInv.setRemoved (h : ContentsInv ρ x) (hord : ρ.ordered)
    {imm : ImmutableGeneration} (himm : x.immutable = some imm) :
    ContentsInv ρ { x with immutable := some { imm with walRemovedAndSynced := true } } := by
  have hold := h.order hord
  have hi := hold.immutable imm himm
  refine h.transfer rfl rfl rfl rfl (le_refl _) ?_ ?_ (fun _ => ?_)
  · intro hpl c hc hun
    have hnone := ((h.pending c hc hun).planned hpl).2.1
    rw [himm] at hnone
    cases hnone
  · intro hpl imm' he hun
    obtain rfl := Option.some.inj he
    exact (h.planned hpl).fresh imm himm hun
  · exact hold.setImmutable himm rfl ⟨hi.ne_nil, hi.generation_ne, hi.walPath, hi.maximum,
      hi.valid, hi.last, hi.newest, hi.pending, hi.unpublished, hi.published, hi.numbers⟩

/-! ## Publishing it -/

/-- The edit of a flush, in terms of the contents. -/
def flushEditOf (generation : Nat) (imm : ImmutableGeneration) (t : SSTableReader) :
    VersionEdit where
  addedTables := [{ level := 0, metadata := t.metadata }]
  nextFileNumber := some generation
  lastSequence := some imm.maximumSequence

/-- The Version after a flush. -/
structure FlushedVersion (x : Contents) (imm : ImmutableGeneration) (t : SSTableReader)
    (v : Version) : Prop where
  tables : v.tables = x.version.tables ++ [{ level := 0, metadata := t.metadata }]
  next : v.nextFileNumber = x.mutableGeneration
  last : v.lastSequence = imm.maximumSequence
  id : v.id = x.version.id + 1
  id_ne : x.version.id ≠ maxUInt64
  valid : v.Valid x.format
  fresh : ∀ u ∈ x.version.tables, u.generation < t.generation
  added_ge : x.version.nextFileNumber ≤ t.generation

theorem flushedVersion_of_apply {imm : ImmutableGeneration} {t : SSTableReader} {v : Version}
    (hsort : x.version.tables.Pairwise generationLe)
    (h : x.version.apply x.format (flushEditOf x.mutableGeneration imm t) = .ok v) :
    FlushedVersion x imm t v := by
  obtain ⟨hacc, rfl⟩ := Version.apply_eq_ok.mp h
  have hkept : x.version.kept (flushEditOf x.mutableGeneration imm t) = x.version.tables :=
    List.filter_eq_self.mpr (fun u _ => rfl)
  have hfresh : ∀ u ∈ x.version.tables, u.generation < t.generation := by
    intro u hu
    have h1 := (VersionTable.wellFormed_iff.mp (hacc.valid.tables u hu)).2.2.1
    have h2 := hacc.added_ge { level := 0, metadata := t.metadata } (List.mem_singleton.mpr rfl)
    exact h1.trans_le h2
  have htables : sortTables (x.version.kept (flushEditOf x.mutableGeneration imm t) ++
      (flushEditOf x.mutableGeneration imm t).addedTables) =
      x.version.tables ++ [{ level := 0, metadata := t.metadata }] := by
    rw [hkept]
    refine sortTables_of_sorted (List.pairwise_append.mpr
      ⟨hsort, List.pairwise_singleton _ _, fun u hu w hw => ?_⟩)
    rw [List.mem_singleton.mp hw]
    exact (hfresh u hu).le
  exact ⟨htables, rfl, rfl, rfl, hacc.id_ne, hacc.result, hfresh,
    hacc.added_ge { level := 0, metadata := t.metadata } (List.mem_singleton.mpr rfl)⟩

/-- What an older Version does not need, the Version after a flush does not need either. -/
theorem Version.Obsolete.flushed {imm : ImmutableGeneration} {t : SSTableReader} {v : Version}
    {f : FileName} (h : x.version.Obsolete f) (hv : FlushedVersion x imm t v)
    (hnext : x.version.nextFileNumber ≤ x.mutableGeneration) : v.Obsolete f := by
  have hle : x.version.nextFileNumber ≤ v.nextFileNumber := by rw [hv.next]; exact hnext
  cases f with
  | wal n => exact lt_of_lt_of_le h hle
  | sst n =>
    obtain ⟨hn, hdead⟩ := h
    refine ⟨lt_of_lt_of_le hn hle, fun u hu => ?_⟩
    rw [hv.tables] at hu
    rcases List.mem_append.mp hu with hu | hu
    · exact hdead u hu
    · have := hv.added_ge
      rw [List.mem_singleton.mp hu]
      show t.generation ≠ n
      omega
  | manifest => exact h
  | manifestTmp => exact h
  | sstTmp n => exact h
  | other name hname => exact h

theorem Aligned.snoc {v w : Version} {ts : List SSTableReader} {t : SSTableReader} {l : Nat}
    (h : Aligned v ts) (hw : w.tables = v.tables ++ [{ level := l, metadata := t.metadata }]) :
    Aligned w (ts ++ [t]) := by
  unfold Aligned at h ⊢
  rw [hw]
  exact List.rel_append h (List.Forall₂.cons rfl List.Forall₂.nil)

theorem tableRecords_snoc (ts : List SSTableReader) (t : SSTableReader) :
    tableRecords (ts ++ [t]) = tableRecords ts ++ t.records := by
  simp [tableRecords]

theorem inputsOf_snoc {c : CompactionState} {ts : List SSTableReader} {t : SSTableReader}
    (h : t.generation ∉ c.inputFileNumbers) : inputsOf c (ts ++ [t]) = inputsOf c ts := by
  simp [inputsOf, List.filter_append, h]

theorem restOf_snoc {c : CompactionState} {ts : List SSTableReader} {t : SSTableReader}
    (h : t.generation ∉ c.inputFileNumbers) : restOf c (ts ++ [t]) = restOf c ts ++ [t] := by
  simp [restOf, List.filter_append, h]

theorem liveTables_length (c : CompactionState) (ts : List SSTableReader) :
    (liveTables c ts).length = (restOf c ts).length + c.publishedOutputs.length := by
  rw [(liveTables_perm c ts).length_eq, List.length_append]

theorem shown_append_of_ne {rs ss : List Record} {k : Bytes} (h : ∀ r ∈ ss, r.key ≠ k) :
    shown (rs ++ ss) k = shown rs k := by
  unfold shown newestRecord
  rw [newest_append, newest_eq_none.mpr h, newer_none]

/-- The contents once the Version with the table of the Immutable is published. -/
def Contents.flushed (x : Contents) (imm : ImmutableGeneration) (t : SSTableReader) (v : Version) :
    Contents :=
  { x with
    tables := x.tables ++ [t]
    version := v
    immutable := some { imm with pendingTable := none, versionPublished := true } }

section

variable {imm : ImmutableGeneration} {t : SSTableReader} {v : Version}

/-- The table of an unpublished Immutable is newer than every other. -/
theorem ImmutableInv.newer_table (hi : ImmutableInv x imm) (hun : imm.versionPublished = false)
    (hp : imm.pendingTable = some t) {s r : Record} (hs : s ∈ t.records)
    (hr : r ∈ tableRecords x.tables) : r.sequence < s.sequence := by
  rw [(hi.pending t hp).2.2] at hs
  exact (hi.unpublished hun s hs).2 r hr

/-- A compaction that is pending during a flush keeps its inputs. -/
theorem PendingInv.flushed {c : CompactionState} (h : PendingInv ρ x c) (hord : ρ.ordered)
    (hi : ImmutableInv x imm) (himm : x.immutable = some imm)
    (hun : imm.versionPublished = false) (hp : imm.pendingTable = some t)
    (hv : FlushedVersion x imm t v) (hnum : ∀ n ∈ c.inputFileNumbers, n < imm.generation)
    (hnext : x.version.nextFileNumber ≤ x.mutableGeneration) :
    PendingInv ρ (x.flushed imm t v) c := by
  obtain ⟨-, hgen, hrec⟩ := hi.pending t hp
  have hout : t.generation ∉ c.inputFileNumbers := by
    intro hm
    have := hnum _ hm
    omega
  have hinputs : inputsOf c (x.tables ++ [t]) = inputsOf c x.tables := inputsOf_snoc hout
  have hrest : restOf c (x.tables ++ [t]) = restOf c x.tables ++ [t] := restOf_snoc hout
  have hold : ∀ s ∈ tableRecords (inputsOf c x.tables), s ∈ tableRecords x.tables := by
    intro s hs
    obtain ⟨u, hu, hsu⟩ := mem_tableRecords.mp hs
    exact mem_tableRecords.mpr ⟨u, (mem_inputsOf.mp hu).1, hsu⟩
  -- under the regime in which nothing is written there is no Immutable
  have hnotPlanned : ¬ ρ.planned := by
    intro hpl
    have hnone := (h.planned hpl).2.1
    rw [himm] at hnone
    cases hnone
  refine ⟨h.aligned.snoc hv.tables, h.first_ne, h.room, ?_, ?_, h.outputs, ?_,
    fun hpl => absurd hpl hnotPlanned, h.numbers, ?_, h.paths⟩
  · show BuildResult true (tableRecords (inputsOf c (x.tables ++ [t]))) _
    rw [hinputs]
    exact h.build
  · show ∀ r ∈ tableRecords (restOf c (x.tables ++ [t])),
      ∀ s ∈ tableRecords (inputsOf c (x.tables ++ [t])), s.key = r.key → s.sequence < r.sequence
    rw [hinputs, hrest, tableRecords_snoc]
    intro r hr s hs hk
    rcases List.mem_append.mp hr with hr | hr
    · exact h.newer r hr s hs hk
    · exact hi.newer_table hun hp hr (hold s hs)
  · intro hready
    have hc := h.ready hready
    have hlen : (liveTables c (x.tables ++ [t])).length = (liveTables c x.tables).length + 1 := by
      rw [liveTables_length, liveTables_length, hrest, List.length_append, List.length_singleton]
      omega
    refine ⟨hc.outputs, hc.valid, hc.sorted, Or.inr ?_, fun hpl => absurd hpl hnotPlanned,
      hc.word, hc.separate, fun _ => ?_, fun _ he => ?_⟩
    · show c.candidate.tables.length < (liveTables c (x.tables ++ [t])).length
      rcases hc.aligned with ha | hlt
      · have := List.Forall₂.length_eq ha
        omega
      · omega
    · have h1 := hc.last_le hord
      obtain ⟨s, hs⟩ := List.exists_mem_of_ne_nil _ hi.ne_nil
      have h2 := (hi.unpublished hun s hs).1
      have h3 := le_maximumSequence hs
      show c.candidate.lastSequence ≤ v.lastSequence
      rw [hv.last, hi.maximum]
      omega
    · have h1 := hc.next_le hord he
      show c.candidate.nextFileNumber ≤ v.nextFileNumber
      rw [hv.next]
      omega
  · intro _ u hu
    have hu' : u ∈ restOf c (x.tables ++ [t]) := hu
    show u.Beside (tableRecords (inputsOf c (x.tables ++ [t])))
    rw [hinputs]
    rw [hrest] at hu'
    rcases List.mem_append.mp hu' with hu' | hu'
    · exact h.beside hord u hu'
    · refine Or.inr (Or.inr (fun s hs r hr => ?_))
      rw [List.mem_singleton.mp hu'] at hr
      exact hi.newer_table hun hp hr (hold s hs)

theorem OrderInv.flushed (h : OrderInv x) (hvalid : x.version.Valid x.format)
    (himm : x.immutable = some imm) (hun : imm.versionPublished = false)
    (hp : imm.pendingTable = some t) (hv : FlushedVersion x imm t v) :
    OrderInv (x.flushed imm t v) := by
  have hi := h.immutable imm himm
  obtain ⟨hcoh, hgen, hrec⟩ := hi.pending t hp
  have hmax : v.lastSequence = maximumSequence imm.memtable.entries := by
    rw [hv.last, hi.maximum]
  have hrecords : x.immutableRecords = imm.memtable.entries := by
    simp [Contents.immutableRecords, himm]
  have hle : imm.maximumSequence ≤ x.lastSequence := by
    rw [hi.maximum]
    exact maximumSequence_le hi.last
  constructor
  case id_word =>
    have h1 := hv.id
    have h2 := hv.id_ne
    have h3 := h.id_word
    show v.id ≤ maxUInt64
    omega
  case last_word => exact h.last_word
  case separate =>
    show v.tables.Pairwise _
    rw [hv.tables]
    refine List.pairwise_append.mpr ⟨h.separate, List.pairwise_singleton _ _, ?_⟩
    intro a ha b hb
    rw [List.mem_singleton.mp hb]
    refine Or.inr (Or.inl ?_)
    -- what the tables hold ends before the Immutable begins
    have hlast := hvalid.lastSequence a ha
    have hfrontier : ∀ r ∈ t.records, a.metadata.maximumSequence < r.sequence := by
      intro r hr
      rw [hrec] at hr
      have := (hi.unpublished hun r hr).1
      omega
    have hmin : t.metadata.minimumSequence = minimumSequence t.records := by
      rw [hcoh.summary]
      rfl
    obtain ⟨s, hs⟩ := List.exists_mem_of_ne_nil _ hi.ne_nil
    have h1 := (hi.unpublished hun s hs).1
    have h2 := hi.last s hs
    have h3 := h.last_word
    show a.metadata.maximumSequence < t.metadata.minimumSequence
    rw [hmin]
    exact lt_minimumSequence (by omega) hfrontier
  case next_le =>
    show v.nextFileNumber ≤ x.mutableGeneration
    rw [hv.next]
  case frontier =>
    show v.lastSequence ≤ x.lastSequence
    rw [hv.last]
    exact hle
  case tables =>
    show ∀ r ∈ tableRecords (x.tables ++ [t]), r.sequence ≤ x.lastSequence
    rw [tableRecords_snoc]
    intro r hr
    rcases List.mem_append.mp hr with hr | hr
    · exact h.tables r hr
    · exact hi.last r (hrec ▸ hr)
  case valid => exact h.valid
  case last => exact h.last
  case newest =>
    intro s hs
    obtain ⟨-, h2, h3⟩ := h.newest s hs
    rw [hrecords] at h3
    refine ⟨?_, ?_, h3⟩
    · show v.lastSequence < s.sequence
      rw [hmax]
      obtain ⟨r, hr, he⟩ := maximumSequence_mem hi.ne_nil
        (fun r hr => (hi.valid r hr).sequence_pos)
      rw [← he]
      exact h3 r hr
    · show ∀ r ∈ tableRecords (x.tables ++ [t]), r.sequence < s.sequence
      rw [tableRecords_snoc]
      intro r hr
      rcases List.mem_append.mp hr with hr | hr
      · exact h2 r hr
      · exact h3 r (hrec ▸ hr)
  case immutable =>
    intro imm' he
    obtain rfl := Option.some.inj he
    refine ⟨hi.ne_nil, hi.generation_ne, hi.walPath, hi.maximum, hi.valid, hi.last, ?_,
      (fun t' ht' => by cases ht'), (fun hf => by cases hf), ?_, hi.numbers⟩
    · show ∀ s ∈ imm.memtable.entries, ∀ r ∈ tableRecords (x.tables ++ [t]), r.key = s.key →
        r.sequence ≤ s.sequence
      rw [tableRecords_snoc]
      intro s hs r hr hk
      rcases List.mem_append.mp hr with hr | hr
      · exact hi.newest s hs r hr hk
      · rw [hrec] at hr
        have h1 := findKey_of_mem imm.memtable.ascending hr
        rw [hk, findKey_of_mem imm.memtable.ascending hs] at h1
        rw [Option.some.inj h1]
    · intro _
      exact ⟨t, List.mem_append_right _ (List.mem_singleton.mpr rfl), hgen, hrec⟩

theorem ContentsInv.flushed (h : ContentsInv ρ x) (hord : ρ.ordered)
    (himm : x.immutable = some imm) (hun : imm.versionPublished = false)
    (hp : imm.pendingTable = some t)
    (happly : x.version.apply x.format (flushEditOf x.mutableGeneration imm t) = .ok v) :
    ContentsInv ρ (x.flushed imm t v) := by
  have hold := h.order hord
  have hi := hold.immutable imm himm
  have hv := flushedVersion_of_apply h.sorted happly
  obtain ⟨hcoh, hgen, hrec⟩ := hi.pending t hp
  constructor
  case accepted => exact h.accepted
  case version => exact hv.valid
  case sorted =>
    show v.tables.Pairwise generationLe
    rw [hv.tables]
    refine List.pairwise_append.mpr ⟨h.sorted, List.pairwise_singleton _ _, fun a ha b hb => ?_⟩
    rw [List.mem_singleton.mp hb]
    exact (hv.fresh a ha).le
  case coherent =>
    intro u hu
    rcases List.mem_append.mp hu with hu | hu
    · exact h.coherent u hu
    · rw [List.mem_singleton.mp hu]
      exact hcoh
  case distinct =>
    show DistinctRecords (tableRecords (x.tables ++ [t]))
    rw [tableRecords_snoc]
    refine List.pairwise_append.mpr ⟨h.distinct, distinct_of_sorted hcoh.ascending, ?_⟩
    intro r hr s hs he
    have := hi.newer_table hun hp hs hr
    have hq : r.sequence = s.sequence := he.2
    omega
  case aligned =>
    rcases h.aligned with ha | hlt
    · exact Or.inl (ha.snoc hv.tables)
    · refine Or.inr ?_
      show v.tables.length < (x.tables ++ [t]).length
      rw [hv.tables, List.length_append, List.length_append]
      simpa using hlt
  case pending =>
    intro c hc hcun
    exact (h.pending c hc hcun).flushed hord hi himm hun hp hv (hi.numbers c hc hcun) hold.next_le
  case cleanup =>
    intro hdur c hc hcpub f hf
    exact (h.cleanup hdur c hc hcpub f hf).flushed hv hold.next_le
  case order => exact fun _ => hold.flushed h.version himm hun hp hv
  case planned =>
    refine fun hpl => ⟨(h.planned hpl).aligned.snoc hv.tables, fun imm' he hf => ?_⟩
    obtain rfl := Option.some.inj he
    cases hf

/-- Publishing the table of the Immutable shows nothing new. -/
theorem Contents.view_flushed (himm : x.immutable = some imm)
    (hrec : t.records = imm.memtable.entries) : (x.flushed imm t v).view = x.view := by
  have hbelow : (x.flushed imm t v).below = x.below := by
    funext k
    have hrecords : x.immutableRecords = imm.memtable.entries := by
      simp [Contents.immutableRecords, himm]
    unfold Contents.below
    rw [hrecords]
    show overlay imm.memtable.entries (shown (tableRecords (x.tables ++ [t]))) k = _
    unfold overlay
    cases hf : findKey imm.memtable.entries k with
    | some r => rfl
    | none =>
      dsimp only
      rw [tableRecords_snoc, hrec]
      exact shown_append_of_ne (findKey_eq_none.mp hf)
  unfold Contents.view
  rw [hbelow]
  rfl

/-- The edit of a flush is accepted as long as there are Version ids. -/
theorem ContentsInv.flush_apply (h : ContentsInv ρ x) (hord : ρ.ordered) (hpl : ρ.planned)
    (himm : x.immutable = some imm) (hun : imm.versionPublished = false)
    (ht : t.Coherent x.format) (hgen : t.generation = imm.generation)
    (hrec : t.records = imm.memtable.entries) (hid : x.version.id ≠ maxUInt64) :
    ∃ v, x.version.apply x.format (flushEditOf x.mutableGeneration imm t) = .ok v := by
  have hold := h.order hord
  have hi := hold.immutable imm himm
  obtain ⟨hnext, hactive⟩ := (h.planned hpl).fresh imm himm hun
  have hmax : t.metadata.maximumSequence = imm.maximumSequence := by
    rw [ht.summary, hi.maximum, ← hrec]
    rfl
  obtain ⟨s, hs⟩ := List.exists_mem_of_ne_nil _ hi.ne_nil
  have hlast : x.version.lastSequence ≤ imm.maximumSequence := by
    rw [hi.maximum]
    exact ((hi.unpublished hun s hs).1.trans_le (le_maximumSequence hs)).le
  have hkept : x.version.kept (flushEditOf x.mutableGeneration imm t) = x.version.tables :=
    List.filter_eq_self.mpr (fun u _ => rfl)
  have hlt : ∀ u ∈ x.version.tables, u.generation < x.version.nextFileNumber := fun u hu =>
    (VersionTable.wellFormed_iff.mp (h.version.tables u hu)).2.2.1
  have hmem : ∀ u ∈ sortTables (x.version.tables ++ [{ level := 0, metadata := t.metadata }]),
      u ∈ x.version.tables ∨ u = { level := 0, metadata := t.metadata } := by
    intro u hu
    rcases List.mem_append.mp (mem_sortTables.mp hu) with hu | hu
    · exact Or.inl hu
    · exact Or.inr (List.mem_singleton.mp hu)
  refine ⟨_, Version.apply_eq_ok.mpr ⟨?_, rfl⟩⟩
  constructor
  case valid => exact h.version
  case id_ne => exact hid
  case deletions_ne => exact List.not_mem_nil
  case deletions_nodup => exact List.nodup_nil
  case deletions_live => exact fun n hn => absurd hn List.not_mem_nil
  case added_ge =>
    intro u hu
    rw [List.mem_singleton.mp hu]
    show x.version.nextFileNumber ≤ t.generation
    omega
  case added_nodup => exact List.nodup_singleton _
  case next_le => exact hold.next_le
  case last_le => exact hlast
  case result =>
    rw [hkept]
    constructor
    case id_ne => exact Nat.succ_ne_zero _
    case next_ne =>
      show x.mutableGeneration ≠ 0
      omega
    case maxKeySize_ne => exact h.version.maxKeySize_ne
    case tables =>
      intro u hu
      rcases hmem u hu with hu | rfl
      · exact VersionTable.wellFormed_mono (h.version.tables u hu) hold.next_le
      · refine ht.wellFormed (Nat.zero_le _) ?_ ?_
        · have := hi.generation_ne
          omega
        · show t.generation < x.mutableGeneration
          omega
    case distinct =>
      have hperm := (sortTables_perm (x.version.tables ++
        [{ level := 0, metadata := t.metadata }])).map VersionTable.generation
      refine hperm.nodup_iff.mpr ?_
      rw [List.map_append]
      refine List.nodup_append.mpr ⟨h.version.distinct, List.nodup_singleton _, ?_⟩
      intro a ha b hb
      obtain ⟨u, hu, rfl⟩ := List.mem_map.mp ha
      have h1 := hlt u hu
      have h2 : b = t.generation := List.mem_singleton.mp hb
      omega
    case levelOne =>
      have hperm := (sortTables_perm (x.version.tables ++
        [{ level := 0, metadata := t.metadata }])).filter (fun u => decide (u.level = 1))
      refine (hperm.pairwise_iff (fun h => TableMetadata.Apart.symm h)).mpr ?_
      rw [List.filter_append, show List.filter (fun u => decide (u.level = 1))
        [({ level := 0, metadata := t.metadata } : VersionTable)] = [] from rfl, List.append_nil]
      exact h.version.levelOne
    case lastSequence =>
      intro u hu
      rcases hmem u hu with hu | rfl
      · exact (h.version.lastSequence u hu).trans hlast
      · exact hmax.le

end

/-! ## Letting the Immutable go -/

theorem ContentsInv.dropImmutable (h : ContentsInv ρ x) :
    ContentsInv ρ { x with immutable := none } := by
  refine h.transfer rfl rfl rfl rfl (le_refl _) ?_ (fun _ imm he => by cases he) (fun hord => ?_)
  · intro hpl c hc hun
    exact ⟨rfl, ((h.pending c hc hun).planned hpl).2.2⟩
  · have hold := h.order hord
    refine ⟨hold.id_word, hold.last_word, hold.separate, hold.next_le, hold.frontier, hold.tables,
      hold.valid, hold.last, ?_, fun imm he => by cases he⟩
    intro s hs
    refine ⟨(hold.newest s hs).1, (hold.newest s hs).2.1, fun r hr => by cases hr⟩

/-- The records of a published Immutable are the newest of their keys in the tables. -/
theorem ImmutableInv.newestRecord_eq {imm : ImmutableGeneration} (hi : ImmutableInv x imm)
    (hd : DistinctRecords (tableRecords x.tables)) (hp : imm.versionPublished = true) {s : Record}
    (hs : s ∈ imm.memtable.entries) : newestRecord s.key (tableRecords x.tables) = some s := by
  obtain ⟨t, ht, -, hrec⟩ := hi.published hp
  rw [newest_eq_some hd]
  exact ⟨mem_tableRecords.mpr ⟨t, ht, hrec ▸ hs⟩, rfl, fun r hr hk => hi.newest s hs r hr hk⟩

theorem Contents.view_dropImmutable (h : ContentsInv ρ x) (hord : ρ.ordered)
    (hp : ∀ imm, x.immutable = some imm → imm.versionPublished = true) :
    ({ x with immutable := none } : Contents).view = x.view := by
  have hbelow : ({ x with immutable := none } : Contents).below = x.below := by
    cases himm : x.immutable with
    | none =>
      obtain ⟨⟩ := x
      simp only at himm
      subst himm
      rfl
    | some imm =>
      have hi := (h.order hord).immutable imm himm
      have hrecords : x.immutableRecords = imm.memtable.entries := by
        simp [Contents.immutableRecords, himm]
      funext k
      unfold Contents.below
      rw [hrecords]
      show shown (tableRecords x.tables) k = _
      unfold overlay
      cases hf : findKey imm.memtable.entries k with
      | none => rfl
      | some s =>
        have hn := hi.newestRecord_eq h.distinct (hp imm himm) (findKey_mem hf)
        rw [findKey_key hf] at hn
        rw [shown, hn]
        rfl
  unfold Contents.view
  rw [hbelow]

end MiniKV
