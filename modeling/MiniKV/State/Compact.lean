import MiniKV.State.Flush

/-!
# How a compaction changes the contents

Planning a compaction, keeping its outputs and its candidate Version, and
publishing that Version, each as a change of the contents. Until the candidate
is published a flush may add tables; the results here do not exclude that.
-/

namespace MiniKV

open Lib

variable {ρ : Regime} {x : Contents} {c : CompactionState}

/-- A pending compaction is replaced by a later state of it. -/
theorem ContentsInv.setCompaction (h : ContentsInv ρ x) {c' : CompactionState}
    (hc : x.compaction = some c) (hin : c'.inputFileNumbers = c.inputFileNumbers)
    (hpub : c'.versionPublished = false → c.versionPublished = false ∧
      PendingInv ρ { x with compaction := some c' } c')
    (hclean : c'.versionPublished = true →
      c.versionPublished = true ∧ c'.cleanupPaths = c.cleanupPaths) :
    ContentsInv ρ { x with compaction := some c' } := by
  refine ⟨h.accepted, h.version, h.sorted, h.coherent, h.distinct, h.aligned, ?_, ?_, ?_,
    fun hpl => ⟨(h.planned hpl).aligned, (h.planned hpl).fresh⟩⟩
  · intro d hd hun
    obtain rfl := Option.some.inj hd
    exact (hpub hun).2
  · intro hdur d hd hdpub
    obtain rfl := Option.some.inj hd
    rw [(hclean hdpub).2]
    exact h.cleanup hdur c hc (hclean hdpub).1
  · intro hord
    have hold := h.order hord
    refine ⟨hold.id_word, hold.last_word, hold.separate, hold.next_le, hold.frontier, hold.tables,
      hold.valid, hold.last, hold.newest, fun imm himm => ?_⟩
    have hi := hold.immutable imm himm
    refine ⟨hi.ne_nil, hi.generation_ne, hi.walPath, hi.maximum, hi.valid, hi.last, hi.newest,
      hi.pending, hi.unpublished, hi.published, ?_⟩
    intro d hd hun
    obtain rfl := Option.some.inj hd
    rw [hin]
    exact hi.numbers c hc (hpub hun).1

/-- A compaction that is over. -/
theorem ContentsInv.dropCompaction (h : ContentsInv ρ x) :
    ContentsInv ρ { x with compaction := none } := by
  refine ⟨h.accepted, h.version, h.sorted, h.coherent, h.distinct, h.aligned,
    fun d hd => (by cases hd), fun _ d hd => (by cases hd), fun hord => ?_,
    fun hpl => ⟨(h.planned hpl).aligned, (h.planned hpl).fresh⟩⟩
  have hold := h.order hord
  refine ⟨hold.id_word, hold.last_word, hold.separate, hold.next_le, hold.frontier, hold.tables,
    hold.valid, hold.last, hold.newest, fun imm himm => ?_⟩
  have hi := hold.immutable imm himm
  exact ⟨hi.ne_nil, hi.generation_ne, hi.walPath, hi.maximum, hi.valid, hi.last, hi.newest,
    hi.pending, hi.unpublished, hi.published, fun d hd => (by cases hd)⟩

/-! ## Planning -/

theorem prepareCompaction_ready {db db' : Database} (h : prepareCompaction db = .ok db') :
    db.compaction = none ∧ db.tables.length = db.version.tables.length := by
  unfold prepareCompaction at h
  split at h
  · cases h
  · rename_i hcond
    simp only [not_or, Bool.not_eq_true, Option.isSome_eq_false_iff, Option.isNone_iff_eq_none,
      not_not] at hcond
    exact hcond

/-- Lengths that agree rule out that readers are missing. -/
theorem ContentsInv.aligned_of_length (h : ContentsInv ρ x)
    (hlen : x.tables.length = x.version.tables.length) : Aligned x.version x.tables := by
  rcases h.aligned with ha | hlt
  · exact ha
  · omega

theorem PlanOf.beside {o : FormatOptions} {v : Version} {ts : List SSTableReader}
    (hinv : TablesInv o v ts) (hp : PlanOf v ts c) {t : SSTableReader} (ht : t ∈ restOf c ts) :
    t.Beside (tableRecords (inputsOf c ts)) := by
  obtain ⟨htt, hout⟩ := mem_restOf.mp ht
  obtain ⟨vt, hvt, he⟩ := hinv.aligned.exists_table htt
  have hgen : vt.generation = t.generation := by rw [VersionTable.generation, he]
  rcases (hp.kept_side hinv hvt (hgen ▸ hout)).2 with h | h
  · exact Or.inl (he ▸ h)
  · exact Or.inr (Or.inl (he ▸ h))

theorem ContentsInv.plan (h : ContentsInv ρ x) (hlen : x.tables.length = x.version.tables.length)
    (himm : x.immutable = none) (hmut : x.mutableTable.entries = [])
    (hp : Planned x.version x.tables c) : ContentsInv ρ { x with compaction := some c } := by
  have ha := h.aligned_of_length hlen
  have hinv := h.tablesInv ha
  have hfirst : c.firstOutputFileNumber = x.version.nextFileNumber := hp.first
  refine ⟨h.accepted, h.version, h.sorted, h.coherent, h.distinct, h.aligned, ?_, ?_, ?_,
    fun hpl => ⟨(h.planned hpl).aligned, (h.planned hpl).fresh⟩⟩
  · intro d hd _
    obtain rfl := Option.some.inj hd
    refine ⟨ha, by rw [hfirst]; exact h.version.next_ne, by rw [hfirst]; exact hp.room, hp.build,
      ?_, Or.inl hp.published, ?_, fun _ => ⟨hp.toPlanOf, himm, hmut⟩, ?_, ?_,
      fun _ => hp.paths⟩
    · intro r hr s hs hk
      exact absurd hk (hp.toPlanOf.keys_ne hinv hr hs)
    · intro hready
      rw [hp.candidateReady] at hready
      cases hready
    · intro hord n hn
      obtain ⟨range, -, hnum⟩ := hp.numbers
      rw [hnum] at hn
      obtain ⟨vt, hvt, rfl⟩ := List.mem_map.mp hn
      have hlt := (VersionTable.wellFormed_iff.mp
        (h.version.tables vt (List.mem_filter.mp hvt).1)).2.2.1
      exact hlt.trans_le (h.order hord).next_le
    · intro _ t ht
      exact hp.toPlanOf.beside hinv ht
  · intro _ d hd hdpub
    obtain rfl := Option.some.inj hd
    rw [hp.versionPublished] at hdpub
    cases hdpub
  · intro hord
    have hold := h.order hord
    refine ⟨hold.id_word, hold.last_word, hold.separate, hold.next_le, hold.frontier, hold.tables,
      hold.valid, hold.last, hold.newest, fun imm he => ?_⟩
    have hi : x.immutable = some imm := he
    rw [himm] at hi
    cases hi

/-! ## Outputs and candidate -/

theorem PlanOf.setOutputs {v : Version} {ts outputs : List SSTableReader} (h : PlanOf v ts c) :
    PlanOf v ts { c with publishedOutputs := outputs } := ⟨h.numbers, h.first, h.room, h.build⟩

theorem ContentsInv.setOutputs (h : ContentsInv ρ x) (hc : x.compaction = some c)
    (hun : c.versionPublished = false) (hready : c.candidateReady = false)
    {outputs : List SSTableReader}
    (hout : OutputReaders x.format c.firstOutputFileNumber c.outputMemtables outputs) :
    ContentsInv ρ { x with compaction := some { c with publishedOutputs := outputs } } := by
  have hp := h.pending c hc hun
  refine h.setCompaction hc rfl (fun _ => ⟨hun, ?_⟩) (fun hpub => ?_)
  · refine ⟨hp.aligned, hp.first_ne, hp.room, hp.build, hp.newer, Or.inr hout, ?_,
      fun hpl => ⟨(hp.planned hpl).1.setOutputs, (hp.planned hpl).2⟩, hp.numbers, hp.beside,
      hp.paths⟩
    intro hr
    rw [show ({ c with publishedOutputs := outputs } : CompactionState).candidateReady =
      c.candidateReady from rfl, hready] at hr
    cases hr
  · rw [show ({ c with publishedOutputs := outputs } : CompactionState).versionPublished =
      c.versionPublished from rfl, hun] at hpub
    cases hpub

/-- Sorting by file number keeps tables and readers in step. -/
theorem forall₂_sort {vts : List VersionTable} {ts : List SSTableReader}
    (h : List.Forall₂ (fun (vt : VersionTable) (t : SSTableReader) => vt.metadata = t.metadata)
      vts ts) :
    List.Forall₂ (fun (vt : VersionTable) (t : SSTableReader) => vt.metadata = t.metadata)
      (sortTables vts) (sortReaders ts) := by
  have hinsert : ∀ {vt : VersionTable} {t : SSTableReader} {vts : List VersionTable}
      {ts : List SSTableReader}, vt.metadata = t.metadata →
      List.Forall₂ (fun (vt : VersionTable) (t : SSTableReader) => vt.metadata = t.metadata)
        vts ts →
      List.Forall₂ (fun (vt : VersionTable) (t : SSTableReader) => vt.metadata = t.metadata)
        (vts.orderedInsert generationLe vt)
        (ts.orderedInsert (fun a b => a.generation ≤ b.generation) t) := by
    intro vt t vts ts hm hrest
    induction hrest with
    | nil => exact List.Forall₂.cons hm List.Forall₂.nil
    | @cons wu u ws us hu hus ih =>
      have hiff : generationLe vt wu ↔ t.generation ≤ u.generation := by
        rw [generationLe, VersionTable.generation, VersionTable.generation, hm, hu]
      rw [List.orderedInsert_cons, List.orderedInsert_cons]
      by_cases hle : t.generation ≤ u.generation
      · rw [if_pos (hiff.mpr hle), if_pos hle]
        exact List.Forall₂.cons hm (List.Forall₂.cons hu hus)
      · rw [if_neg (fun h => hle (hiff.mp h)), if_neg hle]
        exact List.Forall₂.cons hu ih
  induction h with
  | nil => exact List.Forall₂.nil
  | cons hm _ ih => exact hinsert hm ih

/-- The candidate and the readers that are to serve it are in step. -/
theorem aligned_candidate {v w : Version} {o : FormatOptions} {ts : List SSTableReader}
    (ha : Aligned v ts) (h : v.apply o (compactionEdit c) = .ok w) :
    Aligned w (liveTables c ts) := by
  obtain ⟨-, rfl⟩ := Version.apply_eq_ok.mp h
  exact forall₂_sort (compactedTables_forall₂ ha)

theorem sorted_sortTables (ts : List VersionTable) : (sortTables ts).Pairwise generationLe := by
  have : Std.Total generationLe := ⟨fun a b => le_total a.generation b.generation⟩
  have : IsTrans VersionTable generationLe := ⟨fun a b c h h' => le_trans h h'⟩
  exact List.pairwise_insertionSort generationLe ts

/-- The candidate has separate tables: an output shares its keys with no kept table that is
not newer as a whole. -/
theorem separate_candidate {v w : Version} {o : FormatOptions} {ts : List SSTableReader}
    (hs : v.Separate) (ha : Aligned v ts) (hbuild : BuildResult true
      (tableRecords (inputsOf c ts)) c.outputMemtables) (hcoh : ∀ t ∈ ts, t.Coherent o)
    (hword : ∀ r ∈ tableRecords ts, r.sequence ≤ maxUInt64)
    (hbeside : ∀ t ∈ restOf c ts, t.Beside (tableRecords (inputsOf c ts))) {n : Nat}
    (hout : OutputReaders o n c.outputMemtables c.publishedOutputs)
    (h : v.apply o (compactionEdit c) = .ok w) : w.Separate := by
  obtain ⟨-, rfl⟩ := Version.apply_eq_ok.mp h
  have hperm := sortTables_perm (v.kept (compactionEdit c) ++ (compactionEdit c).addedTables)
  refine (hperm.pairwise_iff (fun h => TableMetadata.Separate.symm h)).mpr ?_
  refine List.pairwise_append.mpr ⟨hs.sublist List.filter_sublist, ?_, ?_⟩
  · exact List.pairwise_map.mpr ((hout.ranges hbuild.ascending).imp (fun h => Or.inl (Or.inl h)))
  · intro a ha' b hb
    obtain ⟨hav, hain⟩ := List.mem_filter.mp ha'
    obtain ⟨t, ht, hat⟩ := ha.exists_reader hav
    have hgen : a.generation = t.generation := by rw [VersionTable.generation, hat]
    have htrest : t ∈ restOf c ts := by
      refine mem_restOf.mpr ⟨ht, ?_⟩
      rw [← hgen]
      simpa [compactionEdit] using hain
    obtain ⟨u, hu, rfl⟩ := List.mem_map.mp hb
    have hcu := hout.coherent u hu
    -- every record of an output is one of the inputs
    have hsub : ∀ s ∈ u.records, s ∈ tableRecords (inputsOf c ts) := by
      intro s hsu
      have hm : s ∈ outputRecords c.outputMemtables := by
        rw [← hout.tableRecords_eq]
        exact mem_tableRecords.mpr ⟨u, hu, hsu⟩
      exact ((hbuild.mem s).mp hm).1.mem
    rw [hat]
    rcases hbeside t htrest with hk | hk | hq
    · obtain ⟨s, hsu, he⟩ := firstKey_mem hcu.ne_nil
      have hmin : u.metadata.minimumKey = s.key := by rw [hcu.summary]; exact he.symm
      refine Or.inl (Or.inl ?_)
      rw [hmin]
      exact hk s (hsub s hsu)
    · obtain ⟨s, hsu, he⟩ := lastKey_mem hcu.ne_nil
      have hmax : u.metadata.maximumKey = s.key := by rw [hcu.summary]; exact he.symm
      refine Or.inl (Or.inr ?_)
      rw [hmax]
      exact hk s (hsub s hsu)
    · obtain ⟨s, hsu, he⟩ := maximumSequence_mem hcu.ne_nil
        (fun r hr => (hcu.valid r hr).sequence_pos)
      have hct := hcoh t ht
      have hmax : u.metadata.maximumSequence = s.sequence := by rw [hcu.summary]; exact he.symm
      have hmin : t.metadata.minimumSequence = minimumSequence t.records := by
        rw [hct.summary]; rfl
      have hlt := hq s (hsub s hsu)
      refine Or.inr (Or.inr ?_)
      rw [hmax, hmin]
      obtain ⟨r, hr⟩ := List.exists_mem_of_ne_nil _ hct.ne_nil
      have h1 := hlt r hr
      have h2 := hword r (mem_tableRecords.mpr ⟨t, ht, hr⟩)
      exact lt_minimumSequence (by omega) hlt

theorem ContentsInv.setCandidate (h : ContentsInv ρ x) (hc : x.compaction = some c)
    (hun : c.versionPublished = false)
    (hout : OutputReaders x.format c.firstOutputFileNumber c.outputMemtables c.publishedOutputs)
    {w : Version} {stats : CompactionStats}
    (happly : x.version.apply x.format (compactionEdit c) = .ok w) :
    ContentsInv ρ { x with compaction := some { c with
      candidate := w, candidateReady := true, stats := stats } } := by
  have hp := h.pending c hc hun
  have hacc := (Version.apply_eq_ok.mp happly).1
  have hw := (Version.apply_eq_ok.mp happly).2
  have hstill : ¬ ({ c with candidate := w, candidateReady := true, stats := stats } :
      CompactionState).versionPublished = true := by
    rw [show ({ c with candidate := w, candidateReady := true, stats := stats } :
      CompactionState).versionPublished = c.versionPublished from rfl, hun]
    simp
  refine h.setCompaction hc rfl (fun _ => ⟨hun, ?_⟩) (fun hpub => absurd hpub hstill)
  refine ⟨hp.aligned, hp.first_ne, hp.room, hp.build, hp.newer, hp.outputs, fun _ => ?_,
    fun hpl => ⟨⟨(hp.planned hpl).1.numbers, (hp.planned hpl).1.first, (hp.planned hpl).1.room,
      (hp.planned hpl).1.build⟩, (hp.planned hpl).2⟩, hp.numbers, hp.beside, hp.paths⟩
  refine ⟨hout, hw ▸ hacc.result, ?_, Or.inl (aligned_candidate hp.aligned happly),
    fun _ => happly, fun hord => ?_, fun hord => ?_, fun _ => ?_, fun _ hnil => ?_⟩
  · rw [hw]
    exact sorted_sortTables _
  · have h1 := (h.order hord).id_word
    have h2 := hacc.id_ne
    show w.id ≤ maxUInt64
    rw [hw]
    show x.version.id + 1 ≤ maxUInt64
    omega
  · have hold := h.order hord
    exact separate_candidate hold.separate hp.aligned hp.build h.coherent
      (fun r hr => (hold.tables r hr).trans hold.last_word) (hp.beside hord) hout happly
  · show w.lastSequence ≤ x.version.lastSequence
    rw [hw]
    exact le_refl _
  · -- without outputs the edit leaves the next file number alone
    have hnil' : c.outputMemtables = [] := hnil
    have hempty : c.publishedOutputs = [] := by
      have := hout.length_eq
      rw [hnil'] at this
      exact List.length_eq_zero_iff.mp this
    show w.nextFileNumber ≤ x.version.nextFileNumber
    rw [hw]
    simp [Version.candidate, compactionEdit, hempty]

/-! ## Publishing -/

/-- The contents once the candidate is published; `c'` is the compaction from then on. -/
def Contents.compacted (x : Contents) (c c' : CompactionState) : Contents :=
  { x with
    tables := liveTables c x.tables
    version := c.candidate
    mutableGeneration :=
      if c.outputMemtables.isEmpty then x.mutableGeneration else c.candidate.nextFileNumber
    compaction := some c' }

/-- The records that are live afterwards were there before. -/
theorem PendingInv.live_mem (hp : PendingInv ρ x c)
    (hout : OutputReaders x.format c.firstOutputFileNumber c.outputMemtables c.publishedOutputs)
    {r : Record} (hr : r ∈ tableRecords (liveTables c x.tables)) : r ∈ tableRecords x.tables := by
  obtain ⟨t, ht, hrt⟩ := mem_tableRecords.mp hr
  rcases List.mem_append.mp ((liveTables_perm c x.tables).mem_iff.mp ht) with ht | ht
  · exact mem_tableRecords.mpr ⟨t, (mem_restOf.mp ht).1, hrt⟩
  · have hm : r ∈ outputRecords c.outputMemtables := by
      rw [← hout.tableRecords_eq]
      exact mem_tableRecords.mpr ⟨t, ht, hrt⟩
    obtain ⟨u, hu, hru⟩ := mem_tableRecords.mp ((hp.build.mem r).mp hm).1.mem
    exact mem_tableRecords.mpr ⟨u, (mem_inputsOf.mp hu).1, hru⟩

theorem PendingInv.live_distinct (hp : PendingInv ρ x c)
    (hd : DistinctRecords (tableRecords x.tables)) :
    DistinctRecords (tableRecords (restOf c x.tables) ++ outputRecords c.outputMemtables) := by
  have hsplit := distinct_split (c := c) hd
  refine List.pairwise_append.mpr ⟨(List.pairwise_append.mp hsplit).1,
    distinct_of_sorted hp.build.ascending, fun r hr s hs he => ?_⟩
  have := hp.newer r hr s ((hp.build.mem s).mp hs).1.mem he.1.symm
  have hq : r.sequence = s.sequence := he.2
  omega

/-- The records that are live afterwards, in some order. -/
theorem live_perm
    (hout : OutputReaders x.format c.firstOutputFileNumber c.outputMemtables c.publishedOutputs) :
    (tableRecords (restOf c x.tables) ++ outputRecords c.outputMemtables).Perm
      (tableRecords (liveTables c x.tables)) := by
  rw [← hout.tableRecords_eq, ← tableRecords_append]
  exact tableRecords_perm (liveTables_perm c x.tables).symm

/-- A compaction changes no value, also when tables were added while it was pending. -/
theorem PendingInv.shown_live (hp : PendingInv ρ x c)
    (hout : OutputReaders x.format c.firstOutputFileNumber c.outputMemtables c.publishedOutputs)
    (hd : DistinctRecords (tableRecords x.tables)) :
    shown (tableRecords (liveTables c x.tables)) = shown (tableRecords x.tables) := by
  funext k
  have hsplit := distinct_split (c := c) hd
  have hlive := newest_perm (hp.live_distinct hd) (live_perm hout) k
  have hall : (tableRecords (restOf c x.tables) ++ tableRecords (inputsOf c x.tables)).Perm
      (tableRecords x.tables) := by
    rw [← tableRecords_append]
    exact tableRecords_perm (List.perm_append_comm.trans (inputsOf_restOf_perm c x.tables))
  have hreplace := shown_replace (List.pairwise_append.mp hsplit).2.1 hp.build.ascending
    hp.build.mem (fun r hr s hs hk => (hp.newer r hr s hs hk).le) k
  unfold shown at hreplace ⊢
  rw [newestRecord, ← hlive, hreplace, newestRecord, newest_perm hsplit hall]

theorem OrderInv.compacted (h : OrderInv x) (hord : ρ.ordered) {c' : CompactionState}
    (hc : x.compaction = some c) (hun : c.versionPublished = false)
    (hpub : c'.versionPublished = true) (hp : PendingInv ρ x c) (hcand : CandidateInv ρ x c) :
    OrderInv (x.compacted c c') := by
  have hmem : ∀ r ∈ tableRecords (liveTables c x.tables), r ∈ tableRecords x.tables :=
    fun r hr => hp.live_mem hcand.outputs hr
  have hlast := hcand.last_le hord
  constructor
  case id_word => exact hcand.word hord
  case last_word => exact h.last_word
  case separate => exact hcand.separate hord
  case next_le =>
    show c.candidate.nextFileNumber ≤ if c.outputMemtables.isEmpty then _ else _
    split
    · rename_i hnil
      exact (hcand.next_le hord (by simpa using hnil)).trans h.next_le
    · exact le_refl _
  case frontier => exact hlast.trans h.frontier
  case tables => exact fun r hr => h.tables r (hmem r hr)
  case valid => exact h.valid
  case last => exact h.last
  case newest =>
    intro s hs
    obtain ⟨h1, h2, h3⟩ := h.newest s hs
    exact ⟨lt_of_le_of_lt hlast h1, fun r hr => h2 r (hmem r hr), h3⟩
  case immutable =>
    intro imm himm
    have hi := h.immutable imm himm
    refine ⟨hi.ne_nil, hi.generation_ne, hi.walPath, hi.maximum, hi.valid, hi.last,
      fun s hs r hr => hi.newest s hs r (hmem r hr), hi.pending, ?_, ?_, ?_⟩
    · intro himp s hs
      obtain ⟨h1, h2⟩ := hi.unpublished himp s hs
      exact ⟨lt_of_le_of_lt hlast h1, fun r hr => h2 r (hmem r hr)⟩
    · -- the table of the Immutable is no input
      intro himp
      obtain ⟨t, ht, hgen, hrec⟩ := hi.published himp
      refine ⟨t, (liveTables_perm c x.tables).mem_iff.mpr (List.mem_append_left _ ?_), hgen, hrec⟩
      refine mem_restOf.mpr ⟨ht, fun hm => ?_⟩
      have := hi.numbers c hc hun _ hm
      omega
    · intro d hd hdun
      obtain rfl := Option.some.inj hd
      rw [hpub] at hdun
      cases hdun

theorem ContentsInv.compacted (h : ContentsInv ρ x) {c' : CompactionState}
    (hc : x.compaction = some c) (hun : c.versionPublished = false)
    (hready : c.candidateReady = true) (hpub : c'.versionPublished = true)
    (hclean : ρ.durable → ∀ f ∈ c'.cleanupPaths, c.candidate.Obsolete f) :
    ContentsInv ρ (x.compacted c c') := by
  have hp := h.pending c hc hun
  have hcand := hp.ready hready
  constructor
  case accepted => exact h.accepted
  case version => exact hcand.valid
  case sorted => exact hcand.sorted
  case coherent =>
    intro t ht
    rcases List.mem_append.mp ((liveTables_perm c x.tables).mem_iff.mp ht) with ht | ht
    · exact h.coherent t (mem_restOf.mp ht).1
    · exact hcand.outputs.coherent t ht
  case distinct => exact (hp.live_distinct h.distinct).perm (live_perm hcand.outputs)
  case aligned => exact hcand.aligned
  case pending =>
    intro d hd hdun
    obtain rfl := Option.some.inj hd
    rw [hpub] at hdun
    cases hdun
  case cleanup =>
    intro hdur d hd _
    obtain rfl := Option.some.inj hd
    exact hclean hdur
  case order => exact fun hord => (h.order hord).compacted hord hc hun hpub hp hcand
  case planned =>
    intro hpl
    refine ⟨aligned_candidate hp.aligned (hcand.planned hpl), fun imm himm => ?_⟩
    have hi : x.immutable = some imm := himm
    rw [(hp.planned hpl).2.1] at hi
    cases hi

theorem Contents.view_compacted (h : ContentsInv ρ x) {c' : CompactionState}
    (hc : x.compaction = some c) (hun : c.versionPublished = false)
    (hready : c.candidateReady = true) : (x.compacted c c').view = x.view := by
  have hp := h.pending c hc hun
  have hshown := hp.shown_live (hp.ready hready).outputs h.distinct
  unfold Contents.view Contents.below
  show overlay x.mutableTable.entries (overlay x.immutableRecords
    (shown (tableRecords (liveTables c x.tables)))) = _
  rw [hshown]

/-- The plan of a compaction, with its outputs written. -/
theorem ContentsInv.written (h : ContentsInv ρ x) (hpl : ρ.planned) (hc : x.compaction = some c)
    (hun : c.versionPublished = false)
    (hout : OutputReaders x.format c.firstOutputFileNumber c.outputMemtables c.publishedOutputs) :
    Written x.format x.version x.tables c := by
  have hplan := ((h.pending c hc hun).planned hpl).1
  refine ⟨hplan, ?_⟩
  rw [← hplan.first]
  exact hout

end MiniKV
