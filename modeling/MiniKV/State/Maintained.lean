import MiniKV.State.Stored

/-!
# The disk follows the maintenance of a database

Each change of an image that a flush or a compaction makes, and each change of
the contents that follows it, keeps `Stored`.
-/

namespace MiniKV

open Lib

variable {F : StorageFormat} {ρ : Regime} {x : Contents} {w : Option WalWriter} {H : List Label}
  {m : Image} {T I D M X : List Entry}

/-! ## Changing images -/

theorem Files.update {o : FormatOptions} {ts : List SSTableReader} (h : Files F o m ts)
    {f : FileName} (hf : ∀ t ∈ ts, .sst t.generation ≠ f) (v : Option (Volatile Bytes)) :
    Files F o (Function.update m f v) ts := by
  intro t ht
  obtain ⟨b, hb, ho⟩ := h t ht
  exact ⟨b, by rw [Function.update_of_ne (hf t ht)]; exact hb, ho⟩

theorem ManifestIs.update {o : FormatOptions} {u : Version} (h : ManifestIs F o m u)
    {f : FileName} (hf : FileName.manifest ≠ f) (v : Option (Volatile Bytes)) :
    ManifestIs F o (Function.update m f v) u := by
  obtain ⟨b, hb, hm⟩ := h
  exact ⟨b, hb, by rw [Function.update_of_ne hf]; exact hm⟩

/-- The tables and the MANIFEST that an image has to show. -/
structure TablesStored (F : StorageFormat) (x : Contents) (m : Image) : Prop where
  manifest : ManifestIs F x.format m x.version ∨
    ∃ v ts, Candidate x v ts ∧ ManifestIs F x.format m v
  files : Files F x.format m x.tables
  pendingFile : ∀ imm t, x.immutable = some imm → imm.pendingTable = some t →
    Files F x.format m [t]
  outputFiles : ∀ c, x.compaction = some c → c.versionPublished = false →
    Files F x.format m c.publishedOutputs

theorem Stored.tablesStored (h : Stored F ρ x w H m T I D M X) : TablesStored F x m :=
  ⟨h.manifest, h.files, h.pendingFile, h.outputFiles⟩

/-- No table that is live or about to be has the file number. -/
structure Contents.Unused (x : Contents) (g : Nat) : Prop where
  tables : ∀ t ∈ x.tables, t.generation ≠ g
  pending : ∀ imm t, x.immutable = some imm → imm.pendingTable = some t → t.generation ≠ g
  outputs : ∀ c, x.compaction = some c → c.versionPublished = false →
    ∀ t ∈ c.publishedOutputs, t.generation ≠ g

theorem TablesStored.update_sst (h : TablesStored F x m) {g : Nat} (hf : x.Unused g)
    (v : Option (Volatile Bytes)) : TablesStored F x (Function.update m (.sst g) v) := by
  have hne : ∀ {t : SSTableReader}, t.generation ≠ g → FileName.sst t.generation ≠ .sst g := by
    intro t ht he
    exact ht (FileName.sst.inj he)
  refine ⟨?_, h.files.update (fun t ht => hne (hf.tables t ht)) v, ?_, ?_⟩
  · rcases h.manifest with hm | ⟨u, ts, hc, hm⟩
    · exact Or.inl (hm.update (by simp) v)
    · exact Or.inr ⟨u, ts, hc, hm.update (by simp) v⟩
  · intro imm t himm ht
    refine (h.pendingFile imm t himm ht).update (fun u hu => ?_) v
    rw [List.mem_singleton.mp hu]
    exact hne (hf.pending imm t himm ht)
  · intro c hc hun
    exact (h.outputFiles c hc hun).update (fun t ht => hne (hf.outputs c hc hun t ht)) v

theorem TablesStored.update_wal (h : TablesStored F x m) (n : Nat) (v : Option (Volatile Bytes)) :
    TablesStored F x (Function.update m (.wal n) v) := by
  have hfiles : ∀ {ts : List SSTableReader}, Files F x.format m ts →
      Files F x.format (Function.update m (.wal n) v) ts :=
    fun hts => hts.update (fun t _ => by simp) v
  refine ⟨?_, hfiles h.files, fun imm t himm ht => hfiles (h.pendingFile imm t himm ht),
    fun c hc hun => hfiles (h.outputFiles c hc hun)⟩
  rcases h.manifest with hm | ⟨u, ts, hc, hm⟩
  · exact Or.inl (hm.update (by simp) v)
  · exact Or.inr ⟨u, ts, hc, hm.update (by simp) v⟩

theorem TablesStored.update_manifest (h : TablesStored F x m) {u : Version}
    {ts : List SSTableReader} (hc : Candidate x u ts) {b : Bytes}
    (hb : F.encodeManifest x.format u = .ok b) :
    TablesStored F x (Function.update m .manifest (some (.stable b))) := by
  have hfiles : ∀ {ts : List SSTableReader}, Files F x.format m ts →
      Files F x.format (Function.update m .manifest (some (.stable b))) ts :=
    fun hts => hts.update (fun t _ => by simp) _
  exact ⟨Or.inr ⟨u, ts, hc, b, hb, Function.update_self _ _ _⟩, hfiles h.files,
    fun imm t himm ht => hfiles (h.pendingFile imm t himm ht),
    fun c hc hun => hfiles (h.outputFiles c hc hun)⟩

/-- An image with the same logs, and the tables that it has to show. -/
theorem Stored.of_logs {m' : Image} (h : Stored F ρ x w H m T I D M X)
    (ht : TablesStored F x m')
    (hwal : ∀ n, x.version.nextFileNumber ≤ n → m' (.wal n) = m (.wal n))
    (hnext : x.version.nextFileNumber ≤ x.mutableGeneration) :
    Stored F ρ x w H m' T I D M X := by
  have hactive := hwal _ hnext
  refine { h with manifest := ht.manifest, files := ht.files, pendingFile := ht.pendingFile,
                  outputFiles := ht.outputFiles, frozen := ?_,
                  sealed := by rw [hactive]; exact h.sealed,
                  log := by rw [hactive]; exact h.log, numbers := ?_,
                  detached := by rw [hactive]; exact h.detached,
                  attached := by rw [hactive]; exact h.attached,
                  clean := by rw [hactive]; exact h.clean }
  · intro imm himm hun
    have hfr := h.frozen imm himm hun
    exact { hfr with log := by rw [hwal _ hfr.generation.ge]; exact hfr.log }
  · intro n hn
    rw [hwal n (hnext.trans hn.le)]
    exact h.numbers n hn

/-- A file that belongs to no table may come and go. -/
theorem Stored.update_sst (h : Stored F ρ x w H m T I D M X)
    (hnext : x.version.nextFileNumber ≤ x.mutableGeneration) {g : Nat} (hf : x.Unused g)
    (v : Option (Volatile Bytes)) :
    Stored F ρ x w H (Function.update m (.sst g) v) T I D M X :=
  h.of_logs (h.tablesStored.update_sst hf v) (fun _ _ => Function.update_of_ne (by simp) _ _) hnext

/-- An obsolete log may go. -/
theorem Stored.remove_wal (h : Stored F ρ x w H m T I D M X)
    (hnext : x.version.nextFileNumber ≤ x.mutableGeneration) {n : Nat}
    (hn : n < x.version.nextFileNumber) :
    Stored F ρ x w H (Function.update m (.wal n) none) T I D M X := by
  refine h.of_logs (h.tablesStored.update_wal n none) (fun k hk => ?_) hnext
  refine Function.update_of_ne ?_ _ _
  intro he
  have := FileName.wal.inj he
  omega

/-- The MANIFEST may become the candidate. -/
theorem Stored.update_manifest (h : Stored F ρ x w H m T I D M X)
    (hnext : x.version.nextFileNumber ≤ x.mutableGeneration) {u : Version}
    {ts : List SSTableReader} (hc : Candidate x u ts) {b : Bytes}
    (hb : F.encodeManifest x.format u = .ok b) :
    Stored F ρ x w H (Function.update m .manifest (some (.stable b))) T I D M X :=
  h.of_logs (h.tablesStored.update_manifest hc hb)
    (fun _ _ => Function.update_of_ne (by simp) _ _) hnext

/-- The next log may be created while none is open, once what is frozen is synced. -/
theorem Stored.create_wal (h : Stored F ρ x none H m T I D M X) (hD : D = [])
    (hI : ρ.Seals I) :
    Stored F ρ x none H (Function.update m (.wal x.mutableGeneration) (some (.stable [])))
      T I D M X := by
  obtain ⟨hM, hX, -⟩ := h.detached rfl
  have ht := h.tablesStored.update_wal x.mutableGeneration (some (.stable []))
  have hother : ∀ n, n ≠ x.mutableGeneration →
      Function.update m (.wal x.mutableGeneration) (some (.stable [])) (.wal n) = m (.wal n) := by
    intro n hn
    refine Function.update_of_ne (fun he => hn (FileName.wal.inj he)) _ _
  have hself : Function.update m (.wal x.mutableGeneration) (some (.stable []))
      (.wal x.mutableGeneration) = some (.stable []) := Function.update_self _ _ _
  refine { h with manifest := ht.manifest, files := ht.files, pendingFile := ht.pendingFile,
                  outputFiles := ht.outputFiles, frozen := ?_, sealed := fun _ => ⟨hD, hI⟩,
                  log := ?_, numbers := ?_, detached := ?_, attached := fun hn => absurd rfl hn,
                  clean := fun w' hw' => by cases hw' }
  · intro imm himm hun
    have hfr := h.frozen imm himm hun
    have hne : imm.generation ≠ x.mutableGeneration := by
      have := hfr.active
      omega
    exact { hfr with log := by rw [hother _ hne]; exact hfr.log }
  · intro v hv
    rw [hself] at hv
    obtain rfl := Option.some.inj hv
    rw [hM, hX]
    exact LogFile.stable_clean []
  · intro n hn
    rw [hother n hn.ne']
    exact h.numbers n hn
  · intro _
    refine ⟨hM, hX, fun v hv => ?_⟩
    rw [hself] at hv
    exact (Option.some.inj hv).symm

/-! ## Changing the contents -/

/-- The log that was found or created is open for appends. -/
theorem Stored.attach (h : Stored F ρ x none H m T I D M X)
    (hm : m (.wal x.mutableGeneration) ≠ none) (file : Inode) :
    Stored F ρ x (some { file := file }) H m T I D M X := by
  obtain ⟨hM, hX, hstable⟩ := h.detached rfl
  refine { h with detached := fun hn => (by cases hn), attached := fun _ => hm, clean := ?_ }
  intro w' hw' _
  refine ⟨hX, fun v hv => ?_⟩
  rw [hstable v hv, hM]
  rfl

/-- The log is not used any more once an append to it has failed. -/
theorem Stored.spoil {w' : WalWriter} (h : Stored F ρ x (some w') H m T I D M X) {e : Status}
    (he : e.isOk = false) : Stored F ρ x (some { w' with status := e }) H m T I D M X := by
  refine { h with detached := fun hn => (by cases hn),
                  attached := fun _ => h.attached (by simp), clean := ?_ }
  intro w'' hw'' hok
  obtain rfl := Option.some.inj hw''
  rw [he] at hok
  cases hok

theorem Stored.setPending {imm : ImmutableGeneration} {t : SSTableReader}
    (h : Stored F ρ x w H m T I D M X) (himm : x.immutable = some imm)
    (hun : imm.versionPublished = false) (hnone : imm.pendingTable = none)
    (hc : ∀ c, x.compaction = some c → c.versionPublished = true)
    (ht : Files F x.format m [t]) :
    Stored F ρ { x with immutable := some { imm with pendingTable := some t } } w H m
      T I D M X := by
  refine { h with manifest := ?_, pendingFile := ?_, frozen := ?_, thawed := ?_ }
  · refine Or.inl ?_
    rcases h.manifest with hm | ⟨u, ts, hcand, hm⟩
    · exact hm
    · -- without a table for the Immutable there is no candidate
      cases hcand with
      | flush himm' _ hp _ =>
        rw [himm] at himm'
        obtain rfl := Option.some.inj himm'
        rw [hnone] at hp
        cases hp
      | compaction hc' hcun _ =>
        rw [hc _ hc'] at hcun
        cases hcun
  · intro imm' t' himm' ht'
    obtain rfl := Option.some.inj himm'
    obtain rfl := Option.some.inj ht'
    exact ht
  · intro imm' himm' _
    obtain rfl := Option.some.inj himm'
    have hfr := h.frozen imm himm hun
    exact ⟨hfr.memtable, hfr.ne_nil, hfr.generation, hfr.active, hfr.room, hfr.log⟩
  · intro hall
    have := hall _ rfl
    rw [show ({ imm with pendingTable := some t } : ImmutableGeneration).versionPublished =
      imm.versionPublished from rfl, hun] at this
    cases this

/-- The log of a published Immutable is gone. -/
theorem Stored.setRemoved {imm : ImmutableGeneration} (h : Stored F ρ x w H m T I D M X)
    (himm : x.immutable = some imm) (hpub : imm.versionPublished = true) :
    Stored F ρ { x with immutable := some { imm with walRemovedAndSynced := true } } w H m
      T I D M X := by
  have hall : ∀ imm', x.immutable = some imm' → imm'.versionPublished = true := by
    intro imm' himm'
    rw [himm] at himm'
    obtain rfl := Option.some.inj himm'
    exact hpub
  refine { h with manifest := ?_, pendingFile := ?_, frozen := ?_, thawed := fun _ => h.thawed hall }
  · rcases h.manifest with hm | ⟨u, ts, hcand, hm⟩
    · exact Or.inl hm
    · cases hcand with
      | flush himm' hun _ _ =>
        rw [hall _ himm'] at hun
        cases hun
      | compaction hc hun hready => exact Or.inr ⟨_, _, .compaction hc hun hready, hm⟩
  · intro imm' t' himm' ht'
    obtain rfl := Option.some.inj himm'
    exact h.pendingFile imm t' himm ht'
  · intro imm' himm' hun
    obtain rfl := Option.some.inj himm'
    rw [show ({ imm with walRemovedAndSynced := true } : ImmutableGeneration).versionPublished =
      imm.versionPublished from rfl, hpub] at hun
    cases hun

/-- A published Immutable is let go. -/
theorem Stored.dropImmutable (h : Stored F ρ x w H m T I D M X)
    (hall : ∀ imm, x.immutable = some imm → imm.versionPublished = true) :
    Stored F ρ { x with immutable := none } w H m T I D M X := by
  refine { h with manifest := ?_, pendingFile := fun imm t himm => (by cases himm),
                  frozen := fun imm himm => (by cases himm), thawed := fun _ => h.thawed hall }
  rcases h.manifest with hm | ⟨u, ts, hcand, hm⟩
  · exact Or.inl hm
  · cases hcand with
    | flush himm hun _ _ =>
      rw [hall _ himm] at hun
      cases hun
    | compaction hc hun hready => exact Or.inr ⟨_, _, .compaction hc hun hready, hm⟩

/-- The Mutable is frozen; its log is that of the Immutable now. -/
theorem Stored.freeze {w' : WalWriter} (h : Stored F ρ x (some w') H m T I D M X)
    (himm : x.immutable = none) (hne : x.mutableTable.entries ≠ [])
    (hc : ∀ c, x.compaction = some c → c.versionPublished = true)
    (hroom : x.mutableGeneration ≠ maxUInt64) :
    Stored F ρ { x with
      immutable := some (.new x.mutableGeneration x.mutableTable)
      mutableGeneration := x.mutableGeneration + 1
      mutableTable := .empty } none H m T M X [] [] := by
  obtain ⟨rfl, rfl, hnext⟩ := h.thawed (fun imm hi => by rw [himm] at hi; cases hi)
  have hM : M ≠ [] := by
    intro he
    rw [h.mutable, he] at hne
    exact hne rfl
  have hnone : m (.wal (x.mutableGeneration + 1)) = none :=
    h.numbers _ (Nat.lt_succ_self _)
  obtain ⟨v, hv⟩ := Option.ne_none_iff_exists'.mp (h.attached (by simp))
  constructor
  case known => exact h.known
  case manifest =>
    refine Or.inl ?_
    rcases h.manifest with hm | ⟨u, ts, hcand, hm⟩
    · exact hm
    · cases hcand with
      | flush himm' _ _ _ =>
        rw [himm] at himm'
        cases himm'
      | compaction hc' hun _ =>
        rw [hc _ hc'] at hun
        cases hun
  case files => exact h.files
  case pendingFile =>
    intro imm t he ht
    obtain rfl := Option.some.inj he
    cases ht
  case outputFiles => exact h.outputFiles
  case aligned => exact h.aligned
  case flushed => exact h.flushed
  case mutable => rfl
  case frozen =>
    intro imm he _
    obtain rfl := Option.some.inj he
    exact ⟨h.mutable, hM, hnext.symm, rfl, hroom, v, hv, h.log v hv⟩
  case thawed =>
    intro hall
    have := hall _ rfl
    cases this
  case sealed => exact fun hn => absurd hnone hn
  case log =>
    intro v' hv'
    rw [show m (.wal (x.mutableGeneration + 1)) = some v' from hv'] at hnone
    cases hnone
  case numbers => exact fun n hn => h.numbers n (Nat.lt_of_succ_lt hn)
  case detached =>
    refine fun _ => ⟨rfl, rfl, fun v' hv' => ?_⟩
    rw [show m (.wal (x.mutableGeneration + 1)) = some v' from hv'] at hnone
    cases hnone
  case attached => exact fun hn => absurd rfl hn
  case clean => exact fun w'' hw'' => (by cases hw'')
  case follows =>
    have := h.follows
    simpa using this
  case last =>
    have := h.last
    simpa using this
  case admits =>
    have := h.admits
    simpa using this
  case admitsAll =>
    have := h.admitsAll
    simpa using this

/-- The Version with the table of the Immutable is published. -/
theorem Stored.flushed_contents {imm : ImmutableGeneration} {t : SSTableReader} {v : Version}
    (hinv : ContentsInv ρ x) (hord : ρ.ordered) (h : Stored F ρ x w H m T I D M X)
    (himm : x.immutable = some imm) (hun : imm.versionPublished = false)
    (hp : imm.pendingTable = some t)
    (happly : x.version.apply x.format (flushEditOf x.mutableGeneration imm t) = .ok v)
    (hman : ManifestIs F x.format m v) :
    Stored F ρ (x.flushed imm t v) w H m (T ++ I) [] [] M X := by
  have hv := flushedVersion_of_apply hinv.sorted happly
  constructor
  case known => exact h.known
  case manifest => exact Or.inl hman
  case files => exact h.files.append (h.pendingFile imm t himm hp)
  case pendingFile =>
    intro imm' t' he ht'
    obtain rfl := Option.some.inj he
    cases ht'
  case outputFiles => exact h.outputFiles
  case aligned => exact h.aligned.snoc hv.tables
  case flushed => exact h.flushed_next hinv hord himm hun hp happly
  case mutable => exact h.mutable
  case frozen =>
    intro imm' he hun'
    obtain rfl := Option.some.inj he
    cases hun'
  case thawed => exact fun _ => ⟨rfl, rfl, hv.next⟩
  case sealed => exact fun _ => ⟨rfl, ρ.seals_nil⟩
  case log => exact h.log
  case numbers => exact h.numbers
  case detached => exact h.detached
  case attached => exact h.attached
  case clean => exact h.clean
  case follows =>
    have := h.follows_next hinv hord himm hun happly
    show Follows F x.format v.lastSequence (recordsOf ([] ++ [] ++ M ++ X))
    simpa using this
  case last =>
    intro r hr
    refine h.last r ?_
    simp only [recordsOf_append, List.mem_append, recordsOf_nil, List.not_mem_nil, false_or]
      at hr ⊢
    tauto
  case admits =>
    have := h.admits
    simpa using this
  case admitsAll =>
    have := h.admits_dropped
    simpa using this

/-! ## Compaction -/

/-- While no candidate of a compaction is on its way the compaction may change. -/
theorem Stored.setCompaction {d : Option CompactionState} (h : Stored F ρ x w H m T I D M X)
    (hno : ∀ c, x.compaction = some c → c.versionPublished = false → c.candidateReady = false)
    (hout : ∀ c, d = some c → c.versionPublished = false → Files F x.format m c.publishedOutputs) :
    Stored F ρ { x with compaction := d } w H m T I D M X := by
  refine { h with manifest := ?_, outputFiles := hout, frozen := fun imm himm hun => ?_ }
  · rcases h.manifest with hm | ⟨u, ts, hcand, hm⟩
    · exact Or.inl hm
    · cases hcand with
      | flush himm hun hpend happly => exact Or.inr ⟨u, _, .flush himm hun hpend happly, hm⟩
      | compaction hc hun hready =>
        rw [hno _ hc hun] at hready
        cases hready
  · have hfr := h.frozen imm himm hun
    exact ⟨hfr.memtable, hfr.ne_nil, hfr.generation, hfr.active, hfr.room, hfr.log⟩

/-- The candidate of a compaction is published, and with outputs the log is given up. -/
theorem Stored.compacted_contents {c c' : CompactionState} (hinv : ContentsInv ρ x)
    (hpl : ρ.planned) (h : Stored F ρ x w H m T I D M X) (hc : x.compaction = some c)
    (hun : c.versionPublished = false) (hready : c.candidateReady = true)
    (hpub : c'.versionPublished = true) (hman : ManifestIs F x.format m c.candidate) :
    StoredIn F ρ (x.compacted c c') (if c.outputMemtables.isEmpty then w else none) H m := by
  obtain ⟨hw, he⟩ := hinv.written_candidate hpl hc hun hready
  obtain ⟨rfl, rfl, rfl, hnext⟩ := h.planned_empty hinv hpl hc hun
  obtain ⟨-, himm, -⟩ := (hinv.pending c hc hun).planned hpl
  have ha := (hinv.pending c hc hun).aligned
  have htables : TablesInv x.format c.candidate (liveTables c x.tables) := by
    rw [he]
    exact hw.tablesInv (hinv.tablesInv ha)
  obtain ⟨hcnext, hclast⟩ := hinv.candidate_fields hpl hc hun hready
  have hflushed := h.flushed_compacted hinv hpl hc hun hready
  have hfiles := h.files_live hc hun
  have hfollows := h.follows
  have hall := h.admitsAll
  have hunpub : ∀ d, some c' = some d → d.versionPublished = false →
      Files F x.format m d.publishedOutputs := by
    intro d hd hdun
    obtain rfl := Option.some.inj hd
    rw [hpub] at hdun
    cases hdun
  have hnoImm : ∀ imm, x.immutable = some imm → False := by
    intro imm hi
    rw [himm] at hi
    cases hi
  unfold Contents.compacted
  by_cases hnil : c.outputMemtables = []
  · rw [hnil, List.length_nil, Nat.add_zero, hnext] at hcnext
    rw [if_pos (by simp [hnil]), if_pos (by simp [hnil])]
    exact ⟨T, [], [], [], X, { h with
      manifest := Or.inl hman
      files := hfiles
      outputFiles := hunpub
      aligned := htables.aligned
      flushed := hflushed
      frozen := fun imm hi => (hnoImm imm hi).elim
      thawed := fun _ => ⟨rfl, rfl, hcnext⟩
      follows := by rw [hclast]; exact hfollows }⟩
  · have hpos : 0 < c.outputMemtables.length := List.length_pos_iff.mpr hnil
    rw [if_neg (by simpa using hnil), if_neg (by simpa using hnil)]
    have hgone : ∀ n, c.candidate.nextFileNumber ≤ n → m (.wal n) = none :=
      fun n hn => h.numbers n (by omega)
    have hnone := hgone _ (le_refl _)
    refine ⟨T, [], [], [], [], ?_⟩
    constructor
    case known => exact h.known
    case manifest => exact Or.inl hman
    case files => exact hfiles
    case pendingFile => exact h.pendingFile
    case outputFiles => exact hunpub
    case aligned => exact htables.aligned
    case flushed => exact hflushed
    case mutable => exact h.mutable
    case frozen => exact fun imm hi => (hnoImm imm hi).elim
    case thawed => exact fun _ => ⟨rfl, rfl, rfl⟩
    case sealed => exact fun hn => absurd hnone hn
    case log =>
      intro v hv
      have hv' : m (.wal c.candidate.nextFileNumber) = some v := hv
      rw [hnone] at hv'
      cases hv'
    case numbers => exact fun n hn => hgone n (le_of_lt hn)
    case detached =>
      refine fun _ => ⟨rfl, rfl, fun v hv => ?_⟩
      have hv' : m (.wal c.candidate.nextFileNumber) = some v := hv
      rw [hnone] at hv'
      cases hv'
    case attached => exact fun hn => absurd rfl hn
    case clean => exact fun w' hw' => (by cases hw')
    case follows => trivial
    case last => exact fun r hr => (by cases hr)
    case admits => exact h.admits
    case admitsAll =>
      have := h.admits
      simpa using this

end MiniKV
