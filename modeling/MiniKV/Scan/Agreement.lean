import MiniKV.Interleavings
import MiniKV.Scan.Prefix

/-!
# Scans and point reads agree

`Get` asks one layer after the other and stops at the first that has the key;
`Scan` merges all layers by sequence number. In every state that a database gets
into they show the same map, unless a flush has published its table and still has
its Immutable: then the table and the Immutable have the same records.
-/

namespace MiniKV

open Lib

/-- No table has been published whose records are also in the Immutable. -/
def Database.Separated (db : Database) : Prop :=
  ∀ imm, db.immutable = some imm → imm.versionPublished = false

section

variable {ρ : Regime} {db : Database}

theorem Database.scanRecords_eq (db : Database) : db.scanRecords =
    db.mutableTable.entries ++ (db.contents.immutableRecords ++ tableRecords db.tables) := by
  unfold Database.scanRecords Contents.immutableRecords Database.contents
  cases db.immutable with
  | none => rfl
  | some imm => rfl

/-- The records of a layer in front of others show through. -/
theorem shown_append_of_lt {rs ss : List Record} (hrs : Ascending rs)
    (hlt : ∀ r ∈ rs, ∀ s ∈ ss, s.sequence < r.sequence) :
    shown (rs ++ ss) = overlay rs (shown ss) := by
  funext k
  have hnewest : newestRecord k (rs ++ ss) = (findKey rs k).or (newestRecord k ss) := by
    rw [← newestRecord_of_ascending hrs]
    exact newest_append_of_le (fun r hr _ s hs _ => (hlt r hr s hs).le)
  unfold shown overlay
  rw [hnewest]
  cases findKey rs k with
  | none => rfl
  | some r => rfl

theorem distinctRecords_append {rs ss : List Record} (hrs : Ascending rs)
    (hss : DistinctRecords ss) (hlt : ∀ r ∈ rs, ∀ s ∈ ss, s.sequence < r.sequence) :
    DistinctRecords (rs ++ ss) := by
  apply List.pairwise_append.mpr
  refine ⟨distinct_of_sorted hrs, hss, fun r hr s hs heq => ?_⟩
  have h := hlt r hr s hs
  omega

theorem Contents.immutableRecords_ascending (x : Contents) : Ascending x.immutableRecords := by
  unfold Contents.immutableRecords
  cases x.immutable with
  | none => exact List.Pairwise.nil
  | some imm => exact imm.memtable.ascending

/-- The records of an Immutable that is not published are newer than all tables. -/
theorem OrderInv.immutable_newer (h : OrderInv db.contents) (hsep : db.Separated) :
    ∀ r ∈ db.contents.immutableRecords, ∀ s ∈ tableRecords db.tables,
      s.sequence < r.sequence := by
  intro r hr s hs
  unfold Contents.immutableRecords at hr
  cases himm : db.contents.immutable with
  | none =>
    rw [himm] at hr
    cases hr
  | some imm =>
    rw [himm] at hr
    exact ((h.immutable imm himm).unpublished (hsep imm himm) r hr).2 s hs

theorem OrderInv.mutable_newer (h : OrderInv db.contents) :
    ∀ r ∈ db.mutableTable.entries, ∀ s ∈ db.contents.immutableRecords ++ tableRecords db.tables,
      s.sequence < r.sequence := by
  intro r hr s hs
  obtain ⟨-, htables, himm⟩ := h.newest r hr
  rcases List.mem_append.mp hs with hs | hs
  · exact himm s hs
  · exact htables s hs

theorem OrderInv.immutable_valid (h : OrderInv db.contents) :
    ∀ r ∈ db.contents.immutableRecords, r.Valid db.format := by
  intro r hr
  unfold Contents.immutableRecords at hr
  cases himm : db.contents.immutable with
  | none =>
    rw [himm] at hr
    cases hr
  | some imm =>
    rw [himm] at hr
    exact (h.immutable imm himm).valid r hr

/-- The merged records show what the layers show. -/
theorem ContentsInv.shown_scanRecords (h : ContentsInv ρ db.contents) (hord : ρ.ordered)
    (hsep : db.Separated) : shown db.scanRecords = db.contents.view := by
  have ho := h.order hord
  rw [db.scanRecords_eq, shown_append_of_lt db.mutableTable.ascending ho.mutable_newer]
  rw [shown_append_of_lt db.contents.immutableRecords_ascending (ho.immutable_newer hsep)]
  rfl

/-- The layers of a running database can be merged. -/
theorem ContentsInv.scanSnapshot (h : ContentsInv ρ db.contents) (hord : ρ.ordered)
    (hrun : db.state = .running) (hsep : db.Separated) : ScanSnapshot db := by
  have ho := h.order hord
  constructor
  case accepted => exact h.accepted
  case running => simp [Database.isRunning, hrun]
  case ascending => exact fun t ht => (h.coherent t ht).ascending
  case between =>
    intro t ht r hr
    have hc := h.coherent t ht
    exact ⟨hc.minimumKey_le hr, hc.le_maximumKey hr⟩
  case keys =>
    have hvalid : ∀ r ∈ db.scanRecords, r.Valid db.format := by
      intro r hr
      rw [db.scanRecords_eq] at hr
      rcases List.mem_append.mp hr with hr | hr
      · exact ho.valid r hr
      · rcases List.mem_append.mp hr with hr | hr
        · exact ho.immutable_valid r hr
        · obtain ⟨t, ht, hr⟩ := mem_tableRecords.mp hr
          exact (h.coherent t ht).valid r hr
    intro r hr
    exact ⟨List.length_pos_iff.mp (hvalid r hr).key_pos, (hvalid r hr).key_le⟩
  case distinct =>
    rw [db.scanRecords_eq]
    apply distinctRecords_append db.mutableTable.ascending _ ho.mutable_newer
    exact distinctRecords_append db.contents.immutableRecords_ascending h.distinct
      (ho.immutable_newer hsep)
  case version_word => exact ho.id_word
  case sequence_word => exact ho.last_word

/-- A read finds no value under a key that is not valid. -/
theorem Database.get_invalid {k : Bytes} (hk : ¬ ValidKey db.format k) (v : Bytes) :
    ¬ Answers (some v) (db.get k) := by
  have hbad : (MemTable.validate db.format k []).isOk = false := by
    rw [← Bool.not_eq_true, MemTable.validate_isOk]
    exact fun h => hk ⟨h.1, h.2.1⟩
  have hcode : (MemTable.validate db.format k []).isNotFound = false := by
    unfold MemTable.validate
    split
    · rfl
    · split <;> rfl
  intro hv
  have hok : (db.get k).status.isOk = true := by
    rw [hv.1]
    rfl
  unfold Database.get at hok
  split at hok
  · cases hok
  · unfold MemTable.lookup at hok
    simp [hbad, hcode, userVisible, LookupResult.deleted] at hok

theorem shown_eq_some {rs : List Record} (hrs : DistinctRecords rs) {k v : Bytes} :
    shown rs k = some v ↔
      ∃ r, IsNewest Record.key Record.sequence rs k r ∧ r.type = .value ∧ r.value = v := by
  unfold shown
  rw [Option.bind_eq_some_iff]
  constructor
  · intro h
    obtain ⟨r, hr, hv⟩ := h
    cases ht : r.type with
    | value =>
      rw [Record.visible, ht] at hv
      exact ⟨r, (newest_eq_some hrs).mp hr, ht, Option.some.inj hv⟩
    | deletion =>
      rw [Record.visible, ht] at hv
      cases hv
  · intro h
    obtain ⟨r, hr, ht, hv⟩ := h
    refine ⟨r, (newest_eq_some hrs).mpr hr, ?_⟩
    rw [Record.visible, ht, ← hv]

/-- The entries of a range are what `Get` shows of its keys. -/
theorem ContentsInv.visible_iff (h : ContentsInv ρ db.contents) (hord : ρ.ordered)
    (hrun : db.state = .running) (hsep : db.Separated) {bounds : ScanBounds}
    {es : List ScanEntry} (hes : Visible db.scanRecords bounds.contains es) (k v : Bytes) :
    ⟨k, v⟩ ∈ es ↔ bounds.contains k = true ∧ Answers (some v) (db.get k) := by
  have hs := h.scanSnapshot hord hrun hsep
  rw [hes.mem, ← shown_eq_some hs.distinct, h.shown_scanRecords hord hsep]
  apply and_congr_right
  intro _
  by_cases hk : ValidKey db.format k
  · have hget := Database.get_answers h hrun hk
    constructor
    · intro hv
      rw [hv] at hget
      exact hget
    · intro hv
      exact hget.unique hv
  · apply iff_of_false _ (Database.get_invalid hk v)
    intro hv
    rw [← h.shown_scanRecords hord hsep, shown_eq_some hs.distinct] at hv
    obtain ⟨r, hr, -⟩ := hv
    have hkey := hs.keys r hr.mem
    rw [hr.key_eq] at hkey
    exact hk hkey

end

/-- In every state of one open database over any interleaving, in either mode and whatever calls
of the environment fail, unless a published flush still has its Immutable: the pages of a scan,
each continued with the token of the one before, cut into pieces the list of exactly the keys of
the range on which `Get` finds a value, with that value, in ascending order. Only a token that
does not fit into its format is in the way. -/
theorem scan_agrees_get {shape : BloomShape} {crashes : Bool} {o : FormatOptions}
    {before steps : List WorldEvent}
    (hbefore : World.empty.along (fileFormat shape) (disciplined crashes)
      before = true)
    (ho : ∀ e ∈ before, e.Within (· = o)) (hsteps : ∀ e ∈ steps, e.Inside) {w₁ w₂ : World}
    (hw₁ : w₁ = World.empty.run (fileFormat shape) before)
    (hw₂ : w₂ = w₁.run (fileFormat shape) steps) {inst₁ inst₂ : Instance}
    (h₁ : w₁.current = some inst₁) (h₂ : w₂.current = some inst₂)
    (hrun : inst₂.db.state = .running) (hsep : inst₂.db.Separated) {bounds : ScanBounds}
    (hb : bounds.Valid inst₂.db.options) {limits : List Nat}
    (hlimits : ∀ l ∈ limits, 0 < l ∧ l ≤ inst₂.db.options.maximumScanEntries) :
    ∃ es : List ScanEntry, es.Pairwise (fun a b => a.key < b.key) ∧
      (∀ k v, ⟨k, v⟩ ∈ es ↔ bounds.contains k = true ∧ Answers (some v) (inst₂.db.get k)) ∧
      (TokensFit bounds es limits →
        ∃ pages, inst₂.db.scanPages bounds limits [] = .ok pages ∧ Paginates es limits pages) := by
  obtain ⟨-, hlater⟩ := Held.later hbefore ho hsteps hw₁ hw₂ h₁ h₂
  have hinv := hlater.joint.steady.inv.contents
  have hs := hinv.scanSnapshot trivial hrun hsep
  obtain ⟨es, hvisible, hresumes⟩ := resumes_start hs hb
  refine ⟨es, hvisible.ascending, fun k v => ?_, fun hfit => ?_⟩
  · exact hinv.visible_iff trivial hrun hsep hvisible k v
  · exact (hresumes.scanPages_iff hs hb hlimits).mpr hfit

/-- The hypotheses hold while the worker publishes the first of two writes: the one is in the
Immutable and the other in the Mutable. -/
theorem scan_agrees_get_busyWorker : ∃ inst : Instance,
    (World.run (fileFormat byteShape) (World.empty.run (fileFormat byteShape) openedWorker)
      (busyWorker.take 4)).current = some inst ∧ inst.db.immutable.isSome ∧
    ∃ es : List ScanEntry, es.Pairwise (fun a b => a.key < b.key) ∧
      (∀ k v, ⟨k, v⟩ ∈ es ↔
        ScanBounds.contains ⟨[], none⟩ k = true ∧ Answers (some v) (inst.db.get k)) ∧
      ∃ pages, inst.db.scanPages ⟨[], none⟩ [1, 1, 1] [] = .ok pages ∧
        Paginates es [1, 1, 1] pages := by
  obtain ⟨inst₁, h₁, -⟩ := World.running_of_state
    (w := World.empty.run (fileFormat byteShape) openedWorker) (by decide +kernel)
  have hstate : (World.run (fileFormat byteShape)
      (World.empty.run (fileFormat byteShape) openedWorker) (busyWorker.take 4)).current.any
      (fun inst => decide (inst.db.state = .running) && decide (1 ≤ inst.db.options.maximumScanEntries)
        && decide (inst.db.options.maxKeySize ≤ 64 * 1024)
        && inst.db.immutable.any (fun imm => !imm.versionPublished)) = true := by
    decide +kernel
  obtain ⟨inst₂, h₂, hstate⟩ := (Option.any_eq_true _ _).mp hstate
  simp only [Bool.and_eq_true, decide_eq_true_eq] at hstate
  obtain ⟨⟨⟨hrun, hentries⟩, hkeys⟩, himm⟩ := hstate
  obtain ⟨imm, himm, hpublished⟩ := (Option.any_eq_true _ _).mp himm
  have hinside : ∀ e ∈ busyWorker.take 4, e.Inside :=
    fun e he => busyWorker_inside e (List.mem_of_mem_take he)
  have hsep : inst₂.db.Separated := by
    intro imm' himm'
    rw [← Option.some.inj (himm.symm.trans himm')]
    simpa using hpublished
  have hlimits : ∀ l ∈ [1, 1, 1], 0 < l ∧ l ≤ inst₂.db.options.maximumScanEntries := by
    intro l hl
    have hone : l = 1 := by simpa using hl
    rw [hone]
    exact ⟨Nat.one_pos, hentries⟩
  have hb : (ScanBounds.mk [] none).Valid inst₂.db.options :=
    ⟨Nat.zero_le _, Nat.zero_le _, fun e he => absurd he (Option.not_mem_none e)⟩
  obtain ⟨es, hasc, hmem, hpages⟩ := scan_agrees_get openedWorker_along openedWorker_within hinside
    rfl rfl h₁ h₂ hrun hsep hb hlimits
  -- `Get` finds no key that is too long
  have hshort : ∀ e ∈ es, e.key.length ≤ 64 * 1024 := by
    intro e he
    have hvalid : ValidKey inst₂.db.format e.key := by
      by_contra hk
      exact Database.get_invalid hk e.value ((hmem e.key e.value).mp he).2
    exact hvalid.2.trans hkeys
  exact ⟨inst₂, h₂, by rw [himm]; rfl, es, hasc, hmem,
    hpages (TokensFit.of_keys (by decide) hshort _)⟩

end MiniKV
