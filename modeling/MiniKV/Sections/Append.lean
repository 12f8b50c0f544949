import MiniKV.Sections.Locked

/-!
# `WalWriter::Append`

While a record is being appended the writer counts as spoiled: what holds then
holds of a database whose log is not used any more. Only when the append is
seen to have succeeded is the writer good again, and the record is committed.
-/

namespace MiniKV

open Lib

section

variable {F : StorageFormat} {ρ : Regime} {σ : Scene} {db : Database} {st : Store} {q : Prop}
  {w : WalWriter} {r : Record} {e : Status} {mode : SyncMode}

/-! ## Another content of the log -/

theorem Topped.of_manifest {o : FormatOptions} {st' : Store} (h : Topped F o st)
    (ht : st'.trace = st.trace)
    (hm : currentImage st' .manifest = currentImage st .manifest) : Topped F o st' := by
  intro u hu
  rw [ht] at hu
  obtain ⟨v, ⟨b, hb, hv⟩, hle⟩ := h u hu
  exact ⟨v, ⟨b, hb, hm.trans hv⟩, hle⟩

/-- The file of a log is not the MANIFEST. -/
theorem WalFile.image_manifest {i : Inode} (h : WalFile i st.disk) (v : Volatile Bytes) {δ : Dir}
    (hδ : δ ∈ st.disk.dir.states) :
    image (st.disk.setFile i v) δ .manifest = image st.disk δ .manifest := by
  rw [image_of_core rfl, image_of_core rfl]
  cases hl : Dir.lookup δ .manifest with
  | none => rfl
  | some j =>
    have hne : j ≠ i := by
      rintro rfl
      obtain ⟨n, hn⟩ := h.named δ hδ _ hl
      cases hn
    rw [Option.map_some, Option.map_some, Disk.setFile_files v hne]

theorem Inv.setLog (h : Inv F ρ σ db st) (hw : db.wal = some w) {v : Volatile Bytes}
    (hsmall : ∀ c ∈ v.states, c.length ≤ maximumFileSize)
    (hlen : (st.disk.files w.file).current.length ≤ v.current.length)
    (hstored : ρ.durable → Everywhere (StoredIn F ρ db.contents db.wal st.history)
      (st.onDisk (·.setFile w.file v))) :
    Inv F ρ σ db (st.onDisk (·.setFile w.file v)) := by
  have hfile := h.wal w hw
  refine h.step (h.wf.setFile hsmall) rfl ?_ ?_ (fun w' hw' => ⟨(h.wal w' hw').lt,
    (h.wal w' hw').named⟩) h.linked hstored (fun ht => ?_)
  · intro hord δ hδ u hu
    refine h.manifests hord δ hδ u ?_
    rw [← hu]
    exact (hfile.image_manifest v hδ).symm
  · rw [hw]
    show _ ≤ ((st.disk.setFile w.file v).files w.file).current.length
    rw [Disk.setFile_files_self]
    exact hlen
  · obtain ⟨hj, hcur, htop⟩ := h.traced ht
    exact ⟨hj, hcur, htop.of_manifest rfl
      (hfile.image_manifest v (Volatile.current_mem_states _))⟩

/-! ## Stages of an append -/

/-- The members while a record is appended, or after an append that failed. -/
def Database.doubt (db : Database) (w : WalWriter) (e : Status) : Database :=
  { db with lastSequence := db.lastSequence + 1, wal := some { w with status := e } }

/-- The members once the record is in the log and in the Mutable. -/
def Database.wrote (db : Database) (r : Record) : Database :=
  { db with lastSequence := db.lastSequence + 1, mutableTable := db.mutableTable.insert r }

def Scene.raise (σ : Scene) : Scene := { σ with lastSequence := σ.lastSequence + 1 }

def Scene.doubt (σ : Scene) (r : Record) : Scene :=
  { σ.raise with history := .inDoubt r :: σ.history }

def Scene.wrote (σ : Scene) (r : Record) (mode : SyncMode) : Scene :=
  { σ.raise with
    view := Function.update σ.view r.key r.visible
    history := .appended r mode :: σ.history }

theorem Inv.raise (h : Inv F ρ σ db st) (hroom : db.lastSequence ≠ maxUInt64) :
    Inv F ρ σ.raise { db with lastSequence := db.lastSequence + 1 } st := by
  refine h.setMembers ?_ rfl (h.contents.raise hroom) (fun hord => h.size hord)
    (fun w hw => ⟨rfl, w, hw, rfl⟩) (fun hd δ hδ => ?_) (fun ht => (h.traced ht).current)
  · rw [← h.scene]
    rfl
  · obtain ⟨T, I, D, M, X, hs⟩ := h.stored hd δ hδ
    exact ⟨T, I, D, M, X, hs.raise (Nat.le_succ _)⟩

theorem Inv.history_eq (h : Inv F ρ σ db st) : σ.history = st.history := by
  rw [← h.scene]
  rfl

theorem Inv.doubt (h : Inv F ρ σ db st) (hw : db.wal = some w)
    (hroom : db.lastSequence ≠ maxUInt64) (he : e.isOk = false)
    (hr : ρ.writes st.history r mode) :
    Inv F ρ (σ.doubt r) (db.doubt w e) (st.label (.inDoubt r)) := by
  have hraised := h.raise hroom
  have hfile := h.wal w hw
  constructor
  case scene =>
    rw [← h.scene]
    rfl
  case contents => exact hraised.contents
  case wf => exact h.wf
  case manifests => exact h.manifests
  case size =>
    intro hord
    have hs := h.size hord
    rw [hw] at hs
    exact hs
  case wal =>
    intro w' hw'
    rw [← Option.some.inj hw']
    exact ⟨hfile.lt, hfile.named⟩
  case linked =>
    intro hd w' hw'
    rw [← Option.some.inj hw']
    exact h.linked hd w hw
  case stored =>
    intro hd δ hδ
    obtain ⟨T, I, D, M, X, hs⟩ := hraised.stored hd δ hδ
    rw [show ({ db with lastSequence := db.lastSequence + 1 } : Database).wal = some w from hw] at hs
    exact ⟨T, I, D, M, X, (hs.doubted hr).spoil he⟩
  case traced =>
    intro ht
    obtain ⟨hj, hcur, htop⟩ := h.traced ht
    exact ⟨hj, hcur, htop.of_manifest rfl rfl⟩

/-- A writer that has failed once may as well have failed otherwise. -/
theorem Inv.respoil {e' : Status} (h : Inv F ρ σ (db.doubt w e) st) (he : e'.isOk = false) :
    Inv F ρ σ (db.doubt w e') st := by
  refine h.setMembers h.scene rfl h.contents (fun hord => h.size hord) (fun w' hw' => ?_)
    (fun hd δ hδ => ?_) (fun ht => (h.traced ht).current)
  · rw [← Option.some.inj hw']
    exact ⟨rfl, _, rfl, rfl⟩
  · obtain ⟨T, I, D, M, X, hs⟩ := h.stored hd δ hδ
    exact ⟨T, I, D, M, X, Stored.spoil hs he⟩

/-- All of the record is in the file; with `sync`, on stable storage. -/
structure Appended (F : StorageFormat) (ρ : Regime) (H : List Label) (db : Database)
    (w : WalWriter) (r : Record) (e : Status) (sync : Bool) (st : Store) : Prop where
  stored : ρ.durable → Everywhere (fun m => ∃ T I D M,
    Stored F ρ (db.doubt w e).contents (some { w with status := e }) (.inDoubt r :: H) m
      T I D M [⟨r, false⟩] ∧ Admits ρ.toUsage H (T ++ I ++ M) ∧
    ∀ v, m (.wal db.mutableGeneration) = some v →
      LogFile F ρ.formats db.format (M ++ [⟨r, sync⟩]) v ∧
        v.current = logBytes F db.format (recordsOf (M ++ [⟨r, sync⟩]))) st
  size : ρ.ordered → ∃ carry, carry ≤ maximumFileSize ∧ (db.contents.Waiting → carry = 0) ∧
    db.mutableTable.approximateDataSize + r.payloadSize ≤
      carry + (st.disk.files w.file).current.length

/-- The record that is being appended, and the log it goes to. -/
structure Appending (F : StorageFormat) (ρ : Regime) (H : List Label) (mode : SyncMode)
    (db : Database) (w : WalWriter) (r : Record) : Prop where
  wal : db.wal = some w
  clean : w.status.isOk = true
  room : db.lastSequence ≠ maxUInt64
  sequence : r.sequence = db.lastSequence + 1
  encodable : Encodable F db.format r
  written : ρ.writes H r mode

/-- A log as it is before a record is appended. -/
theorem Inv.clean_log (h : Inv F ρ σ db st) (ha : Appending F ρ st.history mode db w r)
    (hd : ρ.durable) :
    Everywhere (fun m => ∃ T I D M, Stored F ρ { db.contents with
        lastSequence := db.lastSequence + 1 } (some w) (.inDoubt r :: st.history) m T I D M [] ∧
      Admits ρ.toUsage st.history (T ++ I ++ D ++ M) ∧ Admits ρ.toUsage st.history (T ++ I ++ M) ∧
      (∀ v, m (.wal db.mutableGeneration) = some v →
        v.current = logBytes F db.format (recordsOf M)) ∧ NewestOf r I D M []) st := by
  intro δ hδ
  obtain ⟨T, I, D, M, X, hs⟩ := h.stored hd δ hδ
  rw [ha.wal] at hs
  obtain ⟨rfl, hclean⟩ := hs.clean w rfl ha.clean
  have hall := hs.admitsAll
  rw [List.append_nil] at hall
  refine ⟨T, I, D, M, (hs.raise (Nat.le_succ _)).doubted ha.written, hall, hs.admits, hclean, ?_⟩
  intro s hsm
  have hle : s.sequence ≤ db.lastSequence := hs.last s hsm
  rw [ha.sequence]
  omega

/-- Some bytes of the record are written. -/
theorem Inv.append_piece (hF : F.Lawful) (h : Inv F ρ σ db st)
    (ha : Appending F ρ st.history mode db w r) (he : e.isOk = false) {p : Bytes} (hp : p <+: walBytes F db.format r)
    (hfit : (st.disk.files w.file).current.length + p.length ≤ maximumFileSize) :
    Inv F ρ (σ.doubt r) (db.doubt w e) ((st.label (.inDoubt r)).onDisk (·.append w.file p)) ∧
      (p = walBytes F db.format r → Appended F ρ st.history db w r e false
        ((st.label (.inDoubt r)).onDisk (·.append w.file p))) := by
  have hwritten : ρ.durable → Everywhere (fun m => ∃ T I D M X,
      Stored F ρ (db.doubt w e).contents (some { w with status := e }) (.inDoubt r :: st.history) m
        T I D M X ∧ Admits ρ.toUsage st.history (T ++ I ++ M) ∧
      (p = walBytes F db.format r → X = [⟨r, false⟩]) ∧
      ∀ v, m (.wal db.mutableGeneration) = some v →
        v.current = logBytes F db.format (recordsOf M) ++ p)
      (st.onDisk (·.setFile w.file ((st.disk.files w.file).append p))) := by
    intro hd
    have hord := h.contents.order (ρ.durable_imp hd).1
    have hfrontier : db.version.lastSequence < r.sequence := by
      have : db.version.lastSequence ≤ db.lastSequence := hord.frontier
      rw [ha.sequence]
      omega
    refine Everywhere.setFile (f := .wal db.mutableGeneration) (show st.disk.Wf from h.wf) rfl
      (h.linked hd w ha.wal) (h.clean_log ha hd) (fun m hm hex => ?_)
    obtain ⟨T, I, D, M, hs, hA, hA', hclean, hnew⟩ := hex
    obtain ⟨X, -, hwhole, hs'⟩ := hs.written_piece hA ha.written he hm (hclean _ hm) ha.encodable hnew
      hfrontier (by rw [ha.sequence]) hp
    refine ⟨T, I, D, M, X, hs', hA', hwhole, fun v hv => ?_⟩
    rw [Function.update_self] at hv
    rw [← Option.some.inj hv, Volatile.append_current, hclean _ hm]
  refine ⟨?_, fun hwhole => ⟨fun hd => ?_, fun hord => ?_⟩⟩
  · refine (h.doubt ha.wal ha.room he ha.written).setLog rfl (fun c hc => ?_) ?_ (fun hd => ?_)
    · exact (h.wf.append hfit).small w.file c (by
        show c ∈ ((st.disk.setFile w.file _).files w.file).states
        rw [Disk.setFile_files_self]
        exact hc)
    · rw [Volatile.append_current, List.length_append]
      exact Nat.le_add_right _ _
    · intro δ hδ
      obtain ⟨T, I, D, M, X, hs, -⟩ := hwritten hd δ hδ
      exact ⟨T, I, D, M, X, hs⟩
  · intro δ hδ
    obtain ⟨T, I, D, M, X, hs, hA, hX, hcur⟩ := hwritten hd δ hδ
    rw [hX hwhole] at hs
    refine ⟨T, I, D, M, hs, hA, fun v hv => ⟨hs.log v hv, ?_⟩⟩
    rw [hcur v hv, hwhole, recordsOf_append, logBytes_append]
    simp [recordsOf, logBytes]
  · obtain ⟨carry, h1, h2, h3⟩ := h.size hord
    refine ⟨carry, h1, h2, ?_⟩
    have hlen := walBytes_length hF ha.encodable
    have hle := payloadSize_le_walSize r
    rw [ha.wal] at h3
    have h3' : db.mutableTable.approximateDataSize ≤
      carry + (st.disk.files w.file).current.length := h3
    show _ ≤ carry + ((st.disk.setFile w.file ((st.disk.files w.file).append p)).files
      w.file).current.length
    rw [Disk.setFile_files_self, Volatile.append_current, List.length_append, hwhole, hlen]
    omega

theorem Inv.sync_log (h : Inv F ρ σ (db.doubt w e) st) (he : e.isOk = false) :
    Inv F ρ σ (db.doubt w e) (st.onDisk (·.sync w.file)) := by
  refine h.setLog rfl (fun c hc => ?_) (le_refl _) (fun hd => ?_)
  · rw [Volatile.states_flush, List.mem_singleton] at hc
    rw [hc]
    exact h.wf.small _ _ (Volatile.current_mem_states _)
  · refine Everywhere.setFile (f := .wal db.mutableGeneration) h.wf rfl
      (h.linked hd { w with status := e } rfl) (h.stored hd) (fun m hm hex => ?_)
    obtain ⟨T, I, D, M, X, hs⟩ := hex
    exact ⟨T, I, D, M, X, Stored.synced hs he hm⟩

theorem Appended.sync {H : List Label} (h : Appended F ρ H db w r e false st)
    (hinv : Inv F ρ σ (db.doubt w e) st) (he : e.isOk = false) :
    Appended F ρ H db w r e true (st.onDisk (·.sync w.file)) := by
  refine ⟨fun hd => ?_, fun hord => ?_⟩
  · refine Everywhere.setFile (f := .wal db.mutableGeneration) hinv.wf rfl
      (hinv.linked hd { w with status := e } rfl) (h.stored hd) (fun m hm hex => ?_)
    obtain ⟨T, I, D, M, hs, hA, hlog⟩ := hex
    obtain ⟨hl, hcur⟩ := hlog _ hm
    have hrec : recordsOf (M ++ [⟨r, true⟩]) = recordsOf (M ++ [⟨r, false⟩]) := by
      simp [recordsOf]
    refine ⟨T, I, D, M, Stored.synced hs he hm, hA, fun v hv => ?_⟩
    rw [Function.update_self] at hv
    rw [← Option.some.inj hv]
    exact ⟨hl.flush hrec, by rw [hrec]; exact hcur⟩
  · obtain ⟨carry, h1, h2, h3⟩ := h.size hord
    refine ⟨carry, h1, h2, ?_⟩
    show _ ≤ carry + ((st.disk.setFile w.file _).files w.file).current.length
    rw [Disk.setFile_files_self]
    exact h3

/-- The counter of the Mutable has room for the record. -/
theorem Appended.room {H : List Label} {sync : Bool} (h : Appended F ρ H db w r e sync st)
    (hwf : st.disk.Wf) (hord : ρ.ordered) :
    db.mutableTable.approximateDataSize + r.payloadSize ≤ maxUInt64 := by
  obtain ⟨carry, hcarry, -, hle⟩ := h.size hord
  have hsmall := hwf.small w.file _ (Volatile.current_mem_states _)
  simp only [maximumFileSize, maxUInt64] at *
  omega

/-- The append has succeeded. -/
theorem Inv.committed (hF : F.Lawful) (h : Inv F ρ (σ.doubt r) (db.doubt w e) st)
    (ha : Appending F ρ σ.history mode db w r)
    (happ : Appended F ρ σ.history db w r e (mode = .sync) st)
    (hinv : ContentsInv ρ db.contents)
    (hpl : ρ.planned → ∀ c, db.compaction = some c → c.versionPublished = true) :
    Inv F ρ (σ.wrote r mode) (db.wrote r) (st.commit r mode) := by
  have hscene := h.scene
  have hhist : st.history = .inDoubt r :: σ.history := congrArg Scene.history hscene
  have hfile := h.wal _ rfl
  constructor
  case scene =>
    have hopt : db.options = σ.options := congrArg Scene.options hscene
    have hview : db.contents.view = σ.view := congrArg Scene.view hscene
    have hlast : db.lastSequence + 1 = σ.lastSequence + 1 := congrArg Scene.lastSequence hscene
    have hcontrol : db.control = σ.control := congrArg Scene.control hscene
    have hnew := Contents.view_insert db.contents r (db.lastSequence + 1)
    rw [hview] at hnew
    unfold sceneOf Scene.wrote Scene.raise
    rw [← hlast, ← hopt, ← hcontrol, ← hnew]
    show _ = _
    rw [Store.commit, hhist]
    rfl
  case contents =>
    exact hinv.insert ha.room (hF.encodeWalRecord_valid ha.encodable) ha.sequence hpl
  case wf => exact h.wf
  case manifests => exact h.manifests
  case size =>
    intro hord
    obtain ⟨carry, h1, h2, h3⟩ := happ.size hord
    refine ⟨carry, h1, h2, ?_⟩
    have hle := MemTable.size_insert_le db.mutableTable r
    show (db.mutableTable.insert r).approximateDataSize ≤ carry + walLength db.wal st.disk
    rw [ha.wal]
    exact hle.trans h3
  case wal =>
    intro w' hw'
    rw [← Option.some.inj (ha.wal.symm.trans hw')]
    exact ⟨hfile.lt, hfile.named⟩
  case linked =>
    intro hd w' hw'
    rw [← Option.some.inj (ha.wal.symm.trans hw')]
    exact h.linked hd { w with status := e } rfl
  case stored =>
    intro hd δ hδ
    obtain ⟨T, I, D, M, hs, hA, hlog⟩ := happ.stored hd δ hδ
    have hnew := hs.commit hA ha.written hlog
    refine ⟨T, I, D, M ++ [⟨r, mode = .sync⟩], [], ?_⟩
    show Stored F ρ _ db.wal (.appended r mode :: st.history.tail) _ _ _ _ _ _
    rw [ha.wal, hhist]
    exact hnew
  case traced =>
    intro ht
    obtain ⟨hj, hcur, htop⟩ := h.traced ht
    exact ⟨hj, hcur, htop.of_manifest rfl rfl⟩

/-- Another log may follow the open one. -/
def SealedLog (F : StorageFormat) (ρ : Regime) (db : Database) (st : Store) : Prop :=
  Everywhere (fun m => ∃ T I D M, Stored F ρ db.contents db.wal st.history m T I D M [] ∧
    ρ.Seals M) st

/-- A write may be the last one of its log. -/
def Regime.Closes (ρ : Regime) (mode : SyncMode) : Prop := (ρ.crashes → mode = .sync) ∧ ¬ ρ.single

theorem Appended.sealed {H : List Label} (h : Appended F ρ H db w r e (mode = .sync) st)
    (ha : Appending F ρ H mode db w r) (hhist : st.history = .inDoubt r :: H)
    (hmode : ρ.Closes mode) (hd : ρ.durable) : SealedLog F ρ (db.wrote r) (st.commit r mode) := by
  intro δ hδ
  obtain ⟨T, I, D, M, hs, hA, hlog⟩ := h.stored hd δ hδ
  have hnew := hs.commit hA ha.written hlog
  refine ⟨T, I, D, M ++ [⟨r, mode = .sync⟩], ?_, fun hc => sealed_snoc M ?_,
    fun hs => absurd hs hmode.2⟩
  rotate_left
  · exact decide_eq_true (hmode.1 hc)
  show Stored F ρ _ db.wal (.appended r mode :: st.history.tail) _ _ _ _ _ _
  rw [ha.wal, hhist]
  exact hnew

/-! ## The calls -/

/-- Writing the record's bytes to the log. -/
theorem writeAll_append (hF : F.Lawful) (ha : Appending F ρ σ.history mode db w r)
    (he : e.isOk = false) :
    Spec q (Inv F ρ (σ.doubt r) (db.doubt w e))
      (fun st => ∃ st₀, Inv F ρ σ db st₀ ∧ st = st₀.label (.inDoubt r))
      (writeAll w.file (walBytes F db.format r))
      (fun _ st => Appended F ρ σ.history db w r e false st)
      (fun e' _ => e'.code = .ioError) := by
  rintro s ⟨hq, -, st₀, h, hst⟩
  obtain ⟨hq', hsame, hall⟩ := hq.next
  have hst' : s.next.2.store = st₀.label (.inDoubt r) := hsame.trans hst
  have hhist : st₀.history = σ.history := h.history_eq.symm
  rw [← hhist] at ha
  -- whatever is written is a piece of the record that fits the file
  have hpiece : ∀ (t : Fs) (n : Nat), t.store = st₀.label (.inDoubt r) →
      (fitting t.store.disk w.file (walBytes F db.format r)).take n <+: walBytes F db.format r ∧
        (st₀.disk.files w.file).current.length +
          ((fitting t.store.disk w.file (walBytes F db.format r)).take n).length ≤
            maximumFileSize := by
    intro t n ht
    have hsmall := h.wf.small w.file _ (Volatile.current_mem_states _)
    have hfit := fitting_length st₀.disk w.file (walBytes F db.format r) hsmall
    rw [ht]
    refine ⟨(List.take_prefix _ _).trans (List.take_prefix _ _), ?_⟩
    rw [List.length_take]
    show (st₀.disk.files w.file).current.length +
      min n (fitting st₀.disk w.file (walBytes F db.format r)).length ≤ maximumFileSize
    omega
  unfold MiniKV.writeAll
  match hn : s.next with
  | (.ok, t) =>
    rw [hn] at hq' hst'
    dsimp only at hq' hst' ⊢
    obtain ⟨hp, hfit⟩ := hpiece t (fitting t.store.disk w.file (walBytes F db.format r)).length hst'
    rw [List.take_length] at hp hfit
    obtain ⟨hinv, happ⟩ := h.append_piece hF ha he hp hfit
    rw [hhist] at happ
    rw [← hst'] at hinv happ
    by_cases hlen : (fitting t.store.disk w.file (walBytes F db.format r)).length =
        (walBytes F db.format r).length
    · rw [if_pos hlen]
      exact ⟨hq'.update _, hinv, happ (hp.eq_of_length hlen)⟩
    · rw [if_neg hlen]
      exact ⟨hq'.update _, hinv, rfl⟩
  | (.fail n, t) =>
    rw [hn] at hq' hst'
    dsimp only at hq' hst' ⊢
    obtain ⟨hp, hfit⟩ := hpiece t n hst'
    have hinv := (h.append_piece hF ha he hp hfit).1
    rw [← hst'] at hinv
    exact ⟨hq'.update _, hinv, rfl⟩
  | (.kill n, t) =>
    rw [hn] at hq' hst' hall
    dsimp only at hq' hst' hall ⊢
    obtain ⟨hp, hfit⟩ := hpiece t n hst'
    have hinv := (h.append_piece hF ha he hp hfit).1
    rw [← hst'] at hinv
    exact ⟨fun h => (by cases hall h), hinv⟩

theorem syncFile_append {H : List Label} (he : e.isOk = false) :
    Spec q (Inv F ρ σ (db.doubt w e)) (Appended F ρ H db w r e false) (syncFile w.file)
      (fun _ st => Appended F ρ H db w r e true st) (fun e' _ => e'.code = .ioError) :=
  Spec.atomically (fun _ h _ => h.sync_log he) (fun _ h happ => happ.sync h he)
    (fun _ _ _ _ => ⟨rfl, rfl⟩)

theorem Status.not_ok_of_ioError (h : e.code = .ioError) : e.isOk = false := by
  simp [Status.isOk, h]

theorem rememberFailure_acts {call : Io Unit} {R : Store → Prop} {S : Unit → Store → Prop}
    (hw : db.wal = some w)
    (hcall : Spec q (Inv F ρ σ (db.doubt w e)) R call S (fun e' _ => e'.code = .ioError)) :
    Acts q (Remains F σ.format ρ)
      (At { db with lastSequence := db.lastSequence + 1 }
        (fun st => Inv F ρ σ (db.doubt w e) st ∧ R st)) (rememberFailure call)
      (fun _ d st => d = { db with lastSequence := db.lastSequence + 1 } ∧
        Inv F ρ σ (db.doubt w e) st ∧ S () st)
      (fun e' d st => d = db.doubt w e' ∧ Inv F ρ σ d st ∧ e'.code = .ioError) := by
  refine Acts.attempt_bind (S := fun _ => At { db with lastSequence := db.lastSequence + 1 }
      (fun st => Inv F ρ σ (db.doubt w e) st ∧ S () st))
    (C := fun e' => At { db with lastSequence := db.lastSequence + 1 }
      (fun st => Inv F ρ σ (db.doubt w e) st ∧ e'.code = .ioError))
    ?_ (fun _ => ?_) (fun e' => ?_)
  · exact Acts.io hcall (fun _ h => h.remains) (fun _ _ h hs => ⟨rfl, h, hs⟩)
      (fun _ _ h he => ⟨rfl, h, he⟩)
  · exact Acts.pure (fun st h => ⟨rfl, h⟩)
  · refine Acts.modifyDb_bind (Acts.fail (fun st h => ?_))
    have hd : ({ db with
        lastSequence := db.lastSequence + 1
        wal := db.wal.map (fun w => { w with status := e' }) } : Database) = db.doubt w e' := by
      rw [hw]
      rfl
    refine ⟨hd, ?_, h.2⟩
    rw [hd]
    exact h.1.respoil (Status.not_ok_of_ioError h.2)

/-- An append is refused before anything is written: for the record or for the mode. -/
def AppendRefused (F : StorageFormat) (o : FormatOptions) (r : Record) (e : Status) : Prop :=
  F.encodeWalRecord o r = .error e ∨ e = .invalidArgument "WAL sync mode is invalid"

theorem AppendRefused.code {o : FormatOptions} (hP : F.Portable) (h : AppendRefused F o r e) :
    e.code = .invalidArgument := by
  rcases h with h | rfl
  · exact hP.encodeWalRecord_error h
  · rfl

/-- How an append fails: nothing is written, or the write stays in doubt. -/
inductive AppendFailed (F : StorageFormat) (ρ : Regime) (σ : Scene) (db : Database) (w : WalWriter)
    (r : Record) (e : Status) (d : Database) (st : Store) : Prop
  | spoiled (members : d = { db with lastSequence := db.lastSequence + 1 })
      (inv : Inv F ρ σ.raise d st) (bad : w.status.isOk = false) (status : e = w.status)
  | refused (members : d = { db with lastSequence := db.lastSequence + 1 })
      (inv : Inv F ρ σ.raise d st) (status : AppendRefused F db.format r e)
  | doubt (members : d = db.doubt w e) (inv : Inv F ρ (σ.doubt r) d st) (status : e.code = .ioError)

/-- The record is in the log, and not yet in the Mutable. -/
structure Committed (F : StorageFormat) (ρ : Regime) (σ : Scene) (db : Database) (r : Record)
    (mode : SyncMode) (d : Database) (st : Store) : Prop where
  members : d = { db with lastSequence := db.lastSequence + 1 }
  inv : Inv F ρ (σ.wrote r mode) (db.wrote r) st
  valid : r.Valid db.format
  room : ρ.ordered → db.mutableTable.approximateDataSize + r.payloadSize ≤ maxUInt64
  sealed : ρ.Closes mode → ρ.durable → SealedLog F ρ (db.wrote r) st

theorem walAppend_acts (hF : F.Lawful) (hw : db.wal = some w)
    (hroom : db.lastSequence ≠ maxUInt64) (hseq : r.sequence = db.lastSequence + 1)
    (hwrite : ρ.writes σ.history r mode)
    (hpl : ρ.planned → ∀ c, db.compaction = some c → c.versionPublished = true) :
    Acts q (Remains F σ.format ρ)
      (At { db with lastSequence := db.lastSequence + 1 } (Inv F ρ σ db)) (walAppend F w r mode)
      (fun _ => Committed F ρ σ db r mode) (AppendFailed F ρ σ db w r) := by
  refine Acts.know (fun _ h => h.contents) (fun hcontents => ?_)
  refine Acts.ite (fun hbad => ?_) (fun hok => ?_)
  · exact Acts.fail (fun st h => .spoiled rfl (h.raise hroom) (by simpa using hbad) rfl)
  refine Acts.ite (fun _ => ?_) (fun _ => ?_)
  · exact Acts.fail (fun st h => .refused rfl (h.raise hroom) (Or.inr rfl))
  refine Acts.getDb_bind (Acts.ofExcept_bind (fun b hb => ?_) (fun e he st h => ?_))
  · obtain ⟨henc, hbytes⟩ := encodable_of_ok hb
    have ha : Appending F ρ σ.history mode db w r := ⟨hw, by simpa using hok, hroom, hseq, henc, hwrite⟩
    have hbad : (Status.ioError "write").isOk = false := rfl
    -- the write is in doubt
    refine Acts.update_bind (fun st => Inv F ρ (σ.doubt r) (db.doubt w (.ioError "write")) st ∧
      ∃ st₀, Inv F ρ σ db st₀ ∧ st = st₀.label (.inDoubt r))
      (fun st h => ⟨h.doubt hw hroom hbad (h.history_eq ▸ hwrite), st, h, rfl⟩) ?_
    rw [← hbytes]
    refine Acts.bind ((rememberFailure_acts hw (writeAll_append hF ha hbad)).conseq
      (fun _ _ h => h) (fun _ _ _ h => h) (fun e d st h => .doubt h.1 h.2.1 h.2.2)) (fun _ => ?_)
    -- with `kSync` the log is synced
    refine Acts.when (S := fun d st => d = { db with lastSequence := db.lastSequence + 1 } ∧
      Inv F ρ (σ.doubt r) (db.doubt w (.ioError "write")) st ∧
      Appended F ρ σ.history db w r (.ioError "write") (mode = .sync) st) (fun hsync => ?_)
      (fun hasync => ?_) (Acts.fix (fun d => ?_))
    · refine (rememberFailure_acts (σ := σ.doubt r) hw (syncFile_append hbad)).conseq (fun _ _ h => h) ?_
        (fun e d st h => .doubt h.1 h.2.1 h.2.2)
      rintro _ d st ⟨hd, h, happ⟩
      refine ⟨hd, h, ?_⟩
      rw [hsync]
      exact happ
    · rintro d st ⟨hd, h, happ⟩
      refine ⟨hd, h, ?_⟩
      rw [show decide (mode = .sync) = false from decide_eq_false hasync]
      exact happ
    · refine Acts.know (fun _ h => h.1) (fun hd => ?_)
      subst hd
      refine Acts.update (fun st h => ⟨rfl, h.2.1.committed hF ha h.2.2 hcontents hpl,
        hF.encodeWalRecord_valid henc, fun hord => h.2.2.room h.2.1.wf hord, fun hmode hd => ?_⟩)
      exact h.2.2.sealed ha (congrArg Scene.history h.2.1.scene) hmode hd
  · exact .refused rfl (h.raise hroom) (Or.inl he)

end

end MiniKV
