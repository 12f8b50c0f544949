import MiniKV.Sections.Reopen
import MiniKV.Sections.Write

/-!
# The database that Open returns

What `OpenWithEnvironment` has read satisfies the invariant of running
databases, with one log or with two. The account of the writes may begin anew
there: what the directory holds at this moment is known, whatever had led to it.
-/

namespace MiniKV

open Lib

section

variable {F : StorageFormat} {ρ : Regime} {κ : Usage} {H : List Label} {o₀ : FormatOptions}
  {o : Options} {v : Version} {ts : List SSTableReader} {T I M : List Entry} {db : Database}
  {st : Store} {m : Image}

/-! ## The files under the new options -/

theorem Loaded.valid (hF : F.Lawful) {o : FormatOptions} (h : Loaded F κ H o₀ o v ts T I M m) :
    v.Valid o := by
  obtain ⟨b, hb, -⟩ := h.manifest
  exact hF.decodeManifest_valid (hF.decodeManifest_encodeManifest hb)

/-- The MANIFEST says the same under both formats. -/
theorem Loaded.separate (hF : F.Lawful) (hP : F.Portable) {o : FormatOptions}
    (h : Loaded F κ H o₀ o v ts T I M m) :
    v.Separate ∧ v.id ≤ maxUInt64 ∧ ManifestSeparate F o m := by
  obtain ⟨b, hb, hm⟩ := h.manifest
  have hdec := hF.decodeManifest_encodeManifest hb
  obtain ⟨w, b', hb', henc, hsep, hsorted, hid⟩ := h.manifests _ hm
  injection hb' with hbb
  subst hbb
  obtain rfl := hP.decodeManifest_agree (hF.decodeManifest_encodeManifest henc) hdec
  refine ⟨hsep, hid, fun u hu => ?_⟩
  rw [hm] at hu
  exact ⟨w, b, (Option.some.inj hu).symm, hb, hsep, hsorted, hid⟩

theorem Restored.coherent (hF : F.Lawful) {o : FormatOptions}
    (h : Restored F κ H o₀ o v ts T I M st) : ∀ t ∈ ts, t.Coherent o := by
  intro t ht
  obtain ⟨b, -, hopen⟩ := h.files t ht
  exact { h.loaded.holds.inv.coherent t ht with valid := hF.openTable_valid hopen }

/-- The records of the log, under the format they are read in. -/
theorem Follows.reformat {o o' : FormatOptions} {n : Nat} {rs : List Record}
    (h : Follows F o n rs) (h' : ∀ r ∈ rs, Encodable F o' r) : Follows F o' n rs := by
  induction rs generalizing n with
  | nil => trivial
  | cons r rs ih =>
    exact ⟨h' r List.mem_cons_self, h.2.1, ih h.2.2 (fun x hx => h' x (List.mem_cons_of_mem _ hx))⟩

theorem Restored.follows {o : FormatOptions} (h : Restored F κ H o₀ o v ts T I M st) :
    Follows F o v.lastSequence (recordsOf (I ++ M)) := by
  refine h.loaded.holds.follows.reformat (fun r hr => ?_)
  rw [recordsOf_append] at hr
  rcases List.mem_append.mp hr with hr | hr
  · exact h.frozen r hr
  · exact h.clean.1 r hr

theorem Restored.table_le (hF : F.Lawful) {o : FormatOptions}
    (h : Restored F κ H o₀ o v ts T I M st) :
    ∀ r ∈ tableRecords ts, r.sequence ≤ v.lastSequence := by
  intro r hr
  obtain ⟨t, ht, hrt⟩ := mem_tableRecords.mp hr
  obtain ⟨vt, hvt, hmeta⟩ := h.loaded.holds.inv.aligned.exists_table ht
  have hle := (h.loaded.valid hF).lastSequence vt hvt
  rw [hmeta] at hle
  exact ((h.coherent hF t ht).le_maximumSequence hrt).trans hle

/-! ## The contents -/

/-- The Immutable that recovery makes of the first of two logs. -/
def recoveredImmutable (next : Nat) (I : List Entry) : Option ImmutableGeneration :=
  if I = [] then none else some (.new next (replayInto .empty (recordsOf I)))

theorem recoveredImmutable_eq_some {next : Nat} {imm : ImmutableGeneration}
    (h : recoveredImmutable next I = some imm) :
    I ≠ [] ∧ imm = .new next (replayInto .empty (recordsOf I)) := by
  unfold recoveredImmutable at h
  split at h
  · cases h
  · rename_i hne
    exact ⟨hne, (Option.some.inj h).symm⟩

theorem Opened.contents_eq (h : Opened F κ H o₀ o v ts T I M db st) : db.contents =
    { options := o, version := v, mutableTable := replayInto .empty (recordsOf M),
      mutableGeneration := activeNumber v.nextFileNumber I,
      immutable := recoveredImmutable v.nextFileNumber I, compaction := none,
      tables := ts, lastSequence := lastOf v.lastSequence (recordsOf (I ++ M)) } := by
  obtain ⟨r, i, hr, -, rfl⟩ := h.members
  unfold newDatabase Database.contents
  rw [hr.mutableTable, hr.mutableGeneration, hr.immutable, hr.lastSequence]
  rfl

theorem Opened.wal_eq (h : Opened F κ H o₀ o v ts T I M db st) :
    ∃ i, st.disk.lookup (.wal (activeNumber v.nextFileNumber I)) = some i ∧
      db.wal = some { file := i } := by
  obtain ⟨r, i, -, hi, rfl⟩ := h.members
  exact ⟨i, hi, rfl⟩

theorem lastOf_le {n k : Nat} {rs : List Record} (hn : n ≤ k) (h : ∀ r ∈ rs, r.sequence ≤ k) :
    lastOf n rs ≤ k := by
  induction rs generalizing n with
  | nil => exact hn
  | cons r rs ih =>
    exact ih (h r List.mem_cons_self) (fun x hx => h x (List.mem_cons_of_mem _ hx))

/-- What a log leaves in a MemTable was in the log. -/
theorem mem_replayed {rs : List Record} {s : Record} (h : s ∈ (replayInto .empty rs).entries) :
    s ∈ rs := by
  rcases mem_replayInto h with h | h
  · exact h
  · cases h

/-- The writes of the second log are newer than those of the first. -/
theorem Restored.newer {o : FormatOptions} (h : Restored F κ H o₀ o v ts T I M st) :
    ∀ r ∈ recordsOf I, ∀ s ∈ recordsOf M, r.sequence < s.sequence := by
  intro r hr s hs
  have hf := h.follows
  rw [recordsOf_append] at hf
  obtain ⟨hI, hM⟩ := Follows.append.mp hf
  exact (hI.le_lastOf.2 r hr).trans_lt (hM.lt s hs)

/-- The Immutable of two logs. -/
theorem Opened.immutableInv (hF : F.Lawful) (h : Opened F κ H o₀ o v ts T I M db st)
    {imm : ImmutableGeneration} (himm : db.contents.immutable = some imm) :
    ImmutableInv db.contents imm := by
  have hr := h.restored
  have hf := hr.follows
  have hlast := hf.le_lastOf.2
  have htab := hr.table_le hF
  rw [h.contents_eq] at himm ⊢
  obtain ⟨hne, rfl⟩ := recoveredImmutable_eq_some himm
  have hmem : ∀ s ∈ (replayInto .empty (recordsOf I)).entries, s ∈ recordsOf (I ++ M) := by
    intro s hs
    rw [recordsOf_append]
    exact List.mem_append_left _ (mem_replayed hs)
  constructor
  case ne_nil => exact replayInto_ne_nil (fun he => hne (List.map_eq_nil_iff.mp he))
  case generation_ne => exact (hr.loaded.valid hF).next_ne
  case walPath => rfl
  case maximum => rfl
  case valid => exact fun s hs => hF.encodeWalRecord_valid (hf.encodable s (hmem s hs))
  case last => exact fun s hs => hlast s (hmem s hs)
  case newest =>
    exact fun s hs r hr' _ => (htab r hr').trans (hf.lt s (hmem s hs)).le
  case pending => exact nofun
  case unpublished =>
    intro _ s hs
    have hlt := hf.lt s (hmem s hs)
    exact ⟨hlt, fun r hr' => (htab r hr').trans_lt hlt⟩
  case published => exact nofun
  case numbers => exact nofun

theorem Opened.order (hF : F.Lawful) (hP : F.Portable)
    (h : Opened F κ H o₀ o v ts T I M db st) : OrderInv db.contents := by
  have hr := h.restored
  obtain ⟨hsep, hid, -⟩ := hr.loaded.separate hF hP
  have hf := hr.follows
  obtain ⟨hfront, hlast⟩ := hf.le_lastOf
  have htab := hr.table_le hF
  have himm : ∀ imm, db.contents.immutable = some imm → ImmutableInv db.contents imm :=
    fun imm hi => h.immutableInv hF hi
  have hmem : ∀ s ∈ (replayInto .empty (recordsOf M)).entries, s ∈ recordsOf (I ++ M) := by
    intro s hs
    rw [recordsOf_append]
    exact List.mem_append_right _ (mem_replayed hs)
  rw [h.contents_eq] at himm ⊢
  constructor
  case id_word => exact hid
  case last_word =>
    obtain ⟨b, hb, -⟩ := hr.loaded.manifest
    exact lastOf_le (hP.encodeManifest_word hb).1
      (fun r hr' => hP.encodeWalRecord_word (hf.encodable r hr'))
  case separate => exact hsep
  case next_le =>
    show v.nextFileNumber ≤ activeNumber v.nextFileNumber I
    unfold activeNumber
    split <;> omega
  case frontier => exact hfront
  case tables => exact fun r hr' => (htab r hr').trans hfront
  case valid => exact fun s hs => hF.encodeWalRecord_valid (hf.encodable s (hmem s hs))
  case last => exact fun s hs => hlast s (hmem s hs)
  case newest =>
    intro s hs
    have hlt := hf.lt s (hmem s hs)
    refine ⟨hlt, fun r hr' => (htab r hr').trans_lt hlt, fun r hr' => ?_⟩
    unfold Contents.immutableRecords at hr'
    split at hr'
    · cases hr'
    · rename_i imm hi
      obtain ⟨-, rfl⟩ := recoveredImmutable_eq_some hi
      exact hr.newer r (mem_replayed hr') s (mem_replayed hs)
  case immutable => exact himm

theorem Opened.contentsInv (hF : F.Lawful) (hP : F.Portable)
    (h : Opened F κ H o₀ o v ts T I M db st) : ContentsInv ρ db.contents := by
  have hr := h.restored
  have horder := h.order hF hP
  have hinv := hr.loaded.holds.inv
  rw [h.contents_eq] at horder ⊢
  refine ⟨h.accepted, hr.loaded.valid hF, hinv.sorted, hr.coherent hF, hinv.distinct,
    Or.inl hinv.aligned, nofun, nofun, fun _ => horder, fun _ => ⟨hinv.aligned, fun imm hi _ => ?_⟩⟩
  obtain ⟨hne, rfl⟩ := recoveredImmutable_eq_some hi
  refine ⟨le_refl _, ?_⟩
  show v.nextFileNumber < activeNumber v.nextFileNumber I
  rw [activeNumber, if_neg hne]
  exact Nat.lt_succ_self _

/-! ## The directory -/

theorem Opened.log (h : Opened F κ H o₀ o v ts T I M db st) (hP : F.Portable)
    {u : Volatile Bytes}
    (hu : currentImage st (.wal (activeNumber v.nextFileNumber I)) = some u) :
    LogFile F κ.formats o.toFormatOptions M u := by
  have hr := h.restored
  have henc := hr.loaded.holds.follows.encodable
  rw [recordsOf_append] at henc
  exact (hr.loaded.holds.logs.facts.active u hu).reformat hP
    (fun r hr' => henc r (List.mem_append_right _ hr')) hr.clean.1

theorem Opened.frozenLog (h : Opened F κ H o₀ o v ts T I M db st) (hP : F.Portable)
    (hne : I ≠ []) : ∃ u, currentImage st (.wal v.nextFileNumber) = some u ∧
      LogFile F κ.formats o.toFormatOptions I u := by
  have hr := h.restored
  have henc := hr.loaded.holds.follows.encodable
  rw [recordsOf_append] at henc
  obtain ⟨u, hu, hlog⟩ := hr.loaded.holds.logs.facts.frozen hne
  exact ⟨u, hu, hlog.reformat hP (fun r hr' => henc r (List.mem_append_left _ hr')) hr.frozen⟩

theorem Opened.stored (h : Opened F ρ.toUsage H o₀ o v ts T I M db st) (hP : F.Portable) :
    Stored F ρ db.contents db.wal H (currentImage st) T I [] M [] := by
  have hr := h.restored
  obtain ⟨i, hi, hw⟩ := h.wal_eq
  have himage : currentImage st (.wal (activeNumber v.nextFileNumber I)) = some (st.disk.files i) :=
    image_eq_some.mpr ⟨rfl, i, hi, rfl⟩
  have hf := hr.follows
  have hlogs := hr.loaded.holds.logs.facts
  rw [h.contents_eq, hw]
  constructor
  case known => exact h.known
  case manifest => exact Or.inl hr.loaded.manifest
  case files => exact hr.files
  case pendingFile =>
    intro imm t hi hp
    obtain ⟨-, rfl⟩ := recoveredImmutable_eq_some hi
    cases hp
  case outputFiles => exact nofun
  case aligned => exact hr.loaded.holds.inv.aligned
  case flushed => exact hr.loaded.holds.flushed
  case mutable => rfl
  case frozen =>
    intro imm hi _
    obtain ⟨hne, rfl⟩ := recoveredImmutable_eq_some hi
    refine ⟨rfl, hne, rfl, if_neg hne, hlogs.room hne, ?_⟩
    rw [List.append_nil]
    exact h.frozenLog hP hne
  case thawed =>
    intro hall
    by_cases hI : I = []
    · rw [hI]
      exact ⟨rfl, rfl, rfl⟩
    · have hbad := hall _ (if_neg hI)
      cases hbad
  case sealed => exact fun _ => ⟨rfl, hlogs.sealed⟩
  case log =>
    intro u hu
    rw [List.append_nil]
    exact h.log hP hu
  case numbers => exact hlogs.rest
  case detached => exact nofun
  case attached =>
    intro _
    rw [himage]
    simp
  case clean => exact fun _ _ _ => ⟨rfl, hr.clean.2⟩
  case follows =>
    rw [List.append_nil, List.append_nil]
    exact hf
  case last =>
    rw [List.append_nil, List.append_nil]
    exact hf.le_lastOf.2
  case admits => exact hr.loaded.admits
  case admitsAll =>
    rw [List.append_nil, List.append_nil]
    exact hr.loaded.admits

/-- Every state of a directory that has just been synced is the current one. -/
theorem Opened.everywhere {Φ : Image → Prop} (h : Opened F κ H o₀ o v ts T I M db st)
    (hΦ : Φ (currentImage st)) : Everywhere Φ st := by
  intro δ hδ
  rw [h.synced, List.mem_singleton] at hδ
  rw [hδ]
  exact hΦ

theorem Opened.inv (hF : F.Lawful) (hP : F.Portable)
    (ht : ρ.traced → Traced F db.format db.version st) (hwf : st.disk.Wf) (hH : st.history = H)
    (h : Opened F ρ.toUsage H o₀ o v ts T I M db st) : Inv F ρ (sceneOf db st) db st := by
  obtain ⟨i, hi, hw⟩ := h.wal_eq
  have himage : currentImage st (.wal (activeNumber v.nextFileNumber I)) = some (st.disk.files i) :=
    image_eq_some.mpr ⟨rfl, i, hi, rfl⟩
  have hopt : db.options = o := congrArg Contents.options h.contents_eq
  have hgen : db.mutableGeneration = activeNumber v.nextFileNumber I :=
    congrArg Contents.mutableGeneration h.contents_eq
  refine ⟨rfl, h.contentsInv hF hP, hwf, fun _ => ?_, fun _ => ⟨0, Nat.zero_le _, fun _ => rfl, ?_⟩,
    fun w hw' => ?_, fun _ w hw' => ?_, fun _ => ?_, ht⟩
  · rw [Database.format, hopt]
    exact h.everywhere (h.restored.loaded.separate hF hP).2.2
  · have hsize := replayInto_size hF (m := .empty) h.restored.clean.1
    have hlen : walLength db.wal st.disk = (logBytes F o.toFormatOptions (recordsOf M)).length := by
      rw [hw, ← h.restored.clean.2 _ himage]
      rfl
    rw [hlen, h.contents_eq]
    exact hsize
  · rw [hw] at hw'
    rw [← Option.some.inj hw']
    refine ⟨hwf.linked _ (Volatile.current_mem_states _) _ _ hi, fun δ hδ f hf =>
      ⟨activeNumber v.nextFileNumber I, ?_⟩⟩
    exact hwf.logs _ (Volatile.current_mem_states _) δ hδ _ f i hi hf
  · rw [hw] at hw'
    rw [← Option.some.inj hw', hgen, h.synced]
    intro δ hδ
    rw [List.mem_singleton.mp hδ]
    exact hi
  · rw [hH]
    exact h.everywhere ⟨T, I, [], M, [], h.stored hP⟩

/-- With one log there is no Immutable. -/
theorem Opened.alone (hs : κ.single) (h : Opened F κ H o₀ o v ts T I M db st) : I = [] :=
  h.restored.loaded.holds.logs.facts.sealed.2 hs

theorem Opened.tidy (h : Opened F ρ.toUsage H o₀ o v ts T I M db st) : db.Tidy ρ := by
  have himm : db.immutable = recoveredImmutable v.nextFileNumber I :=
    congrArg Contents.immutable h.contents_eq
  have hcomp : db.compaction = none := congrArg Contents.compaction h.contents_eq
  obtain ⟨i, -, hw⟩ := h.wal_eq
  refine ⟨fun _ c hc => ?_, fun _ hno => ?_, fun hs hno => ?_, fun w hw' => ?_,
    fun c hc => ?_, fun c hc => ?_⟩
  · rw [hcomp] at hc
    cases hc
  · rw [hw] at hno
    cases hno
  · rw [himm, h.alone hs] at hno
    exact absurd rfl hno
  · rw [hw] at hw'
    rw [← Option.some.inj hw']
    exact Or.inl rfl
  · rw [hcomp] at hc
    cases hc
  · rw [hcomp] at hc
    cases hc

/-- The database that `Open` returns is in order. -/
theorem Opened.steady (hF : F.Lawful) (hP : F.Portable)
    (ht : ρ.traced → Traced F db.format db.version st) (hwf : st.disk.Wf) (hH : st.history = H)
    (h : Opened F ρ.toUsage H o₀ o v ts T I M db st) : Steady F ρ (sceneOf db st) db st :=
  ⟨h.inv hF hP ht hwf hH, h.tidy⟩

/-! ## `Open` -/

/-- A regime that knows of the files only what recovery needs. -/
def Usage.recovering (κ : Usage) : Regime where
  toUsage := κ
  ordered := True
  planned := True
  durable := True
  traced := False
  durable_imp := fun _ => ⟨trivial, trivial⟩
  traced_imp := False.elim
  single_imp := fun _ => trivial

variable {q : Prop}

/-- A section that is run on members of its own, where it leaves what is to hold anyway. -/
theorem Acts.spec {K P R : Store → Prop} {m : Act Unit} {S : Unit → Database → Store → Prop}
    {C : Status → Database → Store → Prop} {Q : Except Status Unit × Database → Store → Prop}
    {E' : Status → Store → Prop} (h : Acts q K (At db (fun st => P st ∧ R st)) m S C)
    (hk : ∀ st, K st → P st) (hs : ∀ d st, S () d st → P st ∧ Q (.ok (), d) st)
    (hc : ∀ e d st, C e d st → P st ∧ Q (.error e, d) st) :
    Spec q P R (MiniKV.runSection db m) Q E' := by
  rintro fs ⟨hq, hp, hr⟩
  have h' := h { db := db, fs := fs } ⟨hq, rfl, hp, hr⟩
  unfold MiniKV.runSection
  match hm : m { db := db, fs := fs } with
  | (.ok (), s) =>
    rw [hm] at h'
    exact ⟨h'.1, hs _ _ h'.2⟩
  | (.error e, s) =>
    rw [hm] at h'
    exact ⟨h'.1, hc _ _ _ h'.2⟩
  | (.killed, s) =>
    rw [hm] at h'
    exact ⟨h'.1, hk _ h'.2⟩

/-- The destructor closes a database that has just been opened. -/
theorem closeAtOnce_spec (hF : F.Lawful) (hP : F.Portable) :
    Spec q (Kept F κ) (fun st => st.history = H ∧ Opened F κ H o₀ o v ts T I M db st)
      (runSection db (do closeBegin; closeFinish F)) (fun _ _ => True) (fun _ _ => True) := by
  refine Spec.fix (fun st hk hst => ?_)
  obtain ⟨hH, hop⟩ := hst
  have hsteady : Steady F κ.recovering (sceneOf db st) db st :=
    Opened.steady (ρ := κ.recovering) hF hP False.elim hk.wf hH hop
  obtain ⟨d, hd⟩ : ∃ d : Database, d = { db with state := .closing, stopBackground := true } :=
    ⟨_, rfl⟩
  have hclosing : Steady F κ.recovering ((sceneOf db st).under d.control) d st := by
    rw [hd]
    refine hsteady.setControl rfl rfl (fun _ => ?_)
    obtain ⟨r, i, -, -, rfl⟩ := hop.members
    exact nofun
  have hclose : Acts q (Remains F (sceneOf db st).format κ.recovering)
      (At d (Steady F κ.recovering ((sceneOf db st).under d.control) d)) (closeFinish F)
      (fun _ _ => Remains F (sceneOf db st).format κ.recovering)
      (fun _ _ => Remains F (sceneOf db st).format κ.recovering) := by
    refine (closeFinish_acts (σ := (sceneOf db st).under d.control) hF trivial ?_).conseq
      (fun _ _ h => h) (fun _ _ _ h => h.1.remains) (fun _ _ _ h => h.1.remains)
    rw [hd]
    exact nofun
  have hformat : κ.formats (sceneOf db st).format := by
    have hopt : db.options = o := congrArg Contents.options hop.contents_eq
    show κ.formats db.options.toFormatOptions
    rw [hopt]
    exact hop.known
  have hkept : ∀ st', Remains F (sceneOf db st).format κ.recovering st' → Kept F κ st' :=
    fun st' h => h.kept (ρ := κ.recovering) trivial hformat
  have hboth : Acts q (Remains F (sceneOf db st).format κ.recovering)
      (At db (fun st' => Kept F κ st' ∧ st' = st)) (do closeBegin; closeFinish F)
      (fun _ _ => Remains F (sceneOf db st).format κ.recovering)
      (fun _ _ => Remains F (sceneOf db st).format κ.recovering) := by
    refine Acts.modifyDb_bind ?_
    rw [← hd]
    refine Acts.weaken _ hclose ?_
    rintro st' ⟨-, rfl⟩
    exact hclosing
  exact Acts.spec hboth hkept (fun d st' h => ⟨hkept st' h, trivial⟩)
    (fun e d st' h => ⟨hkept st' h, trivial⟩)

theorem startBackgroundWorker_spec (hF : F.Lawful) (hP : F.Portable) :
    Spec q (Kept F κ) (fun st => st.history = H ∧ Opened F κ H o₀ o v ts T I M db st)
      (startBackgroundWorker F o db)
      (fun _ st => st.history = H ∧ Opened F κ H o₀ o v ts T I M db st) (fun _ _ => ¬ q) := by
  refine Spec.ite (fun _ => Spec.pure (fun _ _ h => h)) (fun _ => ?_)
  refine Spec.attempt_bind (C := fun _ st => ¬ q ∧ st.history = H ∧
    Opened F κ H o₀ o v ts T I M db st) (Spec.fallible (fun hq _ _ h => ⟨hq, h⟩))
    (fun _ => Spec.pure (fun _ _ h => h)) (fun e => Spec.assume (fun hq => ?_))
  exact Spec.bind (Spec.conseq (closeAtOnce_spec hF hP) (fun _ _ h => h) (fun _ _ _ h => h)
    (fun _ _ _ _ => hq)) (fun _ => Spec.fail (fun _ _ _ => hq))

/-- `OpenWithEnvironment` keeps what a directory keeps, and returns with what it holds. With the
options that the directory is always used with it fails only where the environment does. -/
theorem openWithEnvironment_kept (hF : F.Lawful) (hP : F.Portable)
    (ho : κ.formats o.toFormatOptions) :
    Spec q (Kept F κ) (fun st => st.history = H) (openWithEnvironment F o)
      (fun r st => st.history = H ∧ ∃ o₀ v ts T I M, Opened F κ H o₀ o v ts T I M r.1 st)
      (fun _ _ => ¬ (Fits q κ o.toFormatOptions ∧ o.accepted = true)) := by
  refine Spec.ite (fun hno => Spec.fail (fun _ _ _ hfits => ?_)) (fun hacc => ?_)
  · rw [hfits.2] at hno
    cases hno
  have hacc : o.accepted = true := by simpa using hacc
  have hquiet : ∀ {α : Type} {m : Io α} {R : Store → Prop} {Q : α → Store → Prop},
      Spec q (KeptWith F κ H) R m Q (fun _ _ => ¬ q) →
      Spec q (Kept F κ) (fun st => st.history = H ∧ R st) m (fun a st => st.history = H ∧ Q a st)
        (fun _ _ => ¬ (Fits q κ o.toFormatOptions ∧ o.accepted = true)) :=
    fun h => Spec.conseq (Spec.carry h) (fun _ _ h => h) (fun _ _ _ h => h)
      (fun _ _ _ hq hfits => hq hfits.1.quiet)
  have hcause : ∀ {α : Type} {m : Io α} {R : Store → Prop} {Q : α → Store → Prop},
      Spec q (KeptWith F κ H) R m Q (fun _ _ => ¬ Fits q κ o.toFormatOptions) →
      Spec q (Kept F κ) (fun st => st.history = H ∧ R st) m (fun a st => st.history = H ∧ Q a st)
        (fun _ _ => ¬ (Fits q κ o.toFormatOptions ∧ o.accepted = true)) :=
    fun h => Spec.conseq (Spec.carry h) (fun _ _ h => h) (fun _ _ _ h => h)
      (fun _ _ _ hno hfits => hno hfits.1)
  have hfall : ∀ e, Spec q (Kept F κ) (fun st => st.history = H) (fallible e)
      (fun _ st => st.history = H)
      (fun _ _ => ¬ (Fits q κ o.toFormatOptions ∧ o.accepted = true)) :=
    fun e => Spec.fallible (fun hq _ _ _ hfits => hq hfits.1.quiet)
  refine Spec.bind (hfall _) (fun _ => Spec.bind (hfall _) (fun _ =>
    Spec.bind (hfall _) (fun _ => Spec.bind (hfall _) (fun _ => Spec.get_bind (fun s hs hsH => ?_)))))
  have hkey : o.maxKeySize ≠ 0 := by
    simp only [Options.accepted, decide_eq_true_eq] at hacc
    exact hacc.2.2.2.2.2.1
  have hnodup : s.store.disk.dir.current.names.Nodup := hs.wf.names _ (Volatile.current_mem_states _)
  refine Spec.bind (Spec.conseq (hcause (openVersion_current hF hP ho hkey)) ?_ (fun _ _ _ h => h)
    (fun _ _ _ h => h)) (fun v => ?_)
  · rintro t - ⟨rfl, hH⟩
    exact ⟨hH, rfl⟩
  refine Spec.fix (fun st hk hst => ?_)
  obtain ⟨hH, ⟨o₀, ts, T, I, M, hloaded⟩, hlisted⟩ := hst
  have hpresent : ∀ t ∈ ts,
      t.generation ∈ generations FileName.sstNumber s.store.disk.dir.current := by
    intro t ht
    obtain ⟨b, hb, -⟩ := hloaded.holds.files t ht
    have hname := (hlisted (.sst t.generation) rfl (by simp)).mp (by rw [hb]; simp)
    exact mem_generations.mpr ⟨_, hname, FileName.sstNumber_eq_some.mpr ⟨rfl, hloaded.number hP ht⟩⟩
  refine Spec.bind (S := fun readers st' => st' = st ∧ readers = ts ∧
    Files F o.toFormatOptions (currentImage st) ts) (Spec.conseq
      (openTables_current hP hloaded.holds.inv.aligned hloaded.holds.files
        (fun t ht => (hloaded.holds.inv.coherent t ht).path_eq) hpresent) (fun _ _ h => h)
        (fun _ _ _ h => h) (fun _ _ _ hno hfits => hno ⟨hfits.1.quiet, hfits.1.only o₀ hloaded.known⟩))
    (fun readers => ?_)
  refine Spec.bind (S := fun r st => readers = ts ∧ st.history = H ∧
    r.1 = unflushedLogs v s.store.disk.dir.current ∧ Ready F κ H o₀ o.toFormatOptions
      s.store.disk.dir.current v ts T I M (currentImage st)) ?_ ?_
  · refine Spec.fix (fun st' _ hst' => ?_)
    obtain ⟨rfl, hreaders, hfiles⟩ := hst'
    refine Spec.conseq (hquiet openCleanup_stale) ?_ (fun _ _ _ h => ⟨hreaders, h⟩) (fun _ _ _ h => h)
    rintro t - rfl
    exact ⟨hH, hloaded, hfiles, fun n _ => hlisted _ rfl (by simp)⟩
  rintro ⟨wals, obsolete, orphans⟩
  refine Spec.fix (fun st' _ hst' => ?_)
  obtain ⟨rfl, hH', hwals, hready⟩ := hst'
  dsimp only at hwals ⊢
  subst hwals
  refine Spec.ite (fun hmany => ?_) (fun _ => Spec.ite (fun htwo => ?_) (fun _ => ?_))
  · rcases hready.wals hP hnodup with ⟨hw, -⟩ | ⟨hw, -⟩ | ⟨hw, -⟩
    all_goals
      rw [hw] at hmany
      simp at hmany
  · rcases hready.wals hP hnodup with ⟨hw, -⟩ | ⟨hw, -⟩ | ⟨hw, -⟩
    all_goals
      rw [hw] at htwo
      simp at htwo
  refine Spec.bind (S := fun r st => st.history = H ∧
    Restored F κ H o₀ o.toFormatOptions v readers T I M st ∧ Replays v I M r)
    (Spec.conseq (hcause (recoverWals_ready hF hP hnodup)) ?_ (fun _ _ _ h => h)
      (fun _ _ _ h => h)) (fun r => ?_)
  · rintro t - rfl
    exact ⟨hH', hready⟩
  refine Spec.bind (S := fun i st => Replays v I M r ∧ st.history = H ∧
    Restored F κ H o₀ o.toFormatOptions v readers T I M st ∧
    st.disk.lookup (.wal (activeNumber v.nextFileNumber I)) = some i) ?_ (fun i => ?_)
  · refine Spec.fix (fun st' _ hst' => ?_)
    obtain ⟨hH', hrestored, hr⟩ := hst'
    rw [hr.mutableGeneration]
    refine Spec.conseq (hquiet openAppend_restored) ?_ (fun _ _ _ h => ⟨hr, h⟩) (fun _ _ _ h => h)
    rintro t - rfl
    exact ⟨hH', hrestored⟩
  refine Spec.assume (fun hr => ?_)
  refine Spec.bind (S := fun _ st => st.history = H ∧
    Opened F κ H o₀ o v readers T I M (newDatabase o v readers r i) st) ?_ (fun _ => ?_)
  · refine Spec.conseq (hquiet (Spec.conseq (syncDirectory_spec KeptWith.stable
      (Q := fun _ st => Restored F κ H o₀ o.toFormatOptions v readers T I M st ∧
        st.disk.lookup (.wal (activeNumber v.nextFileNumber I)) = some i ∧
        st.disk.dir.states = [st.disk.dir.current])
      (fun _ _ h => ⟨⟨h.1.loaded, h.1.files, h.1.frozen, h.1.clean⟩, h.2, rfl⟩))
      (fun _ _ h => h) (fun _ _ _ h => h) (fun _ _ _ h => h.failed))) (fun _ _ h => h) ?_
      (fun _ _ _ h => h)
    rintro _ t - ⟨hH, hrestored, hi, hsynced⟩
    exact ⟨hH, hacc, ho, hrestored, hsynced, r, i, hr, hi, rfl⟩
  · exact Spec.bind (Spec.conseq (startBackgroundWorker_spec hF hP) (fun _ _ h => h)
      (fun _ _ _ h => h) (fun _ _ _ hq hfits => hq hfits.1.quiet))
      (fun _ => Spec.pure (fun _ _ h => ⟨h.1, o₀, v, readers, T, I, M, h.2⟩))

end

end MiniKV
