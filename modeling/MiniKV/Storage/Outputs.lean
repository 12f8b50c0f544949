import MiniKV.Storage.Publish

/-!
# Publishing the outputs of a compaction

`PublishCompactionTables` writes all outputs under temporary names before it
renames the first one, and opens readers only once a directory sync has made
every rename durable.
-/

namespace MiniKV

open Lib

/-- A reader whose file is under its name, with its contents, in every directory state. -/
structure PinnedReader (F : StorageFormat) (o : FormatOptions) (t : SSTableReader) (st : Store) :
    Prop where
  pinned : ∃ b, Pinned t.path b st ∧ F.openTable o b = .ok (t.metadata, t.records)

theorem Encodes.pinnedReader {F : StorageFormat} (hF : F.Lawful) {o : FormatOptions} {g : Nat}
    {m : MemTable} {b : Bytes} {st : Store} (h : Encodes F o g m b) (hp : Pinned (.sst g) b st) :
    PinnedReader F o (tableReader g m b) st := ⟨b, hp, h.openTable hF⟩

/-- The encodings of a list of MemTables, numbered in a row. -/
inductive PreparedFor (F : StorageFormat) (o : FormatOptions) :
    Nat → List MemTable → List PreparedOutput → Prop
  | nil (n : Nat) : PreparedFor F o n [] []
  | cons {n : Nat} {m : MemTable} {p : PreparedOutput} {ms : List MemTable}
      {ps : List PreparedOutput} (number : p.fileNumber = n)
      (encode : F.encodeTable o n m.records = .ok p.encoded) (rest : PreparedFor F o (n + 1) ms ps) :
      PreparedFor F o n (m :: ms) (p :: ps)

section

variable {F : StorageFormat} {o : FormatOptions}

theorem prepareOutputs_ok {n : Nat} {ms : List MemTable} {ps : List PreparedOutput}
    (h : prepareOutputs F o n ms = .ok ps) : PreparedFor F o n ms ps := by
  induction ms generalizing n ps with
  | nil =>
    obtain rfl := Except.ok.inj h
    exact .nil n
  | cons m ms ih =>
    rw [prepareOutputs] at h
    split at h
    · cases h
    rename_i encoded hb
    split at h
    · cases h
    rename_i rest hrest
    obtain rfl := Except.ok.inj h
    exact .cons rfl hb (ih hrest)

theorem PreparedFor.length_eq {n : Nat} {ms : List MemTable} {ps : List PreparedOutput}
    (h : PreparedFor F o n ms ps) : ps.length = ms.length := by
  induction h with
  | nil => rfl
  | cons _ _ _ ih => rw [List.length_cons, List.length_cons, ih]

theorem PreparedFor.mem {n : Nat} {ms : List MemTable} {ps : List PreparedOutput}
    (h : PreparedFor F o n ms ps) {p : PreparedOutput} (hp : p ∈ ps) :
    (n ≤ p.fileNumber ∧ p.fileNumber < n + ms.length) ∧
      ∃ m ∈ ms, F.encodeTable o p.fileNumber m.records = .ok p.encoded := by
  induction h with
  | nil => cases hp
  | @cons n m p' ms ps hn hb _ ih =>
    rw [List.length_cons]
    rcases List.mem_cons.mp hp with rfl | hp
    · exact ⟨by omega, m, List.mem_cons_self, hn ▸ hb⟩
    · obtain ⟨hbounds, m', hm', hb'⟩ := ih hp
      exact ⟨by omega, m', List.mem_cons_of_mem _ hm', hb'⟩

theorem PreparedFor.nodup {n : Nat} {ms : List MemTable} {ps : List PreparedOutput}
    (h : PreparedFor F o n ms ps) : (ps.map PreparedOutput.fileNumber).Nodup := by
  induction h with
  | nil => exact List.nodup_nil
  | @cons n m p ms ps hn _ hrest ih =>
    rw [List.map_cons]
    refine List.nodup_cons.mpr ⟨fun hm => ?_, ih⟩
    obtain ⟨p', hp', he⟩ := List.mem_map.mp hm
    have := (hrest.mem hp').1
    omega

end

/-! ## Files waiting for their rename -/

def TemporaryOutputs (ps : List PreparedOutput) (st : Store) : Prop :=
  ∀ p ∈ ps, ∃ i, Temporary (.sstTmp p.fileNumber) i (.stable p.encoded) st

def LinkedOutputs (ps : List PreparedOutput) (st : Store) : Prop :=
  ∀ p ∈ ps, Linked (.sst p.fileNumber) p.encoded st

def PinnedOutputs (ps : List PreparedOutput) (st : Store) : Prop :=
  ∀ p ∈ ps, Pinned (.sst p.fileNumber) p.encoded st

/-- The temporary names of the outputs are protected as well. -/
def Protected (N : FileName → Prop) (ps : List PreparedOutput) (f : FileName) : Prop :=
  N f ∨ ∃ p ∈ ps, f = .sstTmp p.fileNumber

section

variable {q : Prop} {N : FileName → Prop} {P : Store → Prop}

theorem Temporary.framed {f : FileName} {i : Inode} {v : Volatile Bytes} {st st' : Store}
    (h : Temporary f i v st) (hf : N f) (hs : Framed N st st') : Temporary f i v st' :=
  ⟨(hs.disk.current f hf).trans h.lookup,
    (hs.disk.files _ (Volatile.current_mem_states _) f i hf h.lookup).trans h.files,
    hs.disk.owned h.owned⟩

theorem Temporary.sync {f : FileName} {i : Inode} {v : Volatile Bytes} {st : Store}
    (h : Temporary f i v st) : Temporary f i v (st.onDisk Disk.syncDirectory) := by
  refine ⟨h.lookup, h.files, h.owned.lt, fun δ hδ g hg => ?_⟩
  rw [List.mem_singleton.mp hδ] at hg
  exact h.owned.only _ (Volatile.current_mem_states _) g hg

/-- Renaming one file leaves a temporary file alone. -/
theorem Temporary.renamed_other {f src dst : FileName} {i j : Inode} {v : Volatile Bytes}
    {b : Bytes} {st : Store} (h : Temporary f i v st) (hj : st.disk.lookup src = some j)
    (hsrc : f ≠ src) (hdst : f ≠ dst) : Temporary f i v (renamed src dst b st) := by
  refine ⟨?_, h.files, h.owned.lt, fun δ hδ g hg => ?_⟩
  · show Dir.lookup (st.disk.dir.current.move src dst) f = some i
    rw [Dir.lookup_move hj, if_neg hdst, if_neg hsrc]
    exact h.lookup
  · rcases Disk.mem_states_setDir.mp hδ with rfl | hδ
    · rw [Dir.lookup_move hj] at hg
      split at hg
      · -- the renamed inode is another one
        obtain rfl := Option.some.inj hg
        exact absurd (h.owned.only _ (Volatile.current_mem_states _) src hj) hsrc.symm
      · split at hg
        · cases hg
        · exact h.owned.only _ (Volatile.current_mem_states _) g hg
    · exact h.owned.only δ hδ g hg

theorem Linked.renamed_other {f src dst : FileName} {j : Inode} {b b' : Bytes} {st : Store}
    (h : Linked f b st) (hj : st.disk.lookup src = some j) (hsrc : f ≠ src) (hdst : f ≠ dst) :
    Linked f b (renamed src dst b' st) := by
  obtain ⟨i, hl, hf⟩ := h.lookup
  refine ⟨i, ?_, hf⟩
  show Dir.lookup (st.disk.dir.current.move src dst) f = some i
  rw [Dir.lookup_move hj, if_neg hdst, if_neg hsrc]
  exact hl

/-- Waiting files become part of what a publication has to keep. -/
theorem Stable.protect (hP : Stable N P) (ps : List PreparedOutput) :
    Stable (Protected N ps) (fun st => P st ∧ TemporaryOutputs ps st) where
  core := fun f hf => Or.inl (hP.core f hf)
  wf := fun st h => hP.wf st h.1
  frame := by
    rintro st st' ⟨hp, ht⟩ hs
    refine ⟨hP.frame st st' hp ⟨hs.disk.mono (fun _ h => Or.inl h), hs.wf, hs.history, hs.trace⟩,
      fun p hpm => ?_⟩
    obtain ⟨i, hi⟩ := ht p hpm
    exact ⟨i, hi.framed (N := Protected N ps) (Or.inr ⟨p, hpm, rfl⟩) hs⟩
  sync := by
    rintro st ⟨hp, ht⟩
    refine ⟨hP.sync st hp, fun p hpm => ?_⟩
    obtain ⟨i, hi⟩ := ht p hpm
    exact ⟨i, hi.sync⟩
  synced := by
    rintro st ⟨hp, ht⟩
    refine ⟨hP.synced st hp, fun p hpm => ?_⟩
    obtain ⟨i, hi⟩ := ht p hpm
    exact ⟨i, hi.sync.lookup, hi.sync.files, hi.sync.owned⟩

/-- A specification with a stronger invariant, seen from the weaker one. -/
theorem Spec.within {α : Type} {W R : Store → Prop} {m : Io α} {Q : α → Store → Prop}
    {E : Status → Store → Prop} (h : Spec q (fun st => P st ∧ W st) R m Q E) :
    Spec q P (fun st => W st ∧ R st) m (fun a st => W st ∧ Q a st) E :=
  Prog.Triple.conseq h (fun _ ⟨hq, hp, hw, hr⟩ => ⟨hq, ⟨hp, hw⟩, hr⟩)
    (fun _ _ ⟨hq, ⟨hp, hw⟩, hr⟩ => ⟨hq, hp, hw, hr⟩)
    (fun _ _ ⟨hq, ⟨hp, _⟩, he⟩ => ⟨hq, hp, he⟩) (fun _ h => ⟨h.1, h.2.1⟩)

/-! ## The four loops -/

variable {F : StorageFormat} {o : FormatOptions}

theorem writeOutputs_spec (hP : Stable N P) {temporaries : List FileName}
    (htmp : ∀ f ∈ temporaries, ¬ N f ∧ f.isTemporary = true) {written ps : List PreparedOutput}
    (hN : ∀ p ∈ ps, ¬ N (.sstTmp p.fileNumber))
    (hnd : ((written ++ ps).map PreparedOutput.fileNumber).Nodup) :
    Spec q P (TemporaryOutputs written) (writeOutputs temporaries ps)
      (fun _ st => TemporaryOutputs (written ++ ps) st)
      (fun e _ => Fault q e ∨ ∃ p ∈ ps, TooLong p.encoded e) := by
  induction ps generalizing written with
  | nil =>
    rw [List.append_nil]
    exact Spec.pure (fun _ _ h => h)
  | cons p ps ih =>
    -- the files written so far are protected while the next one is
    have hW := hP.protect written
    have hp : ¬ Protected N written (.sstTmp p.fileNumber) := by
      rintro (h | ⟨p', hp', he⟩)
      · exact hN p List.mem_cons_self h
      · rw [List.map_append, List.map_cons] at hnd
        have hmem : p.fileNumber ∈ written.map PreparedOutput.fileNumber := by
          rw [FileName.sstTmp.inj he]
          exact List.mem_map_of_mem hp'
        exact (List.nodup_append.mp hnd).2.2 _ hmem _ List.mem_cons_self rfl
    have hcause : ∀ {e : Status}, (Fault q e ∨ TooLong p.encoded e) →
        Fault q e ∨ ∃ p' ∈ p :: ps, TooLong p'.encoded e := by
      rintro e (h | h)
      · exact Or.inl h
      · exact Or.inr ⟨p, List.mem_cons_self, h⟩
    rw [writeOutputs]
    refine Spec.attempt_bind (Spec.conseq (createTruncated_spec (R := fun _ => True) hW hp).within
      (fun _ _ h => ⟨h, trivial⟩) (fun _ _ _ h => h) (fun _ _ _ h => h)) (fun i => ?_) (fun e => ?_)
    swap
    · exact abandon_spec hP htmp (fun _ _ h => Or.inl h)
    refine Spec.bind (S := fun _ st => TemporaryOutputs written st ∧
      ∃ v, v.current = p.encoded ∧ Temporary (.sstTmp p.fileNumber) i v st)
      (orAbandon_spec hP htmp (C := fun e => Fault q e ∨ ∃ p' ∈ p :: ps, TooLong p'.encoded e) ?_)
      (fun _ => ?_)
    · exact Spec.conseq (writeAll_spec hW hp).within (fun _ _ h => h) (fun _ _ _ h => h)
        (fun _ _ _ h => hcause h)
    refine Spec.bind (S := fun _ st => TemporaryOutputs written st ∧
      Temporary (.sstTmp p.fileNumber) i (.stable p.encoded) st)
      (orAbandon_spec hP htmp (C := fun e => Fault q e ∨ ∃ p' ∈ p :: ps, TooLong p'.encoded e) ?_)
      (fun _ => ?_)
    · exact Spec.conseq (syncFile_spec hW hp).within (fun _ _ h => h) (fun _ _ _ h => h)
        (fun _ _ _ h => Or.inl h)
    have hnd' : ((written ++ [p] ++ ps).map PreparedOutput.fileNumber).Nodup := by
      rw [List.append_assoc]
      exact hnd
    refine Spec.conseq (ih (fun p' hp' => hN p' (List.mem_cons_of_mem _ hp')) hnd') ?_ ?_ ?_
    · rintro st - ⟨hw, ht⟩ p' hp'
      rcases List.mem_append.mp hp' with hp' | hp'
      · exact hw p' hp'
      · rw [List.mem_singleton.mp hp']
        exact ⟨i, ht⟩
    · intro _ st _ h
      rw [List.append_assoc] at h
      exact h
    · rintro e _ - (h | ⟨p', hp', h⟩)
      · exact Or.inl h
      · exact Or.inr ⟨p', List.mem_cons_of_mem _ hp', h⟩

theorem renameOutputs_spec (hP : Stable N P) {temporaries : List FileName}
    (htmp : ∀ f ∈ temporaries, ¬ N f ∧ f.isTemporary = true) {linked ps : List PreparedOutput}
    (hnd : ((linked ++ ps).map PreparedOutput.fileNumber).Nodup)
    (hren : ∀ p ∈ ps, ∀ st i, P st →
      Temporary (.sstTmp p.fileNumber) i (.stable p.encoded) st →
      P (renamed (.sstTmp p.fileNumber) (.sst p.fileNumber) p.encoded st)) :
    Spec q P (fun st => LinkedOutputs linked st ∧ TemporaryOutputs ps st)
      (renameOutputs temporaries ps) (fun _ st => LinkedOutputs (linked ++ ps) st)
      (fun e _ => Fault q e) := by
  induction ps generalizing linked with
  | nil =>
    rw [List.append_nil]
    exact Spec.pure (fun _ _ h => h.1)
  | cons p ps ih =>
    have hnd' : ((linked ++ [p] ++ ps).map PreparedOutput.fileNumber).Nodup := by
      rw [List.append_assoc]
      exact hnd
    have hother : ∀ p' ∈ ps, p'.fileNumber ≠ p.fileNumber := by
      intro p' hp' he
      rw [List.map_append, List.map_cons] at hnd
      exact (List.nodup_cons.mp (List.nodup_append.mp hnd).2.1).1 (he ▸ List.mem_map_of_mem hp')
    have hearlier : ∀ p' ∈ linked, p'.fileNumber ≠ p.fileNumber := by
      intro p' hp' he
      rw [List.map_append, List.map_cons] at hnd
      exact (List.nodup_append.mp hnd).2.2 _ (List.mem_map_of_mem hp') _ List.mem_cons_self he
    rw [renameOutputs]
    refine Spec.bind (S := fun _ st => LinkedOutputs (linked ++ [p]) st ∧ TemporaryOutputs ps st)
      (orAbandon_spec hP htmp (C := Fault q) ?_) (fun _ => ?_)
    · refine renameFile_spec (b := p.encoded) ?_ ?_ ?_
      · rintro st - ⟨-, ht⟩
        obtain ⟨i, hi⟩ := ht p List.mem_cons_self
        exact ⟨i, hi.lookup, hi.files⟩
      · rintro st hst ⟨-, ht⟩
        obtain ⟨i, hi⟩ := ht p List.mem_cons_self
        exact hren p List.mem_cons_self st i hst hi
      · rintro st - ⟨hl, ht⟩
        obtain ⟨i, hi⟩ := ht p List.mem_cons_self
        refine ⟨fun p' hp' => ?_, fun p' hp' => ?_⟩
        · rcases List.mem_append.mp hp' with hp' | hp'
          · have hne : FileName.sst p'.fileNumber ≠ .sst p.fileNumber := by
              intro he
              exact hearlier p' hp' (FileName.sst.inj he)
            exact (hl p' hp').renamed_other hi.lookup (by simp) hne
          · rw [List.mem_singleton.mp hp']
            exact Linked.of_renamed hi.lookup hi.files
        · obtain ⟨j, hj⟩ := ht p' (List.mem_cons_of_mem _ hp')
          have hne : FileName.sstTmp p'.fileNumber ≠ .sstTmp p.fileNumber := by
            intro he
            exact hother p' hp' (FileName.sstTmp.inj he)
          exact ⟨j, hj.renamed_other hi.lookup hne (by simp)⟩
    · refine Spec.conseq (ih hnd' (fun p' hp' => hren p' (List.mem_cons_of_mem _ hp')))
        (fun _ _ h => h) (fun _ st _ h => ?_) (fun _ _ _ h => h)
      rw [List.append_assoc] at h
      exact h

theorem openOutputs_spec (hF : F.Lawful) {n : Nat} {ms : List MemTable}
    {ps : List PreparedOutput} (h : PreparedFor F o n ms ps) {R : Store → Prop}
    (hR : ∀ st, P st → R st → st.disk.Wf ∧ PinnedOutputs ps st) :
    Spec q P R (openOutputs F o ps)
      (fun ts st => R st ∧ OutputReaders o n ms ts ∧
        ts.map (fun t => t.metadata.fileSize) = ps.map (fun p => p.encoded.length) ∧
        ∀ t ∈ ts, PinnedReader F o t st)
      (fun e _ => Fault q e) := by
  induction h with
  | nil n => exact Spec.pure (fun _ _ h => ⟨h, .nil n, rfl, fun t ht => by cases ht⟩)
  | @cons n m p ms ps hn hb hrest ih =>
    have hopen : F.openTable o p.encoded =
        .ok (tableSummary n p.encoded.length m.records, m.records) :=
      hF.openTable_encodeTable m.ascending hb
    rw [openOutputs]
    refine Spec.bind (openReader_spec (b := p.encoded) (R := R)
      (fun st hp hr => ((hR st hp hr).2 p List.mem_cons_self).linked) hopen) (fun t => ?_)
    refine Spec.assume (fun ht => ?_)
    refine Spec.bind (ih (fun st hp hr => ⟨(hR st hp hr).1,
      fun p' hp' => (hR st hp hr).2 p' (List.mem_cons_of_mem _ hp')⟩)) (fun ts => ?_)
    refine Spec.pure (fun st hp ⟨hr, hts, hsizes, hpin⟩ => ⟨hr, ?_, ?_, ?_⟩)
    · -- the file is no longer than a file can be
      obtain ⟨i, -, hfile⟩ := ((hR st hp hr).2 p List.mem_cons_self).states
      have hfits := (hR st hp hr).1.small i p.encoded (by rw [hfile]; simp)
      have hcoh := tableReader_coherent hF (o := o) (g := n) (m := m) ⟨hb, hfits⟩
      have hte : t = tableReader n m p.encoded := by rw [ht, hn]; rfl
      exact .cons (hte ▸ hcoh) (by rw [hte]; rfl) (by rw [hte]; rfl) hts
    · rw [List.map_cons, List.map_cons, hsizes, ht]
      rfl
    · intro u hu
      rcases List.mem_cons.mp hu with rfl | hu
      · refine ⟨p.encoded, ?_, ?_⟩
        · rw [ht]
          exact (hR st hp hr).2 p List.mem_cons_self
        · rw [ht]
          exact hopen
      · exact hpin u hu

/-- Why outputs cannot be written when the environment does not fail. -/
def OutputsRefused (F : StorageFormat) (o : FormatOptions) (first : Nat) (ms : List MemTable)
    (e : Status) : Prop :=
  prepareOutputs F o first ms = .error e ∨
    ∃ ps, prepareOutputs F o first ms = .ok ps ∧ ∃ p ∈ ps, TooLong p.encoded e

/-- The readers are as long as the encoded outputs. -/
def OutputSizes (F : StorageFormat) (o : FormatOptions) (first : Nat) (ms : List MemTable)
    (ts : List SSTableReader) : Prop :=
  ∃ ps, prepareOutputs F o first ms = .ok ps ∧
    ts.map (fun t => t.metadata.fileSize) = ps.map (fun p => p.encoded.length)

theorem publishCompactionTables_spec (hF : F.Lawful) (hP : Stable N P) {first : Nat}
    {ms : List MemTable} (hfirst : first ≠ 0) (hms : ms ≠ [])
    (hroom : ms.length ≤ maxUInt64 - first)
    (hN : ∀ g, first ≤ g → g < first + ms.length → ¬ N (.sstTmp g))
    (hren : ∀ st i g m b, first ≤ g → g < first + ms.length → Encodes F o g m b → P st →
      Temporary (.sstTmp g) i (.stable b) st → P (renamed (.sstTmp g) (.sst g) b st))
    {R : Store → Prop} :
    Spec q P R (publishCompactionTables F o first ms)
      (fun ts st => OutputReaders o first ms ts ∧ OutputSizes F o first ms ts ∧
        ∀ t ∈ ts, PinnedReader F o t st)
      (fun e _ => Fault q e ∨ OutputsRefused F o first ms e) := by
  rw [publishCompactionTables, if_neg hfirst, if_neg (by simpa using hms),
    if_neg (not_lt.mpr hroom)]
  refine Spec.bind (S := fun ps _ => prepareOutputs F o first ms = .ok ps ∧ True)
    (Spec.ofExcept (fun ps h _ _ _ => ⟨h, trivial⟩) (fun e h _ _ _ => Or.inr (Or.inl h)))
    (fun ps => Spec.assume (fun hps => ?_))
  have hprep := prepareOutputs_ok hps
  have hN' : ∀ p ∈ ps, ¬ N (.sstTmp p.fileNumber) := fun p hp =>
    hN _ (hprep.mem hp).1.1 (hprep.mem hp).1.2
  have htmp : ∀ f ∈ ps.map (fun p => FileName.sstTmp p.fileNumber),
      ¬ N f ∧ f.isTemporary = true := by
    intro f hf
    obtain ⟨p, hp, rfl⟩ := List.mem_map.mp hf
    exact ⟨hN' p hp, rfl⟩
  have hquiet : ∀ {α : Type} {R : Store → Prop} {Q : α → Store → Prop} {m : Io α},
      Spec q P R m Q (fun e _ => Fault q e) →
        Spec q P R m Q (fun e _ => Fault q e ∨ OutputsRefused F o first ms e) :=
    fun h => Spec.conseq h (fun _ _ h => h) (fun _ _ _ h => h) (fun _ _ _ h => Or.inl h)
  have hwrite : Spec q P (TemporaryOutputs [])
      (writeOutputs (ps.map (fun p => FileName.sstTmp p.fileNumber)) ps)
      (fun _ st => TemporaryOutputs ps st) (fun e _ => Fault q e ∨ ∃ p ∈ ps, TooLong p.encoded e) :=
    writeOutputs_spec hP htmp hN' hprep.nodup
  refine Spec.bind (S := fun _ st => TemporaryOutputs ps st) ?_ (fun _ => ?_)
  · refine Spec.conseq hwrite (fun _ _ _ p hp => by cases hp) (fun _ _ _ h => h) ?_
    rintro e _ - (h | h)
    · exact Or.inl h
    · exact Or.inr (Or.inr ⟨ps, hps, h⟩)
  refine Spec.bind (S := fun _ st => LinkedOutputs ps st) (hquiet ?_) (fun _ => ?_)
  · have hrename : Spec q P (fun st => LinkedOutputs [] st ∧ TemporaryOutputs ps st)
        (renameOutputs (ps.map (fun p => FileName.sstTmp p.fileNumber)) ps)
        (fun _ st => LinkedOutputs ps st) (fun e _ => Fault q e) := by
      refine renameOutputs_spec hP htmp hprep.nodup ?_
      intro p hp st i hst ht
      obtain ⟨⟨hlo, hhi⟩, m, -, hb⟩ := hprep.mem hp
      have hfits : p.encoded.length ≤ maximumFileSize :=
        (hP.wf st hst).small i p.encoded (by rw [ht.files]; simp)
      exact hren st i p.fileNumber m p.encoded hlo hhi ⟨hb, hfits⟩ hst ht
    exact Spec.conseq hrename (fun _ _ h => ⟨by simp [LinkedOutputs], h⟩) (fun _ _ _ h => h)
      (fun _ _ _ h => h)
  refine Spec.bind (S := fun _ st => PinnedOutputs ps st)
    (hquiet (syncDirectory_spec hP (fun _ _ h p hp => (h p hp).pinned_synced))) (fun _ => ?_)
  exact hquiet (Spec.conseq (openOutputs_spec hF hprep (R := PinnedOutputs ps)
    (fun st hst h => ⟨hP.wf st hst, h⟩)) (fun _ _ h => h)
    (fun _ _ _ ⟨_, hout, hsizes, hpin⟩ => ⟨hout, ⟨ps, hps, hsizes⟩, hpin⟩) (fun _ _ _ h => h))

end

end MiniKV
