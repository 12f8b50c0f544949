import MiniKV.Opening
import MiniKV.Sections.Steady
import MiniKV.State.Kept

/-!
# Opening what a directory keeps

`OpenWithEnvironment` on a directory every image of which can be recovered, with
any faults. It fails and leaves such a directory, or it returns a database for
which the invariant of running databases holds. The options may be others than
those that the files were written with; where they are the same, only the
environment is a reason to fail.
-/

namespace MiniKV

open Lib

/-! ## What has been read -/

/-- The Version of the current directory is known. The files were written under `o₀`, and
are read under `o`. -/
structure Loaded (F : StorageFormat) (κ : Usage) (H : List Label) (o₀ o : FormatOptions)
    (v : Version) (ts : List SSTableReader) (T I M : List Entry) (m : Image) : Prop where
  known : κ.formats o₀
  manifests : ManifestSeparate F o₀ m
  admits : Admits κ H (T ++ I ++ M)
  holds : Holds F o₀ m κ v ts T I M
  manifest : ManifestIs F o m v

/-- The tables are open, and the logs of the listing `d` are those that are there. -/
structure Ready (F : StorageFormat) (κ : Usage) (H : List Label) (o₀ o : FormatOptions)
    (d : Dir) (v : Version) (ts : List SSTableReader) (T I M : List Entry) (m : Image) : Prop
    extends Loaded F κ H o₀ o v ts T I M m where
  files : Files F o m ts
  listed : ∀ n, v.nextFileNumber ≤ n → (m (.wal n) ≠ none ↔ FileName.wal n ∈ d.names)

/-- No call of the environment fails, and the directory is used with these options alone. Then
`Open` has no reason to fail. -/
structure Fits (q : Prop) (κ : Usage) (o : FormatOptions) : Prop where
  quiet : q
  only : ∀ o', κ.formats o' → o' = o

/-- The number of the log that is written to, behind the log of an Immutable if there is one. -/
def activeNumber (next : Nat) (I : List Entry) : Nat := if I = [] then next else next + 1

theorem activeNumber_nil (next : Nat) : activeNumber next [] = next := rfl

section

variable {F : StorageFormat} {κ : Usage} {H : List Label} {o₀ o : FormatOptions} {d : Dir}
  {v : Version} {ts : List SSTableReader} {T I M : List Entry} {m m' : Image} {st : Store}
  {next : Nat}

/-- What the logs of a directory come to, with or without an Immutable. -/
structure LogFacts (F : StorageFormat) (o : FormatOptions) (m : Image) (κ : Usage) (next : Nat)
    (I M : List Entry) : Prop where
  rest : ∀ n, activeNumber next I < n → m (.wal n) = none
  missing : m (.wal (activeNumber next I)) = none → I = [] ∧ M = []
  active : ∀ u, m (.wal (activeNumber next I)) = some u → LogFile F κ.formats o M u
  frozen : I ≠ [] → ∃ u, m (.wal next) = some u ∧ LogFile F κ.formats o I u
  room : I ≠ [] → next ≠ maxUInt64
  sealed : κ.Seals I

theorem Logs.facts (h : Logs F o m κ next I M) : LogFacts F o m κ next I M := by
  cases h with
  | none rest =>
    refine ⟨fun n hn => rest n (le_of_lt hn), fun _ => ⟨rfl, rfl⟩, fun u hu => ?_,
      fun hne => absurd rfl hne, fun hne => absurd rfl hne, κ.seals_nil⟩
    rw [activeNumber_nil, rest _ (le_refl next)] at hu
    cases hu
  | one active log rest =>
    refine ⟨rest, fun hn => ?_, fun u hu => ?_, fun hne => absurd rfl hne,
      fun hne => absurd rfl hne, κ.seals_nil⟩
    · rw [activeNumber_nil, active] at hn
      cases hn
    · rw [activeNumber_nil, active] at hu
      rw [← Option.some.inj hu]
      exact log
  | two frozen frozenLog active log rest room ne sealed =>
    have hnum : activeNumber next I = next + 1 := if_neg ne
    refine ⟨by rw [hnum]; exact rest, fun hn => ?_, fun u hu => ?_, fun _ => ⟨_, frozen, frozenLog⟩,
      fun _ => room, sealed⟩
    · rw [hnum, active] at hn
      cases hn
    · rw [hnum, active] at hu
      rw [← Option.some.inj hu]
      exact log

/-- Logs below the frontier do not matter. -/
theorem Logs.congr (h : Logs F o m κ next I M) (he : ∀ n, next ≤ n → m' (.wal n) = m (.wal n)) :
    Logs F o m' κ next I M := by
  cases h with
  | none rest => exact .none (fun n hn => (he n hn).trans (rest n hn))
  | one active log rest =>
    exact .one ((he _ (le_refl _)).trans active) log (fun n hn => (he n hn.le).trans (rest n hn))
  | two frozen frozenLog active log rest room ne sealed =>
    exact .two ((he _ (le_refl _)).trans frozen) frozenLog ((he _ (Nat.le_succ _)).trans active) log
      (fun n hn => (he n (by omega)).trans (rest n hn)) room ne sealed

theorem ManifestIs.decode (hF : F.Lawful) (h : ManifestIs F o m v) {b : Bytes}
    (hb : m .manifest = some (.stable b)) : F.decodeManifest o b = .ok v := by
  obtain ⟨b', henc, hb'⟩ := h
  have he : b' = b := by
    rw [hb] at hb'
    injection hb' with h1
    injection h1 with h2
    exact h2.symm
  rw [← he]
  exact hF.decodeManifest_encodeManifest henc

/-- What can be recovered is loaded once its MANIFEST has been read. -/
theorem Keeps.loaded (hF : F.Lawful) (hP : F.Portable) (h : Keeps F κ H m)
    {b : Bytes} (hb : m .manifest = some (.stable b)) (hd : F.decodeManifest o b = .ok v) :
    ∃ o₀ ts T I M, Loaded F κ H o₀ o v ts T I M m := by
  obtain ⟨o₀, A, ho, hman, hA, hr⟩ := h
  cases hr with
  | fresh empty =>
    rw [empty] at hb
    cases hb
  | @holds w ts T I M hh =>
    have hw := hP.decodeManifest_agree (hh.manifest.decode hF hb) hd
    subst hw
    exact ⟨o₀, ts, T, I, M, ho, hman, hA, hh, b, hP.encodeManifest_decode hd, hb⟩

theorem Loaded.keeps (h : Loaded F κ H o₀ o v ts T I M m) : Keeps F κ H m :=
  ⟨o₀, T ++ I ++ M, h.known, h.manifests, h.admits, .holds h.holds⟩

theorem Loaded.next_word (hP : F.Portable) (h : Loaded F κ H o₀ o v ts T I M m) :
    v.nextFileNumber ≤ maxUInt64 := by
  obtain ⟨b, hb, -⟩ := h.manifest
  exact (hP.encodeManifest_word hb).2

/-- The tables have numbers that are read from their names. -/
theorem Loaded.number (hP : F.Portable) (h : Loaded F κ H o₀ o v ts T I M m)
    {t : SSTableReader} (ht : t ∈ ts) : t.generation ≠ 0 ∧ t.generation ≤ maxUInt64 := by
  obtain ⟨vt, hvt, hmeta⟩ := h.holds.inv.aligned.exists_table ht
  have hformed := VersionTable.wellFormed_iff.mp (h.holds.inv.valid.tables vt hvt)
  have hgen : vt.generation = t.generation := congrArg TableMetadata.generation hmeta
  rw [hgen] at hformed
  exact ⟨hformed.2.1, hformed.2.2.1.le.trans (h.next_word hP)⟩

/-! ## Removing what is stale -/

theorem update_of_stale {f : FileName} (hf : v.stale f = true) {g : FileName}
    (hg : v.stale g = false) (x : Option (Volatile Bytes)) : Function.update m f x g = m g := by
  refine Function.update_of_ne ?_ _ _
  rintro rfl
  rw [hf] at hg
  cases hg

theorem stale_wal {n : Nat} (h : v.nextFileNumber ≤ n) : v.stale (.wal n) = false := by
  rw [Version.stale, FileName.readName_text, FileName.kind]
  by_cases hn : n ≠ 0 ∧ n ≤ maxUInt64
  · rw [if_pos hn]
    exact decide_eq_false (not_lt.mpr h)
  · rw [if_neg hn]

theorem stale_sst (ha : Aligned v ts) {t : SSTableReader} (ht : t ∈ ts) :
    v.stale (.sst t.generation) = false := by
  have hmem : t.generation ∈ v.tables.map VersionTable.generation := by
    rw [ha.generations]
    exact List.mem_map_of_mem ht
  rw [Version.stale, FileName.readName_text, FileName.kind]
  by_cases hn : t.generation ≠ 0 ∧ t.generation ≤ maxUInt64
  · rw [if_pos hn]
    simpa using hmem
  · rw [if_neg hn]

theorem Loaded.removed {f : FileName} (h : Loaded F κ H o₀ o v ts T I M m)
    (hf : v.stale f = true) : Loaded F κ H o₀ o v ts T I M (Function.update m f none) := by
  have hmanifest : Function.update m f none .manifest = m .manifest := update_of_stale hf rfl _
  have hman : ∀ {o' : FormatOptions}, ManifestIs F o' m v →
      ManifestIs F o' (Function.update m f none) v := by
    rintro o' ⟨b, hb, hm⟩
    exact ⟨b, hb, hmanifest.trans hm⟩
  refine ⟨h.known, fun u hu => h.manifests u (hmanifest ▸ hu), h.admits,
    ⟨hman h.holds.manifest, fun t ht => ?_, h.holds.inv, h.holds.flushed, ?_, h.holds.follows⟩,
    hman h.manifest⟩
  · obtain ⟨b, hb, ho⟩ := h.holds.files t ht
    exact ⟨b, (update_of_stale hf (stale_sst h.holds.inv.aligned ht) _).trans hb, ho⟩
  · exact h.holds.logs.congr (fun n hn => update_of_stale hf (stale_wal hn) _)

theorem Ready.removed {f : FileName} (h : Ready F κ H o₀ o d v ts T I M m)
    (hf : v.stale f = true) : Ready F κ H o₀ o d v ts T I M (Function.update m f none) := by
  refine ⟨h.toLoaded.removed hf, fun t ht => ?_, fun n hn => ?_⟩
  · obtain ⟨b, hb, ho⟩ := h.files t ht
    exact ⟨b, (update_of_stale hf (stale_sst h.holds.inv.aligned ht) _).trans hb, ho⟩
  · rw [update_of_stale hf (stale_wal hn) _]
    exact h.listed n hn

/-! ## Changing the log -/

theorem Ready.setLog {g : Nat} {u u' : Volatile Bytes} (h : Ready F κ H o₀ o d v ts T I M m)
    (hg : m (.wal g) = some u) (hu : Replaces F κ.formats u u') :
    Ready F κ H o₀ o d v ts T I M (Function.update m (.wal g) (some u')) := by
  refine ⟨⟨h.known, h.manifests.update_wal g _, h.admits, h.holds.setLog hg hu,
    h.manifest.update_wal g _⟩, h.files.update_wal g _, fun n hn => ?_⟩
  rw [← h.listed n hn]
  by_cases he : n = g
  · rw [he, hg, Function.update_self]
    simp
  · rw [Function.update_of_ne (fun h => he (FileName.wal.inj h))]

end

/-! ## Reading and removing files -/

section

variable {F : StorageFormat} {κ : Usage} {H : List Label} {o₀ : FormatOptions} {o : Options}
  {d : Dir} {v : Version} {ts : List SSTableReader} {T I M : List Entry} {st : Store} {q : Prop}
  {P R : Store → Prop}

theorem readFile_current {f : FileName} :
    Spec q P (fun t => t = st) (readFile f)
      (fun c t => t = st ∧ ∃ i, st.disk.lookup f = some i ∧ c = (st.disk.files i).current)
      (fun _ _ => ¬ q ∨ st.disk.lookup f = none) := by
  refine Spec.get_bind (fun s _ hs => ?_)
  rw [hs]
  cases hl : st.disk.lookup f with
  | none => exact Spec.fail (fun _ _ _ => Or.inr rfl)
  | some i =>
    refine Spec.bind (S := fun _ t => t = st) ?_ (fun _ => Spec.pure (fun _ _ h => ⟨h, i, rfl, rfl⟩))
    exact Spec.atomically (fun _ h _ => h) (fun _ _ h => h.2)
      (fun hq _ _ _ => ⟨Or.inl hq, Or.inl hq⟩)

theorem openReader_current {f : FileName} :
    Spec q P (fun t => t = st) (openReader F o.toFormatOptions f)
      (fun t t' => t' = st ∧ t.path = f ∧ ∃ i, st.disk.lookup f = some i ∧
        F.openTable o.toFormatOptions (st.disk.files i).current = .ok (t.metadata, t.records))
      (fun _ _ => ¬ q ∨ ∀ i p, st.disk.lookup f = some i →
        F.openTable o.toFormatOptions (st.disk.files i).current ≠ .ok p) := by
  refine Spec.bind (Spec.conseq readFile_current (fun _ _ h => h) (fun _ _ _ h => h)
    (fun _ _ _ h => h.imp_right (fun hn i p hi => ?_))) (fun c => ?_)
  · rw [hn] at hi
    cases hi
  refine Spec.bind (S := fun p t => t = st ∧ ∃ i, st.disk.lookup f = some i ∧
    F.openTable o.toFormatOptions (st.disk.files i).current = .ok p) ?_ (fun p => ?_)
  · refine Spec.ofExcept (fun p hp t _ ht => ?_) (fun e he t _ ht => Or.inr (fun j p hj hp => ?_))
    · obtain ⟨ht, i, hi, rfl⟩ := ht
      exact ⟨ht, i, hi, hp⟩
    · obtain ⟨-, i, hi, rfl⟩ := ht
      rw [Option.some.inj (hi.symm.trans hj)] at he
      cases he.symm.trans hp
  · exact Spec.pure (fun _ _ h => ⟨h.1, rfl, h.2⟩)

theorem removeFile_current {f : FileName}
    (hrem : ∀ st, P st → R st → P ((st.onDisk (·.remove f)).note (.removed f)) ∧
      R ((st.onDisk (·.remove f)).note (.removed f))) :
    Spec q P R (removeFile f) (fun _ => R) (fun _ _ => ¬ q) := by
  refine Spec.get_bind (fun s _ _ => ?_)
  cases s.store.disk.lookup f with
  | none => exact Spec.atomically (fun _ h _ => h) (fun _ _ h => h.2) (fun hq _ _ _ => ⟨hq, hq⟩)
  | some i =>
    exact Spec.atomically (fun st h hr => (hrem st h hr.2).1) (fun st h hr => (hrem st h hr.2).2)
      (fun hq _ _ _ => ⟨hq, hq⟩)

/-- What a directory keeps, with a fixed history. -/
def KeptWith (F : StorageFormat) (κ : Usage) (H : List Label) (st : Store) : Prop :=
  Kept F κ st ∧ st.history = H

theorem removeFile_stale {f : FileName} (hf : v.stale f = true) :
    Spec q (KeptWith F κ H) (fun st => Ready F κ H o₀ o.toFormatOptions d v ts T I M (currentImage st))
      (removeFile f)
      (fun _ st => Ready F κ H o₀ o.toFormatOptions d v ts T I M (currentImage st))
      (fun _ _ => ¬ q) := by
  refine removeFile_current (fun st hk hr => ?_)
  have himage : currentImage ((st.onDisk (·.remove f)).note (.removed f)) =
      Function.update (currentImage st) f none := image_unlink
  refine ⟨⟨⟨hk.1.wf.remove f, ?_⟩, hk.2⟩, ?_⟩
  · refine hk.1.images.removed ?_
    have hkeep := (hr.toLoaded.removed hf).keeps
    rw [← hk.2] at hkeep
    exact hkeep
  · rw [himage]
    exact hr.removed hf

theorem removeFiles_stale {fs : List FileName} (hf : ∀ f ∈ fs, v.stale f = true) :
    Spec q (KeptWith F κ H) (fun st => Ready F κ H o₀ o.toFormatOptions d v ts T I M (currentImage st))
      (removeFiles fs)
      (fun _ st => Ready F κ H o₀ o.toFormatOptions d v ts T I M (currentImage st))
      (fun _ _ => ¬ q) := by
  induction fs with
  | nil => exact Spec.pure (fun _ _ h => h)
  | cons f fs ih =>
    exact Spec.bind (removeFile_stale (hf f List.mem_cons_self))
      (fun _ => ih (fun g hg => hf g (List.mem_cons_of_mem _ hg)))

/-- No log is ahead of the frontier. -/
theorem Ready.frontier {m : Image} (h : Ready F κ H o₀ o.toFormatOptions d v ts T I M m)
    {g : Nat} (hname : FileName.wal g ∈ d.names) (hle : v.nextFileNumber ≤ g) :
    AtFrontier v.nextFileNumber g := by
  have hne := (h.listed g hle).mpr hname
  have hfacts := h.holds.logs.facts
  have hactive : g ≤ activeNumber v.nextFileNumber I := by
    by_contra hlt
    exact hne (hfacts.rest g (not_le.mp hlt))
  by_cases hI : I = []
  · rw [activeNumber, if_pos hI] at hactive
    exact Or.inl (le_antisymm hactive hle)
  · rw [activeNumber, if_neg hI] at hactive
    rcases Nat.lt_or_eq_of_le hactive with hlt | heq
    · exact Or.inl (by omega)
    · exact Or.inr ⟨hfacts.room hI, heq⟩

theorem sortWals_stale {gs : List Nat}
    (hgs : ∀ g ∈ gs, (FileName.wal g).walNumber = some g ∧ FileName.wal g ∈ d.names) :
    Spec q (KeptWith F κ H) (fun st => Ready F κ H o₀ o.toFormatOptions d v ts T I M (currentImage st))
      (sortWals v.nextFileNumber gs)
      (fun wals st => wals = gs.filter (fun g => v.nextFileNumber ≤ g) ∧
        Ready F κ H o₀ o.toFormatOptions d v ts T I M (currentImage st)) (fun _ _ => ¬ q) := by
  induction gs with
  | nil => exact Spec.pure (fun _ _ h => ⟨rfl, h⟩)
  | cons g gs ih =>
    have ih := ih (fun x hx => hgs x (List.mem_cons_of_mem _ hx))
    refine Spec.ite (fun hlt => ?_) (fun hge => Spec.ite (fun _ => ?_) (fun hno => ?_))
    · have hstale : v.stale (.wal g) = true :=
        Version.stale_iff.mpr (Or.inr (Or.inr ⟨g, (hgs g List.mem_cons_self).1, hlt⟩))
      refine Spec.bind (removeFile_stale hstale) (fun _ => ?_)
      refine Spec.conseq ih (fun _ _ h => h) (fun wals _ _ h => ⟨?_, h.2⟩) (fun _ _ _ h => h)
      rw [h.1, List.filter_cons_of_neg (by simpa using hlt)]
    · refine Spec.bind ih (fun wals => Spec.pure (fun _ _ h => ⟨?_, h.2⟩))
      rw [h.1, List.filter_cons_of_pos (by simpa using hge)]
    · refine Spec.fail (fun st _ hr => absurd ?_ hno)
      exact hr.frontier (hgs g List.mem_cons_self).2 (not_lt.mp hge)

theorem KeptWith.stable : Stable FileName.Core (KeptWith F κ H) := Kept.stable

theorem openCleanup_stale :
    Spec q (KeptWith F κ H) (fun st => Ready F κ H o₀ o.toFormatOptions d v ts T I M (currentImage st))
      (openCleanup d v)
      (fun r st => r.1 = unflushedLogs v d ∧
        Ready F κ H o₀ o.toFormatOptions d v ts T I M (currentImage st)) (fun _ _ => ¬ q) := by
  refine Spec.bind (removeFiles_stale (fun f hf => ?_)) (fun _ =>
    Spec.bind (removeFiles_stale (fun f hf => ?_)) (fun _ =>
      Spec.bind (sortWals_stale (fun g hg => ?_)) (fun wals => ?_)))
  · exact Version.stale_iff.mpr (Or.inl (of_decide_eq_true (List.mem_filter.mp hf).2))
  · obtain ⟨n, hn, rfl⟩ := List.mem_map.mp hf
    obtain ⟨hn, horphan⟩ := List.mem_filter.mp hn
    obtain ⟨f, -, hnumber⟩ := mem_generations.mp hn
    obtain ⟨rfl, -⟩ := FileName.sstNumber_eq_some.mp hnumber
    exact Version.stale_iff.mpr (Or.inr (Or.inl ⟨n, hnumber, by simpa using horphan⟩))
  · obtain ⟨f, hf, hnumber⟩ := mem_generations.mp hg
    obtain ⟨rfl, -⟩ := FileName.walNumber_eq_some.mp hnumber
    exact ⟨hnumber, hf⟩
  · refine Spec.ite (fun _ => Spec.pure (fun _ _ h => h)) (fun _ => ?_)
    refine Spec.bind (S := fun _ st => wals = unflushedLogs v d ∧
      Ready F κ H o₀ o.toFormatOptions d v ts T I M (currentImage st)) ?_
      (fun _ => Spec.pure (fun _ _ h => h))
    exact Spec.conseq (syncDirectory_spec KeptWith.stable (fun _ _ h => h)) (fun _ _ h => h)
      (fun _ _ _ h => h) (fun _ _ _ h => h.failed)

/-! ## The Version and the tables -/

theorem openTables_current (hP : F.Portable) {present : List Nat} {vts : List VersionTable}
    (ha : List.Forall₂ (fun (vt : VersionTable) (t : SSTableReader) => vt.metadata = t.metadata)
      vts ts) (hfiles : Files F o₀ (currentImage st) ts)
    (hpath : ∀ t ∈ ts, t.path = .sst t.generation) (hpresent : ∀ t ∈ ts, t.generation ∈ present) :
    Spec q P (fun t => t = st) (openTables F o present vts)
      (fun readers t => t = st ∧ readers = ts ∧ Files F o.toFormatOptions (currentImage st) ts)
      (fun _ _ => ¬ (q ∧ o₀ = o.toFormatOptions)) := by
  induction ha with
  | nil => exact Spec.pure (fun _ _ h => ⟨h, rfl, fun t ht => by cases ht⟩)
  | @cons vt t vts ts hm ha ih =>
    have hgen : vt.generation = t.generation := congrArg TableMetadata.generation hm
    obtain ⟨b, hb, hopen⟩ := hfiles t List.mem_cons_self
    obtain ⟨-, i, hi, hfile⟩ := image_eq_some.mp hb
    refine Spec.ite (fun hno => ?_) (fun _ => ?_)
    · rw [hgen, List.contains_iff_mem.mpr (hpresent t List.mem_cons_self)] at hno
      cases hno
    refine Spec.bind (Spec.conseq openReader_current (fun _ _ h => h) (fun _ _ _ h => h) ?_)
      (fun u => ?_)
    · rintro e st' - (hq | hno) ⟨hquiet, rfl⟩
      · exact hq hquiet
      · refine hno i (t.metadata, t.records) (by rw [hgen]; exact hi) ?_
        rw [hfile]
        exact hopen
    refine Spec.fix (fun st' _ hu => ?_)
    obtain ⟨rfl, hupath, j, hj, huopen⟩ := hu
    have hij : j = i := by
      rw [hgen] at hj
      exact Option.some.inj (hj.symm.trans hi)
    rw [hij, hfile] at huopen
    -- both formats read the same table from the file
    have hsame := hP.openTable_agree huopen hopen
    have hut : u = t := by
      obtain ⟨up, um, ur⟩ := u
      obtain ⟨tp, tm, tr⟩ := t
      have ht := hpath _ List.mem_cons_self
      injection hsame with h1 h2
      simp only at h1 h2 hupath ht
      rw [hupath, ht, h1, h2, hgen]
    refine Spec.ite (fun hne => absurd (by rw [hut, hm]) hne) (fun _ => ?_)
    refine Spec.bind (ih (fun x hx => hfiles x (List.mem_cons_of_mem _ hx))
      (fun x hx => hpath x (List.mem_cons_of_mem _ hx))
      (fun x hx => hpresent x (List.mem_cons_of_mem _ hx))) (fun readers => ?_)
    refine Spec.pure (fun _ _ h => ⟨h.1, ?_, ?_⟩)
    · rw [hut, h.2.1]
    · intro x hx
      rcases List.mem_cons.mp hx with rfl | hx
      · exact ⟨b, hb, hut ▸ huopen⟩
      · exact h.2.2 x hx

/-- A directory without any file that recovery reads, but perhaps a MANIFEST. -/
def Bare (κ : Usage) (H : List Label) (st : Store) : Prop :=
  Admits κ H [] ∧ ∀ f : FileName, f ≠ .manifest → currentImage st f = none

theorem newDatabase_loaded (hF : F.Lawful) {b : Bytes} {m : Image} (ho : κ.formats o.toFormatOptions)
    (hb : F.encodeManifest o.toFormatOptions Version.newDatabase = .ok b)
    (hA : Admits κ H []) (hm : m .manifest = some (.stable b))
    (hrest : ∀ f : FileName, f ≠ .manifest → m f = none) :
    Loaded F κ H o.toFormatOptions o.toFormatOptions Version.newDatabase [] [] [] [] m := by
  have hvalid := hF.decodeManifest_valid (hF.decodeManifest_encodeManifest hb)
  refine ⟨ho, fun u hu => ?_, hA, ⟨⟨b, hb, hm⟩, nofun, ⟨hvalid, List.Forall₂.nil,
    List.Pairwise.nil, nofun, List.Pairwise.nil⟩, ⟨rfl, nofun⟩,
    .none (fun n _ => hrest _ (by simp)), trivial⟩, b, hb, hm⟩
  rw [hm] at hu
  exact ⟨_, b, (Option.some.inj hu).symm, hb, List.Pairwise.nil, List.Pairwise.nil, by decide⟩

theorem Bare.stable : Stable FileName.Core (fun st => KeptWith F κ H st ∧ Bare κ H st) where
  core := fun _ h => h
  wf := fun _ h => h.1.1.wf
  frame := by
    rintro st st' ⟨hk, hA, hbare⟩ hs
    refine ⟨KeptWith.stable.frame st st' hk hs, hA, fun f hf => ?_⟩
    rw [currentImage_untouched hs.disk]
    exact hbare f hf
  sync := fun st ⟨hk, hb⟩ => ⟨KeptWith.stable.sync st hk, hb⟩
  synced := fun st ⟨hk, hb⟩ => ⟨KeptWith.stable.synced st hk, hb⟩

/-- The first MANIFEST comes into a bare directory. -/
theorem Bare.renamed (hF : F.Lawful) (ho : κ.formats o.toFormatOptions) :
    ∀ st i b, F.encodeManifest o.toFormatOptions Version.newDatabase = .ok b →
      KeptWith F κ H st ∧ Bare κ H st → Temporary .manifestTmp i (.stable b) st →
      KeptWith F κ H (MiniKV.renamed .manifestTmp .manifest b st) ∧
        Bare κ H (MiniKV.renamed .manifestTmp .manifest b st) := by
  rintro st i b hb ⟨hk, hA, hbare⟩ htmp
  have himage : currentImage (MiniKV.renamed .manifestTmp .manifest b st) =
      Function.update (currentImage st) .manifest (some (.stable b)) :=
    currentImage_renamed (by decide) rfl htmp
  have hrest : ∀ f : FileName, f ≠ .manifest →
      Function.update (currentImage st) .manifest (some (.stable b)) f = none := by
    intro f hf
    rw [Function.update_of_ne hf]
    exact hbare f hf
  refine ⟨⟨⟨hk.1.wf.rename htmp.lookup (htmp.owned.private (by decide)) (by simp), ?_⟩, hk.2⟩, hA, ?_⟩
  · refine hk.1.images.renamed (by decide) rfl htmp ?_
    have hkeep := (newDatabase_loaded hF ho hb hA (Function.update_self _ _ _) hrest).keeps
    rw [← hk.2] at hkeep
    exact hkeep
  · rw [himage]
    exact hrest

/-- The first MANIFEST of a directory. -/
theorem publishManifest_bare (hF : F.Lawful) (ho : κ.formats o.toFormatOptions)
    (hkey : o.maxKeySize ≠ 0) :
    Spec q (KeptWith F κ H) (Bare κ H) (publishManifest F o.toFormatOptions Version.newDatabase)
      (fun _ st => Bare κ H st ∧ Loaded F κ H o.toFormatOptions o.toFormatOptions
        Version.newDatabase [] [] [] [] (currentImage st)) (fun _ _ => ¬ q) := by
  have hpublish := publishManifest_spec (q := q) hF (Bare.stable (F := F) (κ := κ) (H := H))
    (by decide) (Bare.renamed hF ho) (R := fun _ => True)
  refine Spec.conseq (Spec.carry hpublish) (fun _ _ h => ⟨h, trivial⟩) (fun _ st _ h => ?_)
    (fun e _ _ he => ?_)
  · obtain ⟨hbare, b, hb, hpin, -⟩ := h
    exact ⟨hbare, newDatabase_loaded hF ho hb hbare.1 (hpin.image_eq rfl).current hbare.2⟩
  · rcases he with he | he
    · exact he.failed
    · obtain ⟨b, hb⟩ := hF.encodeManifest_newDatabase hkey
      cases hb.symm.trans he

theorem currentImage_ne_none {f : FileName} (hf : f.Core) :
    currentImage st f ≠ none ↔ f ∈ st.disk.dir.current.names := by
  rw [Dir.mem_names, Option.ne_none_iff_exists']
  constructor
  · rintro ⟨u, hu⟩
    obtain ⟨-, i, hi, -⟩ := image_eq_some.mp hu
    exact ⟨i, hi⟩
  · rintro ⟨i, hi⟩
    exact ⟨_, image_eq_some.mpr ⟨hf, i, hi, rfl⟩⟩

theorem Keeps.bare (h : Keeps F κ H (currentImage st)) (hm : currentImage st .manifest = none) :
    Bare κ H st := by
  obtain ⟨o₀, A, -, -, hA, hr⟩ := h
  cases hr with
  | fresh empty => exact ⟨hA, fun f _ => empty f⟩
  | holds hh =>
    obtain ⟨b, -, hb⟩ := hh.manifest
    rw [hm] at hb
    cases hb

theorem loadManifest_current (hF : F.Lawful) (hP : F.Portable)
    (hfound : st.disk.lookup .manifest ≠ none) :
    Spec q (KeptWith F κ H) (fun t => t = st) (loadManifest F o.toFormatOptions)
      (fun v t => t = st ∧ ∃ o₀ ts T I M, Loaded F κ H o₀ o.toFormatOptions v ts T I M (currentImage st))
      (fun _ _ => ¬ Fits q κ o.toFormatOptions) := by
  refine Spec.fix (fun st' hk ht => ?_)
  subst ht
  obtain ⟨i, hi⟩ := Option.ne_none_iff_exists'.mp hfound
  have hkeep := hk.1.images.current
  rw [hk.2] at hkeep
  have hm : currentImage st' .manifest = some (st'.disk.files i) :=
    image_eq_some.mpr ⟨rfl, i, hi, rfl⟩
  obtain ⟨o₁, A, ho₁, hman, -⟩ := id hkeep
  obtain ⟨u, b, hb, henc, -⟩ := hman _ hm
  refine Spec.bind (S := fun c t => t = st' ∧ c = b) ?_ (fun c => ?_)
  · refine Spec.conseq readFile_current (fun _ _ h => h) ?_ ?_
    · rintro c t - ⟨rfl, j, hj, rfl⟩
      rw [Option.some.inj (hj.symm.trans hi), hb]
      exact ⟨rfl, rfl⟩
    · rintro e t - (hq | hno) hfits
      · exact hq hfits.quiet
      · exact hfound hno
  refine Spec.fix (fun t _ hc => ?_)
  obtain ⟨rfl, rfl⟩ := hc
  refine Spec.ite (fun hlong => absurd (hF.encodeManifest_length henc) (not_le.mpr hlong)) (fun _ => ?_)
  refine Spec.ofExcept (fun v hv t' _ ht' => ?_) (fun e he _ _ _ hfits => ?_)
  · rw [hb] at hm
    exact ⟨ht', hkeep.loaded hF hP hm hv⟩
  · rw [hfits.only o₁ ho₁] at henc
    cases (hF.decodeManifest_encodeManifest henc).symm.trans he

theorem openVersion_current (hF : F.Lawful) (hP : F.Portable)
    (ho : κ.formats o.toFormatOptions) (hkey : o.maxKeySize ≠ 0) :
    Spec q (KeptWith F κ H) (fun st => st.disk.dir.current = d) (openVersion F o d)
      (fun v st => (∃ o₀ ts T I M, Loaded F κ H o₀ o.toFormatOptions v ts T I M (currentImage st)) ∧
        ∀ f : FileName, f.Core → f ≠ .manifest → (currentImage st f ≠ none ↔ f ∈ d.names))
      (fun _ _ => ¬ Fits q κ o.toFormatOptions) := by
  refine Spec.fix (fun st hk hd => ?_)
  subst hd
  have hkeep := hk.1.images.current
  rw [hk.2] at hkeep
  have hname : ∀ {d : Dir}, d.names.any (fun f => readName f.text = .manifest) = true ↔
      FileName.manifest ∈ d.names := by
    intro d
    simp [FileName.readName_eq_manifest]
  by_cases hman : st.disk.dir.current.names.any (fun f => readName f.text = .manifest) = true
  · refine Spec.ite (fun _ => ?_) (fun hno => absurd hman hno)
    obtain ⟨i, hi⟩ := Dir.mem_names.mp (hname.mp hman)
    have hfound : st.disk.lookup .manifest ≠ none := by
      rw [show st.disk.lookup .manifest = some i from hi]
      simp
    refine Spec.conseq (loadManifest_current hF hP hfound) (fun _ _ h => h) ?_ (fun _ _ _ h => h)
    rintro v t - ⟨rfl, hl⟩
    exact ⟨hl, fun f hf _ => currentImage_ne_none hf⟩
  have hbare : Bare κ H st := by
    refine hkeep.bare ?_
    by_contra hne
    exact hman (hname.mpr ((currentImage_ne_none rfl).mp hne))
  -- there is no other file of a database either
  have hnames : ∀ f : FileName, f.Core → f ≠ .manifest → f ∉ st.disk.dir.current.names :=
    fun f hf hne hmem => (currentImage_ne_none hf).mpr hmem (hbare.2 f hne)
  refine Spec.ite (fun hyes => absurd hyes hman) (fun _ => Spec.ite (fun hlegacy => ?_) (fun _ => ?_))
  · exfalso
    have hnil : ∀ pick : FileName → Option Nat, (∀ f n, pick f = some n → f.Core ∧ f ≠ .manifest) →
        generations pick st.disk.dir.current = [] := by
      intro pick hpick
      refine List.eq_nil_iff_forall_not_mem.mpr (fun n hn => ?_)
      obtain ⟨f, hf, hfn⟩ := mem_generations.mp hn
      exact hnames f (hpick f n hfn).1 (hpick f n hfn).2 hf
    have htables := hnil FileName.sstNumber (fun f n h => by
      rw [(FileName.sstNumber_eq_some.mp h).1]
      exact ⟨rfl, by simp⟩)
    have hlogs := hnil FileName.walNumber (fun f n h => by
      rw [(FileName.walNumber_eq_some.mp h).1]
      exact ⟨rfl, by simp⟩)
    rw [htables, hlogs] at hlegacy
    simp at hlegacy
  · refine Spec.bind (S := fun _ t => Bare κ H t ∧ Loaded F κ H o.toFormatOptions
      o.toFormatOptions Version.newDatabase [] [] [] [] (currentImage t)) ?_
      (fun _ => Spec.pure (fun t _ h => ⟨⟨_, _, _, _, _, h.2⟩, fun f hf hne => ?_⟩))
    · refine Spec.conseq (publishManifest_bare hF ho hkey) ?_ (fun _ _ _ h => h)
        (fun _ _ _ h hfits => h hfits.quiet)
      rintro t - rfl
      exact hbare
    · rw [h.1.2 f hne]
      exact iff_of_false (fun h => h rfl) (hnames f hf hne)

/-! ## The log -/

/-- Cutting a log where recovery finds its last record to end. -/
theorem replaces_truncate (hF : F.Lawful) (hP : F.Portable) {O : FormatOptions → Prop}
    {o : FormatOptions} {u : Volatile Bytes} {rs : List Record} {t : Bytes}
    (hu : u.current = logBytes F o rs ++ t) (henc : ∀ r ∈ rs, Encodable F o r)
    (ht : Incomplete F o t) :
    Replaces F O u (u.set (u.current.take (logBytes F o rs).length)) := by
  intro o₁ L hL hlog
  obtain ⟨t₁, ht₁, hc⟩ := hlog.current
  obtain ⟨hrs, -⟩ := logBytes_agree hF hP hL ht₁ henc ht (hc.symm.trans hu)
  rw [← hrs] at henc
  rw [← hrs, ← logBytes_eq hP hL henc]
  exact hlog.truncate

theorem replaces_flush {O : FormatOptions → Prop} {u : Volatile Bytes} : Replaces F O u u.flush :=
  fun _ _ _ h => h.flush rfl

/-- A change of the log that every log survives. -/
theorem KeptWith.setLog {g : Nat} {i : Inode} {u : Volatile Bytes} (h : KeptWith F κ H st)
    (hr : Ready F κ H o₀ o.toFormatOptions d v ts T I M (currentImage st))
    (hl : st.disk.lookup (.wal g) = some i) (hwf : (st.disk.setFile i u).Wf)
    (hu : Replaces F κ.formats (st.disk.files i) u) :
    KeptWith F κ H (st.onDisk (·.setFile i u)) ∧ Ready F κ H o₀ o.toFormatOptions d v ts T I M
      (currentImage (st.onDisk (·.setFile i u))) := by
  refine ⟨⟨h.1.setLog hl hwf hu, h.2⟩, ?_⟩
  have himage : currentImage (st.onDisk (·.setFile i u)) =
      Function.update (currentImage st) (.wal g) (some u) :=
    image_setFile h.1.wf (Volatile.current_mem_states _) rfl hl
  rw [himage]
  exact hr.setLog (image_eq_some.mpr ⟨rfl, i, hl, rfl⟩) hu

theorem openAppend_current {f : FileName} {i : Inode} (hl : st.disk.lookup f = some i) :
    Spec q P (fun t => t = st) (openAppend f) (fun j t => t = st ∧ j = i) (fun _ _ => ¬ q) := by
  refine Spec.get_bind (fun s _ hs => ?_)
  rw [hs, hl]
  refine Spec.bind (S := fun _ t => t = st) ?_ (fun _ => Spec.pure (fun _ _ h => ⟨h, rfl⟩))
  exact Spec.atomically (fun _ h _ => h) (fun _ _ h => h.2) (fun hq _ _ _ => ⟨hq, hq⟩)

theorem recoverLoop_log (hF : F.Lawful) {o : FormatOptions} {rs : List Record} {t : Bytes}
    (hf : Follows F o 0 rs) (ht : Incomplete F o t)
    (hsmall : (logBytes F o rs ++ t).length ≤ maximumFileSize) :
    recoverLoop F o (logBytes F o rs ++ t).length (logBytes F o rs ++ t) .empty {} =
      .ok (replayInto .empty rs, WalRecoveryResult.pushAll F o {} rs, !t.isEmpty) := by
  have hlen : (logBytes F o rs).length ≤ maximumFileSize := by
    rw [List.length_append] at hsmall
    omega
  have hcount : rs.length ≤ (logBytes F o rs).length := length_le_logBytes hF hf.encodable
  have hmax : maximumFileSize ≤ maxUInt64 := by decide
  have hfrom : Follows F o ({} : WalRecoveryResult).maxSequence rs := hf
  exact recoverLoop_records hF hfrom ht (le_refl _) (fun x hx => by cases hx)
    (by show 0 + _ ≤ _; omega) (by show 0 + _ ≤ _; omega)

/-- What recovery makes of the contents of a log. -/
theorem recoverLoop_agree (hF : F.Lawful) (hP : F.Portable) {o₀ o : FormatOptions}
    {O : FormatOptions → Prop} {u : Volatile Bytes} {L : List Entry} (hlog : LogFile F O o₀ L u)
    (henc : ∀ r ∈ recordsOf L, Encodable F o₀ r) (hsmall : u.current.length ≤ maximumFileSize)
    {x : MemTable} {result : WalRecoveryResult} {tail : Bool}
    (h : recoverLoop F o u.current.length u.current .empty {} = .ok (x, result, tail)) :
    ∃ t, u.current = logBytes F o (recordsOf L) ++ t ∧ Incomplete F o t ∧
      Follows F o 0 (recordsOf L) ∧ x = replayInto .empty (recordsOf L) ∧
      result = WalRecoveryResult.pushAll F o {} (recordsOf L) ∧ tail = !t.isEmpty := by
  obtain ⟨rs, t, hc, hf, ht⟩ := recoverLoop_ok hF (le_refl _) h
  obtain ⟨t₀, ht₀, hc₀⟩ := hlog.current
  obtain ⟨hrs, -⟩ := logBytes_agree hF hP henc ht₀ hf.encodable ht (hc₀.symm.trans hc)
  subst hrs
  have hloop := recoverLoop_log hF hf ht (hc ▸ hsmall)
  rw [← hc, h] at hloop
  simp only [Except.ok.injEq, Prod.mk.injEq] at hloop
  exact ⟨t, hc, ht, hf, hloop.1, hloop.2.1, hloop.2.2⟩

/-- The entries of the log under a number. -/
inductive LogOf (next : Nat) (I M : List Entry) : Nat → List Entry → Prop
  | frozen (ne : I ≠ []) : LogOf next I M next I
  | active : LogOf next I M (activeNumber next I) M

/-- The log has been replayed, and ends with its last record. -/
def Clean (F : StorageFormat) (o : FormatOptions) (g : Nat) (L : List Entry) (st : Store) :
    Prop :=
  (∀ r ∈ recordsOf L, Encodable F o r) ∧ ∀ u, currentImage st (.wal g) = some u →
    u.current = logBytes F o (recordsOf L)

/-- What recovery counts in a log with these records. -/
structure Counted (rs : List Record) (result : WalRecoveryResult) : Prop where
  maximum : result.maxSequence = lastOf 0 rs
  minimum : result.recordsRecovered ≠ 0 → ∃ r ∈ rs, result.minSequence = r.sequence

theorem counted_pushAll {o : FormatOptions} (rs : List Record) :
    Counted rs (WalRecoveryResult.pushAll F o {} rs) := by
  refine ⟨(pushAll_eq {} rs).2.2, fun hne => ?_⟩
  cases rs with
  | nil => exact absurd rfl hne
  | cons r rs => exact ⟨r, List.mem_cons_self, pushAll_minSequence⟩

section

variable {g : Nat} {L : List Entry} {i : Inode}

theorem Ready.log (h : Ready F κ H o₀ o.toFormatOptions d v ts T I M (currentImage st))
    (hL : LogOf v.nextFileNumber I M g L) (hl : st.disk.lookup (.wal g) = some i) :
    LogFile F κ.formats o₀ L (st.disk.files i) := by
  have himage : currentImage st (.wal g) = some (st.disk.files i) :=
    image_eq_some.mpr ⟨rfl, i, hl, rfl⟩
  have hfacts := h.holds.logs.facts
  cases hL with
  | frozen ne =>
    obtain ⟨u, hu, hlog⟩ := hfacts.frozen ne
    rw [Option.some.inj (himage.symm.trans hu)]
    exact hlog
  | active => exact hfacts.active _ himage

theorem Ready.follows {m : Image} (h : Ready F κ H o₀ o.toFormatOptions d v ts T I M m)
    (hL : LogOf v.nextFileNumber I M g L) : Follows F o₀ 0 (recordsOf L) := by
  have hf := h.holds.follows
  rw [recordsOf_append, Follows.append] at hf
  cases hL with
  | frozen ne => exact hf.1.mono (Nat.zero_le _)
  | active => exact hf.2.mono (Nat.zero_le _)

/-- Under the options it was written with, a log is replayed. -/
theorem Ready.replays (hF : F.Lawful) (hk : KeptWith F κ H st)
    (h : Ready F κ H o₀ o.toFormatOptions d v ts T I M (currentImage st))
    (hL : LogOf v.nextFileNumber I M g L) (hl : st.disk.lookup (.wal g) = some i)
    (hfits : Fits q κ o.toFormatOptions) (e : Status) :
    recoverLoop F o.toFormatOptions (st.disk.files i).current.length (st.disk.files i).current
      .empty {} ≠ .error e := by
  obtain ⟨t, ht, hc⟩ := (h.log hL hl).current
  obtain rfl := hfits.only o₀ h.known
  have hsmall := hk.1.wf.small i _ (Volatile.current_mem_states _)
  rw [hc] at hsmall ⊢
  rw [recoverLoop_log hF (h.follows hL) (ht.incomplete hF hfits.only) hsmall]
  nofun

theorem recoverWal_ready (hF : F.Lawful) (hP : F.Portable)
    (hL : LogOf v.nextFileNumber I M g L) :
    Spec q (KeptWith F κ H)
      (fun st => Ready F κ H o₀ o.toFormatOptions d v ts T I M (currentImage st) ∧
        st.disk.lookup (.wal g) = some i)
      (recoverWal F o.toFormatOptions (.wal g))
      (fun r st => (Ready F κ H o₀ o.toFormatOptions d v ts T I M (currentImage st) ∧
        Clean F o.toFormatOptions g L st) ∧
        r.1 = replayInto .empty (recordsOf L) ∧ Counted (recordsOf L) r.2)
      (fun _ _ => ¬ Fits q κ o.toFormatOptions) := by
  refine Spec.fix (fun st hk hr => ?_)
  obtain ⟨hready, hl⟩ := hr
  refine Spec.bind (Spec.conseq (openAppend_current hl) (fun _ _ h => h) (fun _ _ _ h => h)
    (fun _ _ _ hq hfits => hq hfits.quiet)) (fun j => ?_)
  refine Spec.fix (fun st' _ hj => ?_)
  obtain ⟨rfl, rfl⟩ := hj
  refine Spec.bind (Spec.conseq readFile_current (fun _ _ h => h) (fun _ _ _ h => h) ?_)
    (fun c => ?_)
  · rintro e t - (hq | hno) hfits
    · exact hq hfits.quiet
    · rw [hl] at hno
      cases hno
  refine Spec.fix (fun st'' _ hc => ?_)
  obtain ⟨rfl, j', hj', rfl⟩ := hc
  obtain rfl : j' = j := Option.some.inj (hj'.symm.trans hl)
  have hlog := hready.log hL hl
  have hsmall := hk.1.wf.small j' _ (Volatile.current_mem_states _)
  refine Spec.bind (S := fun p t => t = st'' ∧
    recoverLoop F o.toFormatOptions (st''.disk.files j').current.length (st''.disk.files j').current
      .empty {} = .ok p) (Spec.ofExcept (fun _ h _ _ ht => ⟨ht, h⟩)
        (fun e he _ _ _ hfits => hready.replays hF hk hL hl hfits e he)) ?_
  rintro ⟨x, result, tail⟩
  refine Spec.fix (fun t _ ht => ?_)
  obtain ⟨rfl, hloop⟩ := ht
  obtain ⟨w, hw, hinc, hf, rfl, rfl, rfl⟩ :=
    recoverLoop_agree hF hP hlog (hready.follows hL).encodable hsmall hloop
  obtain ⟨hvalid, -, -⟩ := pushAll_eq (F := F) (o := o.toFormatOptions) {} (recordsOf L)
  have hcounted := counted_pushAll (F := F) (o := o.toFormatOptions) (recordsOf L)
  have himage : ∀ {t' : Store}, t'.disk.lookup (.wal g) = some j' →
      ∀ u, currentImage t' (.wal g) = some u → u = t'.disk.files j' := by
    intro t' ht' u hu
    obtain ⟨-, k, hk', rfl⟩ := image_eq_some.mp hu
    rw [Option.some.inj (hk'.symm.trans ht')]
  refine Spec.ite (fun hnil => ?_) (fun _ => ?_)
  · refine Spec.pure ?_
    rintro t' - rfl
    refine ⟨⟨hready, hf.encodable, fun u hu => ?_⟩, rfl, hcounted⟩
    have hwnil : w = [] := by simpa using hnil
    rw [himage hl u hu, hw, hwnil, List.append_nil]
  · -- cut the incomplete tail, then sync
    have hcut : (WalRecoveryResult.pushAll F o.toFormatOptions {} (recordsOf L)).validBytes =
        (logBytes F o.toFormatOptions (recordsOf L)).length := by rw [hvalid]; exact Nat.zero_add _
    rw [hcut]
    refine Spec.bind (S := fun _ t' => Ready F κ H o₀ o.toFormatOptions d v ts T I M (currentImage t') ∧
      t'.disk.lookup (.wal g) = some j' ∧
      (t'.disk.files j').current = logBytes F o.toFormatOptions (recordsOf L)) ?_ (fun _ => ?_)
    · have hrep := replaces_truncate (O := κ.formats) hF hP hw hf.encodable hinc
      have hset := KeptWith.setLog hk hready hl (hk.1.wf.truncate j' _) hrep
      refine Spec.atomically ?_ ?_
        (fun hq _ _ _ => ⟨fun hfits => hq hfits.quiet, fun hfits => hq hfits.quiet⟩)
      · rintro t' - rfl
        exact hset.1
      · rintro t' - rfl
        refine ⟨hset.2, hl, ?_⟩
        rw [Store.onDisk_disk, Disk.truncate_eq, Disk.setFile_files_self, Volatile.set_current, hw,
          List.take_left]
    refine Spec.bind (S := fun _ t' => Ready F κ H o₀ o.toFormatOptions d v ts T I M (currentImage t') ∧
      t'.disk.lookup (.wal g) = some j' ∧
      (t'.disk.files j').current = logBytes F o.toFormatOptions (recordsOf L)) ?_ (fun _ => ?_)
    · have hset : ∀ t', KeptWith F κ H t' →
          Ready F κ H o₀ o.toFormatOptions d v ts T I M (currentImage t') →
          t'.disk.lookup (.wal g) = some j' →
          KeptWith F κ H (t'.onDisk (·.sync j')) ∧ Ready F κ H o₀ o.toFormatOptions d v ts T I M
            (currentImage (t'.onDisk (·.sync j'))) :=
        fun t' hk' hr' hl' => KeptWith.setLog hk' hr' hl' (hk'.1.wf.sync j') replaces_flush
      refine Spec.atomically ?_ ?_
        (fun hq _ _ _ => ⟨fun hfits => hq hfits.quiet, fun hfits => hq hfits.quiet⟩)
      · rintro t' hk' ⟨hr', hl', -⟩
        exact (hset t' hk' hr' hl').1
      · rintro t' hk' ⟨hr', hl', hc'⟩
        refine ⟨(hset t' hk' hr' hl').2, hl', ?_⟩
        rw [Store.onDisk_disk, Disk.sync_eq, Disk.setFile_files_self, Volatile.flush_current, hc']
    · refine Spec.pure ?_
      rintro t' - ⟨hr', hl', hc'⟩
      refine ⟨⟨hr', hf.encodable, fun u hu => ?_⟩, rfl, ⟨hcounted.maximum, hcounted.minimum⟩⟩
      rw [himage hl' u hu, hc']

end

/-! ## All logs -/

/-- The tables are open and the logs have been replayed. -/
structure Restored (F : StorageFormat) (κ : Usage) (H : List Label) (o₀ o : FormatOptions)
    (v : Version) (ts : List SSTableReader) (T I M : List Entry) (st : Store) : Prop where
  loaded : Loaded F κ H o₀ o v ts T I M (currentImage st)
  files : Files F o (currentImage st) ts
  frozen : ∀ r ∈ recordsOf I, Encodable F o r
  clean : Clean F o (activeNumber v.nextFileNumber I) M st

/-- What recovery makes of a Version and the logs from its frontier on. -/
structure Replays (v : Version) (I M : List Entry) (r : Recovered) : Prop where
  mutableTable : r.mutableTable = replayInto .empty (recordsOf M)
  immutable : r.immutable = if I = [] then none else
    some (.new v.nextFileNumber (replayInto .empty (recordsOf I)))
  mutableGeneration : r.mutableGeneration = activeNumber v.nextFileNumber I
  lastSequence : r.lastSequence = lastOf v.lastSequence (recordsOf (I ++ M))

theorem lastOf_append (n : Nat) (rs ss : List Record) :
    lastOf n (rs ++ ss) = lastOf (lastOf n rs) ss := by
  induction rs generalizing n with
  | nil => rfl
  | cons r rs ih => exact ih r.sequence

theorem lastOf_max {n : Nat} {rs : List Record} {o : FormatOptions} (h : Follows F o n rs) :
    max n (lastOf 0 rs) = lastOf n rs := by
  cases rs with
  | nil => exact Nat.max_zero n
  | cons r rs => exact max_eq_right h.le_lastOf.1

/-- Records that follow a number pass the check that compares them with it. -/
theorem Counted.behind {o : FormatOptions} {n : Nat} {rs : List Record}
    {result : WalRecoveryResult} (h : Counted rs result) (hf : Follows F o n rs) :
    ¬ (result.recordsRecovered ≠ 0 ∧ result.minSequence ≤ n) := by
  rintro ⟨hne, hle⟩
  obtain ⟨r, hr, hmin⟩ := h.minimum hne
  have := hf.lt r hr
  omega

/-- The logs that are left to recover. -/
theorem Ready.wals {m : Image} (hP : F.Portable) (hnodup : d.names.Nodup)
    (h : Ready F κ H o₀ o.toFormatOptions d v ts T I M m) :
    unflushedLogs v d = [] ∧ I = [] ∧ M = [] ∧ m (.wal v.nextFileNumber) = none ∨
      unflushedLogs v d = [v.nextFileNumber] ∧ I = [] ∧ m (.wal v.nextFileNumber) ≠ none ∨
      unflushedLogs v d = [v.nextFileNumber, v.nextFileNumber + 1] ∧ I ≠ [] ∧
        m (.wal v.nextFileNumber) ≠ none ∧ m (.wal (v.nextFileNumber + 1)) ≠ none := by
  have hmem : ∀ g, g ∈ unflushedLogs v d ↔ v.nextFileNumber ≤ g ∧ m (.wal g) ≠ none := by
    intro g
    rw [unflushedLogs, List.mem_filter, mem_generations]
    constructor
    · rintro ⟨⟨f, hf, hg⟩, hle⟩
      have hle := of_decide_eq_true hle
      obtain ⟨rfl, -⟩ := FileName.walNumber_eq_some.mp hg
      exact ⟨hle, (h.listed _ hle).mpr hf⟩
    · rintro ⟨hle, hne⟩
      have hname := (h.listed g hle).mp hne
      -- the number is at the frontier, which has 64 bits
      have hnext := h.holds.inv.valid.next_ne
      have hword := h.toLoaded.next_word hP
      have hnumber : g ≠ 0 ∧ g ≤ maxUInt64 := by
        rcases h.frontier hname hle with rfl | ⟨hroom, rfl⟩
        · exact ⟨hnext, hword⟩
        · exact ⟨Nat.succ_ne_zero _, Nat.lt_of_le_of_ne hword hroom⟩
      exact ⟨⟨_, hname, FileName.walNumber_eq_some.mpr ⟨rfl, hnumber⟩⟩, decide_eq_true hle⟩
  have hfacts := h.holds.logs.facts
  have hcases := atFrontier_cases (unflushedLogs_strict hnodup)
    (fun g hg => h.frontier ((h.listed g ((hmem g).mp hg).1).mp ((hmem g).mp hg).2) ((hmem g).mp hg).1)
  by_cases hI : I = []
  · have hnum : activeNumber v.nextFileNumber I = v.nextFileNumber := if_pos hI
    have hbeyond : v.nextFileNumber + 1 ∉ unflushedLogs v d := by
      intro hin
      exact ((hmem _).mp hin).2 (hfacts.rest _ (by rw [hnum]; exact Nat.lt_succ_self _))
    rcases hcases with hc | hc | ⟨-, hc⟩ | ⟨-, hc⟩
    · have hnone : m (.wal v.nextFileNumber) = none := by
        by_contra hne
        have hin := (hmem v.nextFileNumber).mpr ⟨le_refl _, hne⟩
        rw [hc] at hin
        cases hin
      obtain ⟨-, hM⟩ := hfacts.missing (by rw [hnum]; exact hnone)
      exact Or.inl ⟨hc, hI, hM, hnone⟩
    · exact Or.inr (Or.inl ⟨hc, hI, ((hmem _).mp (by rw [hc]; simp)).2⟩)
    · exact absurd (by rw [hc]; simp) hbeyond
    · exact absurd (by rw [hc]; simp) hbeyond
  · have hnum : activeNumber v.nextFileNumber I = v.nextFileNumber + 1 := if_neg hI
    obtain ⟨u, hu, -⟩ := hfacts.frozen hI
    have hfirst : m (.wal v.nextFileNumber) ≠ none := by rw [hu]; simp
    have hsecond : m (.wal (v.nextFileNumber + 1)) ≠ none := by
      intro hno
      exact hI (hfacts.missing (by rw [hnum]; exact hno)).1
    have hin := (hmem v.nextFileNumber).mpr ⟨le_refl _, hfirst⟩
    have hin' := (hmem (v.nextFileNumber + 1)).mpr ⟨Nat.le_succ _, hsecond⟩
    rcases hcases with hc | hc | ⟨-, hc⟩ | ⟨-, hc⟩
    · rw [hc] at hin
      cases hin
    · rw [hc] at hin'
      simp at hin'
    · rw [hc] at hin
      simp at hin
    · exact Or.inr (Or.inr ⟨hc, hI, hfirst, hsecond⟩)

/-- What the loop over the logs holds once it has replayed one more. -/
def Recovered.push (two first : Bool) (g : Nat) (rs : List Record) (s : Recovered) : Recovered :=
  let s := { s with
    lastSequence := max s.lastSequence (lastOf 0 rs)
    previousMaxSequence := lastOf 0 rs }
  if two ∧ first then { s with immutable := some (.new g (replayInto .empty rs)) }
  else { s with mutableTable := replayInto .empty rs, mutableGeneration := g }

/-- One round of the loop over the logs. -/
theorem recoverWals_cons_ready (hF : F.Lawful) (hP : F.Portable) {g : Nat} {L : List Entry}
    (hL : LogOf v.nextFileNumber I M g L) {two first : Bool} {gs : List Nat} {s : Recovered}
    (hf : Follows F o₀ s.previousMaxSequence (recordsOf L))
    (hne : two ∧ first → recordsOf L ≠ []) {Q : Recovered → Store → Prop}
    (hrest : Spec q (KeptWith F κ H)
      (fun st => Ready F κ H o₀ o.toFormatOptions d v ts T I M (currentImage st) ∧
        Clean F o.toFormatOptions g L st)
      (recoverWals F o two false gs (s.push two first g (recordsOf L))) Q
      (fun _ _ => ¬ Fits q κ o.toFormatOptions)) :
    Spec q (KeptWith F κ H)
      (fun st => Ready F κ H o₀ o.toFormatOptions d v ts T I M (currentImage st) ∧
        currentImage st (.wal g) ≠ none)
      (recoverWals F o two first (g :: gs) s) Q (fun _ _ => ¬ Fits q κ o.toFormatOptions) := by
  refine Spec.fix (fun st _ hr => ?_)
  obtain ⟨u, hu⟩ := Option.ne_none_iff_exists'.mp hr.2
  obtain ⟨-, i, hi, -⟩ := image_eq_some.mp hu
  refine Spec.bind (S := fun r st =>
    (Ready F κ H o₀ o.toFormatOptions d v ts T I M (currentImage st) ∧
      Clean F o.toFormatOptions g L st) ∧
      r.1 = replayInto .empty (recordsOf L) ∧ Counted (recordsOf L) r.2)
    (Spec.conseq (recoverWal_ready hF hP hL (i := i)) ?_ (fun _ _ _ h => h) (fun _ _ _ h => h)) ?_
  · rintro t - rfl
    exact ⟨hr.1, hi⟩
  rintro ⟨x, result⟩
  refine Spec.fix (fun st' _ hst => ?_)
  obtain ⟨hclean, rfl, hcounted⟩ := hst
  have hrest' : Spec q (KeptWith F κ H) (fun t => t = st')
      (recoverWals F o two false gs (s.push two first g (recordsOf L))) Q
      (fun _ _ => ¬ Fits q κ o.toFormatOptions) := by
    refine Spec.conseq hrest ?_ (fun _ _ _ h => h) (fun _ _ _ h => h)
    rintro t - rfl
    exact hclean
  refine Spec.ite (fun hno => absurd hno (hcounted.behind hf)) (fun _ => ?_)
  dsimp only
  rw [hcounted.maximum]
  unfold Recovered.push at hrest'
  refine Spec.ite (fun htwo => ?_) (fun htwo => ?_)
  · rw [if_pos htwo] at hrest'
    refine Spec.ite (fun hempty => ?_) (fun _ => hrest')
    exact absurd (MemTable.isEmpty_iff.mp hempty) (replayInto_ne_nil (hne htwo))
  · rw [if_neg htwo] at hrest'
    exact hrest'

theorem recoverWals_ready (hF : F.Lawful) (hP : F.Portable) (hnodup : d.names.Nodup) :
    Spec q (KeptWith F κ H) (fun st => Ready F κ H o₀ o.toFormatOptions d v ts T I M (currentImage st))
      (recoverWals F o ((unflushedLogs v d).length = 2) true (unflushedLogs v d) (.start v))
      (fun r st => Restored F κ H o₀ o.toFormatOptions v ts T I M st ∧ Replays v I M r)
      (fun _ _ => ¬ Fits q κ o.toFormatOptions) := by
  refine Spec.fix (fun st hk hr => ?_)
  have hf := hr.holds.follows
  rw [recordsOf_append] at hf
  obtain ⟨hfI, hfM⟩ := Follows.append.mp hf
  rcases hr.wals hP hnodup with ⟨hwals, rfl, rfl, hnone⟩ | ⟨hwals, rfl, hone⟩ | ⟨hwals, hI, hone, htwo⟩
  · rw [hwals]
    refine Spec.pure ?_
    rintro t - rfl
    refine ⟨⟨hr.toLoaded, hr.files, nofun, nofun, fun u hu => ?_⟩, rfl, rfl, rfl, rfl⟩
    rw [activeNumber_nil, hnone] at hu
    cases hu
  · rw [hwals]
    have hrest : Spec q (KeptWith F κ H)
        (fun st => Ready F κ H o₀ o.toFormatOptions d v ts T [] M (currentImage st) ∧
          Clean F o.toFormatOptions (activeNumber v.nextFileNumber []) M st)
        (recoverWals F o false false []
          ((Recovered.start v).push false true v.nextFileNumber (recordsOf M)))
        (fun r st => Restored F κ H o₀ o.toFormatOptions v ts T [] M st ∧ Replays v [] M r)
        (fun _ _ => ¬ Fits q κ o.toFormatOptions) := by
      refine Spec.pure ?_
      rintro t - ⟨hready, hclean⟩
      exact ⟨⟨hready.toLoaded, hready.files, nofun, hclean⟩, rfl, rfl, rfl, lastOf_max hfM⟩
    refine Spec.conseq (recoverWals_cons_ready hF hP LogOf.active hfM (by simp) hrest) ?_
      (fun _ _ _ h => h) (fun _ _ _ h => h)
    rintro t - rfl
    exact ⟨hr, hone⟩
  · rw [hwals]
    have hnum : activeNumber v.nextFileNumber I = v.nextFileNumber + 1 := if_neg hI
    have hactive : LogOf v.nextFileNumber I M (v.nextFileNumber + 1) M := hnum ▸ LogOf.active
    have hne : recordsOf I ≠ [] := fun h => hI (List.map_eq_nil_iff.mp h)
    have hlast : lastOf 0 (recordsOf I) = lastOf v.lastSequence (recordsOf I) := by
      obtain ⟨r, rs, hrs⟩ := List.exists_cons_of_ne_nil hne
      rw [hrs]
      rfl
    have hfM' : Follows F o₀ (lastOf 0 (recordsOf I)) (recordsOf M) := hlast ▸ hfM
    -- the second round, with the Immutable's log replayed
    have hsecond : Spec q (KeptWith F κ H)
        (fun st => Ready F κ H o₀ o.toFormatOptions d v ts T I M (currentImage st) ∧
          Clean F o.toFormatOptions v.nextFileNumber I st)
        (recoverWals F o true false [v.nextFileNumber + 1]
          ((Recovered.start v).push true true v.nextFileNumber (recordsOf I)))
        (fun r st => Restored F κ H o₀ o.toFormatOptions v ts T I M st ∧ Replays v I M r)
        (fun _ _ => ¬ Fits q κ o.toFormatOptions) := by
      refine Spec.fix (fun st' _ hst => ?_)
      obtain ⟨hready', henc, -⟩ := hst
      have hrest : Spec q (KeptWith F κ H)
          (fun st => Ready F κ H o₀ o.toFormatOptions d v ts T I M (currentImage st) ∧
            Clean F o.toFormatOptions (v.nextFileNumber + 1) M st)
          (recoverWals F o true false []
            (((Recovered.start v).push true true v.nextFileNumber (recordsOf I)).push true false
              (v.nextFileNumber + 1) (recordsOf M)))
          (fun r st => Restored F κ H o₀ o.toFormatOptions v ts T I M st ∧ Replays v I M r)
          (fun _ _ => ¬ Fits q κ o.toFormatOptions) := by
        refine Spec.pure ?_
        rintro t - ⟨hready, hclean⟩
        refine ⟨⟨hready.toLoaded, hready.files, henc, hnum ▸ hclean⟩, rfl, (if_neg hI).symm,
          hnum.symm, ?_⟩
        show max (max v.lastSequence (lastOf 0 (recordsOf I))) (lastOf 0 (recordsOf M)) = _
        rw [lastOf_max hfI, lastOf_max hfM, recordsOf_append, lastOf_append]
      refine Spec.conseq (recoverWals_cons_ready hF hP hactive hfM' (by simp) hrest) ?_
        (fun _ _ _ h => h) (fun _ _ _ h => h)
      rintro t - rfl
      exact ⟨hready', (hready'.listed _ (Nat.le_succ _)).mpr
        ((hr.listed _ (Nat.le_succ _)).mp htwo)⟩
    refine Spec.conseq (recoverWals_cons_ready hF hP (LogOf.frozen hI) hfI (fun _ => hne) hsecond) ?_
      (fun _ _ _ h => h) (fun _ _ _ h => h)
    rintro t - rfl
    exact ⟨hr, hone⟩

/-! ## The active log -/

theorem Loaded.created {o : FormatOptions} {m : Image} (h : Loaded F κ H o₀ o v ts T [] [] m) :
    Loaded F κ H o₀ o v ts T [] []
      (Function.update m (.wal v.nextFileNumber) (some (.stable []))) := by
  refine ⟨h.known, h.manifests.update_wal _ _, h.admits, { h.holds with
    manifest := h.holds.manifest.update_wal _ _
    files := h.holds.files.update_wal _ _
    logs := .one (Function.update_self _ _ _) (LogFile.stable_clean []) (fun n hn => ?_) },
    h.manifest.update_wal _ _⟩
  rw [Function.update_of_ne (fun he => hn.ne' (FileName.wal.inj he))]
  exact h.holds.logs.facts.rest n hn

/-- Where there is no log, one is created. -/
theorem Restored.created {o : FormatOptions} (hk : KeptWith F κ H st)
    (h : Restored F κ H o₀ o v ts T I M st)
    (hl : st.disk.lookup (.wal (activeNumber v.nextFileNumber I)) = none) :
    KeptWith F κ H (st.onDisk (·.create (.wal (activeNumber v.nextFileNumber I)))) ∧
      Restored F κ H o₀ o v ts T I M
        (st.onDisk (·.create (.wal (activeNumber v.nextFileNumber I)))) := by
  have hnone : currentImage st (.wal (activeNumber v.nextFileNumber I)) = none := by
    rw [currentImage, image_of_core rfl]
    exact Option.map_eq_none_iff.mpr hl
  obtain ⟨rfl, rfl⟩ := h.loaded.holds.logs.facts.missing hnone
  rw [activeNumber_nil] at hl hnone ⊢
  have hloaded := h.loaded.created
  have himage := currentImage_created hk.1.wf (f := .wal v.nextFileNumber) rfl
  refine ⟨⟨⟨hk.1.wf.create _, hk.1.images.created hk.1.wf rfl ?_⟩, hk.2⟩, ?_⟩
  · have hkeep := hloaded.keeps
    rw [← hk.2] at hkeep
    exact hkeep
  · refine ⟨himage ▸ hloaded, himage ▸ h.files.update_wal _ _, h.frozen, h.clean.1, fun u hu => ?_⟩
    rw [activeNumber_nil, himage, Function.update_self] at hu
    rw [← Option.some.inj hu]
    rfl

theorem openAppend_restored {o : FormatOptions} :
    Spec q (KeptWith F κ H) (Restored F κ H o₀ o v ts T I M)
      (openAppend (.wal (activeNumber v.nextFileNumber I)))
      (fun i st => Restored F κ H o₀ o v ts T I M st ∧
        st.disk.lookup (.wal (activeNumber v.nextFileNumber I)) = some i) (fun _ _ => ¬ q) := by
  refine Spec.fix (fun st hk hr => ?_)
  cases hl : st.disk.lookup (.wal (activeNumber v.nextFileNumber I)) with
  | some i =>
    refine Spec.conseq (openAppend_current hl) (fun _ _ h => h) ?_ (fun _ _ _ h => h)
    rintro j t - ⟨rfl, rfl⟩
    exact ⟨hr, hl⟩
  | none =>
    obtain ⟨hk', hr'⟩ := hr.created hk hl
    refine Spec.get_bind (fun s _ he => ?_)
    rw [he, hl]
    refine Spec.get_bind (fun s' _ he' => ?_)
    rw [he'.2]
    refine Spec.bind (S := fun _ t => t =
      st.onDisk (·.create (.wal (activeNumber v.nextFileNumber I)))) ?_ (fun _ => Spec.pure ?_)
    · refine Spec.atomically ?_ ?_ (fun hq _ _ _ => ⟨hq, hq⟩)
      · rintro t - ⟨-, -, rfl⟩
        exact hk'
      · rintro t - ⟨-, -, rfl⟩
        rfl
    · rintro t - rfl
      exact ⟨hr', Disk.lookup_create_self _ _⟩

/-! ## What `Open` returns -/

/-- A database that has just been opened, and its directory. -/
structure Opened (F : StorageFormat) (κ : Usage) (H : List Label) (o₀ : FormatOptions)
    (o : Options) (v : Version) (ts : List SSTableReader) (T I M : List Entry) (db : Database)
    (st : Store) : Prop where
  accepted : o.accepted = true
  known : κ.formats o.toFormatOptions
  restored : Restored F κ H o₀ o.toFormatOptions v ts T I M st
  synced : st.disk.dir.states = [st.disk.dir.current]
  members : ∃ r i, Replays v I M r ∧
    st.disk.lookup (.wal (activeNumber v.nextFileNumber I)) = some i ∧ db = newDatabase o v ts r i

end

end MiniKV
