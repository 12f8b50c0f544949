import MiniKV.Recovery
import MiniKV.Storage.FaultFree

/-!
# Which directories open

`OpenWithEnvironment` on an arbitrary directory, without faults: which sets of
logs it accepts, and what a directory looks like that it has rejected.
-/

namespace MiniKV

open Lib

/-- A table of a Version is there and as the MANIFEST says. -/
def LoadsTable (F : StorageFormat) (o : Options) (view : FileName → Option Bytes)
    (t : VersionTable) : Prop :=
  ∃ f b rs, f.sstNumber = some t.generation ∧ view f = some b ∧
    F.openTable o.toFormatOptions b = .ok (t.metadata, rs)

/-- The MANIFEST decodes as a Version, and every table of the Version is there and as the
MANIFEST says. -/
structure Loads (F : StorageFormat) (o : Options) (view : FileName → Option Bytes) (v : Version) :
    Prop where
  manifest : ∃ b, view .manifest = some b ∧ b.length ≤ kMaximumManifestSize ∧
    F.decodeManifest o.toFormatOptions b = .ok v
  tables : ∀ t ∈ v.tables, LoadsTable F o view t

/-- Files that `Open` removes: temporary ones, tables the Version does not name and logs
below its frontier. -/
def Version.stale (v : Version) (f : FileName) : Bool :=
  match readName f.text with
  | .temporary => true
  | .table n => !(v.tables.map VersionTable.generation).contains n
  | .log n => n < v.nextFileNumber
  | .manifest => false
  | .unknown => false

/-- The logs at or above the frontier of a Version, in ascending order. -/
def unflushedLogs (v : Version) (d : Dir) : List Nat :=
  (generations FileName.walNumber d).filter (fun g => v.nextFileNumber ≤ g)

/-- The numbers of the logs at or above the frontier. -/
def unflushedNumbers (st : Store) (v : Version) : Set Nat :=
  {n | v.nextFileNumber ≤ n ∧ ∃ f b, f.walNumber = some n ∧ st.view f = some b}

/-- A log that `Open` does not take for one ahead of the frontier. -/
abbrev AtFrontier (next g : Nat) : Prop := g = next ∨ (next ≠ maxUInt64 ∧ g = next + 1)

/-! ## Loading the tables -/

section

variable {F : StorageFormat} {o : Options}

theorem mem_generations {pick : FileName → Option Nat} {d : Dir} {n : Nat} :
    n ∈ generations pick d ↔ ∃ f ∈ d.names, pick f = some n := by
  rw [generations, List.mem_insertionSort, List.mem_filterMap]

theorem mem_generations_view {pick : FileName → Option Nat} {st : Store} {n : Nat} :
    n ∈ generations pick st.disk.dir.current ↔ ∃ f b, pick f = some n ∧ st.view f = some b := by
  rw [mem_generations]
  constructor
  · rintro ⟨f, hf, hn⟩
    obtain ⟨b, hb⟩ := Store.mem_names.mp hf
    exact ⟨f, b, hn, hb⟩
  · rintro ⟨f, b, hn, hb⟩
    exact ⟨f, Store.mem_names.mpr ⟨b, hb⟩, hn⟩

theorem loadManifest_calm {st : Store} {b : Bytes} (hb : st.view .manifest = some b) :
    loadManifest F o.toFormatOptions st.calm =
      ((if kMaximumManifestSize < b.length then
          Prog.fail (manifestCorruption "file exceeds the format size limit")
        else Prog.ofExcept (F.decodeManifest o.toFormatOptions b) : Io Version) st.calm) := by
  rw [loadManifest, Prog.bind_of_ok (Store.readFile_calm hb)]

theorem openReader_calm {st : Store} {f : FileName} {b : Bytes} (hb : st.view f = some b) :
    (∃ e, F.openTable o.toFormatOptions b = .error e ∧
        openReader F o.toFormatOptions f st.calm = (.error e, st.calm)) ∨
      ∃ md rs, F.openTable o.toFormatOptions b = .ok (md, rs) ∧
        openReader F o.toFormatOptions f st.calm = (.ok ⟨f, md, rs⟩, st.calm) := by
  rw [openReader, Prog.bind_of_ok (Store.readFile_calm hb)]
  cases ht : F.openTable o.toFormatOptions b with
  | error e => exact Or.inl ⟨e, rfl, rfl⟩
  | ok p =>
    obtain ⟨md, rs⟩ := p
    exact Or.inr ⟨md, rs, rfl, rfl⟩

/-- Loading tables changes nothing, and succeeds exactly if they are all there and as
expected. -/
theorem openTables_calm (st : Store) (ts : List VersionTable) :
    (∃ e, openTables F o (generations FileName.sstNumber st.disk.dir.current) ts st.calm =
        (.error e, st.calm) ∧ ¬ ∀ t ∈ ts, LoadsTable F o st.view t) ∨
      ∃ readers, openTables F o (generations FileName.sstNumber st.disk.dir.current) ts st.calm =
        (.ok readers, st.calm) ∧ ∀ t ∈ ts, LoadsTable F o st.view t := by
  induction ts with
  | nil => exact Or.inr ⟨[], rfl, fun t ht => by cases ht⟩
  | cons t ts ih =>
    rw [openTables]
    by_cases hpresent : (generations FileName.sstNumber st.disk.dir.current).contains t.generation
    · rw [if_neg (by rw [hpresent]; decide)]
      rw [List.contains_iff_mem, mem_generations_view] at hpresent
      obtain ⟨f, b, hf, hb⟩ := hpresent
      have hfile := (FileName.sstNumber_eq_some.mp hf).1
      rw [hfile] at hb
      -- there is no other file of that number
      have honly : LoadsTable F o st.view t →
          ∃ rs, F.openTable o.toFormatOptions b = .ok (t.metadata, rs) := by
        rintro ⟨f', b', rs, hf', hb', hok⟩
        rw [(FileName.sstNumber_eq_some.mp hf').1, hb] at hb'
        exact ⟨rs, Option.some.inj hb' ▸ hok⟩
      rcases openReader_calm (F := F) (o := o) hb with ⟨e, he, hrun⟩ | ⟨md, rs, hopen, hrun⟩
      · left
        refine ⟨e, by rw [Prog.bind_apply, hrun], fun hall => ?_⟩
        obtain ⟨rs, hok⟩ := honly (hall t List.mem_cons_self)
        rw [he] at hok
        cases hok
      · rw [Prog.bind_of_ok hrun]
        dsimp only
        by_cases hmd : md = t.metadata
        · rw [if_neg (not_not.mpr hmd)]
          rcases ih with ⟨e, hrest, hno⟩ | ⟨readers, hrest, hall⟩
          · left
            refine ⟨e, by rw [Prog.bind_apply, hrest], fun hall => hno ?_⟩
            exact fun u hu => hall u (List.mem_cons_of_mem _ hu)
          · right
            refine ⟨_, by rw [Prog.bind_of_ok hrest]; rfl, fun u hu => ?_⟩
            rcases List.mem_cons.mp hu with rfl | hu
            · exact ⟨f, b, rs, hf, hfile ▸ hb, hmd ▸ hopen⟩
            · exact hall u hu
        · left
          rw [if_pos hmd]
          refine ⟨_, rfl, fun hall => hmd ?_⟩
          obtain ⟨rs', hok⟩ := honly (hall t List.mem_cons_self)
          rw [hopen] at hok
          exact (Prod.mk.inj (Except.ok.inj hok)).1
    · left
      rw [if_pos (by rw [Bool.eq_false_iff.mpr hpresent]; rfl)]
      refine ⟨_, rfl, fun hall => hpresent ?_⟩
      obtain ⟨f, b, rs, hf, hb, -⟩ := hall t List.mem_cons_self
      rw [List.contains_iff_mem, mem_generations_view]
      exact ⟨f, b, hf, hb⟩

theorem Loads.unique {view : FileName → Option Bytes} {v v' : Version} (h : Loads F o view v)
    (h' : Loads F o view v') : v = v' := by
  obtain ⟨b, hb, -, hdecode⟩ := h.manifest
  obtain ⟨b', hb', -, hdecode'⟩ := h'.manifest
  rw [hb] at hb'
  rw [← Option.some.inj hb', hdecode] at hdecode'
  exact Except.ok.inj hdecode'

/-! ## Cleaning up -/

/-- The loop over sorted logs removes the obsolete ones and stops at one ahead of the
frontier. -/
theorem sortWals_calm (next : Nat) {gs : List Nat} (hsorted : gs.Pairwise (· ≤ ·)) (st : Store) :
    ((∀ g ∈ gs, next ≤ g → AtFrontier next g) ∧
        sortWals next gs st.calm = (.ok (gs.filter (fun g => next ≤ g)),
          (Store.removedAll ((gs.filter (fun g => g < next)).map FileName.wal) st).calm)) ∨
      ((¬ ∀ g ∈ gs, next ≤ g → AtFrontier next g) ∧
        ∃ e, e.code = .corruption ∧ sortWals next gs st.calm = (.error e,
          (Store.removedAll ((gs.filter (fun g => g < next)).map FileName.wal) st).calm)) := by
  induction gs generalizing st with
  | nil => exact Or.inl ⟨by simp, rfl⟩
  | cons g gs ih =>
    obtain ⟨hle, hsorted⟩ := List.pairwise_cons.mp hsorted
    rw [sortWals]
    by_cases hold : g < next
    · have hfilter : (g :: gs).filter (fun g => decide (g < next)) =
          g :: gs.filter (fun g => decide (g < next)) := List.filter_cons_of_pos (decide_eq_true hold)
      have hkept : (g :: gs).filter (fun g => decide (next ≤ g)) =
          gs.filter (fun g => decide (next ≤ g)) :=
        List.filter_cons_of_neg (by simpa using hold)
      rw [if_pos hold, Prog.bind_of_ok (Store.removeFile_calm (.wal g) st), hfilter, hkept,
        List.map_cons, Store.removedAll, List.forall_mem_cons]
      have hskip : (next ≤ g → AtFrontier next g) := fun hge => absurd hge (not_le.mpr hold)
      rcases ih hsorted (st.removed (.wal g)) with ⟨hall, hrun⟩ | ⟨hno, e, he, hrun⟩
      · exact Or.inl ⟨⟨hskip, hall⟩, hrun⟩
      · exact Or.inr ⟨fun hall => hno hall.2, e, he, hrun⟩
    · have hge : next ≤ g := not_lt.mp hold
      have hnone : ∀ x ∈ g :: gs, ¬ x < next := by
        intro x hx
        rcases List.mem_cons.mp hx with rfl | hx
        · exact hold
        · exact not_lt.mpr (hge.trans (hle x hx))
      have hfilter : (g :: gs).filter (fun g => decide (g < next)) = [] :=
        List.filter_eq_nil_iff.mpr (fun x hx => by simpa using hnone x hx)
      have hrest : gs.filter (fun g => decide (g < next)) = [] :=
        List.filter_eq_nil_iff.mpr (fun x hx => by simpa using hnone x (List.mem_cons_of_mem _ hx))
      have hkept : (g :: gs).filter (fun g => decide (next ≤ g)) =
          g :: gs.filter (fun g => decide (next ≤ g)) :=
        List.filter_cons_of_pos (decide_eq_true hge)
      rw [if_neg hold, hfilter, hkept, List.map_nil, Store.removedAll, List.forall_mem_cons]
      by_cases hfrontier : AtFrontier next g
      · rw [if_pos hfrontier]
        have hrun := ih hsorted st
        rw [hrest, List.map_nil, Store.removedAll] at hrun
        rcases hrun with ⟨hall, hrun⟩ | ⟨hno, e, he, hrun⟩
        · exact Or.inl ⟨⟨fun _ => hfrontier, hall⟩, by rw [Prog.bind_of_ok hrun]; rfl⟩
        · exact Or.inr ⟨fun hall => hno hall.2, e, he, by rw [Prog.bind_apply, hrun]⟩
      · rw [if_neg hfrontier]
        exact Or.inr ⟨fun hall => hfrontier (hall.1 hge), _, rfl, rfl⟩

theorem generations_sorted (pick : FileName → Option Nat) (d : Dir) :
    (generations pick d).Pairwise (· ≤ ·) := List.pairwise_insertionSort _ _

/-- The directory without what is stale. -/
def cleaned (v : Version) (view : FileName → Option Bytes) (f : FileName) : Option Bytes :=
  if v.stale f then none else view f

/-- The stale files of a directory, in the order in which `Open` removes them. -/
def staleFiles (v : Version) (d : Dir) : List FileName :=
  d.names.filter (fun f => readName f.text = .temporary) ++
    (((generations FileName.sstNumber d).filter
      (fun g => !(v.tables.map VersionTable.generation).contains g)).map FileName.sst ++
    ((generations FileName.walNumber d).filter (· < v.nextFileNumber)).map FileName.wal)

/-- A stale file is of one of the three kinds. -/
theorem Version.stale_iff {v : Version} {f : FileName} : v.stale f = true ↔
    readName f.text = .temporary ∨
      (∃ n, f.sstNumber = some n ∧ (v.tables.map VersionTable.generation).contains n = false) ∨
      ∃ n, f.walNumber = some n ∧ n < v.nextFileNumber := by
  rw [stale, FileName.sstNumber, FileName.walNumber]
  cases readName f.text <;> simp

theorem mem_staleFiles {v : Version} {st : Store} {f : FileName} :
    f ∈ staleFiles v st.disk.dir.current ↔ v.stale f = true ∧ ∃ b, st.view f = some b := by
  rw [Version.stale_iff, staleFiles, List.mem_append, List.mem_append, List.mem_filter,
    List.mem_map, List.mem_map, Store.mem_names, decide_eq_true_eq]
  constructor
  · rintro (⟨hb, htmp⟩ | ⟨n, hn, rfl⟩ | ⟨n, hn, rfl⟩)
    · exact ⟨Or.inl htmp, hb⟩
    · obtain ⟨hm, hdead⟩ := List.mem_filter.mp hn
      obtain ⟨f, b, hf, hb⟩ := mem_generations_view.mp hm
      obtain ⟨rfl, -⟩ := FileName.sstNumber_eq_some.mp hf
      exact ⟨Or.inr (Or.inl ⟨n, hf, by simpa using hdead⟩), b, hb⟩
    · obtain ⟨hm, hold⟩ := List.mem_filter.mp hn
      obtain ⟨f, b, hf, hb⟩ := mem_generations_view.mp hm
      obtain ⟨rfl, -⟩ := FileName.walNumber_eq_some.mp hf
      exact ⟨Or.inr (Or.inr ⟨n, hf, of_decide_eq_true hold⟩), b, hb⟩
  · rintro ⟨htmp | ⟨n, hn, hdead⟩ | ⟨n, hn, hold⟩, b, hb⟩
    · exact Or.inl ⟨⟨b, hb⟩, htmp⟩
    · refine Or.inr (Or.inl ⟨n, List.mem_filter.mpr ⟨mem_generations_view.mpr ⟨f, b, hn, hb⟩, ?_⟩,
        (FileName.sstNumber_eq_some.mp hn).1.symm⟩)
      simpa using hdead
    · exact Or.inr (Or.inr ⟨n, List.mem_filter.mpr ⟨mem_generations_view.mpr ⟨f, b, hn, hb⟩,
        decide_eq_true hold⟩, (FileName.walNumber_eq_some.mp hn).1.symm⟩)

theorem view_removedAll_stale (v : Version) (st : Store) :
    (Store.removedAll (staleFiles v st.disk.dir.current) st).view = cleaned v st.view := by
  funext f
  rw [Store.view_removedAll, cleaned]
  by_cases hstale : v.stale f = true
  · rw [if_pos hstale]
    cases hf : st.view f with
    | none =>
      split <;> rfl
    | some b => rw [if_pos (mem_staleFiles.mpr ⟨hstale, b, hf⟩)]
  · rw [if_neg hstale, if_neg (fun hm => hstale (mem_staleFiles.mp hm).1)]

theorem unflushedNumbers_eq {st : Store} {v : Version} :
    unflushedNumbers st v = {n | n ∈ unflushedLogs v st.disk.dir.current} := by
  ext n
  show _ ↔ n ∈ unflushedLogs v st.disk.dir.current
  rw [unflushedLogs, List.mem_filter, mem_generations_view, decide_eq_true_eq, and_comm]
  rfl

theorem mem_unflushedLogs {v : Version} {st : Store} {g : Nat}
    (h : g ∈ unflushedLogs v st.disk.dir.current) : v.nextFileNumber ≤ g ∧ g ≤ maxUInt64 ∧
      (FileName.wal g).walNumber = some g ∧ ∃ b, st.view (.wal g) = some b := by
  have hmem : g ∈ unflushedNumbers st v := by
    rw [unflushedNumbers_eq]
    exact h
  obtain ⟨hle, f, b, hf, hb⟩ := hmem
  obtain ⟨rfl, -, hword⟩ := FileName.walNumber_eq_some.mp hf
  exact ⟨hle, hword, hf, b, hb⟩

/-- The cleaning removes exactly what is stale, also where it ends with an error. -/
theorem openCleanup_calm (st : Store) (hd : st.disk.Ordinary) (v : Version) :
    ∃ st' : Store, st'.disk.Ordinary ∧ st'.view = cleaned v st.view ∧
      (((∀ g ∈ unflushedLogs v st.disk.dir.current, AtFrontier v.nextFileNumber g) ∧
          ∃ m n, openCleanup st.disk.dir.current v st.calm =
            (.ok (unflushedLogs v st.disk.dir.current, m, n), st'.calm)) ∨
        ((¬ ∀ g ∈ unflushedLogs v st.disk.dir.current, AtFrontier v.nextFileNumber g) ∧
          ∃ e, e.code = .corruption ∧
            openCleanup st.disk.dir.current v st.calm = (.error e, st'.calm))) := by
  have hview := view_removedAll_stale v st
  have hord := Store.Ordinary.removedAll hd (staleFiles v st.disk.dir.current)
  have hfrontier : (∀ g ∈ generations FileName.walNumber st.disk.dir.current,
      v.nextFileNumber ≤ g → AtFrontier v.nextFileNumber g) ↔
      ∀ g ∈ unflushedLogs v st.disk.dir.current, AtFrontier v.nextFileNumber g := by
    constructor
    · intro h g hg
      obtain ⟨hm, hle⟩ := List.mem_filter.mp hg
      exact h g hm (of_decide_eq_true hle)
    · intro h g hg hle
      exact h g (List.mem_filter.mpr ⟨hg, decide_eq_true hle⟩)
  unfold openCleanup
  dsimp only
  rw [Prog.bind_of_ok (Store.removeFiles_calm _ st),
    Prog.bind_of_ok (Store.removeFiles_calm _ _)]
  rw [staleFiles, Store.removedAll_append, Store.removedAll_append] at hview hord
  rcases sortWals_calm v.nextFileNumber (generations_sorted FileName.walNumber
    st.disk.dir.current) (Store.removedAll _ (Store.removedAll _ st)) with
    ⟨hall, hrun⟩ | ⟨hno, e, he, hrun⟩
  · rw [Prog.bind_of_ok hrun]
    split
    · exact ⟨_, hord, hview, Or.inl ⟨hfrontier.mp hall, _, _, rfl⟩⟩
    · rw [Prog.bind_of_ok (Store.syncDirectory_calm _)]
      exact ⟨_, Store.Ordinary.directorySynced hord, hview, Or.inl ⟨hfrontier.mp hall, _, _, rfl⟩⟩
  · refine ⟨_, hord, hview, Or.inr ⟨fun h => hno (hfrontier.mpr h), e, he, ?_⟩⟩
    rw [Prog.bind_apply, hrun]

end

/-! ## Recovering the logs -/

/-- Bytes are read as a log in one way. -/
theorem WalGrammar.unique {o : FormatOptions} {content t t' : Bytes} {rs rs' : List Record}
    (h : WalGrammar o content rs t) (h' : WalGrammar o content rs' t') : rs = rs' ∧ t = t' := by
  have hbytes := h.bytes.symm.trans h'.bytes
  obtain ⟨xs, rfl, ht⟩ := RecoveryFile.reading_append h.encodes h'.encodes h'.tail hbytes
  cases xs with
  | nil => exact ⟨(List.append_nil rs).symm, ht⟩
  | cons x xs =>
    -- a tail does not begin with a whole record
    have hx : x.Encodes o := h'.encodes x (by simp)
    rw [List.flatMap_cons, List.append_assoc] at ht
    have hnone : ∀ r ∈ ([] : List Record), r.Encodes o := by simp
    obtain ⟨_, hno, -⟩ := RecoveryFile.reading_cons hx hnone h.tail ht.symm
    cases hno

section

variable (o : FormatOptions) (view : FileName → Option Bytes)

/-- The bytes of a log. -/
def logAt (g : Nat) : Bytes := (view (.wal g)).getD []

/-- A log with bytes of an incomplete record behind its last whole one. -/
def EndsTorn (g : Nat) : Prop := ∃ rs t, WalGrammar o (logAt view g) rs t ∧ t ≠ []

/-- A log that another may follow: it can be read, and has records, all of them newer than
the Version. -/
def Precedes (v : Version) (g : Nat) : Prop :=
  ∃ rs t, WalGrammar o (logAt view g) rs t ∧ rs ≠ [] ∧ ∀ r ∈ rs, v.lastSequence < r.sequence

/-- The records of a log come behind a sequence number, and of two logs the older one has
records. -/
def InPlace (two first : Bool) (rs : List Record) (previous : Nat) : Prop :=
  (∀ r ∈ rs, previous < r.sequence) ∧ (two = true → first = true → rs ≠ [])

/-- Whether a log with an incomplete tail is among those that are recovered before the logs
are accepted or rejected. -/
def CutsTail (two : Bool) : Bool → List Nat → Nat → Prop
  | _, [], _ => False
  | first, g :: gs, previous => ∃ rs t, WalGrammar o (logAt view g) rs t ∧
    (t ≠ [] ∨ (InPlace two first rs previous ∧ CutsTail two false gs (lastOf 0 rs)))

/-- Logs that can all be read, each in place behind the ones before it. -/
def AcceptsLogs (two : Bool) : Bool → List Nat → Nat → Prop
  | _, [], _ => True
  | first, g :: gs, previous => ∃ rs t, WalGrammar o (logAt view g) rs t ∧
    InPlace two first rs previous ∧ AcceptsLogs two false gs (lastOf 0 rs)

end

section

variable {o : FormatOptions} {view view' : FileName → Option Bytes} {two first : Bool} {g : Nat}
  {gs : List Nat} {previous : Nat} {rs : List Record} {t : Bytes}

theorem acceptsLogs_cons (h : WalGrammar o (logAt view g) rs t) :
    AcceptsLogs o view two first (g :: gs) previous ↔
      InPlace two first rs previous ∧ AcceptsLogs o view two false gs (lastOf 0 rs) := by
  constructor
  · rintro ⟨rs', t', h', hrest⟩
    obtain ⟨rfl, -⟩ := h'.unique h
    exact hrest
  · intro hrest
    exact ⟨rs, t, h, hrest⟩

theorem cutsTail_cons (h : WalGrammar o (logAt view g) rs t) :
    CutsTail o view two first (g :: gs) previous ↔
      t ≠ [] ∨ (InPlace two first rs previous ∧ CutsTail o view two false gs (lastOf 0 rs)) := by
  constructor
  · rintro ⟨rs', t', h', hrest⟩
    obtain ⟨rfl, rfl⟩ := h'.unique h
    exact hrest
  · intro hrest
    exact ⟨rs, t, h, hrest⟩

theorem AcceptsLogs.congr (h : ∀ g ∈ gs, view' (.wal g) = view (.wal g)) :
    AcceptsLogs o view' two first gs previous ↔ AcceptsLogs o view two first gs previous := by
  induction gs generalizing first previous with
  | nil => exact Iff.rfl
  | cons g gs ih =>
    have hrest : ∀ first previous, AcceptsLogs o view' two first gs previous ↔
        AcceptsLogs o view two first gs previous :=
      fun _ _ => ih (fun x hx => h x (List.mem_cons_of_mem _ hx))
    simp only [AcceptsLogs, logAt, h g List.mem_cons_self, hrest]

theorem CutsTail.congr (h : ∀ g ∈ gs, view' (.wal g) = view (.wal g)) :
    CutsTail o view' two first gs previous ↔ CutsTail o view two first gs previous := by
  induction gs generalizing first previous with
  | nil => exact Iff.rfl
  | cons g gs ih =>
    have hrest : ∀ first previous, CutsTail o view' two first gs previous ↔
        CutsTail o view two first gs previous :=
      fun _ _ => ih (fun x hx => h x (List.mem_cons_of_mem _ hx))
    simp only [CutsTail, logAt, h g List.mem_cons_self, hrest]

end

/-- What recovery says of the records of a log. -/
structure Summary (rs : List Record) (result : WalRecoveryResult) : Prop where
  maximum : result.maxSequence = lastOf 0 rs
  overlaps : ∀ previous, (result.recordsRecovered ≠ 0 ∧ result.minSequence ≤ previous) ↔
    ∃ r ∈ rs, r.sequence ≤ previous

theorem summary_pushAll {F : StorageFormat} {o : FormatOptions} {rs : List Record}
    (h : rs.Pairwise (fun r x => r.sequence < x.sequence)) :
    Summary rs (WalRecoveryResult.pushAll F o {} rs) := by
  obtain ⟨-, hcount, hmax⟩ := pushAll_eq (F := F) (o := o) {} rs
  refine ⟨hmax, fun previous => ?_⟩
  cases rs with
  | nil => simp [WalRecoveryResult.pushAll]
  | cons r rs =>
    rw [pushAll_minSequence]
    constructor
    · rintro ⟨-, hle⟩
      exact ⟨r, List.mem_cons_self, hle⟩
    · rintro ⟨x, hx, hle⟩
      refine ⟨by rw [hcount]; simp, ?_⟩
      rcases List.mem_cons.mp hx with rfl | hx
      · exact hle
      · exact (((List.pairwise_cons.mp h).1 x hx).le).trans hle

section

variable {F : StorageFormat} {shape : BloomShape} {o : Options}

theorem view_small {st : Store} (hd : st.disk.Ordinary) (f : FileName) :
    ((st.view f).getD []).length ≤ maximumFileSize := by
  cases hf : st.view f with
  | none => exact Nat.zero_le _
  | some b =>
    obtain ⟨i, -, rfl⟩ := Store.view_eq_some.mp hf
    exact hd.small i

/-- Recovery of one log: it is refused and left alone, or read and left with its whole
records. -/
theorem recoverWal_calm (shape : BloomShape) {st : Store} (hd : st.disk.Ordinary) {g : Nat}
    (hpresent : ∃ b, st.view (.wal g) = some b) :
    ((¬ ∃ rs t, WalGrammar o.toFormatOptions (logAt st.view g) rs t) ∧
        ∃ e, e.code = .corruption ∧ recoverWal (fileFormat shape) o.toFormatOptions (.wal g)
          st.calm = (.error e, st.calm)) ∨
      ∃ rs t result st', WalGrammar o.toFormatOptions (logAt st.view g) rs t ∧
        Summary rs result ∧ st'.disk.Ordinary ∧
        (∀ f, st'.view f =
          if f = .wal g then some (rs.flatMap Record.encoding) else st.view f) ∧
        recoverWal (fileFormat shape) o.toFormatOptions (.wal g) st.calm =
          (.ok (replayInto .empty rs, result), Store.calm st') := by
  obtain ⟨b, hb⟩ := hpresent
  obtain ⟨i, hi, -⟩ := Store.view_eq_some.mp hb
  have hlog : logAt st.view g = b := by rw [logAt, hb, Option.getD_some]
  have hfits : b.length ≤ maxUInt64 := by
    have hsmall := view_small hd (.wal g)
    rw [hb, Option.getD_some] at hsmall
    exact hsmall.trans (by decide)
  rw [hlog]
  unfold recoverWal
  rw [Prog.bind_of_ok (Store.openAppend_calm hi), Prog.bind_of_ok (Store.readFile_calm hb)]
  by_cases hgrammar : ∃ rs t, WalGrammar o.toFormatOptions b rs t
  · right
    obtain ⟨rs, t, h⟩ := hgrammar
    have hsummary := summary_pushAll (F := fileFormat shape) (o := o.toFormatOptions) h.increasing
    have hvalid : (WalRecoveryResult.pushAll (fileFormat shape) o.toFormatOptions {} rs).validBytes =
        (rs.flatMap Record.encoding).length := by
      rw [(pushAll_eq _ _).1, logBytes_fileFormat shape h.encodes]
      exact Nat.zero_add _
    rw [(recoverLoop_grammar shape hfits h).1]
    cases t with
    | nil =>
      refine ⟨rs, [], _, st, h, hsummary, hd, fun f => ?_, rfl⟩
      split
      · rename_i hf
        rw [hf, hb, h.bytes, List.append_nil]
      · rfl
    | cons c t =>
      refine ⟨rs, c :: t, _, st.cut i _, h, ?_, Store.Ordinary.cut hd i _, fun f => ?_, rfl⟩
      · exact ⟨hsummary.maximum, hsummary.overlaps⟩
      · rw [Store.view_cut hd hi hb, hvalid, h.bytes, List.take_left]
  · left
    refine ⟨hgrammar, ?_⟩
    cases hloop : recoverLoop (fileFormat shape) o.toFormatOptions b.length b .empty {} with
    | error e => exact ⟨e, recoverLoop_error hloop, rfl⟩
    | ok p =>
      obtain ⟨rs, t, hbytes, hfollows, ht⟩ :=
        recoverLoop_ok (fileFormat_lawful shape) (le_refl _) hloop
      exact absurd ⟨rs, t, (walGrammar_iff shape).mpr ⟨hbytes, hfollows, ht⟩⟩ hgrammar

/-- What the loop over the logs comes to. -/
structure RecoveredLogs (o : FormatOptions) (two first : Bool) (gs : List Nat)
    (previous : Nat) (st : Store) (r : Result Status Recovered) (st' : Store) : Prop where
  ordinary : st'.disk.Ordinary
  others : ∀ f, (∀ g ∈ gs, f ≠ .wal g) → st'.view f = st.view f
  accepted : ∀ s, r = .ok s → AcceptsLogs o st.view two first gs previous
  rejected : ∀ e, r = .error e → e.code = .corruption ∧
    ¬ AcceptsLogs o st.view two first gs previous ∧
    (st'.view = st.view ↔ ¬ CutsTail o st.view two first gs previous)
  ended : r ≠ .killed

/-- The loop after one log has been recovered. -/
theorem recoverWals_cons (two first : Bool) {g : Nat} (gs : List Nat) (s : Recovered)
    {rs : List Record} {result : WalRecoveryResult} {fs fs' : Fs} (hresult : Summary rs result)
    (h : recoverWal (fileFormat shape) o.toFormatOptions (.wal g) fs =
      (.ok (replayInto .empty rs, result), fs')) :
    (¬ InPlace two first rs s.previousMaxSequence → ∃ e, e.code = .corruption ∧
        recoverWals (fileFormat shape) o two first (g :: gs) s fs = (.error e, fs')) ∧
      (InPlace two first rs s.previousMaxSequence →
        ∃ s', s'.previousMaxSequence = lastOf 0 rs ∧
          recoverWals (fileFormat shape) o two first (g :: gs) s fs =
            recoverWals (fileFormat shape) o two false gs s' fs') := by
  rw [recoverWals, Prog.bind_of_ok h]
  dsimp only
  have hoverlaps := hresult.overlaps s.previousMaxSequence
  have hempty : (replayInto .empty rs).isEmpty = true ↔ rs = [] := by
    rw [MemTable.isEmpty_iff]
    constructor
    · intro hnil
      by_contra hne
      exact replayInto_ne_nil hne hnil
    · rintro rfl
      rfl
  by_cases hoverlap : ∃ r ∈ rs, r.sequence ≤ s.previousMaxSequence
  · rw [if_pos (hoverlaps.mpr hoverlap)]
    refine ⟨fun _ => ⟨_, rfl, rfl⟩, fun hin => ?_⟩
    obtain ⟨r, hr, hle⟩ := hoverlap
    exact absurd (hin.1 r hr) (not_lt.mpr hle)
  rw [if_neg (fun hno => hoverlap (hoverlaps.mp hno))]
  have hbehind : ∀ r ∈ rs, s.previousMaxSequence < r.sequence :=
    fun r hr => not_le.mp (fun hle => hoverlap ⟨r, hr, hle⟩)
  by_cases holder : two ∧ first
  · rw [if_pos holder]
    by_cases hnil : rs = []
    · rw [if_pos (hempty.mpr hnil)]
      exact ⟨fun _ => ⟨_, rfl, rfl⟩, fun hin => absurd hnil (hin.2 holder.1 holder.2)⟩
    · rw [if_neg (fun hno => hnil (hempty.mp hno))]
      exact ⟨fun hno => absurd ⟨hbehind, fun _ _ => hnil⟩ hno,
        fun _ => ⟨_, hresult.maximum, rfl⟩⟩
  · rw [if_neg holder]
    exact ⟨fun hno => absurd ⟨hbehind, fun h2 h1 => absurd ⟨h2, h1⟩ holder⟩ hno,
      fun _ => ⟨_, hresult.maximum, rfl⟩⟩

/-- A log that has been left with its whole records is as it was, exactly if it had no
incomplete tail. -/
theorem whole_view_iff {o : FormatOptions} {st st' : Store} {g : Nat} {rs : List Record}
    {t : Bytes} (hpresent : ∃ b, st.view (.wal g) = some b)
    (hgrammar : WalGrammar o (logAt st.view g) rs t)
    (hwhole : st'.view (.wal g) = some (rs.flatMap Record.encoding)) :
    st'.view (.wal g) = st.view (.wal g) ↔ t = [] := by
  obtain ⟨b, hb⟩ := hpresent
  have hbytes := hgrammar.bytes
  rw [logAt, hb, Option.getD_some] at hbytes
  rw [hwhole, hb, hbytes, Option.some.injEq, eq_comm]
  exact List.append_right_eq_self

/-- The loop recovers the logs in turn. It changes a directory that it rejects exactly if
it has come to an incomplete tail. -/
theorem recoverWals_calm (shape : BloomShape) (two : Bool) {gs : List Nat} (hnodup : gs.Nodup) (first : Bool)
    (s : Recovered) {st : Store} (hd : st.disk.Ordinary)
    (hpresent : ∀ g ∈ gs, ∃ b, st.view (.wal g) = some b) :
    ∃ r st', recoverWals (fileFormat shape) o two first gs s st.calm = (r, Store.calm st') ∧
      RecoveredLogs o.toFormatOptions two first gs s.previousMaxSequence st r st' := by
  induction gs generalizing first s st with
  | nil =>
    refine ⟨.ok s, st, rfl, hd, fun _ _ => rfl, fun _ _ => trivial, fun e he => ?_, fun h => ?_⟩
    · cases he
    · cases h
  | cons g gs ih =>
    obtain ⟨hg, hnodup⟩ := List.nodup_cons.mp hnodup
    have hothers : ∀ f, (∀ x ∈ g :: gs, f ≠ FileName.wal x) → f ≠ .wal g ∧ ∀ x ∈ gs, f ≠ .wal x :=
      fun f hf => ⟨hf g List.mem_cons_self, fun x hx => hf x (List.mem_cons_of_mem _ hx)⟩
    have hgs : ∀ x ∈ gs, FileName.wal x ≠ .wal g := by
      intro x hx he
      cases he
      exact hg hx
    rcases recoverWal_calm (o := o) shape hd (hpresent g List.mem_cons_self) with
      ⟨hno, e, he, hrun⟩ | ⟨rs, t, result, st₁, hgrammar, hresult, hd₁, hview₁, hrun⟩
    · -- the log itself is refused, and nothing has been done to it
      refine ⟨.error e, st, by rw [recoverWals, Prog.bind_apply, hrun], hd, fun _ _ => rfl,
        fun s' hs => ?_, fun e' he' => ?_, fun h => ?_⟩
      · cases hs
      · cases he'
        refine ⟨he, ?_, iff_of_true rfl ?_⟩
        · rintro ⟨rs, t, h, -⟩
          exact hno ⟨rs, t, h⟩
        · rintro ⟨rs, t, h, -⟩
          exact hno ⟨rs, t, h⟩
      · cases h
    -- the log has lost its tail, if it had one, and no later step restores it
    have hwhole : st₁.view (.wal g) = some (rs.flatMap Record.encoding) := by
      rw [hview₁, if_pos rfl]
    have hkept : ∀ st' : Store, st'.view (.wal g) = st₁.view (.wal g) → t ≠ [] →
        st'.view ≠ st.view := fun st' hlog ht heq =>
      ht ((whole_view_iff (hpresent g List.mem_cons_self) hgrammar (hlog.trans hwhole)).mp
        (congrFun heq _))
    have hsame : t = [] → st₁.view = st.view := by
      intro ht
      funext f
      by_cases hf : f = .wal g
      · rw [hf]
        exact (whole_view_iff (hpresent g List.mem_cons_self) hgrammar hwhole).mpr ht
      · rw [hview₁, if_neg hf]
    obtain ⟨hreject, hgo⟩ := recoverWals_cons two first gs s hresult hrun
    by_cases hin : InPlace two first rs s.previousMaxSequence
    · obtain ⟨s', hs', hrest⟩ := hgo hin
      have hrest₁ : ∀ x ∈ gs, st₁.view (.wal x) = st.view (.wal x) := by
        intro x hx
        rw [hview₁, if_neg (hgs x hx)]
      obtain ⟨r, st', hrun', hlogs⟩ := ih hnodup false s' hd₁
        (fun x hx => by rw [hrest₁ x hx]; exact hpresent x (List.mem_cons_of_mem _ hx))
      rw [hs'] at hlogs
      refine ⟨r, st', by rw [hrest, hrun'], hlogs.ordinary, fun f hf => ?_,
        fun s'' hs'' => ?_, fun e he => ?_, hlogs.ended⟩
      · rw [hlogs.others f (hothers f hf).2, hview₁, if_neg (hothers f hf).1]
      · exact (acceptsLogs_cons hgrammar).mpr
          ⟨hin, (AcceptsLogs.congr hrest₁).mp (hlogs.accepted s'' hs'')⟩
      · obtain ⟨hcode, hno, hcut⟩ := hlogs.rejected e he
        rw [acceptsLogs_cons hgrammar, cutsTail_cons hgrammar]
        refine ⟨hcode, fun h => hno ((AcceptsLogs.congr hrest₁).mpr h.2), ?_⟩
        by_cases ht : t = []
        · rw [CutsTail.congr hrest₁, hsame ht] at hcut
          simpa [ht, hin] using hcut
        · exact iff_of_false (hkept st' (hlogs.others _ (fun x hx => (hgs x hx).symm)) ht)
            (fun hc => hc (Or.inl ht))
    · obtain ⟨e, he, hfail⟩ := hreject hin
      refine ⟨.error e, st₁, hfail, hd₁, fun f hf => ?_, fun s' hs => ?_, fun e' he' => ?_,
        fun h => ?_⟩
      · rw [hview₁, if_neg (hothers f hf).1]
      · cases hs
      · cases he'
        rw [acceptsLogs_cons hgrammar, cutsTail_cons hgrammar]
        refine ⟨he, fun h => hin h.1, ?_⟩
        by_cases ht : t = []
        · exact iff_of_true (hsame ht) (by simp [ht, hin])
        · exact iff_of_false (hkept st₁ rfl ht) (fun hc => hc (Or.inl ht))
      · cases h

/-! ## The whole of `Open` -/

theorem unflushedLogs_strict {v : Version} {d : Dir} (hd : d.names.Nodup) :
    (unflushedLogs v d).Pairwise (· < ·) := by
  have hnodup : (generations FileName.walNumber d).Nodup := by
    refine (List.perm_insertionSort _ _).nodup_iff.mpr ?_
    refine hd.filterMap (fun f g n hf hg => ?_)
    rw [(FileName.walNumber_eq_some.mp hf).1, (FileName.walNumber_eq_some.mp hg).1]
  have hsorted := generations_sorted FileName.walNumber d
  exact (hsorted.and hnodup).imp (fun h => lt_of_le_of_ne h.1 h.2) |>.filter _

/-- At the frontier there is room for two logs. -/
theorem atFrontier_cases {next : Nat} {gs : List Nat} (hstrict : gs.Pairwise (· < ·))
    (h : ∀ g ∈ gs, AtFrontier next g) :
    gs = [] ∨ gs = [next] ∨ (next ≠ maxUInt64 ∧ gs = [next + 1]) ∨
      (next ≠ maxUInt64 ∧ gs = [next, next + 1]) := by
  match gs with
  | [] => exact Or.inl rfl
  | [a] =>
    rcases h a (by simp) with rfl | ⟨hne, rfl⟩
    · exact Or.inr (Or.inl rfl)
    · exact Or.inr (Or.inr (Or.inl ⟨hne, rfl⟩))
  | [a, b] =>
    have hlt : a < b := by simpa using hstrict
    rcases h a (by simp) with rfl | ⟨hne, rfl⟩ <;> rcases h b (by simp) with rfl | ⟨hne', rfl⟩
    · omega
    · exact Or.inr (Or.inr (Or.inr ⟨hne', rfl⟩))
    · omega
    · omega
  | a :: b :: c :: rest =>
    simp only [List.pairwise_cons, List.mem_cons, forall_eq_or_imp] at hstrict
    have ha := h a (by simp)
    have hb := h b (by simp)
    have hc := h c (by simp)
    simp only [AtFrontier] at ha hb hc
    omega

theorem openAppend_calm_ok (f : FileName) (st : Store) :
    ∃ i st', openAppend f st.calm = (.ok i, Store.calm st') := by
  cases hl : st.disk.lookup f with
  | some i => exact ⟨i, st, Store.openAppend_calm hl⟩
  | none =>
    refine ⟨st.disk.fresh, st.onDisk (·.create f), ?_⟩
    unfold openAppend
    show (Prog.bind Prog.get _) st.calm = _
    simp only [Prog.bind, Prog.get, Store.calm, hl]
    rfl

theorem startBackgroundWorker_calm (db : Database) (st : Store) :
    startBackgroundWorker F o db st.calm = (.ok (), st.calm) := by
  unfold startBackgroundWorker
  split
  · rfl
  · rfl

/-- `Open` takes all logs that are not obsolete. -/
def TakesLogs (o : FormatOptions) (st : Store) (v : Version) : Prop :=
  (∀ g ∈ unflushedLogs v st.disk.dir.current, AtFrontier v.nextFileNumber g) ∧
    AcceptsLogs o st.view ((unflushedLogs v st.disk.dir.current).length = 2) true
      (unflushedLogs v st.disk.dir.current) v.lastSequence

/-- No log is ahead of the frontier, and one with an incomplete tail comes first or behind
one that it may follow. -/
def LosesTail (o : FormatOptions) (st : Store) (v : Version) : Prop :=
  (∀ g ∈ unflushedNumbers st v, g = v.nextFileNumber ∨ g = v.nextFileNumber + 1) ∧
    ∃ g ∈ unflushedNumbers st v, EndsTorn o st.view g ∧
      ∀ g' ∈ unflushedNumbers st v, g' < g → Precedes o st.view v g'

theorem cutsTail_one {o : FormatOptions} {view : FileName → Option Bytes} {two first : Bool}
    {g previous : Nat} : CutsTail o view two first [g] previous ↔ EndsTorn o view g := by
  simp only [CutsTail, and_false, or_false, EndsTorn]

theorem cutsTail_two {o : FormatOptions} {view : FileName → Option Bytes} {v : Version}
    {g g' : Nat} : CutsTail o view true true [g, g'] v.lastSequence ↔
      EndsTorn o view g ∨ (Precedes o view v g ∧ EndsTorn o view g') := by
  constructor
  · rintro ⟨rs, t, h, ht | ⟨⟨hlate, hne⟩, hrest⟩⟩
    · exact Or.inl ⟨rs, t, h, ht⟩
    · exact Or.inr ⟨⟨rs, t, h, hne rfl rfl, hlate⟩, cutsTail_one.mp hrest⟩
  · rintro (⟨rs, t, h, ht⟩ | ⟨⟨rs, t, h, hne, hlate⟩, htorn⟩)
    · exact ⟨rs, t, h, Or.inl ht⟩
    · exact ⟨rs, t, h, Or.inr ⟨⟨hlate, fun _ _ => hne⟩, cutsTail_one.mpr htorn⟩⟩

/-- The frontier in terms of numbers, which all have 64 bits. -/
theorem atFrontier_iff {st : Store} {v : Version} :
    (∀ g ∈ unflushedLogs v st.disk.dir.current, AtFrontier v.nextFileNumber g) ↔
      ∀ g ∈ unflushedNumbers st v, g = v.nextFileNumber ∨ g = v.nextFileNumber + 1 := by
  rw [unflushedNumbers_eq]
  refine forall₂_congr (fun g hg => ?_)
  have hword := (mem_unflushedLogs hg).2.1
  simp only [AtFrontier]
  omega

theorem losesTail_iff {o : FormatOptions} {st : Store} (hd : st.disk.Ordinary) {v : Version} :
    LosesTail o st v ↔
      (∀ g ∈ unflushedLogs v st.disk.dir.current, AtFrontier v.nextFileNumber g) ∧
        CutsTail o st.view ((unflushedLogs v st.disk.dir.current).length = 2) true
          (unflushedLogs v st.disk.dir.current) v.lastSequence := by
  rw [LosesTail, ← atFrontier_iff, unflushedNumbers_eq]
  refine and_congr_right (fun hfrontier => ?_)
  simp only [Set.mem_ofPred_eq]
  -- one log is reached as it is; the newer of two only if the older one is in order
  have hone : ∀ g, unflushedLogs v st.disk.dir.current = [g] →
      ((∃ x ∈ [g], EndsTorn o st.view x ∧ ∀ y ∈ [g], y < x → Precedes o st.view v y) ↔
        CutsTail o st.view (decide ([g].length = 2)) true [g] v.lastSequence) := by
    intro g _
    simp [cutsTail_one]
  rcases atFrontier_cases (unflushedLogs_strict hd.nodup) hfrontier with hc | hc | ⟨-, hc⟩ | ⟨-, hc⟩
  · rw [hc]
    simp [CutsTail]
  · rw [hc]
    exact hone _ hc
  · rw [hc]
    exact hone _ hc
  · rw [hc]
    have htwo : decide ([v.nextFileNumber, v.nextFileNumber + 1].length = 2) = true := rfl
    rw [htwo, cutsTail_two]
    simp only [List.mem_cons, List.not_mem_nil, or_false, exists_eq_or_imp, exists_eq_left,
      forall_eq_or_imp, forall_eq]
    constructor
    · rintro (⟨htorn, -⟩ | ⟨htorn, hprecedes, -⟩)
      · exact Or.inl htorn
      · exact Or.inr ⟨hprecedes (Nat.lt_succ_self _), htorn⟩
    · rintro (htorn | ⟨hprecedes, htorn⟩)
      · exact Or.inl ⟨htorn, fun h => absurd h (lt_irrefl _), fun h => by omega⟩
      · exact Or.inr ⟨htorn, fun _ => hprecedes, fun h => absurd h (lt_irrefl _)⟩

/-- What `Open` comes to on a directory whose MANIFEST and tables are in order. -/
structure Opens (o : FormatOptions) (st : Store) (v : Version)
    (r : Result Status (Database × DatabaseOpenResult)) (st' : Store) : Prop where
  accepted : ∀ x, r = .ok x → TakesLogs o st v
  rejected : ∀ e, r = .error e → e.code = .corruption ∧ ¬ TakesLogs o st v ∧
    (st'.view = st.view ↔ (∀ f, v.stale f = true → st.view f = none) ∧ ¬ LosesTail o st v)
  ended : r ≠ .killed

theorem names_any_manifest {st : Store} :
    st.disk.dir.current.names.any (fun f => readName f.text = .manifest) = true ↔
      ∃ b, st.view .manifest = some b := by
  rw [List.any_eq_true, ← Store.mem_names]
  constructor
  · rintro ⟨f, hf, hname⟩
    rwa [FileName.readName_eq_manifest.mp (of_decide_eq_true hname)] at hf
  · intro h
    exact ⟨_, h, decide_eq_true (FileName.readName_eq_manifest.mpr rfl)⟩

theorem openVersion_loaded {st : Store} {v : Version} (h : Loads F o st.view v) :
    openVersion F o st.disk.dir.current st.calm = (.ok v, st.calm) := by
  obtain ⟨b, hb, hsize, hdecode⟩ := h.manifest
  rw [openVersion, if_pos (names_any_manifest.mpr ⟨b, hb⟩), loadManifest_calm hb, if_neg (not_lt.mpr hsize), hdecode]
  rfl

theorem openTables_loaded {st : Store} {v : Version} (h : Loads F o st.view v) :
    ∃ readers, openTables F o (generations FileName.sstNumber st.disk.dir.current) v.tables
      st.calm = (.ok readers, st.calm) := by
  rcases openTables_calm (F := F) (o := o) st v.tables with ⟨e, -, hno⟩ | ⟨readers, hrun, -⟩
  · exact absurd h.tables hno
  · exact ⟨readers, hrun⟩

theorem cleaned_eq {v : Version} {view : FileName → Option Bytes} :
    cleaned v view = view ↔ ∀ f, v.stale f = true → view f = none := by
  constructor
  · intro h f hf
    rw [← h, cleaned, if_pos hf]
  · intro h
    funext f
    rw [cleaned]
    split
    · rename_i hf
      exact (h f hf).symm
    · rfl

/-- `Open` behind the tables: it cleans up, recovers the logs and starts. -/
def openRest (F : StorageFormat) (o : Options) (d : Dir) (v : Version)
    (readers : List SSTableReader) : Io (Database × DatabaseOpenResult) := do
  let (wals, obsoleteWalsRemoved, orphanFilesRemoved) ← openCleanup d v
  if 2 < wals.length then
    Prog.fail (databaseCorruption "too many unflushed WAL generations exist")
  else if wals.length = 2 ∧ wals ≠ [v.nextFileNumber, v.nextFileNumber + 1] then
    Prog.fail (databaseCorruption "unflushed WAL generations are not consecutive")
  else do
    let r ← recoverWals F o (wals.length = 2) true wals (.start v)
    let wal ← openAppend (.wal r.mutableGeneration)
    syncDirectory
    let db := newDatabase o v readers r wal
    startBackgroundWorker F o db
    pure (db, {
      tablesLoaded := readers.length
      walsRecovered := wals.length
      obsoleteWalsRemoved := obsoleteWalsRemoved
      orphanFilesRemoved := orphanFilesRemoved
      maxSequence := r.lastSequence
      activeGeneration := r.mutableGeneration
      versionId := v.id })

theorem openWithEnvironment_calm (ho : o.accepted = true) (st : Store) :
    openWithEnvironment F o st.calm = (do
      let v ← openVersion F o st.disk.dir.current
      let readers ← openTables F o (generations FileName.sstNumber st.disk.dir.current) v.tables
      openRest F o st.disk.dir.current v readers : Io _) st.calm := by
  unfold openWithEnvironment
  rw [if_neg (by rw [ho]; decide), Prog.bind_of_ok (Store.fallible_calm _ st),
    Prog.bind_of_ok (Store.fallible_calm _ st), Prog.bind_of_ok (Store.fallible_calm _ st),
    Prog.bind_of_ok (Store.fallible_calm _ st),
    Prog.bind_of_ok (show Prog.get st.calm = (.ok st.calm, st.calm) from rfl)]
  rfl

/-- A directory whose MANIFEST and tables are in order is cleaned up, and then its logs
decide. -/
theorem openWithEnvironment_loaded (ho : o.accepted = true) {st : Store} (hd : st.disk.Ordinary)
    {v : Version} (h : Loads (fileFormat shape) o st.view v) :
    ∃ r st', openWithEnvironment (fileFormat shape) o st.calm = (r, Store.calm st') ∧
      Opens o.toFormatOptions st v r st' := by
  obtain ⟨readers, hreaders⟩ := openTables_loaded h
  obtain ⟨st₁, hd₁, hview₁, hcleanup⟩ := openCleanup_calm st hd v
  rw [openWithEnvironment_calm ho, Prog.bind_of_ok (openVersion_loaded h),
    Prog.bind_of_ok hreaders, openRest]
  have hlogs₁ : ∀ g ∈ unflushedLogs v st.disk.dir.current,
      st₁.view (.wal g) = st.view (.wal g) := by
    intro g hg
    obtain ⟨hle, -, hnumber, -⟩ := mem_unflushedLogs hg
    have hfresh : v.stale (.wal g) = false := by
      rw [Version.stale, FileName.readName_eq_log.mpr (FileName.walNumber_eq_some.mp hnumber)]
      exact decide_eq_false (not_lt.mpr hle)
    rw [hview₁, cleaned, hfresh]
    rfl
  rcases hcleanup with ⟨hfrontier, m, n, hrun⟩ | ⟨hno, e, he, hrun⟩
  · rw [Prog.bind_of_ok hrun]
    dsimp only
    have hstrict := unflushedLogs_strict (v := v) hd.nodup
    have hcases := atFrontier_cases hstrict hfrontier
    have hshort : ¬ 2 < (unflushedLogs v st.disk.dir.current).length := by
      rcases hcases with hc | hc | ⟨-, hc⟩ | ⟨-, hc⟩ <;> rw [hc] <;> simp
    have hconsecutive : ¬ ((unflushedLogs v st.disk.dir.current).length = 2 ∧
        unflushedLogs v st.disk.dir.current ≠ [v.nextFileNumber, v.nextFileNumber + 1]) := by
      rcases hcases with hc | hc | ⟨-, hc⟩ | ⟨-, hc⟩ <;> rw [hc] <;> simp
    rw [if_neg hshort, if_neg hconsecutive]
    have hnodup : (unflushedLogs v st.disk.dir.current).Nodup := hstrict.imp (fun hlt => hlt.ne)
    have hpresent : ∀ g ∈ unflushedLogs v st.disk.dir.current, ∃ b, st₁.view (.wal g) = some b := by
      intro g hg
      rw [hlogs₁ g hg]
      exact (mem_unflushedLogs hg).2.2.2
    obtain ⟨r, st₂, hwals, hlogs⟩ := recoverWals_calm shape (o := o)
      ((unflushedLogs v st.disk.dir.current).length = 2) hnodup true (.start v) hd₁ hpresent
    cases r with
    | killed => exact absurd rfl hlogs.ended
    | error e =>
      obtain ⟨hcode, hreject, hcut⟩ := hlogs.rejected e rfl
      rw [AcceptsLogs.congr hlogs₁] at hreject
      rw [CutsTail.congr hlogs₁] at hcut
      refine ⟨.error e, st₂, by rw [Prog.bind_apply, hwals], fun x hx => ?_, fun e' he' => ?_,
        fun hk => ?_⟩
      · cases hx
      · cases he'
        refine ⟨hcode, fun htakes => hreject htakes.2, ?_⟩
        rw [losesTail_iff hd]
        -- what was stale is gone for good, whatever became of the logs
        by_cases hclean : ∀ f, v.stale f = true → st.view f = none
        · rw [hview₁, cleaned_eq.mpr hclean] at hcut
          rw [hcut]
          exact ⟨fun hc => ⟨hclean, fun hl => hc hl.2⟩, fun hc hl => hc.2 ⟨hfrontier, hl⟩⟩
        · refine iff_of_false (fun hsame => hclean (fun f hf => ?_)) (fun hc => hclean hc.1)
          have hother : ∀ g ∈ unflushedLogs v st.disk.dir.current, f ≠ .wal g := by
            rintro g hg rfl
            obtain ⟨hle, -, hnumber, -⟩ := mem_unflushedLogs hg
            rw [Version.stale,
              FileName.readName_eq_log.mpr (FileName.walNumber_eq_some.mp hnumber)] at hf
            have hlt : g < v.nextFileNumber := of_decide_eq_true hf
            omega
          rw [← hsame, hlogs.others f hother, hview₁, cleaned, if_pos hf]
      · cases hk
    | ok s =>
      obtain ⟨i, st₃, happend⟩ := openAppend_calm_ok (.wal s.mutableGeneration) st₂
      rw [Prog.bind_of_ok hwals, Prog.bind_of_ok happend,
        Prog.bind_of_ok (Store.syncDirectory_calm st₃),
        Prog.bind_of_ok (startBackgroundWorker_calm _ _)]
      refine ⟨_, _, rfl, fun x _ => ?_, fun e he => ?_, fun hk => ?_⟩
      · exact ⟨hfrontier, (AcceptsLogs.congr hlogs₁).mp (hlogs.accepted s rfl)⟩
      · cases he
      · cases hk
  · refine ⟨.error e, st₁, by rw [Prog.bind_apply, hrun], fun x hx => ?_, fun e' he' => ?_,
      fun hk => ?_⟩
    · cases hx
    · cases he'
      rw [hview₁, cleaned_eq, losesTail_iff hd]
      exact ⟨he, fun htakes => hno htakes.1, fun hc => ⟨hc, fun hl => hno hl.1⟩, fun hc => hc.1⟩
    · cases hk

/-! ## Directories without a database -/

/-- Without logs nothing is left that `Open` could reject. -/
theorem Benign.openRest {d : Dir} (hlogs : generations FileName.walNumber d = []) (v : Version)
    (readers : List SSTableReader) : Benign (openRest F o d v readers) := by
  intro st
  have hsort : ∀ st : Store, sortWals v.nextFileNumber [] st.calm = (.ok [], st.calm) :=
    fun _ => rfl
  have hcleanup : ∃ st' m n, openCleanup d v st.calm = (.ok ([], m, n), Store.calm st') := by
    unfold openCleanup
    dsimp only
    rw [hlogs, Prog.bind_of_ok (Store.removeFiles_calm _ st),
      Prog.bind_of_ok (Store.removeFiles_calm _ _), Prog.bind_of_ok (hsort _)]
    split
    · exact ⟨_, _, _, rfl⟩
    · exact ⟨_, _, _, rfl⟩
  obtain ⟨st₁, m, n, hrun⟩ := hcleanup
  have hwals : ∀ two, recoverWals F o two true [] (.start v) st₁.calm = (.ok (.start v), st₁.calm) :=
    fun _ => rfl
  obtain ⟨i, st₂, happend⟩ := openAppend_calm_ok (.wal (Recovered.start v).mutableGeneration) st₁
  unfold MiniKV.openRest
  rw [Prog.bind_of_ok hrun]
  dsimp only
  rw [if_neg (by simp), if_neg (by simp), Prog.bind_of_ok (hwals _), Prog.bind_of_ok happend,
    Prog.bind_of_ok (Store.syncDirectory_calm st₂), Prog.bind_of_ok (startBackgroundWorker_calm _ _)]
  exact ⟨_, _, rfl, trivial⟩

/-- Where the MANIFEST or a table is not in order, `Open` rejects the directory before it
has touched anything. -/
theorem openWithEnvironment_unloaded (hF : F.Lawful) (ho : o.accepted = true) {st : Store}
    (h : ∀ v, ¬ Loads F o st.view v) {e : Status} {s' : Fs}
    (hrun : openWithEnvironment F o st.calm = (.error e, s'))
    (he : e.code = .corruption ∨ e.code = .versionMismatch) : s'.store.view = st.view := by
  rw [openWithEnvironment_calm ho, openVersion] at hrun
  by_cases hmanifest : st.disk.dir.current.names.any (fun f => readName f.text = .manifest)
  · rw [if_pos hmanifest] at hrun
    obtain ⟨b, hb⟩ := names_any_manifest.mp hmanifest
    have hload := loadManifest_calm (F := F) (o := o) hb
    by_cases hsize : kMaximumManifestSize < b.length
    · rw [if_pos hsize] at hload
      rw [Prog.bind_apply, hload] at hrun
      exact congrArg (fun s : Fs => s.store.view) (Prod.mk.inj hrun).2.symm
    rw [if_neg hsize] at hload
    cases hdecode : F.decodeManifest o.toFormatOptions b with
    | error e' =>
      rw [hdecode] at hload
      rw [Prog.bind_apply, hload] at hrun
      exact congrArg (fun s : Fs => s.store.view) (Prod.mk.inj hrun).2.symm
    | ok v =>
      rw [hdecode] at hload
      rw [Prog.bind_of_ok hload] at hrun
      rcases openTables_calm (F := F) (o := o) st v.tables with ⟨e', htables, -⟩ | ⟨_, -, hall⟩
      · rw [Prog.bind_apply, htables] at hrun
        exact congrArg (fun s : Fs => s.store.view) (Prod.mk.inj hrun).2.symm
      · exact absurd ⟨⟨b, hb, not_lt.mp hsize, hdecode⟩, hall⟩ (h v)
  rw [if_neg hmanifest] at hrun
  by_cases hlegacy : !(generations FileName.sstNumber st.disk.dir.current).isEmpty ∨
      !(generations FileName.walNumber st.disk.dir.current).isEmpty
  · rw [if_pos hlegacy] at hrun
    exact congrArg (fun s : Fs => s.store.view) (Prod.mk.inj hrun).2.symm
  -- a new database is made, and no step of that reports such an error
  rw [if_neg hlegacy] at hrun
  have hlogs : generations FileName.walNumber st.disk.dir.current = [] := by
    have hno := not_or.mp hlegacy
    simpa using hno.2
  have hkey : o.toFormatOptions.maxKeySize ≠ 0 := by
    simp only [Options.accepted, decide_eq_true_eq] at ho
    exact ho.2.2.2.2.2.1
  obtain ⟨b, hencode⟩ := hF.encodeManifest_newDatabase hkey
  have htables : ∀ st' : Store, openTables F o
      (generations FileName.sstNumber st.disk.dir.current) Version.newDatabase.tables st'.calm =
      (.ok [], st'.calm) := fun _ => rfl
  obtain ⟨r, st₁, hpublish, hok⟩ := Benign.publishManifest hencode st
  cases r with
  | ok u =>
    have hversion : (do
        publishManifest F o.toFormatOptions Version.newDatabase
        pure Version.newDatabase : Io Version) st.calm = (.ok Version.newDatabase, st₁.calm) := by
      rw [Prog.bind_of_ok hpublish]
      rfl
    obtain ⟨r, st₂, hrest, hok⟩ :=
      Benign.openRest (F := F) (o := o) hlogs Version.newDatabase [] st₁
    rw [Prog.bind_of_ok hversion, Prog.bind_of_ok (htables st₁), hrest] at hrun
    obtain rfl := (Prod.mk.inj hrun).1
    rcases he with he | he
    · exact absurd he hok.1
    · exact absurd he hok.2
  | error e' =>
    rw [Prog.bind_apply, Prog.bind_apply, hpublish] at hrun
    obtain rfl := Result.error.inj (Prod.mk.inj hrun).1
    rcases he with he | he
    · exact absurd he hok.1
    · exact absurd he hok.2
  | killed => exact hok.elim

end

/-! ## Directories of a new database -/

/-- The MANIFEST of a new database. -/
def emptyManifest : Bytes :=
  ((fileFormat byteShape).encodeManifest ({} : Options).toFormatOptions
    Version.newDatabase).toOption.getD []

theorem encodeManifest_emptyManifest : (fileFormat byteShape).encodeManifest
    ({} : Options).toFormatOptions Version.newDatabase = .ok emptyManifest := by
  obtain ⟨b, hb⟩ := (fileFormat_lawful byteShape).encodeManifest_newDatabase
    (o := ({} : Options).toFormatOptions) (by decide)
  rw [emptyManifest, hb]
  rfl

/-- The directory of a new database, with further files. -/
def newDirectory (fs : List (FileName × Bytes)) : Store :=
  .ofFiles ((.manifest, emptyManifest) :: fs)

theorem newDirectory_ordinary {fs : List (FileName × Bytes)}
    (hnodup : (.manifest :: fs.map Prod.fst).Nodup)
    (hsmall : ∀ e ∈ fs, e.2.length ≤ maximumFileSize) : (newDirectory fs).disk.Ordinary := by
  refine Store.ordinary_ofFiles hnodup (List.forall_mem_cons.mpr ⟨?_, hsmall⟩)
  have hlen := (fileFormat_lawful byteShape).encodeManifest_length encodeManifest_emptyManifest
  exact hlen.trans (by decide)

theorem newDirectory_loads (fs : List (FileName × Bytes)) :
    Loads (fileFormat byteShape) {} (newDirectory fs).view Version.newDatabase where
  manifest := by
    have hF := fileFormat_lawful byteShape
    exact ⟨emptyManifest, rfl, hF.encodeManifest_length encodeManifest_emptyManifest,
      hF.decodeManifest_encodeManifest encodeManifest_emptyManifest⟩
  tables := fun t ht => by cases ht

/-! ## What a rejected directory looks like afterwards -/

/-- A rejected directory is as it was, exactly if nothing in it was stale and no log that
`Open` came to had an incomplete tail. -/
theorem openWithEnvironment_rejected_iff {shape : BloomShape} {o : Options} {st : Store}
    (hd : st.disk.Ordinary) {e : Status} {s' : Fs}
    (hrun : openWithEnvironment (fileFormat shape) o st.calm = (.error e, s'))
    (he : e.code = .corruption ∨ e.code = .versionMismatch) :
    s'.store.view = st.view ↔ ∀ v, Loads (fileFormat shape) o st.view v →
      (∀ f, v.stale f = true → st.view f = none) ∧ ¬ LosesTail o.toFormatOptions st v := by
  by_cases ho : o.accepted = true
  · by_cases hloads : ∃ v, Loads (fileFormat shape) o st.view v
    · obtain ⟨v, hv⟩ := hloads
      obtain ⟨r, st', hrun', hopens⟩ := openWithEnvironment_loaded ho hd hv
      obtain ⟨rfl, rfl⟩ := Prod.mk.inj (hrun.symm.trans hrun')
      obtain ⟨-, -, hview⟩ := hopens.rejected e rfl
      rw [show (Store.calm st').store = st' from rfl, hview]
      constructor
      · intro h v' hv'
        rw [Loads.unique hv' hv]
        exact h
      · intro h
        exact h v hv
    · have hno : ∀ v, ¬ Loads (fileFormat shape) o st.view v := fun v hv => hloads ⟨v, hv⟩
      exact iff_of_true (openWithEnvironment_unloaded (fileFormat_lawful shape) ho hno hrun he)
        (fun v hv => absurd hv (hno v))
  · rw [openWithEnvironment, if_pos (by simpa using ho)] at hrun
    obtain rfl := Result.error.inj (Prod.mk.inj hrun).1
    rcases he with he | he <;> cases he

/-- A log ahead of the frontier, and nothing stale: the directory is left alone. -/
theorem openWithEnvironment_ahead : ∃ e s',
    openWithEnvironment (fileFormat byteShape) {} (newDirectory [(.wal 3, [])]).calm =
      (.error e, s') ∧ e.code = .corruption ∧
    s'.store.view = (newDirectory [(.wal 3, [])]).view := by
  have hd : (newDirectory [(.wal 3, [])]).disk.Ordinary :=
    newDirectory_ordinary (by decide) (by decide)
  have hv := newDirectory_loads [(.wal 3, [])]
  have hahead : ¬ ∀ g ∈ unflushedLogs Version.newDatabase
      (newDirectory [(.wal 3, [])]).disk.dir.current,
      AtFrontier Version.newDatabase.nextFileNumber g := by decide
  obtain ⟨r, st', hrun, hopens⟩ := openWithEnvironment_loaded (by decide +kernel) hd hv
  cases r with
  | ok x => exact absurd (hopens.accepted x rfl).1 hahead
  | killed => exact absurd rfl hopens.ended
  | error e =>
    have he := (hopens.rejected e rfl).1
    refine ⟨e, _, hrun, he, ?_⟩
    refine (openWithEnvironment_rejected_iff hd hrun (Or.inl he)).mpr (fun v hv' => ?_)
    rw [Loads.unique hv' hv]
    refine ⟨fun f hf => ?_, fun hlost => hahead (atFrontier_iff.mpr hlost.1)⟩
    -- neither of the two files is stale
    by_contra hsome
    have hname := Store.mem_names.mpr (Option.ne_none_iff_exists'.mp hsome)
    have hfresh : ∀ f ∈ (newDirectory [(.wal 3, [])]).disk.dir.current.names,
        Version.newDatabase.stale f = false := by decide
    rw [hfresh f hname] at hf
    cases hf

/-- A temporary file and a log ahead of the frontier: the directory is rejected for the log
after the temporary file has been removed. -/
theorem openWithEnvironment_cleaned : ∃ e s',
    openWithEnvironment (fileFormat byteShape) {}
      (newDirectory [(.manifestTmp, []), (.wal 3, [])]).calm = (.error e, s') ∧
    e.code = .corruption ∧
    (newDirectory [(.manifestTmp, []), (.wal 3, [])]).view .manifestTmp = some [] ∧
    s'.store.view .manifestTmp = none := by
  have hd : (newDirectory [(.manifestTmp, []), (.wal 3, [])]).disk.Ordinary :=
    newDirectory_ordinary (by decide) (by decide)
  have hahead : ¬ ∀ g ∈ unflushedLogs Version.newDatabase
      (newDirectory [(.manifestTmp, []), (.wal 3, [])]).disk.dir.current,
      AtFrontier Version.newDatabase.nextFileNumber g := by decide
  have hgone : (openWithEnvironment (fileFormat byteShape) {}
      (newDirectory [(.manifestTmp, []), (.wal 3, [])]).calm).2.store.view .manifestTmp = none := by
    decide +kernel
  obtain ⟨r, st', hrun, hopens⟩ := openWithEnvironment_loaded (by decide +kernel) hd (newDirectory_loads _)
  rw [hrun] at hgone
  cases r with
  | ok x => exact absurd (hopens.accepted x rfl).1 hahead
  | killed => exact absurd rfl hopens.ended
  | error e => exact ⟨e, _, hrun, (hopens.rejected e rfl).1, rfl, hgone⟩

/-! ## Which logs a database opens with -/

/-- The generations that the source allows: an Immutable and a Mutable, or a Mutable. -/
def LegalNumbers (next : Nat) (W : Set Nat) : Prop := W = ∅ ∨ W = {next} ∨ W = {next, next + 1}

/-- Logs that can each be recovered, with sequence numbers that go up from log to log; of
two the older has records. -/
structure LogsInOrder (o : FormatOptions) (view : FileName → Option Bytes) (v : Version)
    (W : Set Nat) (logs : Nat → List Record) : Prop where
  grammar : ∀ n ∈ W, ∃ t, WalGrammar o (logAt view n) (logs n) t
  above : ∀ n ∈ W, ∀ r ∈ logs n, v.lastSequence < r.sequence
  ascending : ∀ m ∈ W, ∀ n ∈ W, m < n → ∀ r ∈ logs m, ∀ x ∈ logs n, r.sequence < x.sequence
  older : ∀ m n, m < n → W = {m, n} → logs m ≠ []

theorem not_legalNumbers_lone (next : Nat) : ¬ LegalNumbers next {next + 1} := by
  rintro (h | h | h)
  · exact Set.singleton_ne_empty _ h
  · exact Nat.succ_ne_self next (Set.singleton_injective h)
  · have hin : next ∈ ({next + 1} : Set Nat) := by
      rw [h]
      exact Set.mem_insert _ _
    exact Nat.succ_ne_self next hin.symm

section

variable {shape : BloomShape} {o : Options} {st : Store} {v : Version} {logs : Nat → List Record}

/-- Logs in order pass, wherever they are. -/
theorem LogsInOrder.accepted {o : FormatOptions} (hd : st.disk.Ordinary)
    (h : LogsInOrder o st.view v (unflushedNumbers st v) logs)
    (hfrontier : ∀ g ∈ unflushedLogs v st.disk.dir.current, AtFrontier v.nextFileNumber g) :
    AcceptsLogs o st.view ((unflushedLogs v st.disk.dir.current).length = 2) true
      (unflushedLogs v st.disk.dir.current) v.lastSequence := by
  have hmem : ∀ g ∈ unflushedLogs v st.disk.dir.current, g ∈ unflushedNumbers st v := by
    intro g hg
    rw [unflushedNumbers_eq]
    exact hg
  have hone : ∀ g, unflushedLogs v st.disk.dir.current = [g] → AcceptsLogs o st.view
      ((unflushedLogs v st.disk.dir.current).length = 2) true
      (unflushedLogs v st.disk.dir.current) v.lastSequence := by
    intro g hg
    have hin := hmem g (by rw [hg]; exact List.mem_singleton_self g)
    obtain ⟨t, ht⟩ := h.grammar g hin
    rw [hg, acceptsLogs_cons ht]
    exact ⟨⟨h.above g hin, fun htwo => by simp at htwo⟩, trivial⟩
  rcases atFrontier_cases (unflushedLogs_strict hd.nodup) hfrontier with hc | hc | ⟨-, hc⟩ | ⟨-, hc⟩
  · rw [hc]
    trivial
  · exact hone _ hc
  · exact hone _ hc
  · have hin := hmem v.nextFileNumber (by rw [hc]; simp)
    have hin' := hmem (v.nextFileNumber + 1) (by rw [hc]; simp)
    obtain ⟨t, ht⟩ := h.grammar _ hin
    obtain ⟨t', ht'⟩ := h.grammar _ hin'
    have hset : unflushedNumbers st v = {v.nextFileNumber, v.nextFileNumber + 1} := by
      rw [unflushedNumbers_eq, hc]
      ext n
      simp
    have hne := h.older _ _ (Nat.lt_succ_self _) hset
    rw [hc, acceptsLogs_cons ht, acceptsLogs_cons ht']
    refine ⟨⟨h.above _ hin, fun _ _ => hne⟩, ⟨fun x hx => ?_, fun _ hno => by cases hno⟩, trivial⟩
    -- the newer log is compared with the last record of the older one
    obtain ⟨rs, r, hrs⟩ := List.eq_nil_or_concat (logs v.nextFileNumber) |>.resolve_left hne
    rw [getLast_lastOf, hrs, List.concat_eq_append, List.getLast?_append]
    exact h.ascending _ hin _ hin' (Nat.lt_succ_self _) r (by rw [hrs]; simp) x hx

/-- With its logs in order, a database opens exactly if they are all at the frontier. -/
theorem LogsInOrder.takesLogs_iff {o : FormatOptions} (hd : st.disk.Ordinary)
    (h : LogsInOrder o st.view v (unflushedNumbers st v) logs) :
    TakesLogs o st v ↔
      LegalNumbers v.nextFileNumber (unflushedNumbers st v) ∨
        unflushedNumbers st v = {v.nextFileNumber + 1} := by
  constructor
  · rintro ⟨hfrontier, -⟩
    rw [LegalNumbers, unflushedNumbers_eq]
    rcases atFrontier_cases (unflushedLogs_strict hd.nodup) hfrontier with hc | hc | ⟨-, hc⟩ | ⟨-, hc⟩
    · exact Or.inl (Or.inl (by rw [hc]; simp))
    · exact Or.inl (Or.inr (Or.inl (by rw [hc]; simp)))
    · exact Or.inr (by rw [hc]; simp)
    · refine Or.inl (Or.inr (Or.inr ?_))
      rw [hc]
      ext n
      simp
  · intro hcases
    have hfrontier : ∀ g ∈ unflushedLogs v st.disk.dir.current, AtFrontier v.nextFileNumber g := by
      rw [atFrontier_iff]
      intro g hin
      rcases hcases with (hW | hW | hW) | hW
      · rw [hW] at hin
        exact absurd hin (Set.notMem_empty g)
      · rw [hW] at hin
        exact Or.inl hin
      · rw [hW] at hin
        exact hin
      · rw [hW] at hin
        exact Or.inr hin
    exact ⟨hfrontier, h.accepted hd hfrontier⟩

/-- `Open` accepts the legal generations and nothing else, unless a lone log is one ahead of
the frontier. -/
theorem openWithEnvironment_generations_iff (ho : o.accepted = true) (hd : st.disk.Ordinary)
    (hv : Loads (fileFormat shape) o st.view v)
    (h : LogsInOrder o.toFormatOptions st.view v (unflushedNumbers st v) logs) :
    ((LegalNumbers v.nextFileNumber (unflushedNumbers st v) →
        ∃ x, (openWithEnvironment (fileFormat shape) o st.calm).1 = .ok x) ∧
      (¬ LegalNumbers v.nextFileNumber (unflushedNumbers st v) →
        ∃ e, (openWithEnvironment (fileFormat shape) o st.calm).1 = .error e ∧
          e.code = .corruption)) ↔
      unflushedNumbers st v ≠ {v.nextFileNumber + 1} := by
  obtain ⟨r, st', hrun, hopens⟩ := openWithEnvironment_loaded ho hd hv
  have htakes := h.takesLogs_iff hd
  rw [hrun]
  cases r with
  | killed => exact absurd rfl hopens.ended
  | ok x =>
    -- accepted, so the numbers are legal or the exception
    have haccepted := htakes.mp (hopens.accepted x rfl)
    constructor
    · intro hexact hlone
      have hlegal : LegalNumbers v.nextFileNumber (unflushedNumbers st v) := by
        by_contra hno
        obtain ⟨e, he, -⟩ := hexact.2 hno
        cases he
      rw [hlone] at hlegal
      exact not_legalNumbers_lone _ hlegal
    · intro hne
      exact ⟨fun _ => ⟨x, rfl⟩, fun hno => absurd (haccepted.resolve_right hne) hno⟩
  | error e =>
    obtain ⟨hcode, hrefused, -⟩ := hopens.rejected e rfl
    rw [htakes, not_or] at hrefused
    exact iff_of_true ⟨fun hlegal => absurd hlegal hrefused.1, fun _ => ⟨e, rfl, hcode⟩⟩ hrefused.2

end

theorem view_newDirectory_wal (g n : Nat) (b : Bytes) :
    (newDirectory [(.wal g, b)]).view (.wal n) = if n = g then some b else none := by
  by_cases hn : n = g
  · rw [if_pos hn, hn]
    simp [newDirectory, Store.view, Store.ofFiles, Disk.lookup, Dir.lookup, Volatile.stable_current]
  · rw [if_neg hn]
    simp [newDirectory, Store.view, Store.ofFiles, Disk.lookup, Dir.lookup, Volatile.stable_current,
      Ne.symm hn]

theorem unflushedNumbers_newDirectory {g : Nat} (hpos : 1 ≤ g) (hg : g ≤ maxUInt64) (b : Bytes) :
    unflushedNumbers (newDirectory [(.wal g, b)]) Version.newDatabase = {g} := by
  ext n
  constructor
  · rintro ⟨-, f, b', hf, hb⟩
    obtain ⟨rfl, -⟩ := FileName.walNumber_eq_some.mp hf
    by_contra hn
    rw [view_newDirectory_wal, if_neg (fun h : n = g => hn h)] at hb
    cases hb
  · rintro rfl
    exact ⟨hpos, .wal n, b, FileName.walNumber_eq_some.mpr ⟨rfl, by omega, hg⟩,
      by rw [view_newDirectory_wal, if_pos rfl]⟩

/-- A lone log with one record is in order. -/
theorem logsInOrder_newDirectory {g : Nat} (hpos : 1 ≤ g) (hg : g ≤ maxUInt64) :
    LogsInOrder ({} : Options).toFormatOptions
      (newDirectory [(.wal g, smallWrite.encoding)]).view Version.newDatabase
      (unflushedNumbers (newDirectory [(.wal g, smallWrite.encoding)]) Version.newDatabase)
      (fun _ => [smallWrite]) := by
  rw [unflushedNumbers_newDirectory hpos hg]
  refine ⟨?_, ?_, ?_, ?_⟩
  · rintro n rfl
    refine ⟨[], ?_, ?_, List.pairwise_singleton _ _, Or.inl rfl⟩
    · rw [logAt, view_newDirectory_wal, if_pos rfl]
      simp
    · intro r hr
      rw [List.mem_singleton.mp hr]
      exact smallWrite_encodes
  · intro n _ r hr
    rw [List.mem_singleton.mp hr]
    decide
  · rintro m rfl n rfl hlt
    exact absurd hlt (lt_irrefl _)
  · intro m n hlt hset
    simp

theorem newDirectory_log_ordinary (g : Nat) :
    (newDirectory [(.wal g, smallWrite.encoding)]).disk.Ordinary := by
  refine newDirectory_ordinary (by simp) ?_
  intro e he
  rw [List.mem_singleton.mp he]
  show smallWrite.encoding.length ≤ maximumFileSize
  decide

theorem openWithEnvironment_firstLog : ∃ x, (openWithEnvironment (fileFormat byteShape) {}
    (newDirectory [(.wal 1, smallWrite.encoding)]).calm).1 = .ok x := by
  have hset := unflushedNumbers_newDirectory (g := 1) (by decide) (by decide) smallWrite.encoding
  refine ((openWithEnvironment_generations_iff (by decide +kernel) (newDirectory_log_ordinary 1)
    (newDirectory_loads _) (logsInOrder_newDirectory (by decide) (by decide))).mpr ?_).1 ?_
  · rw [hset]
    intro h
    exact absurd (Set.singleton_injective h) (by decide)
  · rw [hset]
    exact Or.inr (Or.inl rfl)

/-- The log with the number of the frontier is missing, and the database opens. -/
theorem openWithEnvironment_loneLog :
    unflushedNumbers (newDirectory [(.wal 2, smallWrite.encoding)]) Version.newDatabase = {2} ∧
    ¬ LegalNumbers Version.newDatabase.nextFileNumber {2} ∧
    ∃ x, (openWithEnvironment (fileFormat byteShape) {}
      (newDirectory [(.wal 2, smallWrite.encoding)]).calm).1 = .ok x := by
  have hset := unflushedNumbers_newDirectory (g := 2) (by decide) (by decide) smallWrite.encoding
  have horder := logsInOrder_newDirectory (g := 2) (by decide) (by decide)
  refine ⟨hset, not_legalNumbers_lone 1, ?_⟩
  obtain ⟨r, st', hrun, hopens⟩ := openWithEnvironment_loaded (by decide +kernel)
    (newDirectory_log_ordinary 2) (newDirectory_loads [(.wal 2, smallWrite.encoding)])
  rw [hrun]
  cases r with
  | ok x => exact ⟨x, rfl⟩
  | killed => exact absurd rfl hopens.ended
  | error e =>
    obtain ⟨-, hno, -⟩ := hopens.rejected e rfl
    exact absurd ((horder.takesLogs_iff (newDirectory_log_ordinary 2)).mpr (Or.inr hset)) hno

end MiniKV
