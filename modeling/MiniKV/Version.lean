import MiniKV.Basic
import Mathlib.Data.List.Sort

/-!
# Versions and version edits

`manifest.hpp` keeps the live tables of a database, its next file number and its
sequence frontier in a `Version`; a `VersionEdit` moves from one to the next.
`ValidateVersion` is executable here, and `Version.Valid` says what it accepts.
-/

namespace MiniKV

/-- The fields of `SSTableMetadata` that the MANIFEST stores. -/
structure TableMetadata where
  generation : Nat
  fileSize : Nat
  recordCount : Nat
  minimumSequence : Nat
  maximumSequence : Nat
  minimumKey : Bytes
  maximumKey : Bytes
  deriving DecidableEq, Repr

structure VersionTable where
  level : Nat
  metadata : TableMetadata
  deriving DecidableEq, Repr

/-- The file number of a live table. -/
abbrev VersionTable.generation (t : VersionTable) : Nat := t.metadata.generation

structure Version where
  id : Nat
  nextFileNumber : Nat
  lastSequence : Nat
  tables : List VersionTable
  deriving DecidableEq, Repr

structure VersionEdit where
  deletedFileNumbers : List Nat := []
  addedTables : List VersionTable := []
  nextFileNumber : Option Nat := none
  lastSequence : Option Nat := none

namespace Version

/-- `Version::NewDatabase` -/
def newDatabase : Version := ⟨1, 1, 0, []⟩

def levelZero (v : Version) : List VersionTable := v.tables.filter (·.level = 0)
def levelOne (v : Version) : List VersionTable := v.tables.filter (·.level = 1)

end Version

/-! ## `ValidateVersion` -/

def manifestCorruption (message : String) : Status := .corruption ("manifest: " ++ message)

/-- The checks on one table that look at nothing but the table. -/
def VersionTable.wellFormed (o : FormatOptions) (next : Nat) (t : VersionTable) : Bool :=
  t.level ≤ 1 ∧ t.generation ≠ 0 ∧ t.generation < next ∧
  t.metadata.fileSize ≠ 0 ∧ t.metadata.recordCount ≠ 0 ∧ t.metadata.minimumSequence ≠ 0 ∧
  t.metadata.minimumSequence ≤ t.metadata.maximumSequence ∧
  t.metadata.minimumKey.length ≤ o.maxKeySize ∧ t.metadata.maximumKey.length ≤ o.maxKeySize ∧
  t.metadata.minimumKey ≤ t.metadata.maximumKey

/-- The loop over the tables, with the set of file numbers met so far. -/
def validateTables (o : FormatOptions) (next : Nat) : List Nat → List VersionTable → Bool
  | _, [] => true
  | seen, t :: ts =>
    t.wellFormed o next && !seen.contains t.generation &&
      validateTables o next (t.generation :: seen) ts

def minimumKeyLe (a b : VersionTable) : Prop := a.metadata.minimumKey ≤ b.metadata.minimumKey

instance : DecidableRel minimumKeyLe := fun a b =>
  inferInstanceAs (Decidable (a.metadata.minimumKey ≤ b.metadata.minimumKey))

/-- The loop over neighbours of the sorted level-one tables. -/
def neighboursDisjoint : List VersionTable → Bool
  | a :: b :: ts => a.metadata.maximumKey < b.metadata.minimumKey && neighboursDisjoint (b :: ts)
  | _ => true

def tablesMaximumSequence (ts : List VersionTable) : Nat :=
  ts.foldl (fun m t => max m t.metadata.maximumSequence) 0

/-- `ValidateVersion` -/
def validateVersion (o : FormatOptions) (v : Version) : Status :=
  if v.id = 0 ∨ v.nextFileNumber = 0 ∨ o.maxKeySize = 0 then
    manifestCorruption "global Version fields are invalid"
  else if !validateTables o v.nextFileNumber [] v.tables then
    manifestCorruption "table metadata is invalid"
  else if !neighboursDisjoint (v.levelOne.insertionSort minimumKeyLe) then
    manifestCorruption "level-one table ranges overlap"
  else if v.lastSequence < tablesMaximumSequence v.tables then
    manifestCorruption "sequence frontier precedes a live table"
  else .ok

/-- Neither key range reaches into the other. -/
def TableMetadata.Apart (a b : TableMetadata) : Prop :=
  a.maximumKey < b.minimumKey ∨ b.maximumKey < a.minimumKey

theorem TableMetadata.Apart.symm {a b : TableMetadata} (h : a.Apart b) : b.Apart a := Or.symm h

structure Version.Valid (o : FormatOptions) (v : Version) : Prop where
  id_ne : v.id ≠ 0
  next_ne : v.nextFileNumber ≠ 0
  maxKeySize_ne : o.maxKeySize ≠ 0
  tables : ∀ t ∈ v.tables, t.wellFormed o v.nextFileNumber = true
  distinct : (v.tables.map VersionTable.generation).Nodup
  levelOne : v.levelOne.Pairwise (fun a b => a.metadata.Apart b.metadata)
  lastSequence : ∀ t ∈ v.tables, t.metadata.maximumSequence ≤ v.lastSequence

theorem VersionTable.wellFormed_iff {o : FormatOptions} {next : Nat} {t : VersionTable} :
    t.wellFormed o next = true ↔
      t.level ≤ 1 ∧ t.generation ≠ 0 ∧ t.generation < next ∧
      t.metadata.fileSize ≠ 0 ∧ t.metadata.recordCount ≠ 0 ∧ t.metadata.minimumSequence ≠ 0 ∧
      t.metadata.minimumSequence ≤ t.metadata.maximumSequence ∧
      t.metadata.minimumKey.length ≤ o.maxKeySize ∧
      t.metadata.maximumKey.length ≤ o.maxKeySize ∧
      t.metadata.minimumKey ≤ t.metadata.maximumKey := by
  simp [VersionTable.wellFormed]

theorem VersionTable.wellFormed_mono {o : FormatOptions} {next next' : Nat} {t : VersionTable}
    (h : t.wellFormed o next = true) (hn : next ≤ next') : t.wellFormed o next' = true := by
  rw [wellFormed_iff] at h ⊢
  exact ⟨h.1, h.2.1, h.2.2.1.trans_le hn, h.2.2.2⟩

private theorem validateTables_iff {o : FormatOptions} {next : Nat} {seen : List Nat}
    {ts : List VersionTable} :
    validateTables o next seen ts = true ↔
      (∀ t ∈ ts, t.wellFormed o next = true) ∧ (∀ t ∈ ts, t.generation ∉ seen) ∧
        (ts.map VersionTable.generation).Nodup := by
  induction ts generalizing seen with
  | nil => simp [validateTables]
  | cons t ts ih =>
    simp only [validateTables, Bool.and_eq_true, Bool.not_eq_true', ih, List.mem_cons,
      forall_eq_or_imp, List.map_cons, List.nodup_cons, List.mem_map, not_or]
    constructor
    · rintro ⟨⟨hw, hs⟩, hws, hseen, hnd⟩
      refine ⟨⟨hw, hws⟩, ⟨by simpa using hs, fun x hx => (hseen x hx).2⟩, ?_, hnd⟩
      rintro ⟨x, hx, he⟩
      exact (hseen x hx).1 he
    · rintro ⟨⟨hw, hws⟩, ⟨hs, hseen⟩, hne, hnd⟩
      refine ⟨⟨hw, by simpa using hs⟩, hws, ?_, hnd⟩
      intro x hx
      exact ⟨fun he => hne ⟨x, hx, he⟩, hseen x hx⟩

private theorem neighboursDisjoint_iff {ts : List VersionTable}
    (hk : ∀ t ∈ ts, t.metadata.minimumKey ≤ t.metadata.maximumKey) :
    neighboursDisjoint ts = true ↔
      ts.Pairwise (fun a b => a.metadata.maximumKey < b.metadata.minimumKey) := by
  induction ts with
  | nil => simp [neighboursDisjoint]
  | cons a ts ih =>
    cases ts with
    | nil => simp [neighboursDisjoint]
    | cons b ts =>
      have ih := ih (fun t ht => hk t (List.mem_cons_of_mem _ ht))
      rw [neighboursDisjoint, Bool.and_eq_true, ih, decide_eq_true_eq]
      constructor
      · rintro ⟨hab, hp⟩
        refine List.pairwise_cons.mpr ⟨?_, hp⟩
        intro c hc
        rcases List.mem_cons.mp hc with rfl | hc
        · exact hab
        · have hbb := hk b (by simp)
          exact hab.trans_le (hbb.trans (List.rel_of_pairwise_cons hp hc).le)
      · intro hp
        exact ⟨List.rel_of_pairwise_cons hp (by simp), hp.of_cons⟩

/-- On the sorted tables the neighbour check finds every overlap. -/
private theorem sorted_disjoint_iff {ts : List VersionTable}
    (hk : ∀ t ∈ ts, t.metadata.minimumKey ≤ t.metadata.maximumKey) :
    neighboursDisjoint (ts.insertionSort minimumKeyLe) = true ↔
      ts.Pairwise (fun a b => a.metadata.Apart b.metadata) := by
  have hperm := List.perm_insertionSort minimumKeyLe ts
  have hk' : ∀ t ∈ ts.insertionSort minimumKeyLe,
      t.metadata.minimumKey ≤ t.metadata.maximumKey := fun t ht => hk t (hperm.mem_iff.mp ht)
  have hswap : (ts.insertionSort minimumKeyLe).Pairwise (fun a b => a.metadata.Apart b.metadata) ↔
      ts.Pairwise (fun a b => a.metadata.Apart b.metadata) :=
    hperm.pairwise_iff (fun h => TableMetadata.Apart.symm h)
  rw [neighboursDisjoint_iff hk', ← hswap]
  have : Std.Total minimumKeyLe := ⟨fun a b => le_total _ _⟩
  have : IsTrans VersionTable minimumKeyLe := ⟨fun a b c h h' => le_trans h h'⟩
  have hsort := List.pairwise_insertionSort minimumKeyLe ts
  constructor
  · intro h
    exact h.imp (fun h => Or.inl h)
  · intro h
    have hboth := (hsort.and h).and (List.pairwise_of_forall_mem_list
      (fun a ha b _ => hk' a ha) : (ts.insertionSort minimumKeyLe).Pairwise
        (fun a _ => a.metadata.minimumKey ≤ a.metadata.maximumKey))
    refine (hboth.and (List.pairwise_of_forall_mem_list (fun a _ b hb => hk' b hb) :
      (ts.insertionSort minimumKeyLe).Pairwise
        (fun _ b => b.metadata.minimumKey ≤ b.metadata.maximumKey))).imp ?_
    rintro a b ⟨⟨⟨hle, hap⟩, -⟩, hb⟩
    rcases hap with h | h
    · exact h
    · exact absurd (hle.trans hb) (not_le.mpr h)

private theorem foldl_max_le {ts : List VersionTable} {m n : Nat} :
    ts.foldl (fun m t => max m t.metadata.maximumSequence) m ≤ n ↔
      m ≤ n ∧ ∀ t ∈ ts, t.metadata.maximumSequence ≤ n := by
  induction ts generalizing m with
  | nil => simp
  | cons t ts ih => simp [ih, and_assoc]

/-- What `ValidateVersion` accepts. -/
theorem validateVersion_isOk {o : FormatOptions} {v : Version} :
    (validateVersion o v).isOk = true ↔ v.Valid o := by
  unfold validateVersion manifestCorruption
  split
  · rename_i h
    constructor
    · intro hk; simp at hk
    · intro hv
      rcases h with h | h | h
      · exact absurd h hv.id_ne
      · exact absurd h hv.next_ne
      · exact absurd h hv.maxKeySize_ne
  · rename_i hg
    simp only [not_or] at hg
    by_cases ht : validateTables o v.nextFileNumber [] v.tables = true
    · have ht' := validateTables_iff.mp ht
      have hk : ∀ t ∈ v.levelOne, t.metadata.minimumKey ≤ t.metadata.maximumKey := by
        intro t hm
        have hw := ht'.1 t (List.mem_of_mem_filter hm)
        exact (VersionTable.wellFormed_iff.mp hw).2.2.2.2.2.2.2.2.2
      have hl := sorted_disjoint_iff hk
      rw [if_neg (by simp [ht])]
      by_cases hd : neighboursDisjoint (v.levelOne.insertionSort minimumKeyLe) = true
      · rw [if_neg (by simp [hd])]
        split
        · rename_i hs
          constructor
          · intro hk; simp at hk
          · intro hv
            have := foldl_max_le.mpr ⟨Nat.zero_le _, hv.lastSequence⟩
            unfold tablesMaximumSequence at hs
            omega
        · rename_i hs
          refine ⟨fun _ => ⟨hg.1, hg.2.1, hg.2.2, ht'.1, ht'.2.2, hl.mp hd, ?_⟩, fun _ => rfl⟩
          exact (foldl_max_le.mp (not_lt.mp hs)).2
      · rw [if_pos (by simp [hd])]
        constructor
        · intro hk; simp at hk
        · intro hv; exact absurd (hl.mpr hv.levelOne) hd
    · rw [if_pos (by simp [ht])]
      constructor
      · intro hk; simp at hk
      · intro hv
        exact absurd (validateTables_iff.mpr ⟨hv.tables, by simp, hv.distinct⟩) ht

/-! ## `Version::Apply` -/

def generationLe (a b : VersionTable) : Prop := a.generation ≤ b.generation

instance : DecidableRel generationLe := fun a b =>
  inferInstanceAs (Decidable (a.generation ≤ b.generation))

/-- The order `std::sort` puts the tables of a candidate in. -/
def sortTables (ts : List VersionTable) : List VersionTable := ts.insertionSort generationLe

/-- The loop over the added tables; `kept` is `candidate.tables_` so far. -/
def addTables (next : Nat) (deletions : List Nat) :
    List VersionTable → List VersionTable → Except Status (List VersionTable)
  | kept, [] => .ok kept
  | kept, t :: ts =>
    if t.generation < next then
      .error (.invalidArgument "VersionEdit reuses an allocated file number")
    else if kept.any (·.generation = t.generation) || deletions.contains t.generation then
      .error (.invalidArgument "VersionEdit adds a duplicate file")
    else addTables next deletions (kept ++ [t]) ts

namespace Version

/-- The candidate once the edit's tables have been merged in. -/
def candidate (v : Version) (e : VersionEdit) (tables : List VersionTable) : Version :=
  { id := v.id + 1
    nextFileNumber := e.nextFileNumber.getD v.nextFileNumber
    lastSequence := e.lastSequence.getD v.lastSequence
    tables := sortTables tables }

/-- The tables an edit leaves in place. -/
def kept (v : Version) (e : VersionEdit) : List VersionTable :=
  v.tables.filter (fun t => !e.deletedFileNumbers.contains t.generation)

/-- The checks of `Version::Apply` after the tables have been merged. -/
def finish (o : FormatOptions) (v : Version) (e : VersionEdit) (tables : List VersionTable) :
    Except Status Version :=
  let c := v.candidate e tables
  if c.nextFileNumber < v.nextFileNumber ∨ c.lastSequence < v.lastSequence then
    .error (.invalidArgument "VersionEdit regresses a monotonic frontier")
  else
    let status := validateVersion o c
    if !status.isOk then .error (.invalidArgument status.message) else .ok c

/-- `Version::Apply` -/
def apply (o : FormatOptions) (v : Version) (e : VersionEdit) : Except Status Version :=
  let current := validateVersion o v
  if !current.isOk then .error current
  else if v.id = maxUInt64 then .error (.invalidArgument "Version id space is exhausted")
  else if e.deletedFileNumbers.contains 0 || !decide e.deletedFileNumbers.Nodup then
    .error (.invalidArgument "VersionEdit deletion is invalid")
  else if !e.deletedFileNumbers.all (fun n => v.tables.any (·.generation = n)) then
    .error (.invalidArgument "VersionEdit deletes a non-live file")
  else match addTables v.nextFileNumber e.deletedFileNumbers (v.kept e) e.addedTables with
    | .error s => .error s
    | .ok tables => v.finish o e tables

/-- The conditions under which an edit is applied. -/
structure Accepts (o : FormatOptions) (v : Version) (e : VersionEdit) : Prop where
  valid : v.Valid o
  id_ne : v.id ≠ maxUInt64
  deletions_ne : 0 ∉ e.deletedFileNumbers
  deletions_nodup : e.deletedFileNumbers.Nodup
  deletions_live : ∀ n ∈ e.deletedFileNumbers, ∃ t ∈ v.tables, t.generation = n
  added_ge : ∀ t ∈ e.addedTables, v.nextFileNumber ≤ t.generation
  added_nodup : (e.addedTables.map VersionTable.generation).Nodup
  result : (v.candidate e (v.kept e ++ e.addedTables)).Valid o
  next_le : v.nextFileNumber ≤ e.nextFileNumber.getD v.nextFileNumber
  last_le : v.lastSequence ≤ e.lastSequence.getD v.lastSequence

end Version

private theorem addTables_ok {next : Nat} {deletions : List Nat}
    {kept ts out : List VersionTable} (h : addTables next deletions kept ts = .ok out) :
    out = kept ++ ts ∧ (∀ t ∈ ts, next ≤ t.generation) ∧
      (ts.map VersionTable.generation).Nodup ∧
      (∀ t ∈ ts, t.generation ∉ kept.map VersionTable.generation) := by
  induction ts generalizing kept with
  | nil => simp only [addTables, Except.ok.injEq] at h; simp [h]
  | cons t ts ih =>
    unfold addTables at h
    split at h
    · cases h
    split at h
    · cases h
    rename_i hge hfresh
    obtain ⟨rfl, hts, hnd, hk⟩ := ih h
    simp only [Bool.or_eq_true, List.any_eq_true, decide_eq_true_eq, not_or, not_exists,
      not_and] at hfresh
    refine ⟨by simp, ?_, ?_, ?_⟩
    · intro x hx
      rcases List.mem_cons.mp hx with rfl | hx
      · omega
      · exact hts x hx
    · refine List.nodup_cons.mpr ⟨?_, hnd⟩
      rintro hm
      obtain ⟨x, hx, he⟩ := List.mem_map.mp hm
      exact hk x hx (by simp [he])
    · intro x hx hm
      rcases List.mem_cons.mp hx with rfl | hx
      · obtain ⟨y, hy, he⟩ := List.mem_map.mp hm
        exact hfresh.1 y hy he
      · exact hk x hx (by rw [List.map_append]; exact List.mem_append_left _ hm)

private theorem addTables_error {next : Nat} {deletions : List Nat}
    {kept ts : List VersionTable} {s : Status} (h : addTables next deletions kept ts = .error s) :
    s.isOk = false := by
  induction ts generalizing kept with
  | nil => cases h
  | cons t ts ih =>
    unfold addTables at h
    refine of_ite_error h rfl (fun _ h => ?_)
    refine of_ite_error h rfl (fun _ h => ?_)
    exact ih h

private theorem addTables_eq_ok {next : Nat} {deletions : List Nat}
    {kept ts : List VersionTable} (hge : ∀ t ∈ ts, next ≤ t.generation)
    (hdel : ∀ n ∈ deletions, n < next) (hkept : ∀ t ∈ kept, ∀ x ∈ ts, t.generation ≠ x.generation)
    (hnd : (ts.map VersionTable.generation).Nodup) :
    addTables next deletions kept ts = .ok (kept ++ ts) := by
  induction ts generalizing kept with
  | nil => simp [addTables]
  | cons t ts ih =>
    have ht := hge t List.mem_cons_self
    have hnd' := List.nodup_cons.mp hnd
    have hfresh : (kept.any (·.generation = t.generation) || deletions.contains t.generation) =
        false := by
      simp only [Bool.or_eq_false_iff, List.any_eq_false, decide_eq_true_eq]
      refine ⟨fun x hx => hkept x hx t List.mem_cons_self, ?_⟩
      rw [← Bool.not_eq_true, List.contains_iff_mem]
      intro hm
      exact absurd (hdel _ hm) (by omega)
    rw [addTables, if_neg (by omega), hfresh, if_neg (by simp),
      ih (fun x hx => hge x (List.mem_cons_of_mem _ hx)) ?_ hnd'.2]
    · simp
    · intro x hx y hy
      rcases List.mem_append.mp hx with hx | hx
      · exact hkept x hx y (List.mem_cons_of_mem _ hy)
      · rw [List.mem_singleton.mp hx]
        intro he
        exact hnd'.1 (he ▸ List.mem_map_of_mem hy)

namespace Version

/-- `Apply` succeeds on exactly the accepted edits, with exactly the candidate. -/
theorem apply_eq_ok {o : FormatOptions} {v w : Version} {e : VersionEdit} :
    v.apply o e = .ok w ↔
      v.Accepts o e ∧ w = v.candidate e (v.kept e ++ e.addedTables) := by
  constructor
  · intro h
    unfold apply at h
    dsimp only at h
    obtain ⟨hcur, h⟩ := ite_error_eq_ok.mp h
    obtain ⟨hid, h⟩ := ite_error_eq_ok.mp h
    obtain ⟨hdel, h⟩ := ite_error_eq_ok.mp h
    obtain ⟨hlive, h⟩ := ite_error_eq_ok.mp h
    simp only [Bool.not_eq_true', Bool.not_eq_false, Bool.not_eq_true,
      Bool.or_eq_false_iff] at hcur hdel hlive
    split at h
    · cases h
    rename_i tables hadd
    obtain ⟨rfl, hge, hnd, -⟩ := addTables_ok hadd
    unfold finish at h
    dsimp only at h
    obtain ⟨hmono, h⟩ := ite_error_eq_ok.mp h
    obtain ⟨hval, h⟩ := ite_error_eq_ok.mp h
    simp only [not_or, not_lt, Bool.not_eq_true', Bool.not_eq_false] at hmono hval
    refine ⟨⟨validateVersion_isOk.mp hcur, hid, ?_, by simpa using hdel.2, ?_, hge, hnd,
      validateVersion_isOk.mp hval, hmono.1, hmono.2⟩, (Except.ok.inj h).symm⟩
    · intro hm
      have := List.contains_iff_mem.mpr hm
      rw [hdel.1] at this
      cases this
    · intro n hn
      have := List.all_eq_true.mp hlive n hn
      simpa using this
  · rintro ⟨h, rfl⟩
    have hdel : (e.deletedFileNumbers.contains 0 || !decide e.deletedFileNumbers.Nodup) = false := by
      simp [h.deletions_nodup, h.deletions_ne]
    have hlive : e.deletedFileNumbers.all (fun n => v.tables.any (·.generation = n)) = true := by
      rw [List.all_eq_true]
      intro n hn
      simpa using h.deletions_live n hn
    have hlt : ∀ t ∈ v.tables, t.generation < v.nextFileNumber := fun t ht =>
      (VersionTable.wellFormed_iff.mp (h.valid.tables t ht)).2.2.1
    have hadd : addTables v.nextFileNumber e.deletedFileNumbers (v.kept e) e.addedTables =
        .ok (v.kept e ++ e.addedTables) := by
      refine addTables_eq_ok h.added_ge ?_ ?_ h.added_nodup
      · intro n hn
        obtain ⟨t, ht, rfl⟩ := h.deletions_live n hn
        exact hlt t ht
      · intro t ht x hx
        have h1 := hlt t (List.mem_of_mem_filter ht)
        have h2 := h.added_ge x hx
        omega
    have hnext := h.next_le
    have hlast := h.last_le
    have hmono : ¬ ((v.candidate e (v.kept e ++ e.addedTables)).nextFileNumber < v.nextFileNumber ∨
        (v.candidate e (v.kept e ++ e.addedTables)).lastSequence < v.lastSequence) := by
      simp only [candidate]; omega
    simp only [apply, validateVersion_isOk.mpr h.valid, Bool.not_true, Bool.false_eq_true, if_false,
      h.id_ne, hdel, hlive, hadd, finish, hmono, validateVersion_isOk.mpr h.result]

theorem apply_exhausted {o : FormatOptions} {v : Version} (hv : v.Valid o) (hid : v.id = maxUInt64)
    (e : VersionEdit) :
    v.apply o e = .error (.invalidArgument "Version id space is exhausted") := by
  simp only [apply, validateVersion_isOk.mpr hv, Bool.not_true, Bool.false_eq_true, if_false, hid,
    if_true]

end Version

theorem mem_sortTables {ts : List VersionTable} {t : VersionTable} :
    t ∈ sortTables ts ↔ t ∈ ts := (List.perm_insertionSort generationLe ts).mem_iff

theorem sortTables_perm (ts : List VersionTable) : (sortTables ts).Perm ts :=
  List.perm_insertionSort generationLe ts

/-- Appending one table with the largest file number leaves nothing to sort. -/
theorem sortTables_of_sorted {ts : List VersionTable} (h : ts.Pairwise generationLe) :
    sortTables ts = ts := List.Pairwise.insertionSort_eq h

/-! ## Histories of edits -/

namespace Version

/-- `Version::Apply` with its output object. -/
def applyTo (o : FormatOptions) (v : Version) (e : VersionEdit) (output : Version) :
    Status × Version :=
  match v.apply o e with
  | .ok candidate => (.ok, candidate)
  | .error status => (status, output)

theorem apply_error {o : FormatOptions} {v : Version} {e : VersionEdit} {s : Status}
    (h : v.apply o e = .error s) : s.isOk = false := by
  unfold apply at h
  dsimp only at h
  split at h
  · rename_i hcur
    rw [← Except.error.inj h]
    simpa using hcur
  refine of_ite_error h rfl (fun _ h => ?_)
  refine of_ite_error h rfl (fun _ h => ?_)
  refine of_ite_error h rfl (fun _ h => ?_)
  split at h
  · rename_i hadd
    rw [← Except.error.inj h]
    exact addTables_error hadd
  · unfold finish at h
    dsimp only at h
    refine of_ite_error h rfl (fun _ h => ?_)
    refine of_ite_error h rfl (fun _ h => ?_)
    · cases h

/-- The Versions that successful edits lead to from a new database, with all of those on
the way, the last one included. The options may be others at each edit. -/
inductive History : List Version → Version → Prop
  | newDatabase : History [Version.newDatabase] Version.newDatabase
  | apply {vs : List Version} {v w : Version} {o : FormatOptions} {e : VersionEdit}
      (h : History vs v) (ha : v.apply o e = .ok w) : History (w :: vs) w

theorem Valid.generation_lt {o : FormatOptions} {v : Version} (h : v.Valid o) {t : VersionTable}
    (ht : t ∈ v.tables) : t.generation < v.nextFileNumber :=
  (VersionTable.wellFormed_iff.mp (h.tables t ht)).2.2.1

/-- The next file number lies above every number that was ever live. -/
theorem History.live_lt {vs : List Version} {v : Version} (h : History vs v) :
    ∀ u ∈ vs, ∀ t ∈ u.tables, t.generation < v.nextFileNumber := by
  induction h with
  | newDatabase =>
    intro u hu t ht
    rw [List.mem_singleton.mp hu] at ht
    exact absurd ht List.not_mem_nil
  | apply _ ha ih =>
    obtain ⟨hacc, rfl⟩ := apply_eq_ok.mp ha
    intro u hu t ht
    rcases List.mem_cons.mp hu with rfl | hu
    · exact hacc.result.generation_lt ht
    · exact (ih u hu t ht).trans_le hacc.next_le

/-- What an edit makes of a Version with a history. -/
structure Edited (o : FormatOptions) (vs : List Version) (v : Version) (e : VersionEdit)
    (w : Version) : Prop where
  id : w.id = v.id + 1
  tables : w.tables.Perm
    (v.tables.filter (fun t => t.generation ∉ e.deletedFileNumbers) ++ e.addedTables)
  sorted : w.tables.Pairwise (fun a b => a.generation < b.generation)
  nextFileNumber : w.nextFileNumber = e.nextFileNumber.getD v.nextFileNumber
  nextFileNumber_le : v.nextFileNumber ≤ w.nextFileNumber
  lastSequence : w.lastSequence = e.lastSequence.getD v.lastSequence
  lastSequence_le : v.lastSequence ≤ w.lastSequence
  valid : (validateVersion o w).isOk = true
  levelOne : w.levelOne.Pairwise (fun a b => a.metadata.Apart b.metadata)
  allocated : ∀ t ∈ w.tables, t.generation < w.nextFileNumber
  fresh : ∀ t ∈ e.addedTables, ∀ u ∈ vs, ∀ x ∈ u.tables, t.generation ≠ x.generation

theorem sortTables_sorted {ts : List VersionTable}
    (h : ((sortTables ts).map VersionTable.generation).Nodup) :
    (sortTables ts).Pairwise (fun a b => a.generation < b.generation) := by
  have : Std.Total generationLe := ⟨fun a b => le_total _ _⟩
  have : IsTrans VersionTable generationLe := ⟨fun a b c h h' => le_trans h h'⟩
  have hle : (sortTables ts).Pairwise generationLe := List.pairwise_insertionSort generationLe ts
  have hne : (sortTables ts).Pairwise (fun a b => a.generation ≠ b.generation) :=
    List.pairwise_map.mp h
  exact (hle.and hne).imp (fun h => lt_of_le_of_ne h.1 h.2)

theorem History.edited {vs : List Version} {v w : Version} {o : FormatOptions} {e : VersionEdit}
    (h : History vs v) (ha : v.apply o e = .ok w) : Edited o vs v e w := by
  obtain ⟨hacc, rfl⟩ := apply_eq_ok.mp ha
  have hvalid := hacc.result
  refine ⟨rfl, ?_, sortTables_sorted hvalid.distinct, rfl, hacc.next_le, rfl, hacc.last_le,
    validateVersion_isOk.mpr hvalid, hvalid.levelOne, fun t ht => hvalid.generation_lt ht, ?_⟩
  · have hkept : v.kept e =
        v.tables.filter (fun t => t.generation ∉ e.deletedFileNumbers) := by
      rw [kept]
      refine List.filter_congr (fun t _ => ?_)
      simp
    rw [← hkept]
    exact sortTables_perm _
  · intro t ht u hu x hx
    have hlt := h.live_lt u hu x hx
    have hge := hacc.added_ge t ht
    omega

/-- Edits are exact, atomic and never use a file number again: an edit that succeeds makes
of a Version that edits led to exactly what it says, and one that fails leaves the output
object as it was. -/
theorem applyTo_exact {vs : List Version} {v : Version} (h : History vs v) (o : FormatOptions)
    (e : VersionEdit) (output : Version) :
    ((v.applyTo o e output).1.isOk = true → Edited o vs v e (v.applyTo o e output).2) ∧
      ((v.applyTo o e output).1.isOk = false → (v.applyTo o e output).2 = output) := by
  unfold applyTo
  cases ha : v.apply o e with
  | ok w => exact ⟨fun _ => h.edited ha, fun hok => absurd hok (by simp [Status.isOk, Status.ok])⟩
  | error s => exact ⟨fun hok => absurd hok (by simp [apply_error ha]), fun _ => rfl⟩

/-- The edit that a first flush makes. -/
def firstTable : VersionEdit where
  addedTables := [⟨0, ⟨1, 1, 1, 1, 1, [1], [1]⟩⟩]
  nextFileNumber := some 2
  lastSequence := some 1

theorem applyTo_exact_firstTable :
    History [newDatabase] newDatabase ∧
      Edited ({} : Options).toFormatOptions [newDatabase] newDatabase firstTable
        (newDatabase.applyTo ({} : Options).toFormatOptions firstTable newDatabase).2 :=
  ⟨.newDatabase, (applyTo_exact .newDatabase ({} : Options).toFormatOptions firstTable
    newDatabase).1 (by decide +kernel)⟩

end Version

end MiniKV
