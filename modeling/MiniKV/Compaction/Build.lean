import MiniKV.Compaction
import MiniKV.Tables
import Mathlib.Data.List.Chain

/-!
# What a compaction builds

The outputs of `BuildCompactionOutputs`, read one after the other, ascend by
key and hold exactly the newest record of every key among the inputs, less the
tombstones where these may be dropped.
-/

namespace MiniKV

open Lib

/-- The records of a list of MemTables, one table after the other. -/
def outputRecords (outputs : List MemTable) : List Record := outputs.flatMap MemTable.entries

theorem outputRecords_append (outputs more : List MemTable) :
    outputRecords (outputs ++ more) = outputRecords outputs ++ outputRecords more :=
  List.flatMap_append

theorem outputRecords_singleton (m : MemTable) : outputRecords [m] = m.entries := by
  simp [outputRecords]

theorem MemTable.entries_insert_of_lt {m : MemTable} {r : Record}
    (h : ∀ x ∈ m.entries, x.key < r.key) : (m.insert r).entries = m.entries ++ [r] :=
  upsert_of_lt h

/-- A record survives the merge when it is the newest of its key and is not a
tombstone that may be dropped. -/
def Survives (mayDropTombstones : Bool) (rs : List Record) (r : Record) : Prop :=
  IsNewest Record.key Record.sequence rs r.key r ∧
    ¬ (r.type = .deletion ∧ mayDropTombstones = true)

/-- The outputs so far, newest first, lie in order below everything that is pending. -/
structure BuildInv (outputs : List MemTable) (rest : List Record) : Prop where
  ascending : Ascending (outputRecords outputs.reverse)
  ne_nil : ∀ m ∈ outputs, m.entries ≠ []
  below : ∀ x ∈ outputRecords outputs.reverse, ∀ r ∈ rest, x.key < r.key

/-! ## Adding one record -/

/-- The outputs after a record went to the current one or opened a new one. -/
def Extends (outputs outputs' : List MemTable) (r : Record) : Prop :=
  outputRecords outputs'.reverse = outputRecords outputs.reverse ++ [r] ∧
    ((∀ m ∈ outputs, m.entries ≠ []) → ∀ m ∈ outputs', m.entries ≠ [])

private theorem extends_new (outputs : List MemTable) (r : Record) :
    Extends outputs (MemTable.empty.insert r :: outputs) r := by
  constructor
  · rw [List.reverse_cons, outputRecords_append, outputRecords_singleton]
    rfl
  · intro h m hm
    rcases List.mem_cons.mp hm with rfl | hm
    · exact MemTable.insert_ne_nil _ _
    · exact h m hm

private theorem extends_current {current : MemTable} {earlier : List MemTable} {r : Record}
    (hlt : ∀ x ∈ current.entries, x.key < r.key) :
    Extends (current :: earlier) (current.insert r :: earlier) r := by
  constructor
  · rw [List.reverse_cons, List.reverse_cons, outputRecords_append, outputRecords_append,
      outputRecords_singleton, outputRecords_singleton, MemTable.entries_insert_of_lt hlt,
      List.append_assoc]
  · intro h m hm
    rcases List.mem_cons.mp hm with rfl | hm
    · exact MemTable.insert_ne_nil _ _
    · exact h m (List.mem_cons_of_mem _ hm)

private theorem mem_current {current : MemTable} {earlier : List MemTable} {x : Record}
    (h : x ∈ current.entries) : x ∈ outputRecords (current :: earlier).reverse := by
  rw [List.reverse_cons, outputRecords_append, outputRecords_singleton]
  exact List.mem_append_right _ h

/-- A record opens a new output when the current one has no room for it, or goes to the current
one: the only one left empty, or one with room for it. -/
theorem addOutputRecord_cases {o : Options} {r : Record} {outputs outputs' : List MemTable}
    (hv : r.Valid o.toFormatOptions) (h : addOutputRecord o r outputs = .ok outputs') :
    (outputs' = MemTable.empty.insert r :: outputs ∧ ∀ current ∈ outputs.head?,
        o.compactionOutputSizeLimit < current.approximateDataSize + r.payloadSize) ∨
      ∃ current earlier, outputs = current :: earlier ∧ outputs' = current.insert r :: earlier ∧
        (current.entries = [] ∨
          current.approximateDataSize + r.payloadSize ≤ o.compactionOutputSizeLimit) := by
  -- every branch adds the record to one MemTable
  have hadd : ∀ {m : MemTable} {f : MemTable → List MemTable},
      (m.applyRecord o.toFormatOptions r).map f = .ok outputs' → outputs' = f (m.insert r) := by
    intro m f hm
    rw [MemTable.applyRecord_of_valid hv] at hm
    cases ha : m.add o.toFormatOptions r with
    | error e => rw [ha] at hm; cases hm
    | ok n =>
      rw [ha] at hm
      rw [← MemTable.add_ok ha]
      exact (Except.ok.inj hm).symm
  cases outputs with
  | nil => exact Or.inl ⟨hadd h, fun _ hm => by cases hm⟩
  | cons current earlier =>
    rw [addOutputRecord] at h
    split at h
    · rename_i hfull
      refine Or.inl ⟨hadd h, fun m hm => ?_⟩
      obtain rfl := Option.some.inj hm
      omega
    · rename_i hroom
      refine Or.inr ⟨current, earlier, rfl, hadd h, ?_⟩
      cases he : current.isEmpty with
      | true => exact Or.inl (MemTable.isEmpty_iff.mp he)
      | false =>
        simp only [he, Bool.not_false, true_and] at hroom
        exact Or.inr (by omega)

theorem addOutputRecord_ok {o : Options} {r : Record} {outputs outputs' : List MemTable}
    (hv : r.Valid o.toFormatOptions)
    (hlt : ∀ x ∈ outputRecords outputs.reverse, x.key < r.key)
    (h : addOutputRecord o r outputs = .ok outputs') : Extends outputs outputs' r := by
  rcases addOutputRecord_cases hv h with ⟨rfl, -⟩ | ⟨current, earlier, rfl, rfl, -⟩
  · exact extends_new _ r
  · exact extends_current (fun x hx => hlt x (mem_current hx))

/-- An output that keeps to the size limit, as far as it can. -/
def Bounded (o : Options) (m : MemTable) : Prop :=
  m.approximateDataSize ≤ o.compactionOutputSizeLimit ∨ m.entries.length = 1

theorem addOutputRecord_bounded {o : Options} {r : Record} {outputs outputs' : List MemTable}
    (hv : r.Valid o.toFormatOptions) (hb : ∀ m ∈ outputs, Bounded o m)
    (h : addOutputRecord o r outputs = .ok outputs') : ∀ m ∈ outputs', Bounded o m := by
  have hsingle : ∀ m : MemTable, m.entries = [] → Bounded o (m.insert r) := by
    intro m hm
    refine Or.inr ?_
    rw [MemTable.entries_insert_of_lt (by rw [hm]; simp), hm]
    rfl
  rcases addOutputRecord_cases hv h with ⟨rfl, -⟩ | ⟨current, earlier, rfl, rfl, hroom⟩
  · intro m hm
    rcases List.mem_cons.mp hm with rfl | hm
    · exact hsingle _ rfl
    · exact hb m hm
  · intro m hm
    rcases List.mem_cons.mp hm with rfl | hm
    · rcases hroom with hempty | hroom
      · exact hsingle current hempty
      · exact Or.inl ((MemTable.size_insert_le current r).trans hroom)
    · exact hb m (List.mem_cons_of_mem _ hm)

/-- Two outputs in a row are together larger than the limit; the newest comes first. -/
def Packed (o : Options) (outputs : List MemTable) : Prop :=
  outputs.IsChain (fun later earlier =>
    o.compactionOutputSizeLimit < earlier.approximateDataSize + later.approximateDataSize)

theorem MemTable.size_insert_of_lt {m : MemTable} {r : Record}
    (h : ∀ x ∈ m.entries, x.key < r.key) :
    (m.insert r).approximateDataSize = m.approximateDataSize + r.payloadSize := by
  rw [MemTable.size_eq, MemTable.entries_insert_of_lt h, MemTable.size_eq]
  simp [totalSize]

theorem addOutputRecord_packed {o : Options} {r : Record} {outputs outputs' : List MemTable}
    (hv : r.Valid o.toFormatOptions)
    (hlt : ∀ x ∈ outputRecords outputs.reverse, x.key < r.key) (hp : Packed o outputs)
    (h : addOutputRecord o r outputs = .ok outputs') : Packed o outputs' := by
  have hnew : (MemTable.empty.insert r).approximateDataSize = r.payloadSize :=
    (MemTable.size_insert_of_lt (fun x hx => by cases hx)).trans (Nat.zero_add _)
  rcases addOutputRecord_cases hv h with ⟨rfl, hfull⟩ | ⟨current, earlier, rfl, rfl, -⟩
  · refine List.isChain_cons.mpr ⟨fun m hm => ?_, hp⟩
    rw [hnew]
    exact hfull m hm
  · -- the current output has only grown
    obtain ⟨hfirst, hrest⟩ := List.isChain_cons.mp hp
    refine List.isChain_cons.mpr ⟨fun m hm => (hfirst m hm).trans_le ?_, hrest⟩
    rw [MemTable.size_insert_of_lt (fun x hx => hlt x (mem_current hx))]
    omega

theorem Record.Valid.payloadSize_le {o : FormatOptions} {r : Record} (h : r.Valid o) :
    r.payloadSize ≤ maxUInt64 := by
  have hkey := h.key_word
  have hvalue := h.value_word
  simp only [Record.payloadSize, encodedPayloadSize, kRecordMetadataSize, maxUInt32,
    maxUInt64] at hkey hvalue ⊢
  omega

/-- The size limit leaves room in the current output, so adding cannot fail. -/
theorem addOutputRecord_isOk {o : Options} (hlimit : o.compactionOutputSizeLimit ≤ maxUInt64)
    {r : Record} {outputs : List MemTable} (hv : r.Valid o.toFormatOptions)
    (hlt : ∀ x ∈ outputRecords outputs.reverse, x.key < r.key) :
    ∃ outputs', addOutputRecord o r outputs = .ok outputs' := by
  have hsize := hv.payloadSize_le
  have hnew : MemTable.empty.applyRecord o.toFormatOptions r = .ok (MemTable.empty.insert r) := by
    rw [MemTable.applyRecord_of_valid hv]
    refine MemTable.add_eq_ok hv (fun x hx => by cases hx) ?_
    simpa [MemTable.empty] using hsize
  cases outputs with
  | nil => exact ⟨_, by rw [addOutputRecord, hnew]; rfl⟩
  | cons current earlier =>
    rw [addOutputRecord]
    by_cases hc : !current.isEmpty ∧ (o.compactionOutputSizeLimit < r.payloadSize ∨
        o.compactionOutputSizeLimit - r.payloadSize < current.approximateDataSize)
    · exact ⟨_, by rw [if_pos hc, hnew]; rfl⟩
    · have hroom : current.approximateDataSize + r.payloadSize ≤ maxUInt64 := by
        cases he : current.isEmpty with
        | true =>
          have : current.approximateDataSize = 0 := by
            rw [current.size_eq, MemTable.isEmpty_iff.mp he]; rfl
          omega
        | false =>
          simp only [he, Bool.not_false, true_and] at hc
          omega
      have hcur : current.applyRecord o.toFormatOptions r = .ok (current.insert r) := by
        rw [MemTable.applyRecord_of_valid hv]
        exact MemTable.add_eq_ok hv
          (fun x hx hk => absurd hk (hlt x (mem_current hx)).ne) hroom
      exact ⟨_, by rw [if_neg hc, hcur]; rfl⟩

/-! ## The merge loop -/

theorem Extends.buildInv {outputs outputs' : List MemTable} {r : Record} {rest : List Record}
    (h : Extends outputs outputs' r) (hi : BuildInv outputs (r :: rest))
    (hr : ∀ x ∈ rest, r.key < x.key) : BuildInv outputs' rest := by
  obtain ⟨hrec, hne⟩ := h
  have hbelow : ∀ x ∈ outputRecords outputs.reverse, x.key < r.key :=
    fun x hx => hi.below x hx r List.mem_cons_self
  refine ⟨?_, hne hi.ne_nil, ?_⟩
  · rw [hrec]
    refine List.pairwise_append.mpr ⟨hi.ascending, List.pairwise_singleton _ _, ?_⟩
    intro x hx y hy
    rw [List.mem_singleton.mp hy]
    exact hbelow x hx
  · intro x hx y hy
    rw [hrec] at hx
    rcases List.mem_append.mp hx with hx | hx
    · exact hi.below x hx y (List.mem_cons_of_mem _ hy)
    · rw [List.mem_singleton.mp hx]
      exact hr y hy

theorem BuildInv.mono {outputs : List MemTable} {rest rest' : List Record}
    (h : BuildInv outputs rest) (hs : ∀ x ∈ rest', x ∈ rest) : BuildInv outputs rest' :=
  ⟨h.ascending, h.ne_nil, fun x hx r hr => h.below x hx r (hs r hr)⟩

section

variable {o : Options} {drop : Bool} {heap heap' : List (Cursor Record)} {w : Record} {n : Nat}
  {losers : List Record}

private theorem round_mem (h : Round Record.key Record.sequence heap w n heap' losers) {x : Record}
    (hx : x = w ∨ x ∈ pending heap') : x ∈ pending heap := by
  rw [h.perm.mem_iff]
  rcases hx with rfl | hx
  · exact List.mem_append_left _ List.mem_cons_self
  · exact List.mem_append_right _ hx

/-- What survives a merge is what survives its first round and the merge of the rest. -/
private theorem survives_round (h : Round Record.key Record.sequence heap w n heap' losers)
    {r : Record} : Survives drop (pending heap) r ↔
      (r = w ∧ ¬ (w.type = .deletion ∧ drop = true)) ∨ Survives drop (pending heap') r := by
  unfold Survives
  rw [h.isNewest_iff]
  constructor
  · rintro ⟨rfl | hn, hd⟩
    · exact Or.inl ⟨rfl, hd⟩
    · exact Or.inr ⟨hn, hd⟩
  · rintro (⟨rfl, hd⟩ | ⟨hn, hd⟩)
    · exact ⟨Or.inl rfl, hd⟩
    · exact ⟨Or.inr hn, hd⟩

private theorem distinct_round (h : Round Record.key Record.sequence heap w n heap' losers)
    (hd : Distinct Record.key Record.sequence (pending heap)) :
    Distinct Record.key Record.sequence (pending heap') :=
  (List.pairwise_append.mp (hd.perm h.perm)).2.1

end

/-- The runs of the merge loop that succeed, round by round. -/
inductive Merges (o : Options) (drop : Bool) : List (Cursor Record) → List MemTable →
    CompactionBuildStats → List MemTable → CompactionBuildStats → Prop
  | done (outputs : List MemTable) (stats : CompactionBuildStats) :
      Merges o drop [] outputs stats outputs stats
  | dropped {heap heap' : List (Cursor Record)} {w : Record} {n : Nat} {losers : List Record}
      {outputs result : List MemTable} {stats final : CompactionBuildStats}
      (hr : Round Record.key Record.sequence heap w n heap' losers)
      (hd : w.type = .deletion ∧ drop = true)
      (h : Merges o drop heap' outputs { stats with
        duplicateRecordsDropped := stats.duplicateRecordsDropped + (n - 1)
        tombstonesDropped := stats.tombstonesDropped + 1 } result final) :
      Merges o drop heap outputs stats result final
  | kept {heap heap' : List (Cursor Record)} {w : Record} {n : Nat} {losers : List Record}
      {outputs added result : List MemTable} {stats final : CompactionBuildStats}
      (hr : Round Record.key Record.sequence heap w n heap' losers)
      (hk : ¬ (w.type = .deletion ∧ drop = true)) (ha : addOutputRecord o w outputs = .ok added)
      (h : Merges o drop heap' added { stats with
        duplicateRecordsDropped := stats.duplicateRecordsDropped + (n - 1)
        outputRecords := stats.outputRecords + 1 } result final) :
      Merges o drop heap outputs stats result final

theorem heap_eq_nil {heap : List (Cursor Record)} (h : (pending heap).length = 0) : heap = [] := by
  cases heap with
  | nil => rfl
  | cons c cs =>
    rw [pending_cons, List.length_append, Cursor.remaining, List.length_cons] at h
    omega

theorem buildLoop_merges {o : Options} {drop : Bool} {n : Nat} {heap : List (Cursor Record)}
    {outputs result : List MemTable} {stats final : CompactionBuildStats}
    (hs : Sorted Record.key heap) (hn : (pending heap).length ≤ n)
    (h : buildLoop o drop n heap outputs stats = .ok (result, final)) :
    Merges o drop heap outputs stats result final := by
  induction n generalizing heap outputs stats with
  | zero =>
    rw [buildLoop] at h
    obtain ⟨rfl, rfl⟩ := Prod.mk.inj (Except.ok.inj h)
    rw [heap_eq_nil (Nat.le_zero.mp hn)]
    exact .done _ _
  | succ n ih =>
    rw [buildLoop] at h
    by_cases hne : heap = []
    · subst hne
      rw [mergeRound_eq_none.mpr rfl] at h
      obtain ⟨rfl, rfl⟩ := Prod.mk.inj (Except.ok.inj h)
      exact .done _ _
    rcases mergeRound_cases hs hne with ⟨he, -⟩ | ⟨w, runs, heap', losers, he, hr⟩
    · rw [he] at h
      cases h
    rw [he] at h
    dsimp only at h
    have hlen : (pending heap').length ≤ n := by
      have := hr.length_lt
      omega
    split at h
    · rename_i hd
      exact .dropped hr hd (ih hr.sorted hlen h)
    · rename_i hk
      split at h
      · cases h
      · rename_i added ha
        exact .kept hr hk ha (ih hr.sorted hlen h)

/-- What the loop adds to the outputs it started with. -/
structure LoopResult (drop : Bool) (rest : List Record) (outputs outputs' : List MemTable) :
    Prop where
  inv : BuildInv outputs' []
  mem : ∀ r, r ∈ outputRecords outputs'.reverse ↔
    r ∈ outputRecords outputs.reverse ∨ Survives drop rest r

private theorem loopResult_nil {drop : Bool} {outputs : List MemTable} (h : BuildInv outputs []) :
    LoopResult drop [] outputs outputs := by
  refine ⟨h, fun r => ?_⟩
  constructor
  · exact Or.inl
  · rintro (hr | ⟨hn, -⟩)
    · exact hr
    · cases hn.mem

section

variable {o : Options} {drop : Bool} {heap : List (Cursor Record)}
  {outputs result : List MemTable} {stats final : CompactionBuildStats}

theorem Merges.loopResult (h : Merges o drop heap outputs stats result final)
    (hv : ∀ r ∈ pending heap, r.Valid o.toFormatOptions) (hi : BuildInv outputs (pending heap)) :
    LoopResult drop (pending heap) outputs result := by
  induction h with
  | done => exact loopResult_nil hi
  | dropped hr hd _ ih =>
    have hrest := ih (fun r hm => hv r (round_mem hr (Or.inr hm)))
      (hi.mono (fun x hx => round_mem hr (Or.inr hx)))
    refine ⟨hrest.inv, fun r => ?_⟩
    rw [hrest.mem, survives_round hr]
    constructor
    · rintro (hm | hm)
      · exact Or.inl hm
      · exact Or.inr (Or.inr hm)
    · rintro (hm | ⟨-, hc⟩ | hm)
      · exact Or.inl hm
      · exact absurd hd hc
      · exact Or.inr hm
  | @kept _ heap' w _ _ outputs _ _ _ _ hr hk ha _ ih =>
    have hi' : BuildInv outputs (w :: pending heap') := hi.mono (fun x hx =>
      round_mem hr (List.mem_cons.mp hx))
    have hext := addOutputRecord_ok (hv w (round_mem hr (Or.inl rfl)))
      (fun x hx => hi'.below x hx w List.mem_cons_self) ha
    have hrest := ih (fun r hm => hv r (round_mem hr (Or.inr hm))) (hext.buildInv hi' hr.rest)
    refine ⟨hrest.inv, fun r => ?_⟩
    rw [hrest.mem, survives_round hr, hext.1, List.mem_append, List.mem_singleton, or_assoc]
    constructor
    · rintro (hm | rfl | hm)
      · exact Or.inl hm
      · exact Or.inr (Or.inl ⟨rfl, hk⟩)
      · exact Or.inr (Or.inr hm)
    · rintro (hm | ⟨hm, -⟩ | hm)
      · exact Or.inl hm
      · exact Or.inr (Or.inl hm)
      · exact Or.inr (Or.inr hm)

theorem Merges.bounded (h : Merges o drop heap outputs stats result final)
    (hv : ∀ r ∈ pending heap, r.Valid o.toFormatOptions) (hb : ∀ m ∈ outputs, Bounded o m) :
    ∀ m ∈ result, Bounded o m := by
  induction h with
  | done => exact hb
  | dropped hr _ _ ih => exact ih (fun r hm => hv r (round_mem hr (Or.inr hm))) hb
  | kept hr _ ha _ ih =>
    exact ih (fun r hm => hv r (round_mem hr (Or.inr hm)))
      (addOutputRecord_bounded (hv _ (round_mem hr (Or.inl rfl))) hb ha)

theorem Merges.packed (h : Merges o drop heap outputs stats result final)
    (hv : ∀ r ∈ pending heap, r.Valid o.toFormatOptions) (hi : BuildInv outputs (pending heap))
    (hp : Packed o outputs) : Packed o result := by
  induction h with
  | done => exact hp
  | dropped hr _ _ ih =>
    exact ih (fun r hm => hv r (round_mem hr (Or.inr hm)))
      (hi.mono (fun x hx => round_mem hr (Or.inr hx))) hp
  | @kept _ heap' w _ _ outputs _ _ _ _ hr _ ha _ ih =>
    have hi' : BuildInv outputs (w :: pending heap') := hi.mono (fun x hx =>
      round_mem hr (List.mem_cons.mp hx))
    have hw := hv w (round_mem hr (Or.inl rfl))
    have hlt := fun x hx => hi'.below x hx w List.mem_cons_self
    exact ih (fun r hm => hv r (round_mem hr (Or.inr hm)))
      ((addOutputRecord_ok hw hlt ha).buildInv hi' hr.rest) (addOutputRecord_packed hw hlt hp ha)

/-- Every record that a run passes is counted once. -/
theorem Merges.accounts (h : Merges o drop heap outputs stats result final) :
    final.inputRecords = stats.inputRecords ∧
      final.outputRecords + final.duplicateRecordsDropped + final.tombstonesDropped =
        stats.outputRecords + stats.duplicateRecordsDropped + stats.tombstonesDropped +
          (pending heap).length := by
  induction h with
  | done => exact ⟨rfl, rfl⟩
  | dropped hr _ _ ih =>
    have hlen := hr.perm.length_eq
    have hruns := hr.runs_eq
    simp only [List.cons_append, List.length_cons, List.length_append] at hlen
    obtain ⟨hin, hsum⟩ := ih
    exact ⟨hin, by dsimp only at hsum; omega⟩
  | kept hr _ _ _ ih =>
    have hlen := hr.perm.length_eq
    have hruns := hr.runs_eq
    simp only [List.cons_append, List.length_cons, List.length_append] at hlen
    obtain ⟨hin, hsum⟩ := ih
    exact ⟨hin, by dsimp only at hsum; omega⟩

end

/-- On inputs that do not claim a version twice the loop succeeds. -/
theorem buildLoop_isOk {o : Options} (hlimit : o.compactionOutputSizeLimit ≤ maxUInt64)
    {drop : Bool} {n : Nat}
    {heap : List (Cursor Record)} {outputs : List MemTable} {stats : CompactionBuildStats}
    (hs : Sorted Record.key heap) (hv : ∀ r ∈ pending heap, r.Valid o.toFormatOptions)
    (hd : Distinct Record.key Record.sequence (pending heap))
    (hi : BuildInv outputs (pending heap)) :
    ∃ result, buildLoop o drop n heap outputs stats = .ok result := by
  induction n generalizing heap outputs stats with
  | zero => exact ⟨_, rfl⟩
  | succ n ih =>
    by_cases hne : heap = []
    · subst hne
      exact ⟨_, by rw [buildLoop, mergeRound_eq_none.mpr rfl]⟩
    rcases mergeRound_cases hs hne with ⟨-, hc⟩ | ⟨w, runs, heap', losers, he, hr⟩
    · exact absurd hd hc
    rw [buildLoop, he]
    dsimp only
    have hv' : ∀ r ∈ pending heap', r.Valid o.toFormatOptions :=
      fun r hm => hv r (round_mem hr (Or.inr hm))
    have hd' := distinct_round hr hd
    split
    · exact ih hr.sorted hv' hd' (hi.mono (fun x hx => round_mem hr (Or.inr hx)))
    · have hw := hv w (round_mem hr (Or.inl rfl))
      have hi' : BuildInv outputs (w :: pending heap') := hi.mono (fun x hx =>
        round_mem hr (List.mem_cons.mp hx))
      have hlt := fun x hx => hi'.below x hx w List.mem_cons_self
      obtain ⟨added, ha⟩ := addOutputRecord_isOk hlimit hw hlt
      rw [ha]
      exact ih hr.sorted hv' hd' ((addOutputRecord_ok hw hlt ha).buildInv hi' hr.rest)

/-- Two records of the key of `r` share the version of `r`. -/
def Tied (rs : List Record) (r : Record) : Prop :=
  2 ≤ rs.countP (fun x => x.key = r.key ∧ x.sequence = r.sequence)

/-- A round does not touch a tie at the newest version of a key. -/
private theorem tied_round {heap heap' : List (Cursor Record)} {w r : Record} {n : Nat}
    {losers : List Record} (h : Round Record.key Record.sequence heap w n heap' losers)
    (hnew : IsNewest Record.key Record.sequence (pending heap) r.key r)
    (ht : Tied (pending heap) r) :
    IsNewest Record.key Record.sequence (pending heap') r.key r ∧ Tied (pending heap') r := by
  unfold Tied at ht ⊢
  rw [h.perm.countP_eq, List.countP_append, List.countP_cons] at ht
  rcases h.isNewest_iff.mp hnew with rfl | hrest
  · -- a winner is alone at its version
    have hlosers : losers.countP (fun x => x.key = r.key ∧ x.sequence = r.sequence) = 0 := by
      rw [List.countP_eq_zero]
      intro x hx
      have hlt := h.losers_version x hx
      simp only [decide_eq_true_eq, not_and]
      omega
    have hothers : (pending heap').countP (fun x => x.key = r.key ∧ x.sequence = r.sequence) =
        0 := by
      rw [List.countP_eq_zero]
      intro x hx
      simp only [decide_eq_true_eq, not_and]
      exact fun hk => absurd hk (h.rest x hx).ne'
    rw [hlosers, hothers] at ht
    split at ht <;> omega
  · have hlt := h.rest r hrest.mem
    have hgroup : ∀ x : Record, x.key = w.key →
        ¬ decide (x.key = r.key ∧ x.sequence = r.sequence) = true := by
      intro x hx
      simp only [decide_eq_true_eq, not_and]
      exact fun hk => absurd (hx.symm.trans hk) hlt.ne
    have hlosers : losers.countP (fun x => x.key = r.key ∧ x.sequence = r.sequence) = 0 :=
      List.countP_eq_zero.mpr (fun x hx => hgroup x (h.losers_key x hx))
    rw [hlosers, if_neg (hgroup w rfl)] at ht
    exact ⟨hrest, by omega⟩

/-- A tie at the newest version of a key ends the loop. -/
theorem buildLoop_tied {o : Options} (hlimit : o.compactionOutputSizeLimit ≤ maxUInt64)
    {drop : Bool} {n : Nat} {heap : List (Cursor Record)} {outputs : List MemTable}
    {stats : CompactionBuildStats} {r : Record} (hs : Sorted Record.key heap)
    (hv : ∀ r ∈ pending heap, r.Valid o.toFormatOptions) (hn : (pending heap).length ≤ n)
    (hi : BuildInv outputs (pending heap))
    (hnew : IsNewest Record.key Record.sequence (pending heap) r.key r)
    (ht : Tied (pending heap) r) :
    buildLoop o drop n heap outputs stats =
      .error (compactionCorruption "two input records reuse one global Sequence number") := by
  induction n generalizing heap outputs stats with
  | zero =>
    have hmem := hnew.mem
    rw [List.length_eq_zero_iff.mp (Nat.le_zero.mp hn)] at hmem
    cases hmem
  | succ n ih =>
    have hne : heap ≠ [] := by
      rintro rfl
      cases hnew.mem
    rw [buildLoop]
    rcases mergeRound_cases hs hne with ⟨he, -⟩ | ⟨w, runs, heap', losers, he, hr⟩
    · rw [he]
    rw [he]
    dsimp only
    obtain ⟨hnew', ht'⟩ := tied_round hr hnew ht
    have hlen : (pending heap').length ≤ n := by
      have := hr.length_lt
      omega
    have hv' : ∀ r ∈ pending heap', r.Valid o.toFormatOptions :=
      fun r hm => hv r (round_mem hr (Or.inr hm))
    split
    · exact ih hr.sorted hv' hlen (hi.mono (fun x hx => round_mem hr (Or.inr hx))) hnew' ht'
    · have hw := hv w (round_mem hr (Or.inl rfl))
      have hi' : BuildInv outputs (w :: pending heap') := hi.mono (fun x hx =>
        round_mem hr (List.mem_cons.mp hx))
      have hlt := fun x hx => hi'.below x hx w List.mem_cons_self
      obtain ⟨added, ha⟩ := addOutputRecord_isOk hlimit hw hlt
      rw [ha]
      exact ih hr.sorted hv' hlen ((addOutputRecord_ok hw hlt ha).buildInv hi' hr.rest) hnew' ht'

/-! ## The whole build -/

/-- The records of the inputs, one table after the other. -/
def inputRecords (inputs : List CompactionInput) : List Record :=
  tableRecords (inputs.map CompactionInput.table)

/-- A table that can be merged: what `Open` makes sure of. -/
structure SSTableReader.Readable (o : FormatOptions) (t : SSTableReader) : Prop where
  ascending : Ascending t.records
  valid : ∀ r ∈ t.records, r.Valid o
  recordCount : t.metadata.recordCount = t.records.length

theorem SSTableReader.Coherent.readable {o : FormatOptions} {t : SSTableReader}
    (h : t.Coherent o) : t.Readable o := ⟨h.ascending, h.valid, h.recordCount⟩

theorem inputRecords_cons (i : CompactionInput) (inputs : List CompactionInput) :
    inputRecords (i :: inputs) = i.table.records ++ inputRecords inputs := rfl

section

variable {o : FormatOptions} {inputs : List CompactionInput}

theorem readInputs_ok {seen : List Nat} {count count' : Nat} {sources : List (List Record)}
    (hc : ∀ i ∈ inputs, i.table.Readable o)
    (h : readInputs seen count inputs = .ok (sources, count')) :
    sources = inputs.map (fun i => i.table.records) ∧
      count' = count + (inputRecords inputs).length := by
  induction inputs generalizing seen count count' sources with
  | nil =>
    rw [readInputs] at h
    obtain ⟨rfl, rfl⟩ := Prod.mk.inj (Except.ok.inj h)
    exact ⟨rfl, rfl⟩
  | cons i is ih =>
    have hi := hc i List.mem_cons_self
    have hcount : i.table.records.take i.table.metadata.recordCount = i.table.records := by
      rw [hi.recordCount, List.take_length]
    rw [readInputs] at h
    dsimp only at h
    rw [hcount] at h
    obtain ⟨-, h⟩ := ite_error_eq_ok.mp h
    obtain ⟨-, h⟩ := ite_error_eq_ok.mp h
    obtain ⟨-, h⟩ := ite_error_eq_ok.mp h
    split at h
    · cases h
    · rename_i rest count'' hrest
      obtain ⟨rfl, rfl⟩ := Prod.mk.inj (Except.ok.inj h)
      obtain ⟨hsources, hsum⟩ := ih (fun j hj => hc j (List.mem_cons_of_mem _ hj)) hrest
      refine ⟨by rw [hsources, List.map_cons], ?_⟩
      rw [hsum, inputRecords_cons, List.length_append, Nat.add_assoc]

/-- Distinct tables of the two levels can be read, as long as their records can be
counted. -/
theorem readInputs_isOk {seen : List Nat} {count : Nat} (hc : ∀ i ∈ inputs, i.table.Readable o)
    (hl : ∀ i ∈ inputs, i.level ≤ 1)
    (hnd : (inputs.map (fun i => i.table.generation)).Nodup)
    (hseen : ∀ i ∈ inputs, i.table.generation ∉ seen)
    (hsize : count + (inputRecords inputs).length ≤ maxUInt64) :
    ∃ result, readInputs seen count inputs = .ok result := by
  induction inputs generalizing seen count with
  | nil => exact ⟨_, rfl⟩
  | cons i is ih =>
    have hi := hc i List.mem_cons_self
    have hcount : i.table.records.take i.table.metadata.recordCount = i.table.records := by
      rw [hi.recordCount, List.take_length]
    have hlevel := hl i List.mem_cons_self
    rw [List.map_cons, List.nodup_cons] at hnd
    rw [inputRecords_cons, List.length_append] at hsize
    have hrec := hi.recordCount
    have hnot : i.table.metadata.generation ∉ seen := hseen i List.mem_cons_self
    obtain ⟨⟨sources, total⟩, hrest⟩ : ∃ result,
        readInputs (i.table.metadata.generation :: seen) (count + i.table.records.length) is =
          .ok result := ih
      (fun j hj => hc j (List.mem_cons_of_mem _ hj))
      (fun j hj => hl j (List.mem_cons_of_mem _ hj)) hnd.2
      (fun j hj hm => by
        rcases List.mem_cons.mp hm with he | hm
        · exact hnd.1 (List.mem_map.mpr ⟨j, hj, he⟩)
        · exact hseen j (List.mem_cons_of_mem _ hj) hm)
      (by omega)
    refine ⟨(i.table.records :: sources, total), ?_⟩
    rw [readInputs]
    dsimp only
    rw [hcount, if_neg, if_neg (by rw [hrec]; simp), if_neg (by omega), hrest]
    rintro (h | h | h)
    · omega
    · exact hnot (by simpa using h)
    · omega

/-- The sizes of the input files bound the number of their records. -/
theorem length_inputRecords_le (hc : ∀ i ∈ inputs, i.table.Coherent o) :
    (inputRecords inputs).length ≤ (inputs.map (fun i => i.table.metadata.fileSize)).sum := by
  induction inputs with
  | nil => exact Nat.zero_le _
  | cons i is ih =>
    have hle := (hc i List.mem_cons_self).size
    have hrest := ih (fun j hj => hc j (List.mem_cons_of_mem _ hj))
    rw [inputRecords_cons, List.length_append, List.map_cons, List.sum_cons]
    omega

end

/-- The outputs of a build: in key order, none empty, exactly the surviving records. -/
structure BuildResult (drop : Bool) (inputs : List Record) (outputs : List MemTable) : Prop where
  ascending : Ascending (outputRecords outputs)
  ne_nil : ∀ m ∈ outputs, m.entries ≠ []
  mem : ∀ r, r ∈ outputRecords outputs ↔ Survives drop inputs r

/-- A build and its statistics: besides the surviving records, that the outputs lie one
behind the other and keep to the size limit, and that every record is accounted for. -/
structure Merged (o : Options) (drop : Bool) (inputs : List Record) (outputs : List MemTable)
    (stats : CompactionBuildStats) : Prop extends BuildResult drop inputs outputs where
  apart : outputs.Pairwise (fun a b => ∀ x ∈ a.records, ∀ y ∈ b.records, x.key < y.key)
  bounded : ∀ m ∈ outputs,
    m.approximateDataSize ≤ o.compactionOutputSizeLimit ∨ m.records.length = 1
  inputs_eq : stats.inputRecords = inputs.length
  accounts : stats.inputRecords =
    stats.outputRecords + stats.duplicateRecordsDropped + stats.tombstonesDropped

private theorem buildInv_nil (rest : List Record) : BuildInv [] rest :=
  ⟨List.Pairwise.nil, by simp, by simp [outputRecords]⟩

section

variable {o : Options} {drop : Bool} {inputs : List CompactionInput}

private theorem sorted_inputs (hc : ∀ i ∈ inputs, i.table.Readable o.toFormatOptions) :
    Sorted Record.key (startCursors (inputs.map (fun i => i.table.records))) := by
  refine sorted_startCursors (fun run hrun => ?_)
  obtain ⟨i, hi, rfl⟩ := List.mem_map.mp hrun
  exact (hc i hi).ascending

private theorem pending_inputs (inputs : List CompactionInput) :
    pending (startCursors (inputs.map (fun i => i.table.records))) = inputRecords inputs := by
  rw [pending_startCursors, inputRecords, tableRecords, List.flatMap_map, List.flatMap_def]

private theorem valid_inputs (hc : ∀ i ∈ inputs, i.table.Readable o.toFormatOptions) :
    ∀ r ∈ pending (startCursors (inputs.map (fun i => i.table.records))),
      r.Valid o.toFormatOptions := by
  intro r hr
  rw [pending_inputs] at hr
  obtain ⟨t, ht, hr⟩ := mem_tableRecords.mp hr
  obtain ⟨i, hi, rfl⟩ := List.mem_map.mp ht
  exact (hc i hi).valid r hr

/-- Tables whose records follow one another lie apart. -/
theorem apart_of_ascending {outputs : List MemTable} (h : Ascending (outputRecords outputs)) :
    outputs.Pairwise (fun a b => ∀ x ∈ a.records, ∀ y ∈ b.records, x.key < y.key) := by
  simp only [MemTable.records_eq]
  exact (List.pairwise_flatMap.mp h).2

/-- What has room in one output goes into one. -/
theorem length_le_one_of_packed {outputs : List MemTable}
    (hp : outputs.IsChain (fun a b =>
      o.compactionOutputSizeLimit < a.approximateDataSize + b.approximateDataSize))
    (h : totalSize (outputRecords outputs) ≤ o.compactionOutputSizeLimit) :
    outputs.length ≤ 1 := by
  rcases outputs with _ | ⟨a, _ | ⟨b, rest⟩⟩
  · exact Nat.zero_le _
  · exact le_refl _
  · have hlt := (List.isChain_cons.mp hp).1 b rfl
    rw [a.size_eq, b.size_eq] at hlt
    simp only [outputRecords, List.flatMap_cons, totalSize, List.map_append, List.sum_append] at h hlt
    omega

/-- A build that succeeds is a run of the merge loop. -/
theorem buildCompactionOutputs_merges {outputs : List MemTable} {stats : CompactionBuildStats}
    (hc : ∀ i ∈ inputs, i.table.Readable o.toFormatOptions)
    (h : buildCompactionOutputs o drop inputs = .ok (outputs, stats)) :
    ∃ built, outputs = built.reverse ∧
      Merges o drop (startCursors (inputs.map (fun i => i.table.records))) []
        { inputRecords := 0 + (inputRecords inputs).length } built stats := by
  unfold buildCompactionOutputs at h
  obtain ⟨-, h⟩ := ite_error_eq_ok.mp h
  split at h
  · cases h
  rename_i sources count hread
  obtain ⟨rfl, rfl⟩ := readInputs_ok hc hread
  split at h
  · cases h
  rename_i built stats' hloop
  obtain ⟨rfl, rfl⟩ := Prod.mk.inj (Except.ok.inj h)
  exact ⟨built, rfl, buildLoop_merges (sorted_inputs hc) (by rw [pending_startCursors]) hloop⟩

/-- Of two outputs in a row the second was opened because the first was full. -/
theorem buildCompactionOutputs_packed {outputs : List MemTable} {stats : CompactionBuildStats}
    (hc : ∀ i ∈ inputs, i.table.Readable o.toFormatOptions)
    (h : buildCompactionOutputs o drop inputs = .ok (outputs, stats)) :
    outputs.IsChain (fun a b =>
      o.compactionOutputSizeLimit < a.approximateDataSize + b.approximateDataSize) := by
  obtain ⟨built, rfl, hmerges⟩ := buildCompactionOutputs_merges hc h
  exact List.isChain_reverse.mpr (hmerges.packed (valid_inputs hc) (buildInv_nil _) .nil)

theorem buildCompactionOutputs_merged {outputs : List MemTable} {stats : CompactionBuildStats}
    (hc : ∀ i ∈ inputs, i.table.Readable o.toFormatOptions)
    (h : buildCompactionOutputs o drop inputs = .ok (outputs, stats)) :
    Merged o drop (inputRecords inputs) outputs stats := by
  obtain ⟨built, rfl, hmerges⟩ := buildCompactionOutputs_merges hc h
  have hresult := hmerges.loopResult (valid_inputs hc) (buildInv_nil _)
  have hbounded := hmerges.bounded (valid_inputs hc) (by simp)
  obtain ⟨hinput, hsum⟩ := hmerges.accounts
  rw [pending_inputs] at hresult hsum
  simp only [Nat.zero_add] at hinput hsum
  refine ⟨⟨hresult.inv.ascending, fun m hm => hresult.inv.ne_nil m (List.mem_reverse.mp hm),
    fun r => ?_⟩, apart_of_ascending hresult.inv.ascending, fun m hm => ?_, hinput,
    hinput.trans hsum.symm⟩
  · rw [hresult.mem]
    constructor
    · rintro (hr | hr)
      · cases hr
      · exact hr
    · exact Or.inr
  · rw [MemTable.records_eq]
    exact hbounded m (List.mem_reverse.mp hm)

theorem buildCompactionOutputs_ok {outputs : List MemTable} {stats : CompactionBuildStats}
    (hc : ∀ i ∈ inputs, i.table.Coherent o.toFormatOptions)
    (h : buildCompactionOutputs o drop inputs = .ok (outputs, stats)) :
    BuildResult drop (inputRecords inputs) outputs :=
  (buildCompactionOutputs_merged (fun i hi => (hc i hi).readable) h).toBuildResult

/-- What a compaction is given: distinct tables of the two levels, and an output size
limit. -/
structure CompactionArgs (o : Options) (inputs : List CompactionInput) : Prop where
  ne_nil : inputs ≠ []
  limit_pos : 0 < o.compactionOutputSizeLimit
  limit_le : o.compactionOutputSizeLimit ≤ maxUInt64
  readable : ∀ i ∈ inputs, i.table.Readable o.toFormatOptions
  levels : ∀ i ∈ inputs, i.level ≤ 1
  distinct : (inputs.map (fun i => i.table.generation)).Nodup
  countable : (inputRecords inputs).length ≤ maxUInt64

/-- Such tables are read, and what is left is the merge of their records. -/
theorem CompactionArgs.buildCompactionOutputs_eq (h : CompactionArgs o inputs) (drop : Bool) :
    ∃ count, buildCompactionOutputs o drop inputs =
      (buildLoop o drop (inputRecords inputs).length
        (startCursors (inputs.map (fun i => i.table.records))) []
        { inputRecords := count }).map (fun p => (p.1.reverse, p.2)) := by
  have hcountable := h.countable
  obtain ⟨⟨sources, count⟩, hread⟩ : ∃ result, readInputs [] 0 inputs = .ok result :=
    readInputs_isOk h.readable h.levels h.distinct (fun _ _ hm => by cases hm) (by omega)
  obtain ⟨rfl, -⟩ := readInputs_ok h.readable hread
  have hlen : (inputs.map (fun i => i.table.records)).flatten = inputRecords inputs := by
    rw [← pending_inputs, pending_startCursors]
  refine ⟨count, ?_⟩
  rw [buildCompactionOutputs, if_neg (by simp [h.ne_nil, h.limit_pos.ne']), hread]
  dsimp only
  rw [hlen]
  split
  · rename_i hloop
    rw [hloop]
    rfl
  · rename_i hloop
    rw [hloop]
    rfl

theorem CompactionArgs.isOk (h : CompactionArgs o inputs)
    (hd : DistinctRecords (inputRecords inputs)) (drop : Bool) :
    ∃ result, buildCompactionOutputs o drop inputs = .ok result := by
  obtain ⟨count, heq⟩ := h.buildCompactionOutputs_eq drop
  obtain ⟨⟨outputs, stats⟩, hloop⟩ : ∃ result, buildLoop o drop (inputRecords inputs).length
      (startCursors (inputs.map (fun i => i.table.records))) []
      { inputRecords := count } = .ok result := buildLoop_isOk h.limit_le
    (sorted_inputs h.readable) (valid_inputs h.readable) (by rw [pending_inputs]; exact hd)
    (buildInv_nil _)
  rw [heq, hloop]
  exact ⟨_, rfl⟩

/-- A compaction computes the newest record of every key, cut into outputs, and accounts
for every record that it read. Where two records claim the newest version of a key, it
reports corruption. -/
theorem buildCompactionOutputs_exact (h : CompactionArgs o inputs) (drop : Bool) :
    (DistinctRecords (inputRecords inputs) →
      ∃ outputs stats, buildCompactionOutputs o drop inputs = .ok (outputs, stats) ∧
        Merged o drop (inputRecords inputs) outputs stats) ∧
    ((∃ r, IsNewest Record.key Record.sequence (inputRecords inputs) r.key r ∧
        Tied (inputRecords inputs) r) →
      ∃ e, buildCompactionOutputs o drop inputs = .error e ∧ e.code = .corruption) := by
  refine ⟨fun hd => ?_, ?_⟩
  · obtain ⟨⟨outputs, stats⟩, hbuild⟩ := h.isOk hd drop
    exact ⟨outputs, stats, hbuild, buildCompactionOutputs_merged h.readable hbuild⟩
  · rintro ⟨r, hnew, ht⟩
    obtain ⟨count, heq⟩ := h.buildCompactionOutputs_eq drop
    rw [← pending_inputs] at hnew ht
    rw [heq, buildLoop_tied h.limit_le (sorted_inputs h.readable) (valid_inputs h.readable)
      (by rw [pending_inputs]) (buildInv_nil _) hnew ht]
    exact ⟨_, rfl, rfl⟩

end

/-- A level-zero table with the given records. -/
def levelZeroInput (generation : Nat) (rs : List Record) : CompactionInput where
  level := 0
  table := {
    path := .sst generation
    metadata := tableSummary generation 200 rs
    records := rs }

/-- Options under which an output has room for one record of two bytes. -/
def narrowOutputs : Options := { compactionOutputSizeLimit := 12 }

/-- Two tables: the second overwrites a key of the first, and deletes another key. -/
def overwrittenInputs : List CompactionInput :=
  [levelZeroInput 1 [⟨[1], 1, .value, [2]⟩, ⟨[2], 2, .value, [3]⟩],
    levelZeroInput 2 [⟨[1], 3, .value, [4]⟩, ⟨[3], 4, .deletion, []⟩]]

theorem overwrittenInputs_args : CompactionArgs narrowOutputs overwrittenInputs where
  ne_nil := List.cons_ne_nil _ _
  limit_pos := by decide
  limit_le := by decide
  readable := by
    have hvalid : ∀ i ∈ overwrittenInputs, ∀ r ∈ i.table.records,
        (validateWalRecord narrowOutputs.toFormatOptions r).isOk = true := by decide
    have hasc : ∀ i ∈ overwrittenInputs, Ascending i.table.records ∧
        i.table.metadata.recordCount = i.table.records.length := by decide
    exact fun i hi => ⟨(hasc i hi).1, fun r hr => validateWalRecord_isOk.mp (hvalid i hi r hr),
      (hasc i hi).2⟩
  levels := by decide
  distinct := by decide
  countable := by decide

/-- The outputs are two: the limit splits the records that survive. -/
theorem buildCompactionOutputs_exact_overwritten :
    CompactionArgs narrowOutputs overwrittenInputs ∧ ∃ outputs stats,
      buildCompactionOutputs narrowOutputs true overwrittenInputs = .ok (outputs, stats) ∧
        Merged narrowOutputs true (inputRecords overwrittenInputs) outputs stats ∧
        outputs.map MemTable.records = [[⟨[1], 3, .value, [4]⟩], [⟨[2], 2, .value, [3]⟩]] := by
  have hd : DistinctRecords (inputRecords overwrittenInputs) := by
    simp [DistinctRecords, Distinct, inputRecords, tableRecords, overwrittenInputs, levelZeroInput]
  obtain ⟨outputs, stats, hbuild, hmerged⟩ :=
    (buildCompactionOutputs_exact overwrittenInputs_args true).1 hd
  refine ⟨overwrittenInputs_args, outputs, stats, hbuild, hmerged, ?_⟩
  have hrun : (buildCompactionOutputs narrowOutputs true overwrittenInputs).map
      (fun p => p.1.map MemTable.records) =
        .ok [[⟨[1], 3, .value, [4]⟩], [⟨[2], 2, .value, [3]⟩]] := by
    decide +kernel
  rw [hbuild] at hrun
  exact Except.ok.inj hrun

end MiniKV
