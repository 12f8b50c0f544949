import MiniKV.State.Contents

/-!
# Point reads

`Get` stops at the first layer that has the key and takes the largest sequence
number only among the tables. Where the layers are ordered that is the newest
record there is, so a read shows the value of the key in the view.
-/

namespace MiniKV

open Lib

/-- A key that every lookup accepts. -/
def ValidKey (o : FormatOptions) (k : Bytes) : Prop := k ≠ [] ∧ k.length ≤ o.maxKeySize

/-- A lookup shows a record, tombstones included, or finds none. -/
def Finds : Option Record → LookupResult → Prop
  | some r, result =>
    result = { status := .ok, sequence := r.sequence, type := r.type, value := r.value }
  | none, result => result.status.isNotFound = true

/-- A read gives a value, or says that the key has none. -/
def Answers : Option Bytes → LookupResult → Prop
  | some v, result => result.status = .ok ∧ result.value = v
  | none, result => result.status.isNotFound = true

/-- A read cannot give two answers. -/
theorem Answers.unique {x y : Option Bytes} {r : LookupResult} (hx : Answers x r)
    (hy : Answers y r) : x = y := by
  cases x with
  | none =>
    cases y with
    | none => rfl
    | some v =>
      have h : r.status.isNotFound = true := hx
      rw [hy.1] at h
      cases h
  | some v =>
    cases y with
    | none =>
      have h : r.status.isNotFound = true := hy
      rw [hx.1] at h
      cases h
    | some u => rw [← hx.2, ← hy.2]

theorem Finds.answers {x : Option Record} {r : LookupResult} (h : Finds x r) :
    Answers (x.bind Record.visible) (userVisible r) := by
  cases x with
  | none =>
    have hn : r.status.isNotFound = true := h
    have hd : r.deleted = false := by
      have hok : r.status.isOk = false := by
        simp only [Status.isNotFound, decide_eq_true_eq] at hn
        simp [Status.isOk, hn]
      simp [LookupResult.deleted, hok]
    rw [userVisible, if_neg (by simp [hd])]
    exact hn
  | some y =>
    have hr : r = _ := h
    rw [hr]
    cases ht : y.type with
    | value => simp [Answers, userVisible, LookupResult.deleted, Record.visible, ht]
    | deletion => simp [Answers, userVisible, LookupResult.deleted, Record.visible, ht]

theorem Finds.notFound_iff {x : Option Record} {r : LookupResult} (h : Finds x r) :
    r.status.isNotFound = true ↔ x = none := by
  cases x with
  | none => exact ⟨fun _ => rfl, fun _ => h⟩
  | some y =>
    have hr : r = _ := h
    rw [hr]
    simp

theorem Finds.isOk_iff {x : Option Record} {r : LookupResult} (h : Finds x r) :
    r.status.isOk = true ↔ x.isSome = true := by
  cases x with
  | none =>
    have hn : r.status.isNotFound = true := h
    simp only [Status.isNotFound, decide_eq_true_eq] at hn
    simp [Status.isOk, hn]
  | some y =>
    have hr : r = _ := h
    rw [hr]
    simp

theorem MemTable.lookup_finds {o : FormatOptions} {k : Bytes} (hk : ValidKey o k) (m : MemTable) :
    Finds (findKey m.entries k) (m.lookup o k) := by
  have hv : (MemTable.validate o k []).isOk = true :=
    MemTable.validate_isOk.mpr ⟨hk.1, hk.2, Nat.zero_le _⟩
  unfold MemTable.lookup
  simp only [hv, Bool.not_true, Bool.false_eq_true, if_false]
  cases findKey m.entries k with
  | none => simp [Finds]
  | some r => simp [Finds]

theorem SSTableReader.get_finds {o : FormatOptions} {k : Bytes} (hk : ValidKey o k)
    {t : SSTableReader} (ht : t.Coherent o) : Finds (findKey t.records k) (t.get o k) := by
  have hne : k.isEmpty = false := by simpa using hk.1
  unfold SSTableReader.get
  rw [if_neg (by simp [hne]), if_neg (not_lt.mpr hk.2)]
  by_cases hout : k < t.metadata.minimumKey ∨ t.metadata.maximumKey < k
  · -- outside the key range of the table there is no record
    have hnone : findKey t.records k = none := by
      refine findKey_eq_none.mpr (fun r hr he => ?_)
      rcases hout with h | h
      · exact absurd (ht.minimumKey_le hr) (not_le.mpr (he ▸ h))
      · exact absurd (ht.le_maximumKey hr) (not_le.mpr (he ▸ h))
    rw [if_pos hout, hnone]
    simp [Finds]
  · rw [if_neg hout]
    cases findKey t.records k with
    | none => simp [Finds]
    | some r => simp [Finds]

/-- The loop over the tables ends with the newest record. -/
theorem newestInTables_answers {o : FormatOptions} {k : Bytes} (hk : ValidKey o k)
    {ts : List SSTableReader} (hc : ∀ t ∈ ts, t.Coherent o) {x : Option Record}
    {acc : LookupResult} (hx : Finds x acc) :
    Answers ((newer Record.sequence x (newestRecord k (tableRecords ts))).bind Record.visible)
      (newestInTables o k acc ts) := by
  induction ts generalizing x acc with
  | nil =>
    rw [tableRecords_nil, newestRecord, newest, newer_none, newestInTables]
    by_cases hok : acc.status.isOk = true
    · rw [if_pos hok]
      exact hx.answers
    · have hnone : x = none := by
        cases x with
        | none => rfl
        | some y => exact absurd (hx.isOk_iff.mpr rfl) hok
      rw [if_neg hok, hnone]
      simp [Answers]
  | cons t ts ih =>
    have hct := hc t List.mem_cons_self
    have hts : ∀ u ∈ ts, u.Coherent o := fun u hu => hc u (List.mem_cons_of_mem _ hu)
    have hget := SSTableReader.get_finds hk hct
    rw [tableRecords_cons, newestRecord, newest_append, ← newer_assoc,
      show newest Record.key Record.sequence k t.records = findKey t.records k from
        hct.newestRecord_eq k]
    rw [newestInTables]
    cases hf : findKey t.records k with
    | none =>
      rw [hf] at hget
      have hnf : (t.get o k).status.isNotFound = true := hget
      have hok : (t.get o k).status.isOk = false := by
        cases hb : (t.get o k).status.isOk with
        | false => rfl
        | true => exact absurd (hget.isOk_iff.mp hb) (by simp)
      simp only [hnf, hok, Bool.not_true, Bool.false_eq_true, and_false, false_and, if_false]
      rw [newer_none]
      exact ih hts hx
    | some r =>
      rw [hf] at hget
      have hr : t.get o k = _ := hget
      have hok : (t.get o k).status.isOk = true := hget.isOk_iff.mpr rfl
      simp only [hok, Bool.not_true, Bool.false_eq_true, false_and, if_false, true_and]
      cases x with
      | none =>
        have hacc : acc.status.isOk = false := by
          cases hb : acc.status.isOk with
          | false => rfl
          | true => exact absurd (hx.isOk_iff.mp hb) (by simp)
        simp only [hacc, Bool.not_false, true_or, if_true]
        exact ih hts hget
      | some y =>
        have hacc : acc.status.isOk = true := hx.isOk_iff.mpr rfl
        have ha : acc = _ := hx
        have hseq : (acc.sequence < (t.get o k).sequence) = (y.sequence < r.sequence) := by
          rw [ha, hr]
        simp only [hacc, Bool.not_true, Bool.false_eq_true, false_or, hseq]
        by_cases hlt : y.sequence < r.sequence
        · rw [if_pos hlt, newer, if_pos hlt]
          exact ih hts hget
        · rw [if_neg hlt, newer, if_neg hlt]
          exact ih hts hx

/-- A layer in front of an answer. -/
theorem overlay_answers {o : FormatOptions} {k : Bytes} (hk : ValidKey o k) (m : MemTable)
    {base : Bytes → Option Bytes} {r : LookupResult} (hr : Answers (base k) r) :
    Answers (overlay m.entries base k)
      (if !(m.lookup o k).status.isNotFound then userVisible (m.lookup o k) else r) := by
  have hfind := m.lookup_finds hk
  unfold overlay
  cases hf : findKey m.entries k with
  | none =>
    rw [hf] at hfind
    rw [if_neg (by simp [hfind.notFound_iff.mpr rfl])]
    exact hr
  | some x =>
    rw [hf] at hfind
    have hfound : (m.lookup o k).status.isNotFound = false := by
      cases hb : (m.lookup o k).status.isNotFound with
      | false => rfl
      | true => exact absurd (hfind.notFound_iff.mp hb) (by simp)
    rw [if_pos (by simp [hfound])]
    exact hfind.answers

/-- A read of a running database shows its view. -/
theorem Database.get_answers {db : Database} {ρ : Regime} (h : ContentsInv ρ db.contents)
    (hrun : db.state = .running) {k : Bytes} (hk : ValidKey db.format k) :
    Answers (db.contents.view k) (db.get k) := by
  have htables : Answers (shown (tableRecords db.tables) k)
      (newestInTables db.format k { status := .notFound "key does not exist" }
        db.tables.reverse) := by
    have hperm : (tableRecords db.tables.reverse).Perm (tableRecords db.tables) :=
      tableRecords_perm db.tables.reverse_perm
    have hsame : newestRecord k (tableRecords db.tables.reverse) =
        newestRecord k (tableRecords db.tables) :=
      newest_perm (h.distinct.perm hperm.symm) hperm k
    rw [shown, ← hsame]
    exact newestInTables_answers hk (x := none)
      (fun t ht => h.coherent t (List.mem_reverse.mp ht)) rfl
  have hisRunning : db.isRunning = true := by simp [Database.isRunning, hrun]
  rw [Database.get, if_neg (by simp [hisRunning])]
  refine overlay_answers hk db.mutableTable ?_
  show Answers (overlay db.contents.immutableRecords _ k) _
  cases himm : db.immutable with
  | none =>
    have hnil : db.contents.immutableRecords = [] := by
      simp [Contents.immutableRecords, Database.contents, himm]
    rw [hnil]
    exact htables
  | some imm =>
    have hrecords : db.contents.immutableRecords = imm.memtable.entries := by
      simp [Contents.immutableRecords, Database.contents, himm]
    rw [hrecords]
    exact overlay_answers hk imm.memtable htables

end MiniKV
