import MiniKV.Storage.Outputs

/-!
# Log files

A log holds the encodings of a list of entries and, after a failed append or a
crash, a torn piece of one more. An entry is durable once it has been synced;
a crash keeps a prefix that contains every durable entry. Recovery replays
exactly the whole records and reports whether a torn piece is left.
-/

namespace MiniKV

open Lib

structure Entry where
  record : Record
  durable : Bool
  deriving DecidableEq, Repr

def recordsOf (L : List Entry) : List Record := L.map Entry.record

@[simp] theorem recordsOf_nil : recordsOf [] = [] := rfl

@[simp] theorem recordsOf_append (L L' : List Entry) :
    recordsOf (L ++ L') = recordsOf L ++ recordsOf L' := List.map_append

section

variable (F : StorageFormat) (o : FormatOptions)

/-- The encoding of a record that has one. -/
def walBytes (r : Record) : Bytes := ((F.encodeWalRecord o r).toOption).getD []

def Encodable (r : Record) : Prop := F.encodeWalRecord o r = .ok (walBytes F o r)

/-- The encodings of records, one after the other. -/
def logBytes (rs : List Record) : Bytes := rs.flatMap (walBytes F o)

/-- A piece of a record that was written under one of the formats, not the whole. -/
def Torn (O : FormatOptions → Prop) (t : Bytes) : Prop :=
  t = [] ∨ ∃ o r, O o ∧ Encodable F o r ∧ t <+: walBytes F o r ∧ t ≠ walBytes F o r

/-- What recovery takes for the end of a log: too little for a header, or a header that
announces more than there is. -/
def Incomplete (t : Bytes) : Prop :=
  t.length < kWalHeaderSize ∨
    ∃ n, F.decodeWalRecordHeader o (t.take kWalHeaderSize) = .ok n ∧ t.length < n

/-- Records that recovery accepts after a sequence number. -/
def Follows : Nat → List Record → Prop
  | _, [] => True
  | n, r :: rs => Encodable F o r ∧ n < r.sequence ∧ Follows r.sequence rs

end

/-- The table after records have been added in order. -/
def replayInto (m : MemTable) (rs : List Record) : MemTable := rs.foldl MemTable.insert m

/-- The sequence number after records in order. -/
def lastOf : Nat → List Record → Nat
  | n, [] => n
  | _, r :: rs => lastOf r.sequence rs

section

variable {F : StorageFormat} {o : FormatOptions}

theorem encodable_of_ok {r : Record} {b : Bytes} (h : F.encodeWalRecord o r = .ok b) :
    Encodable F o r ∧ walBytes F o r = b := by
  have hb : walBytes F o r = b := by rw [walBytes, h]; rfl
  exact ⟨by rw [Encodable, hb, h], hb⟩

@[simp] theorem logBytes_nil : logBytes F o [] = [] := rfl

@[simp] theorem logBytes_cons (r : Record) (rs : List Record) :
    logBytes F o (r :: rs) = walBytes F o r ++ logBytes F o rs := rfl

theorem logBytes_append (rs ss : List Record) :
    logBytes F o (rs ++ ss) = logBytes F o rs ++ logBytes F o ss := List.flatMap_append

theorem Follows.append {n : Nat} {rs ss : List Record} :
    Follows F o n (rs ++ ss) ↔ Follows F o n rs ∧ Follows F o (lastOf n rs) ss := by
  induction rs generalizing n with
  | nil => simp [Follows, lastOf]
  | cons r rs ih =>
    rw [List.cons_append, Follows, Follows, ih, lastOf]
    tauto

theorem Follows.lt {n : Nat} {rs : List Record} (h : Follows F o n rs) :
    ∀ r ∈ rs, n < r.sequence := by
  induction rs generalizing n with
  | nil => intro r hr; cases hr
  | cons x xs ih =>
    intro r hr
    rcases List.mem_cons.mp hr with rfl | hr
    · exact h.2.1
    · exact h.2.1.trans (ih h.2.2 r hr)

theorem Follows.le_lastOf {n : Nat} {rs : List Record} (h : Follows F o n rs) :
    n ≤ lastOf n rs ∧ ∀ r ∈ rs, r.sequence ≤ lastOf n rs := by
  induction rs generalizing n with
  | nil => exact ⟨le_refl _, fun r hr => by cases hr⟩
  | cons x xs ih =>
    obtain ⟨h1, h2⟩ := ih h.2.2
    have hx := h.2.1
    rw [lastOf]
    refine ⟨by omega, fun r hr => ?_⟩
    rcases List.mem_cons.mp hr with rfl | hr
    · exact h1
    · exact h2 r hr

theorem Follows.mono {n n' : Nat} {rs : List Record} (h : Follows F o n rs) (hn : n' ≤ n) :
    Follows F o n' rs := by
  cases rs with
  | nil => trivial
  | cons r rs => exact ⟨h.1, lt_of_le_of_lt hn h.2.1, h.2.2⟩

theorem Follows.encodable {n : Nat} {rs : List Record} (h : Follows F o n rs) :
    ∀ r ∈ rs, Encodable F o r := by
  induction rs generalizing n with
  | nil => intro r hr; cases hr
  | cons x xs ih =>
    intro r hr
    rcases List.mem_cons.mp hr with rfl | hr
    · exact h.1
    · exact ih h.2.2 r hr

theorem walBytes_length (hF : F.Lawful) {r : Record} (h : Encodable F o r) :
    (walBytes F o r).length = r.walSize := hF.encodeWalRecord_length h

theorem payloadSize_le_walSize (r : Record) : r.payloadSize ≤ r.walSize := by
  simp only [Record.payloadSize, encodedPayloadSize, kRecordMetadataSize, Record.walSize,
    kWalHeaderSize]
  omega

theorem header_le_walSize (r : Record) : kWalHeaderSize ≤ r.walSize := by
  simp only [Record.walSize]
  omega

/-- The encodings are at least as long as what they add to a MemTable. -/
theorem replayInto_size (hF : F.Lawful) {m : MemTable} {rs : List Record}
    (h : ∀ r ∈ rs, Encodable F o r) :
    (replayInto m rs).approximateDataSize ≤
      m.approximateDataSize + (logBytes F o rs).length := by
  induction rs generalizing m with
  | nil => simp [replayInto]
  | cons r rs ih =>
    have hr := walBytes_length hF (h r List.mem_cons_self)
    have h1 := ih (m := m.insert r) (fun x hx => h x (List.mem_cons_of_mem _ hx))
    have h2 := m.size_insert_le r
    have h3 := payloadSize_le_walSize r
    rw [logBytes_cons, List.length_append]
    simp only [replayInto, List.foldl_cons] at h1 ⊢
    omega

/-- Every record takes bytes. -/
theorem length_le_logBytes (hF : F.Lawful) {rs : List Record} (h : ∀ r ∈ rs, Encodable F o r) :
    rs.length ≤ (logBytes F o rs).length := by
  induction rs with
  | nil => exact le_refl _
  | cons r rs ih =>
    have hr := walBytes_length hF (h r List.mem_cons_self)
    have hpos : 0 < r.walSize := lt_of_lt_of_le (by decide) (header_le_walSize r)
    have hrest := ih (fun x hx => h x (List.mem_cons_of_mem _ hx))
    rw [logBytes_cons, List.length_append, List.length_cons]
    omega

/-- A record that comes after everything in a MemTable is added. -/
theorem applyRecord_later {m : MemTable} {r : Record} (hv : r.Valid o)
    (hlt : ∀ x ∈ m.entries, x.sequence < r.sequence)
    (hroom : m.approximateDataSize + r.walSize ≤ maxUInt64) :
    m.applyRecord o r = .ok (m.insert r) := by
  have hpayload := payloadSize_le_walSize r
  rw [MemTable.applyRecord_of_valid hv]
  exact MemTable.add_eq_ok hv (fun x hx _ => hlt x hx) (by omega)

/-! ## Recovery -/

/-- The result of recovery once records have been replayed. -/
def WalRecoveryResult.pushAll (F : StorageFormat) (o : FormatOptions) (result : WalRecoveryResult)
    (rs : List Record) : WalRecoveryResult :=
  rs.foldl (fun result r => result.push r (walBytes F o r).length) result

theorem incomplete_nil : Incomplete F o [] := Or.inl (by simp [kWalHeaderSize])

/-- A piece of a record of the same format is an incomplete end. -/
theorem Torn.incomplete (hF : F.Lawful) {O : FormatOptions → Prop} (hO : ∀ o', O o' → o' = o)
    {t : Bytes} (h : Torn F O t) : Incomplete F o t := by
  rcases h with rfl | ⟨o', r, ho, hr, hp, hne⟩
  · exact incomplete_nil
  rw [hO o' ho] at hr hp hne
  by_cases hshort : t.length < kWalHeaderSize
  · exact Or.inl hshort
  have hlen : t.length < (walBytes F o r).length :=
    lt_of_le_of_ne hp.length_le (fun he => hne (hp.eq_of_length he))
  have htake : t.take kWalHeaderSize = (walBytes F o r).take kWalHeaderSize := by
    obtain ⟨s, hs⟩ := hp
    rw [← hs, List.take_append_of_le_length (not_lt.mp hshort)]
  exact Or.inr ⟨_, by rw [htake, hF.decodeWalRecordHeader_encode hr], hlen⟩

/-- An incomplete end stops the loop without an error. -/
theorem recoverLoop_incomplete {n : Nat} {t : Bytes} {m : MemTable} {result : WalRecoveryResult}
    (ht : Incomplete F o t) (hn : t.length ≤ n) :
    recoverLoop F o n t m result = .ok (m, result, !t.isEmpty) := by
  cases n with
  | zero => rfl
  | succ n =>
    rw [recoverLoop]
    by_cases hnil : t = []
    · rw [hnil]
      rfl
    have hemp : t.isEmpty = false := by simpa using hnil
    simp only [hemp, Bool.false_eq_true, if_false, Bool.not_false]
    rcases ht with hshort | ⟨size, hsize, hlt⟩
    · rw [if_pos hshort]
    · by_cases hshort : t.length < kWalHeaderSize
      · rw [if_pos hshort]
      · rw [if_neg hshort, hsize]
        dsimp only
        rw [if_pos hlt]

/-- The loop replays whole records one by one. -/
theorem recoverLoop_records (hF : F.Lawful) {n : Nat} {rs : List Record} {t : Bytes}
    {m : MemTable} {result : WalRecoveryResult} (hf : Follows F o result.maxSequence rs)
    (ht : Incomplete F o t) (hn : (logBytes F o rs ++ t).length ≤ n)
    (hm : ∀ x ∈ m.entries, x.sequence ≤ result.maxSequence)
    (hsize : m.approximateDataSize + (logBytes F o rs).length ≤ maxUInt64)
    (hcount : result.recordsRecovered + rs.length ≤ maxUInt64) :
    recoverLoop F o n (logBytes F o rs ++ t) m result =
      .ok (replayInto m rs, result.pushAll F o rs, !t.isEmpty) := by
  induction rs generalizing n m result with
  | nil => exact recoverLoop_incomplete ht hn
  | cons r rs ih =>
    obtain ⟨hr, hlt, hrest⟩ := hf
    have hvalid := hF.encodeWalRecord_valid hr
    have hlen := walBytes_length hF hr
    have hheader := header_le_walSize r
    have hpayload := payloadSize_le_walSize r
    rw [logBytes_cons, List.append_assoc] at hn ⊢
    rw [logBytes_cons, List.length_append] at hsize
    rw [List.length_cons] at hcount
    have hpos : 0 < kWalHeaderSize := by simp [kWalHeaderSize]
    cases n with
    | zero =>
      rw [List.length_append] at hn
      omega
    | succ n =>
      have hemp : (walBytes F o r ++ (logBytes F o rs ++ t)).isEmpty = false := by
        rw [List.isEmpty_eq_false_iff]
        intro hnil
        have := congrArg List.length hnil
        rw [List.length_append, List.length_nil] at this
        omega
      have htake : (walBytes F o r ++ (logBytes F o rs ++ t)).take kWalHeaderSize =
          (walBytes F o r).take kWalHeaderSize :=
        List.take_append_of_le_length (by omega)
      have hadd : m.applyRecord o r = .ok (m.insert r) :=
        applyRecord_later hvalid (fun x hx => lt_of_le_of_lt (hm x hx) hlt) (by omega)
      rw [recoverLoop]
      simp only [hemp, Bool.false_eq_true, if_false]
      rw [if_neg (by rw [List.length_append]; omega), htake, hF.decodeWalRecordHeader_encode hr]
      dsimp only
      rw [if_neg (by rw [List.length_append]; omega), List.take_left, hF.decodeWalRecord_encode hr]
      dsimp only
      rw [if_neg (not_le.mpr hlt), hadd]
      dsimp only
      rw [if_neg (by omega), List.drop_left]
      refine ih hrest ?_ ?_ ?_ ?_
      · rw [List.length_append] at hn
        omega
      · intro x hx
        show x.sequence ≤ r.sequence
        rcases MemTable.mem_insert hx with rfl | hx
        · exact le_refl _
        · have := hm x hx
          omega
      · have := m.size_insert_le r
        omega
      · show result.recordsRecovered + 1 + rs.length ≤ maxUInt64
        omega

/-- The records of a log are put into a MemTable one by one. -/
theorem foldlM_applyRecord (hF : F.Lawful) {n : Nat} {rs : List Record} {m : MemTable}
    (hf : Follows F o n rs) (hm : ∀ x ∈ m.entries, x.sequence ≤ n)
    (hsize : m.approximateDataSize + (logBytes F o rs).length ≤ maxUInt64) :
    rs.foldlM (MemTable.applyRecord o) m = .ok (replayInto m rs) := by
  induction rs generalizing n m with
  | nil => rfl
  | cons r rs ih =>
    obtain ⟨hr, hlt, hrest⟩ := hf
    have hlen := walBytes_length hF hr
    have hpayload := payloadSize_le_walSize r
    rw [logBytes_cons, List.length_append] at hsize
    rw [List.foldlM_cons, applyRecord_later (hF.encodeWalRecord_valid hr)
      (fun x hx => lt_of_le_of_lt (hm x hx) hlt) (by omega)]
    refine ih hrest (fun x hx => ?_) ?_
    · rcases MemTable.mem_insert hx with rfl | hx
      · exact le_refl _
      · exact (hm x hx).trans hlt.le
    · have := m.size_insert_le r
      omega

/-- Whatever the loop accepts are whole records before an incomplete end. -/
theorem recoverLoop_ok (hF : F.Lawful) {n : Nat} {b : Bytes} {m m' : MemTable}
    {result result' : WalRecoveryResult} {tail : Bool} (hn : b.length ≤ n)
    (h : recoverLoop F o n b m result = .ok (m', result', tail)) :
    ∃ rs t, b = logBytes F o rs ++ t ∧ Follows F o result.maxSequence rs ∧ Incomplete F o t := by
  induction n generalizing b m result with
  | zero =>
    obtain rfl := List.length_eq_zero_iff.mp (Nat.le_zero.mp hn)
    exact ⟨[], [], rfl, trivial, incomplete_nil⟩
  | succ n ih =>
    rw [recoverLoop] at h
    split at h
    · rename_i hemp
      exact ⟨[], b, rfl, trivial, by rw [List.isEmpty_iff.mp hemp]; exact incomplete_nil⟩
    split at h
    · rename_i hshort
      exact ⟨[], b, rfl, trivial, Or.inl hshort⟩
    rename_i hshort
    split at h
    · cases h
    rename_i size hsize
    split at h
    · rename_i hlt
      exact ⟨[], b, rfl, trivial, Or.inr ⟨size, hsize, hlt⟩⟩
    rename_i hlt
    split at h
    · cases h
    rename_i r hr
    obtain ⟨hseq, h⟩ := ite_error_eq_ok.mp h
    split at h
    · cases h
    split at h
    · cases h
    have hsize_le := hF.decodeWalRecordHeader_size hsize
    have htake : (b.take size).length = size := by
      rw [List.length_take]
      omega
    have hheader : (b.take size).take kWalHeaderSize = b.take kWalHeaderSize := by
      rw [List.take_take, Nat.min_eq_left hsize_le]
    rw [← hheader] at hsize
    obtain ⟨henc, hbytes⟩ := encodable_of_ok (hF.encodeWalRecord_decode hsize htake hr)
    have hpos : 0 < kWalHeaderSize := by simp [kWalHeaderSize]
    have hrest : (b.drop size).length ≤ n := by
      rw [List.length_drop]
      omega
    obtain ⟨rs, t, hb, hf, ht⟩ := ih hrest h
    refine ⟨r :: rs, t, ?_, ⟨henc, not_le.mp hseq, hf⟩, ht⟩
    rw [logBytes_cons, List.append_assoc, ← hb, hbytes, List.take_append_drop]

/-- The loop fails on corruption only. -/
theorem recoverLoop_error {n : Nat} {b : Bytes} {m : MemTable} {result : WalRecoveryResult}
    {e : Status} (h : recoverLoop F o n b m result = .error e) : e.code = .corruption := by
  induction n generalizing b m result with
  | zero => cases h
  | succ n ih =>
    rw [recoverLoop] at h
    split at h
    · cases h
    split at h
    · cases h
    split at h
    · rw [← Except.error.inj h]
      rfl
    split at h
    · cases h
    split at h
    · rw [← Except.error.inj h]
      rfl
    refine of_ite_error h rfl (fun _ h => ?_)
    split at h
    · rw [← Except.error.inj h]
      rfl
    refine of_ite_error h rfl (fun _ h => ?_)
    · exact ih h

theorem pushAll_eq (result : WalRecoveryResult) (rs : List Record) :
    (result.pushAll F o rs).validBytes = result.validBytes + (logBytes F o rs).length ∧
    (result.pushAll F o rs).recordsRecovered = result.recordsRecovered + rs.length ∧
    (result.pushAll F o rs).maxSequence = lastOf result.maxSequence rs := by
  induction rs generalizing result with
  | nil => exact ⟨rfl, rfl, rfl⟩
  | cons r rs ih =>
    obtain ⟨h1, h2, h3⟩ := ih (result.push r (walBytes F o r).length)
    rw [logBytes_cons, List.length_append, List.length_cons]
    simp only [WalRecoveryResult.pushAll, List.foldl_cons] at h1 h2 h3 ⊢
    refine ⟨?_, ?_, h3⟩
    · rw [h1]
      simp only [WalRecoveryResult.push]
      omega
    · rw [h2]
      simp only [WalRecoveryResult.push]
      omega

/-- Records say nothing about the tail. -/
theorem pushAll_tail (result : WalRecoveryResult) (rs : List Record) :
    (result.pushAll F o rs).discardedTailBytes = result.discardedTailBytes ∧
    (result.pushAll F o rs).tailTruncated = result.tailTruncated := by
  induction rs generalizing result with
  | nil => exact ⟨rfl, rfl⟩
  | cons r rs ih => exact ih (result.push r (walBytes F o r).length)

theorem pushAll_minSequence {r : Record} {rs : List Record} :
    (WalRecoveryResult.pushAll F o {} (r :: rs)).minSequence = r.sequence := by
  have hkeep : ∀ (rs : List Record) (result : WalRecoveryResult), result.recordsRecovered ≠ 0 →
      (result.pushAll F o rs).minSequence = result.minSequence := by
    intro rs
    induction rs with
    | nil => intro result _; rfl
    | cons x xs ih =>
      intro result hne
      have h := ih (result.push x (walBytes F o x).length) (Nat.succ_ne_zero _)
      simp only [WalRecoveryResult.pushAll, List.foldl_cons] at h ⊢
      rw [h]
      simp [WalRecoveryResult.push, hne]
  have h := hkeep rs (WalRecoveryResult.push {} r (walBytes F o r).length) (Nat.succ_ne_zero _)
  simp only [WalRecoveryResult.pushAll, List.foldl_cons] at h ⊢
  rw [h]
  rfl

/-! ## The states of a log file -/

/-- A file whose contents are the entries, up to a torn piece; a crash may cost entries
that are not durable, from the end on. -/
structure LogFile (F : StorageFormat) (O : FormatOptions → Prop) (o : FormatOptions)
    (L : List Entry) (v : Volatile Bytes) : Prop where
  current : ∃ t, Torn F O t ∧ v.current = logBytes F o (recordsOf L) ++ t
  states : ∀ c ∈ v.states, ∃ L' S t, L = L' ++ S ∧ (∀ e ∈ S, e.durable = false) ∧
    Torn F O t ∧ c = logBytes F o (recordsOf L') ++ t

variable {O : FormatOptions → Prop}

theorem torn_nil : Torn F O [] := Or.inl rfl

theorem LogFile.of_stable {L : List Entry} {t : Bytes} (ht : Torn F O t) :
    LogFile F O o L (.stable (logBytes F o (recordsOf L) ++ t)) := by
  refine ⟨⟨t, ht, rfl⟩, fun c hc => ⟨L, [], t, (List.append_nil L).symm, ?_, ht, ?_⟩⟩
  · intro e he
    cases he
  · exact List.mem_singleton.mp hc

theorem LogFile.stable_clean (L : List Entry) :
    LogFile F O o L (.stable (logBytes F o (recordsOf L))) := by
  have h := LogFile.of_stable (F := F) (O := O) (o := o) (L := L) torn_nil
  rwa [List.append_nil] at h

theorem torn_or_whole (ho : O o) (hr : Encodable F o r) {p : Bytes} (hp : p <+: walBytes F o r) :
    p = walBytes F o r ∨ Torn F O p := by
  by_cases he : p = walBytes F o r
  · exact Or.inl he
  · exact Or.inr (Or.inr ⟨o, r, ho, hr, hp, he⟩)

/-- Appending a piece of a record to a clean log. -/
theorem LogFile.append_piece {L : List Entry} {v : Volatile Bytes} (h : LogFile F O o L v)
    (hclean : v.current = logBytes F o (recordsOf L)) {p : Bytes} (hp : Torn F O p)
    (hall : ∀ x, x <+: p → Torn F O x) : LogFile F O o L (v.append p) := by
  refine ⟨⟨p, hp, by rw [Volatile.append_current, hclean]⟩, fun c hc => ?_⟩
  rcases Volatile.mem_states_append.mp hc with hc | ⟨x, -, hx, rfl⟩
  · exact h.states c hc
  · refine ⟨L, [], x, (List.append_nil L).symm, by simp, hall x hx, ?_⟩
    rw [hclean]

/-- Appending a whole record to a clean log. -/
theorem LogFile.append_record {L : List Entry} {v : Volatile Bytes} (h : LogFile F O o L v)
    (ho : O o)
    (hclean : v.current = logBytes F o (recordsOf L)) {r : Record} (hr : Encodable F o r) :
    LogFile F O o (L ++ [⟨r, false⟩]) (v.append (walBytes F o r)) := by
  have hbytes : logBytes F o (recordsOf (L ++ [⟨r, false⟩])) =
      logBytes F o (recordsOf L) ++ walBytes F o r := by
    rw [recordsOf_append, logBytes_append]
    simp [recordsOf]
  refine ⟨⟨[], torn_nil, ?_⟩, fun c hc => ?_⟩
  · rw [Volatile.append_current, hclean, hbytes, List.append_nil]
  · have hlast : ∀ e ∈ [Entry.mk r false], e.durable = false := by
      intro e he
      rw [List.mem_singleton.mp he]
    rcases Volatile.mem_states_append.mp hc with hc | ⟨x, -, hx, rfl⟩
    · obtain ⟨L', S, t, hL, hS, ht, hc'⟩ := h.states c hc
      refine ⟨L', S ++ [⟨r, false⟩], t, by rw [hL, List.append_assoc], fun e he => ?_, ht, hc'⟩
      rcases List.mem_append.mp he with he | he
      · exact hS e he
      · exact hlast e he
    · rcases torn_or_whole ho hr hx with rfl | ht
      · exact ⟨L ++ [⟨r, false⟩], [], [], (List.append_nil _).symm, by simp,
          torn_nil, by rw [hclean, hbytes, List.append_nil]⟩
      · exact ⟨L, [⟨r, false⟩], x, rfl, hlast, ht, by rw [hclean]⟩

/-- Syncing a clean log makes its entries durable. -/
theorem LogFile.flush {L L' : List Entry} {v : Volatile Bytes} (h : LogFile F O o L v)
    (hL : recordsOf L' = recordsOf L) : LogFile F O o L' v.flush := by
  obtain ⟨t, ht, hc⟩ := h.current
  rw [Volatile.flush, hc, ← hL]
  exact LogFile.of_stable ht

/-- A log keeps its entries when it is cut where recovery found the last record to end. -/
theorem LogFile.truncate {L : List Entry} {v : Volatile Bytes} (h : LogFile F O o L v) :
    LogFile F O o L (v.set (v.current.take (logBytes F o (recordsOf L)).length)) := by
  obtain ⟨t, -, hc⟩ := h.current
  have htake : v.current.take (logBytes F o (recordsOf L)).length =
      logBytes F o (recordsOf L) := by rw [hc, List.take_left]
  rw [htake]
  refine ⟨⟨[], torn_nil, by simp⟩, fun c hc' => ?_⟩
  rw [Volatile.states_set, List.mem_cons] at hc'
  rcases hc' with rfl | hc'
  · exact ⟨L, [], [], (List.append_nil L).symm, by simp, torn_nil,
      (List.append_nil _).symm⟩
  · exact h.states c hc'

/-- Entries that survived a crash are on stable storage. -/
def settled (L : List Entry) : List Entry := L.map (fun e => { e with durable := true })

@[simp] theorem recordsOf_settled (L : List Entry) : recordsOf (settled L) = recordsOf L := by
  simp [recordsOf, settled]

@[simp] theorem settled_append (L L' : List Entry) :
    settled (L ++ L') = settled L ++ settled L' := List.map_append

/-- No crash takes anything from the end of the log. -/
def Sealed (L : List Entry) : Prop := ∀ e ∈ L.getLast?, e.durable = true

theorem sealed_nil : Sealed [] := by
  intro e he
  cases he

theorem sealed_snoc (L : List Entry) {e : Entry} (h : e.durable = true) : Sealed (L ++ [e]) := by
  intro e' he'
  rw [List.getLast?_append_cons, List.getLast?_singleton] at he'
  rw [← Option.some.inj he']
  exact h

theorem sealed_settled (L : List Entry) : Sealed (settled L) := by
  intro e he
  obtain ⟨x, -, rfl⟩ := List.mem_map.mp (List.mem_of_getLast? he)
  rfl

theorem Sealed.eq_nil {L S : List Entry} (h : Sealed (L ++ S))
    (hS : ∀ e ∈ S, e.durable = false) : S = [] := by
  rcases List.eq_nil_or_concat S with rfl | ⟨S', e, rfl⟩
  · rfl
  · rw [List.concat_eq_append] at h hS
    have h1 : e.durable = true := by
      refine h e ?_
      rw [← List.append_assoc, List.getLast?_append_cons, List.getLast?_singleton]
      rfl
    have h2 := hS e (List.mem_append_right _ (List.mem_singleton.mpr rfl))
    rw [h1] at h2
    cases h2

/-- What a crash leaves of a log. -/
theorem LogFile.crash {L : List Entry} {v : Volatile Bytes} (h : LogFile F O o L v) {c : Bytes}
    (hc : c ∈ v.states) : ∃ L' S, L = L' ++ S ∧ (∀ e ∈ S, e.durable = false) ∧
      LogFile F O o (settled L') (.stable c) := by
  obtain ⟨L', S, t, hL, hS, ht, rfl⟩ := h.states c hc
  refine ⟨L', S, hL, hS, ?_⟩
  have := LogFile.of_stable (F := F) (O := O) (o := o) (L := settled L') ht
  rwa [recordsOf_settled] at this

/-! ## Replaying -/

/-- The map after writes in order. -/
def applyLog (base : Bytes → Option Bytes) (rs : List Record) : Bytes → Option Bytes :=
  rs.foldl (fun m r => Function.update m r.key r.visible) base

@[simp] theorem applyLog_nil (base : Bytes → Option Bytes) : applyLog base [] = base := rfl

theorem applyLog_append (base : Bytes → Option Bytes) (rs ss : List Record) :
    applyLog base (rs ++ ss) = applyLog (applyLog base rs) ss := List.foldl_append

/-- What a MemTable shows over a map. -/
def overlay (rs : List Record) (base : Bytes → Option Bytes) (k : Bytes) : Option Bytes :=
  match findKey rs k with
  | some r => r.visible
  | none => base k

theorem overlay_insert (m : MemTable) (r : Record) (base : Bytes → Option Bytes) :
    overlay (m.insert r).entries base = Function.update (overlay m.entries base) r.key r.visible := by
  funext k
  unfold overlay
  rw [MemTable.findKey_insert]
  by_cases hk : r.key = k
  · subst hk
    simp
  · rw [if_neg hk, Function.update_of_ne (Ne.symm hk)]

theorem overlay_replayInto (m : MemTable) (rs : List Record) (base : Bytes → Option Bytes) :
    overlay (replayInto m rs).entries base = applyLog (overlay m.entries base) rs := by
  induction rs generalizing m with
  | nil => rfl
  | cons r rs ih =>
    have h := ih (m.insert r)
    rw [overlay_insert] at h
    exact h

theorem mem_replayInto {m : MemTable} {rs : List Record} {x : Record}
    (h : x ∈ (replayInto m rs).entries) : x ∈ rs ∨ x ∈ m.entries := by
  induction rs generalizing m with
  | nil => exact Or.inr h
  | cons r rs ih =>
    rcases ih (m := m.insert r) h with h | h
    · exact Or.inl (List.mem_cons_of_mem _ h)
    · rcases MemTable.mem_insert h with rfl | h
      · exact Or.inl List.mem_cons_self
      · exact Or.inr h

theorem replayInto_append (m : MemTable) (rs ss : List Record) :
    replayInto m (rs ++ ss) = replayInto (replayInto m rs) ss := List.foldl_append

theorem replayInto_ne_nil {m : MemTable} {rs : List Record} (h : rs ≠ []) :
    (replayInto m rs).entries ≠ [] := by
  obtain ⟨ss, r, rfl⟩ := List.eq_nil_or_concat rs |>.resolve_left h
  rw [List.concat_eq_append, replayInto_append]
  exact MemTable.insert_ne_nil _ r

end

end MiniKV
