import MiniKV.State.Maintained

/-!
# The disk follows the writes of a database

An append goes through three stages. The write is in doubt; some of its bytes
are in the log, perhaps all of them; it is in the log for good and the Mutable
has it. In the middle stage the log is not used any more, unless the append is
seen to have succeeded.
-/

namespace MiniKV

open Lib

variable {F : StorageFormat} {ρ : Regime} {x : Contents} {w : Option WalWriter} {H : List Label}
  {m : Image} {T I D M X : List Entry}

theorem lastOf_lt {n : Nat} {rs : List Record} {k : Nat} (hn : n < k)
    (h : ∀ s ∈ rs, s.sequence < k) : lastOf n rs < k := by
  induction rs generalizing n with
  | nil => exact hn
  | cons s ss ih =>
    exact ih (h s List.mem_cons_self) (fun u hu => h u (List.mem_cons_of_mem _ hu))

/-- A record with a larger sequence number than all before may follow them. -/
theorem Follows.snoc {o : FormatOptions} {n : Nat} {rs : List Record} {r : Record}
    (h : Follows F o n rs) (hr : Encodable F o r) (hn : n < r.sequence)
    (hlt : ∀ s ∈ rs, s.sequence < r.sequence) : Follows F o n (rs ++ [r]) :=
  Follows.append.mpr ⟨h, hr, lastOf_lt hn hlt, trivial⟩

/-- The record is newer than all that is in the logs. -/
def NewestOf (r : Record) (I D M X : List Entry) : Prop :=
  ∀ s ∈ recordsOf (I ++ D ++ M ++ X), s.sequence < r.sequence

/-- A write is in doubt from before its first byte. -/
theorem Stored.doubted (h : Stored F ρ x w H m T I D M X) {r : Record} {mode : SyncMode}
    (hr : ρ.writes H r mode) :
    Stored F ρ x w (.inDoubt r :: H) m T I D M X :=
  { h with admits := h.admits.doubted hr, admitsAll := h.admitsAll.doubted hr }

/-- The sequence number of a write is used up, whatever becomes of it. -/
theorem Stored.raise (h : Stored F ρ x w H m T I D M X) {n : Nat} (hn : x.lastSequence ≤ n) :
    Stored F ρ { x with lastSequence := n } w H m T I D M X := by
  refine { h with manifest := ?_, frozen := ?_,
                  last := fun r hr => (h.last r hr).trans hn }
  · rcases h.manifest with hm | ⟨u, ts, hcand, hm⟩
    · exact Or.inl hm
    · refine Or.inr ⟨u, ts, ?_, hm⟩
      cases hcand with
      | flush himm hun hp happly => exact .flush himm hun hp happly
      | compaction hc hun hready => exact .compaction hc hun hready
  · intro imm himm hun
    have hfr := h.frozen imm himm hun
    exact ⟨hfr.memtable, hfr.ne_nil, hfr.generation, hfr.active, hfr.room, hfr.log⟩

section

variable {w' : WalWriter} {r : Record} {v : Volatile Bytes}

/-- The log of a writer that has failed, with other contents. -/
theorem Stored.setLog {v' : Volatile Bytes} {X' : List Entry}
    (h : Stored F ρ x (some w') H m T I D M X) (hbad : w'.status.isOk = false)
    (hv' : LogFile F ρ.formats x.format (M ++ X') v')
    (hfollows : Follows F x.format x.version.lastSequence (recordsOf (I ++ D ++ M ++ X')))
    (hlast : ∀ s ∈ recordsOf (I ++ D ++ M ++ X'), s.sequence ≤ x.lastSequence)
    (hadmits : Admits ρ.toUsage H (T ++ I ++ D ++ M ++ X')) :
    Stored F ρ x (some w') H (Function.update m (.wal x.mutableGeneration) (some v'))
      T I D M X' := by
  have ht := h.tablesStored.update_wal x.mutableGeneration (some v')
  have hm : m (.wal x.mutableGeneration) ≠ none := h.attached (by simp)
  have hself : Function.update m (.wal x.mutableGeneration) (some v')
      (.wal x.mutableGeneration) = some v' := Function.update_self _ _ _
  have hother : ∀ n, n ≠ x.mutableGeneration →
      Function.update m (.wal x.mutableGeneration) (some v') (.wal n) = m (.wal n) := by
    intro n hn
    exact Function.update_of_ne (fun he => hn (FileName.wal.inj he)) _ _
  refine { h with manifest := ht.manifest, files := ht.files, pendingFile := ht.pendingFile,
                  outputFiles := ht.outputFiles, frozen := ?_, sealed := fun _ => h.sealed hm,
                  log := ?_, numbers := ?_, detached := fun hn => (by cases hn),
                  attached := fun _ => (by rw [hself]; simp), clean := ?_,
                  follows := hfollows, last := hlast, admitsAll := hadmits }
  · intro imm himm hun
    have hfr := h.frozen imm himm hun
    have hne : imm.generation ≠ x.mutableGeneration := by
      have := hfr.active
      omega
    exact { hfr with log := by rw [hother _ hne]; exact hfr.log }
  · intro u hu
    rw [hself] at hu
    exact Option.some.inj hu ▸ hv'
  · intro n hn
    rw [hother n hn.ne']
    exact h.numbers n hn
  · intro w'' hw'' hok
    obtain rfl := Option.some.inj hw''
    rw [hbad] at hok
    cases hok

/-- Some bytes of a record in doubt are written to a clean log. -/
theorem Stored.written_piece {p : Bytes} {e : Status} {mode : SyncMode}
    (h : Stored F ρ x (some w') (.inDoubt r :: H) m T I D M [])
    (hH : Admits ρ.toUsage H (T ++ I ++ D ++ M)) (hwrite : ρ.writes H r mode)
    (he : e.isOk = false) (hv : m (.wal x.mutableGeneration) = some v)
    (hclean : v.current = logBytes F x.format (recordsOf M)) (hr : Encodable F x.format r)
    (hnew : NewestOf r I D M []) (hfrontier : x.version.lastSequence < r.sequence)
    (hseq : r.sequence ≤ x.lastSequence) (hp : p <+: walBytes F x.format r) :
    ∃ X', (X' = [] ∨ X' = [⟨r, false⟩]) ∧ (p = walBytes F x.format r → X' = [⟨r, false⟩]) ∧
      Stored F ρ x (some { w' with status := e }) (.inDoubt r :: H)
        (Function.update m (.wal x.mutableGeneration) (some (v.append p))) T I D M X' := by
  have hlog := h.log v hv
  rw [List.append_nil] at hlog
  have hbase := h.spoil he
  by_cases hwhole : p = walBytes F x.format r
  · refine ⟨[⟨r, false⟩], Or.inr rfl, fun _ => rfl, hbase.setLog he ?_ ?_ ?_ ?_⟩
    · rw [hwhole]
      exact hlog.append_record h.known hclean hr
    · have hf := h.follows
      rw [List.append_nil] at hf
      rw [recordsOf_append]
      refine hf.snoc hr hfrontier (fun s hs => hnew s ?_)
      rw [List.append_nil]
      exact hs
    · intro s hs
      rw [recordsOf_append] at hs
      rcases List.mem_append.mp hs with hs | hs
      · have := hnew s (by rw [List.append_nil]; exact hs)
        omega
      · rw [List.mem_singleton.mp hs]
        exact hseq
    · exact hH.kept hwrite
  · -- every shorter piece is torn as well
    have hall : ∀ y, y <+: p → Torn F ρ.formats y := by
      intro y hy
      refine (torn_or_whole h.known hr (hy.trans hp)).resolve_left (fun heq => hwhole ?_)
      have hlen := hy.length_le
      rw [heq] at hlen
      exact hp.eq_of_length (le_antisymm hp.length_le hlen)
    refine ⟨[], Or.inl rfl, fun hc => absurd hc hwhole, hbase.setLog he ?_ h.follows h.last
      h.admitsAll⟩
    rw [List.append_nil]
    exact hlog.append_piece hclean (hall p (List.prefix_refl p)) hall

/-- The log is synced. -/
theorem Stored.synced (h : Stored F ρ x (some w') H m T I D M X) (hbad : w'.status.isOk = false)
    (hv : m (.wal x.mutableGeneration) = some v) :
    Stored F ρ x (some w') H (Function.update m (.wal x.mutableGeneration) (some v.flush))
      T I D M X :=
  h.setLog hbad ((h.log v hv).flush rfl) h.follows h.last h.admitsAll

/-- The append has succeeded and the Mutable takes the record. -/
theorem Stored.commit {mode : SyncMode} {e : Status}
    (h : Stored F ρ x (some { w' with status := e }) (.inDoubt r :: H) m T I D M [⟨r, false⟩])
    (hH : Admits ρ.toUsage H (T ++ I ++ M)) (hwrite : ρ.writes H r mode)
    (hlog : ∀ v, m (.wal x.mutableGeneration) = some v →
      LogFile F ρ.formats x.format (M ++ [⟨r, mode = .sync⟩]) v ∧
        v.current = logBytes F x.format (recordsOf (M ++ [⟨r, mode = .sync⟩]))) :
    Stored F ρ { x with mutableTable := x.mutableTable.insert r } (some w')
      (.appended r mode :: H) m T I D (M ++ [⟨r, mode = .sync⟩]) [] := by
  have hrec : recordsOf (M ++ [⟨r, mode = .sync⟩]) = recordsOf M ++ [r] := by
    rw [recordsOf_append]
    rfl
  have hrecords : recordsOf (I ++ D ++ (M ++ [⟨r, mode = .sync⟩]) ++ []) =
      recordsOf (I ++ D ++ M ++ [⟨r, false⟩]) := by
    rw [List.append_nil, recordsOf_append, hrec, recordsOf_append, recordsOf_append,
      List.append_assoc, recordsOf_append]
    simp [recordsOf]
  have hD : D = [] := (h.sealed (h.attached (by simp))).1
  have hadmit : Admits ρ.toUsage (.appended r mode :: H) (T ++ I ++ (M ++ [⟨r, mode = .sync⟩])) := by
    rw [← List.append_assoc]
    exact hH.appended hwrite
  refine { h with manifest := ?_, mutable := ?_, frozen := ?_,
                  log := fun v hv => by rw [List.append_nil]; exact (hlog v hv).1,
                  detached := fun hn => (by cases hn), attached := fun _ => h.attached (by simp),
                  clean := fun _ _ _ => ⟨rfl, fun v hv => (hlog v hv).2⟩,
                  follows := by rw [hrecords]; exact h.follows,
                  last := by rw [hrecords]; exact h.last, admits := hadmit, admitsAll := ?_ }
  · rcases h.manifest with hm | ⟨u, ts, hcand, hm⟩
    · exact Or.inl hm
    · refine Or.inr ⟨u, ts, ?_, hm⟩
      cases hcand with
      | flush himm hun hp happly => exact .flush himm hun hp happly
      | compaction hc hun hready => exact .compaction hc hun hready
  · show x.mutableTable.insert r = replayInto .empty _
    rw [hrec, replayInto_append, ← h.mutable]
    rfl
  · intro imm himm hun
    have hfr := h.frozen imm himm hun
    exact ⟨hfr.memtable, hfr.ne_nil, hfr.generation, hfr.active, hfr.room, hfr.log⟩
  · rw [List.append_nil, hD, List.append_nil]
    exact hadmit

end

end MiniKV
