import MiniKV.Sections.Steady

/-!
# Where the account of the writes begins

The invariants speak of the writes from an origin on. At a moment at which it is
known what a directory holds the account may begin anew: with the writes of that
moment as one sequence, or, once they are on stable storage, with all that is
visible and cannot be lost any more.
-/

namespace MiniKV

open Lib

/-! ## Histories -/

/-- Appends that all succeeded, one after the other. -/
inductive Grown (H₁ : List Label) (A₁ : List Entry) : List Label → List Entry → Prop
  | start : Grown H₁ A₁ H₁ A₁
  | appended {H : List Label} {A : List Entry} (h : Grown H₁ A₁ H A) (r : Record)
      (mode : SyncMode) : Grown H₁ A₁ (.appended r mode :: H) (A ++ [⟨r, mode = .sync⟩])

/-- Writes that cannot be lost: what they show, and a sequence number among them. -/
structure Snapshot (f : Bytes → Option Bytes) (n : Nat) (A : List Entry) : Prop where
  shows : applyLog noValues (recordsOf A) = f
  durable : ∀ e ∈ A, e.durable = true
  reaches : ∃ r ∈ recordsOf A, r.sequence = n

section

variable {κ : Usage} {H H₁ : List Label} {A A' A₁ : List Entry}

theorem Grown.length_le (h : Grown H₁ A₁ H A) : H₁.length ≤ H.length := by
  induction h with
  | start => exact le_refl _
  | appended _ _ _ ih => exact ih.trans (Nat.le_succ _)

/-- An account from one history on says nothing about shorter ones. -/
theorem Admits.length_le (hκ : ∀ H A, κ.origin H A → H = H₁) (h : Admits κ H A) :
    H₁.length ≤ H.length := by
  induction h with
  | origin h => rw [hκ _ _ h]
  | appended _ _ ih => exact ih.trans (Nat.le_succ _)
  | doubted _ _ ih => exact ih.trans (Nat.le_succ _)
  | kept _ _ ih => exact ih.trans (Nat.le_succ _)
  | crashed _ _ ih => exact ih.trans (Nat.le_succ _)

/-- After appends that all succeeded there is one sequence of writes. -/
theorem Grown.unique (hκ : ∀ H A, κ.origin H A → H = H₁ ∧ A = A₁) (h : Grown H₁ A₁ H A)
    (h' : Admits κ H A') : A' = A := by
  have hlen : ∀ {H A}, Admits κ H A → H₁.length ≤ H.length :=
    fun h => h.length_le (fun H A ho => (hκ H A ho).1)
  induction h generalizing A' with
  | start =>
    -- a longer derivation would start from a shorter history
    cases h' with
    | origin ho => exact (hκ _ _ ho).2
    | appended h _ => exact absurd (hlen h) (by simp)
    | doubted h _ => exact absurd (hlen h) (by simp)
    | kept h _ => exact absurd (hlen h) (by simp)
    | crashed h _ => exact absurd (hlen h) (by simp)
  | @appended H A h r mode ih =>
    cases h' with
    | origin ho =>
      have hle := h.length_le
      rw [← (hκ _ _ ho).1] at hle
      simp at hle
    | appended h'' _ => rw [ih h'']

theorem settled_of_durable (h : ∀ e ∈ A, e.durable = true) : settled A = A := by
  induction A with
  | nil => rfl
  | cons e A ih =>
    obtain ⟨r, b⟩ := e
    have hb : b = true := h _ List.mem_cons_self
    rw [hb]
    show _ :: settled A = _
    rw [ih (fun x hx => h x (List.mem_cons_of_mem _ hx))]

/-- Nothing of a snapshot is lost, and what is written later comes after it. -/
theorem Admits.since {f : Bytes → Option Bytes} {n : Nat}
    (hκ : ∀ H A, κ.origin H A → Snapshot f n A) (h : Admits κ H A) :
    ∃ A₀ C, A = A₀ ++ C ∧ Snapshot f n A₀ ∧ ∀ e ∈ C, ∃ H mode, κ.writes H e.record mode := by
  induction h with
  | origin ho => exact ⟨_, [], (List.append_nil _).symm, hκ _ _ ho, nofun⟩
  | @appended H A r mode _ hr ih =>
    obtain ⟨A₀, C, rfl, hs, hC⟩ := ih
    refine ⟨A₀, C ++ [⟨r, mode = .sync⟩], List.append_assoc _ _ _, hs, fun e he => ?_⟩
    rcases List.mem_append.mp he with he | he
    · exact hC e he
    · rw [List.mem_singleton.mp he]
      exact ⟨H, mode, hr⟩
  | doubted _ _ ih => exact ih
  | @kept H A r mode _ hr ih =>
    obtain ⟨A₀, C, rfl, hs, hC⟩ := ih
    refine ⟨A₀, C ++ [⟨r, false⟩], List.append_assoc _ _ _, hs, fun e he => ?_⟩
    rcases List.mem_append.mp he with he | he
    · exact hC e he
    · rw [List.mem_singleton.mp he]
      exact ⟨H, mode, hr⟩
  | @crashed H L S _ hS ih =>
    obtain ⟨A₀, C, heq, hs, hC⟩ := ih
    -- the part that is lost lies behind the snapshot
    have hsplit : ∃ C', L = A₀ ++ C' ∧ ∀ e ∈ C', e ∈ C := by
      rcases List.append_eq_append_iff.mp heq with ⟨B, hA, hS'⟩ | ⟨C', hL, hC'⟩
      · have hnil : B = [] := by
          by_contra hne
          obtain ⟨e, he⟩ := List.exists_mem_of_ne_nil B hne
          have h1 := hs.durable e (by rw [hA]; exact List.mem_append_right _ he)
          have h2 := hS e (by rw [hS']; exact List.mem_append_left _ he)
          rw [h1] at h2
          cases h2
        rw [hnil, List.append_nil] at hA
        exact ⟨[], by rw [hA, List.append_nil], nofun⟩
      · exact ⟨C', hL, fun e he => by rw [hC']; exact List.mem_append_left _ he⟩
    obtain ⟨C', rfl, hsub⟩ := hsplit
    refine ⟨A₀, settled C', ?_, hs, fun e he => ?_⟩
    · rw [settled_append, settled_of_durable hs.durable]
    · obtain ⟨x, hx, rfl⟩ := List.mem_map.mp he
      exact hC x (hsub x hx)

end

/-! ## Regimes that differ in the account only -/

structure Regime.Alike (ρ ρ' : Regime) : Prop where
  crashes : ρ'.crashes → ρ.crashes
  single : ρ'.single → ρ.single
  formats : ρ'.formats = ρ.formats
  ordered : ρ'.ordered → ρ.ordered
  planned : ρ'.planned → ρ.planned
  durable : ρ'.durable → ρ.durable
  traced : ρ'.traced → ρ.traced

section

variable {F : StorageFormat} {ρ ρ' : Regime} {σ : Scene} {x : Contents} {db : Database}
  {w : Option WalWriter} {H : List Label} {m : Image} {T I D M X : List Entry} {st : Store}

theorem CandidateInv.alike (ha : ρ.Alike ρ') {c : CompactionState} (h : CandidateInv ρ x c) :
    CandidateInv ρ' x c :=
  { h with
    planned := fun hp => h.planned (ha.planned hp)
    word := fun ho => h.word (ha.ordered ho)
    separate := fun ho => h.separate (ha.ordered ho)
    last_le := fun ho => h.last_le (ha.ordered ho)
    next_le := fun ho => h.next_le (ha.ordered ho) }

theorem PendingInv.alike (ha : ρ.Alike ρ') {c : CompactionState} (h : PendingInv ρ x c) :
    PendingInv ρ' x c :=
  { h with
    ready := fun hr => (h.ready hr).alike ha
    planned := fun hp => h.planned (ha.planned hp)
    numbers := fun ho => h.numbers (ha.ordered ho)
    beside := fun ho => h.beside (ha.ordered ho)
    paths := fun hd => h.paths (ha.durable hd) }

theorem ContentsInv.alike (ha : ρ.Alike ρ') (h : ContentsInv ρ x) : ContentsInv ρ' x :=
  { h with
    pending := fun c hc hun => (h.pending c hc hun).alike ha
    cleanup := fun hd => h.cleanup (ha.durable hd)
    order := fun ho => h.order (ha.ordered ho)
    planned := fun hp => h.planned (ha.planned hp) }

theorem Database.Tidy.alike (ha : ρ.Alike ρ') (h : db.Tidy ρ) : db.Tidy ρ' :=
  { h with
    advanced := fun hp => h.advanced (ha.planned hp)
    solo := fun hs => h.solo (ha.single hs) }

theorem Regime.Alike.seals (ha : ρ.Alike ρ') (h : ρ.Seals I) : ρ'.Seals I :=
  ⟨fun hc => h.1 (ha.crashes hc), fun hs => h.2 (ha.single hs)⟩

theorem Logs.alike (ha : ρ.Alike ρ') {o : FormatOptions} {next : Nat}
    (h : Logs F o m ρ.toUsage next I M) : Logs F o m ρ'.toUsage next I M := by
  cases h with
  | none rest => exact .none rest
  | one active log rest => exact .one active (ha.formats ▸ log) rest
  | two frozen frozenLog active log rest room ne sealed =>
    exact .two frozen (ha.formats ▸ frozenLog) active (ha.formats ▸ log) rest room ne
      (ha.seals sealed)

/-- The invariant with another account of what the images hold. -/
theorem Inv.alike (ha : ρ.Alike ρ') (h : Inv F ρ σ db st)
    (hs : ρ'.durable → Everywhere (StoredIn F ρ' db.contents db.wal st.history) st) :
    Inv F ρ' σ db st :=
  { h with
    contents := h.contents.alike ha
    manifests := fun ho => h.manifests (ha.ordered ho)
    size := fun ho => h.size (ha.ordered ho)
    linked := fun hd => h.linked (ha.durable hd)
    stored := hs
    traced := fun ht => h.traced (ha.traced ht) }

/-! ## What is visible is what was written -/

theorem Stored.view_eq (hinv : ContentsInv ρ x) (hord : ρ.ordered)
    (h : Stored F ρ x w H m T I D M X) :
    x.view = applyLog noValues (recordsOf (T ++ I ++ M)) := by
  have hmutable : ∀ base, overlay x.mutableTable.entries base = applyLog base (recordsOf M) := by
    intro base
    rw [h.mutable, overlay_replayInto]
    rfl
  rw [recordsOf_append, recordsOf_append, applyLog_append, applyLog_append, ← h.flushed.shown_eq]
  by_cases hth : ∀ imm, x.immutable = some imm → imm.versionPublished = true
  · obtain ⟨rfl, -, -⟩ := h.thawed hth
    rw [← Contents.view_dropImmutable hinv hord hth]
    exact hmutable _
  · obtain ⟨imm, himm, hun⟩ : ∃ imm, x.immutable = some imm ∧ imm.versionPublished = false := by
      by_contra hno
      refine hth (fun imm himm => ?_)
      by_contra hne
      exact hno ⟨imm, himm, by simpa using hne⟩
    have hfr := h.frozen imm himm hun
    have hbelow : x.below = applyLog (shown (tableRecords x.tables)) (recordsOf I) := by
      have hrecords : x.immutableRecords = imm.memtable.entries := by
        simp [Contents.immutableRecords, himm]
      rw [Contents.below, hrecords, hfr.memtable, overlay_replayInto]
      rfl
    rw [Contents.view, hmutable, hbelow]

/-! ## Logs on stable storage -/

/-- Every log that is there, or that a crash may bring back, is on stable storage. -/
def LogsSynced (st : Store) : Prop :=
  ∀ δ ∈ st.disk.dir.states, ∀ n i, Dir.lookup δ (.wal n) = some i →
    ∃ b, st.disk.files i = .stable b

theorem LogFile.settle {O : FormatOptions → Prop} {o : FormatOptions} {L : List Entry}
    {v : Volatile Bytes} (h : LogFile F O o L v) (hv : ∃ b, v = .stable b) :
    LogFile F O o (settled L) v := by
  obtain ⟨b, rfl⟩ := hv
  obtain ⟨t, ht, hc⟩ := h.current
  rw [Volatile.stable_current] at hc
  rw [hc, ← recordsOf_settled L]
  exact LogFile.of_stable ht

/-- What is on stable storage counts as such from here on. -/
theorem Stored.settle (ha : ρ.Alike ρ') (h : Stored F ρ x w H m T I D M X)
    (hsync : ∀ n v, m (.wal n) = some v → ∃ b, v = .stable b)
    (hA : Admits ρ'.toUsage H (settled (T ++ I ++ M)))
    (hA' : Admits ρ'.toUsage H (settled (T ++ I ++ D ++ M ++ X))) :
    Stored F ρ' x w H m (settled T) (settled I) (settled D) (settled M) (settled X) := by
  have hsame : recordsOf (settled I ++ settled D ++ settled M ++ settled X) =
      recordsOf (I ++ D ++ M ++ X) := by
    rw [← settled_append, ← settled_append, ← settled_append, recordsOf_settled]
  constructor
  case known => exact ha.formats ▸ h.known
  case manifest => exact h.manifest
  case files => exact h.files
  case pendingFile => exact h.pendingFile
  case outputFiles => exact h.outputFiles
  case aligned => exact h.aligned
  case flushed =>
    refine ⟨?_, ?_⟩
    · rw [recordsOf_settled]
      exact h.flushed.shown_eq
    · rw [recordsOf_settled]
      exact h.flushed.le
  case mutable =>
    rw [recordsOf_settled]
    exact h.mutable
  case frozen =>
    intro imm himm hun
    have hfr := h.frozen imm himm hun
    refine ⟨?_, ?_, hfr.generation, hfr.active, hfr.room, ?_⟩
    · rw [recordsOf_settled]
      exact hfr.memtable
    · exact fun hnil => hfr.ne_nil (List.map_eq_nil_iff.mp hnil)
    · obtain ⟨v, hv, hlog⟩ := hfr.log
      refine ⟨v, hv, ?_⟩
      rw [← settled_append, ha.formats]
      exact hlog.settle (hsync _ v hv)
  case thawed =>
    intro hth
    obtain ⟨rfl, rfl, hnext⟩ := h.thawed hth
    exact ⟨rfl, rfl, hnext⟩
  case sealed =>
    intro hne
    obtain ⟨rfl, hI⟩ := h.sealed hne
    exact ⟨rfl, (ha.seals hI).settled⟩
  case log =>
    intro v hv
    rw [← settled_append, ha.formats]
    exact (h.log v hv).settle (hsync _ v hv)
  case numbers => exact h.numbers
  case detached =>
    intro hw
    obtain ⟨rfl, rfl, hempty⟩ := h.detached hw
    exact ⟨rfl, rfl, hempty⟩
  case attached => exact h.attached
  case clean =>
    intro w' hw hok
    obtain ⟨rfl, hcur⟩ := h.clean w' hw hok
    rw [recordsOf_settled]
    exact ⟨rfl, hcur⟩
  case follows =>
    rw [hsame]
    exact h.follows
  case last =>
    rw [hsame]
    exact h.last
  case admits =>
    rw [← settled_append, ← settled_append]
    exact hA
  case admitsAll =>
    rw [← settled_append, ← settled_append, ← settled_append, ← settled_append]
    exact hA'

end

end MiniKV
