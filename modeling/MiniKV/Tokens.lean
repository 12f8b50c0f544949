import MiniKV.Runs
import MiniKV.State.Account
import MiniKV.Codec.EndToEnd
import MiniKV.Codec.Portable
import MiniKV.Scan.Pages

/-!
# Continuation tokens over runs of a directory

A token carries the id of the Version and the last sequence number of the
database that issued it, and `Scan` takes it again as long as both are the same.
A sequence number comes back with other contents in two ways. A failed append
uses one up that is not in the log, so that it is given out again after the next
Open; and a record that recovery has read, but that was never synced, can still
be lost. A token that is issued when neither can happen stands for the contents
it was issued on, through every later failure, crash and Open.
-/

namespace MiniKV

open Lib

/-! ## Accounts in foreground mode -/

/-- The account from a moment on at which the map and the last sequence number are known and
nothing can be lost any more. -/
def snapshotFrom (f : Bytes → Option Bytes) (n : Nat) : Regime :=
  foreground (fun _ A => Snapshot f n A) (fun _ r _ => n < r.sequence)

section

variable {origin origin' : List Label → List Entry → Prop}
  {writes writes' : List Label → Record → SyncMode → Prop}

theorem foreground_alike : (foreground origin writes).Alike (foreground origin' writes') :=
  ⟨id, id, rfl, id, id, id, id⟩

end

/-! ## A new account at Open -/

/-- A write that changes nothing. -/
def idleWrite (f : Bytes → Option Bytes) (n : Nat) : Record :=
  match f [] with
  | some value => { key := [], sequence := n, type := .value, value := value }
  | none => { key := [], sequence := n, type := .deletion, value := [] }

theorem idleWrite_sequence (f : Bytes → Option Bytes) (n : Nat) : (idleWrite f n).sequence = n := by
  unfold idleWrite
  split <;> rfl

theorem applyLog_idleWrite (f : Bytes → Option Bytes) (n : Nat) : applyLog f [idleWrite f n] = f := by
  show Function.update f (idleWrite f n).key (idleWrite f n).visible = f
  unfold idleWrite
  split
  · rename_i v hv
    show Function.update f [] (some v) = f
    rw [← hv, Function.update_eq_self]
  · rename_i hv
    show Function.update f [] none = f
    rw [← hv, Function.update_eq_self]

/-- The tables of a Version also hold an idle write under its last sequence number, which may
be larger than that of every record in them. -/
def withFrontier (v : Version) (ts : List SSTableReader) (T : List Entry) : List Entry :=
  T ++ [⟨idleWrite (shown (tableRecords ts)) v.lastSequence, true⟩]

section

variable {F : StorageFormat} {origin : List Label → List Entry → Prop}
  {writes : List Label → Record → SyncMode → Prop}
  {H : List Label} {o₀ : FormatOptions} {o : Options} {v : Version} {ts : List SSTableReader}
  {T I M : List Entry} {db : Database} {st : Store}

theorem Flushed.withFrontier (h : Flushed v ts T) : Flushed v ts (withFrontier v ts T) := by
  have hrec : recordsOf (MiniKV.withFrontier v ts T) =
      recordsOf T ++ [idleWrite (shown (tableRecords ts)) v.lastSequence] := by
    rw [MiniKV.withFrontier, recordsOf_append]
    rfl
  refine ⟨?_, fun r hr => ?_⟩
  · rw [hrec, applyLog_append, ← h.shown_eq, applyLog_idleWrite]
  · rw [hrec] at hr
    rcases List.mem_append.mp hr with hr | hr
    · exact h.le r hr
    · rw [List.mem_singleton.mp hr, idleWrite_sequence]

/-- The account begins with what `Open` has found. -/
theorem Opened.restart (h : Opened F (foreground origin writes).toUsage H o₀ o v ts T I M db st) :
    Opened F (accountFrom H (withFrontier v ts T ++ I ++ M)).toUsage H o₀ o v ts
      (withFrontier v ts T) I M db st := by
  have hl := h.restored.loaded
  refine ⟨h.accepted, trivial, ⟨⟨trivial, hl.manifests, .origin ⟨rfl, rfl⟩, ?_, hl.manifest⟩,
    h.restored.files, h.restored.frozen, h.restored.clean⟩, h.synced, h.members⟩
  exact ⟨hl.holds.manifest, hl.holds.files, hl.holds.inv, hl.holds.flushed.withFrontier,
    hl.holds.logs.alike foreground_alike, hl.holds.follows⟩

theorem lastOf_getLast (rs ss : List Record) {n : Nat} (r : Record) (hr : r.sequence = n) :
    ∃ x, (rs ++ [r] ++ ss).getLast? = some x ∧ x.sequence = lastOf n ss := by
  induction ss generalizing n rs r with
  | nil => exact ⟨r, by simp, hr⟩
  | cons s ss ih =>
    obtain ⟨x, hx, hseq⟩ := ih (rs ++ [r]) s rfl
    refine ⟨x, ?_, hseq⟩
    rw [← hx]
    simp

theorem Opened.last (h : Opened F (foreground origin writes).toUsage H o₀ o v ts T I M db st) :
    ∃ r, (recordsOf (withFrontier v ts T ++ I ++ M)).getLast? = some r ∧
      r.sequence = db.lastSequence := by
  have hlast : db.lastSequence = lastOf v.lastSequence (recordsOf (I ++ M)) :=
    congrArg Contents.lastSequence h.contents_eq
  rw [hlast, List.append_assoc, recordsOf_append, withFrontier, recordsOf_append]
  exact lastOf_getLast _ _ _ (idleWrite_sequence _ _)

end

/-! ## The account of an open database -/

/-- While there is no sticky error the writes are one sequence, and its last record has the
last sequence number that was given out. -/
def Accounted (H₁ : List Label) (A₁ : List Entry) (σ : Scene) : Prop :=
  σ.control.status.isOk = true → ∃ A, Grown H₁ A₁ σ.history A ∧
    ∃ r, (recordsOf A).getLast? = some r ∧ r.sequence = σ.lastSequence

/-- What holds in every state of a run: the directory can be recovered, and an open database
has an account of its writes. -/
structure Ledger (F : StorageFormat) (w : World) : Prop where
  sound : Sound F (accountFrom [] []) w
  account : ∀ inst, w.current = some inst → ∃ H₁ A₁, Sound F (accountFrom H₁ A₁) w ∧
    Accounted H₁ A₁ (sceneOf inst.db w.store)

section

variable {F : StorageFormat} {w w' : World} {inst inst' : Instance} {f : Bytes → Option Bytes}
  {n : Nat}

theorem Accounted.advances {H₁ : List Label} {A₁ : List Entry} {σ σ' : Scene}
    (h : Accounted H₁ A₁ σ) (ha : Advances σ σ') : Accounted H₁ A₁ σ' := by
  intro hok
  obtain ⟨hok', hgrown⟩ := ha.grown hok
  obtain ⟨A, hA, r, hr, hseq⟩ := h hok'
  rcases hgrown with ⟨hH, hl⟩ | ⟨s, mode, hH, hs⟩
  · exact ⟨A, hH ▸ hA, r, hr, hl ▸ hseq⟩
  · refine ⟨_, hH ▸ hA.appended s mode, s, ?_, hs⟩
    rw [recordsOf_append]
    exact List.getLast?_concat

theorem ledger_empty : Ledger F World.empty :=
  ⟨Sound.empty (o := {}) trivial ⟨rfl, rfl⟩, fun _ hc => by cases hc⟩

theorem Ledger.step (hF : F.Lawful) (hP : F.Portable) (h : Ledger F w) {e : WorldEvent}
    (he : e.Foreground) : Ledger F (w.step F e) := by
  obtain ⟨hs, harr⟩ := h.sound.step hF hP foreground_foreground (fun _ _ _ _ _ _ _ => trivial) he
    (foreground_within e)
  refine ⟨hs, fun inst' hi => ?_⟩
  cases harr inst' hi with
  | stayed hc hadv =>
    obtain ⟨H₁, A₁, hs₁, hacc⟩ := h.account _ hc
    exact ⟨H₁, A₁, (hs₁.step hF hP foreground_foreground (fun _ _ _ _ _ _ _ => trivial) he
      (foreground_within e)).1, hacc.advances hadv⟩
  | opened hc hop hH hev =>
    have hwf := (hs.steady inst' hi).inv.wf
    have hst := hop.restart.steady hF hP False.elim hwf rfl
    exact ⟨_, _, .running (hs.fore inst' hi) (hs.open' inst' hi) hst hi hs.closed,
      fun _ => ⟨_, .start, hop.last⟩⟩

/-! ## Snapshots -/

/-- With no sticky error and every log synced, nothing of what is visible can be lost. -/
theorem Ledger.snapshot (h : Ledger F w) (hc : w.current = some inst)
    (hok : inst.db.status.isOk = true) (hsync : LogsSynced w.store) :
    Sound F (snapshotFrom inst.db.contents.view inst.db.lastSequence) w := by
  obtain ⟨H₁, A₁, hs, hacc⟩ := h.account inst hc
  obtain ⟨A, hA, r, hr, hseq⟩ := hacc hok
  have hst := hs.steady inst hc
  have huniq : ∀ {A'}, Admits (accountFrom H₁ A₁).toUsage w.store.history A' → A' = A :=
    fun h' => hA.unique (fun _ _ ho => ho) h'
  refine .running (hs.fore inst hc) (hs.open' inst hc) ⟨hst.inv.alike foreground_alike ?_,
    hst.tidy.alike foreground_alike⟩ hc hs.closed
  intro _ δ hδ
  obtain ⟨T, I, D, M, X, hstored⟩ := hst.inv.stored trivial δ hδ
  have hview := hstored.view_eq hst.inv.contents trivial
  have hvisible := huniq hstored.admits
  have hall := huniq hstored.admitsAll
  rw [hvisible] at hview
  have hsnap : Snapshot inst.db.contents.view inst.db.lastSequence (settled A) := by
    refine ⟨?_, fun e he => ?_, r, ?_, hseq⟩
    · rw [recordsOf_settled, hview]
    · obtain ⟨x, -, rfl⟩ := List.mem_map.mp he
      rfl
    · rw [recordsOf_settled]
      exact List.mem_of_getLast? hr
  refine ⟨_, _, _, _, _, hstored.settle foreground_alike (fun k v hv => ?_) ?_ ?_⟩
  · obtain ⟨-, i, hi, rfl⟩ := image_eq_some.mp hv
    exact hsync δ hδ k i hi
  · rw [hvisible]
    exact .origin hsnap
  · rw [hall]
    exact .origin hsnap

/-- What holds from a snapshot on. -/
structure Later (F : StorageFormat) (f : Bytes → Option Bytes) (n : Nat) (w : World) : Prop where
  sound : Sound F (snapshotFrom f n) w
  reached : ∀ inst, w.current = some inst → n ≤ inst.db.lastSequence

/-- A database that is opened later has reached the sequence number of the snapshot. -/
theorem Opened.reached {H : List Label} {o₀ : FormatOptions} {o : Options} {v : Version}
    {ts : List SSTableReader} {T I M : List Entry} {db : Database} {st : Store}
    (h : Opened F (snapshotFrom f n).toUsage H o₀ o v ts T I M db st) : n ≤ db.lastSequence := by
  have hl := h.restored.loaded
  obtain ⟨A₀, C, heq, hsnap, -⟩ := hl.admits.since (fun _ _ ho => ho)
  obtain ⟨r, hr, rfl⟩ := hsnap.reaches
  have hmem : r ∈ recordsOf (T ++ (I ++ M)) := by
    rw [← List.append_assoc, heq, recordsOf_append]
    exact List.mem_append_left _ hr
  have hlast : db.lastSequence = lastOf v.lastSequence (recordsOf (I ++ M)) :=
    congrArg Contents.lastSequence h.contents_eq
  obtain ⟨hfront, hle⟩ := h.restored.follows.le_lastOf
  rw [hlast]
  rw [recordsOf_append] at hmem
  rcases List.mem_append.mp hmem with hm | hm
  · exact (hl.holds.flushed.le r hm).trans hfront
  · exact hle r hm

theorem Later.step (hF : F.Lawful) (hP : F.Portable) (h : Later F f n w) {e : WorldEvent}
    (he : e.Foreground) : Later F f n (w.step F e) := by
  obtain ⟨hs, harr⟩ := h.sound.step hF hP foreground_foreground
    (fun inst hc r _ _ _ hr => (h.reached inst hc).trans_lt hr) he (foreground_within e)
  refine ⟨hs, fun inst' hi => ?_⟩
  cases harr inst' hi with
  | stayed hc hadv => exact (h.reached _ hc).trans hadv.lastSequence
  | opened hc hop hH hev => exact hop.reached

/-- Where the sequence number is that of the snapshot, so is the map. -/
theorem Later.view_eq (h : Later F f n w) (hc : w.current = some inst)
    (hn : inst.db.lastSequence = n) : inst.db.contents.view = f := by
  have hst := h.sound.steady inst hc
  obtain ⟨T, I, D, M, X, hs⟩ := (hst.inv.stored trivial).current
  have hfront : inst.db.version.lastSequence ≤ inst.db.lastSequence :=
    (hst.inv.contents.order trivial).frontier
  have hle : ∀ r ∈ recordsOf (T ++ I ++ M), r.sequence ≤ n := by
    intro r hr
    rw [← hn]
    rw [recordsOf_append, recordsOf_append] at hr
    rcases List.mem_append.mp hr with hr | hr
    · rcases List.mem_append.mp hr with hr | hr
      · exact (hs.flushed.le r hr).trans hfront
      · exact hs.last r (by simp only [recordsOf_append, List.mem_append]; tauto)
    · exact hs.last r (by simp only [recordsOf_append, List.mem_append]; tauto)
  obtain ⟨A₀, C, heq, hsnap, hC⟩ := hs.admits.since (fun _ _ ho => ho)
  have hnil : C = [] := by
    by_contra hne
    obtain ⟨e, he⟩ := List.exists_mem_of_ne_nil C hne
    obtain ⟨-, -, hlt⟩ : ∃ (_ : List Label) (_ : SyncMode), n < e.record.sequence := hC e he
    have := hle e.record (by
      rw [heq, recordsOf_append]
      exact List.mem_append_right _ (List.mem_map_of_mem he))
    omega
  rw [hs.view_eq hst.inv.contents trivial, heq, hnil, List.append_nil]
  exact hsnap.shows

end

/-! ## Tokens -/

/-- `Scan` over the range takes the token. -/
def Database.AcceptsToken (db : Database) (bounds : ScanBounds) (token : Bytes) : Prop :=
  ∃ key, decodeScanToken token bounds db.options db.version.id db.lastSequence = .ok key

theorem Database.acceptsToken_of_scan {db : Database} {o : ScanOptions} {page : ScanPage}
    (h : db.scan o = .ok page) (ht : o.continuationToken ≠ []) :
    db.AcceptsToken o.bounds o.continuationToken := by
  have hscan := Database.scan_ok h
  rw [Database.scanChecked, if_neg (fun hempty => ht (List.isEmpty_iff.mp hempty))] at hscan
  split at hscan
  · cases hscan
  · rename_i key hkey
    exact ⟨key, hkey⟩

theorem scanFinish_token {db : Database} {bounds : ScanBounds} {limit : Nat}
    {entries : List ScanEntry} {statistics : ScanStatistics} {page : ScanPage}
    (h : scanFinish db bounds limit entries statistics = .ok page)
    (ht : page.continuationToken ≠ []) :
    ∃ lastKey, encodeScanToken bounds db.version.id db.lastSequence lastKey =
      .ok page.continuationToken := by
  unfold scanFinish at h
  split at h
  · dsimp only at h
    split at h
    · cases h
    · rename_i token htoken
      rw [← Except.ok.inj h]
      exact ⟨_, htoken⟩
  · rw [← Except.ok.inj h] at ht
    exact absurd rfl ht

theorem scanFrom_token {db : Database} {bounds : ScanBounds} {limit : Nat} {resumeAfter : Bytes}
    {page : ScanPage} (h : scanFrom db bounds limit resumeAfter = .ok page)
    (ht : page.continuationToken ≠ []) :
    ∃ lastKey, encodeScanToken bounds db.version.id db.lastSequence lastKey =
      .ok page.continuationToken := by
  unfold scanFrom at h
  split at h
  · rw [← Except.ok.inj h] at ht
    exact absurd rfl ht
  · dsimp only at h
    split at h
    · cases h
    split at h
    · cases h
    · exact scanFinish_token h ht

/-- The token of a page is made of the members of the database. -/
theorem Database.scan_token {db : Database} {o : ScanOptions} {page : ScanPage}
    (h : db.scan o = .ok page) (ht : page.continuationToken ≠ []) :
    ∃ lastKey, encodeScanToken o.bounds db.version.id db.lastSequence lastKey =
      .ok page.continuationToken := by
  have hscan := Database.scan_ok h
  rw [Database.scanChecked] at hscan
  split at hscan
  · exact scanFrom_token hscan ht
  split at hscan
  · cases hscan
  · exact scanFrom_token hscan ht

/-- A token that a database takes has the sequence number of the database that issued it. -/
theorem Database.AcceptsToken.sequence_eq {db db' : Database} {o : ScanOptions} {page : ScanPage}
    {bounds : ScanBounds} (hid : db.version.id ≤ maxUInt64) (hlast : db.lastSequence ≤ maxUInt64)
    (hpage : db.scan o = .ok page) (ht : page.continuationToken ≠ [])
    (h : db'.AcceptsToken bounds page.continuationToken) : db'.lastSequence = db.lastSequence := by
  obtain ⟨lastKey, henc⟩ := db.scan_token hpage ht
  obtain ⟨hfits, htoken⟩ := encodeScanToken_ok henc
  obtain ⟨key, hkey⟩ := h
  obtain ⟨-, -, -, hfield, -⟩ := scanTokenBytes_fields hid hlast hfits
  rw [← (decodeScanToken_checked hkey).sequence_eq, htoken]
  exact hfield

/-- In every run of a directory in foreground mode: a token that was issued without a sticky
error and with every log synced is taken only while every key has the value it had then. -/
theorem continuationToken_fresh (shape : BloomShape) {before after : List WorldEvent}
    (hbefore : ∀ e ∈ before, e.Foreground) (hafter : ∀ e ∈ after, e.Foreground)
    {w w' : World} (hw : w = World.empty.run (fileFormat shape) before)
    (hw' : w' = w.run (fileFormat shape) after) {inst inst' : Instance}
    (hinst : w.current = some inst) (hok : inst.db.status.isOk = true)
    (hsync : LogsSynced w.store) {o : ScanOptions} {page : ScanPage}
    (hpage : inst.db.scan o = .ok page) (htoken : page.continuationToken ≠ [])
    (hinst' : w'.current = some inst') {bounds : ScanBounds}
    (haccept : inst'.db.AcceptsToken bounds page.continuationToken) :
    inst'.db.contents.view = inst.db.contents.view := by
  have hF := fileFormat_lawful shape
  have hP := fileFormat_portable shape
  have hledger : Ledger (fileFormat shape) w := by
    rw [hw]
    exact World.run_keeps (fun _ _ he h => h.step hF hP he) hbefore ledger_empty
  have hst := hledger.sound.steady inst hinst
  have horder := hst.inv.contents.order trivial
  have hlater : Later (fileFormat shape) inst.db.contents.view inst.db.lastSequence w := by
    refine ⟨hledger.snapshot hinst hok hsync, fun i hi => ?_⟩
    rw [Option.some.inj (hi.symm.trans hinst)]
  have hlater' : Later (fileFormat shape) inst.db.contents.view inst.db.lastSequence w' := by
    rw [hw']
    exact World.run_keeps (fun _ _ he h => h.step hF hP he) hafter hlater
  exact hlater'.view_eq hinst'
    (haccept.sequence_eq horder.id_word horder.last_word hpage htoken)

/-! ## Runs of two keys -/

/-- A `Put` with `kSync`, and the outcomes of its calls. -/
def putSync (key value : Bytes) (script : List Outcome) : WorldEvent :=
  .act (.call (.put key value .sync)) script

/-- One key at a time, over all keys. -/
def pageFrom (token : Bytes) : ScanOptions :=
  { bounds := ⟨[], none⟩, limit := 1, continuationToken := token }

def twoPuts : List WorldEvent := [.openDatabase {} [], putSync [1] [7] [], putSync [2] [7] []]

/-- The world after a run of a new directory. -/
def ranFrom (es : List WorldEvent) : World := World.empty.run (fileFormat byteShape) es

theorem logsSynced_of_all {st : Store} (h : (st.disk.dir.states.all fun δ =>
    δ.all fun e => (st.disk.files e.2).older.isEmpty) = true) : LogsSynced st := by
  intro δ hδ n i hi
  obtain ⟨e, he, rfl⟩ := Option.map_eq_some_iff.mp hi
  have hall := List.all_eq_true.mp (List.all_eq_true.mp h δ hδ) e (List.mem_of_find?_eq_some he)
  have hnil : (st.disk.files e.2).older = [] := List.isEmpty_iff.mp hall
  refine ⟨(st.disk.files e.2).current, ?_⟩
  rw [Volatile.stable, ← hnil]

/-- The first token of a run is taken again after more events, and a property of the two
databases can be evaluated. -/
theorem exists_of_pages (before after : List WorldEvent) (p : Database → Database → Bool)
    (h : ((ranFrom before).current.any fun inst =>
      (inst.db.scan (pageFrom [])).toOption.any fun page =>
        ((ranFrom before).run (fileFormat byteShape) after).current.any fun inst' =>
          (inst'.db.scan (pageFrom page.continuationToken)).toOption.any fun _ =>
            page.continuationToken ≠ [] && p inst.db inst'.db) = true) :
    ∃ inst page inst' page', (ranFrom before).current = some inst ∧
      inst.db.scan (pageFrom []) = .ok page ∧ page.continuationToken ≠ [] ∧
      ((ranFrom before).run (fileFormat byteShape) after).current = some inst' ∧
      inst'.db.scan (pageFrom page.continuationToken) = .ok page' ∧ p inst.db inst'.db = true := by
  obtain ⟨inst, hinst, h⟩ := (Option.any_eq_true _ _).mp h
  obtain ⟨page, hpage, h⟩ := (Option.any_eq_true _ _).mp h
  obtain ⟨inst', hinst', h⟩ := (Option.any_eq_true _ _).mp h
  obtain ⟨page', hpage', h⟩ := (Option.any_eq_true _ _).mp h
  obtain ⟨htoken, hp⟩ := Bool.and_eq_true_iff.mp h
  exact ⟨inst, page, inst', page', hinst, toOption_eq_some.mp hpage, of_decide_eq_true htoken,
    hinst', toOption_eq_some.mp hpage', hp⟩

/-- The hypotheses hold for a token that is issued after two writes and taken after a new Open. -/
theorem continuationToken_fresh_reopened : ∃ inst page inst' page',
    (ranFrom twoPuts).current = some inst ∧ inst.db.scan (pageFrom []) = .ok page ∧
    ((ranFrom twoPuts).run (fileFormat byteShape) [.kill, .openDatabase {} []]).current =
      some inst' ∧
    inst'.db.scan (pageFrom page.continuationToken) = .ok page' ∧
    inst'.db.contents.view = inst.db.contents.view := by
  obtain ⟨inst, page, inst', page', hinst, hpage, htoken, hinst', hpage', hok⟩ :=
    exists_of_pages twoPuts [.kill, .openDatabase {} []] (fun db _ => db.status.isOk)
      (by decide +kernel)
  refine ⟨inst, page, inst', page', hinst, hpage, hinst', hpage', ?_⟩
  refine continuationToken_fresh byteShape ?_ ?_ (w := ranFrom twoPuts) rfl rfl hinst hok
    (logsSynced_of_all (by decide +kernel)) hpage htoken hinst'
    (Database.acceptsToken_of_scan hpage' htoken)
  · simp [twoPuts, putSync, WorldEvent.Foreground]
  · simp [WorldEvent.Foreground]

/-- The two ways in which a sequence number comes back with other contents. In the first the
third `Put` fails in its append, and its number goes to a `Put` of a key the token has yet to
come to. In the second only its sync fails, so that the next Open reads the record; then a
crash takes it away. -/
theorem continuationToken_stale :
    (∃ inst page inst' page',
      (ranFrom (twoPuts ++ [putSync [3] [9] [.fail 0]])).current = some inst ∧
      inst.db.scan (pageFrom []) = .ok page ∧ page.continuationToken ≠ [] ∧
      ((ranFrom (twoPuts ++ [putSync [3] [9] [.fail 0]])).run (fileFormat byteShape)
        [.kill, .openDatabase {} [], putSync [2] [8] []]).current = some inst' ∧
      inst'.db.scan (pageFrom page.continuationToken) = .ok page' ∧
      inst.db.contents.view [2] = some [7] ∧ inst'.db.contents.view [2] = some [8]) ∧
    ∃ inst page inst' page',
      (ranFrom (twoPuts ++ [putSync [3] [9] [.ok, .fail 0], .kill, .openDatabase {} []])).current =
        some inst ∧
      inst.db.scan (pageFrom []) = .ok page ∧ page.continuationToken ≠ [] ∧
      ((ranFrom (twoPuts ++ [putSync [3] [9] [.ok, .fail 0], .kill, .openDatabase {} []])).run
        (fileFormat byteShape)
        [.crash 0 (fun _ => 1), .openDatabase {} [], putSync [2] [8] []]).current = some inst' ∧
      inst'.db.scan (pageFrom page.continuationToken) = .ok page' ∧
      inst.db.contents.view [2] = some [7] ∧ inst'.db.contents.view [2] = some [8] := by
  constructor
  · obtain ⟨inst, page, inst', page', hinst, hpage, htoken, hinst', hpage', h⟩ :=
      exists_of_pages (twoPuts ++ [putSync [3] [9] [.fail 0]])
        [.kill, .openDatabase {} [], putSync [2] [8] []]
        (fun db db' => db.contents.view [2] = some [7] ∧ db'.contents.view [2] = some [8])
        (by decide +kernel)
    exact ⟨inst, page, inst', page', hinst, hpage, htoken, hinst', hpage', of_decide_eq_true h⟩
  · obtain ⟨inst, page, inst', page', hinst, hpage, htoken, hinst', hpage', h⟩ :=
      exists_of_pages
        (twoPuts ++ [putSync [3] [9] [.ok, .fail 0], .kill, .openDatabase {} []])
        [.crash 0 (fun _ => 1), .openDatabase {} [], putSync [2] [8] []]
        (fun db db' => db.contents.view [2] = some [7] ∧ db'.contents.view [2] = some [8])
        (by decide +kernel)
    exact ⟨inst, page, inst', page', hinst, hpage, htoken, hinst', hpage', of_decide_eq_true h⟩

end MiniKV
