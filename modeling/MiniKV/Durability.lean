import MiniKV.Runs
import MiniKV.State.Account
import MiniKV.State.Reads
import MiniKV.Codec.EndToEnd
import MiniKV.Codec.Portable

/-!
# Durability in foreground mode

A directory is always opened with the same options, and every write asks for a
sync. Whatever calls fail and wherever a process dies or the machine crashes, the
next `Open` in which nothing fails returns a database that shows the replay of
the writes: each one whose append succeeded, in its place, and of those whose
append failed each one or not.
-/

namespace MiniKV

open Lib

/-! ## The replay of a history -/

/-- The records that are replayed after a history, oldest first. A write whose append failed
is in its place, or left out. -/
inductive Replayed : List Label → List Record → Prop
  | start : Replayed [] []
  | appended {H : List Label} {rs : List Record} (h : Replayed H rs) (r : Record)
      (mode : SyncMode) : Replayed (.appended r mode :: H) (rs ++ [r])
  | omitted {H : List Label} {rs : List Record} (h : Replayed H rs) (r : Record) :
      Replayed (.inDoubt r :: H) rs
  | included {H : List Label} {rs : List Record} (h : Replayed H rs) (r : Record) :
      Replayed (.inDoubt r :: H) (rs ++ [r])
  | crashed {H : List Label} {rs : List Record} (h : Replayed H rs) : Replayed (.crashed :: H) rs

/-- How many writes of a history are in doubt. -/
def doubts : List Label → Nat
  | [] => 0
  | .inDoubt _ :: H => doubts H + 1
  | .appended _ _ :: H => doubts H
  | .crashed :: H => doubts H

/-- Where all writes are synced, only writes in doubt can be lost. -/
theorem Admits.replayed {κ : Usage} {H : List Label} {A : List Entry} (h : Admits κ H A)
    (hstart : ∀ H A, κ.origin H A → H = [] ∧ A = [])
    (hsync : ∀ H r mode, κ.writes H r mode → mode = .sync) {L S : List Entry} (hA : A = L ++ S)
    (hS : ∀ e ∈ S, e.durable = false) : Replayed H (recordsOf L) := by
  induction h generalizing L S with
  | origin ho =>
    obtain ⟨rfl, rfl⟩ := hstart _ _ ho
    obtain ⟨rfl, rfl⟩ := List.append_eq_nil_iff.mp hA.symm
    exact .start
  | @appended H A r mode _ hr ih =>
    rcases List.eq_nil_or_concat S with rfl | ⟨S', e, rfl⟩
    · rw [List.append_nil] at hA
      rw [← hA, recordsOf_append]
      exact .appended (ih (List.append_nil A).symm nofun) r mode
    · -- the last write is synced
      rw [List.concat_eq_append] at hA hS
      have hlast := hS e (List.mem_append_right _ (List.mem_singleton.mpr rfl))
      rw [← List.append_assoc] at hA
      rw [← (List.cons.inj (List.append_inj_right' hA rfl)).1] at hlast
      simp [hsync _ _ _ hr] at hlast
  | @doubted H A r mode _ _ ih => exact .omitted (ih hA hS) r
  | @kept H A r mode _ _ ih =>
    rcases List.eq_nil_or_concat S with rfl | ⟨S', e, rfl⟩
    · rw [List.append_nil] at hA
      rw [← hA, recordsOf_append]
      exact .included (ih (List.append_nil A).symm nofun) r
    · rw [List.concat_eq_append] at hA hS
      rw [← List.append_assoc] at hA
      exact .omitted (ih (List.append_inj_left' hA rfl)
        (fun x hx => hS x (List.mem_append_left _ hx))) r
  | @crashed H L' S' _ hS' ih =>
    have hnil : S = [] := by
      refine List.eq_nil_iff_forall_not_mem.mpr (fun e he => ?_)
      have hmem : e ∈ settled L' := by
        rw [hA]
        exact List.mem_append_right _ he
      obtain ⟨x, -, rfl⟩ := List.mem_map.mp hmem
      cases hS _ he
    rw [hnil, List.append_nil] at hA
    rw [← hA, recordsOf_settled]
    exact .crashed (ih rfl hS')

/-! ## Writes in doubt -/

/-- The account of a regime from a history on, with writes only right after it, and only if
`ok` holds. -/
def Regime.since (ρ : Regime) (H₁ : List Label) (ok : Prop) : Regime :=
  { ρ with
    origin := fun H _ => H = H₁
    writes := fun H _ _ => H = H₁ ∧ ok }

section

variable {F : StorageFormat} {ρ ρ' : Regime} {w w' : World} {x : Contents}
  {writer : Option WalWriter} {H H₁ : List Label} {m : Image} {T I D M X : List Entry}
  {st : Store} {db : Database} {σ : Scene} {ok : Prop}

theorem Regime.alike_since : ρ.Alike (ρ.since H₁ ok) := ⟨id, id, rfl, id, id, id, id⟩

/-- At most one write follows the history from which the account is kept. -/
theorem Admits.doubts_le {A : List Entry} [Decidable ok]
    (h : Admits (ρ.since H₁ ok).toUsage H A) :
    doubts H ≤ doubts H₁ + if ok then 1 else 0 := by
  induction h with
  | origin ho => rw [show _ = H₁ from ho]; omega
  | @appended H A r mode _ hr ih => exact ih
  | @doubted H A r mode _ hr ih =>
    obtain ⟨rfl, hok⟩ := hr
    rw [if_pos hok]
    exact le_refl _
  | @kept H A r mode _ hr ih =>
    obtain ⟨rfl, hok⟩ := hr
    rw [if_pos hok]
    exact le_refl _
  | crashed _ _ ih => exact ih

theorem Stored.since (h : Stored F ρ x writer H m T I D M X) :
    Stored F (ρ.since H ok) x writer H m T I D M X :=
  { h with
    admits := .origin rfl
    admitsAll := .origin rfl }

theorem Steady.since (h : Steady F ρ σ db st) : Steady F (ρ.since st.history ok) σ db st := by
  refine ⟨h.inv.alike Regime.alike_since (fun hd => (h.inv.stored hd).mono ?_),
    h.tidy.alike Regime.alike_since⟩
  rintro m ⟨T, I, D, M, X, hs⟩
  exact ⟨T, I, D, M, X, hs.since⟩

theorem Kept.since (h : Kept F ρ.toUsage st) : Kept F (ρ.since st.history ok).toUsage st := by
  refine ⟨h.wf, h.images.mono ?_⟩
  rintro m ⟨o, A, ho, hman, -, hr⟩
  refine ⟨o, A, ho, hman, .origin rfl, ?_⟩
  cases hr with
  | fresh empty => exact .fresh empty
  | holds hh => exact .holds { hh with logs := hh.logs.alike Regime.alike_since }

theorem Sound.since (h : Sound F ρ w) : Sound F (ρ.since w.store.history ok) w :=
  ⟨fun hc => (h.kept hc).since, h.fore, h.open', fun inst hc => (h.steady inst hc).since, h.closed⟩

/-- Whether the open database may still come to a write in doubt. -/
def World.fresh (w : World) : Prop := ∃ inst, w.current = some inst ∧ inst.db.status.isOk = true

/-- The step is no `Open`. -/
def WorldEvent.Stays : WorldEvent → Prop
  | .openDatabase _ _ => False
  | _ => True

open Classical in
/-- A database in which an append has failed makes no further one. -/
theorem Sound.doubts_step (hF : F.Lawful) (hP : F.Portable) (hρ : ρ.Foreground)
    (h : Sound F ρ w) {e : WorldEvent} (he : e.Stays) :
    (doubts (w.step F e).store.history + if (w.step F e).fresh then 1 else 0) ≤
      doubts w.store.history + if w.fresh then 1 else 0 := by
  have hsince : Sound F (ρ.since w.store.history w.fresh) w := h.since
  have hforeground : (ρ.since w.store.history w.fresh).Foreground :=
    ⟨hρ.crashes, hρ.single, hρ.durable, hρ.untraced⟩
  have hstays : e.Foreground ∧ e.Within (ρ.since w.store.history w.fresh).formats := by
    cases e with
    | openDatabase o script => exact he.elim
    | act a script => exact ⟨trivial, trivial⟩
    | actClosed position a script => exact ⟨trivial, trivial⟩
    | kill => exact ⟨trivial, trivial⟩
    | drop position => exact ⟨trivial, trivial⟩
    | crash directory cut => exact ⟨trivial, trivial⟩
  obtain ⟨hs, harr⟩ := hsince.step hF hP hforeground
    (fun inst hc _ _ _ hok _ => ⟨rfl, inst, hc, hok⟩) hstays.1 hstays.2
  by_cases hfresh : (w.step F e).fresh
  · rw [if_pos hfresh]
    obtain ⟨inst', hi, hok⟩ := hfresh
    cases harr inst' hi with
    | stayed hc hadv =>
      obtain ⟨hok', hgrown⟩ := hadv.grown hok
      rw [if_pos ⟨_, hc, hok'⟩]
      rcases hgrown with ⟨hH, -⟩ | ⟨r, mode, hH, -⟩
      · rw [show (w.step F e).store.history = w.store.history from hH]
      · rw [show (w.step F e).store.history = .appended r mode :: w.store.history from hH]
        exact le_refl _
    | opened hc hop hH hev =>
      obtain ⟨script, rfl⟩ := hev
      exact he.elim
  · rw [if_neg hfresh]
    obtain ⟨o, A, -, -, hA, -⟩ := (hs.kept' hforeground.durable).images.current
    exact hA.doubts_le

end

/-! ## Runs -/

/-- A step that opens with these options, or writes with a sync. -/
def WorldEvent.Strict (o : Options) : WorldEvent → Prop
  | .openDatabase o' _ => o' = o
  | e => ∀ mode, e.Issues mode → mode = .sync

/-- A directory that is always opened with the same options in foreground mode, and written
with a sync each time. -/
def strictly (o : FormatOptions) : Regime :=
  { foreground (fun H A => H = [] ∧ A = []) (fun _ _ mode => mode = .sync) with
    formats := fun o' => o' = o }

section

variable {F : StorageFormat} {o : Options} {w : World}

theorem strictly_foreground (o : FormatOptions) : (strictly o).Foreground :=
  ⟨trivial, trivial, trivial, id⟩

theorem Sound.strict_step (hF : F.Lawful) (hP : F.Portable) (hfg : o.backgroundMaintenance = false)
    (h : Sound F (strictly o.toFormatOptions) w) {e : WorldEvent} (he : e.Strict o) :
    Sound F (strictly o.toFormatOptions) (w.step F e) := by
  have hevent : e.Foreground ∧ e.Within (strictly o.toFormatOptions).formats ∧
      ∀ mode, e.Issues mode → mode = .sync := by
    cases e with
    | openDatabase o' script =>
      obtain rfl : o' = o := he
      exact ⟨hfg, rfl, nofun⟩
    | act a script => exact ⟨trivial, trivial, he⟩
    | actClosed position a script => exact ⟨trivial, trivial, he⟩
    | kill => exact ⟨trivial, trivial, he⟩
    | drop position => exact ⟨trivial, trivial, he⟩
    | crash directory cut => exact ⟨trivial, trivial, he⟩
  exact (h.step hF hP (strictly_foreground _) (fun _ _ _ mode hi _ _ => hevent.2.2 mode hi)
    hevent.1 hevent.2.1).1

theorem Opened.sequence_le {κ : Usage} {H : List Label} {o₀ : FormatOptions} {v : Version}
    {ts : List SSTableReader} {T I M : List Entry} {db : Database} {st : Store}
    (h : Opened F κ H o₀ o v ts T I M db st) :
    ∀ r ∈ recordsOf (T ++ I ++ M), r.sequence ≤ db.lastSequence := by
  intro r hr
  have hlast : db.lastSequence = lastOf v.lastSequence (recordsOf (I ++ M)) :=
    congrArg Contents.lastSequence h.contents_eq
  obtain ⟨hfront, hle⟩ := h.restored.follows.le_lastOf
  rw [hlast]
  rw [List.append_assoc, recordsOf_append] at hr
  rcases List.mem_append.mp hr with hr | hr
  · exact (h.restored.loaded.holds.flushed.le r hr).trans hfront
  · exact hle r hr

/-- `Open` with no fault on a directory of this kind. -/
theorem Kept.opens (hF : F.Lawful) (hP : F.Portable) (hacc : o.accepted = true) {st : Store}
    (h : Kept F (strictly o.toFormatOptions).toUsage st) {script : List Outcome}
    (hquiet : ∀ x ∈ script, x = Outcome.ok) :
    ∃ db result fs rs, openWithEnvironment F o { store := st, script := script } =
        (.ok (db, result), fs) ∧ Replayed st.history rs ∧
      (∀ k, ValidKey o.toFormatOptions k → Answers (applyLog noValues rs k) (db.get k)) ∧
      ∀ r ∈ rs, r.sequence < db.lastSequence + 1 := by
  have hopen := openWithEnvironment_kept (q := True) (H := st.history) (o := o) hF hP rfl
    { store := st, script := script } ⟨fun _ => hquiet, h, rfl⟩
  match hm : openWithEnvironment F o { store := st, script := script } with
  | (.ok (db, result), fs) =>
    rw [hm] at hopen
    obtain ⟨-, hk, hH, o₀, v, ts, T, I, M, hop⟩ := hopen
    have hinv := hop.contentsInv (ρ := strictly o.toFormatOptions) hF hP
    have hview := (hop.stored hP).view_eq hinv trivial
    have hopt : db.options = o := congrArg Contents.options hop.contents_eq
    refine ⟨db, result, fs, _, rfl, hop.restored.loaded.admits.replayed (fun _ _ ho => ho)
      (fun _ _ _ hw => hw) (List.append_nil _).symm nofun, fun k hk => ?_,
      fun r hr => Nat.lt_succ_of_le (hop.sequence_le r hr)⟩
    rw [← hview]
    refine Database.get_answers hinv hop.state.1 ?_
    rw [Database.format, hopt]
    exact hk
  | (.error e, fs) =>
    rw [hm] at hopen
    exact absurd ⟨⟨trivial, fun _ ho => ho⟩, hacc⟩ hopen.2.2
  | (.killed, fs) =>
    rw [hm] at hopen
    exact absurd trivial hopen.1

theorem World.run_append (before after : List WorldEvent) (w : World) :
    w.run F (before ++ after) = (w.run F before).run F after := by
  induction before generalizing w with
  | nil => rfl
  | cons e es ih => exact ih (w.step F e)

open Classical in
/-- Between two `Open`s at most one write comes into doubt. -/
theorem Sound.doubts_run (hF : F.Lawful) (hP : F.Portable) (hfg : o.backgroundMaintenance = false)
    (h : Sound F (strictly o.toFormatOptions) w) {es : List WorldEvent}
    (hes : ∀ e ∈ es, e.Strict o ∧ e.Stays) :
    doubts (w.run F es).store.history ≤ doubts w.store.history + 1 := by
  have hrun : Sound F (strictly o.toFormatOptions) (w.run F es) ∧
      (doubts (w.run F es).store.history + if (w.run F es).fresh then 1 else 0) ≤
        doubts w.store.history + if w.fresh then 1 else 0 := by
    refine World.run_keeps (Φ := fun w' => Sound F (strictly o.toFormatOptions) w' ∧
      (doubts w'.store.history + if w'.fresh then 1 else 0) ≤
        doubts w.store.history + if w.fresh then 1 else 0) (fun w' e he hw' => ?_) hes
      ⟨h, le_refl _⟩
    exact ⟨hw'.1.strict_step hF hP hfg he.1,
      (hw'.1.doubts_step hF hP (strictly_foreground _) he.2).trans hw'.2⟩
  have hle := hrun.2
  split at hle <;> split at hle <;> omega

end

/-- In every run of a directory that is opened with the same options in foreground mode and
written with a sync each time, whatever calls fail and wherever a process dies or the machine
crashes: the next `Open` without a fault returns a database that shows the replay of the history,
and gives the next write a larger sequence number than any that is replayed. Between two `Open`s
at most one write comes into doubt. -/
theorem foreground_durable {shape : BloomShape} {o : Options} (hacc : o.accepted = true)
    (hfg : o.backgroundMaintenance = false) {es : List WorldEvent} (hes : ∀ e ∈ es, e.Strict o)
    {w : World} (hw : w = World.empty.run (fileFormat shape) es) :
    (w.current = none → ∀ script, (∀ x ∈ script, x = Outcome.ok) →
      ∃ db result fs rs,
        openWithEnvironment (fileFormat shape) o { store := w.store, script := script } =
          (.ok (db, result), fs) ∧
        Replayed w.store.history rs ∧
        (∀ k, ValidKey o.toFormatOptions k → Answers (applyLog noValues rs k) (db.get k)) ∧
        ∀ r ∈ rs, r.sequence < db.lastSequence + 1) ∧
    ∀ before after, es = before ++ after → (∀ e ∈ after, e.Stays) →
      doubts w.store.history ≤
        doubts (World.empty.run (fileFormat shape) before).store.history + 1 := by
  have hF := fileFormat_lawful shape
  have hP := fileFormat_portable shape
  have hsound : ∀ es : List WorldEvent, (∀ e ∈ es, e.Strict o) →
      Sound (fileFormat shape) (strictly o.toFormatOptions)
        (World.empty.run (fileFormat shape) es) :=
    fun es hes => World.run_keeps (fun _ _ he h => h.strict_step hF hP hfg he) hes
      (Sound.empty (o := o.toFormatOptions) rfl ⟨rfl, rfl⟩)
  refine ⟨fun hidle script hquiet => ?_, ?_⟩
  · rw [hw] at hidle ⊢
    exact ((hsound es hes).kept hidle).opens hF hP hacc hquiet
  · rintro before after rfl hstays
    rw [hw, World.run_append]
    exact (hsound before (fun e he => hes e (List.mem_append_left _ he))).doubts_run hF hP hfg
      (fun e he => ⟨hes e (List.mem_append_right _ he), hstays e he⟩)

/-- A write, a flush that dies before its MANIFEST is in place, a write whose sync fails, and a
crash that keeps none of the bytes that were not synced. -/
def crashedTwice : List WorldEvent :=
  [.openDatabase {} [], .act (.call (.put [1] [7] .sync)) [],
    .act (.call .flush) [.ok, .ok, .ok, .ok, .ok, .ok, .ok, .kill 0], .crash 0 (fun _ => 0),
    .openDatabase {} [], .act (.call (.put [2] [8] .sync)) [.ok, .fail 0],
    .act (.call (.put [3] [9] .sync)) [], .crash 0 (fun _ => 0)]

/-- The hypotheses hold for such a run. The second write is in doubt; the next `Open` shows the
first in either case. -/
theorem foreground_durable_crashedTwice : ∃ db result fs,
    openWithEnvironment (fileFormat byteShape) {}
      { store := (World.empty.run (fileFormat byteShape) crashedTwice).store, script := [] } =
        (.ok (db, result), fs) ∧
    Answers (some [7]) (db.get [1]) := by
  have hes : ∀ e ∈ crashedTwice, e.Strict {} := by
    simp [crashedTwice, WorldEvent.Strict, WorldEvent.Issues, Action.Issues]
  obtain ⟨db, result, fs, rs, hopen, hrs, hget, -⟩ :=
    (@foreground_durable byteShape {} (by decide +kernel) rfl crashedTwice hes _ rfl).1 rfl [] nofun
  have hhistory : (World.empty.run (fileFormat byteShape) crashedTwice).store.history =
      [.crashed, .inDoubt ⟨[2], 2, .value, [8]⟩, .crashed,
        .appended ⟨[1], 1, .value, [7]⟩ .sync] := by decide +kernel
  have hfirst : applyLog noValues rs [1] = some [7] := by
    rw [hhistory] at hrs
    rcases hrs with _ | _ | _ | _ | hrs
    rcases hrs with _ | _ | hrs | hrs | _
    all_goals
      rcases hrs with _ | _ | _ | _ | hrs
      rcases hrs with _ | hrs | _ | _ | _
      cases hrs
      decide
  refine ⟨db, result, fs, hopen, ?_⟩
  rw [← hfirst]
  exact hget [1] ⟨by simp, by decide⟩

end MiniKV
