import MiniKV.State.Invariant

/-!
# What a directory keeps for the next Open

A directory may be opened with other options than those it was written with.
Every image that a crash may leave is therefore recoverable under some of the
formats in use, each image under its own. Files that two formats accept mean the
same under both.
-/

namespace MiniKV

open Lib

/-! ## One log under two formats -/

section

variable {F : StorageFormat} {O : FormatOptions → Prop} {o o' : FormatOptions}

theorem walBytes_take_header (hF : F.Lawful) {r : Record} (h : Encodable F o r) (s : Bytes) :
    F.decodeWalRecordHeader o ((walBytes F o r ++ s).take kWalHeaderSize) =
      .ok (walBytes F o r).length := by
  have hle : kWalHeaderSize ≤ (walBytes F o r).length := by
    rw [walBytes_length hF h]
    exact header_le_walSize r
  rw [List.take_append_of_le_length hle]
  exact hF.decodeWalRecordHeader_encode h

/-- Where bytes begin with a record under one format and with a record under another, it
is one record. -/
theorem walBytes_agree (hF : F.Lawful) (hP : F.Portable) {r r' : Record} {s s' : Bytes}
    (h : Encodable F o r) (h' : Encodable F o' r')
    (he : walBytes F o r ++ s = walBytes F o' r' ++ s') : r = r' ∧ s = s' := by
  have hheader := walBytes_take_header hF h s
  have hheader' := walBytes_take_header hF h' s'
  rw [he] at hheader
  have hlen := hP.decodeWalRecordHeader_agree hheader hheader'
  obtain ⟨hbytes, hrest⟩ := List.append_inj he hlen
  have hd := hF.decodeWalRecord_encode h
  rw [hbytes] at hd
  exact ⟨hP.decodeWalRecord_agree hd (hF.decodeWalRecord_encode h'), hrest⟩

/-- A whole record is no incomplete end under another format. -/
theorem not_incomplete_record (hF : F.Lawful) (hP : F.Portable) {r : Record} {s : Bytes}
    (h : Encodable F o r) : ¬ Incomplete F o' (walBytes F o r ++ s) := by
  have hle : kWalHeaderSize ≤ (walBytes F o r).length := by
    rw [walBytes_length hF h]
    exact header_le_walSize r
  rintro (hshort | ⟨n, hn, hlt⟩)
  · rw [List.length_append] at hshort
    omega
  · have hsize := hP.decodeWalRecordHeader_agree (walBytes_take_header hF h s) hn
    rw [List.length_append] at hlt
    omega

/-- A torn piece does not hold a whole record of another format. -/
theorem Torn.no_record (hF : F.Lawful) (hP : F.Portable) {t s : Bytes} (ht : Torn F O t)
    {r : Record} (h : Encodable F o r) : t ≠ walBytes F o r ++ s := by
  intro he
  have hle : kWalHeaderSize ≤ (walBytes F o r).length := by
    rw [walBytes_length hF h]
    exact header_le_walSize r
  have hpos : 0 < kWalHeaderSize := by decide
  have hlen : (walBytes F o r).length ≤ t.length := by
    rw [he, List.length_append]
    omega
  rcases ht with rfl | ⟨o₁, x, -, hx, ⟨rest, hrest⟩, hne⟩
  · rw [List.length_nil] at hlen
    omega
  · have hheader := walBytes_take_header hF hx []
    rw [List.append_nil, ← hrest, List.take_append_of_le_length (by omega), he] at hheader
    have hsize := hP.decodeWalRecordHeader_agree (walBytes_take_header hF h s) hheader
    have hmore : 0 < rest.length := by
      rw [List.length_pos_iff]
      intro hnil
      rw [hnil, List.append_nil] at hrest
      exact hne hrest
    rw [List.length_append, ← he] at hsize
    omega

/-- What recovery reads under one format is what was written under others. -/
theorem logBytes_agree (hF : F.Lawful) (hP : F.Portable) {rs rs' : List Record} {t t' : Bytes}
    (h : ∀ r ∈ rs, Encodable F o r) (ht : Torn F O t) (h' : ∀ r ∈ rs', Encodable F o' r)
    (ht' : Incomplete F o' t') (he : logBytes F o rs ++ t = logBytes F o' rs' ++ t') :
    rs = rs' ∧ t = t' := by
  induction rs generalizing rs' with
  | nil =>
    cases rs' with
    | nil => exact ⟨rfl, he⟩
    | cons r' rs' =>
      rw [logBytes_cons, List.append_assoc] at he
      exact absurd he (ht.no_record hF hP (h' r' List.mem_cons_self))
  | cons r rs ih =>
    rw [logBytes_cons, List.append_assoc] at he
    have hr := h r List.mem_cons_self
    cases rs' with
    | nil =>
      rw [logBytes_nil, List.nil_append] at he
      rw [← he] at ht'
      exact absurd ht' (not_incomplete_record hF hP hr)
    | cons r' rs' =>
      rw [logBytes_cons, List.append_assoc] at he
      obtain ⟨rfl, hrest⟩ := walBytes_agree hF hP hr (h' r' List.mem_cons_self) he
      obtain ⟨rfl, rfl⟩ := ih (fun x hx => h x (List.mem_cons_of_mem _ hx))
        (fun x hx => h' x (List.mem_cons_of_mem _ hx)) hrest
      exact ⟨rfl, rfl⟩

theorem walBytes_eq (hP : F.Portable) {r : Record} (h : Encodable F o r) (h' : Encodable F o' r) :
    walBytes F o r = walBytes F o' r := hP.encodeWalRecord_agree h h'

theorem logBytes_eq (hP : F.Portable) {rs : List Record} (h : ∀ r ∈ rs, Encodable F o r)
    (h' : ∀ r ∈ rs, Encodable F o' r) : logBytes F o rs = logBytes F o' rs := by
  induction rs with
  | nil => rfl
  | cons r rs ih =>
    rw [logBytes_cons, logBytes_cons, walBytes_eq hP (h r List.mem_cons_self)
      (h' r List.mem_cons_self), ih (fun x hx => h x (List.mem_cons_of_mem _ hx))
        (fun x hx => h' x (List.mem_cons_of_mem _ hx))]

/-- A log of one format is one of every format that its records have an encoding in. -/
theorem LogFile.reformat (hP : F.Portable) {L : List Entry} {v : Volatile Bytes}
    (hv : LogFile F O o L v) (h : ∀ r ∈ recordsOf L, Encodable F o r)
    (h' : ∀ r ∈ recordsOf L, Encodable F o' r) : LogFile F O o' L v := by
  obtain ⟨t, ht, hc⟩ := hv.current
  refine ⟨⟨t, ht, ?_⟩, fun c hc' => ?_⟩
  · rw [hc, logBytes_eq hP h h']
  · obtain ⟨L', S, t', rfl, hS, ht', rfl⟩ := hv.states c hc'
    rw [recordsOf_append] at h h'
    refine ⟨L', S, t', rfl, hS, ht', ?_⟩
    rw [logBytes_eq hP (fun r hr => h r (List.mem_append_left _ hr))
      (fun r hr => h' r (List.mem_append_left _ hr))]

end

/-! ## Images -/

/-- An image that can be recovered, with a MANIFEST as this code writes it. -/
structure KeptIn (F : StorageFormat) (κ : Usage) (H : List Label) (o : FormatOptions)
    (A : List Entry) (m : Image) : Prop where
  known : κ.formats o
  manifests : ManifestSeparate F o m
  admits : Admits κ H A
  recoverable : Recoverable F o m κ A

def Keeps (F : StorageFormat) (κ : Usage) (H : List Label) (m : Image) : Prop :=
  ∃ o A, KeptIn F κ H o A m

/-- Every image that a crash may leave can be recovered. -/
structure Kept (F : StorageFormat) (κ : Usage) (st : Store) : Prop where
  wf : st.disk.Wf
  images : Everywhere (Keeps F κ st.history) st

section

variable {F : StorageFormat} {κ : Usage} {H : List Label} {st : Store}

theorem kept_empty {o : FormatOptions} (ho : κ.formats o) (hκ : κ.origin [] []) :
    Kept F κ Store.empty := by
  obtain ⟨hwf, himages⟩ := durable_empty F o hκ
  refine ⟨hwf, fun δ hδ => ?_⟩
  obtain ⟨A, hA, hr⟩ := himages δ hδ
  refine ⟨o, A, ho, fun v hv => ?_, hA, hr⟩
  rw [List.mem_singleton.mp hδ] at hv
  cases hv

theorem Remains.kept {ρ : Regime} {o : FormatOptions} (h : Remains F o ρ st) (hd : ρ.durable)
    (ho : ρ.formats o) : Kept F ρ.toUsage st := by
  refine ⟨h.wf, fun δ hδ => ?_⟩
  obtain ⟨A, hA, hr⟩ := (h.durable hd).images δ hδ
  exact ⟨o, A, ho, h.manifests (ρ.durable_imp hd).1 δ hδ, hA, hr⟩

theorem ManifestSeparate.survivor {o : FormatOptions} {m m' : Image}
    (h : ManifestSeparate F o m) (hs : m.Survivor m') : ManifestSeparate F o m' := by
  intro v hv
  rcases hs .manifest with ⟨-, hn⟩ | ⟨u, c, hu, hc, hm⟩
  · rw [hn] at hv
    cases hv
  · obtain ⟨w, b, rfl, hw⟩ := h u hu
    rw [List.mem_singleton.mp hc] at hm
    rw [hm] at hv
    exact ⟨w, b, (Option.some.inj hv).symm, hw⟩

/-- A crash leaves a directory that can be recovered. -/
theorem Kept.crash (h : Kept F κ st) (hc : κ.crashes) (k : Nat) (cut : Inode → Nat) :
    Kept F κ (({ st with disk := st.disk.crash k cut }).label .crashed) := by
  refine ⟨h.wf.crash k cut, ?_⟩
  have hall := Everywhere.crash (Ψ := Keeps F κ (.crashed :: st.history)) h.images
    (fun m m' hm hs => ?_) k cut
  · exact fun δ hδ => hall δ hδ
  · obtain ⟨o, A, ho, hman, hA, hr⟩ := hm
    obtain ⟨L, S, rfl, hS, hr'⟩ := hr.crash hc hs
    exact ⟨o, settled L, ho, hman.survivor hs, hA.crashed hS, hr'⟩

theorem Kept.stable : Stable FileName.Core (fun st => Kept F κ st ∧ st.history = H) where
  core := fun _ h => h
  wf := fun _ h => h.1.wf
  frame := by
    rintro st st' ⟨h, hH⟩ hs
    refine ⟨⟨hs.wf, ?_⟩, hs.history.trans hH⟩
    rw [hs.history]
    exact h.images.framed hs.disk
  sync := fun _ ⟨h, hH⟩ => ⟨⟨h.wf.syncDirectory, h.images.sync⟩, hH⟩
  synced := fun _ ⟨h, hH⟩ => ⟨⟨h.wf.syncDirectory, h.images.sync⟩, hH⟩

/-! ## Changing a log -/

/-- Contents that are as good for every log. -/
def Replaces (F : StorageFormat) (O : FormatOptions → Prop) (v v' : Volatile Bytes) : Prop :=
  ∀ o L, (∀ r ∈ recordsOf L, Encodable F o r) → LogFile F O o L v → LogFile F O o L v'

theorem Logs.setLog {o : FormatOptions} {m : Image} {next g : Nat} {I M : List Entry}
    {v v' : Volatile Bytes} (h : Logs F o m κ next I M)
    (henc : ∀ r ∈ recordsOf (I ++ M), Encodable F o r) (hg : m (.wal g) = some v)
    (hv : Replaces F κ.formats v v') :
    Logs F o (Function.update m (.wal g) (some v')) κ next I M := by
  have hother : ∀ n, n ≠ g → Function.update m (.wal g) (some v') (.wal n) = m (.wal n) :=
    fun n hn => Function.update_of_ne (fun he => hn (FileName.wal.inj he)) _ _
  have hself : Function.update m (.wal g) (some v') (.wal g) = some v' := Function.update_self _ _ _
  have hbelow : ∀ {n : Nat}, m (.wal n) = Option.none → n ≠ g := by
    rintro n hn rfl
    rw [hg] at hn
    cases hn
  rw [recordsOf_append] at henc
  have hlog : ∀ {n : Nat} {L : List Entry} {u : Volatile Bytes},
      (∀ r ∈ recordsOf L, Encodable F o r) → m (.wal n) = some u → LogFile F κ.formats o L u →
      ∃ u', Function.update m (.wal g) (some v') (.wal n) = some u' ∧
        LogFile F κ.formats o L u' := by
    intro n L u hL hu hlog
    by_cases hn : n = g
    · rw [hn, hg] at hu
      obtain rfl := Option.some.inj hu
      rw [hn, hself]
      exact ⟨v', rfl, hv o L hL hlog⟩
    · rw [hother n hn]
      exact ⟨u, hu, hlog⟩
  cases h with
  | none rest => exact .none (fun n hn => by rw [hother n (hbelow (rest n hn))]; exact rest n hn)
  | one active log rest =>
    obtain ⟨u', hu', hlog'⟩ := hlog (fun r hr => henc r (List.mem_append_right _ hr)) active log
    exact .one hu' hlog' (fun n hn => by rw [hother n (hbelow (rest n hn))]; exact rest n hn)
  | two frozen frozenLog active log rest room ne sealed =>
    obtain ⟨u', hu', hlog'⟩ := hlog (fun r hr => henc r (List.mem_append_left _ hr)) frozen frozenLog
    obtain ⟨w', hw', hlog''⟩ := hlog (fun r hr => henc r (List.mem_append_right _ hr)) active log
    exact .two hu' hlog' hw' hlog''
      (fun n hn => by rw [hother n (hbelow (rest n hn))]; exact rest n hn) room ne sealed

/-- Files that are no logs stay. -/
theorem Files.update_wal {o : FormatOptions} {m : Image} {ts : List SSTableReader} (h : Files F o m ts)
    (g : Nat) (v : Option (Volatile Bytes)) : Files F o (Function.update m (.wal g) v) ts := by
  intro t ht
  obtain ⟨b, hb, ho⟩ := h t ht
  exact ⟨b, by rw [Function.update_of_ne (by simp)]; exact hb, ho⟩

theorem ManifestIs.update_wal {o : FormatOptions} {m : Image} {w : Version} (h : ManifestIs F o m w)
    (g : Nat) (v : Option (Volatile Bytes)) : ManifestIs F o (Function.update m (.wal g) v) w := by
  obtain ⟨b, hb, hm⟩ := h
  exact ⟨b, hb, by rw [Function.update_of_ne (by simp)]; exact hm⟩

theorem ManifestSeparate.update_wal {o : FormatOptions} {m : Image} (h : ManifestSeparate F o m)
    (g : Nat) (v : Option (Volatile Bytes)) :
    ManifestSeparate F o (Function.update m (.wal g) v) := by
  intro u hu
  rw [Function.update_of_ne (by simp)] at hu
  exact h u hu

theorem Holds.setLog {o : FormatOptions} {m : Image} {w : Version} {ts : List SSTableReader}
    {T I M : List Entry} {g : Nat} {v v' : Volatile Bytes} (h : Holds F o m κ w ts T I M)
    (hg : m (.wal g) = some v) (hv : Replaces F κ.formats v v') :
    Holds F o (Function.update m (.wal g) (some v')) κ w ts T I M :=
  { h with
    manifest := h.manifest.update_wal g _
    files := h.files.update_wal g _
    logs := h.logs.setLog h.follows.encodable hg hv }

theorem Keeps.setLog {m : Image} {g : Nat} {v v' : Volatile Bytes} (h : Keeps F κ H m)
    (hg : m (.wal g) = some v) (hv : Replaces F κ.formats v v') :
    Keeps F κ H (Function.update m (.wal g) (some v')) := by
  obtain ⟨o, A, ho, hman, hA, hr⟩ := h
  refine ⟨o, A, ho, hman.update_wal g _, hA, ?_⟩
  cases hr with
  | fresh empty =>
    rw [empty] at hg
    cases hg
  | holds h => exact .holds (h.setLog hg hv)

/-- Changing the contents of a log in a way that every log survives. -/
theorem Kept.setLog (h : Kept F κ st) {g : Nat} {i : Inode} {v' : Volatile Bytes}
    (hl : st.disk.lookup (.wal g) = some i) (hwf : (st.disk.setFile i v').Wf)
    (hv : Replaces F κ.formats (st.disk.files i) v') : Kept F κ (st.onDisk (·.setFile i v')) := by
  refine ⟨hwf, fun δ hδ => ?_⟩
  show Keeps F κ st.history (image (st.disk.setFile i v') δ)
  by_cases hd : Dir.lookup δ (.wal g) = some i
  · rw [image_setFile h.wf hδ rfl hd]
    exact (h.images δ hδ).setLog (image_eq_some.mpr ⟨rfl, i, hd, rfl⟩) hv
  · have hnone : ∀ f : FileName, f.Core → Dir.lookup δ f ≠ some i := by
      intro f _ hf
      have hsame := h.wf.logs _ (Volatile.current_mem_states _) δ hδ g f i hl hf
      rw [hsame] at hf
      exact hd hf
    rw [image_setFile_of_unlinked hnone]
    exact h.images δ hδ

end

end MiniKV
