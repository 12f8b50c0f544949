import MiniKV.Codec.Lawful

/-!
# The limits do not change what a file says

A reader checks a file against the limits it was given. Two readers with other
limits that both accept a file read the same from it: what either of them read
can be read under the larger of the limits, and that reading is unique.
-/

namespace MiniKV

/-- The larger of the limits on keys and values. -/
def FormatOptions.join (o o' : FormatOptions) : FormatOptions :=
  { o with
    maxKeySize := max o.maxKeySize o'.maxKeySize
    maxValueSize := max o.maxValueSize o'.maxValueSize }

/-- The limits of one reader do not exceed those of another. -/
structure FormatOptions.Within (o o' : FormatOptions) : Prop where
  key : o.maxKeySize ≤ o'.maxKeySize
  value : o.maxValueSize ≤ o'.maxValueSize

theorem FormatOptions.within_join_left (o o' : FormatOptions) : o.Within (o.join o') :=
  ⟨le_max_left _ _, le_max_left _ _⟩

theorem FormatOptions.within_join_right (o o' : FormatOptions) : o'.Within (o.join o') :=
  ⟨le_max_right _ _, le_max_right _ _⟩

section

variable {o o' : FormatOptions}

/-! ## Log records -/

theorem Record.Valid.mono {r : Record} (h : r.Valid o) (hw : o.Within o') : r.Valid o' :=
  { h with key_le := h.key_le.trans hw.key, value_le := h.value_le.trans hw.value }

theorem encodeWalRecord_mono {r : Record} {b : Bytes} (h : encodeWalRecord o r = .ok b)
    (hw : o.Within o') : encodeWalRecord o' r = .ok b := by
  obtain ⟨hv, hrest⟩ := encodeWalRecord_eq_ok.mp h
  exact encodeWalRecord_eq_ok.mpr ⟨hv.mono hw, hrest⟩

theorem decodeWalHeader_mono {b : Bytes} {h : WalHeader} (hd : decodeWalHeader o b = .ok h)
    (hw : o.Within o') : decodeWalHeader o' b = .ok h := by
  obtain ⟨ha, he⟩ := decodeWalHeader_ok hd
  obtain ⟨h1, h2, h3, h4⟩ := validateLengths_isOk.mp ha.lengths
  have ha' : h.Accepted o' :=
    { ha with lengths := validateLengths_isOk.mpr ⟨h1, h2.trans hw.key, h3.trans hw.value, h4⟩ }
  rw [he]
  exact decodeWalHeader_bytes ha' _

theorem decodeWalRecord_mono {b : Bytes} {x : Nat × Record} (hd : decodeWalRecord o b = .ok x)
    (hw : o.Within o') : decodeWalRecord o' b = .ok x := by
  obtain ⟨n, r⟩ := x
  obtain ⟨henc, hle⟩ := decodeWalRecord_ok hd
  have h := decodeWalRecord_encode (encodeWalRecord_mono henc hw) (b.drop n)
  rwa [List.take_append_drop, List.length_take, Nat.min_eq_left hle] at h

theorem decodeWalHeader_agree {b : Bytes} {h h' : WalHeader} (hd : decodeWalHeader o b = .ok h)
    (hd' : decodeWalHeader o' b = .ok h') : h = h' := by
  have hj := decodeWalHeader_mono hd (o.within_join_left o')
  rw [decodeWalHeader_mono hd' (o.within_join_right o')] at hj
  exact (Except.ok.inj hj).symm

theorem decodeWalRecord_agree {b : Bytes} {x x' : Nat × Record}
    (hd : decodeWalRecord o b = .ok x) (hd' : decodeWalRecord o' b = .ok x') : x = x' := by
  have hj := decodeWalRecord_mono hd (o.within_join_left o')
  rw [decodeWalRecord_mono hd' (o.within_join_right o')] at hj
  exact (Except.ok.inj hj).symm

/-! ## Manifests -/

theorem Version.Valid.mono {v : Version} (h : v.Valid o) (hw : o.Within o') : v.Valid o' := by
  refine { h with maxKeySize_ne := ?_, tables := fun t ht => ?_ }
  · have := h.maxKeySize_ne
    have := hw.key
    omega
  · obtain ⟨h1, h2, h3, h4, h5, h6, h7, h8, h9, h10⟩ :=
      VersionTable.wellFormed_iff.mp (h.tables t ht)
    exact VersionTable.wellFormed_iff.mpr
      ⟨h1, h2, h3, h4, h5, h6, h7, h8.trans hw.key, h9.trans hw.key, h10⟩

theorem encodeManifest_mono {v : Version} {b : Bytes} (h : encodeManifest o v = .ok b)
    (hw : o.Within o') : encodeManifest o' v = .ok b := by
  have hvalid := (encodeManifest_ok h).1
  have hold := validateVersion_isOk.mpr hvalid
  have hnew := validateVersion_isOk.mpr (hvalid.mono hw)
  unfold encodeManifest at h ⊢
  dsimp only at h ⊢
  rw [hold] at h
  rw [hnew]
  exact h

theorem decodeManifest_agree {b : Bytes} {v v' : Version} (h : decodeManifest o b = .ok v)
    (h' : decodeManifest o' b = .ok v') : v = v' := by
  have hj := decodeManifest_encodeManifest
    (encodeManifest_mono (decodeManifest_ok h) (o.within_join_left o'))
  rw [decodeManifest_encodeManifest
    (encodeManifest_mono (decodeManifest_ok h') (o.within_join_right o'))] at hj
  exact (Except.ok.inj hj).symm

/-! ## Tables -/

theorem readBlockRecords_agree {n number : Nat} {previous : Option Bytes} {b : Bytes}
    {rs rs' : List Record} (h : readBlockRecords o number n previous b = .ok rs)
    (h' : readBlockRecords o' number n previous b = .ok rs') : rs = rs' := by
  induction n generalizing number previous b rs rs' with
  | zero =>
    rw [readBlockRecords] at h h'
    split at h
    · rename_i hempty
      rw [if_pos hempty] at h'
      rw [← Except.ok.inj h, ← Except.ok.inj h']
    · cases h
  | succ n ih =>
    rw [readBlockRecords] at h h'
    cases hd : decodeWalRecord o b with
    | error e => rw [hd] at h; cases h
    | ok x =>
      cases hd' : decodeWalRecord o' b with
      | error e => rw [hd'] at h'; cases h'
      | ok x' =>
        obtain rfl := decodeWalRecord_agree hd hd'
        rw [hd] at h
        rw [hd'] at h'
        dsimp only at h h'
        obtain ⟨hord, h⟩ := ite_error_eq_ok.mp h
        rw [if_neg hord] at h'
        split at h
        · cases h
        rename_i ts hts
        split at h'
        · cases h'
        rename_i ts' hts'
        rw [← Except.ok.inj h, ← Except.ok.inj h', ih hts hts']

theorem readBlock_agree {content : Bytes} {e : IndexEntry} {rs rs' : List Record}
    (h : readBlock o content e = .ok rs) (h' : readBlock o' content e = .ok rs') : rs = rs' := by
  rw [readBlock_eq] at h h'
  dsimp only at h h'
  obtain ⟨h1, h⟩ := ite_error_eq_ok.mp h
  rw [if_neg h1] at h'
  obtain ⟨h2, h⟩ := ite_error_eq_ok.mp h
  rw [if_neg h2] at h'
  obtain ⟨h3, h⟩ := ite_error_eq_ok.mp h
  rw [if_neg h3] at h'
  exact readBlockRecords_agree h h'

theorem decodeIndexEntries_agree {dataOffset dataSize n expected : Nat} {previous : Option Bytes}
    {b : Bytes} {x x' : List IndexEntry × Bytes × Nat}
    (h : decodeIndexEntries o dataOffset dataSize n previous expected b = .ok x)
    (h' : decodeIndexEntries o' dataOffset dataSize n previous expected b = .ok x') : x = x' := by
  induction n generalizing expected previous b x x' with
  | zero => rw [← Except.ok.inj h, ← Except.ok.inj h']
  | succ n ih =>
    rw [decodeIndexEntries] at h h'
    obtain ⟨hlen, h⟩ := ite_error_eq_ok.mp h
    rw [if_neg hlen] at h'
    dsimp only at h h'
    obtain ⟨-, h⟩ := ite_error_eq_ok.mp h
    split at h'
    · cases h'
    obtain ⟨hord, h⟩ := ite_error_eq_ok.mp h
    rw [if_neg hord] at h'
    split at h
    · cases h
    rename_i hes
    split at h'
    · cases h'
    rename_i hes'
    obtain ⟨rfl, rfl, rfl⟩ := Prod.mk.inj (ih hes hes') |>.imp id Prod.mk.inj
    rw [← Except.ok.inj h, ← Except.ok.inj h']

theorem verifyBlocks_agree {content : Bytes} {filter : Option BloomFilter}
    {previous : Option Bytes} {es : List IndexEntry} {rs rs' : List Record}
    (h : verifyBlocks o content filter previous es = .ok rs)
    (h' : verifyBlocks o' content filter previous es = .ok rs') : rs = rs' := by
  induction es generalizing previous rs rs' with
  | nil => rw [← Except.ok.inj h, ← Except.ok.inj h']
  | cons e es ih =>
    rw [verifyBlocks_cons] at h h'
    split at h
    · cases h
    rename_i g hg
    split at h'
    · cases h'
    rename_i g' hg'
    obtain rfl := readBlock_agree hg hg'
    obtain ⟨h1, h⟩ := ite_error_eq_ok.mp h
    rw [if_neg h1] at h'
    obtain ⟨h2, h⟩ := ite_error_eq_ok.mp h
    rw [if_neg h2] at h'
    split at h
    · cases h
    rename_i ts hts
    split at h'
    · cases h'
    rename_i ts' hts'
    rw [← Except.ok.inj h, ← Except.ok.inj h', ih hts hts']

theorem openRegions_agree {content index : Bytes} {f : TableFooter}
    {p p' : TableReader × List Record} (h : openRegions o content f index = .ok p)
    (h' : openRegions o' content f index = .ok p') :
    p.1.metadata = p'.1.metadata ∧ p.2 = p'.2 := by
  rw [openRegions_eq] at h h'
  split at h
  · cases h
  rename_i filter hfilter
  rw [hfilter] at h'
  dsimp only at h'
  split at h
  · cases h
  rename_i entries rest offset hentries
  split at h'
  · cases h'
  rename_i entries' rest' offset' hentries'
  obtain ⟨rfl, hrest⟩ := Prod.mk.inj (decodeIndexEntries_agree hentries hentries')
  obtain ⟨-, h⟩ := ite_error_eq_ok.mp h
  split at h'
  · cases h'
  split at h
  · cases h
  rename_i rs hrs
  split at h'
  · cases h'
  rename_i rs' hrs'
  obtain rfl := verifyBlocks_agree hrs hrs'
  obtain ⟨-, h⟩ := ite_error_eq_ok.mp h
  split at h'
  · cases h'
  rw [← Except.ok.inj h, ← Except.ok.inj h']
  exact ⟨rfl, rfl⟩

theorem openTable_agree {b : Bytes} {t t' : TableMetadata × List Record}
    (h : openTable o b = .ok t) (h' : openTable o' b = .ok t') : t = t' := by
  unfold openTable at h h'
  cases hp : openContent o b with
  | error e => rw [hp] at h; cases h
  | ok p =>
    cases hp' : openContent o' b with
    | error e => rw [hp'] at h'; cases h'
    | ok p' =>
      rw [hp] at h
      rw [hp'] at h'
      obtain ⟨f, index, rfl, rfl, -, hregions⟩ := openContent_checked hp
      obtain ⟨f', index', rfl, rfl, -, hregions'⟩ := openContent_checked hp'
      obtain ⟨hmd, hrs⟩ := openRegions_agree hregions hregions'
      rw [← Except.ok.inj h, ← Except.ok.inj h']
      exact Prod.ext (congrArg SSTableMetadata.toTableMetadata hmd) hrs

end

theorem fileFormat_portable (shape : BloomShape) : (fileFormat shape).Portable where
  openTable_agree := fun h h' => openTable_agree h h'
  decodeManifest_agree := fun h h' => decodeManifest_agree h h'
  encodeManifest_decode := fun h => decodeManifest_ok h
  encodeWalRecord_agree := by
    intro o o' r b b' h h'
    rw [(encodeWalRecord_eq_ok.mp h).2.2.2, (encodeWalRecord_eq_ok.mp h').2.2.2]
  decodeWalRecordHeader_agree := by
    intro o o' b n n' h h'
    change (decodeWalHeader o b).map WalHeader.recordSize = .ok n at h
    change (decodeWalHeader o' b).map WalHeader.recordSize = .ok n' at h'
    cases hd : decodeWalHeader o b with
    | error e => rw [hd] at h; cases h
    | ok header =>
      cases hd' : decodeWalHeader o' b with
      | error e => rw [hd'] at h'; cases h'
      | ok header' =>
        obtain rfl := decodeWalHeader_agree hd hd'
        rw [hd] at h
        rw [hd'] at h'
        exact Except.ok.inj (h.symm.trans h')
  decodeWalRecord_agree := by
    intro o o' b r r' h h'
    change (decodeWalRecord o b).map Prod.snd = .ok r at h
    change (decodeWalRecord o' b).map Prod.snd = .ok r' at h'
    cases hd : decodeWalRecord o b with
    | error e => rw [hd] at h; cases h
    | ok x =>
      cases hd' : decodeWalRecord o' b with
      | error e => rw [hd'] at h'; cases h'
      | ok x' =>
        obtain rfl := decodeWalRecord_agree hd hd'
        rw [hd] at h
        rw [hd'] at h'
        exact Except.ok.inj (h.symm.trans h')
  encodeManifest_word := by
    intro o b v h
    obtain ⟨-, hrep, -⟩ := encodeManifest_ok h
    simp only [Version.representable, decide_eq_true_eq] at hrep
    exact ⟨hrep.2.2.1, hrep.2.1⟩
  encodeWalRecord_word := fun h => (encodeWalRecord_eq_ok.mp h).2.2.1
  encodeWalRecord_error := MiniKV.encodeWalRecord_error

end MiniKV
