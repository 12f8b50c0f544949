import MiniKV.Codec.Table

/-!
# Data blocks and the sparse index

The data region of a table is a list of blocks, each the encodings of a non-empty
run of records under a header; the index has one entry for each. `EncodeTable`
builds such a layout from the records of a MemTable, and reading the blocks in
the order of the index gives the records back.
-/

namespace MiniKV

/-- The payload of a block. -/
def blockPayload (g : List Record) : Bytes := g.flatMap Record.encoding

def blockBytes (g : List Record) : Bytes := encodeBlock g.length (blockPayload g)

def blockSize (g : List Record) : Nat := kTableBlockHeaderSize + (blockPayload g).length

/-- The index entries of blocks that lie one behind the other from an offset on. -/
def indexOf : Nat → List (List Record) → List IndexEntry
  | _, [] => []
  | offset, g :: gs =>
    { firstKey := firstKey g, blockOffset := offset, blockSize := blockSize g } ::
      indexOf (offset + blockSize g) gs

/-- A record with an encoding. -/
def Record.Encodes (o : FormatOptions) (r : Record) : Prop := encodeWalRecord o r = .ok r.encoding

/-- A block that fits the format and the options. -/
structure BlockFits (o : FormatOptions) (g : List Record) : Prop where
  ne_nil : g ≠ []
  encodes : ∀ r ∈ g, r.Encodes o
  size_le : blockSize g ≤ maxUInt32
  size_le_maximum : blockSize g ≤ maximumBlockSize o

@[simp] theorem blockPayload_nil : blockPayload [] = [] := rfl

@[simp] theorem blockPayload_append (g h : List Record) :
    blockPayload (g ++ h) = blockPayload g ++ blockPayload h := List.flatMap_append

theorem Record.encodes_of_ok {o : FormatOptions} {r : Record} {b : Bytes}
    (h : encodeWalRecord o r = .ok b) : r.Encodes o ∧ b = r.encoding := by
  have hb := (encodeWalRecord_eq_ok.mp h).2.2.2
  subst hb
  exact ⟨h, rfl⟩

theorem Record.Encodes.valid {o : FormatOptions} {r : Record} (h : r.Encodes o) : r.Valid o :=
  (encodeWalRecord_eq_ok.mp h).1

@[simp] theorem blockHeader_length (records payloadSize : Nat) :
    (blockHeader records payloadSize).length = 16 := by
  simp [blockHeader, kBlockMagic]

@[simp] theorem blockBytes_length (g : List Record) : (blockBytes g).length = blockSize g := by
  simp only [blockBytes, encodeBlock, List.length_append, blockHeader_length, putFixed_length,
    blockSize, kTableBlockHeaderSize]
  omega

@[simp] theorem indexOf_length (offset : Nat) (gs : List (List Record)) :
    (indexOf offset gs).length = gs.length := by
  induction gs generalizing offset with
  | nil => rfl
  | cons g gs ih => rw [indexOf, List.length_cons, ih, List.length_cons]

theorem indexOf_append (offset : Nat) (gs : List (List Record)) (g : List Record) :
    indexOf offset (gs ++ [g]) = indexOf offset gs ++
      [{ firstKey := firstKey g, blockOffset := offset + (gs.flatMap blockBytes).length,
         blockSize := blockSize g }] := by
  induction gs generalizing offset with
  | nil => simp [indexOf]
  | cons h hs ih =>
    rw [List.cons_append, indexOf, ih, indexOf, List.flatMap_cons, List.length_append,
      blockBytes_length, List.cons_append]
    simp [Nat.add_assoc]

theorem length_le_blockPayload (g : List Record) :
    kWalHeaderSize * g.length ≤ (blockPayload g).length := by
  induction g with
  | nil => simp
  | cons r g ih =>
    have hr := r.encoding_length
    rw [blockPayload, List.flatMap_cons, List.length_append, hr, List.length_cons,
      Record.walSize]
    rw [blockPayload] at ih
    simp only [kWalHeaderSize] at ih ⊢
    omega

/-! ## Building -/

/-- What the block builder stands for: the finished blocks and the open one. -/
structure Builds (o : FormatOptions) (gs : List (List Record)) (g : List Record)
    (b : BlockBuilder) : Prop where
  data : b.data = gs.flatMap blockBytes
  index : b.index = indexOf kTableHeaderSize gs
  blocks : gs.length ≤ maxUInt32
  payload : b.payload = blockPayload g
  records : b.records = g.length
  firstKey_eq : g ≠ [] → b.firstKey = firstKey g
  fits : ∀ x ∈ gs, BlockFits o x
  encodes : ∀ r ∈ g, r.Encodes o
  size_le : g ≠ [] → blockSize g ≤ maximumBlockSize o

theorem Builds.start (o : FormatOptions) : Builds o [] [] {} where
  data := rfl
  index := rfl
  blocks := Nat.zero_le _
  payload := rfl
  records := rfl
  firstKey_eq := fun h => absurd rfl h
  fits := by simp
  encodes := by simp
  size_le := fun h => absurd rfl h

/-- Closing the open block. -/
theorem Builds.finish {o : FormatOptions} {gs : List (List Record)} {g : List Record}
    {b c : BlockBuilder} (h : Builds o gs g b) (hc : finishBlock b = .ok c) :
    Builds o (if g = [] then gs else gs ++ [g]) [] c := by
  unfold finishBlock at hc
  by_cases hg : g = []
  · rw [if_pos (by rw [h.records, hg]; rfl)] at hc
    rw [if_pos hg, ← Except.ok.inj hc]
    subst hg
    exact h
  rw [if_neg (by rw [h.records, List.length_eq_zero_iff]; exact hg)] at hc
  obtain ⟨hsize, hc⟩ := ite_error_eq_ok.mp hc
  obtain ⟨hcount, hc⟩ := ite_error_eq_ok.mp hc
  rw [h.payload] at hsize
  rw [h.index, indexOf_length] at hcount
  have hblocks := h.blocks
  rw [if_neg hg, ← Except.ok.inj hc]
  constructor
  · simp only [h.data, h.records, h.payload, List.flatMap_append, List.flatMap_singleton]
    rfl
  · rw [indexOf_append]
    simp only [h.index, h.data, h.payload, h.firstKey_eq hg]
    rfl
  · rw [List.length_append, List.length_singleton]
    omega
  · rfl
  · rfl
  · exact fun hn => absurd rfl hn
  · intro x hx
    rcases List.mem_append.mp hx with hx | hx
    · exact h.fits x hx
    · rw [List.mem_singleton.mp hx]
      exact ⟨hg, h.encodes, not_lt.mp hsize, h.size_le hg⟩
  · simp
  · exact fun hn => absurd rfl hn

/-- Adding a record to the open block. -/
theorem Builds.append {o : FormatOptions} {gs : List (List Record)} {g : List Record}
    {b c : BlockBuilder} {r : Record} (h : Builds o gs g b) (hr : r.Encodes o)
    (hroom : blockSize (g ++ [r]) ≤ maximumBlockSize o)
    (hc : appendToBlock b r.key r.encoding = .ok c) : Builds o gs (g ++ [r]) c := by
  unfold appendToBlock at hc
  obtain ⟨-, hc⟩ := ite_error_eq_ok.mp hc
  rw [← Except.ok.inj hc]
  refine ⟨h.data, h.index, h.blocks, ?_, ?_, fun _ => ?_, h.fits, ?_, fun _ => hroom⟩
  · simp only [h.payload, blockPayload_append]
    simp [blockPayload]
  · simp only [h.records, List.length_append, List.length_singleton]
  · simp only [h.records, List.length_eq_zero_iff]
    by_cases hg : g = []
    · rw [if_pos hg, hg]
      rfl
    · rw [if_neg hg, h.firstKey_eq hg]
      obtain ⟨x, xs, rfl⟩ := List.exists_cons_of_ne_nil hg
      rfl
  · intro x hx
    rcases List.mem_append.mp hx with hx | hx
    · exact h.encodes x hx
    · rw [List.mem_singleton.mp hx]
      exact hr

theorem Record.Valid.walSize_le {o : FormatOptions} {r : Record} (h : r.Valid o) :
    r.walSize ≤ kWalHeaderSize + o.maxKeySize + o.maxValueSize := by
  have h1 := h.key_le
  have h2 := h.value_le
  rw [Record.walSize]
  omega

theorem blockSize_singleton_le {o : FormatOptions} {r : Record} (h : r.Encodes o) :
    blockSize [r] ≤ maximumBlockSize o := by
  have hr := h.valid.walSize_le
  have hp : (blockPayload [r]).length = r.walSize := by simp [blockPayload]
  rw [blockSize, hp, maximumBlockSize]
  omega

/-- A record goes into the open block, or the open block is closed first. -/
theorem Builds.next {o : FormatOptions} {gs : List (List Record)} {g : List Record}
    {b c d : BlockBuilder} {r : Record} (h : Builds o gs g b) (hr : r.Encodes o)
    (hc : (if b.records ≠ 0 ∧ ¬ kTableBlockHeaderSize + b.payload.length + r.encoding.length ≤
      o.sstableBlockSize then finishBlock b else .ok b) = .ok c)
    (hd : appendToBlock c r.key r.encoding = .ok d) :
    ∃ gs' g', gs'.flatten ++ g' = gs.flatten ++ g ++ [r] ∧ Builds o gs' g' d := by
  split at hc
  · rename_i hfull
    have hg : g ≠ [] := by
      rw [h.records, ne_eq, List.length_eq_zero_iff] at hfull
      exact hfull.1
    have hfin := h.finish hc
    rw [if_neg hg] at hfin
    have happ := hfin.append hr (blockSize_singleton_le hr) hd
    exact ⟨gs ++ [g], [r], by simp, happ⟩
  · rename_i hroom
    obtain rfl := Except.ok.inj hc
    refine ⟨gs, g ++ [r], by simp, h.append hr ?_ hd⟩
    by_cases hg : g = []
    · rw [hg]
      exact blockSize_singleton_le hr
    · rw [h.records, ne_eq, List.length_eq_zero_iff] at hroom
      have hle : kTableBlockHeaderSize + b.payload.length + r.encoding.length ≤
          o.sstableBlockSize := by
        by_contra hn
        exact hroom ⟨hg, hn⟩
      have hsingle : blockPayload [r] = r.encoding := by simp [blockPayload]
      rw [h.payload] at hle
      rw [blockSize, blockPayload_append, List.length_append, hsingle, maximumBlockSize]
      omega

/-- The loop of `EncodeTable` cuts the records into blocks that fit. -/
theorem buildBlocks_ok {o : FormatOptions} {rs : List Record} {gs : List (List Record)}
    {g : List Record} {b c : BlockBuilder} (h : Builds o gs g b)
    (hc : buildBlocks o b rs = .ok c) :
    ∃ gs', gs'.flatten = gs.flatten ++ g ++ rs ∧ Builds o gs' [] c := by
  induction rs generalizing gs g b with
  | nil =>
    rw [buildBlocks] at hc
    refine ⟨_, ?_, h.finish hc⟩
    split
    · rename_i hg
      simp [hg]
    · simp
  | cons r rs ih =>
    rw [buildBlocks] at hc
    split at hc
    · cases hc
    rename_i encoded henc
    obtain ⟨hr, rfl⟩ := Record.encodes_of_ok henc
    dsimp only at hc
    split at hc
    · cases hc
    rename_i b' hb'
    split at hc
    · cases hc
    rename_i b'' hb''
    obtain ⟨gs', g', hflat, hbuilds⟩ := h.next hr hb' hb''
    obtain ⟨gs'', hflat', hbuilds'⟩ := ih hbuilds hc
    exact ⟨gs'', by rw [hflat', hflat, List.append_assoc, List.singleton_append], hbuilds'⟩

/-! ## Reading a block -/

theorem readBlockRecords_payload {o : FormatOptions} {g : List Record} {number : Nat}
    {previous : Option Bytes} (henc : ∀ r ∈ g, r.Encodes o) (hasc : Ascending g)
    (hprev : ∀ k ∈ previous, ∀ r ∈ g, k < r.key) :
    readBlockRecords o number g.length previous (blockPayload g) = .ok g := by
  induction g generalizing number previous with
  | nil => rfl
  | cons r g ih =>
    have hr := henc r List.mem_cons_self
    have hp : blockPayload (r :: g) = r.encoding ++ blockPayload g := rfl
    obtain ⟨hlt, hasc'⟩ := List.pairwise_cons.mp hasc
    have hfirst : ¬ previous.any (fun k => r.key ≤ k) = true := by
      rw [Option.any_eq_true]
      rintro ⟨k, hk, hle⟩
      exact absurd (of_decide_eq_true hle) (not_le.mpr (hprev k hk r List.mem_cons_self))
    rw [List.length_cons, readBlockRecords, hp, decodeWalRecord_encode hr]
    dsimp only
    rw [if_neg hfirst, List.drop_left, ih (fun x hx => henc x (List.mem_cons_of_mem _ hx)) hasc']
    intro k hk x hx
    rw [← Option.some.inj hk]
    exact hlt x hx

theorem readBlockRecords_ok {o : FormatOptions} {n number : Nat} {previous : Option Bytes}
    {b : Bytes} {g : List Record} (h : readBlockRecords o number n previous b = .ok g) :
    g.length = n ∧ b = blockPayload g ∧ (∀ r ∈ g, r.Encodes o) ∧ Ascending g ∧
      ∀ k ∈ previous, ∀ r ∈ g, k < r.key := by
  induction n generalizing number previous b g with
  | zero =>
    rw [readBlockRecords] at h
    split at h
    · rename_i hb
      rw [← Except.ok.inj h]
      exact ⟨rfl, List.isEmpty_iff.mp hb, by simp, List.Pairwise.nil, by simp⟩
    · cases h
  | succ n ih =>
    rw [readBlockRecords] at h
    split at h
    · cases h
    rename_i consumed r hr
    obtain ⟨hfirst, h⟩ := ite_error_eq_ok.mp h
    split at h
    · cases h
    rename_i rs hrs
    obtain ⟨hlen, hb, henc, hasc, hlt⟩ := ih hrs
    obtain ⟨hencode, -⟩ := decodeWalRecord_ok hr
    obtain ⟨hre, htake⟩ := Record.encodes_of_ok hencode
    have hbefore : ∀ k ∈ previous, k < r.key := by
      intro k hk
      by_contra hle
      exact hfirst ((Option.any_eq_true _ _).mpr ⟨k, hk, decide_eq_true (not_lt.mp hle)⟩)
    have hafter : ∀ x ∈ rs, r.key < x.key := hlt r.key rfl
    rw [← Except.ok.inj h]
    refine ⟨by rw [List.length_cons, hlen], ?_, ?_, List.pairwise_cons.mpr ⟨hafter, hasc⟩, ?_⟩
    · rw [← List.take_append_drop consumed b, htake, hb]
      rfl
    · intro x hx
      rcases List.mem_cons.mp hx with rfl | hx
      · exact hre
      · exact henc x hx
    · intro k hk x hx
      rcases List.mem_cons.mp hx with rfl | hx
      · exact hbefore k hk
      · exact (hbefore k hk).trans (hafter x hx)

/-- The bytes of a block under its entry. -/
theorem readBlock_block {o : FormatOptions} {content : Bytes} {e : IndexEntry} {g : List Record}
    (hb : (content.drop e.blockOffset).take e.blockSize = blockBytes g)
    (he : e.blockSize = blockSize g) (hf : BlockFits o g) (hasc : Ascending g) :
    readBlock o content e = .ok g := by
  have hlen := blockBytes_length g
  have hmany := length_le_blockPayload g
  have hsize := hf.size_le
  have hpos := List.length_pos_iff.mpr hf.ne_nil
  have hsizeEq : blockSize g = 20 + (blockPayload g).length := rfl
  generalize hc : crc32c (blockHeader g.length (blockPayload g).length ++ blockPayload g) = checksum
  have hc4 : checksum < 256 ^ 4 := hc ▸ crc32c_lt _
  simp only [maxUInt32, kWalHeaderSize] at hsize hmany
  have hbytes : blockBytes g = blockHeader g.length (blockPayload g).length ++
      (putFixed 4 checksum ++ blockPayload g) := by
    rw [← hc]
    rfl
  have htake : (blockBytes g).take 16 = blockHeader g.length (blockPayload g).length := by
    rw [hbytes]
    exact List.take_left' (by simp)
  have hdrop : (blockBytes g).drop kTableBlockHeaderSize = blockPayload g := by
    rw [hbytes, drop_past (by simp [kTableBlockHeaderSize]),
      drop_past (by simp [kTableBlockHeaderSize])]
    simp [kTableBlockHeaderSize]
  have hmagic : (blockBytes g).take 4 = kBlockMagic := by
    rw [hbytes, blockHeader, List.append_assoc]
    exact List.take_left' rfl
  have h1 : kTableBlockHeaderSize + (blockPayload g).length < 256 ^ 4 := by
    simp only [kTableBlockHeaderSize]
    omega
  have h2 : g.length < 256 ^ 4 := by omega
  have h3 : (blockPayload g).length < 256 ^ 4 := by omega
  have hm : kBlockMagic.length = 4 := rfl
  have hread : fieldAt (blockBytes g) 4 4 = blockSize g ∧ fieldAt (blockBytes g) 8 4 = g.length ∧
      fieldAt (blockBytes g) 12 4 = (blockPayload g).length ∧
      fieldAt (blockBytes g) 16 4 = checksum := by
    rw [hbytes, blockHeader, blockSize]
    simp only [List.append_assoc]
    simp (disch := first | assumption | simp [hm]) only [fieldAt_append, fieldAt_zero, hm,
      putFixed_length, Nat.reduceSub, Nat.sub_self, and_self]
  obtain ⟨r1, r2, r3, r4⟩ := hread
  rw [readBlock_eq]
  dsimp only
  rw [hb, he, hlen, if_neg (by simp), hmagic, if_neg (by simp), r1, r2, r3, r4, htake, hdrop, hc,
    if_neg]
  · exact readBlockRecords_payload hf.encodes hasc (by simp)
  · simp only [kTableBlockHeaderSize, kWalHeaderSize, hsizeEq]
    omega

/-- The bytes of a block that `ReadBlock` reads. -/
def blockIn (content : Bytes) (e : IndexEntry) : Bytes := (content.drop e.blockOffset).take e.blockSize

/-- The checks of `ReadBlock` in front of `records->reserve`. -/
def blockChecks (content : Bytes) (e : IndexEntry) : Bool :=
  let block := blockIn content e
  block.length = e.blockSize ∧ block.take 4 = kBlockMagic ∧ fieldAt block 4 4 = e.blockSize ∧
  fieldAt block 8 4 ≠ 0 ∧ fieldAt block 12 4 = block.length - kTableBlockHeaderSize ∧
  fieldAt block 8 4 ≤ fieldAt block 12 4 / kWalHeaderSize ∧
  crc32c (block.take 16 ++ block.drop kTableBlockHeaderSize) = fieldAt block 16 4

/-- Behind its checks `ReadBlock` goes on to the records. -/
theorem readBlock_of_checks (o : FormatOptions) {content : Bytes} {e : IndexEntry}
    (h : blockChecks content e = true) : readBlock o content e =
      readBlockRecords o 0 (fieldAt (blockIn content e) 8 4) none
        ((blockIn content e).drop kTableBlockHeaderSize) := by
  obtain ⟨h1, h2, h3, h4, h5, h6, h7⟩ := of_decide_eq_true h
  rw [readBlock_eq]
  rw [← blockIn]
  dsimp only
  rw [if_neg (not_not.mpr h1), if_neg (not_not.mpr h2), if_neg]
  rintro (h | h | h | h | h)
  · exact h h3
  · exact h4 h
  · exact h h5
  · omega
  · exact h h7

/-- A block that is accepted has passed the checks. -/
theorem blockChecks_of_ok {o : FormatOptions} {content : Bytes} {e : IndexEntry} {g : List Record}
    (h : readBlock o content e = .ok g) : blockChecks content e = true := by
  rw [readBlock_eq] at h
  rw [← blockIn] at h
  dsimp only at h
  obtain ⟨h1, h⟩ := ite_error_eq_ok.mp h
  obtain ⟨h2, h⟩ := ite_error_eq_ok.mp h
  obtain ⟨h3, h⟩ := ite_error_eq_ok.mp h
  simp only [not_or, not_not, not_lt] at h1 h2 h3
  exact decide_eq_true ⟨h1, h2, h3⟩

/-- Whatever is accepted as a block is one. -/
theorem readBlock_ok {o : FormatOptions} {content : Bytes} {e : IndexEntry} {g : List Record}
    (h : readBlock o content e = .ok g) :
    g ≠ [] ∧ e.blockSize = blockSize g ∧ (∀ r ∈ g, r.Encodes o) ∧ Ascending g := by
  have hc := blockChecks_of_ok h
  rw [readBlock_of_checks o hc] at h
  obtain ⟨hlen, -, -, hcount, hpayload, hroom, -⟩ := of_decide_eq_true hc
  obtain ⟨hn, hb, henc, hasc, -⟩ := readBlockRecords_ok h
  have hpos : 0 < g.length := by omega
  have hmany := length_le_blockPayload g
  refine ⟨List.length_pos_iff.mp hpos, ?_, henc, hasc⟩
  have hdrop := congrArg List.length hb
  rw [List.length_drop, hlen] at hdrop
  simp only [kWalHeaderSize] at hmany
  rw [blockSize, ← hdrop]
  omega

end MiniKV
