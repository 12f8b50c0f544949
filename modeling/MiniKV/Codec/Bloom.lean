import MiniKV.Codec.Coding

/-!
# Bloom filters

`bloom_filter.cpp`, from a filter's shape on. The shape itself, bits and hash
functions for a number of keys and a rate, comes out of floating-point
arithmetic and is a parameter of the table format.
-/

namespace MiniKV

def kBloomMagic : Bytes := [77, 75, 66, 70]
def kBloomFilterFormatVersion : Byte := 1
def kBloomFilterHeaderSize : Nat := 32
def kMaximumBloomFilterSize : Nat := 64 * 1024 * 1024
def kMaximumBloomHashCount : Nat := 30

structure BloomFilter where
  bitCount : Nat := 0
  keyCount : Nat := 0
  hashCount : Nat := 0
  bits : Bytes := []
  deriving DecidableEq, Repr

def bloomCorruption (message : String) : Status := .corruption ("bloom filter: " ++ message)

/-- `FinalizeHash64` -/
def finalizeHash64 (hash : BitVec 64) : BitVec 64 :=
  let hash := hash ^^^ (hash >>> 33)
  let hash := hash * 0xff51afd7ed558ccd#64
  let hash := hash ^^^ (hash >>> 33)
  let hash := hash * 0xc4ceb9fe1a85ec53#64
  hash ^^^ (hash >>> 33)

/-- One of the two hashes of `BloomHashes`, from its seed. -/
def bloomHash (seed : BitVec 64) (key : Bytes) : BitVec 64 :=
  finalizeHash64 (key.foldl (fun h b => (h ^^^ BitVec.ofNat 64 b.val) * 1099511628211#64)
    (14695981039346656037#64 ^^^ seed))

/-- The positions a key sets and is looked for at. -/
def bloomPositions (bitCount hashCount : Nat) (key : Bytes) : List Nat :=
  let first := bloomHash 0x9e3779b97f4a7c15#64 key
  let second := bloomHash 0xd6e8feb86659fd93#64 key ||| 1#64
  (List.range hashCount).map (fun i => (first + BitVec.ofNat 64 i * second).toNat % bitCount)

def bitMask (position : Nat) : Nat := 2 ^ (position % 8)

def setBit (bits : Bytes) (position : Nat) : Bytes :=
  bits.modify (position / 8) (fun b => Fin.ofNat 256 (b.val ||| bitMask position))

def getBit (bits : Bytes) (position : Nat) : Bool :=
  (bits.getD (position / 8) 0).val &&& bitMask position ≠ 0

namespace BloomFilter

/-- `FilterShapeIsValid` -/
def shapeIsValid (f : BloomFilter) : Bool :=
  if f.bitCount = 0 then f.hashCount = 0 ∧ f.keyCount = 0 ∧ f.bits.length = 0
  else f.bitCount % 8 = 0 ∧ f.bitCount / 8 = f.bits.length ∧ 0 < f.hashCount ∧
    f.hashCount ≤ kMaximumBloomHashCount ∧ f.bits.length ≤ kMaximumBloomFilterSize

/-- A filter of a given shape with no key in it. -/
def ofShape (bitCount hashCount : Nat) : BloomFilter where
  bitCount := bitCount
  hashCount := hashCount
  bits := List.replicate (bitCount / 8) 0

/-- `BloomFilter::Add` -/
def add (f : BloomFilter) (key : Bytes) : Except Status BloomFilter :=
  if !f.shapeIsValid ∨ f.bitCount = 0 then
    .error (.invalidArgument "Bloom filter has no allocated bit array")
  else if f.keyCount = maxUInt64 then
    .error (.invalidArgument "Bloom filter key count is exhausted")
  else .ok { f with
    bits := (bloomPositions f.bitCount f.hashCount key).foldl setBit f.bits
    keyCount := f.keyCount + 1 }

/-- `BloomFilter::MayContain` -/
def mayContain (f : BloomFilter) (key : Bytes) : Bool :=
  if !f.shapeIsValid ∨ f.bitCount = 0 ∨ f.keyCount = 0 then false
  else (bloomPositions f.bitCount f.hashCount key).all (getBit f.bits)

/-- The header up to the checksum. -/
def header (f : BloomFilter) : Bytes :=
  kBloomMagic ++ ([kBloomFilterFormatVersion] ++ ([Fin.ofNat 256 f.hashCount] ++
    (putFixed 2 kBloomFilterHeaderSize ++ (putFixed 4 (kBloomFilterHeaderSize + f.bits.length) ++
      (putFixed 8 f.bitCount ++ putFixed 8 f.keyCount)))))

end BloomFilter

/-- `EncodeBloomFilter` -/
def encodeBloomFilter (f : BloomFilter) : Except Status Bytes :=
  if !f.shapeIsValid then .error (.invalidArgument "Bloom filter shape is invalid")
  else if maxUInt32 < kBloomFilterHeaderSize + f.bits.length ∨ maxUInt64 < f.keyCount then
    .error (.invalidArgument "Bloom encoding exceeds format limits")
  else .ok (f.header ++ (putFixed 4 (crc32c (f.header ++ f.bits)) ++ f.bits))

/-- `DecodeBloomFilter` -/
def decodeBloomFilter (encoded : Bytes) : Except Status BloomFilter :=
  if encoded.length < kBloomFilterHeaderSize ∨
      kBloomFilterHeaderSize + kMaximumBloomFilterSize < encoded.length then
    .error (bloomCorruption "encoded size is outside format limits")
  else if encoded.take 4 ≠ kBloomMagic ∨ encoded.getD 4 0 ≠ kBloomFilterFormatVersion then
    .error (bloomCorruption "magic or format version is unsupported")
  else
    let hashCount := (encoded.getD 5 0).val
    let bitCount := fieldAt encoded 12 8
    let keyCount := fieldAt encoded 20 8
    let payload := encoded.drop kBloomFilterHeaderSize
    if fieldAt encoded 6 2 ≠ kBloomFilterHeaderSize ∨ fieldAt encoded 8 4 ≠ encoded.length ∨
        crc32c (encoded.take 28 ++ payload) ≠ fieldAt encoded 28 4 then
      .error (bloomCorruption "header fields or checksum are invalid")
    else if bitCount = 0 then
      if hashCount ≠ 0 ∨ keyCount ≠ 0 ∨ payload.length ≠ 0 then
        .error (bloomCorruption "empty filter fields are inconsistent")
      else .ok {}
    else if bitCount % 8 ≠ 0 ∨ bitCount / 8 ≠ payload.length ∨ hashCount = 0 ∨
        kMaximumBloomHashCount < hashCount then
      .error (bloomCorruption "bit array or hash count is invalid")
    else .ok { bitCount := bitCount, keyCount := keyCount, hashCount := hashCount, bits := payload }

/-! ## Bits -/

@[simp] theorem setBit_length (bits : Bytes) (position : Nat) :
    (setBit bits position).length = bits.length := by simp [setBit]

theorem getBit_eq_testBit (bits : Bytes) (position : Nat) :
    getBit bits position = (bits.getD (position / 8) 0).val.testBit (position % 8) := by
  rw [getBit, bitMask, Bool.eq_iff_iff, decide_eq_true_eq]
  generalize (bits.getD (position / 8) 0).val = x
  generalize position % 8 = i
  constructor
  · intro h
    by_contra hb
    refine h (Nat.eq_of_testBit_eq fun j => ?_)
    rw [Nat.testBit_and, Nat.testBit_two_pow, Nat.zero_testBit]
    by_cases hj : i = j
    · subst hj
      simpa using hb
    · simp [hj]
  · intro h h0
    have hbit := congrArg (fun n => n.testBit i) h0
    simp [Nat.testBit_and, h] at hbit

theorem setBit_getD {bits : Bytes} {position : Nat} (h : position / 8 < bits.length) (i : Nat) :
    ((setBit bits position).getD i 0).val =
      if i = position / 8 then (bits.getD i 0).val ||| bitMask position
      else (bits.getD i 0).val := by
  have hmask : bitMask position < 2 ^ 8 := Nat.pow_lt_pow_right (by omega) (Nat.mod_lt _ (by omega))
  rw [setBit, List.getD_eq_getElem?_getD, List.getD_eq_getElem?_getD, List.getElem?_modify]
  by_cases hi : i = position / 8
  · subst hi
    have hb : ∀ b : Byte, b.val ||| bitMask position < 2 ^ 8 := fun b =>
      Nat.or_lt_two_pow b.isLt hmask
    simp [List.getElem?_eq_getElem h]
    exact hb _
  · have hne : ¬ position / 8 = i := fun h => hi h.symm
    simp [hi, hne]

theorem getBit_setBit {bits : Bytes} {position : Nat} (h : position / 8 < bits.length) (p : Nat) :
    getBit (setBit bits position) p = (getBit bits p || decide (p = position)) := by
  rw [getBit_eq_testBit, getBit_eq_testBit, setBit_getD h]
  split
  · rename_i hi
    rw [Nat.testBit_or, bitMask, Nat.testBit_two_pow]
    congr 1
    rw [decide_eq_decide]
    omega
  · rename_i hi
    have hne : ¬ p = position := fun he => hi (by rw [he])
    simp [hne]

theorem foldl_setBit_length (positions : List Nat) (bits : Bytes) :
    (positions.foldl setBit bits).length = bits.length := by
  induction positions generalizing bits with
  | nil => rfl
  | cons p ps ih => rw [List.foldl_cons, ih, setBit_length]

theorem getBit_foldl_setBit {positions : List Nat} {bits : Bytes}
    (h : ∀ p ∈ positions, p / 8 < bits.length) (p : Nat) :
    getBit (positions.foldl setBit bits) p = (getBit bits p || decide (p ∈ positions)) := by
  induction positions generalizing bits with
  | nil => simp
  | cons x xs ih =>
    have hx := h x List.mem_cons_self
    rw [List.foldl_cons, ih (fun y hy => by
      rw [setBit_length]
      exact h y (List.mem_cons_of_mem _ hy)), getBit_setBit hx, Bool.or_assoc]
    simp [List.mem_cons]

/-! ## Adding and looking up -/

namespace BloomFilter

theorem shapeIsValid_iff {f : BloomFilter} (h : f.bitCount ≠ 0) :
    f.shapeIsValid = true ↔ f.bitCount % 8 = 0 ∧ f.bitCount / 8 = f.bits.length ∧
      0 < f.hashCount ∧ f.hashCount ≤ kMaximumBloomHashCount ∧
        f.bits.length ≤ kMaximumBloomFilterSize := by
  simp [shapeIsValid, h]

theorem bloomPositions_lt {bitCount : Nat} (h : 0 < bitCount) (hashCount : Nat) (key : Bytes) :
    ∀ p ∈ bloomPositions bitCount hashCount key, p < bitCount := by
  intro p hp
  simp only [bloomPositions, List.mem_map] at hp
  obtain ⟨i, -, rfl⟩ := hp
  exact Nat.mod_lt _ h

theorem position_lt {f : BloomFilter} (hs : f.shapeIsValid = true) (h : f.bitCount ≠ 0)
    {key : Bytes} {p : Nat} (hp : p ∈ bloomPositions f.bitCount f.hashCount key) :
    p / 8 < f.bits.length := by
  obtain ⟨h8, hlen, -⟩ := (shapeIsValid_iff h).mp hs
  have hlt := bloomPositions_lt (Nat.pos_of_ne_zero h) _ key p hp
  omega

/-- The filter once a key is in it. -/
def insert (f : BloomFilter) (key : Bytes) : BloomFilter :=
  { f with
    bits := (bloomPositions f.bitCount f.hashCount key).foldl setBit f.bits
    keyCount := f.keyCount + 1 }

theorem add_eq_ok {f g : BloomFilter} {key : Bytes} :
    f.add key = .ok g ↔ f.shapeIsValid = true ∧ f.bitCount ≠ 0 ∧ f.keyCount ≠ maxUInt64 ∧
      g = f.insert key := by
  unfold add
  split
  · rename_i h
    constructor
    · intro hg
      cases hg
    · intro hg
      rcases h with h | h
      · rw [hg.1] at h
        cases h
      · exact absurd h hg.2.1
  rename_i h
  rw [not_or, Bool.not_eq_true', Bool.not_eq_false] at h
  split
  · rename_i hk
    constructor
    · intro hg
      cases hg
    · intro hg
      exact absurd hk hg.2.2.1
  rename_i hk
  constructor
  · intro hg
    exact ⟨h.1, h.2, hk, (Except.ok.inj hg).symm⟩
  · intro hg
    rw [hg.2.2.2]
    rfl

@[simp] theorem insert_bitCount (f : BloomFilter) (key : Bytes) :
    (f.insert key).bitCount = f.bitCount := rfl

@[simp] theorem insert_hashCount (f : BloomFilter) (key : Bytes) :
    (f.insert key).hashCount = f.hashCount := rfl

@[simp] theorem insert_keyCount (f : BloomFilter) (key : Bytes) :
    (f.insert key).keyCount = f.keyCount + 1 := rfl

@[simp] theorem insert_bits_length (f : BloomFilter) (key : Bytes) :
    (f.insert key).bits.length = f.bits.length := foldl_setBit_length _ _

theorem insert_shapeIsValid {f : BloomFilter} (h : f.bitCount ≠ 0) (key : Bytes) :
    (f.insert key).shapeIsValid = f.shapeIsValid := by
  simp [shapeIsValid, h]

theorem mayContain_iff {f : BloomFilter} (hs : f.shapeIsValid = true) (h : f.bitCount ≠ 0)
    (hk : f.keyCount ≠ 0) {key : Bytes} :
    f.mayContain key = true ↔
      ∀ p ∈ bloomPositions f.bitCount f.hashCount key, getBit f.bits p = true := by
  simp [mayContain, hs, h, hk]

/-- A key that was added is found. -/
theorem mayContain_insert_self {f : BloomFilter} (hs : f.shapeIsValid = true)
    (h : f.bitCount ≠ 0) (key : Bytes) : (f.insert key).mayContain key = true := by
  have hs' : (f.insert key).shapeIsValid = true := by rw [insert_shapeIsValid h, hs]
  rw [mayContain_iff hs' h (by simp)]
  intro p hp
  have hbits := getBit_foldl_setBit
    (fun q (hq : q ∈ bloomPositions f.bitCount f.hashCount key) => position_lt hs h hq) p
  simp only [insert_bitCount, insert_hashCount] at hp
  rw [insert, hbits, decide_eq_true hp, Bool.or_true]

/-- Adding a key loses none. -/
theorem mayContain_insert_of {f : BloomFilter} (hs : f.shapeIsValid = true)
    (h : f.bitCount ≠ 0) {key other : Bytes} (hm : f.mayContain other = true) :
    (f.insert key).mayContain other = true := by
  have hk : f.keyCount ≠ 0 := by
    intro h0
    simp [mayContain, h0] at hm
  have hs' : (f.insert key).shapeIsValid = true := by rw [insert_shapeIsValid h, hs]
  rw [mayContain_iff hs' h (by simp)]
  intro p hp
  have hold := (mayContain_iff hs h hk).mp hm p hp
  have hbits := getBit_foldl_setBit
    (fun q (hq : q ∈ bloomPositions f.bitCount f.hashCount key) => position_lt hs h hq) p
  rw [insert, hbits, hold, Bool.true_or]

end BloomFilter

/-! ## The encoding -/

@[simp] theorem BloomFilter.header_length (f : BloomFilter) : f.header.length = 28 := by
  simp [BloomFilter.header, kBloomMagic]

/-- The filters that have an encoding, and the encoding. -/
theorem encodeBloomFilter_eq_ok {f : BloomFilter} {b : Bytes} :
    encodeBloomFilter f = .ok b ↔ f.shapeIsValid = true ∧
      kBloomFilterHeaderSize + f.bits.length ≤ maxUInt32 ∧ f.keyCount ≤ maxUInt64 ∧
      b = f.header ++ (putFixed 4 (crc32c (f.header ++ f.bits)) ++ f.bits) := by
  unfold encodeBloomFilter
  split
  · rename_i h
    constructor
    · intro hb
      cases hb
    · intro hb
      rw [hb.1] at h
      cases h
  rename_i h
  split
  · rename_i hl
    constructor
    · intro hb
      cases hb
    · intro hb
      omega
  rename_i hl
  constructor
  · intro hb
    exact ⟨by simpa using h, by omega, by omega, (Except.ok.inj hb).symm⟩
  · intro hb
    rw [hb.2.2.2]

theorem BloomFilter.eq_empty {f : BloomFilter} (hs : f.shapeIsValid = true) (h : f.bitCount = 0) :
    f = {} := by
  simp only [shapeIsValid, h, if_true, decide_eq_true_eq] at hs
  obtain ⟨h1, h2, h3⟩ := hs
  have hbits := List.length_eq_zero_iff.mp h3
  cases f
  simp_all

theorem BloomFilter.sizes_le {f : BloomFilter} (hs : f.shapeIsValid = true) :
    f.hashCount ≤ kMaximumBloomHashCount ∧ f.bits.length ≤ kMaximumBloomFilterSize ∧
      f.bitCount = 8 * f.bits.length := by
  by_cases h : f.bitCount = 0
  · rw [BloomFilter.eq_empty hs h]
    simp
  · obtain ⟨h8, hlen, -, hh, hb⟩ := (shapeIsValid_iff h).mp hs
    exact ⟨hh, hb, by omega⟩

/-- What was encoded is decoded. -/
theorem decodeBloomFilter_encode {f : BloomFilter} {b : Bytes}
    (h : encodeBloomFilter f = .ok b) : decodeBloomFilter b = .ok f := by
  obtain ⟨hs, hsize, hkeys, hb⟩ := encodeBloomFilter_eq_ok.mp h
  obtain ⟨hhash, hbits, hcount⟩ := BloomFilter.sizes_le hs
  generalize hc : crc32c (f.header ++ f.bits) = checksum at hb
  have hc4 : checksum < 256 ^ 4 := hc ▸ crc32c_lt _
  simp only [kBloomFilterHeaderSize, maxUInt32, maxUInt64, kMaximumBloomHashCount,
    kMaximumBloomFilterSize] at hsize hkeys hhash hbits
  have hlen : b.length = kBloomFilterHeaderSize + f.bits.length := by
    simp only [hb, List.length_append, BloomFilter.header_length, putFixed_length,
      kBloomFilterHeaderSize]
    omega
  have hstart : b.take 28 = f.header := by
    rw [hb]
    exact List.take_left' (by simp)
  have hpayload : b.drop kBloomFilterHeaderSize = f.bits := by
    rw [hb, drop_past (by simp [kBloomFilterHeaderSize]),
      drop_past (by simp [kBloomFilterHeaderSize])]
    simp [kBloomFilterHeaderSize]
  simp only [BloomFilter.header, List.append_assoc] at hb
  have hmagic : b.take 4 = kBloomMagic := by
    rw [hb]
    exact List.take_left' rfl
  have hversion : b.getD 4 0 = kBloomFilterFormatVersion := by
    rw [hb]
    simp [kBloomMagic]
  have hhashByte : (b.getD 5 0).val = f.hashCount := by
    have hmod : f.hashCount % 256 = f.hashCount := Nat.mod_eq_of_lt (by omega)
    rw [hb]
    simp [kBloomMagic, hmod]
  have h1 : kBloomFilterHeaderSize < 256 ^ 2 := by decide
  have h2 : kBloomFilterHeaderSize + f.bits.length < 256 ^ 4 := by
    simp only [kBloomFilterHeaderSize]
    omega
  have h3 : f.bitCount < 256 ^ 8 := by omega
  have h4 : f.keyCount < 256 ^ 8 := by omega
  have hm : kBloomMagic.length = 4 := rfl
  have hread : fieldAt b 6 2 = kBloomFilterHeaderSize ∧
      fieldAt b 8 4 = kBloomFilterHeaderSize + f.bits.length ∧ fieldAt b 12 8 = f.bitCount ∧
      fieldAt b 20 8 = f.keyCount ∧ fieldAt b 28 4 = checksum := by
    rw [hb]
    simp (disch := first | assumption | simp [hm]) only [fieldAt_append, fieldAt_zero, hm,
      putFixed_length, List.length_singleton, Nat.reduceSub, Nat.sub_self, and_self]
  obtain ⟨r1, r2, r3, r4, r5⟩ := hread
  unfold decodeBloomFilter
  rw [if_neg, if_neg (by rw [hmagic, hversion]; simp)]
  · dsimp only
    rw [hhashByte, hpayload, hstart, hc, r1, r2, r3, r4, r5, hlen, if_neg (by simp)]
    by_cases h0 : f.bitCount = 0
    · rw [BloomFilter.eq_empty hs h0]
      rfl
    · obtain ⟨h8, hdiv, hpos, hle, -⟩ := (BloomFilter.shapeIsValid_iff h0).mp hs
      rw [if_neg h0, if_neg (by omega)]
  · rw [hlen]
    simp only [kBloomFilterHeaderSize, kMaximumBloomFilterSize]
    omega

/-- The fields of the bytes of a filter, as a filter. -/
def bloomFields (encoded : Bytes) : BloomFilter where
  bitCount := fieldAt encoded 12 8
  keyCount := fieldAt encoded 20 8
  hashCount := (encoded.getD 5 0).val
  bits := encoded.drop kBloomFilterHeaderSize

/-- Bytes with the fixed fields of a filter and a right checksum are those of their
fields. -/
theorem bytes_eq_bloomFields {b : Bytes} (hlen : kBloomFilterHeaderSize ≤ b.length)
    (hmagic : b.take 4 = kBloomMagic) (hversion : b.getD 4 0 = kBloomFilterFormatVersion)
    (hheader : fieldAt b 6 2 = kBloomFilterHeaderSize) (htotal : fieldAt b 8 4 = b.length)
    (hcrc : crc32c (b.take 28 ++ b.drop kBloomFilterHeaderSize) = fieldAt b 28 4) :
    b = (bloomFields b).header ++ (putFixed 4 (crc32c ((bloomFields b).header ++
      (bloomFields b).bits)) ++ (bloomFields b).bits) := by
  have hhash : Fin.ofNat 256 (bloomFields b).hashCount = b.getD 5 0 :=
    Fin.ext (Nat.mod_eq_of_lt (b.getD 5 0).isLt)
  have hsize : kBloomFilterHeaderSize + (bloomFields b).bits.length = b.length := by
    rw [bloomFields, List.length_drop]
    omega
  simp only [kBloomFilterHeaderSize] at hlen
  have hstart : b = (bloomFields b).header ++ b.drop 28 := by
    rw [BloomFilter.header, hhash, hsize, ← htotal, ← hheader, ← hversion, ← hmagic]
    simp only [bloomFields, List.append_assoc]
    conv_lhs => rw [← List.take_append_drop 4 b, drop_eq_byte (by omega), drop_eq_byte (by omega),
      drop_eq_field 2 (by omega), drop_eq_field 4 (by omega), drop_eq_field 8 (by omega),
      drop_eq_field 8 (by omega)]
  have htake : b.take 28 = (bloomFields b).header := by
    conv_lhs => rw [hstart]
    exact List.take_left' (BloomFilter.header_length _)
  have hbits : (bloomFields b).bits = b.drop 32 := rfl
  rw [hbits, ← htake]
  rw [kBloomFilterHeaderSize] at hcrc
  rw [hcrc]
  conv_lhs => rw [← List.take_append_drop 28 b, drop_eq_field 4 (by omega)]

/-- What is accepted is the encoding of the filter that is returned. -/
theorem decodeBloomFilter_ok {b : Bytes} {f : BloomFilter} (h : decodeBloomFilter b = .ok f) :
    encodeBloomFilter f = .ok b := by
  unfold decodeBloomFilter at h
  obtain ⟨hlen, h⟩ := ite_error_eq_ok.mp h
  obtain ⟨hstart, h⟩ := ite_error_eq_ok.mp h
  dsimp only at h
  obtain ⟨hfields, h⟩ := ite_error_eq_ok.mp h
  simp only [not_or, not_not, not_lt] at hlen hstart hfields
  have hbytes := bytes_eq_bloomFields hlen.1 hstart.1 hstart.2 hfields.1 hfields.2.1 hfields.2.2
  have hsize : kBloomFilterHeaderSize + (bloomFields b).bits.length = b.length := by
    rw [bloomFields, List.length_drop]
    omega
  have htotal := fieldAt_lt b 8 4
  have hkeys := fieldAt_lt b 20 8
  -- the empty filter is returned for fields that are all zero
  have hfilter : f = bloomFields b ∧ (bloomFields b).shapeIsValid = true := by
    split at h
    · rename_i h0
      obtain ⟨hzero, h⟩ := ite_error_eq_ok.mp h
      simp only [not_or, not_not] at hzero
      have hnil := List.length_eq_zero_iff.mp hzero.2.2
      have hempty : bloomFields b = {} := by
        rw [bloomFields, h0, hzero.1, hzero.2.1, hnil]
      rw [hempty]
      exact ⟨(Except.ok.inj h).symm, rfl⟩
    · rename_i h0
      obtain ⟨hshape, h⟩ := ite_error_eq_ok.mp h
      simp only [not_or, not_not, not_lt] at hshape
      refine ⟨(Except.ok.inj h).symm, (BloomFilter.shapeIsValid_iff h0).mpr ⟨hshape.1, hshape.2.1,
        Nat.pos_of_ne_zero hshape.2.2.1, hshape.2.2.2, ?_⟩⟩
      omega
  obtain ⟨rfl, hshape⟩ := hfilter
  refine encodeBloomFilter_eq_ok.mpr ⟨hshape, ?_, ?_, hbytes⟩
  · rw [hsize, ← hfields.2.1]
    simp only [maxUInt32]
    omega
  · simp only [bloomFields, maxUInt64]
    omega

theorem decodeBloomFilter_size {b : Bytes} {f : BloomFilter} (h : decodeBloomFilter b = .ok f) :
    kBloomFilterHeaderSize ≤ b.length ∧ fieldAt b 8 4 = b.length := by
  unfold decodeBloomFilter at h
  obtain ⟨hlen, h⟩ := ite_error_eq_ok.mp h
  obtain ⟨-, h⟩ := ite_error_eq_ok.mp h
  dsimp only at h
  obtain ⟨hfields, h⟩ := ite_error_eq_ok.mp h
  simp only [not_or, not_not, not_lt] at hlen hfields
  exact ⟨hlen.1, hfields.2.1⟩

theorem decodeBloomFilter_error {b : Bytes} {e : Status} (h : decodeBloomFilter b = .error e) :
    e.isOk = false := by
  unfold decodeBloomFilter at h
  refine of_ite_error h rfl (fun _ h => ?_)
  refine of_ite_error h rfl (fun _ h => ?_)
  dsimp only at h
  refine of_ite_error h rfl (fun _ h => ?_)
  split at h
  · refine of_ite_error h rfl (fun _ h => ?_)
    · cases h
  refine of_ite_error h rfl (fun _ h => ?_)
  · cases h

/-! ## Filters in use -/

namespace BloomFilter

/-- A bit count and a number of hash functions that a filter may have. -/
structure ShapeValid (bitCount hashCount : Nat) : Prop where
  bits_pos : 0 < bitCount
  bits_whole : bitCount % 8 = 0
  bits_le : bitCount / 8 ≤ kMaximumBloomFilterSize
  hashes_pos : 0 < hashCount
  hashes_le : hashCount ≤ kMaximumBloomHashCount

/-- The filters that a zeroed one becomes when keys are added, with any number of round
trips through the encoding between them, and the keys. -/
inductive Built (bitCount hashCount : Nat) : List Bytes → BloomFilter → Prop
  | zeroed : Built bitCount hashCount [] (ofShape bitCount hashCount)
  | add {keys : List Bytes} {key : Bytes} {f g : BloomFilter} (h : Built bitCount hashCount keys f)
      (hadd : f.add key = .ok g) : Built bitCount hashCount (key :: keys) g
  | reload {keys : List Bytes} {b : Bytes} {f g : BloomFilter} (h : Built bitCount hashCount keys f)
      (henc : encodeBloomFilter f = .ok b) (hdec : decodeBloomFilter b = .ok g) :
      Built bitCount hashCount keys g

theorem ShapeValid.ofShape {bitCount hashCount : Nat} (h : ShapeValid bitCount hashCount) :
    (ofShape bitCount hashCount).shapeIsValid = true := by
  have hne : (BloomFilter.ofShape bitCount hashCount).bitCount ≠ 0 := h.bits_pos.ne'
  rw [shapeIsValid_iff hne]
  simp only [BloomFilter.ofShape, List.length_replicate]
  exact ⟨h.bits_whole, trivial, h.hashes_pos, h.hashes_le, h.bits_le⟩

/-- What every filter in use keeps. -/
structure InUse (keys : List Bytes) (f : BloomFilter) : Prop where
  shape : f.shapeIsValid = true
  allocated : f.bitCount ≠ 0
  keys_le : f.keyCount ≤ maxUInt64
  found : ∀ key ∈ keys, f.mayContain key = true

theorem InUse.add {keys : List Bytes} {key : Bytes} {f g : BloomFilter} (h : InUse keys f)
    (hadd : f.add key = .ok g) : InUse (key :: keys) g := by
  obtain ⟨hs, h0, hmax, rfl⟩ := add_eq_ok.mp hadd
  have hle := h.keys_le
  refine ⟨by rw [insert_shapeIsValid h0, hs], h0, by rw [insert_keyCount]; omega, ?_⟩
  intro other hother
  rcases List.mem_cons.mp hother with rfl | hother
  · exact mayContain_insert_self hs h0 other
  · exact mayContain_insert_of hs h0 (h.found other hother)

theorem Built.inUse {bitCount hashCount : Nat} (hv : ShapeValid bitCount hashCount)
    {keys : List Bytes} {f : BloomFilter} (h : Built bitCount hashCount keys f) :
    InUse keys f := by
  induction h with
  | zeroed =>
    exact ⟨hv.ofShape, hv.bits_pos.ne', Nat.zero_le _, fun key hkey => absurd hkey List.not_mem_nil⟩
  | add _ hadd ih => exact ih.add hadd
  | reload _ henc hdec ih =>
    rw [decodeBloomFilter_encode henc] at hdec
    rwa [← Except.ok.inj hdec]

/-- A filter in use can be written out. -/
theorem InUse.encodes {keys : List Bytes} {f : BloomFilter} (h : InUse keys f) :
    ∃ b, encodeBloomFilter f = .ok b := by
  have hbits := (sizes_le h.shape).2.1
  refine ⟨_, encodeBloomFilter_eq_ok.mpr ⟨h.shape, ?_, h.keys_le, rfl⟩⟩
  simp only [kMaximumBloomFilterSize] at hbits
  simp only [kBloomFilterHeaderSize, maxUInt32]
  omega

/-- A filter never forgets a key, in memory or on disk. -/
theorem bloomFilter_keeps :
    (∀ bitCount hashCount keys f, ShapeValid bitCount hashCount →
      Built bitCount hashCount keys f → (∀ key ∈ keys, f.mayContain key = true) ∧
        ∃ b, encodeBloomFilter f = .ok b ∧ decodeBloomFilter b = .ok f) ∧
    (∀ (f g : BloomFilter) (key other : Bytes), f.add key = .ok g →
      f.mayContain other = true → g.mayContain other = true) ∧
    (∀ f b, encodeBloomFilter f = .ok b → decodeBloomFilter b = .ok f) ∧
    (∀ b f, decodeBloomFilter b = .ok f → encodeBloomFilter f = .ok b) ∧
    (∀ bitCount hashCount key, 0 < bitCount →
      ∀ p ∈ bloomPositions bitCount hashCount key, p < bitCount) := by
  refine ⟨fun bitCount hashCount keys f hv hbuilt => ?_, fun f g key other hadd hm => ?_,
    fun f b h => decodeBloomFilter_encode h, fun b f h => decodeBloomFilter_ok h,
    fun bitCount hashCount key h => bloomPositions_lt h hashCount key⟩
  · have huse := hbuilt.inUse hv
    obtain ⟨b, hb⟩ := huse.encodes
    exact ⟨huse.found, b, hb, decodeBloomFilter_encode hb⟩
  · obtain ⟨hs, h0, -, rfl⟩ := add_eq_ok.mp hadd
    exact mayContain_insert_of hs h0 hm

end BloomFilter

end MiniKV
