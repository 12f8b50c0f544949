import MiniKV.Codec.Coding
import MiniKV.Lib.Altered

/-!
# What the checksum detects

A bit of `ExtendCrc32c` is linear over exclusive or and loses nothing, since the
polynomial has its top bit set. So the register tells apart any two inputs of the
same length that differ in one byte. Up to four bytes are one word to it, so it
tells apart inputs that differ in a burst of that length as well.
-/

namespace MiniKV

open Lib

/-! ## The register -/

theorem crcBit_xor (x y : BitVec 32) : crcBit (x ^^^ y) = crcBit x ^^^ crcBit y := by
  unfold crcBit
  rw [BitVec.getLsbD_xor, BitVec.ushiftRight_xor_distrib]
  generalize (0x82F63B78#32 : BitVec 32) = p
  have hcancel : (x >>> 1 ^^^ p) ^^^ (y >>> 1 ^^^ p) = (x >>> 1 ^^^ y >>> 1) ^^^ (p ^^^ p) := by
    ac_rfl
  cases x.getLsbD 0 <;> cases y.getLsbD 0
  · simp
  · simp only [Bool.false_xor, Bool.false_eq_true, if_true, if_false, BitVec.xor_zero]
    ac_rfl
  · simp only [Bool.xor_false, Bool.false_eq_true, if_true, if_false, BitVec.xor_zero]
    ac_rfl
  · simp only [Bool.xor_true, Bool.not_true, Bool.false_eq_true, if_true, if_false]
    rw [hcancel, BitVec.xor_self]

/-- The top bit of the register is the bit that was shifted out. -/
theorem crcBit_top (x : BitVec 32) : (crcBit x).getLsbD 31 = x.getLsbD 0 := by
  have hshift : (x >>> 1).getLsbD 31 = false := by
    rw [BitVec.getLsbD_ushiftRight]
    exact BitVec.getLsbD_of_ge x 32 (le_refl _)
  unfold crcBit
  rw [BitVec.getLsbD_xor, hshift, Bool.false_xor]
  cases x.getLsbD 0 <;> rfl

theorem crcBit_eq_zero {x : BitVec 32} (h : crcBit x = 0#32) : x = 0#32 := by
  have hlow : x.getLsbD 0 = false := by
    rw [← crcBit_top, h]
    rfl
  have hshift : x >>> 1 = 0#32 := by
    rw [crcBit, hlow] at h
    simpa using h
  refine BitVec.eq_of_getLsbD_eq (fun i hi => ?_)
  cases i with
  | zero => exact hlow
  | succ i =>
    have hbit := congrArg (fun v => v.getLsbD i) hshift
    simp only [BitVec.getLsbD_ushiftRight] at hbit
    rw [Nat.add_comm, hbit]
    simp

theorem crcBit_injective : Function.Injective crcBit := by
  intro x y h
  have hzero : crcBit (x ^^^ y) = 0#32 := by
    rw [crcBit_xor, h, BitVec.xor_self]
  exact BitVec.xor_eq_zero_iff.mp (crcBit_eq_zero hzero)

theorem xor_right_injective (p : BitVec 32) : Function.Injective (· ^^^ p) := by
  intro x y h
  have h' : (x ^^^ p) ^^^ p = (y ^^^ p) ^^^ p := congrArg (· ^^^ p) h
  rwa [BitVec.xor_assoc, BitVec.xor_assoc, BitVec.xor_self, BitVec.xor_zero,
    BitVec.xor_zero] at h'

theorem crcByte_state_injective (b : Byte) : Function.Injective (crcByte · b) := by
  intro x y h
  exact xor_right_injective _ (crcBit_injective.iterate 8 h)

theorem byte_word_injective : Function.Injective (fun b : Byte => BitVec.ofNat 32 b.val) := by
  intro x y h
  have hn := congrArg BitVec.toNat h
  simp only [BitVec.toNat_ofNat] at hn
  exact Fin.ext (by omega)

theorem crcByte_injective (s : BitVec 32) : Function.Injective (crcByte s) := by
  intro x y h
  have hx := crcBit_injective.iterate 8 h
  rw [BitVec.xor_comm s, BitVec.xor_comm s] at hx
  exact byte_word_injective (xor_right_injective _ hx)

/-! ## Checksums -/

theorem not_toNat_injective : Function.Injective (fun x : BitVec 32 => (~~~ x).toNat) := by
  intro x y h
  have hnot : ~~~ x = ~~~ y := BitVec.eq_of_toNat_eq h
  rw [← BitVec.not_not (b := x), hnot, BitVec.not_not]

/-- One byte that is another one changes the checksum. -/
theorem crc32c_ne {b b' : Bytes} (h : Altered b b') : crc32c b ≠ crc32c b' := by
  intro he
  exact h.foldl_ne crcByte_state_injective crcByte_injective _ (not_toNat_injective he)

/-! ## Bursts -/

theorem crcBit_iterate_xor (n : Nat) (x y : BitVec 32) :
    crcBit^[n] (x ^^^ y) = crcBit^[n] x ^^^ crcBit^[n] y := by
  induction n generalizing x y with
  | zero => rfl
  | succ n ih => rw [Function.iterate_succ_apply, crcBit_xor, ih, Function.iterate_succ_apply,
      Function.iterate_succ_apply]

/-- A clear low bit is only shifted out. -/
theorem crcBit_even {v : Nat} (h : 2 * v < 2 ^ 32) :
    crcBit (BitVec.ofNat 32 (2 * v)) = BitVec.ofNat 32 v := by
  have hlow : (BitVec.ofNat 32 (2 * v)).getLsbD 0 = false := by
    rw [BitVec.getLsbD_ofNat, Nat.testBit_zero]
    simp
  rw [crcBit, hlow, if_neg Bool.false_ne_true, BitVec.xor_zero]
  refine BitVec.eq_of_toNat_eq ?_
  rw [BitVec.toNat_ushiftRight, BitVec.toNat_ofNat, BitVec.toNat_ofNat, Nat.mod_eq_of_lt h,
    Nat.mod_eq_of_lt (by omega), Nat.shiftRight_eq_div_pow]
  omega

/-- A word above clear bits moves down to them. -/
theorem crcBit_iterate_shifted {n v : Nat} (h : 2 ^ n * v < 2 ^ 32) :
    crcBit^[n] (BitVec.ofNat 32 (2 ^ n * v)) = BitVec.ofNat 32 v := by
  induction n generalizing v with
  | zero => rw [pow_zero, one_mul, Function.iterate_zero_apply]
  | succ n ih =>
    rw [pow_succ, mul_assoc, mul_left_comm] at h ⊢
    rw [Function.iterate_succ_apply, crcBit_even h]
    exact ih (by omega)

/-- A byte and the word above it share no bit. -/
theorem ofNat_byte_add (b : Byte) (v : Nat) : BitVec.ofNat 32 (b.val + 256 * v) =
    BitVec.ofNat 32 b.val ^^^ BitVec.ofNat 32 (256 * v) := by
  have hsum : b.val + 256 * v = 2 ^ 8 * v + b.val := by omega
  have hmul : 256 * v = 2 ^ 8 * v + 0 := by omega
  refine BitVec.eq_of_getLsbD_eq (fun i hi => ?_)
  rw [BitVec.getLsbD_xor, BitVec.getLsbD_ofNat, BitVec.getLsbD_ofNat, BitVec.getLsbD_ofNat, hsum,
    hmul, Nat.testBit_two_pow_mul_add _ b.isLt, Nat.testBit_two_pow_mul_add _ (by decide)]
  split
  · simp
  · rename_i hhigh
    have hpow : 2 ^ 8 ≤ 2 ^ i := Nat.pow_le_pow_right (by decide) (not_lt.mp hhigh)
    have hbyte : b.val.testBit i = false := Nat.testBit_lt_two_pow (lt_of_lt_of_le b.isLt hpow)
    simp [hbyte]

/-- To the register up to four bytes are the word they encode. -/
theorem extendCrc32c_word (s : BitVec 32) {x : Bytes} (h : x.length ≤ 4) :
    extendCrc32c s x = crcBit^[8 * x.length] (s ^^^ BitVec.ofNat 32 (fixedValue x)) := by
  rw [extendCrc32c]
  induction x generalizing s with
  | nil => simp [fixedValue]
  | cons b x ih =>
    rw [List.length_cons] at h ⊢
    have hlt : 2 ^ 8 * fixedValue x < 2 ^ 32 := by
      have hx := fixedValue_lt x
      have hpow : 256 ^ x.length ≤ 256 ^ 3 := Nat.pow_le_pow_right (by decide) (by omega)
      omega
    have hmoved := crcBit_iterate_shifted hlt
    have hlen : 8 * (x.length + 1) = 8 * x.length + 8 := by omega
    rw [List.foldl_cons, ih _ (by omega), hlen, Function.iterate_add_apply, fixedValue,
      ofNat_byte_add, ← BitVec.xor_assoc, crcBit_iterate_xor 8, crcByte]
    congr 2
    exact hmoved.symm

theorem extendCrc32c_injective (s : BitVec 32) {x x' : Bytes} (hlen : x.length = x'.length)
    (hle : x.length ≤ 4) (h : extendCrc32c s x = extendCrc32c s x') : x = x' := by
  rw [extendCrc32c_word s hle, extendCrc32c_word s (hlen ▸ hle), hlen] at h
  have hword : s ^^^ BitVec.ofNat 32 (fixedValue x) = s ^^^ BitVec.ofNat 32 (fixedValue x') :=
    crcBit_injective.iterate _ h
  rw [BitVec.xor_comm s, BitVec.xor_comm s] at hword
  have hvalue := congrArg BitVec.toNat (xor_right_injective s hword)
  have hsmall : ∀ y : Bytes, y.length ≤ 4 → fixedValue y < 2 ^ 32 := by
    intro y hy
    have hy' := fixedValue_lt y
    have hpow : 256 ^ y.length ≤ 256 ^ 4 := Nat.pow_le_pow_right (by decide) hy
    omega
  rw [BitVec.toNat_ofNat, BitVec.toNat_ofNat, Nat.mod_eq_of_lt (hsmall x hle),
    Nat.mod_eq_of_lt (hsmall x' (hlen ▸ hle))] at hvalue
  rw [← putFixed_fixedValue x, hvalue, hlen, putFixed_fixedValue]

/-- Differences within four bytes change the checksum. -/
theorem crc32c_burst {b b' : Bytes} (hlen : b.length = b'.length) (hne : b ≠ b')
    {start width : Nat} (hwidth : width ≤ 4)
    (h : ∀ i, b[i]? ≠ b'[i]? → start ≤ i ∧ i < start + width) : crc32c b ≠ crc32c b' := by
  obtain ⟨p, x, x', s, rfl, rfl, hx, hle⟩ := exists_window hlen h
  intro he
  have hstate := not_toNat_injective he
  simp only [extendCrc32c, List.foldl_append] at hstate
  have hburst := foldl_injective crcByte_state_injective s hstate
  exact hne (by rw [extendCrc32c_injective _ hx (hle.trans hwidth) hburst])

theorem crc32c_burst_three : crc32c [1, 2, 3, 4, 5, 6] ≠ crc32c [1, 9, 3, 8, 5, 6] := by
  have hwindow : ∀ i : Nat, ([1, 2, 3, 4, 5, 6] : Bytes)[i]? ≠
      ([1, 9, 3, 8, 5, 6] : Bytes)[i]? → 1 ≤ i ∧ i < 1 + 3 := by
    intro i hi
    match i with
    | 0 => exact absurd rfl hi
    | 1 | 2 | 3 => decide
    | 4 | 5 => exact absurd rfl hi
    | n + 6 => exact absurd rfl hi
  exact crc32c_burst rfl (by decide) (by decide) hwindow

/-- Two parts with their checksum between them, and then bytes that are fixed: no change
of one byte gives such bytes again. -/
theorem checksummed_not_altered {p p' s s' : Bytes} (z : Bytes) (hlen : p.length = p'.length) :
    ¬ Altered (p ++ (putFixed 4 (crc32c (p ++ s)) ++ (z ++ s)))
      (p' ++ (putFixed 4 (crc32c (p' ++ s')) ++ (z ++ s'))) := by
  intro h
  rcases h.append_inv hlen with ⟨hp, hrest⟩ | ⟨rfl, hrest⟩
  · obtain ⟨hcrc, hs⟩ := List.append_inj hrest (by simp)
    rw [List.append_cancel_left hs] at hcrc
    exact crc32c_ne (hp.append_right s') (putFixed_inj (crc32c_lt _) (crc32c_lt _) hcrc)
  · rcases hrest.append_inv (by simp) with ⟨hcrc, hs⟩ | ⟨hcrc, hs⟩
    · rw [List.append_cancel_left hs] at hcrc
      exact hcrc.ne rfl
    · rcases hs.append_inv rfl with ⟨hz, -⟩ | ⟨-, hs⟩
      · exact hz.ne rfl
      · exact crc32c_ne (hs.append_left p) (putFixed_inj (crc32c_lt _) (crc32c_lt _) hcrc)

/-- The check of a checksum between two parts finds every change of one byte. -/
theorem checksum_altered {p s x : Bytes}
    (h : Altered (p ++ (putFixed 4 (crc32c (p ++ s)) ++ s)) x) :
    crc32c (x.take p.length ++ x.drop (p.length + 4)) ≠ fieldAt x p.length 4 := by
  intro hc
  have hlen : x.length = p.length + (4 + s.length) := by
    rw [h.length_eq]
    simp
  have hx : x = x.take p.length ++ (putFixed 4 (fieldAt x p.length 4) ++
      ([] ++ x.drop (p.length + 4))) := by
    rw [List.nil_append, ← drop_eq_field 4 (by omega), List.take_append_drop]
  rw [← hc] at hx
  rw [hx] at h
  exact checksummed_not_altered [] (by rw [List.length_take]; omega) h

/-- Bytes that name their own size are not the front of longer ones that do. -/
theorem eq_of_size_field {p b : Bytes} {offset width : Nat} (hp : p <+: b)
    (hfield : offset + width ≤ p.length) (hsize : fieldAt p offset width = p.length)
    (hsize' : fieldAt b offset width = b.length) : p = b := by
  obtain ⟨s, rfl⟩ := hp
  have hsame : fieldAt (p ++ s) offset width = fieldAt p offset width := by
    rw [fieldAt, fieldAt, List.drop_append_of_le_length (by omega),
      List.take_append_of_le_length (by rw [List.length_drop]; omega)]
  rw [hsame, hsize, List.length_append] at hsize'
  have hnil : s = [] := List.length_eq_zero_iff.mp (by omega)
  rw [hnil, List.append_nil]

end MiniKV
