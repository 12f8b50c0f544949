import MiniKV.Basic
import MiniKV.Lib.Report
import Mathlib.Data.List.TakeDrop

/-!
# Fixed-width integers and checksums

`coding.cpp`: little-endian integers of two, four and eight bytes, and CRC-32C.
Decoders report what they reserve: a container for as many elements as they
have read the number of.
-/

namespace MiniKV

/-- A call of `reserve`: the number of elements, the least size of one of them and the
bytes that they are to be decoded from. -/
structure Reservation where
  count : Nat
  elementSize : Nat
  available : Nat
  deriving DecidableEq, Repr

/-- The elements, at the smallest encoding they can have, fit into the bytes. -/
abbrev Reservation.Bounded (r : Reservation) : Prop := r.count * r.elementSize ≤ r.available

abbrev Decoder (α : Type) := Lib.Report Status Reservation α

/-- `PutFixed16`, `PutFixed32` and `PutFixed64`, by their number of bytes. -/
def putFixed : Nat → Nat → Bytes
  | 0, _ => []
  | n + 1, v => Fin.ofNat 256 v :: putFixed n (v / 256)

/-- The little-endian value of a byte string. -/
def fixedValue : Bytes → Nat
  | [] => 0
  | b :: bs => b.val + 256 * fixedValue bs

/-- `DecodeFixed` at an offset of a byte string that is long enough. -/
def fieldAt (b : Bytes) (offset width : Nat) : Nat := fixedValue ((b.drop offset).take width)

@[simp] theorem putFixed_length (n v : Nat) : (putFixed n v).length = n := by
  induction n generalizing v with
  | zero => rfl
  | succ n ih => simp [putFixed, ih]

theorem fixedValue_putFixed {n v : Nat} (h : v < 256 ^ n) : fixedValue (putFixed n v) = v := by
  induction n generalizing v with
  | zero =>
    have : v = 0 := by simpa using h
    simp [putFixed, fixedValue, this]
  | succ n ih =>
    have hd : v / 256 < 256 ^ n := by
      rw [Nat.div_lt_iff_lt_mul (by omega)]
      rwa [pow_succ] at h
    have hm : (Fin.ofNat 256 v).val = v % 256 := rfl
    rw [putFixed, fixedValue, ih hd, hm]
    omega

theorem putFixed_inj {n v w : Nat} (hv : v < 256 ^ n) (hw : w < 256 ^ n)
    (h : putFixed n v = putFixed n w) : v = w := by
  rw [← fixedValue_putFixed hv, h, fixedValue_putFixed hw]

theorem fixedValue_lt (b : Bytes) : fixedValue b < 256 ^ b.length := by
  induction b with
  | nil => simp [fixedValue]
  | cons x xs ih =>
    have hx := x.isLt
    rw [fixedValue, List.length_cons, pow_succ]
    omega

theorem fieldAt_lt (b : Bytes) (offset width : Nat) : fieldAt b offset width < 256 ^ width := by
  refine lt_of_lt_of_le (fixedValue_lt _) (Nat.pow_le_pow_right (by omega) ?_)
  simp

/-- A field that was put behind a known number of bytes is read back. -/
theorem fieldAt_putFixed {p s : Bytes} {width v : Nat} (hv : v < 256 ^ width) :
    fieldAt (p ++ (putFixed width v ++ s)) p.length width = v := by
  have ht : (putFixed width v ++ s).take width = putFixed width v := by
    rw [List.take_append_of_le_length (by simp), List.take_of_length_le (by simp)]
  rw [fieldAt, List.drop_left, ht, fixedValue_putFixed hv]

theorem drop_past {p s : Bytes} {offset : Nat} (h : p.length ≤ offset) :
    (p ++ s).drop offset = s.drop (offset - p.length) := by
  rw [List.drop_append, List.drop_eq_nil_of_le h, List.nil_append]

theorem fieldAt_append {p s : Bytes} {offset width : Nat} (h : p.length ≤ offset) :
    fieldAt (p ++ s) offset width = fieldAt s (offset - p.length) width := by
  rw [fieldAt, fieldAt, drop_past h]

theorem fieldAt_zero {s : Bytes} {width v : Nat} (hv : v < 256 ^ width) :
    fieldAt (putFixed width v ++ s) 0 width = v := fieldAt_putFixed (p := []) hv

/-- The bytes of a field are those that its value is put as. -/
theorem putFixed_fixedValue (b : Bytes) : putFixed b.length (fixedValue b) = b := by
  induction b with
  | nil => rfl
  | cons x xs ih =>
    have hx := x.isLt
    have hm : (x.val + 256 * fixedValue xs) % 256 = x.val := by omega
    have hd : (x.val + 256 * fixedValue xs) / 256 = fixedValue xs := by omega
    rw [List.length_cons, putFixed, fixedValue, hd, ih]
    congr 1
    exact Fin.ext hm

theorem drop_eq_field {b : Bytes} {offset : Nat} (width : Nat) (h : offset + width ≤ b.length) :
    b.drop offset = putFixed width (fieldAt b offset width) ++ b.drop (offset + width) := by
  have hlen : ((b.drop offset).take width).length = width := by
    rw [List.length_take, List.length_drop]
    omega
  have hput := putFixed_fixedValue ((b.drop offset).take width)
  rw [hlen] at hput
  rw [fieldAt, hput, ← List.drop_drop, List.take_append_drop]

theorem drop_eq_byte {b : Bytes} {offset : Nat} (h : offset < b.length) :
    b.drop offset = [b.getD offset 0] ++ b.drop (offset + 1) := by
  rw [List.drop_eq_getElem_cons h, List.getD_eq_getElem?_getD, List.getElem?_eq_getElem h]
  rfl

/-! ## CRC-32C -/

/-- One bit of `ExtendCrc32c`. -/
def crcBit (state : BitVec 32) : BitVec 32 :=
  (state >>> 1) ^^^ (if state.getLsbD 0 then 0x82F63B78#32 else 0#32)

def crcByte (state : BitVec 32) (byte : Byte) : BitVec 32 :=
  crcBit^[8] (state ^^^ BitVec.ofNat 32 byte.val)

/-- `ExtendCrc32c` -/
def extendCrc32c (state : BitVec 32) (data : Bytes) : BitVec 32 := data.foldl crcByte state

/-- `Crc32c` -/
def crc32c (data : Bytes) : Nat := (~~~ (extendCrc32c 0xFFFFFFFF#32 data)).toNat

theorem crc32c_lt (data : Bytes) : crc32c data < 256 ^ 4 := (~~~ (extendCrc32c _ data)).isLt

end MiniKV
