import Mathlib.Data.List.Lex
import Mathlib.Data.Fin.Basic
import Mathlib.Order.Fin.Basic
import Mathlib.Algebra.Order.Ring.Rat

/-!
# Status codes, options and records

The vocabulary of `status.hpp`, `options.hpp`, `memtable.hpp` and `wal.hpp`.
Byte strings are lists of bytes under their lexicographic order, which is the
unsigned bytewise order `std::string` compares with. Counters of 64 bits are
natural numbers; every place where the source guards a counter against its
limit keeps that guard, against the constants below.
-/

namespace MiniKV

abbrev Byte := Fin 256

/-- The instance behind byte literals. -/
instance byteNeZero : @NeZero Nat Zero.ofOfNat0 256 := ⟨by decide⟩

abbrev Bytes := List Byte

/-- Largest value of `std::uint64_t`, also of the 64-bit `std::size_t`. -/
def maxUInt64 : Nat := 2 ^ 64 - 1

/-- Largest value of `std::uint32_t`. -/
def maxUInt32 : Nat := 2 ^ 32 - 1

/-! ## Status -/

inductive StatusCode where
  | ok | notFound | incomplete | invalidArgument | ioError | corruption | versionMismatch | closed
  deriving DecidableEq, Repr

/-- `StatusCodeName` -/
def StatusCode.name : StatusCode → String
  | .ok => "OK"
  | .notFound => "NotFound"
  | .incomplete => "Incomplete"
  | .invalidArgument => "InvalidArgument"
  | .ioError => "IOError"
  | .corruption => "Corruption"
  | .versionMismatch => "VersionMismatch"
  | .closed => "Closed"

structure Status where
  code : StatusCode
  message : String
  deriving DecidableEq, Repr

namespace Status

def ok : Status := ⟨.ok, ""⟩
def notFound (message : String) : Status := ⟨.notFound, message⟩
def incomplete (message : String) : Status := ⟨.incomplete, message⟩
def invalidArgument (message : String) : Status := ⟨.invalidArgument, message⟩
def ioError (message : String) : Status := ⟨.ioError, message⟩
def corruption (message : String) : Status := ⟨.corruption, message⟩
def versionMismatch (message : String) : Status := ⟨.versionMismatch, message⟩
def closed (message : String) : Status := ⟨.closed, message⟩

/-- `Status::ok()`: only the code counts. -/
def isOk (s : Status) : Bool := s.code = .ok

def isNotFound (s : Status) : Bool := s.code = .notFound

def isIncomplete (s : Status) : Bool := s.code = .incomplete

/-- `Status::ToString` -/
def toString (s : Status) : String :=
  if s.message.isEmpty then s.code.name else s.code.name ++ ": " ++ s.message

@[simp] theorem isOk_ok : ok.isOk = true := rfl
@[simp] theorem isOk_notFound (m : String) : (notFound m).isOk = false := rfl
@[simp] theorem isOk_invalidArgument (m : String) : (invalidArgument m).isOk = false := rfl
@[simp] theorem isOk_ioError (m : String) : (ioError m).isOk = false := rfl
@[simp] theorem isOk_corruption (m : String) : (corruption m).isOk = false := rfl
@[simp] theorem isOk_closed (m : String) : (closed m).isOk = false := rfl
@[simp] theorem isNotFound_ok : ok.isNotFound = false := rfl
@[simp] theorem isNotFound_notFound (m : String) : (notFound m).isNotFound = true := rfl
@[simp] theorem isNotFound_invalidArgument (m : String) :
    (invalidArgument m).isNotFound = false := rfl

end Status

section

variable {α : Type} {c : Prop} [Decidable c] {e e' : Status} {x : Except Status α} {a : α}

/-- Who gets past a check has passed it. -/
theorem ite_error_eq_ok : (if c then .error e else x) = .ok a ↔ ¬ c ∧ x = .ok a := by
  by_cases h : c
  · rw [if_pos h]
    exact iff_of_false (fun he => by cases he) (fun hn => hn.1 h)
  · rw [if_neg h]
    exact ⟨fun hx => ⟨h, hx⟩, And.right⟩

/-- An error is that of a check, or comes after it. -/
@[elab_as_elim]
theorem of_ite_error {P : Status → Prop} (h : (if c then .error e' else x) = .error e) (he : P e')
    (hx : ¬ c → x = .error e → P e) : P e := by
  by_cases hc : c
  · rw [if_pos hc] at h
    rw [← Except.error.inj h]
    exact he
  · rw [if_neg hc] at h
    exact hx hc h

theorem toOption_eq_some : x.toOption = some a ↔ x = .ok a := by
  cases x <;> simp [Except.toOption]

end

/-! ## Options -/

/-- A `double`, as far as the option checks look at one. -/
inductive Double where
  | finite (value : Rat)
  | infinite (negative : Bool)
  | nan
  deriving DecidableEq

/-- `std::isfinite(x) && x > 0.0 && x < 1.0` -/
def Double.isProbability : Double → Bool
  | .finite value => 0 < value ∧ value < 1
  | _ => false

/-- The options that decide what the file formats accept. -/
structure FormatOptions where
  maxKeySize : Nat := 64 * 1024
  maxValueSize : Nat := 4 * 1024 * 1024
  sstableBlockSize : Nat := 4 * 1024
  bloomFilterEnabled : Bool := true
  bloomFalsePositiveRate : Double := .finite (1 / 100)

structure Options extends FormatOptions where
  memtableSizeLimit : Nat := 4 * 1024 * 1024
  compactionOutputSizeLimit : Nat := 2 * 1024 * 1024
  maximumScanEntries : Nat := 1000
  backgroundMaintenance : Bool := false
  level0CompactionTrigger : Nat := 4

def kWalHeaderSize : Nat := 32
def kTableBlockHeaderSize : Nat := 20

/-- The option checks at the head of `Database::OpenWithEnvironment`. -/
def Options.accepted (o : Options) : Bool :=
  o.memtableSizeLimit ≠ 0 ∧ o.compactionOutputSizeLimit ≠ 0 ∧ o.level0CompactionTrigger ≠ 0 ∧
  o.maximumScanEntries ≠ 0 ∧ o.maximumScanEntries < maxUInt32 ∧
  o.maxKeySize ≠ 0 ∧ o.maxKeySize ≤ maxUInt32 ∧ o.maxValueSize ≤ maxUInt32 ∧
  o.maxValueSize ≤ maxUInt32 - kWalHeaderSize ∧
  o.maxKeySize ≤ maxUInt32 - kWalHeaderSize - o.maxValueSize ∧
  kTableBlockHeaderSize + kWalHeaderSize ≤ o.sstableBlockSize ∧
  o.sstableBlockSize ≤ maxUInt32 - kTableBlockHeaderSize ∧
  o.bloomFalsePositiveRate.isProbability

/-! ## Records -/

inductive ValueType where
  | value | deletion
  deriving DecidableEq, Repr

/-- A value of the enumeration's type need not be one of its two constants; no call takes
another one. -/
inductive SyncMode where
  | sync | async | invalid
  deriving DecidableEq, Repr

/-- `MemTableRecord` and `WalRecord`, which have the same four fields. -/
structure Record where
  key : Bytes
  sequence : Nat
  type : ValueType
  value : Bytes
  deriving DecidableEq, Repr

/-- What a read shows of a record: a tombstone shows nothing. -/
def Record.visible (r : Record) : Option Bytes :=
  match r.type with
  | .value => some r.value
  | .deletion => none

structure LookupResult where
  status : Status
  sequence : Nat := 0
  type : ValueType := .value
  value : Bytes := []
  deriving DecidableEq, Repr

def LookupResult.deleted (r : LookupResult) : Bool := r.status.isOk ∧ r.type = .deletion

/-- `sizeof(std::uint64_t) + sizeof(ValueType)` -/
def kRecordMetadataSize : Nat := 9

/-- `MemTable::EncodedPayloadSize` and `ApproximateRecordSize`. -/
def encodedPayloadSize (key value : Bytes) : Nat :=
  kRecordMetadataSize + key.length + value.length

def Record.payloadSize (r : Record) : Nat := encodedPayloadSize r.key r.value

/-! ## Validation of log records -/

/-- `ValidateLengths` of `wal.cpp`. -/
def validateLengths (o : FormatOptions) (keySize valueSize : Nat) (type : ValueType) : Status :=
  if keySize = 0 then .invalidArgument "WAL key must not be empty"
  else if o.maxKeySize < keySize then
    .invalidArgument "WAL key exceeds configured maximum size"
  else if o.maxValueSize < valueSize then
    .invalidArgument "WAL value exceeds configured maximum size"
  else if maxUInt32 < keySize ∨ maxUInt32 < valueSize then
    .invalidArgument "WAL key or value cannot fit in the file format"
  else if type = .deletion ∧ valueSize ≠ 0 then
    .invalidArgument "WAL deletion record must not contain a value"
  else .ok

/-- `ValidateWalRecord`. The record types of the model are the known ones. -/
def validateWalRecord (o : FormatOptions) (r : Record) : Status :=
  if r.sequence = 0 then .invalidArgument "WAL sequence number must be greater than zero"
  else validateLengths o r.key.length r.value.length r.type

/-- The records `ValidateWalRecord` accepts. -/
structure Record.Valid (o : FormatOptions) (r : Record) : Prop where
  sequence_pos : 0 < r.sequence
  key_pos : 0 < r.key.length
  key_le : r.key.length ≤ o.maxKeySize
  value_le : r.value.length ≤ o.maxValueSize
  key_word : r.key.length ≤ maxUInt32
  value_word : r.value.length ≤ maxUInt32
  deletion : r.type = .deletion → r.value = []

theorem validateLengths_isOk {o : FormatOptions} {k v : Nat} {t : ValueType} :
    (validateLengths o k v t).isOk = true ↔
      0 < k ∧ k ≤ o.maxKeySize ∧ v ≤ o.maxValueSize ∧ k ≤ maxUInt32 ∧ v ≤ maxUInt32 ∧
        (t = .deletion → v = 0) := by
  unfold validateLengths
  split
  · rename_i h; simp [h]
  split
  · rename_i h; simp; omega
  split
  · rename_i h; simp; omega
  split
  · rename_i h; simp; omega
  split
  · rename_i h; simp [h.1, h.2]
  · rename_i h
    simp only [Status.isOk_ok, true_iff]
    refine ⟨by omega, by omega, by omega, by omega, by omega, ?_⟩
    intro ht
    by_contra hv
    exact h ⟨ht, hv⟩

theorem validateWalRecord_isOk {o : FormatOptions} {r : Record} :
    (validateWalRecord o r).isOk = true ↔ r.Valid o := by
  unfold validateWalRecord
  split
  · rename_i h
    constructor
    · intro hk; simp at hk
    · intro hv; exact absurd h (Nat.pos_iff_ne_zero.mp hv.sequence_pos)
  · rename_i h
    rw [validateLengths_isOk]
    constructor
    · rintro ⟨h1, h2, h3, h4, h5, h6⟩
      exact ⟨Nat.pos_of_ne_zero h, h1, h2, h3, h4, h5, fun ht => List.length_eq_zero_iff.mp (h6 ht)⟩
    · rintro ⟨_, h1, h2, h3, h4, h5, h6⟩
      exact ⟨h1, h2, h3, h4, h5, fun ht => List.length_eq_zero_iff.mpr (h6 ht)⟩

/-- A record is refused with `InvalidArgument`. -/
theorem validateWalRecord_code (o : FormatOptions) (r : Record) :
    (validateWalRecord o r).isOk = true ∨ (validateWalRecord o r).code = .invalidArgument := by
  unfold validateWalRecord validateLengths
  split_ifs <;> first | exact Or.inl rfl | exact Or.inr rfl

/-- Options that `Open` accepts bound the size of every record they admit. -/
theorem Record.Valid.size_le {o : Options} (ho : o.accepted = true) {r : Record}
    (h : r.Valid o.toFormatOptions) :
    kWalHeaderSize + r.key.length + r.value.length ≤ maxUInt32 := by
  simp only [Options.accepted, decide_eq_true_eq] at ho
  obtain ⟨-, -, -, -, -, -, -, -, hv, hk, -⟩ := ho
  have h1 := h.key_le
  have h2 := h.value_le
  simp only [kWalHeaderSize, maxUInt32] at hv hk ⊢
  omega

end MiniKV
