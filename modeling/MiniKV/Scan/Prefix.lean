import MiniKV.Scan.Pages
import MiniKV.Lib.Interval

/-!
# Prefix scans

The keys that start with a prefix are those from the prefix on, up to the bound that
`PrefixUpperBound` finds. A prefix scan is the scan of this range: its checks accept
it, and its pages list the keys that start with the prefix, as long as every token
fits.
-/

namespace MiniKV

open Lib

/-! ## The bound -/

/-- The loop of `PrefixUpperBound`, which looks for a byte that can grow from the last one
backwards. -/
def prefixUpperBoundLoop (upper : Bytes) : Nat → Option Bytes
  | 0 => none
  | offset + 1 =>
    match upper[offset]? with
    | none => none
    | some byte =>
      if byte.val ≠ 255 then some ((upper.set offset (byte + 1)).take (offset + 1))
      else prefixUpperBoundLoop upper offset

theorem prefixUpperBoundLoop_succ {upper : Bytes} {offset : Nat} (h : offset < upper.length) :
    prefixUpperBoundLoop upper (offset + 1) =
      if (upper[offset]).val ≠ 255 then some ((upper.set offset (upper[offset] + 1)).take (offset + 1))
      else prefixUpperBoundLoop upper offset := by
  rw [prefixUpperBoundLoop, List.getElem?_eq_getElem h]

/-- A byte in front of the others is the last one that the loop looks at. -/
theorem prefixUpperBoundLoop_cons (b : Byte) (upper : Bytes) {offset : Nat}
    (h : offset ≤ upper.length) :
    prefixUpperBoundLoop (b :: upper) (offset + 1) =
      match prefixUpperBoundLoop upper offset with
      | some u => some (b :: u)
      | none => if b.val < 255 then some [b + 1] else none := by
  induction offset with
  | zero =>
    have hb : b.val ≠ 255 ↔ b.val < 255 := by omega
    simp only [prefixUpperBoundLoop, List.getElem?_cons_zero, hb]
    rfl
  | succ n ih =>
    rw [prefixUpperBoundLoop_succ h,
      prefixUpperBoundLoop_succ (show n + 1 < (b :: upper).length from Nat.succ_lt_succ h),
      List.getElem_cons_succ]
    by_cases hbyte : (upper[n]).val ≠ 255
    · rw [if_pos hbyte, if_pos hbyte]
      rfl
    · rw [if_neg hbyte, if_neg hbyte]
      exact ih (by omega)

/-- The bound is what the loop finds. -/
theorem prefixUpperBound_eq_loop (p : Bytes) :
    prefixUpperBound p = prefixUpperBoundLoop p p.length := by
  induction p with
  | nil => rfl
  | cons b rest ih =>
    have hstep := prefixUpperBoundLoop_cons b rest (le_refl rest.length)
    rw [← ih] at hstep
    exact hstep.symm

/-- The byte that follows a byte. -/
def nextByte (b : Byte) : Option Byte := if b.val < 255 then some (b + 1) else none

theorem nextByte_isNext : IsNext nextByte where
  lt_iff := by
    intro a b h c
    unfold nextByte at h
    split at h
    · rename_i ha
      obtain rfl := Option.some.inj h
      have hval : (a + 1).val = a.val + 1 := Fin.val_add_one_of_lt' (by omega)
      rw [Fin.lt_def, Fin.le_def, hval]
      omega
    · cases h
  greatest := by
    intro a h c
    unfold nextByte at h
    split at h
    · cases h
    · rw [Fin.le_def]
      omega

theorem prefixUpperBound_eq (p : Bytes) : prefixUpperBound p = intervalEnd nextByte p := by
  induction p with
  | nil => rfl
  | cons b rest ih =>
    rw [prefixUpperBound, intervalEnd, ih]
    cases intervalEnd nextByte rest with
    | some u => rfl
    | none =>
      dsimp only
      rw [nextByte]
      split <;> rfl

/-! ## The range -/

/-- The range that `ScanPrefix` scans. -/
def prefixBounds (p : Bytes) : ScanBounds := ⟨p, prefixUpperBound p⟩

theorem prefixBounds_contains (p key : Bytes) :
    (prefixBounds p).contains key = true ↔ p <+: key := by
  rw [← nextByte_isNext.between_iff, ← prefixUpperBound_eq, ScanBounds.contains,
    Bool.and_eq_true, decide_eq_true_eq]
  refine and_congr_right (fun _ => ?_)
  rw [ScanBounds.beforeEnd, prefixBounds]
  cases prefixUpperBound p with
  | none => simp
  | some u => simp

theorem prefixUpperBound_spec {p u : Bytes} (h : prefixUpperBound p = some u) :
    p < u ∧ u.length ≤ p.length := by
  rw [prefixUpperBound_eq] at h
  exact ⟨nextByte_isNext.lt_intervalEnd h, length_intervalEnd_le h⟩

theorem prefixBounds_valid {o : Options} {p : Bytes} (h : p.length ≤ o.maxKeySize) :
    (prefixBounds p).Valid o where
  first_le := h
  last_le := by
    rw [prefixBounds]
    cases hu : prefixUpperBound p with
    | none => exact Nat.zero_le _
    | some u => exact (prefixUpperBound_spec hu).2.trans h
  forward := by
    intro u hu
    exact (prefixUpperBound_spec hu).1.le

/-! ## The scan -/

/-- The pages of a prefix scan, one call after the other with the token of the last page. -/
def Database.scanPrefixPages (db : Database) (keyPrefix : Bytes) :
    List Nat → Bytes → Except Status (List ScanPage)
  | [], _ => .ok []
  | limit :: limits, token =>
    match db.scanPrefix keyPrefix limit token with
    | .error e => .error e
    | .ok page =>
      if page.truncated then
        match scanPrefixPages db keyPrefix limits page.continuationToken with
        | .error e => .error e
        | .ok pages => .ok (page :: pages)
      else .ok [page]

theorem Database.scanPrefixPages_eq (db : Database) (p : Bytes) (limits : List Nat) (token : Bytes) :
    db.scanPrefixPages p limits token = db.scanPages (prefixBounds p) limits token := by
  induction limits generalizing token with
  | nil => rfl
  | cons limit limits ih =>
    rw [scanPrefixPages, scanPages, funext ih]
    rfl

/-- A visible entry of the range is one of a key with the prefix. -/
theorem visible_prefixBounds {rs : List Record} {p : Bytes} {es : List ScanEntry} :
    Visible rs (prefixBounds p).contains es ↔ Visible rs (fun k => p.isPrefixOf k) es := by
  have hsame : (prefixBounds p).contains = fun k => p.isPrefixOf k := by
    funext k
    rw [Bool.eq_iff_iff, prefixBounds_contains, List.isPrefixOf_iff_prefix]
  rw [hsame]

/-- A key lies between a prefix and its bound exactly if it starts with the prefix, and the
bound is above the prefix and not longer. So a scan accepts the range of every prefix that
may be a key, and its pages list the keys that start with it. The one thing in the way is a
token that does not fit into its format. -/
theorem scanPrefix_exact_iff (p : Bytes) :
    (∀ key, (p ≤ key ∧ ∀ u ∈ prefixUpperBound p, key < u) ↔ p <+: key) ∧
    (∀ u ∈ prefixUpperBound p, p < u ∧ u.length ≤ p.length) ∧
    ∀ {db : Database}, ScanSnapshot db → p.length ≤ db.options.maxKeySize →
      (∀ {limit : Nat} (token : Bytes), 0 < limit → limit ≤ db.options.maximumScanEntries →
        db.scanPrefix p limit token = db.scanChecked (prefixBounds p) limit token) ∧
      ∀ {limits : List Nat}, (∀ l ∈ limits, 0 < l ∧ l ≤ db.options.maximumScanEntries) →
        ∃ es, Visible db.scanRecords (fun k => p.isPrefixOf k) es ∧
          ((∃ pages, db.scanPrefixPages p limits [] = .ok pages ∧ Paginates es limits pages ∧
              (es.length < limits.length → pages.flatMap ScanPage.entries = es)) ↔
            TokensFit (prefixBounds p) es limits) := by
  refine ⟨fun key => ?_, fun u hu => prefixUpperBound_spec hu, fun {db} h hp =>
    ⟨fun token hpos hmax => ?_, fun {limits} hlimits => ?_⟩⟩
  · rw [prefixUpperBound_eq]
    exact nextByte_isNext.between_iff p key
  · exact db.scan_valid h.running (prefixBounds_valid hp) hpos hmax token
  · obtain ⟨es, hvisible, hresumes⟩ := resumes_start h (prefixBounds_valid hp)
    refine ⟨es, visible_prefixBounds.mp hvisible, ?_⟩
    rw [← hresumes.scanPages_iff h (prefixBounds_valid hp) hlimits, db.scanPrefixPages_eq]
    constructor
    · rintro ⟨pages, hok, hpages, -⟩
      exact ⟨pages, hok, hpages⟩
    · rintro ⟨pages, hok, hpages⟩
      exact ⟨pages, hok, hpages, fun hmany =>
        hpages.flatMap_eq (fun l hl => (hlimits l hl).1) hmany⟩

/-- Both keys start with the prefix and come on a page each. -/
theorem scanPrefix_overwritten : ∃ pages,
    (overwritten {}).scanPrefixPages [1] [1, 1, 1] [] = .ok pages ∧
      pages.flatMap ScanPage.entries = [⟨[1], [7]⟩, ⟨[1, 1], [6]⟩] := by
  have h : ScanSnapshot (overwritten {}) := overwritten_snapshot (by decide +kernel) (by decide)
  have hlength : [1].length ≤ (overwritten {}).options.maxKeySize := by decide
  obtain ⟨es, hvisible, hpages⟩ := ((scanPrefix_exact_iff [1]).2.2 h hlength).2
    (by decide : ∀ l ∈ [1, 1, 1], 0 < l ∧ l ≤ 1000)
  rw [hvisible.unique (overwritten_visible _ (by decide) (by decide))] at hpages
  obtain ⟨pages, hok, -, hall⟩ := hpages.mpr (TokensFit.of_keys (by decide) (by decide :
    ∀ e ∈ [ScanEntry.mk [1] [7], ⟨[1, 1], [6]⟩], e.key.length ≤ 2) _)
  exact ⟨pages, hok, hall (by decide)⟩

/-! ## A prefix that is too long to resume -/

/-- A database with two keys that start with `p`, both in the Mutable MemTable. -/
def sharing (o : Options) (p : Bytes) : Database where
  options := o
  version := ⟨1, 1, 1, []⟩
  mutableTable := (MemTable.empty.insert ⟨p ++ [0], 1, .value, [6]⟩).insert ⟨p, 2, .value, [5]⟩
  mutableGeneration := 2
  wal := none
  immutable := none
  tables := []
  lastSequence := 2

theorem lt_append_zero (p : Bytes) : p < p ++ [0] := by
  have hle : p ≤ p ++ [0] := ((nextByte_isNext.between_iff p _).mpr (List.prefix_append p _)).1
  refine lt_of_le_of_ne hle (fun heq => ?_)
  have hlen := congrArg List.length heq
  rw [List.length_append, List.length_singleton] at hlen
  omega

theorem sharing_scanRecords (o : Options) (p : Bytes) : (sharing o p).scanRecords =
    [⟨p, 2, .value, [5]⟩, ⟨p ++ [0], 1, .value, [6]⟩] := by
  have hentries : upsert ⟨p, 2, .value, [5]⟩ [⟨p ++ [0], 1, .value, [6]⟩] =
      [⟨p, 2, .value, [5]⟩, ⟨p ++ [0], 1, .value, [6]⟩] := by
    rw [upsert, if_pos (lt_append_zero p)]
  exact (congrArg (· ++ []) hentries).trans (List.append_nil _)

theorem sharing_snapshot {o : Options} (ho : o.accepted = true) {p : Bytes} (hne : p ≠ [])
    (hp : p.length < o.maxKeySize) : ScanSnapshot (sharing o p) where
  accepted := ho
  running := rfl
  ascending := nofun
  between := nofun
  keys := by
    intro r hr
    rw [sharing_scanRecords, List.mem_cons, List.mem_singleton] at hr
    rcases hr with rfl | rfl
    · exact ⟨hne, hp.le⟩
    · refine ⟨by simp, ?_⟩
      rw [List.length_append]
      exact hp
  distinct := by
    rw [sharing_scanRecords, DistinctRecords, Distinct]
    simp
  version_word := show 1 ≤ maxUInt64 by decide
  sequence_word := show 2 ≤ maxUInt64 by decide

theorem sharing_visible (o : Options) (p : Bytes) {es : List ScanEntry}
    (h : Visible (sharing o p).scanRecords (fun k => p.isPrefixOf k) es) :
    ⟨p, [5]⟩ ∈ es ∧ ⟨p ++ [0], [6]⟩ ∈ es := by
  rw [sharing_scanRecords] at h
  constructor
  · refine (h.mem _).mpr ⟨by simp, ⟨p, 2, .value, [5]⟩, ⟨by simp, rfl, ?_⟩, rfl, rfl⟩
    simp
  · refine (h.mem _).mpr ⟨by simp, ⟨p ++ [0], 1, .value, [6]⟩, ⟨by simp, rfl, ?_⟩, rfl, rfl⟩
    simp

theorem prefixUpperBound_zeros (n : Nat) :
    ∃ u, prefixUpperBound (List.replicate (n + 1) 0) = some u ∧ u.length = n + 1 := by
  induction n with
  | zero => exact ⟨[1], by decide, rfl⟩
  | succ n ih =>
    obtain ⟨u, hu, hlen⟩ := ih
    refine ⟨0 :: u, ?_, by rw [List.length_cons, hlen]⟩
    rw [List.replicate_succ, prefixUpperBound, hu]

theorem one_lt_length {es : List ScanEntry} {a b : ScanEntry} (ha : a ∈ es) (hb : b ∈ es)
    (hne : a ≠ b) : 1 < es.length := by
  by_contra hle
  cases es with
  | nil => cases ha
  | cons e rest =>
    have hnil : rest = [] := by
      rw [List.length_cons] at hle
      exact List.length_eq_zero_iff.mp (by omega)
    rw [hnil, List.mem_singleton] at ha hb
    exact hne (ha.trans hb.symm)

/-- Options with room for two keys of two gigabytes in the Mutable MemTable, and pages of one
entry. -/
def hugeKeyOptions : Options :=
  { maxKeySize := 2 ^ 31, memtableSizeLimit := 2 ^ 33, maximumScanEntries := 1 }

/-- A prefix that fills half of what fits into a token. -/
def longPrefix : Bytes := List.replicate (2 ^ 31 - 1) 0

theorem length_longPrefix : longPrefix.length = 2 ^ 31 - 1 := by
  rw [longPrefix, List.length_replicate]

/-- No token of such a range fits: the prefix and its bound alone are too long. -/
theorem zeros_tokenSize {n : Nat} (hn : 2 ^ 31 ≤ n + 2) (key : Bytes) :
    maxUInt32 < scanTokenSize (prefixBounds (List.replicate (n + 1) 0)) key := by
  obtain ⟨u, hu, hlen⟩ := prefixUpperBound_zeros n
  rw [scanTokenSize, prefixBounds, hu, Option.getD_some, List.length_replicate, hlen, maxUInt32,
    kScanTokenHeaderSize]
  omega

theorem longPrefix_eq : ∃ n, 2 ^ 31 = n + 2 ∧ longPrefix = List.replicate (n + 1) 0 := by
  refine ⟨2 ^ 31 - 2, by decide, ?_⟩
  exact congrArg (fun n => List.replicate n 0) (by decide : 2 ^ 31 - 1 = 2 ^ 31 - 2 + 1)

/-- Two keys start with the prefix, a page takes one, and its token does not fit: every call
fails, whatever limit it has. -/
theorem scanPrefixPages_longPrefix : longPrefix.length ≤ hugeKeyOptions.maxKeySize ∧
    ScanSnapshot (sharing hugeKeyOptions longPrefix) ∧
      ∃ es, Visible (sharing hugeKeyOptions longPrefix).scanRecords
          (fun k => longPrefix.isPrefixOf k) es ∧
        ⟨longPrefix, [5]⟩ ∈ es ∧ ⟨longPrefix ++ [0], [6]⟩ ∈ es ∧
        ∀ limit limits, 0 < limit → limit ≤ hugeKeyOptions.maximumScanEntries →
          ∃ e, (sharing hugeKeyOptions longPrefix).scanPrefixPages longPrefix
            (limit :: limits) [] = .error e := by
  have hlength : longPrefix.length < hugeKeyOptions.maxKeySize := by
    rw [length_longPrefix]
    decide
  have hne : longPrefix ≠ [] := by
    rw [← List.length_pos_iff, length_longPrefix]
    decide
  have h := sharing_snapshot (by decide +kernel : hugeKeyOptions.accepted = true) hne hlength
  have hvalid : (prefixBounds longPrefix).Valid hugeKeyOptions := prefixBounds_valid hlength.le
  obtain ⟨es, hvisible, hresumes⟩ := resumes_start h hvalid
  have hentries := sharing_visible _ _ (visible_prefixBounds.mp hvisible)
  have htwo : 1 < es.length := one_lt_length hentries.1 hentries.2 (by simp)
  refine ⟨hlength.le, h, es, visible_prefixBounds.mp hvisible, hentries.1, hentries.2,
    fun limit limits hpos hmax => ?_⟩
  rw [Database.scanPrefixPages_eq]
  obtain ⟨n, hn, heq⟩ := longPrefix_eq
  have hsize := zeros_tokenSize hn.le (lastEntryKey (es.take limit))
  rw [← heq] at hsize
  exact hresumes.scanPages_error h hvalid hpos hmax (lt_of_le_of_lt hmax htwo) hsize limits

end MiniKV
