import MiniKV.Codec.Blocks
import MiniKV.Tables

/-!
# The regions of a table

The index lists the blocks in the order in which they fill the data region. The
walk over the index and the blocks that `SSTableReader::Open` makes accepts
every layout that `EncodeTable` writes, and nothing but such a layout.
-/

namespace MiniKV

/-! ## The sparse index -/

/-- The entries lie one behind the other and end at an offset. -/
def Contiguous : Nat → List IndexEntry → Nat → Prop
  | offset, [], last => offset = last
  | offset, e :: es, last => e.blockOffset = offset ∧ Contiguous (offset + e.blockSize) es last

/-- An entry that lies within the data region. -/
structure IndexEntry.Within (dataOffset dataSize : Nat) (e : IndexEntry) : Prop where
  header_le : kTableBlockHeaderSize ≤ e.blockSize
  offset_le : dataOffset ≤ e.blockOffset
  end_le : e.blockOffset + e.blockSize ≤ dataOffset + dataSize

@[simp] theorem encodeIndexEntry_length (e : IndexEntry) :
    (encodeIndexEntry e).length = kIndexEntryFixedSize + e.firstKey.length := by
  simp only [encodeIndexEntry, List.length_append, putFixed_length, kIndexEntryFixedSize]
  omega

/-- What the walk over the index checks about an entry by itself. -/
structure IndexEntry.Accepted (o : FormatOptions) (dataOffset dataSize : Nat) (e : IndexEntry) :
    Prop extends e.Within dataOffset dataSize where
  key_pos : 0 < e.firstKey.length
  key_le : e.firstKey.length ≤ o.maxKeySize
  key_word : e.firstKey.length ≤ maxUInt32
  size_le : e.blockSize ≤ maximumBlockSize o
  size_word : e.blockSize ≤ maxUInt32
  offset_word : e.blockOffset ≤ maxUInt64

theorem decodeIndexEntries_entry {o : FormatOptions} {dataOffset dataSize : Nat} {e : IndexEntry}
    (he : e.Accepted o dataOffset dataSize) {n : Nat} {previous : Option Bytes} {s : Bytes}
    (hprev : ∀ k ∈ previous, k < e.firstKey) :
    decodeIndexEntries o dataOffset dataSize (n + 1) previous e.blockOffset
        (encodeIndexEntry e ++ s) =
      match decodeIndexEntries o dataOffset dataSize n (some e.firstKey)
          (e.blockOffset + e.blockSize) s with
      | .error x => .error x
      | .ok (entries, rest, offset) => .ok (e :: entries, rest, offset) := by
  have hk := he.key_word
  have hs := he.size_word
  have ho := he.offset_word
  simp only [maxUInt32, maxUInt64] at hk hs ho
  have h1 : e.firstKey.length < 256 ^ 4 := by omega
  have h2 : e.blockOffset < 256 ^ 8 := by omega
  have h3 : e.blockSize < 256 ^ 4 := by omega
  have hread : fieldAt (encodeIndexEntry e ++ s) 0 4 = e.firstKey.length ∧
      fieldAt (encodeIndexEntry e ++ s) 4 8 = e.blockOffset ∧
      fieldAt (encodeIndexEntry e ++ s) 12 4 = e.blockSize := by
    simp only [encodeIndexEntry, List.append_assoc]
    simp (disch := first | assumption | simp) only [fieldAt_append, fieldAt_zero,
      putFixed_length, Nat.reduceSub, Nat.sub_self, and_self]
  obtain ⟨r1, r2, r3⟩ := hread
  have hkeys : (encodeIndexEntry e ++ s).drop kIndexEntryFixedSize = e.firstKey ++ s := by
    simp only [encodeIndexEntry, List.append_assoc, kIndexEntryFixedSize]
    simp (disch := simp) only [drop_past, putFixed_length, Nat.reduceSub, List.drop_zero]
  have hfirst : ¬ previous.any (fun k => e.firstKey ≤ k) = true := by
    rw [Option.any_eq_true]
    rintro ⟨k, hk, hle⟩
    exact absurd (of_decide_eq_true hle) (not_le.mpr (hprev k hk))
  have hpos := he.key_pos
  have hle := he.key_le
  have hheader := he.header_le
  have hmax := he.size_le
  have hoff := he.offset_le
  have hend := he.end_le
  rw [decodeIndexEntries, if_neg (by rw [List.length_append, encodeIndexEntry_length]; omega)]
  rw [r1, r2, r3, hkeys, if_neg (by rw [List.length_append]; omega), List.take_left, List.drop_left]
  exact if_neg hfirst

/-- The entries of a layout are read back. -/
theorem decodeIndexEntries_indexOf {o : FormatOptions} {dataOffset dataSize : Nat}
    {gs : List (List Record)} {offset : Nat} {previous : Option Bytes} {s : Bytes}
    (hacc : ∀ e ∈ indexOf offset gs, e.Accepted o dataOffset dataSize)
    (hasc : (indexOf offset gs).Pairwise (fun a b => a.firstKey < b.firstKey))
    (hprev : ∀ k ∈ previous, ∀ e ∈ indexOf offset gs, k < e.firstKey) :
    decodeIndexEntries o dataOffset dataSize gs.length previous offset
        ((indexOf offset gs).flatMap encodeIndexEntry ++ s) =
      .ok (indexOf offset gs, s, offset + (gs.flatMap blockBytes).length) := by
  induction gs generalizing offset previous with
  | nil => rfl
  | cons g gs ih =>
    rw [indexOf] at hacc hasc hprev ⊢
    obtain ⟨hlt, hasc'⟩ := List.pairwise_cons.mp hasc
    have hprev' : ∀ k ∈ some (firstKey g), ∀ e ∈ indexOf (offset + blockSize g) gs,
        k < e.firstKey := by
      intro k hk e he
      rw [← Option.some.inj hk]
      exact hlt e he
    have hrest := ih (fun e he => hacc e (List.mem_cons_of_mem _ he)) hasc' hprev'
    rw [List.flatMap_cons, List.append_assoc, List.length_cons,
      decodeIndexEntries_entry (hacc _ List.mem_cons_self)
        (fun k hk => hprev k hk _ List.mem_cons_self)]
    rw [hrest, List.flatMap_cons, List.length_append, blockBytes_length, Nat.add_assoc]

/-- The fixed fields of an entry are the bytes in front of its key. -/
theorem indexEntry_fields {b : Bytes} (h : kIndexEntryFixedSize ≤ b.length) :
    b = putFixed 4 (fieldAt b 0 4) ++ (putFixed 8 (fieldAt b 4 8) ++
      (putFixed 4 (fieldAt b 12 4) ++ b.drop kIndexEntryFixedSize)) := by
  have hsize : 12 + 4 ≤ b.length := h
  have hkeySize : 0 + 4 ≤ b.length := by omega
  have hoffset : 4 + 8 ≤ b.length := by omega
  calc b = b.drop 0 := rfl
    _ = putFixed 4 (fieldAt b 0 4) ++ b.drop 4 := drop_eq_field 4 hkeySize
    _ = putFixed 4 (fieldAt b 0 4) ++ (putFixed 8 (fieldAt b 4 8) ++ b.drop 12) :=
      congrArg _ (drop_eq_field 8 hoffset)
    _ = _ := congrArg _ (congrArg _ (drop_eq_field 4 hsize))

/-- An entry that is read from the front of an index. -/
structure IndexEntry.ReadFrom (o : FormatOptions) (dataOffset dataSize : Nat)
    (previous : Option Bytes) (expected : Nat) (b : Bytes) (e : IndexEntry) : Prop where
  fixed : kIndexEntryFixedSize ≤ b.length
  keySize_le : e.firstKey.length ≤ o.maxKeySize
  key_le : kIndexEntryFixedSize + e.firstKey.length ≤ b.length
  within : e.Within dataOffset dataSize
  size_le : e.blockSize ≤ maximumBlockSize o
  offset_eq : e.blockOffset = expected
  above : ∀ k ∈ previous, k < e.firstKey
  bytes : b = encodeIndexEntry e ++ b.drop (kIndexEntryFixedSize + e.firstKey.length)

/-- An index that is accepted has an entry in front of an index that is accepted. -/
theorem decodeIndexEntries_succ_ok {o : FormatOptions} {dataOffset dataSize n : Nat}
    {previous : Option Bytes} {expected last : Nat} {b rest : Bytes} {entries : List IndexEntry}
    (h : decodeIndexEntries o dataOffset dataSize (n + 1) previous expected b =
      .ok (entries, rest, last)) :
    ∃ e es, entries = e :: es ∧ e.ReadFrom o dataOffset dataSize previous expected b ∧
      decodeIndexEntries o dataOffset dataSize n (some e.firstKey) (expected + e.blockSize)
        (b.drop (kIndexEntryFixedSize + e.firstKey.length)) = .ok (es, rest, last) := by
  rw [decodeIndexEntries] at h
  obtain ⟨hfixed, h⟩ := ite_error_eq_ok.mp h
  dsimp only at h
  obtain ⟨hbounds, h⟩ := ite_error_eq_ok.mp h
  obtain ⟨hfirst, h⟩ := ite_error_eq_ok.mp h
  split at h
  · cases h
  rename_i es rest' last' hes
  simp only [Except.ok.injEq, Prod.mk.injEq] at h
  obtain ⟨rfl, rfl, rfl⟩ := h
  simp only [not_or, not_lt, not_not] at hfixed hbounds
  obtain ⟨-, hkey, hkeys, hheader, hsize, hoffset, hlow, hhigh⟩ := hbounds
  have hlength : ((b.drop kIndexEntryFixedSize).take (fieldAt b 0 4)).length = fieldAt b 0 4 :=
    List.length_take_of_le hkeys
  rw [List.length_drop] at hkeys
  refine ⟨_, es, rfl, ⟨hfixed, by rw [hlength]; exact hkey, by rw [hlength]; omega,
    ⟨hheader, hlow, hhigh⟩, hsize, hoffset, fun k hk => ?_, ?_⟩, ?_⟩
  · by_contra hle
    exact hfirst ((Option.any_eq_true _ _).mpr ⟨k, hk, decide_eq_true (not_lt.mp hle)⟩)
  · simp only [encodeIndexEntry]
    rw [hlength, List.append_assoc, List.append_assoc, List.append_assoc, ← List.drop_drop,
      List.take_append_drop]
    exact indexEntry_fields hfixed
  · rw [hlength, ← List.drop_drop]
    exact hes

/-- Whatever is accepted as an index is one that covers a region without gaps. -/
theorem decodeIndexEntries_ok {o : FormatOptions} {dataOffset dataSize n : Nat}
    {previous : Option Bytes} {offset last : Nat} {b rest : Bytes} {entries : List IndexEntry}
    (h : decodeIndexEntries o dataOffset dataSize n previous offset b =
      .ok (entries, rest, last)) :
    entries.length = n ∧ Contiguous offset entries last ∧
      (∀ e ∈ entries, e.Within dataOffset dataSize) ∧
      entries.Pairwise (fun a b => a.firstKey < b.firstKey) ∧
      (∀ k ∈ previous, ∀ e ∈ entries, k < e.firstKey) := by
  induction n generalizing previous offset b entries with
  | zero =>
    rw [decodeIndexEntries] at h
    obtain ⟨rfl, -, rfl⟩ : entries = [] ∧ rest = b ∧ last = offset := by
      have := Except.ok.inj h
      simp only [Prod.mk.injEq] at this
      exact ⟨this.1.symm, this.2.1.symm, this.2.2.symm⟩
    exact ⟨rfl, rfl, by simp, List.Pairwise.nil, by simp⟩
  | succ n ih =>
    obtain ⟨e, es, rfl, he, hes⟩ := decodeIndexEntries_succ_ok h
    obtain ⟨hlen, hcont, hwithin, hasc, hlt⟩ := ih hes
    refine ⟨by rw [List.length_cons, hlen], ⟨he.offset_eq, ?_⟩, ?_,
      List.pairwise_cons.mpr ⟨hlt _ rfl, hasc⟩, ?_⟩
    · exact hcont
    · intro x hx
      rcases List.mem_cons.mp hx with rfl | hx
      · exact he.within
      · exact hwithin x hx
    · intro k hk x hx
      rcases List.mem_cons.mp hx with rfl | hx
      · exact he.above k hk
      · exact (he.above k hk).trans (hlt _ rfl x hx)

/-! ## The walk over the blocks -/

theorem firstKey_cons (r : Record) (rs : List Record) : firstKey (r :: rs) = r.key := rfl

/-- What the filter of a table has to say about records. -/
def FilterCovers (filter : Option BloomFilter) (rs : List Record) : Prop :=
  ∀ f ∈ filter, ∀ r ∈ rs, f.mayContain r.key = true

theorem filterCovers_iff {filter : Option BloomFilter} {rs : List Record} :
    filter.all (fun f => rs.all (fun r => f.mayContain r.key)) = true ↔ FilterCovers filter rs := by
  cases filter with
  | none => simp [FilterCovers]
  | some f => simp [FilterCovers]

/-- The blocks of a layout pass the verification, and give its records. -/
theorem verifyBlocks_layout {o : FormatOptions} {content : Bytes} {filter : Option BloomFilter}
    {gs : List (List Record)} {offset : Nat} {previous : Option Bytes} {s : Bytes}
    (hfits : ∀ g ∈ gs, BlockFits o g) (hasc : Ascending gs.flatten)
    (hcovers : FilterCovers filter gs.flatten)
    (hprev : ∀ k ∈ previous, ∀ r ∈ gs.flatten, k < r.key)
    (hcontent : content.drop offset = gs.flatMap blockBytes ++ s) :
    verifyBlocks o content filter previous (indexOf offset gs) = .ok gs.flatten := by
  induction gs generalizing offset previous with
  | nil => rfl
  | cons g gs ih =>
    have hf := hfits g List.mem_cons_self
    rw [List.flatten_cons] at hasc hcovers hprev
    obtain ⟨hascg, hascgs, hcross⟩ := List.pairwise_append.mp hasc
    rw [List.flatMap_cons, List.append_assoc] at hcontent
    have hread : readBlock o content
        { firstKey := firstKey g, blockOffset := offset, blockSize := blockSize g } = .ok g := by
      refine readBlock_block ?_ rfl hf hascg
      rw [hcontent]
      exact List.take_left' (blockBytes_length g)
    obtain ⟨first, hfirst, hkey⟩ := firstKey_mem hf.ne_nil
    have hbefore : ¬ previous.any (fun k => firstKey g ≤ k) = true := by
      rw [Option.any_eq_true]
      rintro ⟨k, hk, hle⟩
      have hlt := hprev k hk first (List.mem_append_left _ hfirst)
      rw [hkey] at hlt
      exact absurd (of_decide_eq_true hle) (not_le.mpr hlt)
    have hempty : g.isEmpty = false := List.isEmpty_eq_false_iff.mpr hf.ne_nil
    have hall : filter.all (fun f => g.all (fun r => f.mayContain r.key)) = true :=
      filterCovers_iff.mpr (fun f hfm r hr => hcovers f hfm r (List.mem_append_left _ hr))
    have hprev' : ∀ k ∈ some (lastKey g), ∀ r ∈ gs.flatten, k < r.key := by
      intro k hk r hr
      obtain ⟨x, hx, hkx⟩ := lastKey_mem hf.ne_nil
      rw [← Option.some.inj hk, ← hkx]
      exact hcross x hx r hr
    have hcontent' : content.drop (offset + blockSize g) = gs.flatMap blockBytes ++ s := by
      rw [← List.drop_drop, hcontent]
      exact List.drop_left' (blockBytes_length g)
    have hrest := ih (fun x hx => hfits x (List.mem_cons_of_mem _ hx)) hascgs
      (fun f hfm r hr => hcovers f hfm r (List.mem_append_right _ hr)) hprev' hcontent'
    rw [indexOf, verifyBlocks_cons, hread]
    dsimp only
    rw [if_neg (by simp [hempty, hbefore]), if_neg (by simp [hall]), hrest]
    rfl

/-- An index entry and the block it leads to. -/
structure BlockAt (o : FormatOptions) (content : Bytes) (e : IndexEntry) (g : List Record) :
    Prop where
  read : readBlock o content e = .ok g
  ne_nil : g ≠ []
  firstKey_eq : firstKey g = e.firstKey

/-- Whatever passes the verification is a layout of ascending records. -/
theorem verifyBlocks_ok {o : FormatOptions} {content : Bytes} {filter : Option BloomFilter}
    {previous : Option Bytes} {entries : List IndexEntry} {rs : List Record}
    (h : verifyBlocks o content filter previous entries = .ok rs) :
    ∃ gs, rs = gs.flatten ∧ List.Forall₂ (BlockAt o content) entries gs ∧ Ascending rs ∧
      (∀ r ∈ rs, r.Encodes o) ∧ FilterCovers filter rs ∧
      ∀ k ∈ previous, ∀ r ∈ rs, k < r.key := by
  induction entries generalizing previous rs with
  | nil =>
    rw [← Except.ok.inj h]
    refine ⟨[], rfl, List.Forall₂.nil, List.Pairwise.nil, ?_, ?_, ?_⟩
    · simp
    · intro f _ r hr
      cases hr
    · simp
  | cons e es ih =>
    rw [verifyBlocks_cons] at h
    split at h
    · cases h
    rename_i g hg
    obtain ⟨hfirst, h⟩ := ite_error_eq_ok.mp h
    obtain ⟨hcovers, h⟩ := ite_error_eq_ok.mp h
    split at h
    · cases h
    rename_i rest hrest
    obtain ⟨gs, hflat, hblocks, hascgs, hencgs, hcovgs, hlt⟩ := ih hrest
    obtain ⟨hne, -, henc, hasc⟩ := readBlock_ok hg
    simp only [not_or, not_not] at hfirst
    obtain ⟨-, hkey, hbefore⟩ := hfirst
    have hcov : FilterCovers filter g := filterCovers_iff.mp (by simpa using hcovers)
    have hcross : ∀ x ∈ g, ∀ y ∈ rest, x.key < y.key := fun x hx y hy =>
      lt_of_le_of_lt (le_lastKey hasc hx) (hlt _ rfl y hy)
    have hlow : ∀ k ∈ previous, ∀ r ∈ g, k < r.key := by
      intro k hk r hr
      refine lt_of_lt_of_le ?_ (firstKey_le hasc hr)
      by_contra hle
      exact hbefore ((Option.any_eq_true _ _).mpr ⟨k, hk, decide_eq_true (not_lt.mp hle)⟩)
    rw [← Except.ok.inj h]
    refine ⟨g :: gs, by rw [List.flatten_cons, hflat], List.Forall₂.cons ⟨hg, hne, hkey⟩ hblocks,
      List.pairwise_append.mpr ⟨hasc, hascgs, hcross⟩, ?_, ?_, ?_⟩
    · intro r hr
      rcases List.mem_append.mp hr with hr | hr
      · exact henc r hr
      · exact hencgs r hr
    · intro f hf r hr
      rcases List.mem_append.mp hr with hr | hr
      · exact hcov f hf r hr
      · exact hcovgs f hf r hr
    · intro k hk r hr
      rcases List.mem_append.mp hr with hr | hr
      · exact hlow k hk r hr
      · obtain ⟨x, hx, -⟩ := firstKey_mem hne
        exact (hlow k hk x hx).trans (hcross x hx r hr)

end MiniKV
