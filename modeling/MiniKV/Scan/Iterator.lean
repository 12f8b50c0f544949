import MiniKV.Codec.EndToEnd
import MiniKV.Scan.Exact

/-!
# Iterators over the blocks of a table

`SSTableIterator` keeps one block of a table at a time. It yields, block by block,
exactly the records of its range, and reads the blocks that it needs once, in
order. Opened at the lower bound of a scan these are the run that the scan merges.
-/

namespace MiniKV

open Lib

/-- `SSTableIterator`, and the blocks it has read so far, which only the results about it
look at. -/
structure SSTableIterator where
  reader : TableReader
  bounds : ScanBounds
  records : List Record := []
  block : Nat := 0
  position : Nat := 0
  valid : Bool := false
  statistics : SSTableReadStats := { tablesConsidered := 1 }
  reads : List Nat := []

namespace SSTableIterator

/-- `SSTableIterator::record` -/
def record (it : SSTableIterator) : Option Record :=
  if it.valid then it.records[it.position]? else none

/-- `SSTableIterator::LoadBlock` -/
def loadBlock (it : SSTableIterator) (block : Nat) : Except Status SSTableIterator :=
  if it.reader.index.length ≤ block then
    .ok { it with records := [], position := 0, valid := false }
  else match it.reader.readBlock block it.statistics with
    | (.error status, _) => .error status
    | (.ok records, statistics) =>
      .ok { it with
        records, position := 0, block, valid := !records.isEmpty, statistics
        reads := it.reads ++ [block] }

/-- `SSTableIterator::EnforceUpperBound` -/
def enforceUpperBound (it : SSTableIterator) : SSTableIterator :=
  if it.record.any (fun r => !it.bounds.beforeEnd r.key) then
    { it with valid := false, records := [], position := 0 }
  else it

/-- The loop that loads blocks until there is a record; the result says whether there
is one. No block follows the last, so the number of blocks is fuel enough. -/
def skipBlocks : Nat → SSTableIterator → Except Status (SSTableIterator × Bool)
  | 0, it => .ok (it, false)
  | fuel + 1, it =>
    if it.position < it.records.length then .ok (it, true)
    else match it.loadBlock (it.block + 1) with
      | .error status => .error status
      | .ok it => if !it.valid then .ok (it, false) else skipBlocks fuel it

/-- `SSTableIterator::Initialize` -/
def start (it : SSTableIterator) : Except Status SSTableIterator :=
  if it.reader.index.isEmpty then .error (.invalidArgument "SSTable iterator has no reader")
  else if it.reader.metadata.maximumKey < it.bounds.first ∨
      !it.bounds.beforeEnd it.reader.metadata.minimumKey ∨
      it.bounds.last = some it.bounds.first then .ok { it with valid := false }
  else
    let firstBlock := if it.bounds.first.isEmpty then 0
      else upperBound (fun e : IndexEntry => it.bounds.first < e.firstKey) it.reader.index - 1
    match it.loadBlock firstBlock with
    | .error status => .error status
    | .ok it =>
      let it := { it with
        position := lowerBound (fun r : Record => r.key < it.bounds.first) it.records }
      match skipBlocks (it.reader.index.length + 1) it with
      | .error status => .error status
      | .ok (it, false) => .ok it
      | .ok (it, true) => .ok { it with valid := true }.enforceUpperBound

/-- `SSTableIterator::Next` -/
def next (it : SSTableIterator) : Except Status SSTableIterator :=
  if !it.valid then .ok it
  else match skipBlocks (it.reader.index.length + 1) { it with position := it.position + 1 } with
    | .error status => .error status
    | .ok (it, false) => .ok it
    | .ok (it, true) => .ok it.enforceUpperBound

/-- The records that an iterator gives, one `Next` after the other. -/
def Yields : List Record → SSTableIterator → Prop
  | [], it => it.record = none
  | r :: rs, it => it.record = some r ∧ ∃ it', it.next = .ok it' ∧ Yields rs it'

/-- Reading `record()` and calling `Next()` in turn until the iterator is invalid: the records
that were read, and the iterator in the end. -/
inductive Drains : SSTableIterator → List Record → SSTableIterator → Prop
  | done {it : SSTableIterator} (h : it.valid = false) : Drains it [] it
  | step {it it' last : SSTableIterator} {r : Record} {rs : List Record}
      (hr : it.record = some r) (hn : it.next = .ok it') (h : Drains it' rs last) :
      Drains it (r :: rs) last

end SSTableIterator

/-- `SSTableReader::NewIterator` -/
def TableReader.newIterator (t : TableReader) (bounds : ScanBounds) :
    Except Status SSTableIterator :=
  if t.options.maxKeySize < bounds.first.length ∨
      t.options.maxKeySize < (bounds.last.getD []).length then
    .error (.invalidArgument "SSTable iterator bound is too large")
  else if bounds.last.any (fun e => decide (e < bounds.first)) then
    .error (.invalidArgument "SSTable iterator range is reversed")
  else { reader := t, bounds : SSTableIterator }.start

/-- How `Scan` opens a source on a table that meets the range. -/
def TableReader.scanSource (t : TableReader) (bounds : ScanBounds) (resumeAfter : Bytes) :
    Except Status SSTableIterator :=
  match t.newIterator { bounds with first := scanLower bounds resumeAfter } with
  | .error status => .error status
  | .ok it =>
    if !resumeAfter.isEmpty ∧ it.record.any (fun r => decide (r.key = resumeAfter)) then it.next
    else .ok it

/-! ## What an iterator has left -/

namespace SSTableIterator

variable {t : TableReader} {gs : List (List Record)} {it it' : SSTableIterator}
  {rest rs : List Record} {first : Nat}

/-- An iterator that has read blocks from a first one on, each after those before it. -/
structure Tidy (first : Nat) (it : SSTableIterator) : Prop where
  ascending : it.reads.Pairwise (· < ·)
  between : ∀ i ∈ it.reads, first ≤ i ∧ i ≤ it.block
  counted : it.statistics.dataBlocksRead = it.reads.length

/-- An iterator on a record of a block, with the records from there on. -/
structure At (t : TableReader) (gs : List (List Record)) (first : Nat) (it : SSTableIterator)
    (rest : List Record) : Prop where
  reader : it.reader = t
  block : gs[it.block]? = some it.records
  rest_eq : it.records.drop it.position ++ (gs.drop (it.block + 1)).flatten = rest
  first_le : first ≤ it.block
  tidy : it.Tidy first

theorem record_of_invalid (h : it.valid = false) : it.record = none := by
  rw [record, h, if_neg Bool.false_ne_true]

/-- An iterator without a record stays where it is. -/
theorem next_of_invalid (h : it.valid = false) : it.next = .ok it := by
  rw [next, h]
  rfl

theorem Drains.invalid (h : it.Drains rs it') : it'.valid = false := by
  induction h with
  | done h => exact h
  | step _ _ _ ih => exact ih

theorem Drains.yields (h : it.Drains rs it') : it.Yields rs := by
  induction h with
  | done h => exact record_of_invalid h
  | step hr hn _ ih => exact ⟨hr, _, hn, ih⟩

theorem loadBlock_eq (it : SSTableIterator) (h : t.Opened gs) (hreader : it.reader = t)
    {block : Nat} {g : List Record} (hg : gs[block]? = some g) :
    ∃ e, it.loadBlock block = .ok { it with
      records := g, position := 0, block, valid := true
      statistics := it.statistics.countBlock e, reads := it.reads ++ [block] } ∧ g ≠ [] := by
  obtain ⟨e, he, hblock⟩ := h.readBlock_eq hg
  have hlt : block < it.reader.index.length := by
    rw [hreader]
    exact (List.getElem?_eq_some_iff.mp he).1
  have hread := TableReader.readBlock_at he hblock it.statistics
  rw [← hreader] at hread
  refine ⟨e, ?_, hblock.ne_nil⟩
  rw [loadBlock, if_neg (not_le.mpr hlt), hread]
  simp [hblock.ne_nil]

/-- Reading a block behind all that have been read. -/
theorem Tidy.load {block : Nat} {g : List Record} {e : IndexEntry}
    (h : it.Tidy first) (hfirst : first ≤ block) (hblock : ∀ i ∈ it.reads, i < block) :
    Tidy first { it with
      records := g, position := 0, block, valid := true
      statistics := it.statistics.countBlock e, reads := it.reads ++ [block] } where
  ascending := List.pairwise_append.mpr ⟨h.ascending, List.pairwise_singleton _ _,
    fun i hi j hj => by rw [List.mem_singleton.mp hj]; exact hblock i hi⟩
  between := by
    intro i hi
    rcases List.mem_append.mp hi with hi | hi
    · exact ⟨(h.between i hi).1, (hblock i hi).le⟩
    · rw [List.mem_singleton.mp hi]
      exact ⟨hfirst, le_refl _⟩
  counted := by
    rw [List.length_append, ← h.counted]
    rfl

/-- The loop comes to the next record, or ends with an iterator that has none. -/
theorem At.skipBlocks_eq (h : t.Opened gs) (hit : At t gs first it rest)
    (hvalid : it.valid = true) (fuel : Nat) :
    (rest = [] ∧ ∃ it', skipBlocks (fuel + 2) it = .ok (it', false) ∧ it'.valid = false ∧
        it'.Tidy first) ∨
      (rest ≠ [] ∧ ∃ it', skipBlocks (fuel + 2) it = .ok (it', true) ∧ At t gs first it' rest ∧
        it'.valid = true ∧ it'.bounds = it.bounds ∧ it'.position < it'.records.length) := by
  have hrest := hit.rest_eq
  by_cases hpos : it.position < it.records.length
  · right
    refine ⟨?_, it, by rw [skipBlocks, if_pos hpos], hit, hvalid, rfl, hpos⟩
    rw [← hrest, ← List.length_pos_iff, List.length_append, List.length_drop]
    omega
  rw [List.drop_eq_nil_of_le (not_lt.mp hpos), List.nil_append] at hrest
  rw [skipBlocks, if_neg hpos]
  by_cases hlast : it.block + 1 < gs.length
  · right
    obtain ⟨e, hload, hne⟩ := loadBlock_eq it h hit.reader (List.getElem?_eq_getElem hlast)
    have hfirst : 0 < (gs[it.block + 1]).length := List.length_pos_iff.mpr hne
    have htidy := hit.tidy.load (g := gs[it.block + 1]) (e := e)
      (hit.first_le.trans (Nat.le_succ _))
      (fun i hi => Nat.lt_succ_of_le (hit.tidy.between i hi).2)
    rw [hload]
    dsimp only
    rw [if_neg (by simp), skipBlocks, if_pos hfirst]
    rw [List.drop_eq_getElem_cons hlast, List.flatten_cons] at hrest
    refine ⟨?_, _, rfl, ⟨hit.reader, List.getElem?_eq_getElem hlast, hrest,
      hit.first_le.trans (Nat.le_succ _), htidy⟩, rfl, rfl, hfirst⟩
    rw [← hrest, ← List.length_pos_iff, List.length_append]
    omega
  · left
    have hindex : it.reader.index.length ≤ it.block + 1 := by
      rw [hit.reader, h.blocks.length_eq]
      omega
    rw [List.drop_eq_nil_of_le (by omega), List.flatten_nil] at hrest
    rw [loadBlock, if_pos hindex]
    exact ⟨hrest.symm, { it with records := [], position := 0, valid := false }, rfl, rfl,
      ⟨hit.tidy.ascending, hit.tidy.between, hit.tidy.counted⟩⟩

/-- From a record on an iterator yields what is left of the range. -/
theorem At.drains (h : t.Opened gs) (hit : At t gs first it rest) (hvalid : it.valid = true)
    (hpos : it.position < it.records.length) :
    ∃ last, it.enforceUpperBound.Drains (rest.takeWhile (fun r => it.bounds.beforeEnd r.key)) last ∧
      last.Tidy first := by
  have hlen : ∃ n, t.index.length = n + 1 := by
    have hb : it.block < gs.length := (List.getElem?_eq_some_iff.mp hit.block).1
    rw [h.blocks.length_eq]
    exact ⟨gs.length - 1, by omega⟩
  obtain ⟨n, hn⟩ := hlen
  induction rest generalizing it with
  | nil =>
    have hnil := hit.rest_eq
    rw [List.append_eq_nil_iff, List.drop_eq_nil_iff] at hnil
    omega
  | cons r rest ih =>
    have hdrop := hit.rest_eq
    rw [List.drop_eq_getElem_cons hpos, List.cons_append] at hdrop
    obtain ⟨hr, hrest⟩ := List.cons.inj hdrop
    have hrecord : it.record = some r := by
      rw [record, if_pos hvalid, List.getElem?_eq_getElem hpos, hr]
    rw [List.takeWhile_cons, enforceUpperBound, hrecord, Option.any_some]
    cases hend : it.bounds.beforeEnd r.key with
    | false =>
      exact ⟨_, .done rfl, ⟨hit.tidy.ascending, hit.tidy.between, hit.tidy.counted⟩⟩
    | true =>
      rw [if_pos rfl, if_neg (by simp)]
      have hnext : At t gs first { it with position := it.position + 1 } rest :=
        ⟨hit.reader, hit.block, hrest, hit.first_le,
          ⟨hit.tidy.ascending, hit.tidy.between, hit.tidy.counted⟩⟩
      have hfuel : it.reader.index.length + 1 = n + 2 := by rw [hit.reader, hn]
      have hstep : it.next =
          match skipBlocks (n + 2) { it with position := it.position + 1 } with
          | .error status => .error status
          | .ok (it, false) => .ok it
          | .ok (it, true) => .ok it.enforceUpperBound := by
        rw [next, if_neg (by simp [hvalid]), hfuel]
      rcases hnext.skipBlocks_eq h hvalid n with ⟨rfl, it', hskip, hinvalid, htidy⟩ |
        ⟨-, it', hskip, hit', hvalid', hbounds, hpos'⟩
      · rw [hskip] at hstep
        rw [List.takeWhile_nil]
        exact ⟨it', .step hrecord hstep (.done hinvalid), htidy⟩
      · rw [hskip] at hstep
        obtain ⟨last, hdrains, htidy⟩ := ih hit' hvalid' hpos'
        rw [hbounds] at hdrains
        exact ⟨last, .step hrecord hstep hdrains, htidy⟩

end SSTableIterator

/-! ## Opening -/

namespace TableReader

variable {t : TableReader} {gs : List (List Record)}

/-- The first record that is not below the key is found in its block. -/
theorem Opened.rest_eq (h : t.Opened gs) {key : Bytes} {block : Nat} {g : List Record}
    (hg : gs[block]? = some g) (hbefore : ∀ r ∈ (gs.take block).flatten, r.key < key)
    (hafter : ∀ r ∈ (gs.drop (block + 1)).flatten, key ≤ r.key) :
    g.drop (lowerBound (fun r : Record => r.key < key) g) ++ (gs.drop (block + 1)).flatten =
      gs.flatten.dropWhile (fun r => decide (r.key < key)) := by
  have hsplit := flatten_eq_of_getElem? hg
  have hascg : Ascending g := by
    have hasc := h.ascending
    rw [hsplit] at hasc
    exact (List.pairwise_append.mp (List.pairwise_append.mp hasc).2.1).1
  obtain ⟨ys, zs, rfl, hy, hz⟩ := exists_partition
    (hascg.imp (fun hab hb => decide_eq_true (hab.trans (of_decide_eq_true hb))) :
      g.Pairwise (fun a b => decide (b.key < key) = true → decide (a.key < key) = true))
  have hlower : lowerBound (fun r : Record => r.key < key) (ys ++ zs) = ys.length :=
    partitionPoint_append hy hz
  have hrest : ∀ r ∈ zs ++ (gs.drop (block + 1)).flatten, decide (r.key < key) = false := by
    intro r hr
    rcases List.mem_append.mp hr with hr | hr
    · exact hz r hr
    · exact decide_eq_false (not_lt.mpr (hafter r hr))
  rw [hlower, List.drop_left, hsplit, List.append_assoc,
    List.dropWhile_append_of_pos (fun r hr => decide_eq_true (hbefore r hr)),
    List.dropWhile_append_of_pos hy]
  cases hc : zs ++ (gs.drop (block + 1)).flatten with
  | nil => rfl
  | cons r rs =>
    rw [List.dropWhile_cons, hrest r (by rw [hc]; exact List.mem_cons_self)]
    rfl

/-- Outside the keys of the table there is nothing to yield. -/
theorem Opened.run_eq_nil (h : t.Opened gs) {bounds : ScanBounds}
    (hout : t.metadata.maximumKey < bounds.first ∨
      !bounds.beforeEnd t.metadata.minimumKey ∨ bounds.last = some bounds.first) :
    (gs.flatten.dropWhile (fun r => decide (r.key < bounds.first))).takeWhile
      (fun r => bounds.beforeEnd r.key) = [] := by
  have hmin : t.metadata.minimumKey = firstKey gs.flatten :=
    congrArg TableMetadata.minimumKey h.summary
  have hmax : t.metadata.maximumKey = lastKey gs.flatten :=
    congrArg TableMetadata.maximumKey h.summary
  have hrun := run_eq bounds [] h.ascending
  rw [show scanLower bounds [] = bounds.first from rfl] at hrun
  rw [hrun]
  refine List.filter_eq_nil_iff.mpr (fun r hr hreached => ?_)
  rw [reached, Bool.and_eq_true, decide_eq_true_eq] at hreached
  obtain ⟨hlower, hend⟩ := hreached
  have h1 := firstKey_le h.ascending hr
  have h2 := le_lastKey h.ascending hr
  rw [← hmin] at h1
  rw [← hmax] at h2
  rcases hout with hlt | hno | hempty
  · exact absurd (hlower.trans h2) (not_le.mpr hlt)
  · rw [ScanBounds.beforeEnd_of_le h1 hend] at hno
    cases hno
  · rw [ScanBounds.beforeEnd, hempty, decide_eq_true_eq] at hend
    exact absurd hlower (not_le.mpr hend)

/-- A range below all keys of the table, above all of them, or empty. -/
def Misses (bounds : ScanBounds) (rs : List Record) : Prop :=
  (∃ e ∈ bounds.last, ∀ r ∈ rs, e ≤ r.key) ∨ (∀ r ∈ rs, r.key < bounds.first) ∨
    bounds.last = some bounds.first

/-- The keys in the metadata tell whether a range misses the table. -/
theorem Opened.outside_of_misses (h : t.Opened gs) {bounds : ScanBounds}
    (hmiss : Misses bounds gs.flatten) :
    t.metadata.maximumKey < bounds.first ∨ !bounds.beforeEnd t.metadata.minimumKey ∨
      bounds.last = some bounds.first := by
  have hmin : t.metadata.minimumKey = firstKey gs.flatten :=
    congrArg TableMetadata.minimumKey h.summary
  have hmax : t.metadata.maximumKey = lastKey gs.flatten :=
    congrArg TableMetadata.maximumKey h.summary
  rcases hmiss with ⟨e, he, hbelow⟩ | habove | hempty
  · obtain ⟨r, hr, hkey⟩ := firstKey_mem h.ne_nil
    have hle := hbelow r hr
    rw [hkey, ← hmin] at hle
    refine Or.inr (Or.inl ?_)
    rw [ScanBounds.beforeEnd, Option.mem_def.mp he]
    simpa using hle
  · obtain ⟨r, hr, hkey⟩ := lastKey_mem h.ne_nil
    have hlt := habove r hr
    rw [hkey, ← hmax] at hlt
    exact Or.inl hlt
  · exact Or.inr (Or.inr hempty)

/-- The block that the sparse index selects for a key. -/
def seekBlock (t : TableReader) (key : Bytes) : Nat :=
  if key.isEmpty then 0 else upperBound (fun e : IndexEntry => key < e.firstKey) t.index - 1

/-- The selected block has everything smaller than the key in front of it, or in it. -/
theorem Opened.seekBlock_spec (h : t.Opened gs) (key : Bytes) :
    ∃ g, gs[t.seekBlock key]? = some g ∧ (∀ r ∈ (gs.take (t.seekBlock key)).flatten, r.key < key) ∧
      ∀ r ∈ (gs.drop (t.seekBlock key + 1)).flatten, key ≤ r.key := by
  unfold seekBlock
  split
  · rename_i hempty
    have hpos : 0 < gs.length :=
      List.length_pos_iff.mpr (fun hnil => h.ne_nil (by rw [hnil]; rfl))
    refine ⟨gs[0], List.getElem?_eq_getElem hpos, by simp, fun r _ => ?_⟩
    rw [List.isEmpty_iff.mp hempty]
    exact not_lt.mp (List.not_lt_nil _)
  · obtain ⟨g, hg, hbefore, hafter, -⟩ := h.seek key
    exact ⟨g, hg, hbefore, fun r hr => (hafter r hr).le⟩

/-- No block behind the selected one starts at the key or below it. -/
theorem Opened.le_seekBlock (h : t.Opened gs) {key : Bytes} {j : Nat} {e : IndexEntry}
    (he : t.index[j]? = some e) (hle : e.firstKey ≤ key) : j ≤ t.seekBlock key := by
  unfold seekBlock
  split
  · rename_i hempty
    -- a block starts with a key, which is not empty
    obtain ⟨hj, hget⟩ := List.getElem?_eq_some_iff.mp he
    have hj' : j < gs.length := h.blocks.length_eq ▸ hj
    have hblock := h.blocks.get hj hj'
    obtain ⟨r, hr, hkey⟩ := firstKey_mem hblock.ne_nil
    have hmem : r ∈ gs.flatten := List.mem_flatten.mpr ⟨_, List.get_mem gs ⟨j, hj'⟩, hr⟩
    have hpos := (h.encodes r hmem).valid.key_pos
    rw [hkey, hblock.firstKey_eq] at hpos
    rw [List.isEmpty_iff.mp hempty] at hle
    have hnil : e.firstKey = [] := le_antisymm hle (not_lt.mp (List.not_lt_nil _))
    rw [List.get_eq_getElem, hget, hnil] at hpos
    cases hpos
  · have hp : t.index.Pairwise (fun a b => (!decide (key < b.firstKey)) = true →
        (!decide (key < a.firstKey)) = true) := by
      refine h.keys.imp (fun hab hb => ?_)
      simp only [Bool.not_eq_true', decide_eq_false_iff_not, not_lt] at hb ⊢
      exact hab.le.trans hb
    obtain ⟨ys, zs, hsplit, hy, hz⟩ := exists_partition hp
    have hupper : upperBound (fun e : IndexEntry => key < e.firstKey) t.index = ys.length := by
      rw [hsplit]
      exact partitionPoint_append hy hz
    rw [hupper]
    by_contra hlt
    rw [hsplit, List.getElem?_append_right (by omega)] at he
    have habove := hz e (List.mem_of_getElem? he)
    simp only [Bool.not_eq_false', decide_eq_true_eq] at habove
    exact absurd hle (not_le.mpr habove)

/-- An iterator yields the records of its range. It reads from the selected block on, each
block once, and nothing if the range misses the table. -/
theorem Opened.newIterator_drains (h : t.Opened gs) (bounds : ScanBounds)
    (hfirst : bounds.first.length ≤ t.options.maxKeySize)
    (hlast : (bounds.last.getD []).length ≤ t.options.maxKeySize)
    (hforward : ∀ e ∈ bounds.last, bounds.first ≤ e) :
    ∃ it last, t.newIterator bounds = .ok it ∧
      it.Drains ((gs.flatten.dropWhile (fun r => decide (r.key < bounds.first))).takeWhile
        (fun r => bounds.beforeEnd r.key)) last ∧ last.Tidy (t.seekBlock bounds.first) ∧
      (Misses bounds gs.flatten → last.reads = []) := by
  have hback : bounds.last.any (fun e => decide (e < bounds.first)) = false := by
    cases he : bounds.last with
    | none => rfl
    | some e => simpa using hforward e he
  obtain ⟨n, hn⟩ : ∃ n, t.index.length = n + 1 := by
    rw [h.blocks.length_eq]
    refine Nat.exists_eq_succ_of_ne_zero (fun h0 => h.ne_nil ?_)
    rw [List.length_eq_zero_iff.mp h0]
    rfl
  have hindex : t.index.isEmpty = false := by
    rw [List.isEmpty_eq_false_iff, ← List.length_pos_iff]
    omega
  rw [newIterator, if_neg (by omega), if_neg (by rw [hback]; exact Bool.false_ne_true),
    SSTableIterator.start]
  dsimp only
  rw [if_neg (by rw [hindex]; exact Bool.false_ne_true)]
  split
  · rename_i hout
    rw [h.run_eq_nil hout]
    exact ⟨_, _, rfl, .done rfl, ⟨List.Pairwise.nil, nofun, rfl⟩, fun _ => rfl⟩
  rename_i hin
  rw [← seekBlock]
  obtain ⟨g, hg, hbefore, hafter⟩ := h.seekBlock_spec bounds.first
  generalize t.seekBlock bounds.first = block at hg hbefore hafter ⊢
  obtain ⟨e, hload, -⟩ :=
    SSTableIterator.loadBlock_eq { reader := t, bounds := bounds } h rfl hg
  rw [hload]
  dsimp only
  have hat : SSTableIterator.At t gs block
      { reader := t, bounds := bounds, records := g, block := block, valid := true,
        position := lowerBound (fun r : Record => r.key < bounds.first) g,
        statistics := SSTableReadStats.countBlock { tablesConsidered := 1 } e, reads := [block] }
      (gs.flatten.dropWhile (fun r => decide (r.key < bounds.first))) :=
    ⟨rfl, hg, h.rest_eq hg hbefore hafter, le_refl _, List.pairwise_singleton _ _,
      fun i hi => by rw [List.mem_singleton.mp hi]; exact ⟨le_refl _, le_refl _⟩, rfl⟩
  rw [hn]
  rcases hat.skipBlocks_eq h rfl n with ⟨hnil, it, hskip, hinvalid, htidy⟩ |
    ⟨-, it, hskip, hit, hvalid, hbounds, hpos⟩
  · rw [List.nil_append, hskip, hnil]
    exact ⟨it, it, rfl, .done hinvalid, htidy, fun hmiss => absurd (h.outside_of_misses hmiss) hin⟩
  · rw [List.nil_append, hskip]
    have hsame : { it with valid := true } = it := by
      cases it
      simp_all
    obtain ⟨last, hdrains, htidy⟩ := hit.drains h hvalid hpos
    dsimp only at hbounds
    rw [hbounds] at hdrains
    refine ⟨_, last, rfl, ?_, htidy, fun hmiss => absurd (h.outside_of_misses hmiss) hin⟩
    rw [hsame]
    exact hdrains

/-- An iterator on a table that opened enumerates the records of its range in order and
then stays invalid. It reads a block once at most, none before the last block that starts
at the lower bound or below it, and none at all if the range misses the table. -/
theorem newIterator_enumerates {o : FormatOptions} {content : Bytes}
    (h : openFile o content = .ok t) {bounds : ScanBounds}
    (hfirst : bounds.first.length ≤ o.maxKeySize) (hlast : ∀ e ∈ bounds.last, e.length ≤ o.maxKeySize)
    (hforward : ∀ e ∈ bounds.last, bounds.first ≤ e) :
    ∃ rs it last, (∀ limit, rs.length ≤ limit → t.readRecords limit = .ok rs) ∧
      t.newIterator bounds = .ok it ∧
      it.Drains (rs.filter (fun r => bounds.contains r.key)) last ∧ Ascending rs ∧
      last.record = none ∧ last.next = .ok last ∧
      last.reads.Nodup ∧ last.statistics.dataBlocksRead = last.reads.length ∧
      (∀ i ∈ last.reads, ∀ j e, t.index[j]? = some e → e.firstKey ≤ bounds.first → j ≤ i) ∧
      (Misses bounds rs → last.reads = []) := by
  obtain ⟨gs, rfl, -, hopened⟩ := openFile_ok h
  have hlast' : (bounds.last.getD []).length ≤ t.options.maxKeySize := by
    cases he : bounds.last with
    | none => exact Nat.zero_le _
    | some e => exact hlast e he
  obtain ⟨it, last, hit, hdrains, htidy, hmiss⟩ :=
    hopened.newIterator_drains bounds hfirst hlast' hforward
  have hrun := run_eq bounds [] hopened.ascending
  rw [show scanLower bounds [] = bounds.first from rfl] at hrun
  rw [hrun] at hdrains
  refine ⟨gs.flatten, it, last, fun limit hl => ?_, hit, hdrains, hopened.ascending,
    SSTableIterator.record_of_invalid hdrains.invalid,
    SSTableIterator.next_of_invalid hdrains.invalid, htidy.ascending.imp ne_of_lt, htidy.counted,
    fun i hi j e he hle => ?_, hmiss⟩
  · rw [hopened.readRecords_eq, List.take_of_length_le hl]
  · exact (hopened.le_seekBlock he hle).trans (htidy.between i hi).1

/-- A range from the first block of a table into the second. -/
theorem newIterator_enumerates_twoBlocks : ∃ t it last,
    openFile { shortBlocks with bloomFilterEnabled := true } twoBlocks = .ok t ∧
      t.index.map IndexEntry.firstKey = [[1], [2]] ∧ t.newIterator ⟨[1], some [3]⟩ = .ok it ∧
      it.Drains twoRecords.records last ∧ last.record = none ∧ last.reads.Nodup := by
  obtain ⟨t, gs, hopen, hopened, hflat, -⟩ := encodeTable_opened encodeTable_twoBlocks true
  have hfirst : (⟨[1], some [3]⟩ : ScanBounds).first.length ≤ 64 * 1024 := by decide
  have hends : ∀ e ∈ (⟨[1], some [3]⟩ : ScanBounds).last, e.length ≤ 64 * 1024 ∧ [1] ≤ e := by decide
  obtain ⟨rs, it, last, hread, hit, hdrains, -, hnone, -, hnodup, -⟩ :=
    newIterator_enumerates hopen hfirst (fun e he => (hends e he).1) (fun e he => (hends e he).2)
  have hrs := hread (rs.length + 2) (Nat.le_add_right _ _)
  rw [hopened.readRecords_eq, hflat, List.take_of_length_le (Nat.le_add_left 2 _)] at hrs
  obtain rfl := Except.ok.inj hrs
  exact ⟨t, it, last, hopen, openFile_twoBlocks hopen, hit, hdrains, hnone, hnodup⟩

/-- The source that a scan opens on a table yields the run that the scan merges. -/
theorem Opened.scanSource_yields (h : t.Opened gs) {o : Options} (ho : t.options = o.toFormatOptions)
    {bounds : ScanBounds} (hb : bounds.Valid o) {resumeAfter : Bytes}
    (hr : bounds.StartsAt o resumeAfter) :
    ∃ it, t.scanSource bounds resumeAfter = .ok it ∧
      it.Yields (scanRun bounds resumeAfter gs.flatten) := by
  have hlower : (scanLower bounds resumeAfter).length ≤ t.options.maxKeySize := by
    rw [ho]
    exact hr.lower_le hb
  have hlast : (bounds.last.getD []).length ≤ t.options.maxKeySize := by
    rw [ho]
    exact hb.last_le
  obtain ⟨it, last, hit, hdrains, -⟩ :=
    h.newIterator_drains ⟨scanLower bounds resumeAfter, bounds.last⟩ hlower hlast
      (fun e he => hr.forward hb he)
  have hyields := hdrains.yields
  rw [scanSource, hit, scanRun]
  dsimp only at hyields ⊢
  have hsame : ∀ k, ScanBounds.beforeEnd { bounds with first := scanLower bounds resumeAfter } k =
      bounds.beforeEnd k := fun _ => rfl
  simp only [hsame] at hyields
  generalize (gs.flatten.dropWhile (fun r => decide (r.key < scanLower bounds resumeAfter))).takeWhile
    (fun r => bounds.beforeEnd r.key) = run at hyields ⊢
  cases run with
  | nil =>
    have hrecord : it.record = none := hyields
    rw [if_neg (by simp [hrecord])]
    exact ⟨it, rfl, hyields⟩
  | cons r rest =>
    obtain ⟨hrecord, it', hnext, hyields'⟩ := hyields
    dsimp only
    rw [hrecord, Option.any_some]
    by_cases hskip : !resumeAfter.isEmpty ∧ r.key = resumeAfter
    · rw [if_pos ⟨hskip.1, decide_eq_true hskip.2⟩, if_pos hskip]
      exact ⟨it', hnext, hyields'⟩
    · rw [if_neg (fun hc => hskip ⟨hc.1, of_decide_eq_true hc.2⟩), if_neg hskip]
      exact ⟨it, rfl, hrecord, it', hnext, hyields'⟩

end TableReader

end MiniKV
