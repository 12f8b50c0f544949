import MiniKV.Scan.Iterator

/-!
# Pages

The pages of a scan cut the entries of its range into pieces, as long as every
token fits. What the scan merges for a table is what the iterator over the blocks
of its file yields.
-/

namespace MiniKV

open Lib

/-! ## The blocks behind a table -/

/-- The reader of the file of a table: the file opens to it, with the metadata and the records
of the table. -/
structure TableReader.Backs (o : Options) (s : SSTableReader) (t : TableReader) : Prop where
  opened : TableReader.openFile o.toFormatOptions t.content = .ok t
  metadata : t.metadata.toTableMetadata = s.metadata
  records : t.readRecords s.metadata.recordCount = .ok s.records

/-- The table sources of `Scan`: an iterator on every table that meets the range. -/
def blockSources (bounds : ScanBounds) (resumeAfter : Bytes) (readers : List TableReader) :
    Except Status (List SSTableIterator) :=
  (readers.filter (fun t => !decide (t.metadata.maximumKey < scanLower bounds resumeAfter) &&
    bounds.beforeEnd t.metadata.minimumKey)).mapM (·.scanSource bounds resumeAfter)

section

variable {o : Options} {bounds : ScanBounds} {resumeAfter : Bytes}

/-- The source on a table yields the run of its records. -/
theorem TableReader.Backs.scanSource_yields {s : SSTableReader} {t : TableReader}
    (h : t.Backs o s) (hb : bounds.Valid o) (hr : bounds.StartsAt o resumeAfter) :
    ∃ it, t.scanSource bounds resumeAfter = .ok it ∧
      it.Yields (scanRun bounds resumeAfter s.records) := by
  obtain ⟨gs, hoptions, -, hopened⟩ := TableReader.openFile_ok h.opened
  have hcount : s.metadata.recordCount = gs.flatten.length := by
    rw [← h.metadata, hopened.summary]
    rfl
  have hrecords := h.records
  rw [hopened.readRecords_eq, hcount, List.take_length] at hrecords
  rw [← Except.ok.inj hrecords]
  exact hopened.scanSource_yields hoptions hb hr

/-- The iterators over the blocks yield, table by table, the runs that a scan merges. -/
theorem blockSources_yield (hb : bounds.Valid o) (hr : bounds.StartsAt o resumeAfter)
    {tables : List SSTableReader} {readers : List TableReader}
    (h : List.Forall₂ (TableReader.Backs o) tables readers) :
    ∃ runs its, tableSources o bounds resumeAfter tables = .ok runs ∧
      blockSources bounds resumeAfter readers = .ok its ∧
      List.Forall₂ SSTableIterator.Yields runs its := by
  rw [tableSources_eq hb hr]
  suffices hits : ∃ its, blockSources bounds resumeAfter readers = .ok its ∧
      List.Forall₂ SSTableIterator.Yields ((tables.filter (meetsRange bounds resumeAfter)).map
        (fun t => scanRun bounds resumeAfter t.records)) its by
    obtain ⟨its, hsources, hyields⟩ := hits
    exact ⟨_, its, rfl, hsources, hyields⟩
  unfold blockSources
  induction h with
  | nil => exact ⟨[], rfl, .nil⟩
  | @cons s t tables readers hst hrest ih =>
    obtain ⟨its, hsources, hyields⟩ := ih
    have hmeets : (!decide (t.metadata.maximumKey < scanLower bounds resumeAfter) &&
        bounds.beforeEnd t.metadata.minimumKey) = meetsRange bounds resumeAfter s := by
      rw [meetsRange, ← hst.metadata]
    rw [List.filter_cons, List.filter_cons, hmeets]
    split
    · obtain ⟨it, hit, hrun⟩ := hst.scanSource_yields hb hr
      refine ⟨it :: its, ?_, .cons hrun hyields⟩
      rw [List.mapM_cons, hit, hsources]
      rfl
    · exact ⟨its, hsources, hyields⟩

end

/-! ## All pages -/

/-- The pages that a caller gets with these limits, one after the other: the token of a
page goes into the next call, and a page without one is the last. -/
def Database.scanPages (db : Database) (bounds : ScanBounds) :
    List Nat → Bytes → Except Status (List ScanPage)
  | [], _ => .ok []
  | limit :: limits, token =>
    match db.scan { bounds, limit, continuationToken := token } with
    | .error e => .error e
    | .ok page =>
      if page.truncated then
        match scanPages db bounds limits page.continuationToken with
        | .error e => .error e
        | .ok pages => .ok (page :: pages)
      else .ok [page]

/-- Pages cut a list of entries into pieces: each is full or the last one, and says
whether anything comes after it. -/
def Paginates : List ScanEntry → List Nat → List ScanPage → Prop
  | _, [], pages => pages = []
  | es, limit :: limits, pages => ∃ page more, pages = page :: more ∧
    page.entries = es.take limit ∧ page.truncated = decide (limit < es.length) ∧
    (page.continuationToken ≠ [] ↔ limit < es.length) ∧
    if limit < es.length then Paginates (es.drop limit) limits more else more = []

/-- The key of the last entry of a page. -/
def lastEntryKey (es : List ScanEntry) : Bytes := (es.getLast?.map ScanEntry.key).getD []

/-- Every page that is not the last can have its token. -/
def TokensFit (bounds : ScanBounds) : List ScanEntry → List Nat → Prop
  | _, [] => True
  | es, limit :: limits => limit < es.length →
    scanTokenSize bounds (lastEntryKey (es.take limit)) ≤ maxUInt32 ∧
      TokensFit bounds (es.drop limit) limits

/-- Keys that leave room for the bounds never make a token too long. -/
theorem TokensFit.of_keys {bounds : ScanBounds} {n : Nat}
    (hroom : kScanTokenHeaderSize + (bounds.first.length + (bounds.last.getD []).length + n) ≤
      maxUInt32) {es : List ScanEntry} (hes : ∀ e ∈ es, e.key.length ≤ n) (limits : List Nat) :
    TokensFit bounds es limits := by
  induction limits generalizing es with
  | nil => trivial
  | cons limit limits ih =>
    intro _
    refine ⟨?_, ih (fun e he => hes e (List.mem_of_mem_drop he))⟩
    have hlast : (lastEntryKey (es.take limit)).length ≤ n := by
      rw [lastEntryKey]
      cases he : (es.take limit).getLast? with
      | none => exact Nat.zero_le _
      | some e => exact hes e (List.mem_of_mem_take (List.mem_of_getLast? he))
    rw [scanTokenSize]
    omega

/-- A page that is cut fails if it cannot have its token. -/
theorem scanFinish_error (db : Database) {bounds : ScanBounds} {limit : Nat}
    {entries : List ScanEntry} (stats : ScanStatistics) (hcut : limit < entries.length)
    (hsize : maxUInt32 < scanTokenSize bounds (lastEntryKey (entries.take limit))) :
    ∃ e, scanFinish db bounds limit entries stats = .error e := by
  obtain ⟨e, he⟩ := encodeScanToken_error db.version.id db.lastSequence hsize
  rw [lastEntryKey] at he
  refine ⟨e, ?_⟩
  rw [scanFinish, if_pos hcut]
  dsimp only
  rw [he]

/-- Pages with enough limits are the whole list. -/
theorem Paginates.flatMap_eq {es : List ScanEntry} {limits : List Nat} {pages : List ScanPage}
    (h : Paginates es limits pages) (hpos : ∀ l ∈ limits, 0 < l)
    (hmany : es.length < limits.length) : pages.flatMap ScanPage.entries = es := by
  induction limits generalizing es pages with
  | nil => cases hmany
  | cons limit limits ih =>
    obtain ⟨page, more, rfl, hentries, -, -, hmore⟩ := h
    have hlimit := hpos limit List.mem_cons_self
    rw [List.length_cons] at hmany
    by_cases hcut : limit < es.length
    · rw [if_pos hcut] at hmore
      have hrest := ih hmore (fun l hl => hpos l (List.mem_cons_of_mem _ hl))
        (by rw [List.length_drop]; omega)
      rw [List.flatMap_cons, hrest, hentries, List.take_append_drop]
    · rw [if_neg hcut] at hmore
      rw [hmore, List.flatMap_cons, List.flatMap_nil, List.append_nil, hentries,
        List.take_of_length_le (not_lt.mp hcut)]

/-- What a token stands for: the entries that are still to come. -/
def Resumes (db : Database) (bounds : ScanBounds) (token : Bytes) (es : List ScanEntry) : Prop :=
  ∃ resumeAfter, bounds.StartsAt db.options resumeAfter ∧
    Visible db.scanRecords (wanted bounds resumeAfter) es ∧
    if token.isEmpty then resumeAfter = []
    else decodeScanToken token bounds db.options db.version.id db.lastSequence = .ok resumeAfter

/-- `Scan` behind the checks of its limit and its range. -/
def Database.scanChecked (db : Database) (bounds : ScanBounds) (limit : Nat) (token : Bytes) :
    Except Status ScanPage :=
  if token.isEmpty then scanFrom db bounds limit []
  else match decodeScanToken token bounds db.options db.version.id db.lastSequence with
    | .error e => .error e
    | .ok resumeAfter => scanFrom db bounds limit resumeAfter

theorem Database.scan_ok {db : Database} {o : ScanOptions} {page : ScanPage}
    (h : db.scan o = .ok page) :
    db.scanChecked o.bounds o.limit o.continuationToken = .ok page := by
  unfold Database.scan at h
  obtain ⟨-, h⟩ := ite_error_eq_ok.mp h
  obtain ⟨-, h⟩ := ite_error_eq_ok.mp h
  obtain ⟨-, h⟩ := ite_error_eq_ok.mp h
  exact (ite_error_eq_ok.mp h).2

theorem Database.scan_valid {db : Database} (hrun : db.isRunning = true) {bounds : ScanBounds}
    (hb : bounds.Valid db.options) {limit : Nat} (hpos : 0 < limit)
    (hmax : limit ≤ db.options.maximumScanEntries) (token : Bytes) :
    db.scan { bounds, limit, continuationToken := token } = db.scanChecked bounds limit token := by
  have hback : bounds.last.any (fun e => decide (e < bounds.first)) = false := by
    cases he : bounds.last with
    | none => rfl
    | some e => simpa using hb.forward e he
  have hfirst := hb.first_le
  have hlast := hb.last_le
  unfold Database.scan
  rw [if_neg (by simp [hrun]), if_neg (by dsimp only; omega), if_neg (by dsimp only; omega),
    if_neg (by rw [hback]; exact Bool.false_ne_true)]
  rfl

/-- A call resumes where its token says. -/
theorem Resumes.scan_eq {db : Database} (h : ScanSnapshot db) {bounds : ScanBounds}
    (hb : bounds.Valid db.options) {token : Bytes} {es : List ScanEntry}
    (hes : Resumes db bounds token es) {limit : Nat} (hpos : 0 < limit)
    (hmax : limit ≤ db.options.maximumScanEntries) :
    ∃ stats, db.scan { bounds, limit, continuationToken := token } =
      scanFinish db bounds limit (es.take (limit + 1)) stats := by
  obtain ⟨resumeAfter, hr, hvisible, htoken⟩ := hes
  obtain ⟨es', stats, hvisible', hfrom⟩ := scanFrom_eq h hb hr limit
  rw [← hvisible.unique hvisible'] at hfrom
  refine ⟨stats, ?_⟩
  rw [Database.scan_valid h.running hb hpos hmax, Database.scanChecked]
  by_cases hempty : token.isEmpty = true
  · rw [if_pos hempty] at htoken ⊢
    rw [← hfrom, htoken]
  · rw [if_neg hempty] at htoken ⊢
    rw [htoken]
    exact hfrom

/-- The keys of the entries of a range are keys that a page may end at. -/
theorem Visible.resumable {db : Database} (h : ScanSnapshot db) {bounds : ScanBounds}
    {resumeAfter : Bytes} (hr : bounds.StartsAt db.options resumeAfter) {es : List ScanEntry}
    (hes : Visible db.scanRecords (wanted bounds resumeAfter) es) {e : ScanEntry} (he : e ∈ es) :
    bounds.Resumable db.options e.key := by
  obtain ⟨hw, r, hnewest, -⟩ := (hes.mem e).mp he
  obtain ⟨hne, hlen⟩ := h.keys r hnewest.mem
  rw [hnewest.key_eq] at hne hlen
  rw [wanted_eq, Bool.and_eq_true, reached, Bool.and_eq_true, decide_eq_true_eq] at hw
  refine ⟨hne, hlen, ?_, hw.1.2⟩
  rcases hr with rfl | hr
  · exact hw.1.1
  · have hlower := hw.1.1
    rw [scanLower, if_neg (by simpa using hr.ne_nil)] at hlower
    exact hr.first_le.trans hlower

/-- Behind an entry of a range the entries are those that come after it. -/
theorem Visible.behind {rs : List Record} {bounds : ScanBounds} {resumeAfter : Bytes}
    {front back : List ScanEntry} {e : ScanEntry} (hne : e.key ≠ [])
    (h : Visible rs (wanted bounds resumeAfter) (front ++ e :: back)) :
    Visible rs (wanted bounds e.key) back := by
  obtain ⟨-, hback, hfront⟩ := List.pairwise_append.mp h.ascending
  obtain ⟨hlater, hback⟩ := List.pairwise_cons.mp hback
  have hlower : scanLower bounds resumeAfter ≤ e.key := by
    have hw := ((h.mem e).mp (by simp)).1
    rw [wanted_eq, Bool.and_eq_true, reached, Bool.and_eq_true, decide_eq_true_eq] at hw
    exact hw.1.1
  have hkey : ∀ k, wanted bounds e.key k = true ↔ e.key < k ∧ bounds.beforeEnd k = true := by
    intro k
    rw [wanted, if_neg (by simpa using hne), Bool.and_eq_true, decide_eq_true_eq]
  -- a wanted key behind the entry was wanted before
  have hwider : ∀ k, e.key < k → bounds.beforeEnd k = true →
      wanted bounds resumeAfter k = true := by
    intro k hlt hend
    have hle := lt_of_le_of_lt hlower hlt
    unfold wanted
    unfold scanLower at hle
    split at hle
    · rename_i hempty
      rw [if_pos hempty, hend, decide_eq_true hle.le]
      rfl
    · rename_i hempty
      rw [if_neg hempty, hend, decide_eq_true hle]
      rfl
  refine ⟨hback, fun x => ?_⟩
  rw [hkey]
  constructor
  · intro hx
    obtain ⟨hw, hnewest⟩ := (h.mem x).mp (by simp [hx])
    rw [wanted_eq, Bool.and_eq_true, reached, Bool.and_eq_true] at hw
    exact ⟨⟨hlater x hx, hw.1.2⟩, hnewest⟩
  · rintro ⟨⟨hlt, hend⟩, hnewest⟩
    have hx := (h.mem x).mpr ⟨hwider x.key hlt hend, hnewest⟩
    rcases List.mem_append.mp hx with hx | hx
    · exact absurd (hfront x hx e List.mem_cons_self) hlt.asymm
    · rcases List.mem_cons.mp hx with rfl | hx
      · exact absurd hlt (lt_irrefl _)
      · exact hx

/-- A page that is cut ends at an entry, and the rest follows. -/
theorem exists_cut {es : List ScanEntry} {limit : Nat} (hpos : 0 < limit)
    (hcut : limit < es.length) : ∃ front e, es.take limit = front ++ [e] ∧
      es = front ++ e :: es.drop limit ∧ lastEntryKey (es.take limit) = e.key := by
  have hne : es.take limit ≠ [] := by
    rw [← List.length_pos_iff, List.length_take]
    omega
  obtain ⟨front, e, hfront⟩ := (List.eq_nil_or_concat (es.take limit)).resolve_left hne
  rw [List.concat_eq_append] at hfront
  refine ⟨front, e, hfront, ?_, ?_⟩
  · have hsplit := List.take_append_drop limit es
    rw [hfront, List.append_assoc] at hsplit
    exact hsplit.symm
  · rw [hfront, lastEntryKey, List.getLast?_concat]
    rfl

/-- The pages that a token leads to cut the entries it stands for, exactly when their
tokens fit. -/
theorem Resumes.scanPages_iff {db : Database} (h : ScanSnapshot db) {bounds : ScanBounds}
    (hb : bounds.Valid db.options) {limits : List Nat}
    (hlimits : ∀ l ∈ limits, 0 < l ∧ l ≤ db.options.maximumScanEntries) {token : Bytes}
    {es : List ScanEntry} (hes : Resumes db bounds token es) :
    (∃ pages, db.scanPages bounds limits token = .ok pages ∧ Paginates es limits pages) ↔
      TokensFit bounds es limits := by
  induction limits generalizing token es with
  | nil => exact iff_of_true ⟨[], rfl, rfl⟩ trivial
  | cons limit limits ih =>
    obtain ⟨hpos, hmax⟩ := hlimits limit List.mem_cons_self
    have hrest : ∀ l ∈ limits, 0 < l ∧ l ≤ db.options.maximumScanEntries :=
      fun l hl => hlimits l (List.mem_cons_of_mem _ hl)
    obtain ⟨stats, hscan⟩ := hes.scan_eq h hb hpos hmax
    rw [Database.scanPages, hscan, scanFinish, TokensFit]
    by_cases hcut : limit < es.length
    · obtain ⟨front, e, htake, hsplit, hlast⟩ := exists_cut hpos hcut
      obtain ⟨resumeAfter, hr, hvisible, -⟩ := hes
      have hmem : e ∈ es := by
        rw [hsplit]
        simp
      have hkey := hvisible.resumable h hr hmem
      have hlong : limit < (es.take (limit + 1)).length := by
        rw [List.length_take]
        omega
      have hpage : (es.take (limit + 1)).take limit = es.take limit := by
        rw [List.take_take, Nat.min_eq_left (Nat.le_succ limit)]
      have hkeyEq : ((es.take limit).getLast?.map ScanEntry.key).getD [] = e.key := hlast
      rw [if_pos hlong, hpage]
      dsimp only
      rw [hkeyEq, hlast]
      by_cases hfits : scanTokenSize bounds e.key ≤ maxUInt32
      · rw [encodeScanToken_eq hkey.ne_nil hfits]
        dsimp only
        rw [if_pos rfl]
        have htoken : (scanTokenBytes bounds db.version.id db.lastSequence e.key).isEmpty =
            false := rfl
        have hback : Resumes db bounds
            (scanTokenBytes bounds db.version.id db.lastSequence e.key) (es.drop limit) := by
          refine ⟨e.key, Or.inr hkey, ?_, ?_⟩
          · rw [hsplit] at hvisible
            exact hvisible.behind hkey.ne_nil
          · rw [htoken]
            exact decodeScanToken_encode hkey hb.first_le hb.last_le h.version_word
              h.sequence_word hfits
        have hmore := ih hrest hback
        constructor
        · rintro ⟨pages, hok, page, more, rfl, -, -, -, hpages⟩ -
          rw [if_pos hcut] at hpages
          split at hok
          · cases hok
          · rename_i rest hrun
            obtain ⟨-, rfl⟩ := List.cons.inj (Except.ok.inj hok)
            exact ⟨hfits, hmore.mp ⟨_, hrun, hpages⟩⟩
        · intro hall
          obtain ⟨pages, hrun, hpages⟩ := hmore.mpr (hall hcut).2
          rw [hrun]
          refine ⟨_, rfl, _, pages, rfl, rfl, (decide_eq_true hcut).symm, ?_, ?_⟩
          · exact iff_of_true (List.isEmpty_eq_false_iff.mp htoken) hcut
          · rw [if_pos hcut]
            exact hpages
      · obtain ⟨error, herror⟩ := encodeScanToken_error db.version.id db.lastSequence
          (not_le.mp hfits)
        rw [herror]
        refine iff_of_false ?_ (fun hall => hfits (hall hcut).1)
        rintro ⟨pages, hok, -⟩
        cases hok
    · have hle : es.length ≤ limit := not_lt.mp hcut
      have hall : es.take (limit + 1) = es := List.take_of_length_le (by omega)
      rw [hall, if_neg hcut]
      refine iff_of_true ⟨_, rfl, _, [], rfl, ?_, ?_, ?_, ?_⟩ (fun hlt => absurd hlt hcut)
      · exact (List.take_of_length_le hle).symm
      · exact (decide_eq_false hcut).symm
      · exact iff_of_false (not_not.mpr rfl) hcut
      · rw [if_neg hcut]

/-- A call that has to cut its page fails if no token of the range fits. -/
theorem Resumes.scanPages_error {db : Database} (h : ScanSnapshot db) {bounds : ScanBounds}
    (hb : bounds.Valid db.options) {token : Bytes} {es : List ScanEntry}
    (hes : Resumes db bounds token es) {limit : Nat} (hpos : 0 < limit)
    (hmax : limit ≤ db.options.maximumScanEntries) (hcut : limit < es.length)
    (hsize : maxUInt32 < scanTokenSize bounds (lastEntryKey (es.take limit))) (limits : List Nat) :
    ∃ e, db.scanPages bounds (limit :: limits) token = .error e := by
  obtain ⟨stats, hscan⟩ := hes.scan_eq h hb hpos hmax
  have hlong : limit < (es.take (limit + 1)).length := by
    rw [List.length_take]
    omega
  rw [← Nat.min_eq_left (Nat.le_succ limit), ← List.take_take] at hsize
  obtain ⟨error, herror⟩ := scanFinish_error db stats hlong hsize
  refine ⟨error, ?_⟩
  rw [Database.scanPages, hscan, herror]

theorem resumes_start {db : Database} (h : ScanSnapshot db) {bounds : ScanBounds}
    (hb : bounds.Valid db.options) :
    ∃ es, Visible db.scanRecords bounds.contains es ∧ Resumes db bounds [] es := by
  have hstart : bounds.StartsAt db.options [] := Or.inl rfl
  obtain ⟨es, -, hvisible, -⟩ := scanFrom_eq h hb hstart 0
  exact ⟨es, hvisible, [], hstart, hvisible, rfl⟩

/-- The pages of a scan cut the entries of its range into pieces, and together are all of
them once there are enough calls. The one thing in the way is a token that does not fit
into its format. The runs that a call merges for the tables are what the iterators over the
blocks of their files yield. -/
theorem scanPages_exact_iff {db : Database} (h : ScanSnapshot db) {bounds : ScanBounds}
    (hb : bounds.Valid db.options) {limits : List Nat}
    (hlimits : ∀ l ∈ limits, 0 < l ∧ l ≤ db.options.maximumScanEntries) :
    (∃ es, Visible db.scanRecords bounds.contains es ∧
      ((∃ pages, db.scanPages bounds limits [] = .ok pages ∧ Paginates es limits pages ∧
          (es.length < limits.length → pages.flatMap ScanPage.entries = es)) ↔
        TokensFit bounds es limits)) ∧
    ∀ {readers : List TableReader},
      List.Forall₂ (TableReader.Backs db.options) db.tables readers →
      ∀ {resumeAfter : Bytes}, bounds.StartsAt db.options resumeAfter →
        ∃ runs its, tableSources db.options bounds resumeAfter db.tables = .ok runs ∧
          blockSources bounds resumeAfter readers = .ok its ∧
          List.Forall₂ SSTableIterator.Yields runs its := by
  refine ⟨?_, fun hreaders _ hr => blockSources_yield hb hr hreaders⟩
  obtain ⟨es, hvisible, hresumes⟩ := resumes_start h hb
  refine ⟨es, hvisible, ?_⟩
  rw [← hresumes.scanPages_iff h hb hlimits]
  constructor
  · rintro ⟨pages, hok, hpages, -⟩
    exact ⟨pages, hok, hpages⟩
  · rintro ⟨pages, hok, hpages⟩
    exact ⟨pages, hok, hpages, fun hmany =>
      hpages.flatMap_eq (fun l hl => (hlimits l hl).1) hmany⟩

def twoKeysTable : MemTable :=
  (MemTable.empty.insert ⟨[1], 1, .value, [5]⟩).insert ⟨[1, 1], 2, .value, [6]⟩

/-- The file of a table with two keys, each in a block of its own. -/
def twoKeysFile : Bytes :=
  (encodeTable byteShape shortBlocks 1 twoKeysTable.records).toOption.getD []

def twoKeys : SSTableReader where
  path := .sst 1
  metadata := tableSummary 1 333 [⟨[1], 1, .value, [5]⟩, ⟨[1, 1], 2, .value, [6]⟩]
  records := [⟨[1], 1, .value, [5]⟩, ⟨[1, 1], 2, .value, [6]⟩]

theorem twoKeys_backed : ∃ t, TableReader.Backs { toFormatOptions := shortBlocks } twoKeys t := by
  have hencode : encodeTable byteShape shortBlocks 1 twoKeysTable.records = .ok twoKeysFile := by
    decide +kernel
  have hsize : twoKeysFile.length = 333 := by decide +kernel
  obtain ⟨t, gs, hopen, hopened, hflat, hgen, hcontent, -⟩ := encodeTable_opened hencode true
  refine ⟨t, ⟨?_, ?_, ?_⟩⟩
  · rw [hcontent]
    exact hopen
  · rw [hopened.summary, hgen, hcontent, hsize, hflat]
    rfl
  · rw [hopened.readRecords_eq, hflat]
    rfl

/-- A database with that table and a newer value of the first key. -/
def overwritten (o : Options) : Database where
  options := o
  version := ⟨1, 2, 2, []⟩
  mutableTable := MemTable.empty.insert ⟨[1], 3, .value, [7]⟩
  mutableGeneration := 2
  wal := none
  immutable := none
  tables := [twoKeys]
  lastSequence := 3

theorem overwritten_scanRecords (o : Options) : (overwritten o).scanRecords =
    [⟨[1], 3, .value, [7]⟩, ⟨[1], 1, .value, [5]⟩, ⟨[1, 1], 2, .value, [6]⟩] := rfl

theorem overwritten_snapshot {o : Options} (ho : o.accepted = true) (hkey : 2 ≤ o.maxKeySize) :
    ScanSnapshot (overwritten o) where
  accepted := ho
  running := rfl
  ascending := by
    intro t ht
    rw [List.mem_singleton.mp ht]
    decide
  between := by
    intro t ht
    rw [List.mem_singleton.mp ht]
    decide
  keys := by
    have hall : ∀ r ∈ (overwritten {}).scanRecords, r.key ≠ [] ∧ r.key.length ≤ 2 := by decide
    intro r hr
    exact ⟨(hall r hr).1, (hall r hr).2.trans hkey⟩
  distinct := by
    rw [overwritten_scanRecords, DistinctRecords, Distinct]
    decide
  version_word := show 1 ≤ maxUInt64 by decide
  sequence_word := show 3 ≤ maxUInt64 by decide

/-- The newer value hides the older one, and both keys are seen. -/
theorem overwritten_visible (o : Options) {p : Bytes → Bool} (hone : p [1] = true)
    (htwo : p [1, 1] = true) :
    Visible (overwritten o).scanRecords p [⟨[1], [7]⟩, ⟨[1, 1], [6]⟩] where
  ascending := by decide
  mem := by
    intro e
    rw [overwritten_scanRecords, List.mem_cons, List.mem_singleton]
    constructor
    · rintro (rfl | rfl)
      · exact ⟨hone, ⟨[1], 3, .value, [7]⟩, ⟨by decide, rfl, by decide⟩, rfl, rfl⟩
      · exact ⟨htwo, ⟨[1, 1], 2, .value, [6]⟩, ⟨by decide, rfl, by decide⟩, rfl, rfl⟩
    · rintro ⟨-, r, hr, -, hv⟩
      have hkey := hr.key_eq
      have hmem := hr.mem
      rw [List.mem_cons, List.mem_cons, List.mem_singleton] at hmem
      cases e
      rcases hmem with rfl | rfl | rfl
      · exact Or.inl (by simp_all)
      · have hnewer := hr.le ⟨[1], 3, .value, [7]⟩ List.mem_cons_self hkey
        exact absurd hnewer (by decide)
      · exact Or.inr (by simp_all)

/-- Both keys come on a page each, and the iterator over the blocks of the table yields its
two records. -/
theorem scanPages_overwritten :
    (∃ pages, (overwritten { toFormatOptions := shortBlocks }).scanPages ⟨[1], some [2]⟩
        [1, 1, 1] [] = .ok pages ∧
      pages.flatMap ScanPage.entries = [⟨[1], [7]⟩, ⟨[1, 1], [6]⟩]) ∧
    ∃ t it, TableReader.Backs { toFormatOptions := shortBlocks } twoKeys t ∧
      blockSources ⟨[1], some [2]⟩ [] [t] = .ok [it] ∧ it.Yields twoKeys.records := by
  have h : ScanSnapshot (overwritten { toFormatOptions := shortBlocks }) :=
    overwritten_snapshot (by decide +kernel) (by decide)
  have hb : (ScanBounds.mk [1] (some [2])).Valid { toFormatOptions := shortBlocks } := by
    refine ⟨by decide, by decide, ?_⟩
    intro e he
    rw [← Option.some.inj he]
    decide
  obtain ⟨⟨es, hvisible, hpages⟩, hsources⟩ := scanPages_exact_iff h hb
    (by decide : ∀ l ∈ [1, 1, 1], 0 < l ∧ l ≤ 1000)
  rw [hvisible.unique (overwritten_visible _ (by decide) (by decide))] at hpages
  constructor
  · obtain ⟨pages, hok, -, hall⟩ := hpages.mpr (TokensFit.of_keys (by decide) (by decide :
      ∀ e ∈ [ScanEntry.mk [1] [7], ⟨[1, 1], [6]⟩], e.key.length ≤ 2) _)
    exact ⟨pages, hok, hall (by decide)⟩
  · obtain ⟨t, ht⟩ := twoKeys_backed
    obtain ⟨runs, its, hruns, hits, hyields⟩ := hsources (.cons ht .nil) (Or.inl rfl)
    obtain rfl := Except.ok.inj (hruns.symm.trans
      (by decide +kernel : _ = Except.ok [twoKeys.records]))
    cases hyields with
    | cons hit hnil =>
      cases hnil
      exact ⟨t, _, ht, hits, hit⟩

/-- Options under which a bound may take half of what fits into a token, and a page has one
entry. -/
def longBoundOptions : Options := { maxKeySize := 2 ^ 31, maximumScanEntries := 1 }

/-- Bounds of that size on both sides of the two keys. -/
def longBounds : ScanBounds where
  first := List.replicate (2 ^ 31) 0
  last := some (List.replicate (2 ^ 31) 2)

theorem longBounds_first_lt (k : Bytes) : longBounds.first < 1 :: k := by
  have hlt : ∀ n, List.replicate n (0 : Byte) < 1 :: k := by
    intro n
    cases n with
    | zero => exact List.nil_lt_cons _ _
    | succ n => exact List.cons_lt_cons_iff.mpr (Or.inl (by decide))
  exact hlt _

theorem longBounds_lt_last (k : Bytes) : 1 :: k < List.replicate (2 ^ 31) (2 : Byte) := by
  have hlt : ∀ n, 0 < n → 1 :: k < List.replicate n (2 : Byte) := by
    intro n hn
    obtain ⟨m, rfl⟩ := Nat.exists_eq_succ_of_ne_zero hn.ne'
    exact List.cons_lt_cons_iff.mpr (Or.inl (by decide))
  exact hlt _ (by decide)

theorem longBounds_valid : longBounds.Valid longBoundOptions where
  first_le := by
    rw [longBounds, List.length_replicate]
    exact le_refl _
  last_le := by
    rw [longBounds, Option.getD_some, List.length_replicate]
    exact le_refl _
  forward := by
    intro e he
    rw [← Option.some.inj he]
    exact ((longBounds_first_lt []).trans (longBounds_lt_last [])).le

theorem longBounds_contains (k : Bytes) : longBounds.contains (1 :: k) = true := by
  rw [ScanBounds.contains, Bool.and_eq_true]
  exact ⟨decide_eq_true (longBounds_first_lt k).le, decide_eq_true (longBounds_lt_last k)⟩

/-- No token of this range fits. -/
theorem longBounds_tokenSize (k : Bytes) : maxUInt32 < scanTokenSize longBounds k := by
  have hfirst : longBounds.first.length = 2 ^ 31 := List.length_replicate
  have hlast : (longBounds.last.getD []).length = 2 ^ 31 := List.length_replicate
  rw [scanTokenSize, hfirst, hlast, maxUInt32]
  omega

/-- The range has two entries, a page takes one, and its token does not fit: every call fails,
whatever limit it has. -/
theorem scanPages_longBounds :
    ScanSnapshot (overwritten longBoundOptions) ∧ longBounds.Valid longBoundOptions ∧
      ∃ es, Visible (overwritten longBoundOptions).scanRecords longBounds.contains es ∧
        ⟨[1], [7]⟩ ∈ es ∧ ⟨[1, 1], [6]⟩ ∈ es ∧
        ∀ limit limits, 0 < limit → limit ≤ longBoundOptions.maximumScanEntries →
          ∃ e, (overwritten longBoundOptions).scanPages longBounds (limit :: limits) [] =
            .error e := by
  have h : ScanSnapshot (overwritten longBoundOptions) :=
    overwritten_snapshot (by decide +kernel) (by decide)
  obtain ⟨es, hvisible, hresumes⟩ := resumes_start h longBounds_valid
  obtain rfl := hvisible.unique
    (overwritten_visible _ (longBounds_contains []) (longBounds_contains [1]))
  refine ⟨h, longBounds_valid, _, hvisible, by decide, by decide, fun limit limits hpos hmax => ?_⟩
  exact hresumes.scanPages_error h longBounds_valid hpos hmax (Nat.lt_succ_of_le hmax)
    (longBounds_tokenSize _) limits

end MiniKV
