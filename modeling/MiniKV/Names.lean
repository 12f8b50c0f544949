import MiniKV.Basic
import Mathlib.Data.List.Induction

/-!
# File names

In the directory a file name is a byte string: `GenerationFileName` writes the
generation as twenty decimal digits, `ParseGenerationFile` reads them back, and
`Open` goes by what it reads. To the rest of the code a file that it has named
itself is its kind and its generation, so a `FileName` is one of those, or a
byte string that is none of them; every byte string is one `FileName`.
-/

namespace MiniKV

/-- The files that are numbered by a generation. -/
inductive GenerationKind where
  | table | log
  deriving DecidableEq, Repr

/-- `"sst"` and `"wal"` -/
def GenerationKind.extension : GenerationKind → Bytes
  | .table => [115, 115, 116]
  | .log => [119, 97, 108]

/-- A number as a stream in the classic locale prints it. -/
def decimal (n : Nat) : Bytes := (Nat.toDigits 10 n).map (fun c => Fin.ofNat 256 c.toNat)

/-- `GenerationFileName` -/
def generationFileName (generation : Nat) (extension : Bytes) : Bytes :=
  (decimal generation).leftpad 20 48 ++ 46 :: extension

/-- A name inside a message. -/
def asText (name : Bytes) : String := String.ofList (name.map (fun c => Char.ofNat c.val))

/-- `std::isdigit` in the classic locale. -/
abbrev IsDigit (c : Byte) : Prop := 48 ≤ c.val ∧ c.val ≤ 57

/-- The loop of `ParseGenerationFile` over the digits, in 64-bit arithmetic. -/
def parseDigits (value : Nat) : Bytes → Option Nat
  | [] => some value
  | c :: cs =>
    if ¬ IsDigit c then none
    else
      let digit := c.val - 48
      if (maxUInt64 - digit) / 10 < value then none
      else parseDigits ((value * 10 + digit) % 2 ^ 64) cs

/-- `ParseGenerationFile` -/
def parseGenerationFile (name extension : Bytes) : Option Nat :=
  if name.length ≠ 24 ∨ name.getD 20 0 ≠ 46 ∨ name.drop 21 ≠ extension then none
  else match parseDigits 0 (name.take 20) with
    | none => none
    | some value => if value = 0 then none else some value

/-! ## Decimal numbers -/

/-- The number that digits behind a number are read as. -/
def decimalFrom (value : Nat) (ds : Bytes) : Nat :=
  ds.foldl (fun v c => v * 10 + (c.val - 48)) value

@[simp] theorem decimalFrom_nil (value : Nat) : decimalFrom value [] = value := rfl

@[simp] theorem decimalFrom_cons (value : Nat) (c : Byte) (ds : Bytes) :
    decimalFrom value (c :: ds) = decimalFrom (value * 10 + (c.val - 48)) ds := by
  rw [decimalFrom, List.foldl_cons, decimalFrom]

theorem decimalFrom_append (value : Nat) (ds es : Bytes) :
    decimalFrom value (ds ++ es) = decimalFrom (decimalFrom value ds) es := List.foldl_append

theorem le_decimalFrom (value : Nat) (ds : Bytes) : value ≤ decimalFrom value ds := by
  induction ds generalizing value with
  | nil => exact le_refl _
  | cons c ds ih =>
    rw [decimalFrom_cons]
    have h := ih (value * 10 + (c.val - 48))
    omega

/-- The digits of a number are determined by it and by how many they are. -/
theorem decimalFrom_injective {ds es : Bytes} (hlen : ds.length = es.length)
    (hd : ∀ c ∈ ds, IsDigit c) (he : ∀ c ∈ es, IsDigit c)
    (h : decimalFrom 0 ds = decimalFrom 0 es) : ds = es := by
  induction ds using List.reverseRecOn generalizing es with
  | nil => exact (List.length_eq_zero_iff.mp hlen.symm).symm
  | append_singleton ds c ih =>
    rcases List.eq_nil_or_concat es with rfl | ⟨es, c', rfl⟩
    · simp at hlen
    rw [List.concat_eq_append] at hlen he h ⊢
    have hc := hd c (by simp)
    have hc' := he c' (by simp)
    rw [decimalFrom_append, decimalFrom_append] at h
    simp only [decimalFrom_cons, decimalFrom_nil] at h
    have hlen' : ds.length = es.length := by simpa using hlen
    rw [ih hlen' (fun x hx => hd x (by simp [hx])) (fun x hx => he x (by simp [hx])) (by omega),
      Fin.ext (by omega : c.val = c'.val)]

/-- A number is printed in digits that read as it. -/
theorem decimal_digits (n : Nat) : (∀ c ∈ decimal n, IsDigit c) ∧ decimalFrom 0 (decimal n) = n := by
  have hdigit : ∀ d, d < 10 → (Fin.ofNat 256 d.digitChar.toNat : Byte).val = 48 + d := by
    intro d hd
    rw [Nat.toNat_digitChar_of_lt_ten hd]
    exact Nat.mod_eq_of_lt (by omega)
  unfold decimal
  induction n using Nat.strong_induction_on with
  | h n ih =>
    rw [Nat.toDigits_eq_if (by decide)]
    split
    · rename_i hlt
      have hn := hdigit n hlt
      simp only [List.map_cons, List.map_nil, List.mem_singleton, forall_eq, decimalFrom_cons,
        decimalFrom_nil]
      omega
    · rename_i hge
      obtain ⟨hall, hvalue⟩ := ih (n / 10) (by omega)
      have hn := hdigit (n % 10) (Nat.mod_lt _ (by decide))
      rw [List.map_append, decimalFrom_append, hvalue]
      simp only [List.map_cons, List.map_nil, List.mem_append, List.mem_singleton,
        decimalFrom_cons, decimalFrom_nil]
      refine ⟨fun c hc => ?_, by omega⟩
      rcases hc with hc | rfl
      · exact hall c hc
      · omega

/-- Zeros in front change nothing. -/
theorem decimalFrom_leftpad (width : Nat) (ds : Bytes) :
    decimalFrom 0 (ds.leftpad width 48) = decimalFrom 0 ds := by
  have hzeros : ∀ n, decimalFrom 0 (List.replicate n 48) = 0 := by
    intro n
    induction n with
    | zero => rfl
    | succ n ih => rw [List.replicate_succ, decimalFrom_cons]; exact ih
  rw [List.leftpad, decimalFrom_append, hzeros]

/-- The number part of a name. -/
theorem leftpad_decimal {g : Nat} (hg : g ≤ maxUInt64) :
    ((decimal g).leftpad 20 48).length = 20 ∧ (∀ c ∈ (decimal g).leftpad 20 48, IsDigit c) ∧
      decimalFrom 0 ((decimal g).leftpad 20 48) = g := by
  obtain ⟨hall, hvalue⟩ := decimal_digits g
  have hlen : (decimal g).length ≤ 20 := by
    rw [decimal, List.length_map, Nat.length_toDigits_le_iff (by decide) (by decide)]
    exact lt_of_le_of_lt hg (by decide)
  refine ⟨?_, fun c hc => ?_, by rw [decimalFrom_leftpad, hvalue]⟩
  · rw [List.leftpad, List.length_append, List.length_replicate]
    omega
  · rcases List.mem_append.mp hc with hc | hc
    · rw [List.eq_of_mem_replicate hc]
      decide
    · exact hall c hc

/-! ## Parsing -/

/-- The test in front of a step of the loop is exact, so the step does not wrap. -/
theorem digit_fits {value digit : Nat} (hd : digit ≤ 9) :
    (maxUInt64 - digit) / 10 < value ↔ maxUInt64 < value * 10 + digit := by
  simp only [maxUInt64]
  omega

/-- The loop reads the digits it is given, unless their number has more than 64 bits. -/
theorem parseDigits_eq (value : Nat) (ds : Bytes) (hv : value ≤ maxUInt64) :
    parseDigits value ds =
      if (∀ c ∈ ds, IsDigit c) ∧ decimalFrom value ds ≤ maxUInt64 then some (decimalFrom value ds)
      else none := by
  induction ds generalizing value with
  | nil => simp [parseDigits, hv]
  | cons c ds ih =>
    rw [parseDigits, decimalFrom_cons]
    by_cases hc : IsDigit c
    swap
    · rw [if_pos hc, if_neg (fun h => hc (h.1 c List.mem_cons_self))]
    rw [if_neg (not_not.mpr hc)]
    dsimp only
    have hfits : (maxUInt64 - (c.val - 48)) / 10 < value ↔ maxUInt64 < value * 10 + (c.val - 48) :=
      digit_fits (by omega)
    have hgrows := le_decimalFrom (value * 10 + (c.val - 48)) ds
    by_cases hbig : maxUInt64 < value * 10 + (c.val - 48)
    · rw [if_pos (hfits.mpr hbig), if_neg (fun h => by omega)]
    · have hmod : (value * 10 + (c.val - 48)) % 2 ^ 64 = value * 10 + (c.val - 48) :=
        Nat.mod_eq_of_lt (by simp only [maxUInt64] at hbig; omega)
      rw [if_neg (fun h => hbig (hfits.mp h)), hmod, ih _ (not_lt.mp hbig)]
      simp only [List.forall_mem_cons, eq_true hc, true_and]

theorem parseDigits_zero (ds : Bytes) {value : Nat} : parseDigits 0 ds = some value ↔
    (∀ c ∈ ds, IsDigit c) ∧ value ≤ maxUInt64 ∧ value = decimalFrom 0 ds := by
  rw [parseDigits_eq 0 ds (Nat.zero_le _)]
  constructor
  · intro h
    split at h
    · rename_i hds
      obtain rfl := Option.some.inj h
      exact ⟨hds.1, hds.2, rfl⟩
    · cases h
  · rintro ⟨hds, hle, rfl⟩
    rw [if_pos ⟨hds, hle⟩]

/-- What a name is parsed as. -/
theorem parseGenerationFile_eq_some {name extension : Bytes} {g : Nat} :
    parseGenerationFile name extension = some g ↔ ∃ ds, name = ds ++ 46 :: extension ∧
      ds.length = 20 ∧ extension.length = 3 ∧ (∀ c ∈ ds, IsDigit c) ∧ g ≠ 0 ∧ g ≤ maxUInt64 ∧
      g = decimalFrom 0 ds := by
  unfold parseGenerationFile
  constructor
  · intro h
    split at h
    · cases h
    rename_i hshape
    simp only [not_or, not_not] at hshape
    obtain ⟨hlen, hdot, hext⟩ := hshape
    split at h
    · cases h
    rename_i value hparse
    split at h
    · cases h
    rename_i hne
    obtain rfl := Option.some.inj h
    obtain ⟨hdigits, hle, heq⟩ := (parseDigits_zero _).mp hparse
    refine ⟨name.take 20, ?_, by rw [List.length_take]; omega, ?_, hdigits, hne, hle, heq⟩
    · have hlt : 20 < name.length := by omega
      rw [List.getD_eq_getElem?_getD, List.getElem?_eq_getElem hlt, Option.getD_some] at hdot
      rw [← hext, ← hdot, ← List.drop_eq_getElem_cons hlt, List.take_append_drop]
    · rw [← hext, List.length_drop]
      omega
  · rintro ⟨ds, rfl, hlen, hext, hdigits, hne, hle, heq⟩
    have htake : (ds ++ 46 :: extension).take 20 = ds := List.take_left' hlen
    have hdot : (ds ++ 46 :: extension).getD 20 0 = 46 := by
      rw [List.getD_eq_getElem?_getD, List.getElem?_append_right (by omega), hlen]
      rfl
    have hdrop : (ds ++ 46 :: extension).drop 21 = extension := by
      rw [show 21 = 20 + 1 from rfl, ← List.drop_drop, List.drop_left' hlen]
      rfl
    have hshape : ¬ ((ds ++ 46 :: extension).length ≠ 24 ∨
        (ds ++ 46 :: extension).getD 20 0 ≠ 46 ∨
        (ds ++ 46 :: extension).drop 21 ≠ extension) := by
      rw [hdot, hdrop, List.length_append, List.length_cons, hlen, hext]
      simp
    rw [if_neg hshape, htake, (parseDigits_zero ds).mpr ⟨hdigits, hle, heq⟩]
    exact if_neg hne

theorem parseGenerationFile_name {g : Nat} (hne : g ≠ 0) (hg : g ≤ maxUInt64) {extension : Bytes}
    (hext : extension.length = 3) :
    parseGenerationFile (generationFileName g extension) extension = some g := by
  obtain ⟨hlen, hdigits, hvalue⟩ := leftpad_decimal hg
  exact parseGenerationFile_eq_some.mpr ⟨_, rfl, hlen, hext, hdigits, hne, hg, hvalue.symm⟩

theorem eq_generationFileName {name extension : Bytes} {g : Nat}
    (h : parseGenerationFile name extension = some g) : name = generationFileName g extension := by
  obtain ⟨ds, rfl, hlen, -, hdigits, -, hg, hvalue⟩ := parseGenerationFile_eq_some.mp h
  obtain ⟨hlen', hdigits', hvalue'⟩ := leftpad_decimal hg
  rw [generationFileName, decimalFrom_injective (hlen.trans hlen'.symm) hdigits hdigits'
    (hvalue.symm.trans hvalue'.symm)]

/-- The names of a kind and its generations are the same thing to both routines, and the
digits are read without wrapping: as the number they stand for, or not at all. -/
theorem generationFileName_bijective (kind : GenerationKind) :
    (∀ g, g ≠ 0 → g ≤ maxUInt64 →
      parseGenerationFile (generationFileName g kind.extension) kind.extension = some g) ∧
    (∀ name g, parseGenerationFile name kind.extension = some g →
      name = generationFileName g kind.extension) ∧
    ∀ ds : Bytes, ds.length = 20 → (∀ c ∈ ds, IsDigit c) → ∀ k,
      parseDigits 0 (ds.take k) = if decimalFrom 0 (ds.take k) ≤ maxUInt64
        then some (decimalFrom 0 (ds.take k)) else none := by
  have hext : kind.extension.length = 3 := by cases kind <;> rfl
  refine ⟨fun g hne hg => parseGenerationFile_name hne hg hext,
    fun name g h => eq_generationFileName h, fun ds _ hdigits k => ?_⟩
  have htake : ∀ c ∈ ds.take k, IsDigit c := fun c hc => hdigits c (List.mem_of_mem_take hc)
  rw [parseDigits_eq 0 _ (Nat.zero_le _)]
  simp only [eq_true htake, true_and]

/-- The greatest generation has a name, a name is that of its generation, and the greatest
number of twenty digits is not read. -/
theorem generationFileName_bijective_greatest :
    parseGenerationFile (generationFileName maxUInt64 GenerationKind.log.extension)
      GenerationKind.log.extension = some maxUInt64 ∧
    List.replicate 19 48 ++ [55, 46, 115, 115, 116] =
      generationFileName 7 GenerationKind.table.extension ∧
    parseDigits 0 ((List.replicate 20 57).take 20) = none := by
  have hnines : ∀ c ∈ List.replicate 20 (57 : Byte), IsDigit c := by
    intro c hc
    rw [List.eq_of_mem_replicate hc]
    decide
  refine ⟨(generationFileName_bijective .log).1 _ (by decide) (le_refl _),
    (generationFileName_bijective .table).2.1 _ 7 (by decide +kernel), ?_⟩
  rw [(generationFileName_bijective .log).2.2 _ List.length_replicate hnines 20]
  decide +kernel

/-! ## The files of a directory -/

/-- `"MANIFEST"` -/
def kManifestFileName : Bytes := [77, 65, 78, 73, 70, 69, 83, 84]

/-- `".tmp"` -/
def temporarySuffix : Bytes := [46, 116, 109, 112]

/-- `IsStorageTemporaryFile` -/
def isStorageTemporaryFile (name : Bytes) : Bool :=
  name = kManifestFileName ++ temporarySuffix ∨ (8 < name.length ∧
    name.drop (name.length - 8) = 46 :: GenerationKind.table.extension ++ temporarySuffix)

/-- What the loop of `Open` over the directory takes a name for. -/
inductive NameKind where
  | manifest
  | table (generation : Nat)
  | log (generation : Nat)
  | temporary
  | unknown
  deriving DecidableEq, Repr

/-- One turn of that loop. -/
def readName (name : Bytes) : NameKind :=
  if name = kManifestFileName then .manifest
  else match parseGenerationFile name GenerationKind.table.extension with
    | some generation => .table generation
    | none => match parseGenerationFile name GenerationKind.log.extension with
      | some generation => .log generation
      | none => if isStorageTemporaryFile name then .temporary else .unknown

/-- A byte string that the database gives no file as its name. -/
structure Foreign (name : Bytes) : Prop where
  manifest : name ≠ kManifestFileName
  manifestTmp : name ≠ kManifestFileName ++ temporarySuffix
  sst : ∀ n, name ≠ generationFileName n GenerationKind.table.extension
  sstTmp : ∀ n, name ≠ generationFileName n GenerationKind.table.extension ++ temporarySuffix
  wal : ∀ n, name ≠ generationFileName n GenerationKind.log.extension

/-- The name of a file in a database directory. -/
inductive FileName where
  | manifest | manifestTmp
  | sst (generation : Nat) | sstTmp (generation : Nat)
  | wal (generation : Nat)
  /-- A file that somebody else has put there. -/
  | other (name : Bytes) (foreign : Foreign name)
  deriving DecidableEq, Repr

namespace FileName

/-- The byte string that stands in the directory. -/
def text : FileName → Bytes
  | .manifest => kManifestFileName
  | .manifestTmp => kManifestFileName ++ temporarySuffix
  | .sst n => generationFileName n GenerationKind.table.extension
  | .sstTmp n => generationFileName n GenerationKind.table.extension ++ temporarySuffix
  | .wal n => generationFileName n GenerationKind.log.extension
  | .other name _ => name

/-- A file that `Open` takes for a temporary one. -/
def isTemporary : FileName → Bool
  | .manifestTmp => true
  | .sstTmp _ => true
  | .other name _ => isStorageTemporaryFile name
  | _ => false

end FileName

/-- A number and an extension make one name. -/
theorem generationFileName_inj {g g' : Nat} {extension extension' : Bytes}
    (hlen : extension.length = extension'.length)
    (h : generationFileName g extension = generationFileName g' extension') :
    g = g' ∧ extension = extension' := by
  obtain ⟨hnumber, hext⟩ := List.append_inj' h (by rw [List.length_cons, List.length_cons, hlen])
  refine ⟨?_, (List.cons.inj hext).2⟩
  rw [← (decimal_digits g).2, ← (decimal_digits g').2, ← decimalFrom_leftpad 20, hnumber,
    decimalFrom_leftpad]

/-- What the file names of the database end with. -/
theorem getLast?_generationFileName (g : Nat) {extension : Bytes} (hext : extension ≠ []) :
    (generationFileName g extension).getLast? = extension.getLast? := by
  rw [generationFileName, List.getLast?_append, List.getLast?_cons]
  cases hlast : extension.getLast? with
  | none => exact absurd (List.getLast?_eq_none_iff.mp hlast) hext
  | some c => rfl

theorem getLast?_of_temporary {name : Bytes} (h : isStorageTemporaryFile name = true) :
    name.getLast? = some 112 := by
  rw [isStorageTemporaryFile, decide_eq_true_eq] at h
  rcases h with rfl | ⟨-, h⟩
  · rfl
  · rw [← List.take_append_drop (name.length - 8) name, h, List.getLast?_append]
    rfl

namespace FileName

@[simp] theorem getLast?_manifest : manifest.text.getLast? = some 84 := rfl

@[simp] theorem getLast?_manifestTmp : manifestTmp.text.getLast? = some 112 := rfl

@[simp] theorem getLast?_sst (n : Nat) : (sst n).text.getLast? = some 116 :=
  getLast?_generationFileName n (by decide)

@[simp] theorem getLast?_sstTmp (n : Nat) : (sstTmp n).text.getLast? = some 112 := by
  rw [text, List.getLast?_append]
  rfl

@[simp] theorem getLast?_wal (n : Nat) : (wal n).text.getLast? = some 108 :=
  getLast?_generationFileName n (by decide)

/-- No two files have the same name. -/
theorem text_injective : Function.Injective text := by
  -- most pairs differ in the last byte
  have hlast : ∀ {f g : FileName}, f.text = g.text → f.text.getLast? ≠ g.text.getLast? → f = g :=
    fun h hne => absurd (congrArg List.getLast? h) hne
  have htmp : ∀ n, (sstTmp n).text ≠ manifestTmp.text := by
    intro n h
    have hstem := List.append_cancel_right h
    have hbyte := congrArg List.getLast? hstem
    rw [getLast?_generationFileName n (by decide)] at hbyte
    exact absurd hbyte (by decide)
  have hnumber : ∀ {n m : Nat} {extension : Bytes},
      generationFileName n extension = generationFileName m extension → n = m :=
    fun h => (generationFileName_inj rfl h).1
  intro f g h
  cases f with
  | manifest =>
    cases g with
    | manifest => rfl
    | other name hname => exact absurd h.symm hname.manifest
    | _ => exact hlast h (by simp)
  | manifestTmp =>
    cases g with
    | manifestTmp => rfl
    | sstTmp n => exact absurd h.symm (htmp n)
    | other name hname => exact absurd h.symm hname.manifestTmp
    | _ => exact hlast h (by simp)
  | sst n =>
    cases g with
    | sst m => rw [hnumber h]
    | other name hname => exact absurd h.symm (hname.sst n)
    | _ => exact hlast h (by simp)
  | sstTmp n =>
    cases g with
    | manifestTmp => exact absurd h (htmp n)
    | sstTmp m => rw [hnumber (List.append_cancel_right h)]
    | other name hname => exact absurd h.symm (hname.sstTmp n)
    | _ => exact hlast h (by simp)
  | wal n =>
    cases g with
    | wal m => rw [hnumber h]
    | other name hname => exact absurd h.symm (hname.wal n)
    | _ => exact hlast h (by simp)
  | other name hname =>
    cases g with
    | manifest => exact absurd h hname.manifest
    | manifestTmp => exact absurd h hname.manifestTmp
    | sst n => exact absurd h (hname.sst n)
    | sstTmp n => exact absurd h (hname.sstTmp n)
    | wal n => exact absurd h (hname.wal n)
    | other name' hname' =>
      have heq : name = name' := h
      subst heq
      rfl

/-- Every byte string is the name of a file. -/
theorem text_surjective : Function.Surjective text := by
  intro name
  by_cases hname : Foreign name
  · exact ⟨.other name hname, rfl⟩
  by_contra hno
  have hne : ∀ f : FileName, name ≠ f.text := fun f h => hno ⟨f, h.symm⟩
  exact hname ⟨hne .manifest, hne .manifestTmp, fun n => hne (.sst n), fun n => hne (.sstTmp n),
    fun n => hne (.wal n)⟩

/-- A file that `Open` takes for a table, by its generation. -/
def sstNumber (f : FileName) : Option Nat :=
  match readName f.text with
  | .table generation => some generation
  | _ => none

/-- A file that `Open` takes for a log, by its generation. -/
def walNumber (f : FileName) : Option Nat :=
  match readName f.text with
  | .log generation => some generation
  | _ => none

end FileName

/-! ## What `Open` makes of a name -/

/-- The file of a generation. -/
def GenerationKind.file : GenerationKind → Nat → FileName
  | .table => .sst
  | .log => .wal

theorem GenerationKind.text_file (kind : GenerationKind) (g : Nat) :
    (kind.file g).text = generationFileName g kind.extension := by
  cases kind <;> rfl

namespace FileName

variable {f : FileName}

theorem text_eq_manifest : f.text = kManifestFileName ↔ f = .manifest :=
  ⟨fun h => text_injective h, fun h => congrArg text h⟩

/-- Names are parsed as what they are, and numbers that are no generation not at all. -/
theorem parse_text {kind : GenerationKind} {g : Nat} :
    parseGenerationFile f.text kind.extension = some g ↔
      f = kind.file g ∧ g ≠ 0 ∧ g ≤ maxUInt64 := by
  constructor
  · intro h
    obtain ⟨-, -, -, -, -, hne, hg, -⟩ := parseGenerationFile_eq_some.mp h
    refine ⟨text_injective ?_, hne, hg⟩
    rw [eq_generationFileName h, kind.text_file]
  · rintro ⟨rfl, hne, hg⟩
    rw [kind.text_file]
    exact parseGenerationFile_name hne hg (by cases kind <;> rfl)

theorem isStorageTemporaryFile_text (f : FileName) :
    isStorageTemporaryFile f.text = f.isTemporary := by
  have hno : f.text.getLast? ≠ some 112 → isStorageTemporaryFile f.text = false := by
    intro hlast
    by_contra hne
    exact hlast (getLast?_of_temporary ((Bool.not_eq_false _).mp hne))
  cases f with
  | manifest => exact hno (by simp)
  | manifestTmp => decide
  | sst n => exact hno (by simp)
  | sstTmp n =>
    have hlen : 8 ≤ (generationFileName n GenerationKind.table.extension).length := by
      rw [generationFileName, List.length_append, List.leftpad, List.length_append,
        List.length_replicate]
      omega
    refine decide_eq_true (Or.inr ⟨?_, ?_⟩)
    · rw [text, List.length_append]
      exact Nat.lt_of_le_of_lt hlen (Nat.lt_add_of_pos_right (by decide))
    · have htext : (sstTmp n).text = (decimal n).leftpad 20 48 ++
          (46 :: GenerationKind.table.extension ++ temporarySuffix) := by
        rw [text, generationFileName, List.append_assoc]
      rw [htext, List.length_append]
      exact List.drop_left' (Nat.add_sub_cancel _ _).symm
  | wal n => exact hno (by simp)
  | other name hname => rfl

/-- What `Open` takes a file for. A generation is a 64-bit number other than zero. -/
def kind : FileName → NameKind
  | .manifest => .manifest
  | .manifestTmp => .temporary
  | .sst n => if n ≠ 0 ∧ n ≤ maxUInt64 then .table n else .unknown
  | .sstTmp _ => .temporary
  | .wal n => if n ≠ 0 ∧ n ≤ maxUInt64 then .log n else .unknown
  | .other name _ => if isStorageTemporaryFile name then .temporary else .unknown

theorem readName_text (f : FileName) : readName f.text = f.kind := by
  have hnone : ∀ kind : GenerationKind, (∀ g, f = kind.file g → ¬ (g ≠ 0 ∧ g ≤ maxUInt64)) →
      parseGenerationFile f.text kind.extension = none := by
    intro kind h
    cases hparse : parseGenerationFile f.text kind.extension with
    | none => rfl
    | some g =>
      obtain ⟨hf, hg⟩ := parse_text.mp hparse
      exact absurd hg (h g hf)
  -- where no generation is read, the ending decides
  have hrest : f ≠ .manifest → (∀ g, f = .sst g → ¬ (g ≠ 0 ∧ g ≤ maxUInt64)) →
      (∀ g, f = .wal g → ¬ (g ≠ 0 ∧ g ≤ maxUInt64)) →
      readName f.text = if f.isTemporary then .temporary else .unknown := by
    intro hne htable hlog
    rw [readName, if_neg (fun h => hne (text_eq_manifest.mp h)), hnone .table htable, hnone .log hlog,
      isStorageTemporaryFile_text]
  cases f with
  | manifest => exact if_pos rfl
  | manifestTmp => exact hrest (by simp) (by simp) (by simp)
  | sstTmp n => exact hrest (by simp) (by simp) (by simp)
  | other name hname => exact hrest (by simp) (by simp) (by simp)
  | sst n =>
    by_cases hn : n ≠ 0 ∧ n ≤ maxUInt64
    · have hparse : parseGenerationFile (sst n).text GenerationKind.table.extension = some n :=
        parse_text.mpr ⟨rfl, hn⟩
      rw [readName, if_neg (by simp [text_eq_manifest]), hparse, kind, if_pos hn]
    · rw [kind, if_neg hn]
      exact hrest (by simp) (fun g hg => FileName.sst.inj hg ▸ hn) (by simp)
  | wal n =>
    by_cases hn : n ≠ 0 ∧ n ≤ maxUInt64
    · have hparse : parseGenerationFile (wal n).text GenerationKind.log.extension = some n :=
        parse_text.mpr ⟨rfl, hn⟩
      rw [readName, if_neg (by simp [text_eq_manifest]), hnone .table (fun g hg => by cases hg),
        hparse, kind, if_pos hn]
    · rw [kind, if_neg hn]
      exact hrest (by simp) (by simp) (fun g hg => FileName.wal.inj hg ▸ hn)

theorem readName_eq_manifest : readName f.text = .manifest ↔ f = .manifest := by
  rw [readName_text]
  cases f <;> simp [kind]
  all_goals split <;> simp

theorem readName_eq_table {n : Nat} :
    readName f.text = .table n ↔ f = .sst n ∧ n ≠ 0 ∧ n ≤ maxUInt64 := by
  rw [readName_text]
  constructor
  · intro h
    cases f with
    | sst m =>
      by_cases hm : m ≠ 0 ∧ m ≤ maxUInt64
      · rw [kind, if_pos hm] at h
        cases h
        exact ⟨rfl, hm⟩
      · rw [kind, if_neg hm] at h
        cases h
    | wal m => rw [kind] at h; split at h <;> cases h
    | other name hname => rw [kind] at h; split at h <;> cases h
    | _ => cases h
  · rintro ⟨rfl, hn⟩
    exact if_pos hn

theorem readName_eq_log {n : Nat} :
    readName f.text = .log n ↔ f = .wal n ∧ n ≠ 0 ∧ n ≤ maxUInt64 := by
  rw [readName_text]
  constructor
  · intro h
    cases f with
    | wal m =>
      by_cases hm : m ≠ 0 ∧ m ≤ maxUInt64
      · rw [kind, if_pos hm] at h
        cases h
        exact ⟨rfl, hm⟩
      · rw [kind, if_neg hm] at h
        cases h
    | sst m => rw [kind] at h; split at h <;> cases h
    | other name hname => rw [kind] at h; split at h <;> cases h
    | _ => cases h
  · rintro ⟨rfl, hn⟩
    exact if_pos hn

theorem sstNumber_eq_some {n : Nat} :
    f.sstNumber = some n ↔ f = .sst n ∧ n ≠ 0 ∧ n ≤ maxUInt64 := by
  rw [sstNumber, ← readName_eq_table]
  cases readName f.text <;> simp

theorem walNumber_eq_some {n : Nat} :
    f.walNumber = some n ↔ f = .wal n ∧ n ≠ 0 ∧ n ≤ maxUInt64 := by
  rw [walNumber, ← readName_eq_log]
  cases readName f.text <;> simp

end FileName

end MiniKV
