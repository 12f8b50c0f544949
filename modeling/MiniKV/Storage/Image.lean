import MiniKV.Storage.Log

/-!
# Images of the directory

What recovery can see of one directory state: the contents of the file under
every name that is not temporary. An invariant of the disk says the same of the
image of every state that a crash may leave, and each file operation changes
images in one of a few ways.
-/

namespace MiniKV

open Lib

abbrev Image := FileName → Option (Volatile Bytes)

def image (d : Disk) (δ : Dir) : Image := fun f =>
  if f.isTemporary then none else (Dir.lookup δ f).map d.files

/-- Every directory state that a crash may leave has such an image. -/
def Everywhere (Φ : Image → Prop) (st : Store) : Prop :=
  ∀ δ ∈ st.disk.dir.states, Φ (image st.disk δ)

/-- The image a running process sees. -/
abbrev currentImage (st : Store) : Image := image st.disk st.disk.dir.current

theorem image_of_core {d : Disk} {δ : Dir} {f : FileName} (hf : f.Core) :
    image d δ f = (Dir.lookup δ f).map d.files := by
  rw [image, if_neg (by simp [hf])]

theorem image_of_temporary {d : Disk} {δ : Dir} {f : FileName} (hf : ¬ f.Core) :
    image d δ f = none := by
  rw [image, if_pos (by simpa using hf)]

theorem image_ext {d d' : Disk} {δ δ' : Dir}
    (h : ∀ f : FileName, f.Core → (Dir.lookup δ' f).map d'.files = (Dir.lookup δ f).map d.files) :
    image d' δ' = image d δ := by
  funext f
  by_cases hf : f.Core
  · rw [image_of_core hf, image_of_core hf, h f hf]
  · rw [image_of_temporary hf, image_of_temporary hf]

theorem image_eq_some {d : Disk} {δ : Dir} {f : FileName} {v : Volatile Bytes} :
    image d δ f = some v ↔ f.Core ∧ ∃ i, Dir.lookup δ f = some i ∧ d.files i = v := by
  by_cases hf : f.Core
  · rw [image_of_core hf, Option.map_eq_some_iff]
    exact ⟨fun h => ⟨hf, h⟩, fun h => h.2⟩
  · rw [image_of_temporary hf]
    simp [hf]

section

variable {Φ Ψ : Image → Prop} {st st' : Store}

theorem Everywhere.current (h : Everywhere Φ st) : Φ (currentImage st) :=
  h _ (Volatile.current_mem_states _)

theorem Everywhere.mono (h : Everywhere Φ st) (hm : ∀ m, Φ m → Ψ m) : Everywhere Ψ st :=
  fun δ hδ => hm _ (h δ hδ)

theorem Everywhere.and (h : Everywhere Φ st) (h' : Everywhere Ψ st) :
    Everywhere (fun m => Φ m ∧ Ψ m) st := fun δ hδ => ⟨h δ hδ, h' δ hδ⟩

theorem Everywhere.framed (h : Everywhere Φ st) (hs : Disk.Untouched FileName.Core st.disk st'.disk) :
    Everywhere Φ st' := by
  intro δ' hδ'
  obtain ⟨δ, hδ, hsame⟩ := hs.states δ' hδ'
  have he : image st'.disk δ' = image st.disk δ := by
    refine image_ext (fun f hf => ?_)
    rw [hsame f hf]
    cases hl : Dir.lookup δ f with
    | none => rfl
    | some i => rw [Option.map_some, Option.map_some, hs.files δ hδ f i hf hl]
  rw [he]
  exact h δ hδ

theorem Everywhere.sync (h : Everywhere Φ st) : Everywhere Φ (st.onDisk Disk.syncDirectory) := by
  intro δ hδ
  rw [List.mem_singleton.mp hδ]
  exact h.current

theorem Pinned.image_eq {f : FileName} {b : Bytes} (h : Pinned f b st) (hf : f.Core) :
    Everywhere (fun m => m f = some (.stable b)) st := by
  obtain ⟨i, hs, hfile⟩ := h.states
  intro δ hδ
  exact image_eq_some.mpr ⟨hf, i, hs δ hδ, hfile⟩

/-! ## Directory operations -/

/-- Giving the directory one more state. -/
theorem Everywhere.setDir {δ : Dir} (h : Everywhere Φ st) (hnew : Φ (image st.disk δ)) :
    Everywhere Φ (st.onDisk (·.setDir δ)) := by
  intro ε hε
  rcases Disk.mem_states_setDir.mp hε with rfl | hε
  · exact hnew
  · exact h ε hε

theorem image_renamed {src dst : FileName} {i : Inode} {b : Bytes} (hsrc : ¬ src.Core)
    (hdst : dst.Core) (hl : st.disk.lookup src = some i) (hf : st.disk.files i = .stable b) :
    image st.disk (st.disk.dir.current.move src dst) =
      Function.update (currentImage st) dst (some (.stable b)) := by
  funext f
  by_cases hc : f.Core
  · rw [image_of_core hc, Dir.lookup_move hl]
    by_cases he : f = dst
    · rw [if_pos he, he, Function.update_self, Option.map_some, hf]
    · have hne : f ≠ src := by
        intro h
        exact hsrc (h ▸ hc)
      rw [if_neg he, if_neg hne, Function.update_of_ne he, currentImage, image_of_core hc]
  · have he : f ≠ dst := by
      intro h
      exact hc (h ▸ hdst)
    rw [Function.update_of_ne he, currentImage, image_of_temporary hc, image_of_temporary hc]

theorem Everywhere.renamed {src dst : FileName} {i : Inode} {b : Bytes} (h : Everywhere Φ st)
    (hsrc : ¬ src.Core) (hdst : dst.Core) (ht : Temporary src i (.stable b) st)
    (hnew : Φ (Function.update (currentImage st) dst (some (.stable b)))) :
    Everywhere Φ (MiniKV.renamed src dst b st) := by
  refine Everywhere.setDir h ?_
  rw [image_renamed hsrc hdst ht.lookup ht.files]
  exact hnew

theorem image_unlink {f : FileName} :
    image st.disk (st.disk.dir.current.unlink f) = Function.update (currentImage st) f none := by
  funext g
  by_cases hc : g.Core
  · rw [image_of_core hc, Dir.lookup_unlink]
    by_cases he : g = f
    · rw [if_pos he, he, Function.update_self, Option.map_none]
    · rw [if_neg he, Function.update_of_ne he, currentImage, image_of_core hc]
  · rw [image_of_temporary hc]
    by_cases he : g = f
    · rw [he, Function.update_self]
    · rw [Function.update_of_ne he, currentImage, image_of_temporary hc]

theorem Everywhere.removed {f : FileName} (h : Everywhere Φ st)
    (hnew : Φ (Function.update (currentImage st) f none)) :
    Everywhere Φ ((st.onDisk (·.remove f)).note (.removed f)) := by
  refine Everywhere.setDir h ?_
  rw [image_unlink]
  exact hnew

/-- The new inode is in no state before. -/
theorem image_create_of_mem (hwf : st.disk.Wf) {δ : Dir} (hδ : δ ∈ st.disk.dir.states)
    (f : FileName) : image (st.disk.create f) δ = image st.disk δ := by
  refine image_ext (fun g hg => ?_)
  cases hl : Dir.lookup δ g with
  | none => rfl
  | some i =>
    rw [Option.map_some, Option.map_some, Disk.files_create (hwf.linked δ hδ g i hl)]

theorem currentImage_created (hwf : st.disk.Wf) {f : FileName} (hf : f.Core) :
    currentImage (st.onDisk (·.create f)) =
      Function.update (currentImage st) f (some (.stable [])) := by
  show image (st.disk.create f) (st.disk.dir.current.link f st.disk.fresh) = _
  funext g
  by_cases hg : g = f
  · rw [hg, Function.update_self, image_of_core hf, Dir.lookup_link, if_pos rfl,
      Option.map_some, Disk.files_create_fresh]
  · rw [Function.update_of_ne hg, currentImage,
      ← image_create_of_mem hwf (Volatile.current_mem_states _) f]
    by_cases hc : g.Core
    · rw [image_of_core hc, image_of_core hc, Dir.lookup_link, if_neg hg]
    · rw [image_of_temporary hc, image_of_temporary hc]

/-- Creating a file leaves the states before alone and adds one with an empty file. -/
theorem Everywhere.created {f : FileName} (hwf : st.disk.Wf) (hf : f.Core) (h : Everywhere Φ st)
    (hnew : Φ (Function.update (currentImage st) f (some (.stable [])))) :
    Everywhere Φ (st.onDisk (·.create f)) := by
  intro δ hδ
  rcases Disk.mem_states_create.mp hδ with rfl | hδ
  · show Φ (currentImage (st.onDisk (·.create f)))
    rw [currentImage_created hwf hf]
    exact hnew
  · show Φ (image (st.disk.create f) δ)
    rw [image_create_of_mem hwf hδ]
    exact h δ hδ

/-! ## File operations -/

/-- Changing the contents of an inode changes the image under its one name. -/
theorem image_setFile {i : Inode} {v : Volatile Bytes} {δ : Dir} (hwf : st.disk.Wf)
    (hδ : δ ∈ st.disk.dir.states) {f : FileName} (hf : f.Core) (hl : Dir.lookup δ f = some i) :
    image (st.disk.setFile i v) δ = Function.update (image st.disk δ) f (some v) := by
  funext g
  by_cases hg : g = f
  · rw [hg, Function.update_self, image_of_core hf, hl, Option.map_some, Disk.setFile_files_self]
  · rw [Function.update_of_ne hg]
    by_cases hc : g.Core
    · rw [image_of_core hc, image_of_core hc]
      cases hlg : Dir.lookup δ g with
      | none => rfl
      | some j =>
        have hne : j ≠ i := by
          intro he
          exact hg (hwf.unique δ hδ δ hδ g f j hc hf hlg (he ▸ hl))
        rw [Option.map_some, Option.map_some, Disk.setFile_files v hne]
    · rw [image_of_temporary hc, image_of_temporary hc]

/-- An inode without a name that recovery reads does not show. -/
theorem image_setFile_of_unlinked {i : Inode} {v : Volatile Bytes} {δ : Dir}
    (hl : ∀ f : FileName, f.Core → Dir.lookup δ f ≠ some i) :
    image (st.disk.setFile i v) δ = image st.disk δ := by
  refine image_ext (fun f hf => ?_)
  cases hlf : Dir.lookup δ f with
  | none => rfl
  | some j =>
    have hne : j ≠ i := by
      intro he
      exact hl f hf (he ▸ hlf)
    rw [Option.map_some, Option.map_some, Disk.setFile_files v hne]

/-- A file that is linked under one name in every state. -/
theorem Everywhere.setFile {i : Inode} {v : Volatile Bytes} {f : FileName} (hwf : st.disk.Wf)
    (hf : f.Core) (hl : ∀ δ ∈ st.disk.dir.states, Dir.lookup δ f = some i) (h : Everywhere Φ st)
    (hnew : ∀ m : Image, m f = some (st.disk.files i) → Φ m →
      Ψ (Function.update m f (some v))) :
    Everywhere Ψ (st.onDisk (·.setFile i v)) := by
  intro δ hδ
  show Ψ (image (st.disk.setFile i v) δ)
  rw [image_setFile hwf hδ hf (hl δ hδ)]
  exact hnew _ (image_eq_some.mpr ⟨hf, i, hl δ hδ, rfl⟩) (h δ hδ)

/-! ## A crash -/

/-- What a crash may leave of an image: of every file one of its states. -/
def Image.Survivor (m m' : Image) : Prop :=
  ∀ f, (m f = none ∧ m' f = none) ∨
    ∃ v c, m f = some v ∧ c ∈ v.states ∧ m' f = some (.stable c)

theorem image_crash (d : Disk) (k : Nat) (cut : Inode → Nat) (δ : Dir) :
    (image d δ).Survivor (image (d.crash k cut) δ) := by
  intro f
  by_cases hf : f.Core
  · rw [image_of_core hf, image_of_core hf]
    cases Dir.lookup δ f with
    | none => exact Or.inl ⟨rfl, rfl⟩
    | some i =>
      exact Or.inr ⟨d.files i, _, rfl, (d.files i).survivor_mem_states (cut i), rfl⟩
  · exact Or.inl ⟨image_of_temporary hf, image_of_temporary hf⟩

/-- What survives a crash of every image holds after it. -/
theorem Everywhere.crash (h : Everywhere Φ st) (hΨ : ∀ m m', Φ m → Image.Survivor m m' → Ψ m')
    (k : Nat) (cut : Inode → Nat) :
    Everywhere Ψ { st with disk := st.disk.crash k cut } := by
  intro δ hδ
  have he : δ = st.disk.dir.survivor k := List.mem_singleton.mp hδ
  have hmem : δ ∈ st.disk.dir.states := he ▸ st.disk.dir.survivor_mem_states k
  exact hΨ _ _ (h δ hmem) (image_crash st.disk k cut δ)

end

end MiniKV
