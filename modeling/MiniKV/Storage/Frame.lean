import MiniKV.Open

/-!
# What file operations leave alone

Publishing a file works on a temporary name first. Up to the rename nothing a
database is recovered from changes: neither the files under the other names,
in any directory state that a crash may leave, nor their contents. While several
files are being published the temporary names of those already written are
protected in the same way, so the names to leave alone are a parameter.
-/

namespace MiniKV

open Lib

/-- A name that recovery reads: not a temporary one. -/
abbrev FileName.Core (f : FileName) : Prop := f.isTemporary = false

namespace Disk

/-- No name stands twice in a directory. Inodes in use have been handed out, none serves two
names that recovery reads, a log has no other name at all, and no file is longer than a file
can be. -/
structure Wf (d : Disk) : Prop where
  names : ∀ δ ∈ d.dir.states, δ.names.Nodup
  linked : ∀ δ ∈ d.dir.states, ∀ f i, Dir.lookup δ f = some i → i < d.fresh
  unique : ∀ δ ∈ d.dir.states, ∀ δ' ∈ d.dir.states, ∀ f f' i, f.Core → f'.Core →
    Dir.lookup δ f = some i → Dir.lookup δ' f' = some i → f = f'
  logs : ∀ δ ∈ d.dir.states, ∀ δ' ∈ d.dir.states, ∀ n f i,
    Dir.lookup δ (.wal n) = some i → Dir.lookup δ' f = some i → f = .wal n
  small : ∀ i, ∀ c ∈ (d.files i).states, c.length ≤ maximumFileSize

/-- An inode that no directory state has under one of the names. -/
structure Private (N : FileName → Prop) (d : Disk) (i : Inode) : Prop where
  lt : i < d.fresh
  unlinked : ∀ δ ∈ d.dir.states, ∀ f, N f → Dir.lookup δ f ≠ some i

/-- An inode that no directory state has under any other name. -/
structure Owned (d : Disk) (f : FileName) (i : Inode) : Prop where
  lt : i < d.fresh
  only : ∀ δ ∈ d.dir.states, ∀ g, Dir.lookup δ g = some i → g = f

/-- Everything under the names is as it was, and no inode got another name. -/
structure Untouched (N : FileName → Prop) (d d' : Disk) : Prop where
  states : ∀ δ' ∈ d'.dir.states, ∃ δ ∈ d.dir.states, ∀ f, N f →
    Dir.lookup δ' f = Dir.lookup δ f
  current : ∀ f, N f → d'.lookup f = d.lookup f
  links : ∀ δ' ∈ d'.dir.states, ∀ f i, Dir.lookup δ' f = some i →
    d.fresh ≤ i ∨ ∃ δ ∈ d.dir.states, Dir.lookup δ f = some i
  files : ∀ δ ∈ d.dir.states, ∀ f i, N f → Dir.lookup δ f = some i → d'.files i = d.files i
  fresh : d.fresh ≤ d'.fresh
  length : ∀ i < d.fresh, (d.files i).current.length ≤ (d'.files i).current.length

theorem Private.mono {N N' : FileName → Prop} {d : Disk} {i : Inode} (h : Private N d i)
    (hN : ∀ f, N' f → N f) : Private N' d i :=
  ⟨h.lt, fun δ hδ f hf => h.unlinked δ hδ f (hN f hf)⟩

theorem Untouched.mono {N N' : FileName → Prop} {d d' : Disk} (h : Untouched N d d')
    (hN : ∀ f, N' f → N f) : Untouched N' d d' where
  states := fun δ hδ => by
    obtain ⟨ε, hε, hs⟩ := h.states δ hδ
    exact ⟨ε, hε, fun f hf => hs f (hN f hf)⟩
  current := fun f hf => h.current f (hN f hf)
  links := h.links
  files := fun δ hδ f i hf => h.files δ hδ f i (hN f hf)
  fresh := h.fresh
  length := h.length

theorem Owned.private {N : FileName → Prop} {d : Disk} {f : FileName} {i : Inode}
    (h : Owned d f i) (hf : ¬ N f) : Private N d i :=
  ⟨h.lt, fun δ hδ g hg he => hf (h.only δ hδ g he ▸ hg)⟩

theorem Untouched.owned {N : FileName → Prop} {d d' : Disk} (h : Untouched N d d') {f : FileName}
    {i : Inode} (hi : Owned d f i) : Owned d' f i := by
  refine ⟨hi.lt.trans_le h.fresh, fun δ hδ g hg => ?_⟩
  rcases h.links δ hδ g i hg with hlt | ⟨ε, hε, hg'⟩
  · exact absurd hi.lt (not_lt.mpr hlt)
  · exact hi.only ε hε g hg'

theorem Untouched.refl (N : FileName → Prop) (d : Disk) : Untouched N d d :=
  ⟨fun δ hδ => ⟨δ, hδ, fun _ _ => rfl⟩, fun _ _ => rfl, fun δ hδ _ _ h => Or.inr ⟨δ, hδ, h⟩,
    fun _ _ _ _ _ _ => rfl, le_refl _, fun _ _ => le_refl _⟩

theorem wf_empty : empty.Wf := by
  refine ⟨?_, ?_, ?_, ?_, ?_⟩
  · intro δ hδ
    rw [List.mem_singleton.mp hδ]
    exact List.nodup_nil
  · intro δ hδ f i h
    rw [List.mem_singleton.mp hδ] at h
    cases h
  · intro δ hδ _ _ f f' i _ _ h _
    rw [List.mem_singleton.mp hδ] at h
    cases h
  · intro δ hδ _ _ n f i h _
    rw [List.mem_singleton.mp hδ] at h
    cases h
  · intro i c hc
    rw [List.mem_singleton.mp hc]
    exact Nat.zero_le _

/-! ## Creating a file -/

theorem mem_states_create {d : Disk} {f : FileName} {δ : Dir} :
    δ ∈ (d.create f).dir.states ↔ δ = d.dir.current.link f d.fresh ∨ δ ∈ d.dir.states := by
  simp [create]

theorem files_create {d : Disk} {f : FileName} {i : Inode} (h : i < d.fresh) :
    (d.create f).files i = d.files i := Function.update_of_ne h.ne _ _

@[simp] theorem files_create_fresh (d : Disk) (f : FileName) :
    (d.create f).files d.fresh = .stable [] := Function.update_self _ _ _

@[simp] theorem lookup_create_self (d : Disk) (f : FileName) :
    (d.create f).lookup f = some d.fresh := by
  simp [lookup, create, Dir.lookup_link]

theorem lookup_create {d : Disk} {f g : FileName} (h : g ≠ f) :
    (d.create f).lookup g = d.lookup g := by
  simp [lookup, create, Dir.lookup_link, h]

/-- After a create every link leads to the new inode or was there before. -/
theorem links_create {d : Disk} {f : FileName} {δ : Dir} (hδ : δ ∈ (d.create f).dir.states)
    {g : FileName} {i : Inode} (hg : Dir.lookup δ g = some i) :
    (g = f ∧ i = d.fresh) ∨ ∃ δ' ∈ d.dir.states, Dir.lookup δ' g = some i := by
  rcases mem_states_create.mp hδ with rfl | hδ
  · rw [Dir.lookup_link] at hg
    split at hg
    · rename_i he
      exact Or.inl ⟨he, (Option.some.inj hg).symm⟩
    · exact Or.inr ⟨_, d.dir.current_mem_states, hg⟩
  · exact Or.inr ⟨δ, hδ, hg⟩

theorem Wf.create {d : Disk} (h : d.Wf) (f : FileName) : (d.create f).Wf := by
  refine ⟨?_, ?_, ?_, ?_, ?_⟩
  · intro δ hδ
    rcases mem_states_create.mp hδ with rfl | hδ
    · exact Dir.nodup_link (h.names _ d.dir.current_mem_states) _ _
    · exact h.names δ hδ
  · intro δ hδ g i hg
    rcases links_create hδ hg with ⟨-, rfl⟩ | ⟨δ', hδ', hg'⟩
    · exact Nat.lt_succ_self _
    · exact Nat.lt_succ_of_lt (h.linked δ' hδ' g i hg')
  · intro δ hδ δ' hδ' g g' i hc hc' hg hg'
    rcases links_create hδ hg with ⟨rfl, rfl⟩ | ⟨ε, hε, he⟩ <;>
      rcases links_create hδ' hg' with ⟨rfl, he'⟩ | ⟨ε', hε', he'⟩
    · rfl
    · exact absurd (h.linked ε' hε' g' _ he') (lt_irrefl _)
    · exact absurd (he' ▸ h.linked ε hε g i he) (lt_irrefl _)
    · exact h.unique ε hε ε' hε' g g' i hc hc' he he'
  · intro δ hδ δ' hδ' n g i hn hg
    rcases links_create hδ hn with ⟨rfl, rfl⟩ | ⟨ε, hε, he⟩ <;>
      rcases links_create hδ' hg with ⟨rfl, he'⟩ | ⟨ε', hε', he'⟩
    · rfl
    · exact absurd (h.linked ε' hε' g _ he') (lt_irrefl _)
    · exact absurd (he' ▸ h.linked ε hε _ i he) (lt_irrefl _)
    · exact h.logs ε hε ε' hε' n g i he he'
  · intro i c hc
    by_cases hi : i = d.fresh
    · rw [hi, files_create_fresh] at hc
      rw [List.mem_singleton.mp hc]
      exact Nat.zero_le _
    · rw [show (d.create f).files i = d.files i from Function.update_of_ne hi _ _] at hc
      exact h.small i c hc

theorem Untouched.create {N : FileName → Prop} {d : Disk} (h : d.Wf) {f : FileName}
    (hf : ¬ N f) : Untouched N d (d.create f) := by
  have hne : ∀ g : FileName, N g → g ≠ f := by
    rintro g hg rfl
    exact hf hg
  refine ⟨?_, fun g hg => lookup_create (hne g hg), ?_, ?_, Nat.le_succ _, ?_⟩
  · intro δ hδ
    rcases mem_states_create.mp hδ with rfl | hδ
    · exact ⟨_, d.dir.current_mem_states, fun g hg => by rw [Dir.lookup_link, if_neg (hne g hg)]⟩
    · exact ⟨δ, hδ, fun _ _ => rfl⟩
  · intro δ hδ g i hg
    rcases links_create hδ hg with ⟨-, rfl⟩ | h
    · exact Or.inl (le_refl _)
    · exact Or.inr h
  · intro δ hδ g i _ hg
    exact files_create (h.linked δ hδ g i hg)
  · intro i hi
    rw [files_create hi]

theorem Owned.create {d : Disk} (h : d.Wf) (f : FileName) : Owned (d.create f) f d.fresh := by
  refine ⟨Nat.lt_succ_self _, fun δ hδ g hg => ?_⟩
  rcases links_create hδ hg with ⟨he, -⟩ | ⟨ε, hε, hg'⟩
  · exact he
  · exact absurd (h.linked ε hε g _ hg') (lt_irrefl _)

/-! ## Changing the contents of one file -/

/-- Replace the contents of one inode. -/
def setFile (d : Disk) (i : Inode) (v : Volatile Bytes) : Disk :=
  { d with files := Function.update d.files i v }

@[simp] theorem setFile_dir (d : Disk) (i : Inode) (v : Volatile Bytes) :
    (d.setFile i v).dir = d.dir := rfl

@[simp] theorem setFile_fresh (d : Disk) (i : Inode) (v : Volatile Bytes) :
    (d.setFile i v).fresh = d.fresh := rfl

@[simp] theorem setFile_lookup (d : Disk) (i : Inode) (v : Volatile Bytes) (f : FileName) :
    (d.setFile i v).lookup f = d.lookup f := rfl

@[simp] theorem setFile_files_self (d : Disk) (i : Inode) (v : Volatile Bytes) :
    (d.setFile i v).files i = v := Function.update_self _ _ _

theorem setFile_files {d : Disk} {i j : Inode} (v : Volatile Bytes) (h : j ≠ i) :
    (d.setFile i v).files j = d.files j := Function.update_of_ne h _ _

theorem append_eq (d : Disk) (i : Inode) (p : Bytes) :
    d.append i p = d.setFile i ((d.files i).append p) := rfl

theorem sync_eq (d : Disk) (i : Inode) : d.sync i = d.setFile i (d.files i).flush := rfl

theorem truncate_eq (d : Disk) (i : Inode) (n : Nat) :
    d.truncate i n = d.setFile i ((d.files i).set ((d.files i).current.take n)) := rfl

theorem Wf.setFile {d : Disk} (h : d.Wf) {i : Inode} {v : Volatile Bytes}
    (hv : ∀ c ∈ v.states, c.length ≤ maximumFileSize) : (d.setFile i v).Wf := by
  refine ⟨h.names, h.linked, h.unique, h.logs, fun j c hc => ?_⟩
  by_cases hj : j = i
  · rw [hj, setFile_files_self] at hc
    exact hv c hc
  · rw [setFile_files v hj] at hc
    exact h.small j c hc

theorem Wf.append {d : Disk} (h : d.Wf) {i : Inode} {p : Bytes}
    (hp : (d.files i).current.length + p.length ≤ maximumFileSize) : (d.append i p).Wf := by
  refine h.setFile (fun c hc => ?_)
  rcases Volatile.mem_states_append.mp hc with hc | ⟨q, -, hq, rfl⟩
  · exact h.small i c hc
  · have := hq.length_le
    rw [List.length_append]
    omega

theorem Wf.sync {d : Disk} (h : d.Wf) (i : Inode) : (d.sync i).Wf := by
  refine h.setFile (fun c hc => ?_)
  rw [Volatile.states_flush, List.mem_singleton] at hc
  rw [hc]
  exact h.small i _ (Volatile.current_mem_states _)

theorem Wf.truncate {d : Disk} (h : d.Wf) (i : Inode) (n : Nat) : (d.truncate i n).Wf := by
  refine h.setFile (fun c hc => ?_)
  rw [Volatile.states_set, List.mem_cons] at hc
  rcases hc with rfl | hc
  · have := h.small i _ (Volatile.current_mem_states _)
    rw [List.length_take]
    omega
  · exact h.small i c hc

/-- A file no state of the directory shows may grow. -/
theorem Untouched.setFile {N : FileName → Prop} {d : Disk} {i : Inode} (hi : Private N d i)
    {v : Volatile Bytes} (hv : (d.files i).current.length ≤ v.current.length) :
    Untouched N d (d.setFile i v) := by
  refine ⟨fun δ hδ => ⟨δ, hδ, fun _ _ => rfl⟩, fun _ _ => rfl,
    fun δ hδ _ _ h => Or.inr ⟨δ, hδ, h⟩, ?_, le_refl _, ?_⟩
  · intro δ hδ f j hf hj
    exact setFile_files v (fun he => hi.unlinked δ hδ f hf (he ▸ hj))
  · intro j _
    by_cases hj : j = i
    · rw [hj, setFile_files_self]
      exact hv
    · rw [setFile_files v hj]

theorem Owned.setFile {d : Disk} {f : FileName} {i : Inode} (hi : Owned d f i) (j : Inode)
    (v : Volatile Bytes) : Owned (d.setFile j v) f i := ⟨hi.lt, hi.only⟩

/-! ## Changing the directory -/

/-- Give the directory a new current state. -/
def setDir (d : Disk) (δ : Dir) : Disk := { d with dir := d.dir.set δ }

@[simp] theorem setDir_files (d : Disk) (δ : Dir) : (d.setDir δ).files = d.files := rfl
@[simp] theorem setDir_fresh (d : Disk) (δ : Dir) : (d.setDir δ).fresh = d.fresh := rfl
@[simp] theorem setDir_lookup (d : Disk) (δ : Dir) (f : FileName) :
    (d.setDir δ).lookup f = Dir.lookup δ f := rfl

theorem mem_states_setDir {d : Disk} {δ ε : Dir} :
    ε ∈ (d.setDir δ).dir.states ↔ ε = δ ∨ ε ∈ d.dir.states := by
  simp [setDir]

/-- A new directory state is in order when its names come from the old one, or lead to an
inode of their own. -/
theorem Wf.setDir {d : Disk} (h : d.Wf) {δ : Dir} (hnames : δ.names.Nodup)
    (hδ : ∀ f i, Dir.lookup δ f = some i →
      (∃ ε ∈ d.dir.states, Dir.lookup ε f = some i) ∨
        (Private FileName.Core d i ∧ (∀ n, f ≠ .wal n) ∧
          ∀ g, g.Core → Dir.lookup δ g = some i → g = f)) : (d.setDir δ).Wf := by
  refine ⟨?_, ?_, ?_, ?_, h.small⟩
  · intro ε hε
    rcases mem_states_setDir.mp hε with rfl | hε
    · exact hnames
    · exact h.names ε hε
  · intro ε hε f i hf
    rcases mem_states_setDir.mp hε with rfl | hε
    · rcases hδ f i hf with ⟨ε', hε', hf'⟩ | ⟨hp, -⟩
      · exact h.linked ε' hε' f i hf'
      · exact hp.lt
    · exact h.linked ε hε f i hf
  · -- an inode of the new state with a second name would have had it before
    have hnew : ∀ f f' i, f.Core → f'.Core → Dir.lookup δ f = some i →
        ∀ ε ∈ d.dir.states, Dir.lookup ε f' = some i → f = f' := by
      intro f f' i hc hc' hf ε hε hf'
      rcases hδ f i hf with ⟨ε', hε', hf''⟩ | ⟨hp, -⟩
      · exact h.unique ε' hε' ε hε f f' i hc hc' hf'' hf'
      · exact absurd hf' (hp.unlinked ε hε f' hc')
    intro ε hε ε' hε' f f' i hc hc' hf hf'
    rcases mem_states_setDir.mp hε with he | hε <;>
      rcases mem_states_setDir.mp hε' with he' | hε'
    · rw [he] at hf
      rw [he'] at hf'
      rcases hδ f' i hf' with ⟨ε'', hε'', hf''⟩ | ⟨-, -, huniq⟩
      · exact hnew f f' i hc hc' hf ε'' hε'' hf''
      · exact huniq f hc hf
    · exact hnew f f' i hc hc' (he ▸ hf) ε' hε' hf'
    · exact (hnew f' f i hc' hc (he' ▸ hf') ε hε hf).symm
    · exact h.unique ε hε ε' hε' f f' i hc hc' hf hf'
  · -- the log of the new state was a log before, and a new name leads elsewhere
    have hold : ∀ n i, Dir.lookup δ (.wal n) = some i →
        ∃ ε ∈ d.dir.states, Dir.lookup ε (.wal n) = some i := by
      intro n i hn
      rcases hδ (.wal n) i hn with h' | ⟨-, hne, -⟩
      · exact h'
      · exact absurd rfl (hne n)
    intro ε hε ε' hε' n f i hn hf
    obtain ⟨η, hη, hn'⟩ : ∃ η ∈ d.dir.states, Dir.lookup η (.wal n) = some i := by
      rcases mem_states_setDir.mp hε with rfl | hε
      · exact hold n i hn
      · exact ⟨ε, hε, hn⟩
    rcases mem_states_setDir.mp hε' with rfl | hε'
    · rcases hδ f i hf with ⟨ε'', hε'', hf''⟩ | ⟨hp, -, -⟩
      · exact h.logs η hη ε'' hε'' n f i hn' hf''
      · exact absurd hn' (hp.unlinked η hη _ rfl)
    · exact h.logs η hη ε' hε' n f i hn' hf

theorem Wf.remove {d : Disk} (h : d.Wf) (f : FileName) : (d.remove f).Wf := by
  refine h.setDir (Dir.nodup_unlink (h.names _ d.dir.current_mem_states) f)
    (fun g i hg => Or.inl ⟨_, d.dir.current_mem_states, ?_⟩)
  rw [Dir.lookup_unlink] at hg
  split at hg
  · cases hg
  · exact hg

theorem Wf.rename {d : Disk} (h : d.Wf) {src dst : FileName} {i : Inode}
    (hsrc : d.lookup src = some i) (hi : Private FileName.Core d i) (hdst : ∀ n, dst ≠ .wal n) :
    (d.rename src dst).Wf := by
  refine h.setDir (Dir.nodup_move (h.names _ d.dir.current_mem_states) src dst) (fun g j hg => ?_)
  rw [Dir.lookup_move hsrc] at hg
  split at hg
  · -- the renamed file has no other name that recovery reads
    rename_i hgd
    obtain rfl := Option.some.inj hg
    refine Or.inr ⟨hi, hgd ▸ hdst, fun g' hc hg' => ?_⟩
    rw [Dir.lookup_move hsrc] at hg'
    split at hg'
    · rename_i hgd'
      exact hgd'.trans hgd.symm
    · split at hg'
      · cases hg'
      · exact absurd hg' (hi.unlinked _ d.dir.current_mem_states g' hc)
  · split at hg
    · cases hg
    · exact Or.inl ⟨_, d.dir.current_mem_states, hg⟩

theorem Wf.syncDirectory {d : Disk} (h : d.Wf) : d.syncDirectory.Wf := by
  have hsub : ∀ δ ∈ d.syncDirectory.dir.states, δ ∈ d.dir.states := by
    intro δ hδ
    rw [List.mem_singleton.mp hδ]
    exact d.dir.current_mem_states
  exact ⟨fun δ hδ => h.names δ (hsub δ hδ), fun δ hδ => h.linked δ (hsub δ hδ),
    fun δ hδ δ' hδ' => h.unique δ (hsub δ hδ) δ' (hsub δ' hδ'),
    fun δ hδ δ' hδ' => h.logs δ (hsub δ hδ) δ' (hsub δ' hδ'), h.small⟩

theorem Wf.crash {d : Disk} (h : d.Wf) (k : Nat) (cut : Inode → Nat) : (d.crash k cut).Wf := by
  have hsub : ∀ δ ∈ (d.crash k cut).dir.states, δ ∈ d.dir.states := by
    intro δ hδ
    rw [List.mem_singleton.mp hδ]
    exact d.dir.survivor_mem_states k
  refine ⟨fun δ hδ => h.names δ (hsub δ hδ), fun δ hδ => h.linked δ (hsub δ hδ),
    fun δ hδ δ' hδ' => h.unique δ (hsub δ hδ) δ' (hsub δ' hδ'),
    fun δ hδ δ' hδ' => h.logs δ (hsub δ hδ) δ' (hsub δ' hδ'), fun i c hc => ?_⟩
  rw [List.mem_singleton.mp hc]
  exact h.small i _ ((d.files i).survivor_mem_states _)

theorem Untouched.remove {N : FileName → Prop} {d : Disk} {f : FileName} (hf : ¬ N f) :
    Untouched N d (d.remove f) := by
  have hlook : ∀ g : FileName, N g →
      Dir.lookup (d.dir.current.unlink f) g = Dir.lookup d.dir.current g := by
    intro g hg
    rw [Dir.lookup_unlink, if_neg]
    rintro rfl
    exact hf hg
  refine ⟨?_, hlook, ?_, fun _ _ _ _ _ _ => rfl, le_refl _, fun _ _ => le_refl _⟩
  · intro δ hδ
    rcases mem_states_setDir.mp hδ with rfl | hδ
    · exact ⟨_, d.dir.current_mem_states, hlook⟩
    · exact ⟨δ, hδ, fun _ _ => rfl⟩
  · intro δ hδ g i hg
    rcases mem_states_setDir.mp hδ with rfl | hδ
    · rw [Dir.lookup_unlink] at hg
      split at hg
      · cases hg
      · exact Or.inr ⟨_, d.dir.current_mem_states, hg⟩
    · exact Or.inr ⟨δ, hδ, hg⟩

end Disk

end MiniKV
