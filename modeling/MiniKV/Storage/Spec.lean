import MiniKV.Storage.Frame

/-!
# Specifications of file operations

A specification has an invariant that holds whatever happens, also where the
process is killed. Errors come with a cause: in a quiet run, where no call of
the environment fails, the environment is no cause.
-/

namespace MiniKV

open Lib

/-- If the run is to be quiet, no fault is left in the script. -/
def Quiet (q : Prop) (s : Fs) : Prop := q → ∀ x ∈ s.script, x = Outcome.ok

/-- A call of the environment has failed, and says so. -/
structure Fault (q : Prop) (e : Status) : Prop where
  failed : ¬ q
  io : e.code = .ioError

/-- From `P` and `R`, a return gives `Q` and an error `E`; `P` holds in every case, and a
quiet run is not killed. -/
def Spec {α : Type} (q : Prop) (P R : Store → Prop) (m : Io α) (Q : α → Store → Prop)
    (E : Status → Store → Prop) : Prop :=
  Prog.Triple (fun s => Quiet q s ∧ P s.store ∧ R s.store) m
    (fun a s => Quiet q s ∧ P s.store ∧ Q a s.store)
    (fun e s => Quiet q s ∧ P s.store ∧ E e s.store) (fun s => ¬ q ∧ P s.store)

section

variable {α β : Type} {q : Prop} {P R R' : Store → Prop} {Q Q' : α → Store → Prop}
  {E E' : Status → Store → Prop}

theorem Spec.bind {m : Io β} {S : β → Store → Prop} {f : β → Io α} (hm : Spec q P R m S E)
    (hf : ∀ b, Spec q P (S b) (f b) Q E) : Spec q P R (m >>= f) Q E :=
  Prog.Triple.bind hm hf

theorem Spec.pure {a : α} (h : ∀ st, P st → R st → Q a st) :
    Spec q P R (Pure.pure a : Io α) Q E :=
  Prog.Triple.pure (fun _ ⟨hq, hp, hr⟩ => ⟨hq, hp, h _ hp hr⟩)

theorem Spec.fail {e : Status} (h : ∀ st, P st → R st → E e st) :
    Spec q P R (Prog.fail e : Io α) Q E :=
  Prog.Triple.fail (fun _ ⟨hq, hp, hr⟩ => ⟨hq, hp, h _ hp hr⟩)

theorem Spec.conseq {m : Io α} (h : Spec q P R' m Q' E') (hr : ∀ st, P st → R st → R' st)
    (hq : ∀ a st, P st → Q' a st → Q a st) (he : ∀ e st, P st → E' e st → E e st) :
    Spec q P R m Q E :=
  Prog.Triple.conseq h (fun _ ⟨a, b, c⟩ => ⟨a, b, hr _ b c⟩)
    (fun _ _ ⟨a, b, c⟩ => ⟨a, b, hq _ _ b c⟩) (fun _ _ ⟨a, b, c⟩ => ⟨a, b, he _ _ b c⟩)
    (fun _ h => h)

theorem Spec.ofExcept {x : Except Status α} (hok : ∀ a, x = .ok a → ∀ st, P st → R st → Q a st)
    (herr : ∀ e, x = .error e → ∀ st, P st → R st → E e st) :
    Spec q P R (Prog.ofExcept x) Q E :=
  Prog.Triple.ofExcept (fun a ha _ ⟨hq, hp, hr⟩ => ⟨hq, hp, hok a ha _ hp hr⟩)
    (fun e he _ ⟨hq, hp, hr⟩ => ⟨hq, hp, herr e he _ hp hr⟩)

theorem Spec.attempt {m : Io α} {S : Except Status α → Store → Prop}
    (h : Spec q P R m (fun a => S (.ok a)) (fun e => S (.error e))) :
    Spec q P R (Prog.attempt m) S E :=
  Prog.Triple.attempt h

theorem Spec.attempt_bind {m : Io β} {f : Except Status β → Io α} {S : β → Store → Prop}
    {C : Status → Store → Prop} (hm : Spec q P R m S C)
    (hok : ∀ b, Spec q P (S b) (f (.ok b)) Q E) (herr : ∀ e, Spec q P (C e) (f (.error e)) Q E) :
    Spec q P R (Prog.attempt m >>= f) Q E :=
  Prog.Triple.attempt_bind hm hok herr

theorem Spec.assume {φ : Prop} {m : Io α} (h : φ → Spec q P R m Q E) :
    Spec q P (fun st => φ ∧ R st) m Q E :=
  fun s ⟨hq, hp, hφ, hr⟩ => h hφ s ⟨hq, hp, hr⟩

theorem Spec.exists {ι : Sort*} {R : ι → Store → Prop} {m : Io α}
    (h : ∀ i, Spec q P (R i) m Q E) : Spec q P (fun st => ∃ i, R i st) m Q E :=
  fun s ⟨hq, hp, i, hr⟩ => h i s ⟨hq, hp, hr⟩

/-- Fix the store a program starts with. -/
theorem Spec.fix {m : Io α} (h : ∀ st, P st → R st → Spec q P (fun t => t = st) m Q E) :
    Spec q P R m Q E :=
  fun s ⟨hq, hp, hr⟩ => h s.store hp hr s ⟨hq, hp, rfl⟩

/-- A further invariant that a program keeps. -/
theorem Spec.carry {P' : Store → Prop} {m : Io α} (h : Spec q (fun st => P st ∧ P' st) R m Q E) :
    Spec q P (fun st => P' st ∧ R st) m (fun a st => P' st ∧ Q a st) E :=
  Prog.Triple.conseq h (fun _ ⟨hq, hp, hp', hr⟩ => ⟨hq, ⟨hp, hp'⟩, hr⟩)
    (fun _ _ ⟨hq, ⟨hp, hp'⟩, hr⟩ => ⟨hq, hp, hp', hr⟩) (fun _ _ ⟨hq, ⟨hp, _⟩, he⟩ => ⟨hq, hp, he⟩)
    (fun _ ⟨hq, hp, _⟩ => ⟨hq, hp⟩)

theorem Spec.ite {c : Prop} [Decidable c] {m n : Io α} (ht : c → Spec q P R m Q E)
    (hf : ¬ c → Spec q P R n Q E) : Spec q P R (if c then m else n) Q E :=
  Prog.Triple.ite ht hf

/-- Reading the state changes nothing. -/
theorem Spec.get_bind {f : Fs → Io α}
    (h : ∀ s : Fs, P s.store → R s.store → Spec q P (fun st => st = s.store ∧ R st) (f s) Q E) :
    Spec q P R (Prog.get >>= f) Q E :=
  fun s ⟨hq, hp, hr⟩ => h s hp hr s ⟨hq, hp, rfl, hr⟩

end

/-! ## Outcomes -/

theorem Quiet.next {q : Prop} {s : Fs} (h : Quiet q s) :
    Quiet q s.next.2 ∧ s.next.2.store = s.store ∧ (q → s.next.1 = .ok) := by
  unfold Fs.next
  cases hs : s.script with
  | nil => exact ⟨h, rfl, fun _ => rfl⟩
  | cons x xs =>
    refine ⟨fun hq y hy => h hq y ?_, rfl, fun hq => h hq x ?_⟩
    · rw [hs]; exact List.mem_cons_of_mem _ hy
    · rw [hs]; exact List.mem_cons_self

theorem Quiet.update {q : Prop} {s : Fs} (h : Quiet q s) (f : Store → Store) :
    Quiet q (s.update f) := h

@[simp] theorem Fs.update_store (f : Store → Store) (s : Fs) :
    (s.update f).store = f s.store := rfl

theorem Spec.atomically {q : Prop} {P R : Store → Prop} {effect : Store → Store} {e : Status}
    {Q : Unit → Store → Prop} {E : Status → Store → Prop}
    (hp : ∀ st, P st → R st → P (effect st))
    (hok : ∀ st, P st → R st → Q () (effect st))
    (herr : ¬ q → ∀ st, P st → R st → E e st ∧ E e (effect st)) :
    Spec q P R (atomically effect e) Q E := by
  rintro s ⟨hq, hps, hr⟩
  obtain ⟨hq', hst, hall⟩ := hq.next
  have hps' : P s.next.2.store := hst.symm ▸ hps
  have hr' : R s.next.2.store := hst.symm ▸ hr
  unfold MiniKV.atomically
  match hn : s.next with
  | (.ok, t) =>
    rw [hn] at hq' hps' hr'
    exact ⟨hq'.update _, hp _ hps' hr', hok _ hps' hr'⟩
  | (.fail n, t) =>
    rw [hn] at hq' hps' hr' hall
    have hnq : ¬ q := fun h => by cases hall h
    obtain ⟨h1, h2⟩ := herr hnq _ hps' hr'
    dsimp only
    split
    · exact ⟨hq', hps', h1⟩
    · exact ⟨hq'.update _, hp _ hps' hr', h2⟩
  | (.kill n, t) =>
    rw [hn] at hps' hr' hall
    have hnq : ¬ q := fun h => by cases hall h
    dsimp only
    split
    · exact ⟨hnq, hps'⟩
    · exact ⟨hnq, hp _ hps' hr'⟩

theorem Spec.fallible {q : Prop} {P R : Store → Prop} {e : Status} {E : Status → Store → Prop}
    (herr : ¬ q → ∀ st, P st → R st → E e st) :
    Spec q P R (fallible e) (fun _ => R) E :=
  Spec.atomically (fun _ h _ => h) (fun _ _ h => h) (fun hq st h hr =>
    ⟨herr hq st h hr, herr hq st h hr⟩)

end MiniKV
