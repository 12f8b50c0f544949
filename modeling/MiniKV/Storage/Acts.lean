import MiniKV.Storage.Publish

/-!
# Sections that run under the lock

`Acts` specifies a section of the database: over the members and the store, with
one condition for a return, one for an error and one for the store that a killed
process leaves. Proofs follow a section call by call with the members known, which
is what the assertion `At db R` says.
-/

namespace MiniKV

open Lib

def Acts {α : Type} (q : Prop) (K : Store → Prop) (P : Database → Store → Prop) (m : Act α)
    (Q : α → Database → Store → Prop) (E : Status → Database → Store → Prop) : Prop :=
  Prog.Triple (fun s : Sys => Quiet q s.fs ∧ P s.db s.fs.store) m
    (fun a s => Quiet q s.fs ∧ Q a s.db s.fs.store)
    (fun e s => Quiet q s.fs ∧ E e s.db s.fs.store) (fun s => ¬ q ∧ K s.fs.store)

/-- The members are known. -/
def At (db : Database) (R : Store → Prop) : Database → Store → Prop := fun d st => d = db ∧ R st

section

variable {α β : Type} {q : Prop} {K : Store → Prop} {P P' : Database → Store → Prop}
  {Q Q' : α → Database → Store → Prop} {E E' : Status → Database → Store → Prop}
  {db : Database} {R : Store → Prop}

theorem Acts.conseq {m : Act α} (h : Acts q K P' m Q' E') (hp : ∀ d st, P d st → P' d st)
    (hq : ∀ a d st, Q' a d st → Q a d st) (he : ∀ e d st, E' e d st → E e d st) :
    Acts q K P m Q E :=
  Prog.Triple.conseq h (fun _ ⟨h1, h2⟩ => ⟨h1, hp _ _ h2⟩) (fun _ _ ⟨h1, h2⟩ => ⟨h1, hq _ _ _ h2⟩)
    (fun _ _ ⟨h1, h2⟩ => ⟨h1, he _ _ _ h2⟩) (fun _ h => h)

theorem Acts.pre {m : Act α} (h : Acts q K P' m Q E) (hp : ∀ d st, P d st → P' d st) :
    Acts q K P m Q E :=
  h.conseq hp (fun _ _ _ h => h) (fun _ _ _ h => h)

theorem Acts.errors {m : Act α} (h : Acts q K P m Q E') (he : ∀ e d st, E' e d st → E e d st) :
    Acts q K P m Q E :=
  h.conseq (fun _ _ h => h) (fun _ _ _ h => h) he

/-- What two specifications say of a section holds together. -/
theorem Acts.and {m : Act α} {K' R' : Store → Prop} (h : Acts q K (At db R) m Q E)
    (h' : Acts q K' (At db R') m Q' E') :
    Acts q K (At db (fun st => R st ∧ R' st)) m (fun a d st => Q a d st ∧ Q' a d st)
      (fun e d st => E e d st ∧ E' e d st) :=
  Prog.Triple.conseq (Prog.Triple.and h h')
    (fun _ hs => ⟨⟨hs.1, hs.2.1, hs.2.2.1⟩, ⟨hs.1, hs.2.1, hs.2.2.2⟩⟩)
    (fun _ _ hs => ⟨hs.1.1, hs.1.2, hs.2.2⟩) (fun _ _ hs => ⟨hs.1.1, hs.1.2, hs.2.2⟩)
    (fun _ hs => hs.1)

theorem Acts.bind {m : Act β} {S : β → Database → Store → Prop} {f : β → Act α}
    (hm : Acts q K P m S E) (hf : ∀ b, Acts q K (S b) (f b) Q E) : Acts q K P (m >>= f) Q E :=
  Prog.Triple.bind hm hf

theorem Acts.ite {c : Prop} [Decidable c] {m n : Act α} (ht : c → Acts q K P m Q E)
    (hf : ¬ c → Acts q K P n Q E) : Acts q K P (if c then m else n) Q E :=
  Prog.Triple.ite ht hf

/-- A part that is skipped under a condition, and what comes after it. -/
theorem Acts.unless {c : Prop} [Decidable c] {m : Act Unit} {f : Unit → Act α}
    {S : Database → Store → Prop} (hskip : c → ∀ d st, P d st → S d st)
    (hm : ¬ c → Acts q K P m (fun _ => S) E) (hf : Acts q K S (f ()) Q E) :
    Acts q K P (if c then f () else m >>= f) Q E :=
  Acts.ite (fun h => hf.pre (hskip h)) (fun h => Acts.bind (hm h) (fun _ => hf))

/-- A part that is run under a condition, and what comes after it. -/
theorem Acts.when {c : Prop} [Decidable c] {m : Act Unit} {f : Unit → Act α}
    {S : Database → Store → Prop} (hm : c → Acts q K P m (fun _ => S) E)
    (hskip : ¬ c → ∀ d st, P d st → S d st) (hf : Acts q K S (f ()) Q E) :
    Acts q K P (if c then m >>= f else f ()) Q E :=
  Acts.ite (fun h => Acts.bind (hm h) (fun _ => hf)) (fun h => hf.pre (hskip h))

theorem Acts.exists {ι : Sort*} {P : ι → Database → Store → Prop} {m : Act α}
    (h : ∀ i, Acts q K (P i) m Q E) : Acts q K (fun d st => ∃ i, P i d st) m Q E :=
  fun s ⟨hq, i, hi⟩ => h i s ⟨hq, hi⟩

/-- Fix the members a section starts with. -/
theorem Acts.fix {m : Act α} (h : ∀ db, Acts q K (At db (P db)) m Q E) : Acts q K P m Q E :=
  fun s ⟨hq, hp⟩ => h s.db s ⟨hq, rfl, hp⟩

/-- A part of the precondition that does not depend on the store becomes a hypothesis. -/
theorem Acts.assume {φ : Prop} {m : Act α} (h : φ → Acts q K (At db R) m Q E) :
    Acts q K (At db (fun st => φ ∧ R st)) m Q E :=
  fun s ⟨hq, hd, hφ, hr⟩ => h hφ s ⟨hq, hd, hr⟩

/-- What follows from the precondition becomes a hypothesis. -/
theorem Acts.know {φ : Prop} {m : Act α} (hφ : ∀ st, R st → φ)
    (h : φ → Acts q K (At db R) m Q E) : Acts q K (At db R) m Q E :=
  fun s ⟨hq, hd, hr⟩ => h (hφ _ hr) s ⟨hq, hd, hr⟩

theorem Acts.weaken (S : Store → Prop) {m : Act α} (h : Acts q K (At db S) m Q E)
    (hr : ∀ st, R st → S st) : Acts q K (At db R) m Q E :=
  h.pre (fun _ _ ⟨hd, h⟩ => ⟨hd, hr _ h⟩)

theorem Acts.pure {a : α} (h : ∀ st, R st → Q a db st) :
    Acts q K (At db R) (Pure.pure a : Act α) Q E := by
  rintro s ⟨hq, rfl, hr⟩
  exact ⟨hq, h _ hr⟩

theorem Acts.fail {e : Status} (h : ∀ st, R st → E e db st) :
    Acts q K (At db R) (Prog.fail e : Act α) Q E := by
  rintro s ⟨hq, rfl, hr⟩
  exact ⟨hq, h _ hr⟩

theorem Acts.getDb_bind {f : Database → Act α} (h : Acts q K (At db R) (f db) Q E) :
    Acts q K (At db R) (getDb >>= f) Q E := by
  rintro s ⟨hq, rfl, hr⟩
  exact h s ⟨hq, rfl, hr⟩

theorem Acts.modifyDb {f : Database → Database} {Q : Unit → Database → Store → Prop}
    (h : ∀ st, R st → Q () (f db) st) : Acts q K (At db R) (modifyDb f) Q E := by
  rintro s ⟨hq, rfl, hr⟩
  exact ⟨hq, h _ hr⟩

theorem Acts.modifyDb_bind {g : Database → Database} {f : Unit → Act α}
    (h : Acts q K (At (g db) R) (f ()) Q E) : Acts q K (At db R) (MiniKV.modifyDb g >>= f) Q E := by
  rintro s ⟨hq, rfl, hr⟩
  exact h _ ⟨hq, rfl, hr⟩

theorem Acts.ofExcept {x : Except Status α} (hok : ∀ a, x = .ok a → ∀ st, R st → Q a db st)
    (herr : ∀ e, x = .error e → ∀ st, R st → E e db st) :
    Acts q K (At db R) (Prog.ofExcept x) Q E := by
  cases x with
  | ok a => exact Acts.pure (hok a rfl)
  | error e => exact Acts.fail (herr e rfl)

theorem Acts.ofExcept_bind {x : Except Status β} {f : β → Act α}
    (hok : ∀ b, x = .ok b → Acts q K (At db R) (f b) Q E)
    (herr : ∀ e, x = .error e → ∀ st, R st → E e db st) :
    Acts q K (At db R) (Prog.ofExcept x >>= f) Q E := by
  cases x with
  | ok b => exact hok b rfl
  | error e =>
    rintro s ⟨hq, rfl, hr⟩
    exact ⟨hq, herr e rfl _ hr⟩

theorem Acts.attempt {m : Act β} {Q : Except Status β → Database → Store → Prop}
    (h : Acts q K P m (fun b => Q (.ok b)) (fun e => Q (.error e))) :
    Acts q K P (Prog.attempt m) Q E :=
  Prog.Triple.attempt h

theorem Acts.attempt_bind {m : Act β} {f : Except Status β → Act α}
    {S : β → Database → Store → Prop} {C : Status → Database → Store → Prop}
    (hm : Acts q K P m S C) (hok : ∀ b, Acts q K (S b) (f (.ok b)) Q E)
    (herr : ∀ e, Acts q K (C e) (f (.error e)) Q E) : Acts q K P (Prog.attempt m >>= f) Q E :=
  Prog.Triple.attempt_bind hm hok herr

/-- Calls of the environment leave the members alone. -/
theorem Acts.io {m : Io α} {P R : Store → Prop} {S : α → Store → Prop} {C : Status → Store → Prop}
    (hm : Spec q P R m S C) (hk : ∀ st, P st → K st)
    (hq : ∀ a st, P st → S a st → Q a db st) (he : ∀ e st, P st → C e st → E e db st) :
    Acts q K (At db (fun st => P st ∧ R st)) (io m) Q E := by
  rintro s ⟨hquiet, rfl, hp, hr⟩
  have h := hm s.fs ⟨hquiet, hp, hr⟩
  unfold MiniKV.io Prog.zoom
  match hs : m s.fs with
  | (.ok a, fs) =>
    rw [hs] at h
    exact ⟨h.1, hq _ _ h.2.1 h.2.2⟩
  | (.error e, fs) =>
    rw [hs] at h
    exact ⟨h.1, he _ _ h.2.1 h.2.2⟩
  | (.killed, fs) =>
    rw [hs] at h
    exact ⟨h.1, hk _ h.2⟩

theorem Acts.io_bind {m : Io β} {P R : Store → Prop} {S : β → Store → Prop}
    {C : Status → Store → Prop} {f : β → Act α} (hm : Spec q P R m S C) (hk : ∀ st, P st → K st)
    (he : ∀ e st, P st → C e st → E e db st)
    (hf : ∀ b, Acts q K (At db (fun st => P st ∧ S b st)) (f b) Q E) :
    Acts q K (At db (fun st => P st ∧ R st)) (MiniKV.io m >>= f) Q E :=
  Acts.bind (S := fun b => At db (fun st => P st ∧ S b st))
    (Acts.io hm hk (fun _ _ hp hs => ⟨rfl, hp, hs⟩) he) hf

/-- A change of the store that is no call of the environment. -/
theorem Acts.update {g : Store → Store} {Q : Unit → Database → Store → Prop}
    (h : ∀ st, R st → Q () db (g st)) :
    Acts q K (At db R) (MiniKV.io (Prog.modify (Fs.update g))) Q E := by
  rintro s ⟨hq, rfl, hr⟩
  exact ⟨hq.update g, h _ hr⟩

theorem Acts.update_bind {g : Store → Store} {f : Unit → Act α} (S : Store → Prop)
    (hg : ∀ st, R st → S (g st)) (h : Acts q K (At db S) (f ()) Q E) :
    Acts q K (At db R) (MiniKV.io (Prog.modify (Fs.update g)) >>= f) Q E :=
  Acts.bind (S := fun _ => At db S) (Acts.update (fun st hr => ⟨rfl, hg st hr⟩)) (fun _ => h)

end

end MiniKV
