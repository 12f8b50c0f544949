import Mathlib.Logic.Basic

/-!
# Programs that fail and programs that are killed

A `Prog ε σ α` runs over a state `σ` and ends in one of three ways: it returns a
value, it returns an error, or the process running it is killed. In each case
the state it leaves behind is known. A `Triple` therefore has one
postcondition for each ending; the last, the kill condition, has to hold at
every point at which the program may die.
-/

namespace MiniKV.Lib

inductive Result (ε α : Type) where
  | ok (a : α)
  | error (e : ε)
  | killed
  deriving DecidableEq, Repr

def Prog (ε σ α : Type) : Type := σ → Result ε α × σ

namespace Prog

variable {ε σ τ α β : Type}

protected def pure (a : α) : Prog ε σ α := fun s => (.ok a, s)

protected def bind (m : Prog ε σ α) (f : α → Prog ε σ β) : Prog ε σ β := fun s =>
  match m s with
  | (.ok a, s') => f a s'
  | (.error e, s') => (.error e, s')
  | (.killed, s') => (.killed, s')

instance : Monad (Prog ε σ) where
  pure := Prog.pure
  bind := Prog.bind

def fail (e : ε) : Prog ε σ α := fun s => (.error e, s)

def get : Prog ε σ σ := fun s => (.ok s, s)

def modify (f : σ → σ) : Prog ε σ Unit := fun s => (.ok (), f s)

def ofExcept : Except ε α → Prog ε σ α
  | .ok a => Prog.pure a
  | .error e => Prog.fail e

/-- Run a program and look at its error instead of stopping at it. -/
def attempt (m : Prog ε σ α) : Prog ε σ (Except ε α) := fun s =>
  match m s with
  | (.ok a, s') => (.ok (.ok a), s')
  | (.error e, s') => (.ok (.error e), s')
  | (.killed, s') => (.killed, s')

/-- Run a program on one component of a larger state. -/
def zoom (view : τ → σ) (put : σ → τ → τ) (m : Prog ε σ α) : Prog ε τ α := fun t =>
  let r := m (view t)
  (r.1, put r.2 t)

theorem bind_apply (m : Prog ε σ α) (f : α → Prog ε σ β) (s : σ) :
    (m >>= f) s = match m s with
      | (.ok a, s') => f a s'
      | (.error e, s') => (.error e, s')
      | (.killed, s') => (.killed, s') := rfl

theorem bind_of_ok {m : Prog ε σ α} {f : α → Prog ε σ β} {s s' : σ} {a : α}
    (h : m s = (.ok a, s')) : (m >>= f) s = f a s' := by
  rw [bind_apply, h]

/-- From every state satisfying `P`, a return satisfies `Q`, an error `E` and a kill `K`. -/
def Triple (P : σ → Prop) (m : Prog ε σ α) (Q : α → σ → Prop) (E : ε → σ → Prop)
    (K : σ → Prop) : Prop :=
  ∀ s, P s → match m s with
    | (.ok a, s') => Q a s'
    | (.error e, s') => E e s'
    | (.killed, s') => K s'

variable {P P' : σ → Prop} {Q Q' : α → σ → Prop} {E E' : ε → σ → Prop} {K K' : σ → Prop}

theorem Triple.pure {a : α} (h : ∀ s, P s → Q a s) :
    Triple P (Pure.pure a : Prog ε σ α) Q E K := fun s hp => h s hp

theorem Triple.fail {e : ε} (h : ∀ s, P s → E e s) :
    Triple P (Prog.fail e : Prog ε σ α) Q E K := fun s hp => h s hp

theorem Triple.bind {m : Prog ε σ β} {R : β → σ → Prop} {f : β → Prog ε σ α}
    (hm : Triple P m R E K) (hf : ∀ b, Triple (R b) (f b) Q E K) : Triple P (m >>= f) Q E K := by
  intro s hp
  have h := hm s hp
  rw [bind_apply]
  match hs : m s with
  | (.ok b, s') => rw [hs] at h; exact hf b s' h
  | (.error e, s') => rw [hs] at h; exact h
  | (.killed, s') => rw [hs] at h; exact h

theorem Triple.conseq {m : Prog ε σ α} (h : Triple P' m Q' E' K') (hp : ∀ s, P s → P' s)
    (hq : ∀ a s, Q' a s → Q a s) (he : ∀ e s, E' e s → E e s) (hk : ∀ s, K' s → K s) :
    Triple P m Q E K := by
  intro s hs
  have h' := h s (hp s hs)
  match hm : m s with
  | (.ok a, s') => rw [hm] at h'; exact hq a s' h'
  | (.error e, s') => rw [hm] at h'; exact he e s' h'
  | (.killed, s') => rw [hm] at h'; exact hk s' h'

theorem Triple.pre {m : Prog ε σ α} (h : Triple P' m Q E K) (hp : ∀ s, P s → P' s) :
    Triple P m Q E K :=
  h.conseq hp (fun _ _ h => h) (fun _ _ h => h) (fun _ h => h)

theorem Triple.post {m : Prog ε σ α} (h : Triple P m Q' E K) (hq : ∀ a s, Q' a s → Q a s) :
    Triple P m Q E K :=
  h.conseq (fun _ h => h) hq (fun _ _ h => h) (fun _ h => h)

/-- Nothing is said of the states a program ends in. -/
theorem Triple.any (m : Prog ε σ α) :
    Triple P m (fun _ _ => True) (fun _ _ => True) (fun _ => True) := by
  intro s _
  match m s with
  | (.ok a, s') => trivial
  | (.error e, s') => trivial
  | (.killed, s') => trivial

/-- Two triples about one program hold together. -/
theorem Triple.and {m : Prog ε σ α} (h : Triple P m Q E K) (h' : Triple P' m Q' E' K') :
    Triple (fun s => P s ∧ P' s) m (fun a s => Q a s ∧ Q' a s) (fun e s => E e s ∧ E' e s)
      (fun s => K s ∧ K' s) := by
  intro s hs
  have h1 := h s hs.1
  have h2 := h' s hs.2
  match hm : m s with
  | (.ok a, s') => rw [hm] at h1 h2; exact ⟨h1, h2⟩
  | (.error e, s') => rw [hm] at h1 h2; exact ⟨h1, h2⟩
  | (.killed, s') => rw [hm] at h1 h2; exact ⟨h1, h2⟩

theorem Triple.ite {c : Prop} [Decidable c] {m n : Prog ε σ α}
    (ht : c → Triple P m Q E K) (hf : ¬ c → Triple P n Q E K) :
    Triple P (if c then m else n) Q E K := by
  by_cases h : c
  · rw [if_pos h]; exact ht h
  · rw [if_neg h]; exact hf h

/-- A part of the precondition that does not mention the state becomes a hypothesis. -/
theorem Triple.assume {φ : Prop} {m : Prog ε σ α} (h : φ → Triple P m Q E K) :
    Triple (fun s => φ ∧ P s) m Q E K := fun s hs => h hs.1 s hs.2

theorem Triple.exists {ι : Sort*} {P : ι → σ → Prop} {m : Prog ε σ α}
    (h : ∀ i, Triple (P i) m Q E K) : Triple (fun s => ∃ i, P i s) m Q E K := by
  rintro s ⟨i, hi⟩
  exact h i s hi

theorem Triple.get {Q : σ → σ → Prop} (h : ∀ s, P s → Q s s) :
    Triple P (Prog.get : Prog ε σ σ) Q E K := fun s hp => h s hp

theorem Triple.modify {f : σ → σ} {Q : Unit → σ → Prop} (h : ∀ s, P s → Q () (f s)) :
    Triple P (Prog.modify f : Prog ε σ Unit) Q E K := fun s hp => h s hp

theorem Triple.ofExcept {x : Except ε α} (hok : ∀ a, x = .ok a → ∀ s, P s → Q a s)
    (herr : ∀ e, x = .error e → ∀ s, P s → E e s) : Triple P (Prog.ofExcept x) Q E K := by
  cases x with
  | ok a => exact fun s hp => hok a rfl s hp
  | error e => exact fun s hp => herr e rfl s hp

theorem Triple.attempt {m : Prog ε σ α} {Q : Except ε α → σ → Prop}
    (h : Triple P m (fun a => Q (.ok a)) (fun e => Q (.error e)) K) :
    Triple P (Prog.attempt m) Q E K := by
  intro s hp
  have h' := h s hp
  unfold Prog.attempt
  match hm : m s with
  | (.ok a, s') => rw [hm] at h'; exact h'
  | (.error e, s') => rw [hm] at h'; exact h'
  | (.killed, s') => rw [hm] at h'; exact h'

/-- Both outcomes of an attempt, apart. -/
theorem Triple.attempt_bind {m : Prog ε σ β} {f : Except ε β → Prog ε σ α} {S : β → σ → Prop}
    {C : ε → σ → Prop} (hm : Triple P m S C K) (hok : ∀ b, Triple (S b) (f (.ok b)) Q E K)
    (herr : ∀ e, Triple (C e) (f (.error e)) Q E K) : Triple P (Prog.attempt m >>= f) Q E K := by
  intro s hp
  have h := hm s hp
  rw [bind_apply, Prog.attempt]
  match hs : m s with
  | (.ok b, s') => rw [hs] at h; exact hok b s' h
  | (.error e, s') => rw [hs] at h; exact herr e s' h
  | (.killed, s') => rw [hs] at h; exact h

/-- Running on a component frames the rest of the state. -/
theorem Triple.zoom {view : τ → σ} {put : σ → τ → τ} {m : Prog ε σ α} {P : τ → Prop}
    {Q : α → τ → Prop} {E : ε → τ → Prop} {K : τ → Prop}
    (h : ∀ t, P t → Triple (fun s => s = view t) m (fun a s => Q a (put s t))
      (fun e s => E e (put s t)) (fun s => K (put s t))) :
    Triple P (Prog.zoom view put m) Q E K := by
  intro t ht
  have h' := h t ht (view t) rfl
  unfold Prog.zoom
  match hm : m (view t) with
  | (.ok a, s') => rw [hm] at h'; exact h'
  | (.error e, s') => rw [hm] at h'; exact h'
  | (.killed, s') => rw [hm] at h'; exact h'

/-! ## Invariants -/

/-- What holds before a program holds after it, unless the process is killed. -/
def Keeps (I : σ → Prop) (m : Prog ε σ α) : Prop :=
  Triple I m (fun _ => I) (fun _ => I) (fun _ => True)

variable {I : σ → Prop}

theorem Keeps.pure (a : α) : Keeps I (Pure.pure a : Prog ε σ α) := Triple.pure (fun _ h => h)

theorem Keeps.fail (e : ε) : Keeps I (Prog.fail e : Prog ε σ α) := Triple.fail (fun _ h => h)

theorem Keeps.modify {f : σ → σ} (h : ∀ s, I s → I (f s)) :
    Keeps I (Prog.modify f : Prog ε σ Unit) := Triple.modify h

theorem Keeps.ofExcept (x : Except ε α) : Keeps I (Prog.ofExcept x) :=
  Triple.ofExcept (fun _ _ _ h => h) (fun _ _ _ h => h)

theorem Keeps.bind {m : Prog ε σ β} {f : β → Prog ε σ α} (hm : Keeps I m)
    (hf : ∀ b, Keeps I (f b)) : Keeps I (m >>= f) := Triple.bind hm hf

theorem Keeps.ite {c : Prop} [Decidable c] {m n : Prog ε σ α} (ht : c → Keeps I m)
    (hf : ¬ c → Keeps I n) : Keeps I (if c then m else n) := Triple.ite ht hf

theorem Keeps.attempt {m : Prog ε σ α} (hm : Keeps I m) : Keeps I (Prog.attempt m) :=
  Triple.attempt hm

/-- A program on one component keeps what does not depend on that component. -/
theorem Keeps.zoom {I : τ → Prop} {view : τ → σ} {put : σ → τ → τ} (m : Prog ε σ α)
    (h : ∀ s t, I t → I (put s t)) : Keeps I (Prog.zoom view put m) := by
  intro t ht
  unfold Prog.zoom
  match hm : m (view t) with
  | (.ok a, s') => exact h s' t ht
  | (.error e, s') => exact h s' t ht
  | (.killed, s') => trivial

end Prog

end MiniKV.Lib
