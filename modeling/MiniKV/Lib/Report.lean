import Mathlib.Logic.Basic

/-!
# Computations that report what they ask for

A `Report ε ω α` ends with a value or an error, and has asked for some things on
the way. Where every request is granted only the result matters; where one is
refused there is no result, whatever would have come behind it.
-/

namespace MiniKV.Lib

structure Report (ε ω α : Type) where
  /-- Oldest first. -/
  asked : List ω
  result : Except ε α

namespace Report

variable {ε ω α β : Type}

protected def pure (a : α) : Report ε ω α := ⟨[], .ok a⟩

protected def bind (m : Report ε ω α) (f : α → Report ε ω β) : Report ε ω β :=
  match m.result with
  | .ok a => ⟨m.asked ++ (f a).asked, (f a).result⟩
  | .error e => ⟨m.asked, .error e⟩

instance : Monad (Report ε ω) where
  pure := Report.pure
  bind := Report.bind

def fail (e : ε) : Report ε ω α := ⟨[], .error e⟩

def ask (w : ω) : Report ε ω Unit := ⟨[w], .ok ()⟩

def ofExcept (x : Except ε α) : Report ε ω α := ⟨[], x⟩

/-- The outcome where only some requests are granted: none, if one is refused. -/
def granted (grants : ω → Bool) (m : Report ε ω α) : Option (Except ε α) :=
  if m.asked.all grants then some m.result else none

/-! ## Results -/

@[simp] theorem result_pure (a : α) : (pure a : Report ε ω α).result = .ok a := rfl

@[simp] theorem result_fail (e : ε) : (fail e : Report ε ω α).result = .error e := rfl

@[simp] theorem result_ofExcept (x : Except ε α) : (ofExcept x : Report ε ω α).result = x := rfl

@[simp] theorem result_ask_bind (w : ω) (f : Unit → Report ε ω β) :
    (ask w >>= f).result = (f ()).result := rfl

theorem result_bind (m : Report ε ω α) (f : α → Report ε ω β) :
    (m >>= f).result = match m.result with
      | .ok a => (f a).result
      | .error e => .error e := by
  show (Report.bind m f).result = _
  unfold Report.bind
  cases m.result <;> rfl

@[simp] theorem result_ite {c : Prop} [Decidable c] (m n : Report ε ω α) :
    (if c then m else n).result = if c then m.result else n.result := apply_ite result c m n

/-! ## Requests -/

/-- Every request of a computation has a property. -/
def Asks (P : ω → Prop) (m : Report ε ω α) : Prop := ∀ w ∈ m.asked, P w

variable {P : ω → Prop}

theorem Asks.pure (a : α) : Asks P (Pure.pure a : Report ε ω α) := fun _ h => by cases h

theorem Asks.fail (e : ε) : Asks P (Report.fail e : Report ε ω α) := fun _ h => by cases h

theorem Asks.ofExcept (x : Except ε α) : Asks P (Report.ofExcept x : Report ε ω α) :=
  fun _ h => by cases h

theorem Asks.ask {w : ω} (h : P w) : Asks P (Report.ask w : Report ε ω Unit) := by
  intro w' hw
  rw [List.mem_singleton.mp hw]
  exact h

theorem Asks.bind {m : Report ε ω α} {f : α → Report ε ω β} (hm : Asks P m)
    (hf : ∀ a, m.result = .ok a → Asks P (f a)) : Asks P (m >>= f) := by
  show Asks P (Report.bind m f)
  unfold Report.bind
  cases hr : m.result with
  | error e => exact hm
  | ok a =>
    intro w hw
    rcases List.mem_append.mp hw with hw | hw
    · exact hm w hw
    · exact hf a hr w hw

theorem Asks.ite {c : Prop} [Decidable c] {m n : Report ε ω α} (hm : c → Asks P m)
    (hn : ¬ c → Asks P n) : Asks P (if c then m else n) := by
  split
  · exact hm ‹_›
  · exact hn ‹_›

end Report

end MiniKV.Lib
