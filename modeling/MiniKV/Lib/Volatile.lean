import Mathlib.Data.List.Basic
import Mathlib.Data.List.Infix

/-!
# Write-behind cells

A `Volatile σ` is a value kept behind a write-back cache: the value a running
program reads, and the values it has passed through since the last successful
flush of the cache. A crash leaves one of these states, so the writes that
survive are a prefix, in issue order, of the writes issued since that flush.
-/

namespace MiniKV.Lib

structure Volatile (σ : Type) where
  current : σ
  /-- Newest first, ending with the state of the last flush. Empty when the
  current state is itself flushed. -/
  older : List σ

namespace Volatile

variable {σ : Type}

/-- A cell whose value is on stable storage. -/
def stable (x : σ) : Volatile σ := ⟨x, []⟩

/-- Every state a crash may leave. -/
def states (v : Volatile σ) : List σ := v.current :: v.older

def set (v : Volatile σ) (x : σ) : Volatile σ := ⟨x, v.states⟩

def flush (v : Volatile σ) : Volatile σ := stable v.current

/-- The state left by a crash that keeps the `k`-th newest state. -/
def survivor (v : Volatile σ) (k : Nat) : σ := v.states[k]?.getD v.current

@[simp] theorem stable_current (x : σ) : (stable x).current = x := rfl
@[simp] theorem states_stable (x : σ) : (stable x).states = [x] := rfl
@[simp] theorem set_current (v : Volatile σ) (x : σ) : (v.set x).current = x := rfl
@[simp] theorem states_set (v : Volatile σ) (x : σ) : (v.set x).states = x :: v.states := rfl
@[simp] theorem flush_current (v : Volatile σ) : v.flush.current = v.current := rfl
@[simp] theorem states_flush (v : Volatile σ) : v.flush.states = [v.current] := rfl

theorem current_mem_states (v : Volatile σ) : v.current ∈ v.states := List.mem_cons_self

theorem survivor_mem_states (v : Volatile σ) (k : Nat) : v.survivor k ∈ v.states := by
  unfold survivor
  cases h : v.states[k]? with
  | none => exact v.current_mem_states
  | some x => exact List.mem_of_getElem? h

@[simp] theorem survivor_stable (x : σ) (k : Nat) : (stable x).survivor k = x := by
  have h := survivor_mem_states (stable x) k
  simpa using h

/-! ## Appending to a cached sequence, one element at a time -/

variable {α : Type}

/-- Elements reach the cell one by one, so a crash may keep any prefix of them. -/
def append (v : Volatile (List α)) (p : List α) : Volatile (List α) :=
  p.foldl (fun v b => v.set (v.current ++ [b])) v

@[simp] theorem append_nil (v : Volatile (List α)) : v.append [] = v := rfl

theorem append_cons (v : Volatile (List α)) (b : α) (p : List α) :
    v.append (b :: p) = (v.set (v.current ++ [b])).append p := rfl

@[simp] theorem append_current (v : Volatile (List α)) (p : List α) :
    (v.append p).current = v.current ++ p := by
  induction p generalizing v with
  | nil => simp
  | cons b p ih => rw [append_cons, ih]; simp

/-- The states after an append are the old ones and every partial append. -/
theorem mem_states_append {v : Volatile (List α)} {p c : List α} :
    c ∈ (v.append p).states ↔
      c ∈ v.states ∨ ∃ q, q ≠ [] ∧ q <+: p ∧ c = v.current ++ q := by
  induction p generalizing v with
  | nil =>
    constructor
    · intro h; exact Or.inl h
    · rintro (h | ⟨q, hq, hp, -⟩)
      · exact h
      · exact absurd (List.prefix_nil.mp hp) hq
  | cons b p ih =>
    rw [append_cons, ih]
    simp only [states_set, List.mem_cons, set_current]
    constructor
    · rintro ((rfl | h) | ⟨q, -, hp, rfl⟩)
      · exact Or.inr ⟨[b], by simp, by simp, rfl⟩
      · exact Or.inl h
      · exact Or.inr ⟨b :: q, by simp, List.cons_prefix_cons.mpr ⟨rfl, hp⟩, by simp⟩
    · rintro (h | ⟨q, hq, hp, rfl⟩)
      · exact Or.inl (Or.inr h)
      · cases q with
        | nil => exact absurd rfl hq
        | cons a q =>
          obtain ⟨rfl, hp'⟩ := List.cons_prefix_cons.mp hp
          cases q with
          | nil => exact Or.inl (Or.inl rfl)
          | cons a' q => exact Or.inr ⟨a' :: q, by simp, hp', by simp⟩

end Volatile

end MiniKV.Lib
