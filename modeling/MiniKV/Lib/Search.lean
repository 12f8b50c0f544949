import Mathlib.Data.List.TakeWhile
import Mathlib.Data.List.Pairwise

/-!
# Binary search

The halving loop behind `std::lower_bound`, `std::upper_bound` and
`std::partition_point`: in a list whose elements with a property all stand in
front, it finds how many there are.
-/

namespace MiniKV.Lib

variable {α : Type}

/-- The loop, on `count` elements from `first` on. Every round at least halves `count`, so
its initial value is fuel enough. -/
def partitionLoop (p : α → Bool) (xs : List α) : Nat → Nat → Nat → Nat
  | 0, first, _ => first
  | fuel + 1, first, count =>
    if count = 0 then first
    else
      let step := count / 2
      if xs[first + step]?.any p then partitionLoop p xs fuel (first + step + 1) (count - (step + 1))
      else partitionLoop p xs fuel first step

def partitionPoint (p : α → Bool) (xs : List α) : Nat := partitionLoop p xs xs.length 0 xs.length

/-- `std::lower_bound`: the first element that does not come before the target. -/
def lowerBound (before : α → Bool) (xs : List α) : Nat := partitionPoint before xs

/-- `std::upper_bound`: the first element that comes after the target. -/
def upperBound (after : α → Bool) (xs : List α) : Nat := partitionPoint (fun x => !after x) xs

/-- The boundary never leaves the searched interval. -/
theorem partitionLoop_eq {p : α → Bool} {ys zs : List α} (hy : ∀ y ∈ ys, p y = true)
    (hz : ∀ z ∈ zs, p z = false) {fuel first count : Nat} (hfuel : count ≤ fuel)
    (hlow : first ≤ ys.length) (hhigh : ys.length ≤ first + count)
    (hend : first + count ≤ (ys ++ zs).length) :
    partitionLoop p (ys ++ zs) fuel first count = ys.length := by
  induction fuel generalizing first count with
  | zero =>
    rw [partitionLoop]
    omega
  | succ fuel ih =>
    rw [partitionLoop]
    by_cases hcount : count = 0
    · rw [if_pos hcount]
      omega
    rw [if_neg hcount]
    dsimp only
    have hstep : first + count / 2 < (ys ++ zs).length := by omega
    by_cases hside : first + count / 2 < ys.length
    · -- the middle element is in front of the boundary
      have hget : (ys ++ zs)[first + count / 2]? = some (ys[first + count / 2]) := by
        rw [List.getElem?_append_left hside, List.getElem?_eq_getElem hside]
      have hp : p (ys[first + count / 2]) = true := hy _ (List.getElem_mem hside)
      rw [hget, Option.any_some, if_pos hp]
      exact ih (by omega) (by omega) (by omega) (by omega)
    · have hindex : first + count / 2 - ys.length < zs.length := by
        rw [List.length_append] at hstep
        omega
      have hget : (ys ++ zs)[first + count / 2]? = some (zs[first + count / 2 - ys.length]) := by
        rw [List.getElem?_append_right (by omega), List.getElem?_eq_getElem hindex]
      have hp : p (zs[first + count / 2 - ys.length]) = false := hz _ (List.getElem_mem hindex)
      rw [hget, Option.any_some, if_neg (by rw [hp]; simp)]
      exact ih (by omega) hlow (by omega) (by omega)

theorem partitionPoint_append {p : α → Bool} {ys zs : List α} (hy : ∀ y ∈ ys, p y = true)
    (hz : ∀ z ∈ zs, p z = false) : partitionPoint p (ys ++ zs) = ys.length :=
  partitionLoop_eq hy hz (le_refl _) (Nat.zero_le _) (by simp) (by simp)

/-- A list in which the property is inherited by everything in front splits at the
boundary. -/
theorem exists_partition {p : α → Bool} {xs : List α}
    (h : xs.Pairwise (fun a b => p b = true → p a = true)) :
    ∃ ys zs, xs = ys ++ zs ∧ (∀ y ∈ ys, p y = true) ∧ (∀ z ∈ zs, p z = false) := by
  induction xs with
  | nil => exact ⟨[], [], rfl, by simp, by simp⟩
  | cons x xs ih =>
    obtain ⟨hx, hxs⟩ := List.pairwise_cons.mp h
    by_cases hp : p x = true
    · obtain ⟨ys, zs, rfl, hy, hz⟩ := ih hxs
      refine ⟨x :: ys, zs, rfl, fun y hm => ?_, hz⟩
      rcases List.mem_cons.mp hm with rfl | hm
      · exact hp
      · exact hy y hm
    · refine ⟨[], x :: xs, rfl, by simp, fun z hm => ?_⟩
      rw [← Bool.not_eq_true]
      rcases List.mem_cons.mp hm with rfl | hm
      · exact hp
      · exact fun hz => hp (hx z hm hz)

theorem takeWhile_eq_filter {p : α → Bool} {xs : List α}
    (h : xs.Pairwise (fun a b => p b = true → p a = true)) : xs.takeWhile p = xs.filter p := by
  obtain ⟨ys, zs, rfl, hy, hz⟩ := exists_partition h
  have hzs : zs.takeWhile p = [] := by
    cases zs with
    | nil => rfl
    | cons z zs => rw [List.takeWhile_cons, hz z List.mem_cons_self]; rfl
  rw [List.takeWhile_append_of_pos hy, hzs, List.filter_append, List.filter_eq_self.mpr hy,
    List.filter_eq_nil_iff.mpr (fun z hm => by rw [hz z hm]; exact Bool.false_ne_true)]

theorem dropWhile_eq_filter {p : α → Bool} {xs : List α}
    (h : xs.Pairwise (fun a b => p b = true → p a = true)) :
    xs.dropWhile p = xs.filter (fun x => !p x) := by
  obtain ⟨ys, zs, rfl, hy, hz⟩ := exists_partition h
  have hzs : zs.dropWhile p = zs := by
    cases zs with
    | nil => rfl
    | cons z zs => rw [List.dropWhile_cons, hz z List.mem_cons_self]; rfl
  rw [List.dropWhile_append_of_pos hy, hzs, List.filter_append,
    List.filter_eq_nil_iff.mpr (fun y hm => by rw [hy y hm]; exact Bool.false_ne_true),
    List.filter_eq_self.mpr (fun z hm => by rw [hz z hm]; rfl), List.nil_append]

end MiniKV.Lib
