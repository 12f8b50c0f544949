import Mathlib.Data.List.TakeDrop
import Mathlib.Logic.Function.Basic

/-!
# Lists that differ in one place

`Altered l l'` says that `l'` is `l` with exactly one element replaced by another.
A change of a concatenation is a change of one of its parts, which is how a change
of an encoding is traced to the field it is in. A fold whose step loses nothing
tells the two lists apart. Lists with several changes close together agree around
them.
-/

namespace MiniKV.Lib

variable {α β : Type*}

/-- Exactly one element is another one. -/
inductive Altered : List α → List α → Prop
  | head {x y : α} (h : x ≠ y) (l : List α) : Altered (x :: l) (y :: l)
  | tail (x : α) {l l' : List α} (h : Altered l l') : Altered (x :: l) (x :: l')

theorem Altered.length_eq {l l' : List α} (h : Altered l l') : l'.length = l.length := by
  induction h with
  | head => rfl
  | tail x _ ih => rw [List.length_cons, List.length_cons, ih]

theorem Altered.ne {l l' : List α} (h : Altered l l') : l ≠ l' := by
  induction h with
  | head hne => exact fun he => hne (List.cons.inj he).1
  | tail x _ ih => exact fun he => ih (List.cons.inj he).2

theorem Altered.symm {l l' : List α} (h : Altered l l') : Altered l' l := by
  induction h with
  | head hne => exact .head hne.symm _
  | tail x _ ih => exact .tail x ih

/-- Replacing an element in place. -/
theorem altered_set {l : List α} {i : Nat} (hi : i < l.length) {y : α} (hy : l[i] ≠ y) :
    Altered l (l.set i y) := by
  induction l generalizing i with
  | nil => cases hi
  | cons x l ih =>
    cases i with
    | zero => exact .head hy l
    | succ i => exact .tail x (ih (Nat.lt_of_succ_lt_succ hi) hy)

theorem Altered.append_right {l l' : List α} (h : Altered l l') (s : List α) :
    Altered (l ++ s) (l' ++ s) := by
  induction h with
  | head hne => exact .head hne _
  | tail x _ ih => exact .tail x ih

theorem Altered.append_left {l l' : List α} (h : Altered l l') (p : List α) :
    Altered (p ++ l) (p ++ l') := by
  induction p with
  | nil => exact h
  | cons x p ih => exact .tail x ih

/-- A change of a concatenation is in one of the parts. -/
theorem Altered.append_cases {p s l' : List α} (h : Altered (p ++ s) l') :
    (∃ p', Altered p p' ∧ l' = p' ++ s) ∨ ∃ s', Altered s s' ∧ l' = p ++ s' := by
  induction p generalizing l' with
  | nil => exact Or.inr ⟨l', h, rfl⟩
  | cons x p ih =>
    cases h with
    | @head _ y hne => exact Or.inl ⟨y :: p, .head hne p, rfl⟩
    | tail _ h =>
      rcases ih h with ⟨p', hp, rfl⟩ | ⟨s', hs, rfl⟩
      · exact Or.inl ⟨x :: p', .tail x hp, rfl⟩
      · exact Or.inr ⟨s', hs, rfl⟩

/-- With parts of the same length, one of them is changed and the other is not. -/
theorem Altered.append_inv {p p' s s' : List α} (h : Altered (p ++ s) (p' ++ s'))
    (hlen : p.length = p'.length) : (Altered p p' ∧ s = s') ∨ (p = p' ∧ Altered s s') := by
  rcases h.append_cases with ⟨q, hq, he⟩ | ⟨t, ht, he⟩
  · obtain ⟨rfl, rfl⟩ := List.append_inj he.symm (hq.length_eq.trans hlen)
    exact Or.inl ⟨hq, rfl⟩
  · obtain ⟨rfl, rfl⟩ := List.append_inj he.symm hlen
    exact Or.inr ⟨rfl, ht⟩

/-- A change of a list of parts is a change of one of them. -/
theorem Altered.flatMap_cases {f : β → List α} {xs : List β} {l' : List α}
    (h : Altered (xs.flatMap f) l') : ∃ before x after x', xs = before ++ x :: after ∧
      Altered (f x) x' ∧ l' = before.flatMap f ++ (x' ++ after.flatMap f) := by
  induction xs generalizing l' with
  | nil => cases h
  | cons x xs ih =>
    rw [List.flatMap_cons] at h
    rcases h.append_cases with ⟨x', hx, rfl⟩ | ⟨s', hs, rfl⟩
    · exact ⟨[], x, xs, x', rfl, hx, rfl⟩
    · obtain ⟨before, y, after, y', rfl, hy, rfl⟩ := ih hs
      exact ⟨x :: before, y, after, y', rfl, hy, by rw [List.flatMap_cons, List.append_assoc]⟩

/-- A fold whose step loses nothing of the state loses nothing of it. -/
theorem foldl_injective {f : β → α → β} (hstate : ∀ a, Function.Injective (f · a)) (l : List α) :
    Function.Injective (fun s => l.foldl f s) := by
  induction l with
  | nil => exact fun _ _ he => he
  | cons a l ih => exact fun _ _ he => hstate a (ih he)

/-- A fold whose step is injective in both arguments sees every change. -/
theorem Altered.foldl_ne {f : β → α → β} (hstate : ∀ a, Function.Injective (f · a))
    (hitem : ∀ s, Function.Injective (f s)) {l l' : List α} (h : Altered l l') (s : β) :
    l.foldl f s ≠ l'.foldl f s := by
  induction h generalizing s with
  | head hne l => exact fun he => hne (hitem s (foldl_injective hstate l he))
  | tail x _ ih => exact ih (f s x)

/-! ## Changes within a window -/

/-- Lists of one length that agree outside of a window have the same elements before and
behind it. -/
theorem exists_window {l l' : List α} (hlen : l.length = l'.length) {start width : Nat}
    (h : ∀ i, l[i]? ≠ l'[i]? → start ≤ i ∧ i < start + width) :
    ∃ p x x' s, l = p ++ (x ++ s) ∧ l' = p ++ (x' ++ s) ∧ x.length = x'.length ∧
      x.length ≤ width := by
  have hsplit : ∀ m : List α,
      m = m.take start ++ ((m.drop start).take width ++ m.drop (start + width)) := by
    intro m
    rw [← List.drop_drop, List.take_append_drop, List.take_append_drop]
  have hfront : l'.take start = l.take start := by
    refine List.ext_getElem? (fun i => ?_)
    rw [List.getElem?_take, List.getElem?_take]
    split
    · rename_i hi
      by_contra hne
      have hwin := h i (Ne.symm hne)
      omega
    · rfl
  have hback : l'.drop (start + width) = l.drop (start + width) := by
    refine List.ext_getElem? (fun i => ?_)
    rw [List.getElem?_drop, List.getElem?_drop]
    by_contra hne
    have hwin := h (start + width + i) (Ne.symm hne)
    omega
  refine ⟨l.take start, (l.drop start).take width, (l'.drop start).take width,
    l.drop (start + width), hsplit l, ?_, ?_, List.length_take_le _ _⟩
  · rw [← hfront, ← hback]
    exact hsplit l'
  · rw [List.length_take, List.length_take, List.length_drop, List.length_drop, hlen]

end MiniKV.Lib
