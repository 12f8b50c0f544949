import Mathlib.Data.List.Lex
import Mathlib.Order.Lattice

/-!
# The lists that start with a given one

Where every element has a next one or is the greatest, the lists that start with `l`
are an interval of the lexicographic order: from `l` on, up to `l` with its last
element that can grow replaced by the next one and everything behind it cut off.
-/

namespace MiniKV.Lib

variable {α : Type*} {next : α → Option α}

/-- The end of the interval; without an element that can grow there is none. -/
def intervalEnd (next : α → Option α) : List α → Option (List α)
  | [] => none
  | a :: l =>
    match intervalEnd next l with
    | some u => some (a :: u)
    | none => (next a).map (fun b => [b])

theorem length_intervalEnd_le {l u : List α} (hu : intervalEnd next l = some u) :
    u.length ≤ l.length := by
  induction l generalizing u with
  | nil => cases hu
  | cons a l ih =>
    rw [intervalEnd] at hu
    cases hl : intervalEnd next l with
    | some v =>
      rw [hl] at hu
      obtain rfl := Option.some.inj hu
      exact Nat.succ_le_succ (ih hl)
    | none =>
      rw [hl] at hu
      obtain ⟨b, -, rfl⟩ := Option.map_eq_some_iff.mp hu
      exact Nat.succ_le_succ (Nat.zero_le _)

variable [LinearOrder α]

/-- `next` finds the element that follows, if there is one. -/
structure IsNext (next : α → Option α) : Prop where
  lt_iff : ∀ {a b}, next a = some b → ∀ c, c < b ↔ c ≤ a
  greatest : ∀ {a}, next a = none → ∀ c, c ≤ a

theorem cons_le_cons_iff {a b : α} {l k : List α} :
    a :: l ≤ b :: k ↔ a < b ∨ a = b ∧ l ≤ k := by
  rw [← not_lt, List.cons_lt_cons_iff]
  constructor
  · intro h
    rcases lt_trichotomy a b with hlt | rfl | hgt
    · exact Or.inl hlt
    · exact Or.inr ⟨rfl, not_lt.mp (fun hlt => h (Or.inr ⟨rfl, hlt⟩))⟩
    · exact absurd (Or.inl hgt) h
  · rintro (hlt | ⟨rfl, hle⟩) (hgt | ⟨heq, hlt'⟩)
    · exact lt_asymm hlt hgt
    · exact hlt.ne' heq
    · exact lt_irrefl _ hgt
    · exact absurd hle (not_le.mpr hlt')

/-- A list is in the interval exactly if it starts with `l`. -/
theorem IsNext.between_iff (h : IsNext next) (l k : List α) :
    (l ≤ k ∧ ∀ u ∈ intervalEnd next l, k < u) ↔ l <+: k := by
  induction l generalizing k with
  | nil => exact iff_of_true ⟨not_lt.mp (List.not_lt_nil _), nofun⟩ List.nil_prefix
  | cons a l ih =>
    cases k with
    | nil => exact iff_of_false (fun hc => absurd hc.1 (not_le.mpr (List.nil_lt_cons _ _))) (by simp)
    | cons c k =>
      rw [List.cons_prefix_cons, ← ih k, cons_le_cons_iff, intervalEnd]
      cases hu : intervalEnd next l with
      | some u =>
        simp only [Option.mem_def, Option.some.injEq, forall_eq', List.cons_lt_cons_iff]
        constructor
        · rintro ⟨hlt | ⟨rfl, hle⟩, hgt | ⟨heq, hend⟩⟩
          · exact absurd hlt (lt_asymm hgt)
          · exact absurd heq hlt.ne'
          · exact absurd hgt (lt_irrefl _)
          · exact ⟨rfl, hle, hend⟩
        · rintro ⟨rfl, hle, hend⟩
          exact ⟨Or.inr ⟨rfl, hle⟩, Or.inr ⟨rfl, hend⟩⟩
      | none =>
        -- the interval ends where its first element does
        have hfirst : (∀ u ∈ (next a).map (fun b => [b]), c :: k < u) ↔ c ≤ a := by
          cases hn : next a with
          | none => exact iff_of_true nofun (h.greatest hn c)
          | some b => simp [List.cons_lt_cons_iff, h.lt_iff hn]
        rw [hfirst]
        constructor
        · rintro ⟨hlt | ⟨rfl, hle⟩, hca⟩
          · exact absurd hlt (not_lt.mpr hca)
          · exact ⟨rfl, hle, nofun⟩
        · rintro ⟨rfl, hle, -⟩
          exact ⟨Or.inr ⟨rfl, hle⟩, le_refl _⟩

theorem IsNext.lt_intervalEnd (h : IsNext next) {l u : List α} (hu : intervalEnd next l = some u) :
    l < u :=
  ((h.between_iff l l).mpr List.prefix_rfl).2 u hu

end MiniKV.Lib
