import MiniKV.Lib.Merge
import Mathlib.Data.List.Pairwise

/-!
# The newest version of a key

Among records that have a key and a version, the one of a key with the largest
version. Where no two records claim one version of one key it is unique, and
then neither the order of the records nor records that are older than others of
their key matter to it.
-/

namespace MiniKV.Lib

variable {R K : Type} [LinearOrder K] {key : R → K} {version : R → Nat}

/-- The newer of two answers; of two equally new ones the first. -/
def newer (version : R → Nat) : Option R → Option R → Option R
  | none, b => b
  | some a, none => some a
  | some a, some b => if version a < version b then some b else some a

/-- The newest record of key `k`; of two equally new ones the first. -/
def newest (key : R → K) (version : R → Nat) (k : K) : List R → Option R
  | [] => none
  | r :: rs =>
    if key r = k then newer version (some r) (newest key version k rs)
    else newest key version k rs

@[simp] theorem newer_none (a : Option R) : newer version a none = a := by
  cases a <;> rfl

theorem newer_assoc (a b c : Option R) :
    newer version (newer version a b) c = newer version a (newer version b c) := by
  cases a with
  | none => rfl
  | some a =>
    cases b with
    | none => rfl
    | some b =>
      cases c with
      | none => simp
      | some c =>
        by_cases hab : version a < version b <;> by_cases hbc : version b < version c <;>
          by_cases hac : version a < version c <;>
          simp only [newer, hab, hbc, hac, if_true, if_false] <;> omega

theorem newest_append (k : K) (rs ss : List R) :
    newest key version k (rs ++ ss) =
      newer version (newest key version k rs) (newest key version k ss) := by
  induction rs with
  | nil => rfl
  | cons y ys ih =>
    rw [List.cons_append, newest, newest, ih]
    by_cases hk : key y = k
    · rw [if_pos hk, if_pos hk, newer_assoc]
    · rw [if_neg hk, if_neg hk]

/-- `r` is a record of key `k`, and no record of that key is newer. -/
structure IsNewest (key : R → K) (version : R → Nat) (rs : List R) (k : K) (r : R) : Prop where
  mem : r ∈ rs
  key_eq : key r = k
  le : ∀ x ∈ rs, key x = k → version x ≤ version r

theorem newest_eq_none {rs : List R} {k : K} :
    newest key version k rs = none ↔ ∀ r ∈ rs, key r ≠ k := by
  induction rs with
  | nil => simp [newest]
  | cons y ys ih =>
    rw [newest]
    by_cases hk : key y = k
    · have hsome : newer version (some y) (newest key version k ys) ≠ none := by
        cases newest key version k ys with
        | none => simp
        | some b => rw [newer]; split <;> simp
      rw [if_pos hk]
      constructor
      · intro h; exact absurd h hsome
      · intro h; exact absurd hk (h y List.mem_cons_self)
    · rw [if_neg hk, ih]
      simp [hk]

theorem newest_isNewest {rs : List R} {k : K} {r : R} (h : newest key version k rs = some r) :
    IsNewest key version rs k r := by
  induction rs generalizing r with
  | nil => cases h
  | cons y ys ih =>
    rw [newest] at h
    by_cases hk : key y = k
    · rw [if_pos hk] at h
      cases hn : newest key version k ys with
      | none =>
        rw [hn] at h
        obtain rfl : y = r := Option.some.inj h
        refine ⟨List.mem_cons_self, hk, fun x hx hxk => ?_⟩
        rcases List.mem_cons.mp hx with rfl | hx
        · exact le_refl _
        · exact absurd hxk (newest_eq_none.mp hn x hx)
      | some b =>
        obtain ⟨hm, hbk, hle⟩ := ih hn
        rw [hn] at h
        rw [newer] at h
        by_cases hv : version y < version b
        · rw [if_pos hv] at h
          obtain rfl : b = r := Option.some.inj h
          refine ⟨List.mem_cons_of_mem _ hm, hbk, fun x hx hxk => ?_⟩
          rcases List.mem_cons.mp hx with rfl | hx
          · exact hv.le
          · exact hle x hx hxk
        · rw [if_neg hv] at h
          obtain rfl : y = r := Option.some.inj h
          refine ⟨List.mem_cons_self, hk, fun x hx hxk => ?_⟩
          rcases List.mem_cons.mp hx with rfl | hx
          · exact le_refl _
          · exact (hle x hx hxk).trans (not_lt.mp hv)
    · rw [if_neg hk] at h
      obtain ⟨hm, hrk, hle⟩ := ih h
      refine ⟨List.mem_cons_of_mem _ hm, hrk, fun x hx hxk => ?_⟩
      rcases List.mem_cons.mp hx with rfl | hx
      · exact absurd hxk hk
      · exact hle x hx hxk

theorem exists_newest {rs : List R} {k : K} {r : R} (hm : r ∈ rs) (hk : key r = k) :
    ∃ w, newest key version k rs = some w := by
  cases h : newest key version k rs with
  | none => exact absurd hk (newest_eq_none.mp h r hm)
  | some w => exact ⟨w, rfl⟩

omit [LinearOrder K] in
/-- Records of one key and one version are one record. -/
theorem Distinct.eq {rs : List R} (h : Distinct key version rs) {a b : R} (ha : a ∈ rs)
    (hb : b ∈ rs) (hk : key a = key b) (hv : version a = version b) : a = b := by
  by_contra hne
  have hsymm : Std.Symm (fun a b : R => ¬ (key a = key b ∧ version a = version b)) :=
    ⟨fun a b h h' => h ⟨h'.1.symm, h'.2.symm⟩⟩
  exact List.Pairwise.forall h ha hb hne ⟨hk, hv⟩

theorem newest_eq_some {rs : List R} (hd : Distinct key version rs) {k : K} {r : R} :
    newest key version k rs = some r ↔ IsNewest key version rs k r := by
  constructor
  · exact newest_isNewest
  · intro h
    obtain ⟨w, hw⟩ : ∃ w, newest key version k rs = some w := exists_newest h.mem h.key_eq
    have hn := newest_isNewest hw
    have hv : version w = version r :=
      le_antisymm (h.le w hn.mem hn.key_eq) (hn.le r h.mem h.key_eq)
    rw [hw, hd.eq hn.mem h.mem (hn.key_eq.trans h.key_eq.symm) hv]

/-- Two lists with the same newest records answer alike. -/
theorem newest_congr {rs ss : List R} (hr : Distinct key version rs)
    (hs : Distinct key version ss) {k : K}
    (h : ∀ r, IsNewest key version rs k r ↔ IsNewest key version ss k r) :
    newest key version k rs = newest key version k ss := by
  apply Option.ext
  intro r
  rw [newest_eq_some hr, newest_eq_some hs, h r]

omit [LinearOrder K] in
theorem Distinct.perm {rs ss : List R} (h : Distinct key version rs) (hp : rs.Perm ss) :
    Distinct key version ss :=
  hp.pairwise h (fun h h' => h ⟨h'.1.symm, h'.2.symm⟩)

theorem newest_perm {rs ss : List R} (h : Distinct key version rs) (hp : rs.Perm ss) (k : K) :
    newest key version k rs = newest key version k ss := by
  refine newest_congr h (h.perm hp) (fun r => ?_)
  constructor
  · rintro ⟨hm, hk, hle⟩
    exact ⟨hp.mem_iff.mp hm, hk, fun x hx => hle x (hp.mem_iff.mpr hx)⟩
  · rintro ⟨hm, hk, hle⟩
    exact ⟨hp.mem_iff.mpr hm, hk, fun x hx => hle x (hp.mem_iff.mp hx)⟩

/-- A list that ascends by key has at most one record of a key. -/
theorem distinct_of_sorted {rs : List R} (h : rs.Pairwise (fun a b => key a < key b)) :
    Distinct key version rs :=
  h.imp (fun hlt he => hlt.ne he.1)

/-- A round of the merge takes out the newest record of its key and of no other key. -/
theorem Round.isNewest_iff {heap heap' : List (Cursor R)} {w : R} {n : Nat} {losers : List R}
    (h : Round key version heap w n heap' losers) {r : R} :
    IsNewest key version (pending heap) (key r) r ↔
      r = w ∨ IsNewest key version (pending heap') (key r) r := by
  have hmem : ∀ {x : R}, x ∈ pending heap ↔ (x = w ∨ x ∈ losers) ∨ x ∈ pending heap' := by
    intro x
    rw [h.perm.mem_iff, List.mem_append, List.mem_cons]
  constructor
  · rintro ⟨hm, -, hle⟩
    rcases hmem.mp hm with (rfl | hr) | hr
    · exact Or.inl rfl
    · have hw := hle w (hmem.mpr (Or.inl (Or.inl rfl))) (h.losers_key r hr).symm
      have hlt := h.losers_version r hr
      omega
    · exact Or.inr ⟨hr, rfl, fun x hx => hle x (hmem.mpr (Or.inr hx))⟩
  · rintro (rfl | ⟨hm, -, hle⟩)
    · refine ⟨hmem.mpr (Or.inl (Or.inl rfl)), rfl, fun x hx hk => ?_⟩
      rcases hmem.mp hx with (rfl | hx) | hx
      · exact le_refl _
      · exact (h.losers_version x hx).le
      · exact absurd hk (h.rest x hx).ne'
    · -- the keys behind the round are all larger than the one it took
      have hlt := h.rest r hm
      refine ⟨hmem.mpr (Or.inr hm), rfl, fun x hx hk => ?_⟩
      rcases hmem.mp hx with (rfl | hx) | hx
      · exact absurd hk hlt.ne
      · exact absurd ((h.losers_key x hx).symm.trans hk) hlt.ne
      · exact hle x hx hk

omit [LinearOrder K] in
/-- Leaving out whole keys does not change what is newest of the others. -/
theorem isNewest_filter {rs : List R} {p : K → Bool} {k : K} {r : R} :
    IsNewest key version (rs.filter (fun x => p (key x))) k r ↔
      p k = true ∧ IsNewest key version rs k r := by
  constructor
  · intro h
    obtain ⟨hmem, hp⟩ := List.mem_filter.mp h.mem
    rw [h.key_eq] at hp
    refine ⟨hp, hmem, h.key_eq, fun x hx hxk => h.le x ?_ hxk⟩
    rw [List.mem_filter, hxk]
    exact ⟨hx, hp⟩
  · intro h
    obtain ⟨hp, hmem, hkey, hle⟩ := h
    refine ⟨?_, hkey, fun x hx hxk => hle x (List.mem_of_mem_filter hx) hxk⟩
    rw [List.mem_filter, hkey]
    exact ⟨hmem, hp⟩

/-- Where one list is newer than another on a key they share, it hides the other. -/
theorem newest_append_of_le {rs ss : List R} {k : K}
    (h : ∀ r ∈ rs, key r = k → ∀ s ∈ ss, key s = k → version s ≤ version r) :
    newest key version k (rs ++ ss) =
      (newest key version k rs).or (newest key version k ss) := by
  rw [newest_append]
  cases hr : newest key version k rs with
  | none => rfl
  | some a =>
    cases hs : newest key version k ss with
    | none => rfl
    | some b =>
      have ha := newest_isNewest hr
      have hb := newest_isNewest hs
      have hle := h a ha.mem ha.key_eq b hb.mem hb.key_eq
      rw [newer, if_neg (by omega)]
      rfl

end MiniKV.Lib
