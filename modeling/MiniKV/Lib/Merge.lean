import Mathlib.Data.List.Perm.Basic
import Mathlib.Data.List.Flatten
import Mathlib.Order.Defs.LinearOrder
import Mathlib.Order.Lattice
import Mathlib.Order.Nat

/-!
# Merging sorted runs of versioned records

Records have a key and a version. A merge keeps one cursor into each of several
runs, sorted by key, in a priority queue: smallest key first, newest version of
a key first. One round takes every cursor that stands on the smallest key,
keeps the newest of their records and moves those cursors on. Two records that
claim one version of one key make the round fail.
-/

namespace MiniKV.Lib

/-- A position in a run: the record under it, and those after it. -/
structure Cursor (R : Type) where
  record : R
  rest : List R

namespace Cursor

variable {R : Type}

/-- The records from the cursor on. -/
def remaining (c : Cursor R) : List R := c.record :: c.rest

def ofList : List R → Option (Cursor R)
  | [] => none
  | r :: rs => some ⟨r, rs⟩

/-- The cursor one record further, unless the run ends there. -/
def next (c : Cursor R) : Option (Cursor R) := ofList c.rest

end Cursor

/-- Everything that the cursors have not passed yet. -/
def pending {R : Type} (heap : List (Cursor R)) : List R := heap.flatMap Cursor.remaining

/-- Cursors at the start of every run that is not empty. -/
def startCursors {R : Type} (runs : List (List R)) : List (Cursor R) :=
  runs.filterMap Cursor.ofList

section Definitions

variable {R K : Type} [LinearOrder K] (key : R → K) (version : R → Nat)

/-- The order of the queue: `a` has to wait for `b`. -/
def later (a b : R) : Bool := key b < key a || (key a = key b && version a < version b)

/-- Take the first cursor out of the queue. -/
def popTop : List (Cursor R) → Option (Cursor R × List (Cursor R))
  | [] => none
  | c :: cs =>
    match popTop cs with
    | none => some (c, [])
    | some (b, rest) =>
      if later key version c.record b.record then some (b, c :: rest) else some (c, b :: rest)

/-- Take out every cursor that stands on key `k`, with the newest record so far. -/
def popGroup (k : K) : Nat → Option R → List (Cursor R) → List (Cursor R) →
    Except Unit (Option R × List (Cursor R) × List (Cursor R))
  | 0, winner, group, heap => .ok (winner, group, heap)
  | n + 1, winner, group, heap =>
    match popTop key version heap with
    | none => .ok (winner, group, heap)
    | some (c, rest) =>
      if key c.record ≠ k then .ok (winner, group, heap)
      else match winner with
        | none => popGroup k n (some c.record) (group ++ [c]) rest
        | some w =>
          if version w < version c.record then popGroup k n (some c.record) (group ++ [c]) rest
          else if version c.record = version w then .error ()
          else popGroup k n (some w) (group ++ [c]) rest

/-- One round: the newest record of the smallest key, how many runs had the key,
and the queue afterwards. -/
def mergeRound (heap : List (Cursor R)) :
    Option (Except Unit (R × Nat × List (Cursor R))) :=
  match popTop key version heap with
  | none => none
  | some (c, _) =>
    match popGroup key version (key c.record) heap.length none [] heap with
    | .error () => some (.error ())
    | .ok (none, _, _) => some (.error ())
    | .ok (some w, group, heap) => some (.ok (w, group.length, group.filterMap Cursor.next ++ heap))

end Definitions

section Facts

variable {R K : Type} [LinearOrder K] {key : R → K} {version : R → Nat}

/-- No two records claim one version of one key. -/
def Distinct (key : R → K) (version : R → Nat) (rs : List R) : Prop :=
  rs.Pairwise (fun a b => ¬ (key a = key b ∧ version a = version b))

/-- Every run ascends by key from its cursor on. -/
def Sorted (key : R → K) (heap : List (Cursor R)) : Prop :=
  ∀ c ∈ heap, c.remaining.Pairwise (fun a b => key a < key b)

/-- The queue order, read the other way: `a` need not wait for `b`. -/
def Before (key : R → K) (version : R → Nat) (a b : R) : Prop :=
  key a < key b ∨ (key a = key b ∧ version b ≤ version a)

theorem not_later {a b : R} : later key version a b = false ↔ Before key version a b := by
  simp only [later, Before, Bool.or_eq_false_iff, decide_eq_false_iff_not, not_lt,
    Bool.and_eq_false_iff]
  constructor
  · rintro ⟨h, hv⟩
    rcases h.lt_or_eq with hlt | heq
    · exact Or.inl hlt
    · exact Or.inr ⟨heq, by rcases hv with hv | hv; exacts [absurd heq hv, hv]⟩
  · rintro (h | ⟨h, hv⟩)
    · exact ⟨h.le, Or.inl h.ne⟩
    · exact ⟨h.le, Or.inr hv⟩

theorem Before.of_later {a b : R} (h : later key version a b = true) :
    Before key version b a := by
  simp only [later, Bool.or_eq_true, decide_eq_true_eq, Bool.and_eq_true] at h
  rcases h with h | ⟨h, hv⟩
  · exact Or.inl h
  · exact Or.inr ⟨h.symm, hv.le⟩

theorem Before.trans {a b c : R} (h : Before key version a b) (h' : Before key version b c) :
    Before key version a c := by
  rcases h with h | ⟨h, hv⟩ <;> rcases h' with h' | ⟨h', hv'⟩
  · exact Or.inl (h.trans h')
  · exact Or.inl (h' ▸ h)
  · exact Or.inl (h ▸ h')
  · exact Or.inr ⟨h.trans h', hv'.trans hv⟩

theorem Before.key_le {a b : R} (h : Before key version a b) : key a ≤ key b := by
  rcases h with h | h
  · exact h.le
  · exact h.1.le

theorem popTop_eq_none {heap : List (Cursor R)} :
    popTop key version heap = none ↔ heap = [] := by
  cases heap with
  | nil => simp [popTop]
  | cons c cs =>
    unfold popTop
    cases popTop key version cs with
    | none => simp
    | some p => simp only [reduceCtorEq, iff_false]; split <;> simp

/-- The cursor taken out is one no other has to wait for less. -/
theorem popTop_eq_some {heap rest : List (Cursor R)} {b : Cursor R}
    (h : popTop key version heap = some (b, rest)) :
    heap.Perm (b :: rest) ∧ ∀ c ∈ rest, Before key version b.record c.record := by
  induction heap generalizing b rest with
  | nil => cases h
  | cons c cs ih =>
    unfold popTop at h
    cases hp : popTop key version cs with
    | none =>
      rw [hp] at h
      obtain ⟨rfl, rfl⟩ := Prod.mk.inj (Option.some.inj h)
      rw [popTop_eq_none.mp hp]
      exact ⟨List.Perm.refl _, by simp⟩
    | some p =>
      obtain ⟨top, others⟩ := p
      rw [hp] at h
      obtain ⟨hperm, hbefore⟩ := ih hp
      dsimp only at h
      split at h
      · rename_i hl
        obtain ⟨rfl, rfl⟩ := Prod.mk.inj (Option.some.inj h)
        refine ⟨(hperm.cons c).trans (List.Perm.swap _ _ _), ?_⟩
        intro x hx
        rcases List.mem_cons.mp hx with rfl | hx
        · exact Before.of_later hl
        · exact hbefore x hx
      · rename_i hl
        obtain ⟨rfl, rfl⟩ := Prod.mk.inj (Option.some.inj h)
        have hct := not_later.mp (Bool.not_eq_true _ ▸ hl)
        refine ⟨hperm.cons c, ?_⟩
        intro x hx
        rcases List.mem_cons.mp hx with rfl | hx
        · exact hct
        · exact hct.trans (hbefore x hx)

/-- Popping the rest of a group once its newest record is known. -/
theorem popGroup_of_winner {k : K} {n : Nat} {w : R} {heap : List (Cursor R)}
    (group : List (Cursor R)) (hn : heap.length ≤ n) (hk : ∀ c ∈ heap, k ≤ key c.record)
    (hw : ∀ c ∈ heap, key c.record = k → version c.record ≤ version w) :
    (popGroup key version k n (some w) group heap = .error () ∧
      ∃ c ∈ heap, key c.record = k ∧ version c.record = version w) ∨
    ∃ others heap', popGroup key version k n (some w) group heap =
        .ok (some w, group ++ others, heap') ∧ heap.Perm (others ++ heap') ∧
        (∀ c ∈ others, key c.record = k ∧ version c.record < version w) ∧
        ∀ c ∈ heap', k < key c.record := by
  induction n generalizing group heap with
  | zero =>
    have hnil : heap = [] := List.length_eq_zero_iff.mp (Nat.le_zero.mp hn)
    exact Or.inr ⟨[], [], by simp [popGroup, hnil], by simp [hnil], by simp, by simp⟩
  | succ n ih =>
    unfold popGroup
    cases hp : popTop key version heap with
    | none =>
      rw [popTop_eq_none] at hp
      exact Or.inr ⟨[], heap, by simp, by simp, by simp, by simp [hp]⟩
    | some p =>
      obtain ⟨c, rest⟩ := p
      obtain ⟨hperm, hbefore⟩ := popTop_eq_some hp
      have hmem : ∀ x ∈ rest, x ∈ heap := fun x hx =>
        hperm.mem_iff.mpr (List.mem_cons_of_mem _ hx)
      have hc : c ∈ heap := hperm.mem_iff.mpr List.mem_cons_self
      dsimp only
      by_cases hkey : key c.record = k
      · rw [if_neg (not_not.mpr hkey), if_neg (not_lt.mpr (hw c hc hkey))]
        by_cases htie : version c.record = version w
        · rw [if_pos htie]
          exact Or.inl ⟨rfl, c, hc, hkey, htie⟩
        · rw [if_neg htie]
          have hlt : version c.record < version w := lt_of_le_of_ne (hw c hc hkey) htie
          have hlen : rest.length ≤ n := by
            have := hperm.length_eq
            simp only [List.length_cons] at this
            omega
          rcases ih (group ++ [c]) hlen (fun x hx => hk x (hmem x hx))
            (fun x hx => hw x (hmem x hx)) with ⟨he, x, hx, hxk⟩ | ⟨others, heap', he, hp', ho, hh⟩
          · exact Or.inl ⟨he, x, hmem x hx, hxk⟩
          · refine Or.inr ⟨c :: others, heap', by rw [he]; simp, ?_, ?_, hh⟩
            · exact hperm.trans (hp'.cons c)
            · intro x hx
              rcases List.mem_cons.mp hx with rfl | hx
              · exact ⟨hkey, hlt⟩
              · exact ho x hx
      · rw [if_pos hkey]
        refine Or.inr ⟨[], heap, by simp, by simp, by simp, ?_⟩
        have hck : k < key c.record := lt_of_le_of_ne (hk c hc) (Ne.symm hkey)
        intro x hx
        rcases List.mem_cons.mp (hperm.mem_iff.mp hx) with rfl | hx
        · exact hck
        · exact hck.trans_le (hbefore x hx).key_le

/-! ## One round -/

theorem pending_cons (c : Cursor R) (heap : List (Cursor R)) :
    pending (c :: heap) = c.remaining ++ pending heap := rfl

theorem pending_append (heap heap' : List (Cursor R)) :
    pending (heap ++ heap') = pending heap ++ pending heap' := List.flatMap_append

theorem pending_perm {heap heap' : List (Cursor R)} (h : heap.Perm heap') :
    (pending heap).Perm (pending heap') := h.flatMap_right _

theorem record_mem_pending {heap : List (Cursor R)} {c : Cursor R} (h : c ∈ heap) :
    c.record ∈ pending heap := List.mem_flatMap.mpr ⟨c, h, List.mem_cons_self⟩

theorem mem_pending {heap : List (Cursor R)} {r : R} :
    r ∈ pending heap ↔ ∃ c ∈ heap, r ∈ c.remaining := List.mem_flatMap

/-- In a sorted run nothing precedes the record under the cursor. -/
theorem Sorted.record_le {heap : List (Cursor R)} (h : Sorted key heap) {c : Cursor R}
    (hc : c ∈ heap) {r : R} (hr : r ∈ c.remaining) : key c.record ≤ key r := by
  rcases List.mem_cons.mp hr with rfl | hr
  · exact le_rfl
  · exact (List.rel_of_pairwise_cons (h c hc) hr).le

theorem pending_startCursors (runs : List (List R)) : pending (startCursors runs) = runs.flatten := by
  induction runs with
  | nil => rfl
  | cons run runs ih =>
    cases run with
    | nil => exact ih
    | cons r rs => exact congrArg ((r :: rs) ++ ·) ih

theorem sorted_startCursors {runs : List (List R)}
    (h : ∀ run ∈ runs, run.Pairwise (fun a b => key a < key b)) :
    Sorted key (startCursors runs) := by
  intro c hc
  obtain ⟨run, hrun, he⟩ := List.mem_filterMap.mp hc
  cases run with
  | nil => cases he
  | cons r rs =>
    obtain rfl := Option.some.inj he
    exact h _ hrun

/-- Moving a group of cursors on drops exactly the records under them. -/
private theorem pending_advance (group : List (Cursor R)) :
    (pending group).Perm (group.map Cursor.record ++ pending (group.filterMap Cursor.next)) := by
  induction group with
  | nil => exact List.Perm.refl _
  | cons c group ih =>
    have hc : pending ((c :: group).filterMap Cursor.next) =
        c.rest ++ pending (group.filterMap Cursor.next) := by
      cases hr : c.rest with
      | nil => simp [Cursor.next, hr, Cursor.ofList]
      | cons r rs => simp [Cursor.next, hr, Cursor.ofList, pending_cons, Cursor.remaining]
    rw [pending_cons, hc, List.map_cons, List.cons_append, Cursor.remaining, List.cons_append]
    refine List.Perm.cons _ ?_
    calc (c.rest ++ pending group).Perm
          (c.rest ++ (group.map Cursor.record ++ pending (group.filterMap Cursor.next))) :=
        ih.append_left _
      _ = c.rest ++ group.map Cursor.record ++ pending (group.filterMap Cursor.next) := by
        rw [List.append_assoc]
      _ |>.Perm (group.map Cursor.record ++ c.rest ++ pending (group.filterMap Cursor.next)) :=
        List.perm_append_comm.append_right _
      _ = _ := by rw [List.append_assoc]

/-- What a round that succeeds does: `w` is the newest record of the smallest
key, the older records of that key are dropped, everything else is left. -/
structure Round (key : R → K) (version : R → Nat) (heap : List (Cursor R)) (w : R) (runs : Nat)
    (heap' : List (Cursor R)) (losers : List R) : Prop where
  perm : (pending heap).Perm (w :: losers ++ pending heap')
  losers_key : ∀ r ∈ losers, key r = key w
  losers_version : ∀ r ∈ losers, version r < version w
  rest : ∀ r ∈ pending heap', key w < key r
  sorted : Sorted key heap'
  runs_eq : runs = losers.length + 1

theorem mergeRound_eq_none {heap : List (Cursor R)} :
    mergeRound key version heap = none ↔ heap = [] := by
  unfold mergeRound
  cases hp : popTop key version heap with
  | none => simpa using popTop_eq_none.mp hp
  | some p =>
    have hne : heap ≠ [] := fun h => by simp [h, popTop] at hp
    simp only [hne, iff_false]
    split <;> simp

/-- The two outcomes of a round on a queue that is not empty. -/
theorem mergeRound_cases {heap : List (Cursor R)} (hs : Sorted key heap) (hne : heap ≠ []) :
    (mergeRound key version heap = some (.error ()) ∧ ¬ Distinct key version (pending heap)) ∨
    ∃ w n heap' losers, mergeRound key version heap = some (.ok (w, n, heap')) ∧
      Round key version heap w n heap' losers := by
  obtain ⟨n, hn⟩ : ∃ n, heap.length = n + 1 := by
    cases heap with
    | nil => exact absurd rfl hne
    | cons c cs => exact ⟨cs.length, rfl⟩
  unfold mergeRound
  cases hp : popTop key version heap with
  | none => exact absurd (popTop_eq_none.mp hp) hne
  | some p =>
    obtain ⟨c, rest⟩ := p
    obtain ⟨hperm, hbefore⟩ := popTop_eq_some hp
    have hlen : rest.length ≤ n := by
      have := hperm.length_eq
      simp only [List.length_cons] at this
      omega
    have hfirst : popGroup key version (key c.record) heap.length none [] heap =
        popGroup key version (key c.record) n (some c.record) [c] rest := by
      rw [hn, popGroup, hp]
      simp
    dsimp only
    rw [hfirst]
    have hversion : ∀ x ∈ rest, key x.record = key c.record →
        version x.record ≤ version c.record := by
      intro x hx hk
      rcases hbefore x hx with h | h
      · exact absurd hk h.ne'
      · exact h.2
    rcases popGroup_of_winner [c] hlen (fun x hx => (hbefore x hx).key_le) hversion with
      ⟨he, x, hx, hxk, hxv⟩ | ⟨others, heap', he, hrest, hothers, hlater⟩
    · -- the tie is between the first cursor and another one
      refine Or.inl ⟨by rw [he], ?_⟩
      intro hd
      have hd' : Distinct key version (pending (c :: rest)) :=
        (pending_perm hperm).pairwise hd (fun h ⟨hk, hv⟩ => h ⟨hk.symm, hv.symm⟩)
      rw [pending_cons] at hd'
      have hcross := (List.pairwise_append.mp hd').2.2 c.record List.mem_cons_self x.record
        (record_mem_pending hx)
      exact hcross ⟨hxk.symm, hxv.symm⟩
    · refine Or.inr ⟨c.record, _, _, others.map Cursor.record, by rw [he], ?_⟩
      have hall : heap.Perm ((c :: others) ++ heap') := hperm.trans (hrest.cons c)
      have hsub : ∀ x ∈ (c :: others) ++ heap', x ∈ heap := fun x hx => hall.mem_iff.mpr hx
      have hkey : ∀ x ∈ c :: others, key x.record = key c.record := by
        intro x hx
        rcases List.mem_cons.mp hx with rfl | hx
        · rfl
        · exact (hothers x hx).1
      constructor
      · refine (pending_perm hall).trans ?_
        rw [pending_append, pending_append]
        refine ((pending_advance (c :: others)).append_right _).trans ?_
        rw [List.append_assoc]
        exact List.Perm.refl _
      · intro r hr
        obtain ⟨x, hx, rfl⟩ := List.mem_map.mp hr
        exact (hothers x hx).1
      · intro r hr
        obtain ⟨x, hx, rfl⟩ := List.mem_map.mp hr
        exact (hothers x hx).2
      · intro r hr
        rw [pending_append] at hr
        rcases List.mem_append.mp hr with hr | hr
        · obtain ⟨x, hx, hrx⟩ := mem_pending.mp hr
          obtain ⟨y, hy, hyx⟩ := List.mem_filterMap.mp hx
          have hy' : y ∈ heap := hsub y (List.mem_append_left _ hy)
          have hyr : r ∈ y.rest := by
            cases hyrest : y.rest with
            | nil => simp [Cursor.next, hyrest, Cursor.ofList] at hyx
            | cons a as =>
              simp only [Cursor.next, hyrest, Cursor.ofList, Option.some.injEq] at hyx
              rw [← hyx] at hrx
              exact hrx
          rw [← hkey y hy]
          exact List.rel_of_pairwise_cons (hs y hy') hyr
        · obtain ⟨x, hx, hrx⟩ := mem_pending.mp hr
          exact (hlater x hx).trans_le (hs.record_le (hsub x (List.mem_append_right _ hx)) hrx)
      · intro x hx
        rcases List.mem_append.mp hx with hx | hx
        · obtain ⟨y, hy, hyx⟩ := List.mem_filterMap.mp hx
          have hy' : y ∈ heap := hsub y (List.mem_append_left _ hy)
          cases hyrest : y.rest with
          | nil => simp [Cursor.next, hyrest, Cursor.ofList] at hyx
          | cons a as =>
            simp only [Cursor.next, hyrest, Cursor.ofList, Option.some.injEq] at hyx
            have htail := (hs y hy').of_cons
            rw [hyrest] at htail
            rw [← hyx]
            exact htail
        · exact hs x (hsub x (List.mem_append_right _ hx))
      · simp

theorem Round.length_lt {heap heap' : List (Cursor R)} {w : R} {n : Nat} {losers : List R}
    (h : Round key version heap w n heap' losers) :
    (pending heap').length < (pending heap).length := by
  have := h.perm.length_eq
  simp only [List.cons_append, List.length_cons, List.length_append] at this
  omega

end Facts

end MiniKV.Lib
