import Mathlib.Data.Nat.Notation
import Mathlib.Data.Nat.Init

/-!
# Resumable enumerations

A coroutine is read here as a relation `R s o s'`: resumed in the state `s` it
suspends in `s'`, having yielded `y` when `o = some y` and having reported its
end when `o = none`.

`Enumerates R s ys` says that from `s` the coroutine yields exactly the members
of `ys`, in order, then reports its end, and from the second report on no longer
changes its state. It is obtained from an invariant that carries the list of the
values still to come (`Enumerates.of_pending`), and read back as a statement
about the `i`-th call for every `i` (`Enumerates.trajectory`).
-/

namespace Enumeration

variable {σ β : Type} {R : σ → Option β → σ → Prop}

/-- **Exact enumeration.** From `s`, the coroutine `R` yields the members of the
list in order and then only reports its end. -/
inductive Enumerates (R : σ → Option β → σ → Prop) : σ → List β → Prop
  /-- The end is reported, and reported again without a change of state. -/
  | exhausted {s s' : σ} (h : R s none s') (h' : R s' none s') : Enumerates R s []
  /-- The first value is yielded and the others follow. -/
  | yield {s s' : σ} {y : β} {ys : List β} (h : R s (some y) s')
      (hys : Enumerates R s' ys) : Enumerates R s (y :: ys)

/-- **The pending-list rule.** An invariant that relates a state to the list of
the values still to come, popping one value at each yield, proves the
enumeration of that list. -/
theorem Enumerates.of_pending (Pending : σ → List β → Prop)
    (hnil : ∀ s, Pending s [] → ∃ s', R s none s' ∧ R s' none s')
    (hcons : ∀ s y ys, Pending s (y :: ys) → ∃ s', R s (some y) s' ∧ Pending s' ys)
    {s : σ} {ys : List β} (h : Pending s ys) : Enumerates R s ys := by
  induction ys generalizing s with
  | nil =>
    obtain ⟨s', h₁, h₂⟩ := hnil s h
    exact .exhausted h₁ h₂
  | cons y ys ih =>
    obtain ⟨s', h₁, h₂⟩ := hcons s y ys h
    exact .yield h₁ (ih h₂)

/-- **Reading an enumeration call by call.** The states between the calls form a
sequence along which the first `ys.length` calls yield `ys` and every later one
reports the end, all but the first of these leaving the state as it is. -/
theorem Enumerates.trajectory {s : σ} {ys : List β} (h : Enumerates R s ys) :
    ∃ gs : ℕ → σ, gs 0 = s ∧
      (∀ i (hi : i < ys.length), R (gs i) (some ys[i]) (gs (i + 1))) ∧
      (∀ i, ys.length ≤ i → R (gs i) none (gs (i + 1))) ∧
      ∀ i, ys.length < i → gs (i + 1) = gs i := by
  induction h with
  | @exhausted s s' h h' =>
    -- the state moves once and then stays
    refine ⟨fun i => if i = 0 then s else s', rfl, fun i hi => absurd hi (by simp), ?_, ?_⟩
    · intro i _
      by_cases hi : i = 0
      · subst hi; exact h
      · simpa only [if_neg hi, Nat.succ_ne_zero, if_false] using h'
    · intro i hi
      have hi' : i ≠ 0 := by simp only [List.length_nil] at hi; omega
      simp [hi']
  | @yield s s' y ys h _ ih =>
    obtain ⟨gs, h0, hyield, hend, hstay⟩ := ih
    -- the sequence of the rest, one call later
    refine ⟨fun i => Nat.casesOn i s gs, rfl, ?_, ?_, ?_⟩
    · intro i hi
      cases i with
      | zero => simpa [h0] using h
      | succ i => exact hyield i (by simpa using hi)
    · intro i hi
      cases i with
      | zero => exact absurd hi (by simp)
      | succ i => exact hend i (by simpa using hi)
    · intro i hi
      cases i with
      | zero => exact absurd hi (by simp)
      | succ i => exact hstay i (by simpa using hi)

end Enumeration
