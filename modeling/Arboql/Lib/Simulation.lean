import Mathlib.Data.List.Basic
import Mathlib.Data.List.Induction

/-!
# Runs, protocols and simulation

A program that is called again and again is a transition system whose labels are
the calls with their results. `Run step s es t` is a run from `s` to `t` with the
labels `es`. What the caller has to keep to is a protocol: a condition on a label
that depends on the labels before it (`Obeys`).

Two systems with the same labels are compared by a relation between their states.
If each label that the protocol allows leads related states to related states, then
every run of the first system that keeps to the protocol is a run of the second
(`Run.simulate`). Here the relation may mention the labels so far.
-/

namespace Simulation

variable {σ τ ε : Type}

/-- **A run** from `s`, label by label. -/
inductive Run (step : σ → ε → σ → Prop) (s : σ) : List ε → σ → Prop
  | nil : Run step s [] s
  | snoc {es : List ε} {e : ε} {t u : σ} (h : Run step s es t) (he : step t e u) :
      Run step s (es ++ [e]) u

/-- Each label is allowed after those before it. -/
def Obeys (allowed : List ε → ε → Prop) (es : List ε) : Prop :=
  ∀ pre e post, es = pre ++ e :: post → allowed pre e

section Protocol

variable {allowed : List ε → ε → Prop} {es : List ε} {e : ε}

/-- One label more. -/
theorem obeys_snoc : Obeys allowed (es ++ [e]) ↔ Obeys allowed es ∧ allowed es e := by
  constructor
  · intro h
    refine ⟨fun pre e' post hes => ?_, h es e [] rfl⟩
    exact h pre e' (post ++ [e]) (by rw [hes, List.append_assoc, List.cons_append])
  · rintro ⟨hes, he⟩ pre e' post heq
    -- the label is the last one, or one of those before
    rcases List.eq_nil_or_concat post with rfl | ⟨post', x, rfl⟩
    · obtain ⟨rfl, hlast⟩ := List.append_inj' heq rfl
      obtain rfl := List.head_eq_of_cons_eq hlast
      exact he
    · have hsplit : es ++ [e] = (pre ++ e' :: post') ++ [x] := by
        rw [heq, List.append_assoc, List.cons_append, List.concat_eq_append]
      exact hes pre e' post' (List.append_inj' hsplit rfl).1

/-- The labels of an initial part are allowed. -/
theorem Obeys.of_append {es' : List ε} (h : Obeys allowed (es ++ es')) : Obeys allowed es :=
  fun pre e post hes => h pre e (post ++ es') (by rw [hes, List.append_assoc, List.cons_append])

/-- A protocol is checked label by label. -/
theorem obeys_iff_take :
    Obeys allowed es ↔ ∀ (i : ℕ) (hi : i < es.length), allowed (es.take i) es[i] := by
  constructor
  · intro h i hi
    refine h _ _ (es.drop (i + 1)) ?_
    rw [List.getElem_cons_drop, List.take_append_drop]
  · rintro h pre e post rfl
    have hallowed := h pre.length (by simp)
    simpa using hallowed

instance [∀ before, DecidablePred (allowed before)] : DecidablePred (Obeys allowed) := fun es =>
  decidable_of_iff (∀ (i : ℕ) (hi : i < es.length), allowed (es.take i) es[i]) obeys_iff_take.symm

end Protocol

variable {step : σ → ε → σ → Prop} {step' : τ → ε → τ → Prop} {allowed : List ε → ε → Prop}
  {s s' : σ} {t : τ} {es es' : List ε}

/-- A run after a run. -/
theorem Run.trans {u : σ} (h : Run step s es s') (h' : Run step s' es' u) :
    Run step s (es ++ es') u := by
  induction h' with
  | nil => rwa [List.append_nil]
  | snoc _ he ih =>
    rw [← List.append_assoc]
    exact ih.snoc he

/-- A run without labels goes nowhere. -/
theorem Run.eq_of_nil (h : Run step s [] s') : s' = s := by
  generalize hes : [] = es at h
  cases h with
  | nil => rfl
  | snoc _ _ => exact absurd hes (by simp)

/-- The last label of a run. -/
theorem Run.unsnoc {e : ε} {u : σ} (h : Run step s (es ++ [e]) u) :
    ∃ r, Run step s es r ∧ step r e u := by
  generalize hall : es ++ [e] = all at h
  cases h with
  | nil => exact absurd hall (by simp)
  | snoc hrun he =>
    obtain ⟨rfl, hlast⟩ := List.append_inj' hall rfl
    obtain rfl := List.head_eq_of_cons_eq hlast
    exact ⟨_, hrun, he⟩

/-- A run of some labels and then some more passes through a state between them. -/
theorem Run.split {u : σ} (h : Run step s (es ++ es') u) :
    ∃ r, Run step s es r ∧ Run step r es' u := by
  induction es' using List.reverseRecOn generalizing u with
  | nil => exact ⟨u, by rwa [List.append_nil] at h, .nil⟩
  | append_singleton es' e ih =>
    rw [← List.append_assoc] at h
    obtain ⟨t, hrun, he⟩ := h.unsnoc
    obtain ⟨r, hfirst, hrest⟩ := ih hrun
    exact ⟨r, hfirst, hrest.snoc he⟩

/-- The first label of a run. -/
theorem Run.uncons {e : ε} {u : σ} (h : Run step s (e :: es) u) :
    ∃ r, step s e r ∧ Run step r es u := by
  rw [← List.singleton_append] at h
  obtain ⟨r, hfirst, hrest⟩ := h.split
  rw [← List.nil_append [e]] at hfirst
  obtain ⟨t, hnil, he⟩ := hfirst.unsnoc
  obtain rfl := hnil.eq_of_nil
  exact ⟨r, he, hrest⟩

/-- **Simulation rule.** A relation that every allowed label preserves turns a run
that keeps to the protocol into a run of the other system. -/
theorem Run.simulate {R : List ε → σ → τ → Prop}
    (hstep : ∀ es e s₁ s₂ t₁, R es s₁ t₁ → allowed es e → step s₁ e s₂ →
      ∃ t₂, step' t₁ e t₂ ∧ R (es ++ [e]) s₂ t₂)
    (h : Run step s es s') (hR : R [] s t) (hes : Obeys allowed es) :
    ∃ t', Run step' t es t' ∧ R es s' t' := by
  induction h with
  | nil => exact ⟨t, .nil, hR⟩
  | snoc _ he ih =>
    obtain ⟨hpre, hallowed⟩ := obeys_snoc.mp hes
    obtain ⟨t₁, hrun, hR₁⟩ := ih hpre
    obtain ⟨t₂, hlast, hR₂⟩ := hstep _ _ _ _ _ hR₁ hallowed he
    exact ⟨t₂, hrun.snoc hlast, hR₂⟩

/-- **Invariant rule.** What holds at the start and survives every step holds at the
end of every run. -/
theorem Run.invariant {P : List ε → σ → Prop}
    (hstep : ∀ es e s₁ s₂, P es s₁ → step s₁ e s₂ → P (es ++ [e]) s₂)
    (h : Run step s es s') (hP : P [] s) : P es s' := by
  induction h with
  | nil => exact hP
  | snoc _ he ih => exact hstep _ _ _ _ ih he

end Simulation
