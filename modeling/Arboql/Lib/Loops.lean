import Mathlib.Data.Nat.Notation
import Mathlib.Logic.Relation

/-!
# Loops of an imperative program

Two loop forms of a C program, read as functions into `Except ε`, where an error
is the abnormal end of the program:

* `forever` is `for (;;) body`. The body says what one iteration does (`Flow`):
  go round again from a new state, or leave the loop with a result. The number
  of iterations is bounded by a fuel argument, and running out of it is the
  error `timeout`, so that a statement about a result is a statement about
  termination as well.
* `forRange` is `for (i = 0; i < k; i++) body`.

`Step body` relates two successive heads of a loop and `Iter body j` relates
heads that are `j` iterations apart. A loop that returns left its body at a head
reached by steps (`forever_ok`), and a body that leaves after `j` iterations
makes the loop return as soon as the fuel exceeds `j` (`Iter.forever`). `Trace`
records a whole run, one mark for each iteration.
-/

namespace Loops

variable {ε σ ρ : Type}

/-- Two steps in sequence return when the first returns and the second does from
there. -/
theorem bind_eq_ok_iff {τ : Type} {x : Except ε σ} {f : σ → Except ε τ} {r : τ} :
    x >>= f = .ok r ↔ ∃ s, x = .ok s ∧ f s = .ok r := by
  cases x with
  | error e =>
    refine iff_of_false (by rintro ⟨⟩) ?_
    rintro ⟨s, ⟨⟩, -⟩
  | ok s =>
    refine ⟨fun h => ⟨s, rfl, h⟩, ?_⟩
    rintro ⟨s', hs, hf⟩
    obtain rfl := Except.ok.inj hs
    exact hf

/-- What one iteration of a loop body does. -/
inductive Flow (σ ρ : Type)
  /-- Go round again from the state `s`. -/
  | again (s : σ)
  /-- Leave the loop with the result `r`. -/
  | leave (r : ρ)
  deriving DecidableEq, Repr

/-- **The endless loop** `for (;;) body`, for at most the given number of
iterations. -/
def forever (timeout : ε) (body : σ → Except ε (Flow σ ρ)) : ℕ → σ → Except ε ρ
  | 0, _ => .error timeout
  | fuel + 1, s =>
    match body s with
    | .error e => .error e
    | .ok (.leave r) => .ok r
    | .ok (.again s') => forever timeout body fuel s'

/-- Two successive heads of the loop over `body`. -/
def Step (body : σ → Except ε (Flow σ ρ)) (s s' : σ) : Prop :=
  body s = .ok (.again s')

/-- Two heads of the loop over `body` that are `j` iterations apart. -/
inductive Iter (body : σ → Except ε (Flow σ ρ)) : ℕ → σ → σ → Prop
  | refl (s : σ) : Iter body 0 s s
  | head {j : ℕ} {s s' t : σ} (h : Step body s s') (ht : Iter body j s' t) :
      Iter body (j + 1) s t

section Forever

variable {timeout : ε} {body : σ → Except ε (Flow σ ρ)}

theorem forever_leave {s : σ} {r : ρ} {fuel : ℕ} (h : body s = .ok (.leave r)) :
    forever timeout body (fuel + 1) s = .ok r := by
  rw [forever, h]

theorem forever_again {s s' : σ} {fuel : ℕ} (h : Step body s s') :
    forever timeout body (fuel + 1) s = forever timeout body fuel s' := by
  rw [forever, show body s = _ from h]

/-- A body that leaves after `j` iterations makes the loop return. -/
theorem Iter.forever {j fuel : ℕ} {s t : σ} {r : ρ} (hi : Iter body j s t)
    (hr : body t = .ok (.leave r)) (hf : j < fuel) :
    Loops.forever timeout body fuel s = .ok r := by
  induction hi generalizing fuel with
  | refl s =>
    obtain ⟨f, rfl⟩ : ∃ f, fuel = f + 1 := ⟨fuel - 1, by omega⟩
    exact forever_leave hr
  | head h _ ih =>
    obtain ⟨f, rfl⟩ : ∃ f, fuel = f + 1 := ⟨fuel - 1, by omega⟩
    rw [forever_again h]
    exact ih hr (by omega)

/-- A loop that returns left its body at a head reached from the start. -/
theorem forever_ok {fuel : ℕ} {s : σ} {r : ρ}
    (h : forever timeout body fuel s = .ok r) :
    ∃ t, Relation.ReflTransGen (Step body) s t ∧ body t = .ok (.leave r) := by
  induction fuel generalizing s with
  | zero => exact absurd h (by simp [forever])
  | succ fuel ih =>
    rw [forever] at h
    split at h
    · exact absurd h (by simp)
    · next r' hb =>
      obtain rfl : r' = r := Except.ok.inj h
      exact ⟨s, .refl, hb⟩
    · next s' hb =>
      -- one more step before the heads of the rest
      obtain ⟨t, hst, ht⟩ := ih h
      exact ⟨t, .head hb hst, ht⟩

/-- **Invariant rule.** What holds at the start and survives every iteration
holds at every head. -/
theorem invariant_of_step {P : σ → Prop} (hstep : ∀ s s', P s → Step body s s' → P s')
    {s t : σ} (hs : P s) (hst : Relation.ReflTransGen (Step body) s t) : P t := by
  induction hst with
  | refl => exact hs
  | tail _ h ih => exact hstep _ _ ih h

/-- A run of the loop that returned returns with more fuel as well. -/
theorem forever_mono {fuel fuel' : ℕ} {s : σ} {r : ρ} (hf : fuel ≤ fuel')
    (h : forever timeout body fuel s = .ok r) : forever timeout body fuel' s = .ok r := by
  induction fuel generalizing fuel' s with
  | zero => exact absurd h (by simp [forever])
  | succ fuel ih =>
    obtain ⟨f, rfl⟩ : ∃ f, fuel' = f + 1 := ⟨fuel' - 1, by omega⟩
    rw [forever] at h ⊢
    split at h
    · exact absurd h (by simp)
    · exact h
    · exact ih (by omega) h

end Forever

/-! ### The record of a run -/

section Trace

variable {κ : Type}

/-- **The record of a run.** The loop over `body`, entered at `s`, leaves with `r`,
and the marks of its iterations are, in order, the members of the list. The mark
of an iteration depends on its head and on what the body does there. -/
inductive Trace (body : σ → Except ε (Flow σ ρ)) (mark : σ → Flow σ ρ → κ) :
    σ → List κ → ρ → Prop
  | leave {s : σ} {r : ρ} (h : body s = .ok (.leave r)) :
      Trace body mark s [mark s (.leave r)] r
  | again {s s' : σ} {xs : List κ} {r : ρ} (h : Step body s s')
      (ht : Trace body mark s' xs r) : Trace body mark s (mark s (.again s') :: xs) r

variable {timeout : ε} {body : σ → Except ε (Flow σ ρ)} {mark : σ → Flow σ ρ → κ}

/-- One more iteration at the start, with the mark `x`. -/
theorem Trace.head {s s' : σ} {x : κ} {xs : List κ} {r : ρ} (hx : mark s (.again s') = x)
    (h : Step body s s') (ht : Trace body mark s' xs r) : Trace body mark s (x :: xs) r :=
  hx ▸ .again h ht

/-- The loop returns with one unit of fuel for each iteration recorded. -/
theorem Trace.forever {s : σ} {xs : List κ} {r : ρ} (h : Trace body mark s xs r) {fuel : ℕ}
    (hf : xs.length ≤ fuel) : Loops.forever timeout body fuel s = .ok r := by
  induction h generalizing fuel with
  | leave h =>
    rw [List.length_singleton] at hf
    obtain ⟨f, rfl⟩ : ∃ f, fuel = f + 1 := ⟨fuel - 1, by omega⟩
    exact forever_leave h
  | again h _ ih =>
    rw [List.length_cons] at hf
    obtain ⟨f, rfl⟩ : ∃ f, fuel = f + 1 := ⟨fuel - 1, by omega⟩
    rw [forever_again h]
    exact ih (by omega)

end Trace

/-! ### Counted loops -/

/-- **The counted loop** `for (i = 0; i < k; i++) f i`. -/
def forRange (k : ℕ) (f : ℕ → σ → Except ε σ) (s : σ) : Except ε σ :=
  (List.range k).foldlM (fun s i => f i s) s

theorem forRange_succ (k : ℕ) (f : ℕ → σ → Except ε σ) (s : σ) :
    forRange (k + 1) f s = forRange k f s >>= f k := by
  unfold forRange
  rw [List.range_succ, List.foldlM_append]
  congr 1
  funext s'
  simp [List.foldlM_cons]

/-- **Invariant rule for a counted loop.** An iteration that succeeds on every
state satisfying `P i` and re-establishes `P (i + 1)` makes the whole loop
succeed with `P k`. -/
theorem forRange_spec {k : ℕ} {f : ℕ → σ → Except ε σ} {s : σ} (P : ℕ → σ → Prop)
    (h0 : P 0 s) (hstep : ∀ i s, i < k → P i s → ∃ s', f i s = .ok s' ∧ P (i + 1) s') :
    ∃ s', forRange k f s = .ok s' ∧ P k s' := by
  induction k with
  | zero => exact ⟨s, rfl, h0⟩
  | succ k ih =>
    obtain ⟨t, ht, hP⟩ := ih fun i s hi => hstep i s (by omega)
    obtain ⟨s', hs', hP'⟩ := hstep k t (by omega) hP
    refine ⟨s', ?_, hP'⟩
    rw [forRange_succ, ht]
    exact hs'

/-- What every iteration keeps holds at the end, if the loop gets there. -/
theorem forRange_invariant {k : ℕ} {f : ℕ → σ → Except ε σ} {s s' : σ} {P : σ → Prop}
    (hstep : ∀ i s s', P s → f i s = .ok s' → P s') (hs : P s) (h : forRange k f s = .ok s') :
    P s' := by
  induction k generalizing s' with
  | zero =>
    obtain rfl := Except.ok.inj h
    exact hs
  | succ k ih =>
    rw [forRange_succ] at h
    obtain ⟨t, ht, hlast⟩ := bind_eq_ok_iff.mp h
    exact hstep k t s' (ih ht) hlast

end Loops
