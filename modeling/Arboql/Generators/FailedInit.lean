import Arboql.Generators.InjectiveMappings
import Arboql.Generators.CartesianProduct

/-!
# Generators whose initialisation failed

Both generators can be told to report an end at once: `inj_init` sets `done` when
there are more positions than values, and `cp_init` when a set is empty. When
they fail they do not. `inj_init` frees what it had allocated and leaves `done`
at `0`, with the pointers to the freed arrays; `cp_init` leaves `done` at `0`
without a counter or, when it rejects its arguments, leaves the struct as it was.

A later sequence of calls is inert (`Generator.Inert`) when every `next` returns
`0` and accesses no array, and every `destroy` frees nothing. To say that a call
accesses no array, it is repeated on a blind copy of the struct, whose pointers
have the same addresses and reach nothing, so that any access is a fault. Which
sequences are inert after a failure is `failedInit_inert_iff`.
-/

namespace Arboql

open Loops

/-! ### Calls on a generator -/

/-- A call on a generator. -/
inductive GenCall
  | next (out : Ptr ℤ)
  | destroy

/-- The calls of a generator with the struct `σ`. -/
structure Generator (σ : Type) where
  /-- The struct with pointers that reach nothing. -/
  blind : σ → σ
  next : ℕ → σ → Ptr ℤ → Except Fault (ℤ × σ × Ptr ℤ)
  /-- The addresses freed, and the struct after the call. -/
  destroy : σ → List ℕ × σ

namespace Generator

variable {σ : Type} (M : Generator σ)

/-- **An inert sequence of calls.** Every `next` returns `0`, on the struct and on
its blind copy alike, and every `destroy` frees nothing. -/
def Inert : σ → List GenCall → Prop
  | _, [] => True
  | s, .next out :: calls =>
    ∃ fuel s', M.next fuel s out = .ok (0, s', out) ∧
      M.next fuel (M.blind s) out.free = .ok (0, M.blind s', out.free) ∧ Inert s' calls
  | s, .destroy :: calls => (M.destroy s).1 = [] ∧ Inert (M.destroy s).2 calls

/-- **States in which a `next` is quiet** exactly on the arguments in `okNext`, and then
leaves the struct as it is. A second `destroy` never frees. -/
structure QuietOn (P : σ → Prop) (okNext : Ptr ℤ → Prop) : Prop where
  quiet : ∀ s out fuel, P s → okNext out → M.next fuel s out = .ok (0, s, out) ∧
    M.next fuel (M.blind s) out.free = .ok (0, M.blind s, out.free)
  loud : ∀ s s' out fuel, P s → ¬ okNext out →
    M.next fuel (M.blind s) out.free ≠ .ok (0, M.blind s', out.free)
  destroy : ∀ s, P s → P (M.destroy s).2
  again : ∀ s, P s → (M.destroy (M.destroy s).2).1 = []

variable {M}

/-- **Inert sequences, call by call.** -/
theorem QuietOn.inert_iff {P : σ → Prop} {okNext : Ptr ℤ → Prop} (hM : M.QuietOn P okNext)
    {s : σ} (hs : P s) (calls : List GenCall) :
    M.Inert s calls ↔ (∀ out, .next out ∈ calls → okNext out) ∧
      (.destroy ∈ calls → (M.destroy s).1 = []) := by
  -- on the calls: as long as they are inert, only a `destroy` changes the struct
  induction calls generalizing s with
  | nil => simp [Inert]
  | cons call calls ih =>
    cases call with
    | next out =>
      rw [Inert]
      constructor
      · rintro ⟨fuel, s', hcall, hblind, hrest⟩
        have hok : okNext out := by
          by_contra hnot
          exact hM.loud s s' out fuel hs hnot hblind
        -- the call left the struct as it was
        rw [(hM.quiet s out fuel hs hok).1] at hcall
        cases hcall
        obtain ⟨hnext, hfree⟩ := (ih hs).mp hrest
        exact ⟨by simpa using ⟨hok, hnext⟩, by simpa using hfree⟩
      · rintro ⟨hnext, hfree⟩
        obtain ⟨hcall, hblind⟩ := hM.quiet s out 0 hs (hnext out List.mem_cons_self)
        refine ⟨0, s, hcall, hblind, (ih hs).mpr ⟨fun out' hmem => ?_, fun hmem => ?_⟩⟩
        · exact hnext out' (List.mem_cons_of_mem _ hmem)
        · exact hfree (List.mem_cons_of_mem _ hmem)
    | destroy =>
      rw [Inert, ih (hM.destroy s hs)]
      constructor
      · rintro ⟨hfree, hnext, -⟩
        exact ⟨by simpa using hnext, fun _ => hfree⟩
      · rintro ⟨hnext, hfree⟩
        exact ⟨hfree List.mem_cons_self, by simpa using hnext, fun _ => hM.again s hs⟩

end Generator

/-! ### The two generators -/

/-- The struct is there and has the property `P`. -/
def Pointee {σ : Type} (P : σ → Prop) (s : Option σ) : Prop := ∃ g, s = some g ∧ P g

/-- The struct with pointers that reach nothing. -/
def InjCoroutine.blind (g : InjCoroutine) : InjCoroutine :=
  { g with a := g.a.free, nextc := g.nextc.free, used := g.used.free }

/-- The struct with pointers that reach nothing. -/
def CpCoroutine.blind (cp : CpCoroutine) : CpCoroutine :=
  { cp with sets := cp.sets.free, sizes := cp.sizes.free, idx := cp.idx.free }

/-- The calls of the injection generator. -/
def injGenerator : Generator (Option InjCoroutine) where
  blind := Option.map InjCoroutine.blind
  next := injNext
  destroy := injDestroy

/-- The calls of the product generator, with the pointer that its `destroy` gets. -/
def cpGenerator (idxStorage : Ptr ℕ) : Generator (Option CpCoroutine) where
  blind := Option.map CpCoroutine.blind
  next := fun _ => cpNext
  destroy := fun cp => cpDestroy cp idxStorage

/-! ### The injection generator after a failure -/

/-- Once the arrays are in place `inj_init` does not fail. -/
theorem injClear_result {g : InjCoroutine} {r : ℤ} {g' : Option InjCoroutine}
    (h : injClear g = .ok (r, g')) : r = 1 := by
  unfold injClear at h
  obtain ⟨used, -, h⟩ := bind_eq_ok_iff.mp h
  obtain ⟨s, -, h⟩ := bind_eq_ok_iff.mp h
  cases h
  rfl

/-- The struct that a failed `inj_init` leaves: suspended at the root of a search
for at least one position, and owning nothing. -/
structure InjFailed (g : InjCoroutine) : Prop where
  k_ne : g.k ≠ 0
  pos_eq : g.pos = 0
  not_done : g.done = 0
  owns_nothing : g.ownsMem = 0

theorem injInit_failed {g g' : InjCoroutine} {n k : ℕ} {a nextc used : Ptr ℕ} {heap : InjHeap}
    (h : injInit (some g) n k a nextc used heap = .ok (0, some g')) : InjFailed g' := by
  simp only [injInit] at h
  split_ifs at h with hk hkn hcaller hnull
  · -- no position is a success
    cases h
  · -- more positions than values is a success too
    cases h
  · exact absurd (injClear_result h) (by decide)
  · -- an allocation failed
    cases h
    exact ⟨hk, rfl, rfl, rfl⟩
  · exact absurd (injClear_result h) (by decide)

/-- A call with an array goes for the candidates of the first position. -/
theorem InjFailed.next_faults {g : InjCoroutine} (h : InjFailed g) {out : Ptr ℤ}
    (hout : out.addr ≠ 0) (fuel : ℕ) (r : ℤ × Option InjCoroutine × Ptr ℤ) :
    injNext fuel (some g.blind) out.free ≠ .ok r := by
  have hloop : injNext fuel (some g.blind) out.free
      = forever .outOfFuel (injBody out.free) fuel g.blind := by
    simp [injNext, InjCoroutine.blind, Ptr.free, h.k_ne, h.not_done, hout]
  have hbody : injBody out.free g.blind = .error .outOfBounds := by
    have hne : ¬ g.blind.pos = g.blind.k := fun heq => h.k_ne (heq.symm.trans h.pos_eq)
    rw [injBody, if_neg hne]
    rfl
  rw [hloop]
  intro hcall
  cases fuel with
  | zero => cases hcall
  | succ fuel =>
    rw [forever, hbody] at hcall
    cases hcall

/-- `inj_destroy` frees nothing then, and the struct stays as it was left. -/
theorem InjFailed.destroy {g : InjCoroutine} (h : InjFailed g) :
    (injDestroy (some g)).1 = [] ∧ Pointee InjFailed (injDestroy (some g)).2 :=
  ⟨if_neg (by rw [h.owns_nothing]; decide),
    _, rfl, h.k_ne, h.pos_eq, h.not_done, h.owns_nothing⟩

/-- A call is quiet if it passes no array. -/
theorem injFailed_quietOn :
    injGenerator.QuietOn (Pointee InjFailed) fun out => out.addr = 0 where
  quiet := by
    rintro s out fuel ⟨g, rfl, hg⟩ hout
    constructor
    · simp [injGenerator, injNext, hg.k_ne, hout]
    · simp [injGenerator, injNext, InjCoroutine.blind, Ptr.free, hg.k_ne, hout]
  loud := by
    rintro s s' out fuel ⟨g, rfl, hg⟩ hout
    exact hg.next_faults hout fuel _
  destroy := by
    rintro s ⟨g, rfl, hg⟩
    exact hg.destroy.2
  again := by
    rintro s ⟨g, rfl, hg⟩
    obtain ⟨g', hs, hg'⟩ := hg.destroy.2
    exact (congrArg (fun s => (injDestroy s).1) hs).trans hg'.destroy.1

/-- After a failed `inj_init`, the inert sequences are those that pass no array. -/
theorem InjFailed.inert_iff {g : InjCoroutine} (h : InjFailed g) (calls : List GenCall) :
    injGenerator.Inert (some g) calls ↔ ∀ out, .next out ∈ calls → out.addr = 0 := by
  rw [injFailed_quietOn.inert_iff ⟨g, rfl, h⟩]
  exact and_iff_left fun _ => h.destroy.1

/-! ### The product generator after a failure -/

/-- Once the counter is in place `cp_init` does not fail. -/
theorem cpClear_result {cp : CpCoroutine} {r : ℤ} {cp' : Option CpCoroutine}
    (h : cpClear cp = .ok (r, cp')) : r = 1 := by
  unfold cpClear at h
  obtain ⟨idx, -, h⟩ := bind_eq_ok_iff.mp h
  cases h
  rfl

/-- A failed `cp_init` leaves the struct alone when it rejects its arguments, and
otherwise it leaves a struct that is not done and has no counter. -/
theorem cpInit_failed {cp cp' : CpCoroutine} {sets : Ptr (Ptr ℤ)} {sizes : Ptr ℕ} {numSets : ℕ}
    {idxStorage : Ptr ℕ} {heap : Allocation ℕ}
    (h : cpInit (some cp) sets sizes numSets idxStorage heap = .ok (0, some cp')) :
    ((sets.addr = 0 ∨ sizes.addr = 0 ∨ numSets = 0) ∧ cp' = cp) ∨
      (¬ (sets.addr = 0 ∨ sizes.addr = 0 ∨ numSets = 0) ∧ cp'.done = 0 ∧ cp'.idx.addr = 0) := by
  simp only [cpInit] at h
  by_cases hargs : sets.addr = 0 ∨ sizes.addr = 0 ∨ numSets = 0
  · rw [if_pos hargs] at h
    cases h
    exact Or.inl ⟨hargs, rfl⟩
  · rw [if_neg hargs] at h
    obtain ⟨empty, -, h⟩ := bind_eq_ok_iff.mp h
    refine Or.inr ⟨hargs, ?_⟩
    split_ifs at h with hempty hcaller hnull
    · -- an empty set is a success
      cases h
    · exact absurd (cpClear_result h) (by decide)
    · -- the allocation failed
      cases h
      exact ⟨rfl, hnull⟩
    · exact absurd (cpClear_result h) (by decide)

/-- Advancing the counter begins with an access to `idx`. -/
theorem cpCarry_faults {sizes idx : Ptr ℕ} {numSets : ℕ} (h : numSets ≠ 0)
    (hidx : idx.cells = []) : cpCarry sizes numSets idx = .error .outOfBounds := by
  obtain ⟨m, rfl⟩ := Nat.exists_eq_succ_of_ne_zero h
  have hread : idx.read m = .error .outOfBounds := by
    unfold Ptr.read
    rw [hidx]
    rfl
  rw [cpCarry, hread]
  rfl

/-- With an array, and not done, a call does not return `0` without an access: the
only way to return `0` is to advance the counter past its last value. -/
theorem cpNext_blind {cp : CpCoroutine} (hdone : cp.done = 0) {out : Ptr ℤ}
    (hout : out.addr ≠ 0) (s : Option CpCoroutine) :
    cpNext (some cp.blind) out.free ≠ .ok (0, s, out.free) := by
  intro h
  have hout' : ¬ out.free.addr = 0 := hout
  have hdone' : ¬ cp.blind.done ≠ 0 := fun hne => hne hdone
  rw [cpNext, if_neg hout', if_neg hdone'] at h
  by_cases hstarted : cp.blind.started = 0
  · -- the first tuple comes with the result `1`
    rw [if_pos hstarted] at h
    obtain ⟨out', -, hres⟩ := bind_eq_ok_iff.mp h
    cases hres
  · rw [if_neg hstarted] at h
    obtain ⟨carry, hcarry, hrest⟩ := bind_eq_ok_iff.mp h
    by_cases hsets : cp.numSets = 0
    · -- without sets there is no counter, and every tuple is the empty one
      rw [show cp.blind.numSets = 0 from hsets, cpCarry] at hcarry
      cases hcarry
      obtain ⟨out', -, hres⟩ := bind_eq_ok_iff.mp hrest
      cases hres
    · have hfault : cpCarry cp.blind.sizes cp.numSets cp.blind.idx = .error .outOfBounds :=
        cpCarry_faults hsets rfl
      cases hfault.symm.trans hcarry

/-- Whether the struct is done, by its value of `done`. -/
def CpCoroutine.HasDone (done : ℤ) (cp : CpCoroutine) : Prop := cp.done = done

/-- A call is quiet if it passes no array or the struct is done. -/
theorem cp_quietOn (done : ℤ) (idxStorage : Ptr ℕ) :
    (cpGenerator idxStorage).QuietOn (Pointee (CpCoroutine.HasDone done))
      fun out => out.addr = 0 ∨ done ≠ 0 where
  quiet := by
    rintro s out fuel ⟨cp, rfl, rfl⟩ (hout | hdone)
    · constructor
      · exact if_pos hout
      · exact if_pos hout
    · constructor
      · simp [cpGenerator, cpNext, hdone]
      · simp [cpGenerator, cpNext, CpCoroutine.blind, hdone]
  loud := by
    rintro s s' out fuel ⟨cp, rfl, rfl⟩ hnot
    push Not at hnot
    exact cpNext_blind hnot.2 hnot.1 _
  destroy := by
    rintro s ⟨cp, rfl, hdone⟩
    exact ⟨_, rfl, hdone⟩
  again := by
    rintro s ⟨cp, rfl, -⟩
    simp [cpGenerator, cpDestroy, Ptr.null]

/-- The inert sequences of a product generator in any state: no array is passed
unless it is done, and a `destroy` does not find a counter of its own. -/
theorem cp_inert_iff (cp : CpCoroutine) (idxStorage : Ptr ℕ) (calls : List GenCall) :
    (cpGenerator idxStorage).Inert (some cp) calls ↔
      (∀ out, .next out ∈ calls → out.addr = 0 ∨ cp.done ≠ 0) ∧
        (.destroy ∈ calls → cp.idx.addr = 0 ∨ cp.idx.addr = idxStorage.addr) := by
  rw [(cp_quietOn cp.done idxStorage).inert_iff ⟨cp, rfl, rfl⟩]
  refine and_congr_right fun _ => imp_congr_right fun _ => ?_
  change (if _ then [cp.idx.addr] else []) = [] ↔ _
  split_ifs with h
  · simp [h.1, h.2]
  · simp only [true_iff]
    by_contra hnot
    push Not at hnot
    exact h hnot

/-! ### Both -/

/-- **Generators after a failed initialisation.** After `inj_init` has returned `0`,
the later sequences of calls that are inert are those in which no `inj_next` gets
an array. After `cp_init` has returned `0` for want of memory, they are those in
which no `cp_next` gets an array. After `cp_init` has rejected its arguments, they
are those in which a `cp_next` gets an array only if the struct was done before,
and there is a `cp_destroy` only if the struct had no counter before, or the
pointer passed for it. -/
theorem failedInit_inert_iff (calls : List GenCall) :
    (∀ g n k a nextc used heap g',
      injInit (some g) n k a nextc used heap = .ok (0, some g') →
      (injGenerator.Inert (some g') calls ↔ ∀ out, .next out ∈ calls → out.addr = 0)) ∧
    (∀ cp sets sizes numSets idxStorage heap cp',
      cpInit (some cp) sets sizes numSets idxStorage heap = .ok (0, some cp') →
      ((cpGenerator idxStorage).Inert (some cp') calls ↔
        if sets.addr = 0 ∨ sizes.addr = 0 ∨ numSets = 0 then
          (∀ out, .next out ∈ calls → out.addr = 0 ∨ cp.done ≠ 0) ∧
            (.destroy ∈ calls → cp.idx.addr = 0 ∨ cp.idx.addr = idxStorage.addr)
        else ∀ out, .next out ∈ calls → out.addr = 0)) := by
  constructor
  · intro g n k a nextc used heap g' h
    exact (injInit_failed h).inert_iff calls
  · intro cp sets sizes numSets idxStorage heap cp' h
    rw [cp_inert_iff]
    rcases cpInit_failed h with ⟨hargs, rfl⟩ | ⟨hargs, hdone, hidx⟩
    · rw [if_pos hargs]
    · rw [if_neg hargs]
      simp [hdone, hidx]

/-- The characterisation at work on each of the three failures: an `inj_init` and a
`cp_init` without memory, and a `cp_init` that gets no sets, on a struct that is
done and has no counter. -/
theorem failedInit_inert_iff_examples :
    let out : Ptr ℤ := ⟨5, [0, 0]⟩
    let cp : CpCoroutine := ⟨.null, .null, 9, .null, 9, 1⟩
    injGenerator.Inert (some ⟨3, 2, .null, .null, .null, 0, 0, 0, 0⟩) [.next .null, .destroy] ∧
      (cpGenerator .null).Inert (some ⟨⟨1, [⟨2, [7]⟩]⟩, ⟨3, [1]⟩, 1, .null, 0, 0⟩)
        [.destroy, .next .null] ∧
      (cpGenerator .null).Inert (some cp) [.next out, .destroy, .next out] := by
  intro out cp
  have hinj : injInit (some ⟨9, 9, .null, .null, .null, 9, 9, 9, 9⟩) 3 2 .null .null .null
      ⟨.failed, .failed, .failed⟩ = .ok (0, some ⟨3, 2, .null, .null, .null, 0, 0, 0, 0⟩) := rfl
  have hcp : cpInit (some cp) ⟨1, [⟨2, [7]⟩]⟩ ⟨3, [1]⟩ 1 .null .failed
      = .ok (0, some ⟨⟨1, [⟨2, [7]⟩]⟩, ⟨3, [1]⟩, 1, .null, 0, 0⟩) := rfl
  have hargs : cpInit (some cp) .null ⟨3, [1]⟩ 1 .null .failed = .ok (0, some cp) := rfl
  refine ⟨((failedInit_inert_iff _).1 _ _ _ _ _ _ _ _ hinj).mpr ?_,
    ((failedInit_inert_iff _).2 _ _ _ _ _ _ _ hcp).mpr ?_,
    ((failedInit_inert_iff _).2 _ _ _ _ _ _ _ hargs).mpr ?_⟩
  · simp [Ptr.null]
  · simp [Ptr.null]
  · simp [Ptr.null, cp]

/-- **A failed generator that is not inert.** The three allocations of `inj_init`
fail, and the next call, given an array, reads the candidates of the first
position through a null pointer. -/
theorem injInit_failure_not_inert :
    let g : InjCoroutine := ⟨9, 9, .null, .null, .null, 9, 9, 9, 9⟩
    let g' : InjCoroutine := ⟨3, 2, .null, .null, .null, 0, 0, 0, 0⟩
    let out : Ptr ℤ := ⟨5, [0, 0]⟩
    injInit (some g) 3 2 .null .null .null ⟨.failed, .failed, .failed⟩ = .ok (0, some g') ∧
      injNext 4 (some g') out = .error .outOfBounds ∧
      ¬ injGenerator.Inert (some g') [.next out] := by
  intro g g' out
  have hinit : injInit (some g) 3 2 .null .null .null ⟨.failed, .failed, .failed⟩
      = .ok (0, some g') := rfl
  refine ⟨hinit, rfl, fun h => ?_⟩
  have hnull := ((injInit_failed hinit).inert_iff _).mp h out List.mem_cons_self
  exact absurd hnull (by decide)

end Arboql
