import Arboql.Generators.CartesianProduct
import Arboql.Lib.Enumeration
import Arboql.Lib.LexTuples
import Mathlib.Algebra.BigOperators.Ring.List
import Mathlib.Algebra.Order.BigOperators.GroupWithZero.List
import Mathlib.Algebra.Order.Ring.Nat
import Mathlib.Data.List.Induction
import Mathlib.Data.List.Nodup

/-!
# The cartesian product generator enumerates the product

The counter `idx` of the generator holds the digits of the number of the current
tuple, for the sizes of the sets as radices. The carry loop of `cp_next` computes
the successor of a digit list (`cpCarry_spec`), so one call moves from the digits
of `m` to those of `m + 1`, or reports the end when these would start over
(`cpNext_enumerates`).
-/

namespace Arboql

open Loops LexTuples Enumeration

/-- The tuple the generator writes for the counter `ds`. -/
def cpTuple (sets : List (Ptr ℤ)) (ds : List ℕ) : List ℤ :=
  List.zipWith (fun s d => s.cells.getD d 0) sets ds

/-- The materialising loop writes the tuple of the counter, when every index is
within its set. -/
theorem cpMaterialize_spec {cp : CpCoroutine} {out : Ptr ℤ}
    (hsets : cp.sets.cells.length = cp.numSets) (hout : out.cells.length = cp.numSets)
    (hlt : List.Forall₂ (fun d (s : Ptr ℤ) => d < s.cells.length) cp.idx.cells cp.sets.cells) :
    cpMaterialize cp out = .ok ⟨out.addr, cpTuple cp.sets.cells cp.idx.cells⟩ := by
  have hidx : cp.idx.cells.length = cp.numSets := hlt.length_eq.trans hsets
  -- each iteration reads the `i`-th set at the `i`-th digit, within its bounds
  have hlen : (cpTuple cp.sets.cells cp.idx.cells).length = cp.numSets := by
    rw [cpTuple, List.length_zipWith, hsets, hidx, Nat.min_self]
  rw [cpMaterialize, ← hlen]
  refine Ptr.fill_spec (fun i s hi => ?_) (hout.trans hlen.symm)
  have hin := hlt.get (i := i) (by omega) (by omega)
  simp only [List.get_eq_getElem] at hin
  have hset := List.getElem?_eq_getElem (show i < cp.sets.cells.length by omega)
  have hd := List.getElem?_eq_getElem (show i < cp.idx.cells.length by omega)
  have hv := List.getElem?_eq_getElem hin
  simp only [bind, Except.bind, Ptr.read_eq_ok.mpr hset, Ptr.read_eq_ok.mpr hd,
    Ptr.read_eq_ok.mpr hv]
  congr 1
  simp [cpTuple, hin]

/-- **The carry loop** computes the successor of the first `k` digits, or reports
the overflow and leaves them at `0`. -/
theorem cpCarry_spec {sizes : Ptr ℕ} {bs bs' ds zs : List ℕ} {addr : ℕ}
    (hsizes : sizes.cells = bs ++ bs') (hlen : ds.length = bs.length) (hpos : bs ≠ []) :
    cpCarry sizes bs.length ⟨addr, ds ++ zs⟩ = .ok
      (match bump bs ds with
      | some ds' => (false, ⟨addr, ds' ++ zs⟩)
      | none => (true, ⟨addr, List.replicate bs.length 0 ++ zs⟩)) := by
  -- on the radices from the right: the loop starts at the last digit
  induction bs using List.reverseRecOn generalizing ds bs' zs with
  | nil => exact absurd rfl hpos
  | append_singleton bs b ih =>
    obtain ⟨ds, d, rfl⟩ : ∃ es e, ds = es ++ [e] := by
      rcases List.eq_nil_or_concat ds with rfl | ⟨es, e, rfl⟩
      · simp at hlen
      · exact ⟨es, e, by simp⟩
    have hlen' : ds.length = bs.length := by simpa using hlen
    have hread : ∀ (x : ℕ) zs, (⟨addr, ds ++ x :: zs⟩ : Ptr ℕ).read bs.length = .ok x := by
      intro x zs
      rw [Ptr.read_eq_ok, List.getElem?_append_right (by omega), hlen', Nat.sub_self]
      rfl
    have hwrite : ∀ (x y : ℕ) zs,
        (⟨addr, ds ++ x :: zs⟩ : Ptr ℕ).write bs.length y = .ok ⟨addr, ds ++ y :: zs⟩ := by
      intro x y zs
      rw [Ptr.write_of_lt _ (by rw [List.length_append, List.length_cons]; omega),
        List.set_append_right _ _ (by omega), hlen', Nat.sub_self, List.set_cons_zero]
    have hsize : sizes.read bs.length = .ok b := by
      rw [Ptr.read_eq_ok, hsizes, List.append_assoc, List.getElem?_append_right le_rfl,
        Nat.sub_self]
      rfl
    rw [bump_concat hlen', List.length_append, List.length_singleton, cpCarry]
    simp only [List.append_assoc, List.singleton_append, bind, Except.bind, hread, hwrite, hsize]
    by_cases hd : d + 1 < b
    · -- the last digit has room
      simp only [if_pos hd, pure, Except.pure, List.append_assoc, List.singleton_append]
    · simp only [if_neg hd]
      by_cases hbs : bs = []
      · -- the most significant digit overflows
        subst hbs
        obtain rfl : ds = [] := List.eq_nil_of_length_eq_zero (by simpa using hlen')
        simp [bump, pure, Except.pure]
      · -- the carry goes on to the digits before it
        have hk : bs.length ≠ 0 := fun h => hbs (List.eq_nil_of_length_eq_zero h)
        rw [if_neg hk, ih (by rw [hsizes, List.append_assoc]) hlen' hbs]
        cases bump bs ds with
        | some ds' => simp
        | none => simp [List.replicate_succ']

/-! ### Initialisation -/

/-- The scan of `cp_init` tells whether some set is empty. -/
theorem cpAnyEmpty_spec (sizes : Ptr ℕ) :
    cpAnyEmpty sizes sizes.cells.length = .ok (decide (0 ∈ sizes.cells)) := by
  have hscan : ∀ is : List ℕ, (∀ i ∈ is, i < sizes.cells.length) →
      is.anyM (fun i => do return (← sizes.read i) == 0)
        = (.ok (decide (∃ i ∈ is, sizes.cells[i]? = some 0)) : Except Fault Bool) := by
    intro is
    induction is with
    | nil => intro _; simp [pure, Except.pure]
    | cons i is ih =>
      intro hi
      have hread := List.getElem?_eq_getElem (hi i (by simp))
      rw [List.anyM_cons, Ptr.read_eq_ok.mpr hread, ih fun j hj => hi j (by simp [hj])]
      have hlt := hi i (by simp)
      by_cases h0 : sizes.cells[i] = 0
      · simp [bind, Except.bind, pure, Except.pure, h0, hread]
      · simp [bind, Except.bind, pure, Except.pure, h0, hread]
  rw [cpAnyEmpty, hscan _ fun i hi => List.mem_range.mp hi]
  congr 2
  rw [eq_iff_iff, List.mem_iff_getElem?]
  constructor
  · rintro ⟨i, -, hi⟩
    exact ⟨i, hi⟩
  · rintro ⟨i, hi⟩
    exact ⟨i, List.mem_range.mpr (List.getElem?_eq_some_iff.mp hi).1, hi⟩

/-- The sets given to `cp_init`: `numSets` arrays, with `sizes` their lengths. -/
structure CpFamily (sets : Ptr (Ptr ℤ)) (sizes : Ptr ℕ) (numSets : ℕ) : Prop where
  sets_len : sets.cells.length = numSets
  sizes_eq : sizes.cells = sets.cells.map fun s => s.cells.length

/-- A generator prepared for the family that is not done. -/
structure CpState (sets : Ptr (Ptr ℤ)) (sizes : Ptr ℕ) (numSets : ℕ) (cp : CpCoroutine) :
    Prop where
  sets_eq : cp.sets = sets
  sizes_eq : cp.sizes = sizes
  numSets_eq : cp.numSets = numSets
  not_done : cp.done = 0

variable {sets : Ptr (Ptr ℤ)} {sizes : Ptr ℕ} {numSets : ℕ}

/-- On a counter of the right length `cpClear` prepares the first yield. -/
theorem cpClear_spec {s cp₀ : CpCoroutine} (hs : CpState sets sizes numSets s)
    (hstart : s.started = 0) (hidx : s.idx.cells.length = numSets)
    (h : cpClear s = .ok (1, some cp₀)) :
    CpState sets sizes numSets cp₀ ∧ cp₀.started = 0 ∧
      cp₀.idx.cells = List.replicate numSets 0 := by
  rw [cpClear, Ptr.memset_of_le 0 (by rw [hidx, hs.numSets_eq]),
    List.drop_eq_nil_of_le (by rw [hidx, hs.numSets_eq]), List.append_nil] at h
  simp only [bind, Except.bind, pure, Except.pure] at h
  obtain rfl := Option.some.inj (Prod.mk.inj (Except.ok.inj h)).2
  exact ⟨⟨hs.sets_eq, hs.sizes_eq, hs.numSets_eq, hs.not_done⟩, hstart,
    by simp only [hs.numSets_eq]⟩

/-- **The first state.** After a successful `cp_init` the generator is done if the
product is empty, and otherwise stands before its first yield. -/
theorem cpInit_spec {cp cp₀ : CpCoroutine} {idxStorage : Ptr ℕ} {heap : Allocation ℕ}
    (hF : CpFamily sets sizes numSets)
    (hidx : idxStorage.addr ≠ 0 → idxStorage.cells.length = numSets)
    (hinit : cpInit (some cp) sets sizes numSets idxStorage heap = .ok (1, some cp₀)) :
    numSets ≠ 0 ∧ ((0 ∈ sizes.cells ∧ cp₀.done ≠ 0) ∨
      (0 ∉ sizes.cells ∧ CpState sets sizes numSets cp₀ ∧ cp₀.started = 0 ∧
        cp₀.idx.cells = List.replicate numSets 0)) := by
  have hlen : sizes.cells.length = numSets := by rw [hF.sizes_eq, List.length_map, hF.sets_len]
  simp only [cpInit] at hinit
  split at hinit
  · simp at hinit
  · next hargs =>
    push Not at hargs
    refine ⟨hargs.2.2, ?_⟩
    rw [← hlen, cpAnyEmpty_spec] at hinit
    simp only [bind, Except.bind, pure, Except.pure] at hinit
    by_cases h0 : 0 ∈ sizes.cells
    · -- an empty set
      simp only [h0, decide_true, if_true] at hinit
      obtain rfl := Option.some.inj (Prod.mk.inj (Except.ok.inj hinit)).2
      exact Or.inl ⟨h0, by simp⟩
    · simp only [h0, decide_false, Bool.false_eq_true, if_false] at hinit
      refine Or.inr ⟨h0, ?_⟩
      by_cases hnull : idxStorage.addr ≠ 0
      · rw [if_pos hnull] at hinit
        exact cpClear_spec ⟨rfl, rfl, hlen, rfl⟩ rfl (hidx hnull) hinit
      · rw [if_neg hnull] at hinit
        split at hinit
        · simp at hinit
        · next hok =>
          exact cpClear_spec ⟨rfl, rfl, hlen, rfl⟩ rfl (by rw [calloc_spec hok, hlen]) hinit

/-! ### The enumeration -/

/-- Resuming the generator by a call of `cp_next` with an array for `out_values`:
the yield of tuple number `m` leaves the digits of `m` in the counter, the end
leaves the array alone. -/
def CpResume (sets : Ptr (Ptr ℤ)) (sizes : Ptr ℕ) (cp : CpCoroutine) (o : Option ℕ)
    (cp' : CpCoroutine) : Prop :=
  ∀ out : Ptr ℤ, out.addr ≠ 0 → out.cells.length = sets.cells.length →
    match o with
    | some m => cpNext (some cp) out
          = .ok (1, some cp', ⟨out.addr, cpTuple sets.cells (digits sizes.cells m)⟩) ∧
        cp'.idx.cells = digits sizes.cells m
    | none => cpNext (some cp) out = .ok (0, some cp', out)

theorem cpResume_done {cp : CpCoroutine} (hdone : cp.done ≠ 0) :
    CpResume sets sizes cp none cp := by
  intro out hnull _
  simp [cpNext, hdone]

/-- The tuples still to come, by their numbers. -/
def CpPending (sets : Ptr (Ptr ℤ)) (sizes : Ptr ℕ) (numSets : ℕ) (cp : CpCoroutine)
    (ms : List ℕ) : Prop :=
  CpState sets sizes numSets cp ∧
    ((cp.started = 0 ∧ cp.idx.cells = List.replicate numSets 0 ∧
        ms = List.range sizes.cells.prod) ∨
      ∃ m, cp.started ≠ 0 ∧ cp.idx.cells = digits sizes.cells m ∧ m < sizes.cells.prod ∧
        ms = List.range' (m + 1) (sizes.cells.prod - (m + 1)))

/-- **The yield** of tuple number `m`, once the counter holds its digits. -/
theorem cpMaterialize_digits {cp : CpCoroutine} {out : Ptr ℤ}
    (hF : CpFamily sets sizes numSets) (hS : CpState sets sizes numSets cp) {m : ℕ}
    (hpos : ∀ b ∈ sizes.cells, 0 < b) (hidx : cp.idx.cells = digits sizes.cells m)
    (hout : out.cells.length = sets.cells.length) :
    cpMaterialize cp out = .ok ⟨out.addr, cpTuple sets.cells (digits sizes.cells m)⟩ := by
  rw [cpMaterialize_spec (by rw [hS.sets_eq, hS.numSets_eq, hF.sets_len])
    (by rw [hout, hS.numSets_eq, hF.sets_len]), hS.sets_eq, hidx]
  rw [hS.sets_eq, hidx]
  have hlt := forall₂_digits_lt hpos m
  conv at hlt => arg 3; rw [hF.sizes_eq]
  rwa [List.forall₂_map_right_iff] at hlt

/-- A call after the first yield advances the counter. -/
theorem cpNext_advance {cp : CpCoroutine} {out : Ptr ℤ} (hF : CpFamily sets sizes numSets)
    (hS : CpState sets sizes numSets cp) (hne : sizes.cells ≠ [])
    (hpos : ∀ b ∈ sizes.cells, 0 < b) (hstart : cp.started ≠ 0) {m : ℕ}
    (hidx : cp.idx.cells = digits sizes.cells m) (hnull : out.addr ≠ 0) :
    cpNext (some cp) out =
      if sizes.cells.prod ∣ m + 1 then
        .ok (0, some { cp with
          idx := ⟨cp.idx.addr, List.replicate numSets 0⟩, done := 1 }, out)
      else do
        let cp := { cp with idx := ⟨cp.idx.addr, digits sizes.cells (m + 1)⟩ }
        let out ← cpMaterialize cp out
        return (1, some cp, out) := by
  have hlen : sizes.cells.length = numSets := by rw [hF.sizes_eq, List.length_map, hF.sets_len]
  have hcarry : cpCarry sizes sizes.cells.length ⟨cp.idx.addr, digits sizes.cells m ++ []⟩ = _ :=
    cpCarry_spec (List.append_nil _).symm (length_digits _ _) hne
  rw [List.append_nil, bump_digits hpos, hlen, ← hidx] at hcarry
  have hcp : (⟨cp.idx.addr, cp.idx.cells⟩ : Ptr ℕ) = cp.idx := rfl
  rw [hcp] at hcarry
  simp only [cpNext, if_neg hnull, hS.not_done, ne_eq, not_true_eq_false, if_false, if_neg hstart,
    hS.sizes_eq, hS.numSets_eq, hcarry]
  by_cases hdvd : sizes.cells.prod ∣ m + 1
  · simp [hdvd, bind, Except.bind, pure, Except.pure]
  · simp [hdvd, bind, Except.bind, pure, Except.pure]

/-- A generator that has tuples to come yields the first of them. -/
theorem CpPending.resume {cp : CpCoroutine} {m : ℕ} {ms : List ℕ}
    (hF : CpFamily sets sizes numSets) (hne : sizes.cells ≠ [])
    (hpos : ∀ b ∈ sizes.cells, 0 < b) (hP : CpPending sets sizes numSets cp (m :: ms)) :
    ∃ cp', CpResume sets sizes cp (some m) cp' ∧ CpPending sets sizes numSets cp' ms := by
  obtain ⟨hS, ⟨hstart, hidx, hms⟩ | ⟨m₀, hstart, hidx, -, hms⟩⟩ := hP
  · -- the first call
    obtain ⟨P, hP⟩ : ∃ P, sizes.cells.prod = P + 1 := by
      cases hP : sizes.cells.prod with
      | zero => rw [hP] at hms; simp at hms
      | succ P => exact ⟨P, rfl⟩
    rw [hP, List.range_eq_range', List.range'_succ] at hms
    obtain ⟨rfl, rfl⟩ := List.cons.inj hms
    have hidx0 : cp.idx.cells = digits sizes.cells 0 := by
      rw [hidx, digits_zero, List.map_const', hF.sizes_eq, List.length_map, hF.sets_len]
    have hS' : CpState sets sizes numSets { cp with started := 1 } :=
      ⟨hS.sets_eq, hS.sizes_eq, hS.numSets_eq, hS.not_done⟩
    refine ⟨{ cp with started := 1 }, fun out hnull hout => ⟨?_, hidx0⟩, hS',
      Or.inr ⟨0, by simp, hidx0, by omega, by rw [hP]; rfl⟩⟩
    have hdone : ¬ cp.done ≠ 0 := fun h => h hS.not_done
    simp only [cpNext, if_neg hnull, if_neg hdone, if_pos hstart,
      cpMaterialize_digits hF hS' hpos hidx0 hout]
    rfl
  · -- a later call
    obtain ⟨d, hd⟩ : ∃ d, sizes.cells.prod - (m₀ + 1) = d + 1 := by
      cases hd : sizes.cells.prod - (m₀ + 1) with
      | zero => rw [hd] at hms; simp at hms
      | succ d => exact ⟨d, rfl⟩
    rw [hd, List.range'_succ] at hms
    obtain ⟨rfl, rfl⟩ := List.cons.inj hms
    have hndvd : ¬ sizes.cells.prod ∣ m₀ + 1 := Nat.not_dvd_of_pos_of_lt (by omega) (by omega)
    have hS' : CpState sets sizes numSets
        { cp with idx := ⟨cp.idx.addr, digits sizes.cells (m₀ + 1)⟩ } :=
      ⟨hS.sets_eq, hS.sizes_eq, hS.numSets_eq, hS.not_done⟩
    refine ⟨{ cp with idx := ⟨cp.idx.addr, digits sizes.cells (m₀ + 1)⟩ },
      fun out hnull hout => ⟨?_, rfl⟩, hS',
      Or.inr ⟨m₀ + 1, hstart, rfl, by omega, ?_⟩⟩
    · rw [cpNext_advance hF hS hne hpos hstart hidx hnull, if_neg hndvd]
      simp only [cpMaterialize_digits hF hS' hpos rfl hout]
      rfl
    · rw [show sizes.cells.prod - (m₀ + 1 + 1) = d by omega]

/-- A generator that has none left reports the end. -/
theorem CpPending.finish {cp : CpCoroutine} (hF : CpFamily sets sizes numSets)
    (hne : sizes.cells ≠ []) (hpos : ∀ b ∈ sizes.cells, 0 < b)
    (hP : CpPending sets sizes numSets cp []) :
    ∃ cp', CpResume sets sizes cp none cp' ∧ CpResume sets sizes cp' none cp' := by
  obtain ⟨hS, ⟨-, -, hms⟩ | ⟨m, hstart, hidx, hm, hms⟩⟩ := hP
  · -- before the first yield there is one to come
    have hprod : 0 < sizes.cells.prod := List.prod_pos hpos
    rw [eq_comm, List.range_eq_nil] at hms
    omega
  · rw [eq_comm, List.range'_eq_nil_iff] at hms
    -- the last tuple was number `P - 1`, so the counter overflows
    have hdvd : sizes.cells.prod ∣ m + 1 := by
      rw [show sizes.cells.prod = m + 1 by omega]
    refine ⟨{ cp with idx := ⟨cp.idx.addr, List.replicate numSets 0⟩, done := 1 },
      fun out hnull hout => ?_, cpResume_done (by simp)⟩
    exact (cpNext_advance hF hS hne hpos hstart hidx hnull).trans (if_pos hdvd)

/-- A generator fresh from `cp_init` enumerates the numbers of the product. -/
theorem cpInit_enumerates {cp cp₀ : CpCoroutine} {idxStorage : Ptr ℕ} {heap : Allocation ℕ}
    (hF : CpFamily sets sizes numSets)
    (hidx : idxStorage.addr ≠ 0 → idxStorage.cells.length = numSets)
    (hinit : cpInit (some cp) sets sizes numSets idxStorage heap = .ok (1, some cp₀)) :
    Enumerates (CpResume sets sizes) cp₀ (List.range sizes.cells.prod) := by
  obtain ⟨hnum, ⟨h0, hdone⟩ | ⟨h0, hS, hstart, hzero⟩⟩ := cpInit_spec hF hidx hinit
  · rw [List.prod_eq_zero h0, List.range_zero]
    exact .exhausted (cpResume_done hdone) (cpResume_done hdone)
  · have hpos : ∀ b ∈ sizes.cells, 0 < b := fun b hb =>
      Nat.pos_of_ne_zero fun h => h0 (h ▸ hb)
    have hne : sizes.cells ≠ [] := by
      intro h
      rw [hF.sizes_eq, List.map_eq_nil_iff] at h
      rw [← hF.sets_len, h] at hnum
      exact hnum rfl
    exact Enumerates.of_pending (CpPending sets sizes numSets)
      (fun _ hP => hP.finish hF hne hpos) (fun _ _ _ hP => hP.resume hF hne hpos)
      ⟨hS, Or.inl ⟨hstart, hzero, rfl⟩⟩

/-- The entry of tuple number `m` in place `i`. -/
theorem getElem?_cpTuple_digits (hF : CpFamily sets sizes numSets)
    (hpos : ∀ b ∈ sizes.cells, 0 < b) (m : ℕ) {i b : ℕ} {s : Ptr ℤ}
    (hs : sets.cells[i]? = some s) (hb : sizes.cells[i]? = some b) :
    m / (sizes.cells.drop (i + 1)).prod % b < b ∧
      (cpTuple sets.cells (digits sizes.cells m))[i]?
        = s.cells[m / (sizes.cells.drop (i + 1)).prod % b]? := by
  have hsb : s.cells.length = b := by
    rw [hF.sizes_eq, List.getElem?_map, hs] at hb
    exact Option.some.inj hb
  have hlt : m / (sizes.cells.drop (i + 1)).prod % b < b :=
    Nat.mod_lt _ (hpos b (List.mem_of_getElem? hb))
  refine ⟨hlt, ?_⟩
  rw [cpTuple, List.getElem?_zipWith, hs, getElem?_digits hb,
    List.getElem?_eq_getElem (hsb.symm ▸ hlt)]
  simp [hsb, hlt]

/-- **Exact enumeration of the cartesian product.** After a successful `cp_init`
the calls of `cp_next`, each given an array of length `num_sets`, yield once for
every `m` below the product of the sizes. Call number `m` leaves the mixed-radix
digits of `m` in the counter, each within its set, and writes the members of the
sets at these indices. Every later call returns `0` and leaves the array as it
was. -/
theorem cpNext_enumerates {cp cp₀ : CpCoroutine} {idxStorage : Ptr ℕ} {heap : Allocation ℕ}
    (hF : CpFamily sets sizes numSets)
    (hidx : idxStorage.addr ≠ 0 → idxStorage.cells.length = numSets)
    (hinit : cpInit (some cp) sets sizes numSets idxStorage heap = .ok (1, some cp₀)) :
    ∃ gs : ℕ → CpCoroutine, gs 0 = cp₀ ∧
      ∀ m (out : Ptr ℤ), out.addr ≠ 0 → out.cells.length = numSets →
        (m < sizes.cells.prod → ∃ out' : Ptr ℤ,
          cpNext (some (gs m)) out = .ok (1, some (gs (m + 1)), out') ∧
          out'.addr = out.addr ∧ out'.cells.length = numSets ∧
          ∀ i s b, sets.cells[i]? = some s → sizes.cells[i]? = some b →
            ∃ d, d = m / (sizes.cells.drop (i + 1)).prod % b ∧ d < b ∧
              (gs (m + 1)).idx.cells[i]? = some d ∧ out'.cells[i]? = s.cells[d]?) ∧
        (sizes.cells.prod ≤ m →
          cpNext (some (gs m)) out = .ok (0, some (gs (m + 1)), out)) := by
  obtain ⟨gs, h0, hyield, hend, -⟩ := (cpInit_enumerates hF hidx hinit).trajectory
  simp only [List.length_range, List.getElem_range] at hyield hend
  refine ⟨gs, h0, fun m out hnull hout => ⟨fun hm => ?_, fun hm => ?_⟩⟩
  · rw [← hF.sets_len] at hout
    obtain ⟨hcall, hcells⟩ := hyield m hm out hnull hout
    have hpos : ∀ b ∈ sizes.cells, 0 < b := fun b hb =>
      Nat.pos_of_ne_zero fun h => by
        rw [List.prod_eq_zero (h ▸ hb)] at hm
        exact absurd hm (Nat.not_lt_zero m)
    refine ⟨_, hcall, rfl, ?_, fun i s b hs hb => ?_⟩
    · simp only [cpTuple, List.length_zipWith, length_digits]
      rw [hF.sizes_eq, List.length_map, Nat.min_self, hF.sets_len]
    · obtain ⟨hlt, hentry⟩ := getElem?_cpTuple_digits hF hpos m hs hb
      exact ⟨_, rfl, hlt, by rw [hcells, getElem?_digits hb], hentry⟩
  · exact hend m hm out hnull (hout.trans hF.sets_len.symm)

/-- The enumeration at work for the sets `[10, 20]` and `[7]`. -/
theorem cpNext_enumerates_two_one :
    let sets : Ptr (Ptr ℤ) := ⟨1, [⟨2, [10, 20]⟩, ⟨3, [7]⟩]⟩
    let sizes : Ptr ℕ := ⟨4, [2, 1]⟩
    let cp : CpCoroutine := ⟨.null, .null, 9, .null, 9, 9⟩
    ∃ cp₀, cpInit (some cp) sets sizes 2 ⟨5, [8, 8]⟩ .failed = .ok (1, some cp₀) ∧
      ∃ gs : ℕ → CpCoroutine, gs 0 = cp₀ ∧
        cpNext (some (gs 2)) ⟨6, [0, 0]⟩ = .ok (0, some (gs 3), ⟨6, [0, 0]⟩) := by
  intro sets sizes cp
  have hinit : cpInit (some cp) sets sizes 2 ⟨5, [8, 8]⟩ .failed
      = .ok (1, some ⟨sets, sizes, 2, ⟨5, [0, 0]⟩, 0, 0⟩) := by decide +kernel
  have hF : CpFamily sets sizes 2 := ⟨rfl, rfl⟩
  obtain ⟨gs, h0, hgs⟩ := cpNext_enumerates hF (fun _ => rfl) hinit
  exact ⟨_, hinit, gs, h0, (hgs 2 ⟨6, [0, 0]⟩ (by decide) rfl).2 (by decide)⟩

end Arboql
