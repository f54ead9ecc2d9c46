import Arboql.Generators.InjEnumeration
import Arboql.Generators.CpEnumeration

/-!
# The two generators agree

Over `k` copies of the array `0, 1, …, n-1`, the product generator writes every
`k`-tuple of values below `n`. The injection generator writes those with pairwise
distinct entries, in the same order: the pruned search of `inj_next` is
generate-and-filter over the counter of `cp_next` (`injNext_eq_filter_cpNext`).

Both enumerations are known by now, so what is left is to compare two lists:
the arrangements are the filtered product (`LexTuples.arrangements_nil`), and the
counter lists the product (`LexTuples.map_digits_range`). Up to `n = 2^31` the
conversion to `int` is faithful on the values involved.
-/

namespace Arboql

open LexTuples Enumeration

/-- The successive calls of a generator, each given an array of length `k`, write
the tuples `ts` and return `1`, and then only return `0` and write nothing. -/
def Writes {σ : Type} (call : σ → Ptr ℤ → Except Fault (ℤ × σ × Ptr ℤ)) (k : ℕ) (s : σ)
    (ts : List (List ℤ)) : Prop :=
  ∃ gs : ℕ → σ, gs 0 = s ∧
    ∀ i (out : Ptr ℤ), out.addr ≠ 0 → out.cells.length = k →
      (∀ hi : i < ts.length, call (gs i) out = .ok (1, gs (i + 1), ⟨out.addr, ts[i]⟩)) ∧
      (ts.length ≤ i → call (gs i) out = .ok (0, gs (i + 1), out))

/-- What the injection generator writes is the enumerated tuples converted. -/
theorem writes_injNext {k fuel : ℕ} {g₀ : InjCoroutine} {ts : List (List ℕ)}
    (hfuel : 2 * k ≤ fuel) (h : Enumerates (InjResume k) g₀ ts) :
    Writes (injNext fuel) k (some g₀) (ts.map (List.map castInt)) := by
  obtain ⟨gs, h0, hyield, hend, -⟩ := h.trajectory
  refine ⟨fun i => some (gs i), congrArg some h0,
    fun i out hnull hout => ⟨fun hi => ?_, fun hi => ?_⟩⟩
  · rw [List.getElem_map]
    exact (hyield i (by simpa using hi) fuel out hfuel hnull hout).1
  · exact hend i (by simpa using hi) fuel out hfuel hnull hout

/-- What the product generator writes is the tuples of the enumerated numbers. -/
theorem writes_cpNext {sets : Ptr (Ptr ℤ)} {sizes : Ptr ℕ} {cp₀ : CpCoroutine} {ms : List ℕ}
    (h : Enumerates (CpResume sets sizes) cp₀ ms) :
    Writes cpNext sets.cells.length (some cp₀)
      (ms.map fun m => cpTuple sets.cells (digits sizes.cells m)) := by
  obtain ⟨gs, h0, hyield, hend, -⟩ := h.trajectory
  refine ⟨fun i => some (gs i), congrArg some h0,
    fun i out hnull hout => ⟨fun hi => ?_, fun hi => ?_⟩⟩
  · rw [List.getElem_map]
    exact (hyield i (by simpa using hi) out hnull hout).1
  · exact hend i (by simpa using hi) out hnull hout

/-- The `int` array `0, 1, …, n-1`. -/
def iota (n : ℕ) : List ℤ := (List.range n).map fun v : ℕ => (v : ℤ)

/-- Over copies of `0, 1, …, n-1` the tuple of a counter is the counter. -/
theorem cpTuple_iota {n : ℕ} (hn : n ≤ 2 ^ 31) {sets : List (Ptr ℤ)} {ds : List ℕ}
    (hsets : ∀ s ∈ sets, s.cells = iota n) (hlen : ds.length = sets.length)
    (hds : ∀ d ∈ ds, d < n) : cpTuple sets ds = ds.map castInt := by
  induction ds generalizing sets with
  | nil =>
    obtain rfl : sets = [] := List.eq_nil_of_length_eq_zero hlen.symm
    rfl
  | cons d ds ih =>
    cases sets with
    | nil => simp at hlen
    | cons s sets =>
      have hd : d < n := hds d (by simp)
      have htail : cpTuple sets ds = _ := ih (fun s' hs' => hsets s' (by simp [hs']))
        (by simpa using hlen) fun d' hd' => hds d' (by simp [hd'])
      unfold cpTuple at htail ⊢
      rw [List.zipWith_cons_cons, List.map_cons, htail, hsets s (by simp),
        castInt_of_lt (hd.trans_le hn)]
      simp [iota, hd]

/-- **The two generators agree.** Let `S` be what `cp_next` writes over `k` sets
each equal to `0, 1, …, n-1`, and `T` what `inj_next` writes after `inj_init`
with the same `n` and `k`. Then `T` is `S` without the tuples that repeat an
entry, in the same order. There are none of them when `k` exceeds `n`, and no
tuples at all when `n` is `0`. -/
theorem injNext_eq_filter_cpNext {n k fuel : ℕ} (hn : n ≤ 2 ^ 31) (hfuel : 2 * k ≤ fuel)
    {sets : Ptr (Ptr ℤ)} {sizes : Ptr ℕ} (hlen : sets.cells.length = k)
    (hsets : ∀ s ∈ sets.cells, s.cells = iota n) (hsizes : sizes.cells = List.replicate k n)
    {cp cp₀ : CpCoroutine} {idxStorage : Ptr ℕ} {cpHeap : Allocation ℕ}
    (hidx : idxStorage.addr ≠ 0 → idxStorage.cells.length = k)
    (hcp : cpInit (some cp) sets sizes k idxStorage cpHeap = .ok (1, some cp₀))
    {g g₀ : InjCoroutine} {a nextc used : Ptr ℕ} {heap : InjHeap}
    (hst : InjStorage n k a nextc used)
    (hinj : injInit (some g) n k a nextc used heap = .ok (1, some g₀)) :
    ∃ S T : List (List ℤ), Writes cpNext k (some cp₀) S ∧
      Writes (injNext fuel) k (some g₀) T ∧ T = S.filter (fun t => t.Nodup) ∧
      (n < k → T = []) ∧ (n = 0 → S = []) := by
  have hF : CpFamily sets sizes k := by
    refine ⟨hlen, ?_⟩
    rw [hsizes, eq_comm, List.eq_replicate_iff]
    refine ⟨by rw [List.length_map, hlen], fun b hb => ?_⟩
    obtain ⟨s, hs, rfl⟩ := List.mem_map.mp hb
    rw [hsets s hs, iota, List.length_map, List.length_range]
  have hS := writes_cpNext (cpInit_enumerates hF hidx hcp)
  have hT := writes_injNext hfuel (injInit_enumerates (by omega) hst hinj)
  rw [hlen] at hS
  have hempty : n = 0 → sizes.cells.prod = 0 := by
    rintro rfl
    obtain ⟨hk, -⟩ := cpInit_spec hF hidx hcp
    rw [hsizes, List.prod_replicate, zero_pow hk]
  refine ⟨_, _, hS, hT, ?_, fun hkn => by rw [arrangements_eq_nil hkn, List.map_nil],
    fun hn0 => by rw [hempty hn0, List.range_zero, List.map_nil]⟩
  -- both sides list the product of `k` copies of `0, …, n-1`
  have hprod : (List.range sizes.cells.prod).map
        (fun m => cpTuple sets.cells (digits sizes.cells m))
      = (product (List.replicate k (List.range n))).map (List.map castInt) := by
    have hbs : sizes.cells.map List.range = List.replicate k (List.range n) := by
      rw [hsizes, List.map_replicate]
    rw [← hbs, ← map_digits_range, List.map_map]
    refine List.map_congr_left fun m hm => cpTuple_iota hn hsets ?_ ?_
    · rw [length_digits, hF.sizes_eq, List.length_map]
    · have hmem : digits sizes.cells m ∈ product (sizes.cells.map List.range) := by
        rw [← map_digits_range]
        exact List.mem_map_of_mem hm
      rw [hbs, mem_product_replicate] at hmem
      exact fun d hd => List.mem_range.mp (hmem.2 d hd)
  -- and below `2 ^ 31` the filter may look at the values before their conversion
  rw [hprod, arrangements_nil, List.filter_map]
  refine congrArg _ (List.filter_congr fun t ht => ?_)
  rw [mem_product_replicate] at ht
  have hlt : ∀ v ∈ t, v < n := fun v hv => List.mem_range.mp (ht.2 v hv)
  simp only [Function.comp_apply, nodup_map_castInt hn hlt]

/-- The agreement at work for `n = 2` and `k = 2`. -/
theorem injNext_eq_filter_cpNext_two_two :
    let sets : Ptr (Ptr ℤ) := ⟨1, [⟨2, [0, 1]⟩, ⟨2, [0, 1]⟩]⟩
    let cp : CpCoroutine := ⟨.null, .null, 9, .null, 9, 9⟩
    let g : InjCoroutine := ⟨9, 9, .null, .null, .null, 9, 9, 9, 9⟩
    ∃ cp₀ g₀, cpInit (some cp) sets ⟨3, [2, 2]⟩ 2 ⟨4, [8, 8]⟩ .failed = .ok (1, some cp₀) ∧
      injInit (some g) 2 2 ⟨5, [7, 7]⟩ ⟨6, [7, 7]⟩ ⟨7, [7, 7]⟩ ⟨.failed, .failed, .failed⟩
        = .ok (1, some g₀) ∧
      ∃ S T : List (List ℤ), Writes cpNext 2 (some cp₀) S ∧ Writes (injNext 4) 2 (some g₀) T ∧
        T = S.filter (fun t => t.Nodup) := by
  intro sets cp g
  have hcp : cpInit (some cp) sets ⟨3, [2, 2]⟩ 2 ⟨4, [8, 8]⟩ .failed
      = .ok (1, some ⟨sets, ⟨3, [2, 2]⟩, 2, ⟨4, [0, 0]⟩, 0, 0⟩) := by decide +kernel
  have hinj : injInit (some g) 2 2 ⟨5, [7, 7]⟩ ⟨6, [7, 7]⟩ ⟨7, [7, 7]⟩
      ⟨.failed, .failed, .failed⟩ = .ok (1, some
        ⟨2, 2, ⟨5, [0, 0]⟩, ⟨6, [0, 0]⟩, ⟨7, [0, 0]⟩, 0, 0, 0, 0⟩) := by decide +kernel
  obtain ⟨S, T, hS, hT, hST, -⟩ := injNext_eq_filter_cpNext (n := 2) (k := 2) (by decide) le_rfl
    rfl (by decide) rfl (fun _ => rfl) hcp
    (fun _ => ⟨rfl, rfl, rfl⟩) hinj
  exact ⟨_, _, hcp, hinj, S, T, hS, hT, hST⟩

end Arboql
