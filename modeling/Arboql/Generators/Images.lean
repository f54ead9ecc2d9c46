import Arboql.Generators.InjEnumeration

/-!
# The images that `inj_next` writes

The search runs on `size_t` values and the images are written as `int`s. The
comment above `inj_next` promises `out_images[i] = f(i) in [0..n-1]`
(`Documented`). A run collects what the calls that return `1` write (`InjRun`);
it is a part, from the start, of the enumerated tuples converted to `int`
(`InjRun.initial`), and it can be continued to all of them (`InjRun.complete`). So
the promise is kept as long as every value below `n` is an `int`, and broken by
the value `2^31` when there is one (`injNext_documented_iff`).
-/

namespace Arboql

open Loops LexTuples Enumeration

/-- **A run** of completed calls of `inj_next` from `g₀`, each with its own
`out_images`, `NULL` or an array of length `k`: the tuples written by the calls
that returned `1`, and the state after the last call. -/
inductive InjRun (g₀ : InjCoroutine) : List (List ℤ) → InjCoroutine → Prop
  | refl : InjRun g₀ [] g₀
  | next {ws : List (List ℤ)} {g g' : InjCoroutine} {fuel : ℕ} {out out' : Ptr ℤ} {r : ℤ}
      (h : InjRun g₀ ws g) (hout : out.addr ≠ 0 → out.cells.length = g.k)
      (hcall : injNext fuel (some g) out = .ok (r, some g', out')) :
      InjRun g₀ (if r = 1 then ws ++ [out'.cells] else ws) g'

/-- **The documented images**: values of `[0..n-1]`, distinct within a tuple, and no
tuple twice. -/
structure Documented (n : ℕ) (ws : List (List ℤ)) : Prop where
  range : ∀ w ∈ ws, ∀ x ∈ w, 0 ≤ x ∧ x ≤ (n : ℤ) - 1
  distinct : ∀ w ∈ ws, w.Nodup
  once : ws.Nodup

variable {n k : ℕ}

/-- A call that returned returns the same with more fuel. -/
theorem injNext_mono {g : InjCoroutine} {out : Ptr ℤ} {fuel fuel' : ℕ}
    {r : ℤ × Option InjCoroutine × Ptr ℤ} (hf : fuel ≤ fuel')
    (h : injNext fuel (some g) out = .ok r) : injNext fuel' (some g) out = .ok r := by
  simp only [injNext] at h ⊢
  split_ifs at h ⊢
  all_goals first
    | exact h
    | exact forever_mono hf h

/-- **The run lemma.** What has been written is an initial part of the tuples to
come, converted, and the rest is still to come. -/
theorem InjRun.initial {g₀ g : InjCoroutine} {ws : List (List ℤ)} {ts : List (List ℕ)}
    (h : InjRun g₀ ws g) (hk : 0 < k) (h₀ : InjState n k g₀)
    (hts : Enumerates (InjResume k) g₀ ts) :
    InjState n k g ∧ ∃ ts₁ ts₂, ts₁ ++ ts₂ = ts ∧ ws = ts₁.map (List.map castInt) ∧
      Enumerates (InjResume k) g ts₂ := by
  induction h with
  | refl => exact ⟨h₀, [], ts, rfl, rfl, hts⟩
  | @next ws g g' fuel out out' r _ hout hcall ih =>
    obtain ⟨hS, ts₁, ts₂, hsplit, hws, hen⟩ := ih
    rw [hS.k_eq] at hout
    refine ⟨hS.next hk hout hcall, ?_⟩
    by_cases hnull : out.addr = 0
    · -- without `out_images` nothing happens
      rw [injNext_null fuel (by rw [hS.k_eq]; omega) hnull] at hcall
      cases hcall
      exact ⟨ts₁, ts₂, hsplit, hws, hen⟩
    · -- the call is the one that the enumeration describes
      have hfuel := injNext_mono (Nat.le_max_left fuel (2 * k)) hcall
      cases hen with
      | exhausted hend hend' =>
        have hres := hend _ out (Nat.le_max_right fuel (2 * k)) hnull (hout hnull)
        rw [hres] at hfuel
        cases hfuel
        exact ⟨ts₁, [], hsplit, hws, .exhausted hend' hend'⟩
      | @yield _ s' t ts₂ hyield hrest =>
        have hres := (hyield _ out (Nat.le_max_right fuel (2 * k)) hnull (hout hnull)).1
        rw [hres] at hfuel
        cases hfuel
        refine ⟨ts₁ ++ [t], ts₂, by rw [← hsplit, List.append_assoc]; rfl, ?_, hrest⟩
        rw [if_pos rfl, hws, List.map_append]
        rfl

/-- **A run can be completed**: calls with an array of length `k` write everything
that is to come. -/
theorem InjRun.complete {g₀ g : InjCoroutine} {ws : List (List ℤ)} {ts : List (List ℕ)}
    (h : InjRun g₀ ws g) (hk : 0 < k) (hS : InjState n k g)
    (hts : Enumerates (InjResume k) g ts) :
    ∃ g', InjRun g₀ (ws ++ ts.map (List.map castInt)) g' := by
  induction hts generalizing ws with
  | exhausted _ _ => exact ⟨_, by rwa [List.map_nil, List.append_nil]⟩
  | @yield g g' t ts hyield _ ih =>
    -- one more call, with an array of zeros
    have hlen : (List.replicate k (0 : ℤ)).length = k := List.length_replicate
    obtain ⟨hcall, -⟩ := hyield (2 * k) ⟨1, List.replicate k 0⟩ le_rfl Nat.one_ne_zero hlen
    have hrun := h.next (fun _ => hlen.trans hS.k_eq.symm) hcall
    rw [if_pos rfl] at hrun
    obtain ⟨g'', hg''⟩ := ih hrun (hS.next hk (fun _ => hlen) hcall)
    rw [List.append_assoc] at hg''
    exact ⟨g'', hg''⟩

/-- Up to `2^31` values, converted arrangements are as documented. -/
theorem documented_of_le (hn : n ≤ 2 ^ 31) {ts₁ ts₂ : List (List ℕ)}
    (h : ts₁ ++ ts₂ = arrangements (List.range n) k []) :
    Documented n (ts₁.map (List.map castInt)) := by
  have hmem : ∀ t ∈ ts₁, t.length = k ∧ t.Nodup ∧ ∀ v ∈ t, v < n := by
    intro t ht
    have hall : t ∈ arrangements (List.range n) k [] := h ▸ List.mem_append_left _ ht
    simpa only [mem_arrangements_nil, List.mem_range] using hall
  -- the arrangements are strictly increasing, so none comes twice
  have hnodup : ts₁.Nodup := by
    have hsorted := arrangements_nil_sorted k (List.pairwise_lt_range (n := n))
    rw [← h] at hsorted
    refine (List.pairwise_append.mp hsorted).1.imp fun hlt heq => ?_
    rw [heq] at hlt
    exact List.lt_irrefl _ hlt
  constructor
  case range =>
    intro w hw x hx
    obtain ⟨t, ht, rfl⟩ := List.mem_map.mp hw
    -- a value below `2^31` is converted to itself
    rw [map_castInt hn (hmem t ht).2.2] at hx
    obtain ⟨v, hv, rfl⟩ := List.mem_map.mp hx
    have hvn := (hmem t ht).2.2 v hv
    omega
  case distinct =>
    intro w hw
    obtain ⟨t, ht, rfl⟩ := List.mem_map.mp hw
    exact (nodup_map_castInt hn (hmem t ht).2.2).mpr (hmem t ht).2.1
  case once =>
    refine hnodup.map_on fun t ht t' ht' heq => ?_
    rw [map_castInt hn (hmem t ht).2.2, map_castInt hn (hmem t' ht').2.2] at heq
    exact List.map_injective_iff.mpr (fun v w hvw => Int.ofNat_inj.mp hvw) heq

/-- With more values, one of the arrangements holds the value `2^31`, which the
conversion makes negative. -/
theorem not_documented_of_lt (hk : 1 ≤ k) (hkn : k ≤ n) (hn : 2 ^ 31 < n) :
    ¬ Documented n ((arrangements (List.range n) k []).map (List.map castInt)) := by
  intro hdoc
  -- `2^31` at the first position, and any other values at the rest
  let others := ((List.range n).erase (2 ^ 31)).take (k - 1)
  have herase : ((List.range n).erase (2 ^ 31)).length = n - 1 := by
    rw [List.length_erase_of_mem (List.mem_range.mpr hn), List.length_range]
  have hmem : 2 ^ 31 :: others ∈ arrangements (List.range n) k [] := by
    rw [mem_arrangements_nil]
    refine ⟨?_, ?_, ?_⟩
    · rw [List.length_cons, List.length_take, herase]
      omega
    · rw [List.nodup_cons]
      refine ⟨fun h => ?_, (List.nodup_range.erase _).sublist (List.take_sublist _ _)⟩
      exact List.nodup_range.not_mem_erase (List.mem_of_mem_take h)
    · intro x hx
      rcases List.mem_cons.mp hx with rfl | hx
      · exact List.mem_range.mpr hn
      · exact List.mem_of_mem_erase (List.mem_of_mem_take hx)
  have hneg := (hdoc.range _ (List.mem_map_of_mem hmem) (castInt (2 ^ 31)) (by simp)).1
  have hwrap : castInt (2 ^ 31) = -2 ^ 31 := by decide
  rw [hwrap] at hneg
  omega

/-- **When the images are the documented ones.** After a successful `inj_init` with
`1 ≤ k ≤ n`, every run of `inj_next` writes images of `[0..n-1]`, distinct within
a tuple and no tuple twice, if and only if `n` is at most `2^31`. -/
theorem injNext_documented_iff {g g₀ : InjCoroutine} {a nextc used : Ptr ℕ} {heap : InjHeap}
    (hn : n < 2 ^ 64) (hk : 1 ≤ k) (hkn : k ≤ n) (hst : InjStorage n k a nextc used)
    (hinit : injInit (some g) n k a nextc used heap = .ok (1, some g₀)) :
    (∀ ws g', InjRun g₀ ws g' → Documented n ws) ↔ n ≤ 2 ^ 31 := by
  have h₀ := injInit_state hn hk hkn hst hinit
  have hts := injInit_enumerates hn hst hinit
  constructor
  · intro hall
    by_contra hlarge
    -- a run to the end writes every arrangement
    obtain ⟨g', hrun⟩ := InjRun.refl.complete hk h₀ hts
    exact not_documented_of_lt hk hkn (by omega) (hall _ g' hrun)
  · intro hsmall ws g' hrun
    obtain ⟨-, ts₁, ts₂, hsplit, rfl, -⟩ := hrun.initial hk h₀ hts
    exact documented_of_le hsmall hsplit

/-- The images at work for `n = 3` and `k = 2` on caller storage. -/
theorem injNext_documented_iff_three_two :
    let g : InjCoroutine := ⟨9, 9, .null, .null, .null, 9, 9, 9, 9⟩
    let g₀ : InjCoroutine := ⟨3, 2, ⟨1, [0, 0]⟩, ⟨2, [0, 0]⟩, ⟨3, [0, 0, 0]⟩, 0, 0, 0, 0⟩
    injInit (some g) 3 2 ⟨1, [5, 6]⟩ ⟨2, [7, 8]⟩ ⟨3, [1, 1, 1]⟩ ⟨.failed, .failed, .failed⟩
        = .ok (1, some g₀) ∧
      ∀ ws g', InjRun g₀ ws g' → Documented 3 ws := by
  intro g g₀
  have hinit : injInit (some g) 3 2 ⟨1, [5, 6]⟩ ⟨2, [7, 8]⟩ ⟨3, [1, 1, 1]⟩
      ⟨.failed, .failed, .failed⟩ = .ok (1, some g₀) := rfl
  exact ⟨hinit, (injNext_documented_iff (n := 3) (k := 2) (by decide) (by decide) (by decide)
    (fun _ => ⟨rfl, rfl, rfl⟩) hinit).mpr (by decide)⟩

/-- One position on caller storage: with more than `2^31` values, some run writes
an image that is not the documented one. -/
theorem exists_undocumented (hn : n < 2 ^ 64) (hlarge : 2 ^ 31 < n) (g : InjCoroutine)
    (heap : InjHeap) :
    injInit (some g) n 1 ⟨1, [5]⟩ ⟨2, [6]⟩ ⟨3, List.replicate n 7⟩ heap
        = .ok (1, some ⟨n, 1, ⟨1, [0]⟩, ⟨2, [0]⟩, ⟨3, List.replicate n 0⟩, 0, 0, 0, 0⟩) ∧
      ∃ ws g', InjRun ⟨n, 1, ⟨1, [0]⟩, ⟨2, [0]⟩, ⟨3, List.replicate n 0⟩, 0, 0, 0, 0⟩ ws g' ∧
        ¬ Documented n ws := by
  have hlen : (List.replicate n 7).length = n := List.length_replicate
  have hinit : injInit (some g) n 1 ⟨1, [5]⟩ ⟨2, [6]⟩ ⟨3, List.replicate n 7⟩ heap
      = .ok (1, some ⟨n, 1, ⟨1, [0]⟩, ⟨2, [0]⟩, ⟨3, List.replicate n 0⟩, 0, 0, 0, 0⟩) := by
    simp only [injInit, if_neg Nat.one_ne_zero, if_neg (show ¬ 1 > n by omega)]
    rw [if_pos (by decide)]
    exact injClear_spec rfl rfl hlen
  have hst : InjStorage n 1 ⟨1, [5]⟩ ⟨2, [6]⟩ ⟨3, List.replicate n 7⟩ := fun _ =>
    ⟨rfl, rfl, hlen⟩
  obtain ⟨g', hrun⟩ := InjRun.refl.complete Nat.one_pos
    (injInit_state hn le_rfl (by omega) hst hinit) (injInit_enumerates hn hst hinit)
  exact ⟨hinit, _, g', hrun, not_documented_of_lt le_rfl (by omega) hlarge⟩

/-- **A value that is not an `int`**, for one position and `n = 2^31 + 1`. -/
theorem injNext_image_wraps :
    let n := 2 ^ 31 + 1
    let g : InjCoroutine := ⟨9, 9, .null, .null, .null, 9, 9, 9, 9⟩
    let g₀ : InjCoroutine := ⟨n, 1, ⟨1, [0]⟩, ⟨2, [0]⟩, ⟨3, List.replicate n 0⟩, 0, 0, 0, 0⟩
    injInit (some g) n 1 ⟨1, [5]⟩ ⟨2, [6]⟩ ⟨3, List.replicate n 7⟩ ⟨.failed, .failed, .failed⟩
        = .ok (1, some g₀) ∧
      ¬ ∀ ws g', InjRun g₀ ws g' → Documented n ws := by
  obtain ⟨hinit, ws, g', hrun, hnot⟩ := exists_undocumented (n := 2 ^ 31 + 1) (by decide)
    (Nat.lt_succ_self _) ⟨9, 9, .null, .null, .null, 9, 9, 9, 9⟩ ⟨.failed, .failed, .failed⟩
  exact ⟨hinit, fun hall => hnot (hall ws g' hrun)⟩

end Arboql
