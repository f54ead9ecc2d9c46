import Arboql.Generators.InjSearch
import Arboql.Lib.Enumeration
import Arboql.Lib.LexTuples

/-!
# The injection generator enumerates the injections

The abstract side of the search is the list `pending n k p c` of the injective
tuples that are still to come when the values `p` are chosen and the next
candidate at the current position is `c`: first the extensions of `p` from `c`
on (`upcoming`), then, level by level, what the positions of `p` have left
(`pendingBelow`).

Each iteration of the loop of `inj_next` keeps the pending list
(`pending_choose`, `pending_backtrack`), apart from the yield, which pops its
first member (`pending_yield`). So a call yields the head of the pending list and leaves its
tail (`Ahead.resume`), and a generator fresh from `inj_init` enumerates the
arrangements of `0, …, n-1` (`injNext_enumerates`).

A call comes back within `2 * k` iterations. It backtracks from a level below
`k`, and once it chooses it only descends, because with `k ≤ n` every level has
an unused value (`Ahead.descend`).
-/

namespace Arboql

open Loops LexTuples Enumeration

/-! ### The tuples still to come -/

/-- The injective extensions of `p` to length `k` whose next entry is at least
`c`, in lexicographic order. -/
def upcoming (n k : ℕ) (p : List ℕ) (c : ℕ) : List (List ℕ) :=
  if p.length = k then [p]
  else (List.range' c (n - c)).flatMap fun v =>
    if v ∈ p then [] else arrangements (List.range n) (k - p.length - 1) (p ++ [v])

/-- What the positions already assigned have left, the last one first. The
argument is the assignment in reverse. -/
def pendingBelow (n k : ℕ) : List ℕ → List (List ℕ)
  | [] => []
  | x :: rev => upcoming n k rev.reverse (x + 1) ++ pendingBelow n k rev

/-- All the tuples still to come. -/
def pending (n k : ℕ) (p : List ℕ) (c : ℕ) : List (List ℕ) :=
  upcoming n k p c ++ pendingBelow n k p.reverse

variable {n k : ℕ}

theorem pendingBelow_concat (q : List ℕ) (x : ℕ) :
    pendingBelow n k (q ++ [x]).reverse
      = upcoming n k q (x + 1) ++ pendingBelow n k q.reverse := by
  rw [List.reverse_append, List.reverse_singleton, List.singleton_append, pendingBelow,
    List.reverse_reverse]

theorem upcoming_full {p : List ℕ} (hp : p.length = k) (c : ℕ) : upcoming n k p c = [p] :=
  if_pos hp

/-- From candidate `0` on, the extensions are all the arrangements. -/
theorem upcoming_zero {p : List ℕ} (hp : p.length ≤ k) :
    upcoming n k p 0 = arrangements (List.range n) (k - p.length) p := by
  by_cases hpk : p.length = k
  · rw [upcoming_full hpk, hpk, Nat.sub_self, arrangements_zero]
  · obtain ⟨d, hd⟩ : ∃ d, k - p.length = d + 1 := ⟨k - p.length - 1, by omega⟩
    rw [upcoming, if_neg hpk, hd, arrangements_succ, Nat.add_sub_cancel, Nat.sub_zero,
      List.range_eq_range']

/-- Values in use contribute nothing. -/
theorem upcoming_skip {p : List ℕ} (hp : p.length ≠ k) {c v : ℕ} (hcv : c ≤ v) (hvn : v ≤ n)
    (hskip : ∀ x, c ≤ x → x < v → x ∈ p) : upcoming n k p c = upcoming n k p v := by
  have hsplit : List.range' c (n - c) = List.range' c (v - c) ++ List.range' v (n - v) := by
    have happ : _ = List.range' c (v - c + (n - v)) := List.range'_append
    rw [Nat.one_mul, show c + (v - c) = v by omega, show v - c + (n - v) = n - c by omega] at happ
    exact happ.symm
  rw [upcoming, if_neg hp, upcoming, if_neg hp, hsplit, List.flatMap_append]
  refine (congrArg (· ++ _) (List.flatMap_eq_nil_iff.mpr fun x hx => ?_)).trans (List.nil_append _)
  rw [List.mem_range'_1] at hx
  rw [if_pos (hskip x hx.1 (by omega))]

/-- Without a candidate left there is no extension. -/
theorem upcoming_end {p : List ℕ} (hp : p.length ≠ k) : upcoming n k p n = [] := by
  rw [upcoming, if_neg hp, Nat.sub_self]
  rfl

/-- The first unused value splits the extensions into those that take it and
those that come after it. -/
theorem upcoming_unused {p : List ℕ} (hp : p.length < k) {v : ℕ} (hv : v < n) (hvp : v ∉ p) :
    upcoming n k p v = upcoming n k (p ++ [v]) 0 ++ upcoming n k p (v + 1) := by
  have hlen : (p ++ [v]).length = p.length + 1 := by simp
  rw [upcoming_zero (p := p ++ [v]) (by omega), hlen, upcoming, if_neg (by omega), upcoming,
    if_neg (by omega), show n - v = n - (v + 1) + 1 by omega, List.range'_succ,
    List.flatMap_cons, if_neg hvp, Nat.sub_sub]

/-- **Choosing** the first unused candidate keeps the pending list. -/
theorem pending_choose {p : List ℕ} (hp : p.length < k) {c v : ℕ} (hcv : c ≤ v) (hv : v < n)
    (hvp : v ∉ p) (hskip : ∀ x, c ≤ x → x < v → x ∈ p) :
    pending n k (p ++ [v]) 0 = pending n k p c :=
  calc upcoming n k (p ++ [v]) 0 ++ pendingBelow n k (p ++ [v]).reverse
      = upcoming n k (p ++ [v]) 0 ++ (upcoming n k p (v + 1) ++ pendingBelow n k p.reverse) := by
        rw [pendingBelow_concat]
    _ = upcoming n k p v ++ pendingBelow n k p.reverse := by
        rw [upcoming_unused hp hv hvp, List.append_assoc]
    _ = upcoming n k p c ++ pendingBelow n k p.reverse := by
        rw [upcoming_skip (by omega) hcv (by omega) hskip]

/-- **Backtracking** from a level without candidates keeps the pending list. -/
theorem pending_backtrack {q : List ℕ} {x c : ℕ} (hq : (q ++ [x]).length < k) (hcn : c ≤ n)
    (hall : ∀ y, c ≤ y → y < n → y ∈ q ++ [x]) :
    pending n k q (x + 1) = pending n k (q ++ [x]) c := by
  have hnone : upcoming n k (q ++ [x]) c = [] :=
    (upcoming_skip (by omega) hcn le_rfl hall).trans (upcoming_end (by omega))
  calc upcoming n k q (x + 1) ++ pendingBelow n k q.reverse
      = pendingBelow n k (q ++ [x]).reverse := (pendingBelow_concat q x).symm
    _ = upcoming n k (q ++ [x]) c ++ pendingBelow n k (q ++ [x]).reverse := by
        rw [hnone, List.nil_append]

/-- **Yielding** the complete tuple leaves the rest of the pending list. -/
theorem pending_yield {q : List ℕ} {x : ℕ} (hq : (q ++ [x]).length = k) (c : ℕ) :
    pending n k (q ++ [x]) c = (q ++ [x]) :: pending n k q (x + 1) := by
  calc upcoming n k (q ++ [x]) c ++ pendingBelow n k (q ++ [x]).reverse
      = [q ++ [x]] ++ pendingBelow n k (q ++ [x]).reverse := by rw [upcoming_full hq]
    _ = (q ++ [x]) :: (upcoming n k q (x + 1) ++ pendingBelow n k q.reverse) := by
        rw [pendingBelow_concat, List.singleton_append]

/-- At the first position, no candidate left means that nothing is to come. -/
theorem pending_finish (hk : 0 < k) {c : ℕ} (hcn : c ≤ n)
    (hall : ∀ y, c ≤ y → y < n → y ∈ ([] : List ℕ)) : pending n k [] c = [] := by
  unfold pending
  rw [upcoming_skip (by simpa using hk.ne) hcn le_rfl hall, upcoming_end (by simpa using hk.ne)]
  rfl

/-- Before the first choice, all the arrangements are to come. -/
theorem pending_root : pending n k [] 0 = arrangements (List.range n) k [] := by
  unfold pending
  rw [upcoming_zero (by simp), List.length_nil, Nat.sub_zero, List.reverse_nil]
  simp [pendingBelow]

/-- More positions than values: nothing is to come. -/
theorem arrangements_eq_nil (hkn : n < k) : arrangements (List.range n) k [] = [] := by
  refine List.eq_nil_of_length_eq_zero ?_
  rw [length_arrangements List.nodup_range k List.nodup_nil (List.nil_subset _),
    List.length_range, List.length_nil, Nat.sub_zero, Nat.descFactorial_eq_zero_iff_lt]
  exact hkn

/-! ### The search and its pending list -/

theorem SearchInv.length_chosen {g : InjCoroutine} (hI : SearchInv n k g) :
    g.chosen.length = g.pos := by
  unfold InjCoroutine.chosen
  rw [List.length_take, hI.a_len, Nat.min_eq_left hI.pos_le]

/-- A state of the search with the tuples `ts` still to come. -/
structure Ahead (n k : ℕ) (g : InjCoroutine) (ts : List (List ℕ)) : Prop where
  inv : SearchInv n k g
  pending_eq : ∀ c, (g.pos < k → g.nextc.cells[g.pos]? = some c) → pending n k g.chosen c = ts

/-- A level below the last one with fewer than `n` values chosen has an unused
value: a descending search never gets stuck. -/
theorem SearchInv.exists_unused {g : InjCoroutine} (hI : SearchInv n k g) (hkn : k ≤ n)
    (hpos : g.pos < k) : ∃ v < n, v ∉ g.chosen := by
  by_contra hnone
  push Not at hnone
  have hsub : List.range n ⊆ g.chosen := fun v hv => hnone v (List.mem_range.mp hv)
  have hle := (List.nodup_range.subperm hsub).length_le
  rw [List.length_range, hI.length_chosen] at hle
  omega

/-- The loop of `inj_next`, entered at `g`, comes back within `b` iterations after
the first one, with the same result `res out` for every `out_images`. -/
def LoopGives (k b : ℕ) (g : InjCoroutine)
    (res : Ptr ℤ → ℤ × Option InjCoroutine × Ptr ℤ) : Prop :=
  ∃ m h, m ≤ b ∧ ∀ out : Ptr ℤ, out.cells.length = k →
    Iter (injBody out) m g h ∧ injBody out h = .ok (.leave (res out))

theorem LoopGives.head {b : ℕ} {g g' : InjCoroutine}
    {res : Ptr ℤ → ℤ × Option InjCoroutine × Ptr ℤ}
    (hb : ∀ out, injBody out g = .ok (.again g')) (h : LoopGives k b g' res) :
    LoopGives k (b + 1) g res := by
  obtain ⟨m, t, hm, ht⟩ := h
  exact ⟨m + 1, t, by omega, fun out hout => ⟨.head (hb out) (ht out hout).1, (ht out hout).2⟩⟩

theorem LoopGives.mono {b b' : ℕ} {g : InjCoroutine}
    {res : Ptr ℤ → ℤ × Option InjCoroutine × Ptr ℤ} (h : LoopGives k b g res) (hb : b ≤ b') :
    LoopGives k b' g res := by
  obtain ⟨m, t, hm, ht⟩ := h
  exact ⟨m, t, hm.trans hb, ht⟩

/-- A loop left within the bound makes the call return. -/
theorem LoopGives.injNext {b fuel : ℕ} {g : InjCoroutine} {out : Ptr ℤ}
    {res : Ptr ℤ → ℤ × Option InjCoroutine × Ptr ℤ} (h : LoopGives k b g res)
    (hI : SearchInv n k g) (hk : 0 < k) (hb : b < fuel) (hnull : out.addr ≠ 0)
    (hout : out.cells.length = k) : injNext fuel (some g) out = .ok (res out) := by
  obtain ⟨m, t, hm, ht⟩ := h
  rw [injNext_loop fuel (by rw [hI.k_eq]; omega) hnull hI.not_done]
  exact (ht out hout).1.forever (ht out hout).2 (by omega)

/-- What a call does to the tuples that were to come: it yields the first one, or
finishes. -/
def Resumes (n k b : ℕ) (g : InjCoroutine) : List (List ℕ) → Prop
  | [] => ∃ g', Exhausted n k g' ∧ LoopGives k b g fun out => (0, some g', out)
  | t :: ts => ∃ g', Ahead n k g' ts ∧ g'.pos < k ∧ g'.a.cells = t ∧
      LoopGives k b g fun out => (1, some g', ⟨out.addr, t.map castInt⟩)

theorem Resumes.head {b : ℕ} {g g' : InjCoroutine} {ts : List (List ℕ)}
    (hb : ∀ out, injBody out g = .ok (.again g')) (h : Resumes n k b g' ts) :
    Resumes n k (b + 1) g ts := by
  cases ts with
  | nil =>
    obtain ⟨s, h₁, h₂⟩ := h
    exact ⟨s, h₁, h₂.head hb⟩
  | cons t ts =>
    obtain ⟨s, h₁, h₂, h₃, h₄⟩ := h
    exact ⟨s, h₁, h₂, h₃, h₄.head hb⟩

theorem Resumes.mono {b b' : ℕ} {g : InjCoroutine} {ts : List (List ℕ)}
    (h : Resumes n k b g ts) (hb : b ≤ b') : Resumes n k b' g ts := by
  cases ts with
  | nil =>
    obtain ⟨s, h₁, h₂⟩ := h
    exact ⟨s, h₁, h₂.mono hb⟩
  | cons t ts =>
    obtain ⟨s, h₁, h₂, h₃, h₄⟩ := h
    exact ⟨s, h₁, h₂, h₃, h₄.mono hb⟩

/-- **The yield** pops the pending list. -/
theorem Ahead.yield {g : InjCoroutine} {ts : List (List ℕ)} (hA : Ahead n k g ts) (hk : 0 < k)
    (hpos : g.pos = k) : Resumes n k 0 g ts := by
  obtain ⟨g', x, hb, hI', hpos', ha, hsplit, hnext⟩ := injBody_yield hA.inv hk hpos
  have hchosen : g.chosen = g.a.cells := by
    unfold InjCoroutine.chosen
    rw [hpos, ← hA.inv.a_len, List.take_length]
  have hlen : (g'.chosen ++ [x]).length = k := by
    rw [← hsplit, hA.inv.length_chosen, hpos]
  -- with every position assigned, the pending list does not look at a candidate
  have hts := hA.pending_eq 0 fun h => absurd h (by omega)
  rw [hsplit, pending_yield hlen, ← hsplit, hchosen] at hts
  rw [← hts]
  refine ⟨g', ⟨hI', fun c hc => ?_⟩, by omega, by rw [ha], 0, g, le_rfl, fun out hout =>
    ⟨.refl g, hb out hout⟩⟩
  obtain rfl : x + 1 = c := Option.some.inj (hnext.symm.trans (hc (by omega)))
  rfl

/-- **Descent.** A search whose candidates start over at the current position
chooses a value at every level left and then yields. -/
theorem Ahead.descend (hk : 0 < k) (hkn : k ≤ n) {d : ℕ} {g : InjCoroutine}
    {ts : List (List ℕ)} (hd : g.pos + d = k) (hI : SearchInv n k g)
    (h0 : g.pos < k → g.nextc.cells[g.pos]? = some 0) (hts : pending n k g.chosen 0 = ts) :
    Resumes n k d g ts := by
  induction d generalizing g with
  | zero =>
    -- the assignment is complete
    have hlen : g.chosen.length = k := hI.length_chosen.trans hd
    refine Ahead.yield ⟨hI, fun c _ => ?_⟩ hk hd
    rw [← hts]
    unfold pending
    rw [upcoming_full hlen, upcoming_full hlen]
  | succ d ih =>
    have hpos : g.pos < k := by omega
    rcases injBody_search hI hpos (h0 hpos) with
      ⟨v, g', -, hv, hvnot, hskip, hb, hI', hpos', hchosen, h0'⟩ | ⟨hall, -⟩
    · refine Resumes.head hb (ih (by omega) hI' h0' ?_)
      rw [hchosen, pending_choose (by rw [hI.length_chosen]; exact hpos) (Nat.zero_le v) hv
        hvnot hskip, hts]
    · -- some value is unused, and a scan from `0` cannot miss it
      obtain ⟨v, hv, hvnot⟩ := hI.exists_unused hkn hpos
      exact absurd (hall v (Nat.zero_le v) hv) hvnot

/-- **One call.** From a suspended state at depth `j`, the loop is left after at
most `k + j` iterations, and the tuples to come are resumed. -/
theorem Ahead.resume (hkn : k ≤ n) {j : ℕ} {g : InjCoroutine} {ts : List (List ℕ)}
    (hj : g.pos = j) (hjk : j < k) (hA : Ahead n k g ts) : Resumes n k (k + j) g ts := by
  -- on the depth: backtracking resumes one level up
  induction j using Nat.strong_induction_on generalizing g with
  | _ j ih =>
    have hpos : g.pos < k := by omega
    have hlen := hA.inv.length_chosen
    obtain ⟨c, hc, hcn⟩ := hA.inv.nextc_le hpos
    have hts := hA.pending_eq c fun _ => hc
    rcases injBody_search hA.inv hpos hc with
      ⟨v, g', hcv, hv, hvnot, hskip, hb, hI', hpos', hchosen, h0'⟩ | ⟨hall, hback | hfin⟩
    · -- choose, then descend to the last level and yield
      have hdesc : Resumes n k (k - j - 1) g' ts := by
        refine Ahead.descend (by omega) hkn (by omega) hI' h0' ?_
        rw [hchosen, pending_choose (by omega) hcv hv hvnot hskip, hts]
      exact (hdesc.head hb).mono (by omega)
    · -- backtrack, and resume one level up
      obtain ⟨g', x, hb, hI', hpos', hsplit, hnext⟩ := hback
      have hA' : Ahead n k g' ts := by
        refine ⟨hI', fun c' hc' => ?_⟩
        obtain rfl : x + 1 = c' := Option.some.inj (hnext.symm.trans (hc' (by omega)))
        rw [hsplit] at hlen hall hts
        rw [pending_backtrack (by omega) hcn hall, hts]
      exact ((ih (j - 1) (by omega) (by omega) (by omega) hA').head hb).mono (by omega)
    · -- nothing left at the first position
      obtain ⟨h0, g', hb, hE⟩ := hfin
      have hnil : g.chosen = [] := List.eq_nil_of_length_eq_zero (by omega)
      rw [hnil] at hall hts
      rw [pending_finish (by omega) hcn hall] at hts
      rw [← hts]
      exact ⟨g', hE, 0, g, by omega, fun out _ => ⟨.refl g, hb out⟩⟩

/-! ### The enumeration -/

/-- Resuming the generator by a call of `inj_next` with an array for
`out_images`: a yield returns `1`, holds the tuple in `a` and writes its image,
the end returns `0` and leaves the array alone. -/
def InjResume (k : ℕ) (g : InjCoroutine) (o : Option (List ℕ)) (g' : InjCoroutine) : Prop :=
  ∀ fuel (out : Ptr ℤ), 2 * k ≤ fuel → out.addr ≠ 0 → out.cells.length = k →
    match o with
    | some t => injNext fuel (some g) out = .ok (1, some g', ⟨out.addr, t.map castInt⟩) ∧
        g'.a.cells.take k = t
    | none => injNext fuel (some g) out = .ok (0, some g', out)

theorem injResume_done {g : InjCoroutine} (hdone : g.done ≠ 0) : InjResume k g none g :=
  fun fuel out _ _ _ => injNext_done fuel out hdone

/-- A suspended search enumerates the tuples to come. -/
theorem Ahead.enumerates {g : InjCoroutine} {ts : List (List ℕ)} (hkn : k ≤ n)
    (hA : Ahead n k g ts) (hpos : g.pos < k) : Enumerates (InjResume k) g ts := by
  refine Enumerates.of_pending (fun g ts => g.pos < k ∧ Ahead n k g ts) ?_ ?_ ⟨hpos, hA⟩
  · rintro g ⟨hpos, hA⟩
    obtain ⟨g', hE, hloop⟩ := hA.resume hkn rfl hpos
    exact ⟨g', fun fuel out hfuel hnull hout =>
      hloop.injNext hA.inv (by omega) (by omega) hnull hout,
      injResume_done (by rw [hE.done_eq]; decide)⟩
  · rintro g t ts ⟨hpos, hA⟩
    obtain ⟨g', hA', hpos', ha, hloop⟩ := hA.resume hkn rfl hpos
    refine ⟨g', fun fuel out hfuel hnull hout =>
      ⟨hloop.injNext hA.inv (by omega) (by omega) hnull hout, ?_⟩, hpos', hA'⟩
    rw [← hA'.inv.a_len, List.take_length, ha]

/-- The empty assignment is yielded once. -/
theorem injResume_empty {g : InjCoroutine} (hk : g.k = 0) (hdone : g.done = 0)
    (hstarted : g.started = 0) : Enumerates (InjResume 0) g [[]] := by
  have hend : InjResume 0 { g with started := 1 } none { g with started := 1 } := by
    intro fuel out _ _ _
    simp [injNext, hk, hdone]
  have hfirst : InjResume 0 g (some []) { g with started := 1 } := by
    intro fuel out _ _ hout
    obtain ⟨addr, cells⟩ := out
    obtain rfl : cells = [] := List.eq_nil_of_length_eq_zero hout
    simp [injNext, hk, hdone, hstarted]
  exact .yield hfirst (.exhausted hend hend)

/-- A generator fresh from `inj_init` enumerates the arrangements. -/
theorem injInit_enumerates {g g₀ : InjCoroutine} {a nextc used : Ptr ℕ} {heap : InjHeap}
    (hn : n < 2 ^ 64) (hst : InjStorage n k a nextc used)
    (hinit : injInit (some g) n k a nextc used heap = .ok (1, some g₀)) :
    Enumerates (InjResume k) g₀ (arrangements (List.range n) k []) := by
  by_cases hk : k = 0
  · -- the empty assignment
    subst hk
    simp only [injInit, if_true] at hinit
    obtain rfl := Option.some.inj (Prod.mk.inj (Except.ok.inj hinit)).2
    exact injResume_empty rfl rfl rfl
  · by_cases hkn : k > n
    · -- done from the start
      simp only [injInit, if_neg hk, if_pos hkn] at hinit
      obtain rfl := Option.some.inj (Prod.mk.inj (Except.ok.inj hinit)).2
      rw [arrangements_eq_nil hkn]
      exact .exhausted (injResume_done (by simp)) (injResume_done (by simp))
    · -- a search that stands at its root
      obtain ⟨hI, hpos, hzero⟩ := injInit_spec hn (by omega) (by omega) hst hinit
      refine Ahead.enumerates (by omega) ⟨hI, fun c hc => ?_⟩ (by omega)
      have hnil : g₀.chosen = [] :=
        List.eq_nil_of_length_eq_zero (hI.length_chosen.trans hpos)
      have hc' := hc (by omega)
      rw [hpos, hzero] at hc'
      obtain rfl : 0 = c := Option.some.inj hc'
      rw [hnil, pending_root]

/-- **Exact enumeration of injections.** After a successful `inj_init` the calls of
`inj_next`, each given an array of length `k`, first yield the tuples of pairwise
distinct values below `n`, every one of them once and in increasing
lexicographic order, and from then on return `0` without writing to the array
and, after the first such call, without changing the generator. There are
`n (n-1) ⋯ (n-k+1)` yields, and no call needs more than `2 k` iterations. -/
theorem injNext_enumerates {g g₀ : InjCoroutine} {a nextc used : Ptr ℕ} {heap : InjHeap}
    (hn : n < 2 ^ 64) (hst : InjStorage n k a nextc used)
    (hinit : injInit (some g) n k a nextc used heap = .ok (1, some g₀)) :
    ∃ ts : List (List ℕ),
      (∀ t, t ∈ ts ↔ t.length = k ∧ t.Nodup ∧ ∀ v ∈ t, v < n) ∧
      ts.Pairwise (· < ·) ∧ ts.length = n.descFactorial k ∧
      ∃ gs : ℕ → InjCoroutine, gs 0 = g₀ ∧
        ∀ i fuel (out : Ptr ℤ), 2 * k ≤ fuel → out.addr ≠ 0 → out.cells.length = k →
          (∀ hi : i < ts.length,
            injNext fuel (some (gs i)) out
                = .ok (1, some (gs (i + 1)), ⟨out.addr, ts[i].map castInt⟩) ∧
              (gs (i + 1)).a.cells.take k = ts[i]) ∧
          (ts.length ≤ i → injNext fuel (some (gs i)) out = .ok (0, some (gs (i + 1)), out)) ∧
          (ts.length < i → gs (i + 1) = gs i) := by
  obtain ⟨gs, h0, hyield, hend, hstay⟩ := (injInit_enumerates hn hst hinit).trajectory
  refine ⟨arrangements (List.range n) k [], fun t => ?_, ?_, ?_, gs, h0, ?_⟩
  · rw [mem_arrangements_nil]
    simp only [List.mem_range]
  · exact arrangements_nil_sorted k List.pairwise_lt_range
  · rw [length_arrangements List.nodup_range k List.nodup_nil (List.nil_subset _),
      List.length_range, List.length_nil, Nat.sub_zero]
  · intro i fuel out hfuel hnull hout
    exact ⟨fun hi => hyield i hi fuel out hfuel hnull hout,
      fun hi => hend i hi fuel out hfuel hnull hout, hstay i⟩

/-- The enumeration at work for `n = 3` and `k = 2` on allocated storage. -/
theorem injNext_enumerates_three_two :
    let g : InjCoroutine := ⟨9, 9, .null, .null, .null, 9, 9, 9, 9⟩
    let heap : InjHeap := ⟨.block 1 (by decide) fun _ => 7, .block 2 (by decide) fun _ => 8,
      .block 3 (by decide) fun _ => 1⟩
    ∃ g₀, injInit (some g) 3 2 .null .null .null heap = .ok (1, some g₀) ∧
      ∃ ts : List (List ℕ), ts.length = 6 ∧
        ∃ gs : ℕ → InjCoroutine, gs 0 = g₀ ∧ ∀ i (hi : i < ts.length),
          injNext 4 (some (gs i)) ⟨5, [0, 0]⟩
            = .ok (1, some (gs (i + 1)), ⟨5, ts[i].map castInt⟩) := by
  intro g heap
  have hinit : injInit (some g) 3 2 .null .null .null heap = .ok (1, some
      ⟨3, 2, ⟨1, [0, 0]⟩, ⟨2, [0, 0]⟩, ⟨3, [0, 0, 0]⟩, 0, 0, 0, 1⟩) := by decide +kernel
  have hst : InjStorage 3 2 .null .null .null := fun h => absurd rfl h.1
  obtain ⟨ts, -, -, hlen, gs, h0, hgs⟩ :=
    injNext_enumerates (n := 3) (k := 2) (by decide) hst hinit
  exact ⟨_, hinit, ts, hlen, gs, h0, fun i hi =>
    ((hgs i 4 ⟨5, [0, 0]⟩ (by decide) (by decide) rfl).1 hi).1⟩

end Arboql
