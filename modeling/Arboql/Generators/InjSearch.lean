import Arboql.Generators.InjectiveMappings
import Mathlib.Data.List.Nodup
import Mathlib.Data.Nat.Basic

/-!
# The search state of the injection generator

`SearchInv` is what holds at every head of the loop of `inj_next`: the values
chosen so far are distinct, `used` marks exactly them, and `nextc` stands one
past each of them and at `0` beyond the current position.

Each iteration does one of four things, each with a lemma of its own: it yields
(`injBody_yield`), chooses a value (`injBody_choose`), backtracks
(`injBody_backtrack`) or finishes (`injBody_finish`). The yield and the backtrack
both release the last chosen value (`SearchInv.stepBack`), and the choice adds
one (`SearchInv.stepForward`). From the iteration the invariant carries over to a
call (`InjState.next`) and to any number of calls (`InjCalls.state`), which gives
the main result, `injNext_searchInv`.
-/

namespace Arboql

open Loops

/-- The current partial assignment `a[0..pos-1]`. -/
def InjCoroutine.chosen (g : InjCoroutine) : List ℕ := g.a.cells.take g.pos

/-- **The search invariant**, at every head of the loop of `inj_next`. -/
structure SearchInv (n k : ℕ) (g : InjCoroutine) : Prop where
  n_eq : g.n = n
  k_eq : g.k = k
  not_done : g.done = 0
  a_len : g.a.cells.length = k
  nextc_len : g.nextc.cells.length = k
  used_len : g.used.cells.length = n
  pos_le : g.pos ≤ k
  chosen_nodup : g.chosen.Nodup
  chosen_lt : ∀ v ∈ g.chosen, v < n
  used_eq : ∀ v < n, g.used.cells[v]? = some (if v ∈ g.chosen then 1 else 0)
  nextc_chosen : ∀ i < g.pos, g.nextc.cells[i]? = (g.a.cells[i]?).map (· + 1)
  nextc_le : g.pos < k → ∃ c, g.nextc.cells[g.pos]? = some c ∧ c ≤ n
  nextc_above : ∀ i, g.pos < i → i < k → g.nextc.cells[i]? = some 0

/-- The scratch of a generator that has reported its end is what `inj_init` left. -/
structure Exhausted (n k : ℕ) (g : InjCoroutine) : Prop where
  k_eq : g.k = k
  done_eq : g.done = 1
  pos_eq : g.pos = 0
  used_zero : g.used.cells = List.replicate n 0
  nextc_zero : g.nextc.cells = List.replicate k 0

variable {n k : ℕ}

/-- The scan stops at the first value from `v` on that is not in use, or at `n`. -/
theorem skipUsed_spec {used : Ptr ℕ} {p : List ℕ}
    (hused : ∀ v < n, used.cells[v]? = some (if v ∈ p then 1 else 0)) :
    ∀ left v, v + left = n → ∃ w, skipUsed used left v = .ok w ∧ v ≤ w ∧ w ≤ n ∧
      (∀ x, v ≤ x → x < w → x ∈ p) ∧ (w < n → w ∉ p) := by
  intro left
  induction left with
  | zero =>
    intro v hv
    exact ⟨v, rfl, le_rfl, by omega, fun x h₁ h₂ => by omega, fun h => by omega⟩
  | succ left ih =>
    intro v hv
    have hread : used.read v = .ok (if v ∈ p then 1 else 0) :=
      Ptr.read_eq_ok.mpr (hused v (by omega))
    by_cases hvp : v ∈ p
    · -- `v` is in use, so the scan goes on
      obtain ⟨w, hw, h₁, h₂, h₃, h₄⟩ := ih (v + 1) (by omega)
      refine ⟨w, ?_, by omega, h₂, fun x hx₁ hx₂ => ?_, h₄⟩
      · rw [skipUsed, hread]
        simpa [hvp, bind, Except.bind] using hw
      · by_cases hxv : x = v
        · exact hxv ▸ hvp
        · exact h₃ x (by omega) hx₂
    · refine ⟨v, ?_, le_rfl, by omega, fun x h₁ h₂ => by omega, fun _ => hvp⟩
      rw [skipUsed, hread]
      simp [hvp, bind, Except.bind, pure, Except.pure]

/-- The images of a complete assignment are copied to the caller's array. -/
theorem writeImages_spec {g : InjCoroutine} {out : Ptr ℤ} (ha : g.a.cells.length = k)
    (hout : out.cells.length = k) :
    forRange k (fun i out => do
      let v ← g.a.read i
      out.write i (castInt v)) out = .ok ⟨out.addr, g.a.cells.map castInt⟩ := by
  have hlen : (g.a.cells.map castInt).length = k := by rw [List.length_map, ha]
  rw [← hlen]
  refine Ptr.fill_spec (fun i s hi => ?_) (hout.trans hlen.symm)
  have hread := List.getElem?_eq_getElem (show i < g.a.cells.length by simpa using hi)
  rw [Ptr.read_eq_ok.mpr hread, List.getElem_map]
  rfl

/-! ### The last chosen value -/

/-- The last of the chosen values, apart from the others. -/
theorem SearchInv.chosen_last {g : InjCoroutine} (hI : SearchInv n k g) (hpos : 0 < g.pos) :
    ∃ x, g.a.cells[g.pos - 1]? = some x ∧ x < n ∧
      g.chosen = g.a.cells.take (g.pos - 1) ++ [x] ∧ x ∉ g.a.cells.take (g.pos - 1) := by
  have hlt : g.pos - 1 < g.a.cells.length := by
    have h := hI.pos_le
    rw [hI.a_len]
    omega
  have hx := List.getElem?_eq_getElem hlt
  have hsplit : g.chosen = g.a.cells.take (g.pos - 1) ++ [g.a.cells[g.pos - 1]] := by
    have hlast := List.take_add_one (l := g.a.cells) (i := g.pos - 1)
    rwa [show g.pos - 1 + 1 = g.pos by omega, hx] at hlast
  have hnd := hI.chosen_nodup
  rw [hsplit] at hnd
  refine ⟨_, hx, hI.chosen_lt _ ?_, hsplit, fun h => ?_⟩
  · rw [hsplit]
    exact List.mem_append_right _ (List.mem_singleton.mpr rfl)
  · exact List.disjoint_of_nodup_append hnd h (List.mem_singleton.mpr rfl)

/-- **Stepping back** one level: the last chosen value is released. Both the
yield and the backtrack of `inj_next` do this, the latter after it has reset the
position it leaves. -/
theorem SearchInv.stepBack {g : InjCoroutine} (hI : SearchInv n k g) (hpos : 0 < g.pos)
    {x : ℕ} (hx : g.a.cells[g.pos - 1]? = some x) {cells : List ℕ} (hlen : cells.length = k)
    (hlow : ∀ i < g.pos, cells[i]? = g.nextc.cells[i]?)
    (hhigh : ∀ i, g.pos ≤ i → i < k → cells[i]? = some 0) :
    SearchInv n k { g with
      nextc := { g.nextc with cells := cells }
      pos := g.pos - 1
      used := { g.used with cells := g.used.cells.set x 0 } } := by
  obtain ⟨x', hx', hxn, hsplit, hxnot⟩ := hI.chosen_last hpos
  obtain rfl : x' = x := Option.some.inj (hx'.symm.trans hx)
  -- the candidate to resume from is the one after the released value
  have hnext : cells[g.pos - 1]? = some (x' + 1) := by
    rw [hlow _ (by omega), hI.nextc_chosen _ (by omega), hx]
    rfl
  constructor
  case n_eq => exact hI.n_eq
  case k_eq => exact hI.k_eq
  case not_done => exact hI.not_done
  case a_len => exact hI.a_len
  case nextc_len => exact hlen
  case used_len => simpa using hI.used_len
  case pos_le => exact Nat.le_trans (Nat.sub_le _ 1) hI.pos_le
  case chosen_nodup =>
    have hnd := hI.chosen_nodup
    rw [hsplit] at hnd
    exact (List.nodup_append.mp hnd).1
  case chosen_lt =>
    intro v hv
    exact hI.chosen_lt v (by rw [hsplit]; exact List.mem_append_left _ hv)
  case used_eq =>
    intro v hv
    change (g.used.cells.set x' 0)[v]? = some (if v ∈ g.a.cells.take (g.pos - 1) then 1 else 0)
    by_cases hvx : v = x'
    · rw [hvx, if_neg hxnot, List.getElem?_set_self (by rw [hI.used_len]; exact hxn)]
    · -- any other value is in use as before
      rw [List.getElem?_set_ne (Ne.symm hvx), hI.used_eq v hv, hsplit]
      simp [hvx]
  case nextc_chosen =>
    intro i hi
    change i < g.pos - 1 at hi
    change cells[i]? = (g.a.cells[i]?).map (· + 1)
    rw [hlow i (by omega), hI.nextc_chosen i (by omega)]
  case nextc_le => exact fun _ => ⟨x' + 1, hnext, hxn⟩
  case nextc_above =>
    intro i h₁ h₂
    change g.pos - 1 < i at h₁
    exact hhigh i (by omega) h₂

/-! ### A value chosen -/

/-- The chosen values once `v` is written at the current position. -/
theorem SearchInv.take_set {g : InjCoroutine} (hI : SearchInv n k g) (hpos : g.pos < k) (v : ℕ) :
    (g.a.cells.set g.pos v).take (g.pos + 1) = g.chosen ++ [v] := by
  rw [List.take_add_one, List.getElem?_set_self (by rw [hI.a_len]; exact hpos),
    List.take_set_of_le (le_refl _)]
  rfl

/-- The candidates of the next position are already at their start. -/
theorem SearchInv.reset_next {g : InjCoroutine} (hI : SearchInv n k g) (c : ℕ) :
    (g.nextc.cells.set g.pos c).set (g.pos + 1) 0 = g.nextc.cells.set g.pos c := by
  by_cases hnext : g.pos + 1 < k
  · refine List.ext_getElem? fun i => ?_
    by_cases hi : g.pos + 1 = i
    · subst hi
      rw [List.getElem?_set_self (by rw [List.length_set, hI.nextc_len]; exact hnext),
        List.getElem?_set_ne (by omega), hI.nextc_above _ (by omega) hnext]
    · rw [List.getElem?_set_ne hi]
  · exact List.set_eq_of_length_le (by rw [List.length_set, hI.nextc_len]; omega)

/-- **Stepping forward** one level, with an unused value `v` at the position that
is left. -/
theorem SearchInv.stepForward {g : InjCoroutine} (hI : SearchInv n k g) (hpos : g.pos < k)
    {v : ℕ} (hv : v < n) (hvnot : v ∉ g.chosen) :
    SearchInv n k { g with
      a := { g.a with cells := g.a.cells.set g.pos v }
      used := { g.used with cells := g.used.cells.set v 1 }
      nextc := { g.nextc with cells := g.nextc.cells.set g.pos (v + 1) }
      pos := g.pos + 1 } := by
  have hposa : g.pos < g.a.cells.length := by rw [hI.a_len]; exact hpos
  have hposn : g.pos < g.nextc.cells.length := by rw [hI.nextc_len]; exact hpos
  have hvu : v < g.used.cells.length := by rw [hI.used_len]; exact hv
  have hchosen := hI.take_set hpos v
  constructor
  case n_eq => exact hI.n_eq
  case k_eq => exact hI.k_eq
  case not_done => exact hI.not_done
  case a_len => simpa using hI.a_len
  case nextc_len => simpa using hI.nextc_len
  case used_len => simpa using hI.used_len
  case pos_le => exact hpos
  case chosen_nodup =>
    change ((g.a.cells.set g.pos v).take (g.pos + 1)).Nodup
    rw [hchosen, List.nodup_append]
    refine ⟨hI.chosen_nodup, List.nodup_singleton v, fun a ha b hb h => hvnot ?_⟩
    rw [← List.mem_singleton.mp hb, ← h]
    exact ha
  case chosen_lt =>
    intro w hw
    change w ∈ (g.a.cells.set g.pos v).take (g.pos + 1) at hw
    rw [hchosen] at hw
    rcases List.mem_append.mp hw with hw | hw
    · exact hI.chosen_lt w hw
    · rw [List.mem_singleton.mp hw]
      exact hv
  case used_eq =>
    intro w hw
    change (g.used.cells.set v 1)[w]?
      = some (if w ∈ (g.a.cells.set g.pos v).take (g.pos + 1) then 1 else 0)
    rw [hchosen]
    by_cases hwv : w = v
    · subst hwv
      rw [List.getElem?_set_self hvu]
      simp
    · rw [List.getElem?_set_ne (Ne.symm hwv), hI.used_eq w hw]
      simp [hwv]
  case nextc_chosen =>
    intro i hi
    change i < g.pos + 1 at hi
    change (g.nextc.cells.set g.pos (v + 1))[i]? = ((g.a.cells.set g.pos v)[i]?).map (· + 1)
    by_cases hip : g.pos = i
    · -- the position that is left stands one past `v`
      subst hip
      rw [List.getElem?_set_self hposn, List.getElem?_set_self hposa]
      rfl
    · rw [List.getElem?_set_ne hip, List.getElem?_set_ne hip]
      exact hI.nextc_chosen i (by omega)
  case nextc_le =>
    intro hnext
    change g.pos + 1 < k at hnext
    refine ⟨0, ?_, Nat.zero_le n⟩
    change (g.nextc.cells.set g.pos (v + 1))[g.pos + 1]? = some 0
    rw [List.getElem?_set_ne (by omega), hI.nextc_above _ (by omega) hnext]
  case nextc_above =>
    intro i h₁ h₂
    change g.pos + 1 < i at h₁
    change (g.nextc.cells.set g.pos (v + 1))[i]? = some 0
    rw [List.getElem?_set_ne (by omega), hI.nextc_above _ (by omega) h₂]

/-- **At the first position** nothing is chosen, so once that position is reset the
scratch is as `inj_init` left it. -/
theorem SearchInv.exhausted {g : InjCoroutine} (hI : SearchInv n k g) (hpos : g.pos < k)
    (h0 : g.pos = 0) : Exhausted n k { g with
      nextc := { g.nextc with cells := g.nextc.cells.set g.pos 0 }
      done := 1 } := by
  have hchosen : g.chosen = [] := by
    unfold InjCoroutine.chosen
    rw [h0, List.take_zero]
  constructor
  case k_eq => exact hI.k_eq
  case done_eq => rfl
  case pos_eq => exact h0
  case used_zero =>
    refine List.ext_getElem? fun v => ?_
    by_cases hv : v < n
    · rw [hI.used_eq v hv, hchosen, List.getElem?_replicate, if_pos hv]
      simp
    · rw [List.getElem?_eq_none (by rw [hI.used_len]; omega),
        List.getElem?_eq_none (by simpa using hv)]
  case nextc_zero =>
    refine List.ext_getElem? fun i => ?_
    change (g.nextc.cells.set g.pos 0)[i]? = _
    by_cases hik : i < k
    · rw [List.getElem?_replicate, if_pos hik]
      by_cases hip : g.pos = i
      · subst hip
        exact List.getElem?_set_self (by rw [hI.nextc_len]; exact hpos)
      · rw [List.getElem?_set_ne hip]
        exact hI.nextc_above i (by omega) hik
    · rw [List.getElem?_eq_none (by rw [List.length_set, hI.nextc_len]; omega),
        List.getElem?_eq_none (by simpa using hik)]

/-! ### One iteration -/

/-- **Yield.** With all positions assigned, the assignment is written out and the
search steps back one level. -/
theorem injBody_yield {g : InjCoroutine} (hI : SearchInv n k g) (hk : 0 < k)
    (hpos : g.pos = k) :
    ∃ g' x, (∀ out : Ptr ℤ, out.cells.length = k → injBody out g
        = .ok (.leave (1, some g', ⟨out.addr, g.a.cells.map castInt⟩))) ∧
      SearchInv n k g' ∧ g'.pos + 1 = k ∧ g'.a = g.a ∧ g.chosen = g'.chosen ++ [x] ∧
      g'.nextc.cells[g'.pos]? = some (x + 1) := by
  obtain ⟨x, hx, hxn, hsplit, -⟩ := hI.chosen_last (by omega)
  refine ⟨{ g with pos := g.pos - 1, used := { g.used with cells := g.used.cells.set x 0 } },
    x, ?_, ?_, ?_, rfl, hsplit, ?_⟩
  · intro out hout
    rw [injBody, if_pos (hpos.trans hI.k_eq.symm), hI.k_eq, writeImages_spec hI.a_len hout]
    rw [hpos] at hx
    simp only [bind, Except.bind, Ptr.read_eq_ok.mpr hx,
      Ptr.write_of_lt 0 (show x < g.used.cells.length by rw [hI.used_len]; exact hxn), hpos]
    rfl
  · exact hI.stepBack (by omega) hx hI.nextc_len (fun _ _ => rfl) fun i h₁ h₂ => by omega
  · change g.pos - 1 + 1 = k
    omega
  · change g.nextc.cells[g.pos - 1]? = some (x + 1)
    rw [hI.nextc_chosen _ (by omega), hx]
    rfl

/-- **Choose.** The first unused candidate is taken at the current position and
the search moves to the next one, whose candidates start over. -/
theorem injBody_choose {g : InjCoroutine} (hI : SearchInv n k g)
    (hpos : g.pos < k) {c v : ℕ} (hc : g.nextc.cells[g.pos]? = some c)
    (hscan : skipUsed g.used (n - c) c = .ok v) (hv : v < n) (hvnot : v ∉ g.chosen) :
    ∃ g', (∀ out, injBody out g = .ok (.again g')) ∧ SearchInv n k g' ∧
      g'.pos = g.pos + 1 ∧ g'.chosen = g.chosen ++ [v] ∧
      (g'.pos < k → g'.nextc.cells[g'.pos]? = some 0) := by
  have hposa : g.pos < g.a.cells.length := by rw [hI.a_len]; exact hpos
  have hposn : g.pos < g.nextc.cells.length := by rw [hI.nextc_len]; exact hpos
  have hvu : v < g.used.cells.length := by rw [hI.used_len]; exact hv
  refine ⟨{ g with
    a := { g.a with cells := g.a.cells.set g.pos v }
    used := { g.used with cells := g.used.cells.set v 1 }
    nextc := { g.nextc with cells := g.nextc.cells.set g.pos (v + 1) }
    pos := g.pos + 1 }, ?_, hI.stepForward hpos hv hvnot, rfl, hI.take_set hpos v, ?_⟩
  · -- the body runs without a fault
    intro out
    have hne : ¬ g.pos = g.k := by rw [hI.k_eq]; omega
    rw [injBody, if_neg hne]
    simp only [bind, Except.bind, Ptr.read_eq_ok.mpr hc, hI.n_eq, hscan, if_pos hv,
      Ptr.write_of_lt _ hposa, Ptr.write_of_lt _ hvu, Ptr.write_of_lt _ hposn]
    by_cases hnext : g.pos + 1 < g.k
    · -- the next position is reset, which it did not need
      rw [if_pos hnext, Ptr.write_of_lt 0 (by simpa [hI.nextc_len, hI.k_eq] using hnext)]
      simp only [hI.reset_next (v + 1)]
      rfl
    · rw [if_neg hnext]
      rfl
  · intro hnext
    change g.pos + 1 < k at hnext
    change (g.nextc.cells.set g.pos (v + 1))[g.pos + 1]? = some 0
    rw [List.getElem?_set_ne (by omega), hI.nextc_above _ (by omega) hnext]

/-- **Backtrack.** With no candidate left at a position after the first, that
position is reset and the search steps back one level. -/
theorem injBody_backtrack {g : InjCoroutine} (hI : SearchInv n k g)
    (hpos : g.pos < k) {c : ℕ} (hc : g.nextc.cells[g.pos]? = some c)
    (hscan : skipUsed g.used (n - c) c = .ok n) (h0 : 0 < g.pos) :
    ∃ g' x, (∀ out, injBody out g = .ok (.again g')) ∧ SearchInv n k g' ∧
      g'.pos + 1 = g.pos ∧ g.chosen = g'.chosen ++ [x] ∧
      g'.nextc.cells[g'.pos]? = some (x + 1) := by
  obtain ⟨x, hx, hxn, hsplit, -⟩ := hI.chosen_last h0
  have hposn : g.pos < g.nextc.cells.length := by rw [hI.nextc_len]; exact hpos
  refine ⟨{ g with
    nextc := { g.nextc with cells := g.nextc.cells.set g.pos 0 }
    pos := g.pos - 1
    used := { g.used with cells := g.used.cells.set x 0 } }, x, ?_, ?_, ?_, hsplit, ?_⟩
  · -- the scan ended at `n`, so the body takes its last branch
    intro out
    have hne : ¬ g.pos = g.k := by rw [hI.k_eq]; omega
    rw [injBody, if_neg hne]
    simp only [bind, Except.bind, Ptr.read_eq_ok.mpr hc, hI.n_eq, hscan, lt_irrefl, if_false,
      Ptr.write_of_lt 0 hposn, if_neg (show ¬ g.pos = 0 by omega), Ptr.read_eq_ok.mpr hx,
      Ptr.write_of_lt 0 (show x < g.used.cells.length by rw [hI.used_len]; exact hxn)]
    rfl
  · refine hI.stepBack h0 hx (by simpa using hI.nextc_len) (fun i hi => ?_) fun i h₁ h₂ => ?_
    · exact List.getElem?_set_ne (by omega)
    · -- the position left is reset, and those after it were at `0` before
      by_cases hip : g.pos = i
      · subst hip
        exact List.getElem?_set_self hposn
      · rw [List.getElem?_set_ne hip]
        exact hI.nextc_above i (by omega) h₂
  · change g.pos - 1 + 1 = g.pos
    omega
  · change (g.nextc.cells.set g.pos 0)[g.pos - 1]? = some (x + 1)
    rw [List.getElem?_set_ne (by omega), hI.nextc_chosen _ (by omega), hx]
    rfl

/-- **Finish.** With no candidate left at the first position, the generator is
done, its scratch back where `inj_init` left it. -/
theorem injBody_finish {g : InjCoroutine} (hI : SearchInv n k g)
    (hpos : g.pos < k) {c : ℕ} (hc : g.nextc.cells[g.pos]? = some c)
    (hscan : skipUsed g.used (n - c) c = .ok n) (h0 : g.pos = 0) :
    ∃ g', (∀ out, injBody out g = .ok (.leave (0, some g', out))) ∧ Exhausted n k g' := by
  have hposn : g.pos < g.nextc.cells.length := by rw [hI.nextc_len]; exact hpos
  refine ⟨{ g with nextc := { g.nextc with cells := g.nextc.cells.set g.pos 0 }, done := 1 },
    ?_, hI.exhausted hpos h0⟩
  intro out
  have hne : ¬ g.pos = g.k := by rw [hI.k_eq]; omega
  rw [injBody, if_neg hne]
  simp only [bind, Except.bind, Ptr.read_eq_ok.mpr hc, hI.n_eq, hscan, lt_irrefl, if_false,
    Ptr.write_of_lt 0 hposn, if_pos h0]
  rfl

/-- **One iteration** below the last level, on the candidate `c` of the current
position: it chooses the first unused value from `c` on, and when there is none
it backtracks or, at the first position, finishes. -/
theorem injBody_search {g : InjCoroutine} (hI : SearchInv n k g)
    (hpos : g.pos < k) {c : ℕ} (hc : g.nextc.cells[g.pos]? = some c) :
    (∃ v g', c ≤ v ∧ v < n ∧ v ∉ g.chosen ∧ (∀ x, c ≤ x → x < v → x ∈ g.chosen) ∧
      (∀ out, injBody out g = .ok (.again g')) ∧ SearchInv n k g' ∧ g'.pos = g.pos + 1 ∧
      g'.chosen = g.chosen ++ [v] ∧ (g'.pos < k → g'.nextc.cells[g'.pos]? = some 0)) ∨
    ((∀ x, c ≤ x → x < n → x ∈ g.chosen) ∧
      ((∃ g' x, (∀ out, injBody out g = .ok (.again g')) ∧ SearchInv n k g' ∧
          g'.pos + 1 = g.pos ∧ g.chosen = g'.chosen ++ [x] ∧
          g'.nextc.cells[g'.pos]? = some (x + 1)) ∨
        (g.pos = 0 ∧ ∃ g', (∀ out, injBody out g = .ok (.leave (0, some g', out))) ∧
          Exhausted n k g'))) := by
  obtain ⟨c', hc', hcn⟩ := hI.nextc_le hpos
  obtain rfl : c' = c := Option.some.inj (hc'.symm.trans hc)
  obtain ⟨v, hscan, hcv, hvn, hskip, hvnot⟩ :=
    skipUsed_spec hI.used_eq (n - c') c' (by omega)
  by_cases hv : v < n
  · obtain ⟨g', h₁, h₂, h₃, h₄, h₅⟩ := injBody_choose hI hpos hc hscan hv (hvnot hv)
    exact Or.inl ⟨v, g', hcv, hv, hvnot hv, hskip, h₁, h₂, h₃, h₄, h₅⟩
  · -- the scan ran to the end
    obtain rfl : v = n := by omega
    refine Or.inr ⟨hskip, ?_⟩
    rcases Nat.eq_zero_or_pos g.pos with h0 | h0
    · exact Or.inr ⟨h0, injBody_finish hI hpos hc hscan h0⟩
    · exact Or.inl (injBody_backtrack hI hpos hc hscan h0)

/-- **Step lemma.** An iteration from a state of the search stays within bounds.
It goes round again in a state of the search, or leaves with a yield in a state
of the search below the last level, or leaves with the scratch cleared. -/
theorem injBody_cases {g : InjCoroutine} {out : Ptr ℤ} (hI : SearchInv n k g) (hk : 0 < k)
    (hout : out.cells.length = k) :
    (∃ g', injBody out g = .ok (.again g') ∧ SearchInv n k g') ∨
    (∃ g' out', injBody out g = .ok (.leave (1, some g', out')) ∧ SearchInv n k g' ∧
      g'.pos < k) ∨
    (∃ g', injBody out g = .ok (.leave (0, some g', out)) ∧ Exhausted n k g') := by
  rcases Nat.lt_or_ge g.pos k with hpos | hpos
  · -- a search for the next candidate
    obtain ⟨c, hc, -⟩ := hI.nextc_le hpos
    rcases injBody_search hI hpos hc with ⟨v, g', -, -, -, -, hb, hI', -⟩ | ⟨-, h⟩
    · exact Or.inl ⟨g', hb out, hI'⟩
    · rcases h with ⟨g', x, hb, hI', -⟩ | ⟨-, g', hb, hE⟩
      · exact Or.inl ⟨g', hb out, hI'⟩
      · exact Or.inr (Or.inr ⟨g', hb out, hE⟩)
  · -- a yield
    obtain ⟨g', x, hb, hI', hpos', -⟩ := injBody_yield hI hk (Nat.le_antisymm hI.pos_le hpos)
    exact Or.inr (Or.inl ⟨g', _, hb out hout, hI', by omega⟩)

/-! ### Initialisation -/

/-- The arrays a caller passes to `inj_init` have the documented lengths: `k`,
`k` and `n`. Nothing is asked when one of them is `NULL`, since the generator
then allocates. -/
def InjStorage (n k : ℕ) (aStorage nextcStorage usedStorage : Ptr ℕ) : Prop :=
  aStorage.addr ≠ 0 ∧ nextcStorage.addr ≠ 0 ∧ usedStorage.addr ≠ 0 →
    aStorage.cells.length = k ∧ nextcStorage.cells.length = k ∧ usedStorage.cells.length = n

/-- Clearing the next cell of an array whose first `i` cells are cleared. -/
theorem set_replicate_append_drop {cells : List ℕ} {i : ℕ} (hi : i < cells.length) :
    (List.replicate i 0 ++ cells.drop i).set i 0
      = List.replicate (i + 1) 0 ++ cells.drop (i + 1) := by
  rw [List.set_append_right _ _ (by simp), List.length_replicate, Nat.sub_self,
    List.drop_eq_getElem_cons hi, List.set_cons_zero, List.replicate_succ',
    List.append_assoc, List.singleton_append]

/-- The struct when `used` and the first `i` cells of the two other arrays are cleared. -/
def InjCoroutine.clearedTo (g : InjCoroutine) (i : ℕ) : InjCoroutine :=
  { g with
    a := { g.a with cells := List.replicate i 0 ++ g.a.cells.drop i }
    nextc := { g.nextc with cells := List.replicate i 0 ++ g.nextc.cells.drop i }
    used := { g.used with cells := List.replicate g.n 0 } }

/-- An iteration clears two cells. -/
theorem InjCoroutine.clearedTo_succ {g : InjCoroutine} {i : ℕ} (ha : i < g.a.cells.length)
    (hnextc : i < g.nextc.cells.length) :
    (do
      let a ← (g.clearedTo i).a.write i 0
      let nextc ← (g.clearedTo i).nextc.write i 0
      return ({ g.clearedTo i with a, nextc } : InjCoroutine)) = .ok (g.clearedTo (i + 1)) := by
  unfold clearedTo
  simp only [bind, Except.bind]
  rw [Ptr.write_of_lt 0 (by simp; omega), set_replicate_append_drop ha]
  simp only
  rw [Ptr.write_of_lt 0 (by simp; omega), set_replicate_append_drop hnextc]
  rfl

/-- `injClear` zeroes the three arrays, whatever they held. -/
theorem injClear_spec {g : InjCoroutine} (ha : g.a.cells.length = g.k)
    (hnextc : g.nextc.cells.length = g.k) (hused : g.used.cells.length = g.n) :
    injClear g = .ok (1, some { g with
      a := { g.a with cells := List.replicate g.k 0 }
      nextc := { g.nextc with cells := List.replicate g.k 0 }
      used := { g.used with cells := List.replicate g.n 0 } }) := by
  have hstep : ∀ i s, i < g.k → s = g.clearedTo i → ∃ s', (do
      let a ← s.a.write i 0
      let nextc ← s.nextc.write i 0
      return ({ s with a, nextc } : InjCoroutine)) = .ok s' ∧ s' = g.clearedTo (i + 1) := by
    rintro i s hi rfl
    exact ⟨_, InjCoroutine.clearedTo_succ (by omega) (by omega), rfl⟩
  -- after `i` iterations the first `i` cells of `a` and `nextc` are cleared
  obtain ⟨s, hs, rfl⟩ := forRange_spec (fun i s => s = g.clearedTo i) rfl hstep
  -- `memset` overwrites all of `used`
  have hmem : g.used.memset 0 g.n = .ok { g.used with cells := List.replicate g.n 0 } := by
    rw [Ptr.memset_of_le 0 (by omega), List.drop_eq_nil_of_le (by omega), List.append_nil]
  unfold injClear
  rw [hmem]
  simp only [bind, Except.bind] at hs ⊢
  unfold InjCoroutine.clearedTo at hs
  simp only [List.replicate_zero, List.nil_append, List.drop_zero] at hs
  rw [hs, List.drop_eq_nil_of_le (by omega), List.drop_eq_nil_of_le (by omega)]
  simp only [List.append_nil]
  rfl

/-- On arrays of the right lengths `injClear` prepares the root of the search. -/
theorem injClear_root {s g₀ : InjCoroutine} (hk : 1 ≤ k) (hn : s.n = n) (hk' : s.k = k)
    (hpos : s.pos = 0) (hdone : s.done = 0) (ha : s.a.cells.length = k)
    (hc : s.nextc.cells.length = k) (hu : s.used.cells.length = n)
    (hs : injClear s = .ok (1, some g₀)) :
    SearchInv n k g₀ ∧ g₀.pos = 0 ∧ g₀.nextc.cells[0]? = some 0 := by
  rw [injClear_spec (ha.trans hk'.symm) (hc.trans hk'.symm) (hu.trans hn.symm)] at hs
  obtain rfl := Option.some.inj (Prod.mk.inj (Except.ok.inj hs)).2
  have hzero : (List.replicate s.k 0)[0]? = some 0 := by
    have hk0 : 0 < k := hk
    simp [hk', hk0]
  refine ⟨?_, hpos, hzero⟩
  constructor
  case n_eq => exact hn
  case k_eq => exact hk'
  case not_done => exact hdone
  case a_len => simpa using hk'
  case nextc_len => simpa using hk'
  case used_len => simpa using hn
  case pos_le => simp [hpos]
  case chosen_nodup => simp [InjCoroutine.chosen, hpos]
  case chosen_lt => simp [InjCoroutine.chosen, hpos]
  case used_eq =>
    intro v hv
    simp [InjCoroutine.chosen, hpos, hn, hv]
  case nextc_chosen =>
    intro i hi
    simp [hpos] at hi
  case nextc_le =>
    intro _
    refine ⟨0, ?_, Nat.zero_le n⟩
    rw [show s.pos = 0 from hpos]
    exact hzero
  case nextc_above =>
    intro i _ hik
    simp [hk', hik]

/-- **The first state.** After a successful `inj_init` with `1 ≤ k ≤ n` the search
stands at its root. -/
theorem injInit_spec {g g₀ : InjCoroutine} {a nextc used : Ptr ℕ} {heap : InjHeap}
    (hn : n < 2 ^ 64) (hk : 1 ≤ k) (hkn : k ≤ n) (hst : InjStorage n k a nextc used)
    (h : injInit (some g) n k a nextc used heap = .ok (1, some g₀)) :
    SearchInv n k g₀ ∧ g₀.pos = 0 ∧ g₀.nextc.cells[0]? = some 0 := by
  have hk0 : k ≠ 0 := by omega
  have hnk : ¬ k > n := by omega
  simp only [injInit, if_neg hk0, if_neg hnk] at h
  by_cases hcaller : a.addr ≠ 0 ∧ nextc.addr ≠ 0 ∧ used.addr ≠ 0
  · -- the caller's arrays
    rw [if_pos hcaller] at h
    obtain ⟨h₁, h₂, h₃⟩ := hst hcaller
    exact injClear_root hk rfl rfl rfl rfl h₁ h₂ h₃ h
  · -- allocated arrays, none of them `NULL`
    rw [if_neg hcaller] at h
    split at h
    · simp at h
    · next hok =>
      push Not at hok
      obtain ⟨h₁, h₂, h₃⟩ := hok
      have hsize : sizeMul n 1 = n := by
        unfold sizeMul
        omega
      obtain ⟨hspace, hlen₃⟩ := malloc_spec h₃
      obtain ⟨-, hlen₁⟩ := malloc_spec h₁
      obtain ⟨-, hlen₂⟩ := malloc_spec h₂
      -- `n` bytes fit the address space, so the byte count of the `k` cells does not wrap
      have hcells : sizeMul k sizeofSize / sizeofSize = k := by
        rw [hsize] at hspace
        unfold addressSpace at hspace
        unfold sizeMul sizeofSize
        omega
      exact injClear_root hk rfl rfl rfl rfl (hlen₁.trans hcells) (hlen₂.trans hcells)
        (hlen₃.trans (by rw [hsize, Nat.div_one])) h

/-! ### Runs of calls -/

/-- The states reached from `g₀` by completed calls of `inj_next`, each with its
own `out_images`: `NULL` or an array of length `k`. -/
inductive InjCalls (g₀ : InjCoroutine) : InjCoroutine → Prop
  | refl : InjCalls g₀ g₀
  | next {g g' : InjCoroutine} {fuel : ℕ} {out out' : Ptr ℤ} {r : ℤ} (h : InjCalls g₀ g)
      (hout : out.addr ≠ 0 → out.cells.length = g.k)
      (hcall : injNext fuel (some g) out = .ok (r, some g', out')) : InjCalls g₀ g'

/-- `h` is a head of the loop in a call of `inj_next` that follows completed
calls from `g₀`: the call passes its guards, so `out` is not `NULL` and the
generator is not done, and then iterates any number of times. -/
def InjHead (g₀ : InjCoroutine) (out : Ptr ℤ) (h : InjCoroutine) : Prop :=
  ∃ g, InjCalls g₀ g ∧ out.addr ≠ 0 ∧ out.cells.length = g.k ∧ g.done = 0 ∧
    Relation.ReflTransGen (Step (injBody out)) g h

/-- The state between two calls: suspended below the last level, or done. -/
def InjState (n k : ℕ) (g : InjCoroutine) : Prop :=
  (SearchInv n k g ∧ g.pos < k) ∨ Exhausted n k g

/-- The invariant holds at every head reached from a state that has it. -/
theorem SearchInv.heads {g h : InjCoroutine} {out : Ptr ℤ} (hI : SearchInv n k g) (hk : 0 < k)
    (hout : out.cells.length = k) (hgh : Relation.ReflTransGen (Step (injBody out)) g h) :
    SearchInv n k h := by
  refine invariant_of_step (fun s s' hs hstep => ?_) hI hgh
  have hb : injBody out s = .ok (.again s') := hstep
  rcases injBody_cases hs hk hout with ⟨g', h₁, h₂⟩ | ⟨g', out', h₁, -⟩ | ⟨g', h₁, -⟩
  · rw [h₁] at hb
    cases hb
    exact h₂
  · rw [h₁] at hb
    cases hb
  · rw [h₁] at hb
    cases hb

/-- A call that passes the guards of `inj_next` runs the loop. -/
theorem injNext_loop {g : InjCoroutine} {out : Ptr ℤ} (fuel : ℕ) (hk : g.k ≠ 0)
    (hout : out.addr ≠ 0) (hdone : g.done = 0) :
    injNext fuel (some g) out = forever .outOfFuel (injBody out) fuel g := by
  simp [injNext, hk, hout, hdone]

/-- A call on a generator that is done changes nothing. -/
theorem injNext_done {g : InjCoroutine} (fuel : ℕ) (out : Ptr ℤ) (hdone : g.done ≠ 0) :
    injNext fuel (some g) out = .ok (0, some g, out) := by
  simp [injNext, hdone]

/-- A call with `NULL` for `out_images` changes nothing. -/
theorem injNext_null {g : InjCoroutine} {out : Ptr ℤ} (fuel : ℕ) (hk : g.k ≠ 0)
    (hout : out.addr = 0) : injNext fuel (some g) out = .ok (0, some g, out) := by
  simp [injNext, hk, hout]

/-- **Every call preserves the state invariant.** -/
theorem InjState.next {g g' : InjCoroutine} {fuel : ℕ} {out out' : Ptr ℤ} {r : ℤ}
    (hS : InjState n k g) (hk : 0 < k) (hout : out.addr ≠ 0 → out.cells.length = k)
    (hcall : injNext fuel (some g) out = .ok (r, some g', out')) : InjState n k g' := by
  rcases hS with ⟨hI, hpos⟩ | hE
  · have hk0 : g.k ≠ 0 := by rw [hI.k_eq]; omega
    by_cases hnull : out.addr = 0
    · rw [injNext_null fuel hk0 hnull] at hcall
      cases hcall
      exact Or.inl ⟨hI, hpos⟩
    · -- the loop is left at a head, where the invariant holds
      rw [injNext_loop fuel hk0 hnull hI.not_done] at hcall
      obtain ⟨t, hgt, ht⟩ := forever_ok hcall
      rcases injBody_cases (hI.heads hk (hout hnull) hgt) hk (hout hnull) with
        ⟨s, h₁, -⟩ | ⟨s, out'', h₁, h₂, h₃⟩ | ⟨s, h₁, h₂⟩
      · rw [h₁] at ht
        cases ht
      · rw [h₁] at ht
        cases ht
        exact Or.inl ⟨h₂, h₃⟩
      · rw [h₁] at ht
        cases ht
        exact Or.inr h₂
  · rw [injNext_done fuel out (by rw [hE.done_eq]; decide)] at hcall
    cases hcall
    exact Or.inr hE

theorem InjState.k_eq {g : InjCoroutine} (hS : InjState n k g) : g.k = k :=
  hS.elim (fun h => h.1.k_eq) fun h => h.k_eq

/-- A successful `inj_init` suspends the search at its root. -/
theorem injInit_state {g g₀ : InjCoroutine} {a nextc used : Ptr ℕ} {heap : InjHeap}
    (hn : n < 2 ^ 64) (hk : 1 ≤ k) (hkn : k ≤ n) (hst : InjStorage n k a nextc used)
    (hinit : injInit (some g) n k a nextc used heap = .ok (1, some g₀)) : InjState n k g₀ := by
  obtain ⟨hI, hpos, -⟩ := injInit_spec hn hk hkn hst hinit
  exact Or.inl ⟨hI, by omega⟩

/-- **Run lemma.** Every state between calls satisfies the state invariant. -/
theorem InjCalls.state {g₀ g : InjCoroutine} (h : InjCalls g₀ g) (hk : 0 < k)
    (h₀ : InjState n k g₀) : InjState n k g := by
  induction h with
  | refl => exact h₀
  | next _ hout hcall ih => exact ih.next hk (by rw [ih.k_eq] at hout; exact hout) hcall

/-- **The search-state invariant of the injection generator.** After a successful
`inj_init` with `1 ≤ k ≤ n`, the search invariant holds at every loop head of
every call, the iteration from there accesses the arrays within bounds, and a
generator that becomes done has its scratch back in the initial state. -/
theorem injNext_searchInv {g g₀ : InjCoroutine} {a nextc used : Ptr ℕ} {heap : InjHeap}
    (hn : n < 2 ^ 64) (hk : 1 ≤ k) (hkn : k ≤ n) (hst : InjStorage n k a nextc used)
    (hinit : injInit (some g) n k a nextc used heap = .ok (1, some g₀)) :
    (∀ out h, InjHead g₀ out h → SearchInv n k h ∧ ∃ r, injBody out h = .ok r) ∧
      ∀ g', InjCalls g₀ g' → g'.done ≠ 0 → Exhausted n k g' := by
  have h₀ := injInit_state hn hk hkn hst hinit
  constructor
  · rintro out h ⟨g', hcalls, -, hout, hdone, hheads⟩
    have hS := hcalls.state hk h₀
    rw [hS.k_eq] at hout
    rcases hS with ⟨hI, -⟩ | hE
    · have hIh := hI.heads hk hout hheads
      refine ⟨hIh, ?_⟩
      rcases injBody_cases hIh hk hout with ⟨_, h₁, -⟩ | ⟨_, _, h₁, -⟩ | ⟨_, h₁, -⟩ <;>
        exact ⟨_, h₁⟩
    · -- a call on a generator that is done does not reach the loop
      exact absurd hdone (by rw [hE.done_eq]; decide)
  · intro g' hcalls hdone
    rcases hcalls.state hk h₀ with ⟨hI, -⟩ | hE
    · exact absurd hI.not_done hdone
    · exact hE

/-- The invariant at work for `n = 3` and `k = 2` on caller storage. -/
theorem injNext_searchInv_three_two :
    let g : InjCoroutine := ⟨9, 9, .null, .null, .null, 9, 9, 9, 9⟩
    let g₀ : InjCoroutine := ⟨3, 2, ⟨1, [0, 0]⟩, ⟨2, [0, 0]⟩, ⟨3, [0, 0, 0]⟩, 0, 0, 0, 0⟩
    injInit (some g) 3 2 ⟨1, [5, 6]⟩ ⟨2, [7, 8]⟩ ⟨3, [1, 1, 1]⟩ ⟨.failed, .failed, .failed⟩
        = .ok (1, some g₀) ∧
      ∀ out h, InjHead g₀ out h → SearchInv 3 2 h ∧ ∃ r, injBody out h = .ok r := by
  intro g g₀
  have hinit : injInit (some g) 3 2 ⟨1, [5, 6]⟩ ⟨2, [7, 8]⟩ ⟨3, [1, 1, 1]⟩
      ⟨.failed, .failed, .failed⟩ = .ok (1, some g₀) := rfl
  exact ⟨hinit, (injNext_searchInv (n := 3) (k := 2) (by decide) (by decide) (by decide)
    (fun _ => ⟨rfl, rfl, rfl⟩) hinit).1⟩

end Arboql
