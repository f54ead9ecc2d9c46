import Arboql.Generators.InjEnumeration

/-!
# The course of one call of the injection generator

A call of `inj_next` goes up zero or more levels, and then it either reports the
end or goes down only, to a yield (`Course`). A search whose candidates start
over at its level only descends, since with `k ≤ n` every level has an unused
value (`descends`), and a choice puts the search in such a state. So on a
suspended state a call backtracks for as long as levels have no candidate left
and changes direction at most once (`courses`). With fewer than `k` levels to go
up and at most `k` to go down it takes at most `2 k` iterations.
-/

namespace Arboql

open Loops

/-- What an iteration of the loop of `inj_next` does. -/
inductive IterKind
  /-- A value is chosen and the search moves down a level. -/
  | choose
  /-- No candidate is left and the search moves up a level. -/
  | backtrack
  /-- A complete assignment is written out. -/
  | yield
  /-- No candidate is left at the first level. -/
  | finish
  deriving DecidableEq, Repr

/-- The kind of an iteration, from the state at its head and what the body does
there. -/
def iterKind (g : InjCoroutine) : Flow InjCoroutine (ℤ × Option InjCoroutine × Ptr ℤ) → IterKind
  | .again g' => if g.pos < g'.pos then .choose else .backtrack
  | .leave r => if r.1 = 1 then .yield else .finish

/-- **The course of a call** that leaves the loop with `r`: up some levels and then
the end, or up some levels, down some levels and then a yield. -/
inductive Course (out : Ptr ℤ) : List IterKind → ℤ × Option InjCoroutine × Ptr ℤ → Prop
  | finish (b : ℕ) {g' : InjCoroutine} (hdone : g'.done = 1) :
      Course out (List.replicate b .backtrack ++ [.finish]) (0, some g', out)
  | yield (b c : ℕ) {g' : InjCoroutine} {out' : Ptr ℤ} (hdone : g'.done = 0) :
      Course out (List.replicate b .backtrack ++ List.replicate c .choose ++ [.yield])
        (1, some g', out')

variable {n k : ℕ}

/-- One more level up at the start. -/
theorem Course.backtrack {out : Ptr ℤ} {kinds : List IterKind}
    {r : ℤ × Option InjCoroutine × Ptr ℤ} (h : Course out kinds r) :
    Course out (.backtrack :: kinds) r := by
  cases h with
  | finish b hdone => exact Course.finish (b + 1) hdone
  | yield b c hdone => exact Course.yield (b + 1) c hdone

/-- **Down only.** A search whose candidates start over at its level chooses a
value at every level left and then yields. -/
theorem descends (hk : 0 < k) (hkn : k ≤ n) {out : Ptr ℤ} (hout : out.cells.length = k) {d : ℕ}
    {g : InjCoroutine} (hd : g.pos + d = k) (hI : SearchInv n k g)
    (h0 : g.pos < k → g.nextc.cells[g.pos]? = some 0) :
    ∃ g' out', g'.done = 0 ∧
      Trace (injBody out) iterKind g (List.replicate d .choose ++ [.yield])
        (1, some g', out') := by
  induction d generalizing g with
  | zero =>
    -- the assignment is complete
    obtain ⟨g', x, hb, hI', -⟩ := injBody_yield hI hk hd
    exact ⟨g', _, hI'.not_done, .leave (hb out hout)⟩
  | succ d ih =>
    have hpos : g.pos < k := by omega
    rcases injBody_search hI hpos (h0 hpos) with
      ⟨v, g', -, -, -, -, hb, hI', hpos', -, h0'⟩ | ⟨hall, -⟩
    · obtain ⟨g'', out', hdone, ht⟩ := ih (by omega) hI' h0'
      refine ⟨g'', out', hdone, ?_⟩
      rw [List.replicate_succ, List.cons_append]
      exact ht.head (if_pos (by omega)) (hb out)
    · -- no dead end: some value is unused, and a scan from `0` cannot miss it
      obtain ⟨v, hv, hvnot⟩ := hI.exists_unused hkn hpos
      exact absurd (hall v (Nat.zero_le v) hv) hvnot

/-- **Up, then down.** From a suspended state at depth `j` a call takes at most
`k + j + 1` iterations, in the order of a course. -/
theorem courses (hkn : k ≤ n) {out : Ptr ℤ} (hout : out.cells.length = k) {j : ℕ}
    {g : InjCoroutine} (hj : g.pos = j) (hjk : j < k) (hI : SearchInv n k g) :
    ∃ kinds r, Trace (injBody out) iterKind g kinds r ∧ kinds.length ≤ k + j + 1 ∧
      Course out kinds r := by
  -- on the depth: after a backtrack the call goes on one level up
  induction j using Nat.strong_induction_on generalizing g with
  | _ j ih =>
    have hpos : g.pos < k := by omega
    obtain ⟨c, hc, -⟩ := hI.nextc_le hpos
    rcases injBody_search hI hpos hc with
      ⟨v, g', -, -, -, -, hb, hI', hpos', -, h0'⟩ | ⟨-, hback | hfin⟩
    · -- choose, and from there on only descend
      obtain ⟨g'', out', hdone, ht⟩ := descends (by omega) hkn hout
        (show g'.pos + (k - j - 1) = k by omega) hI' h0'
      have hall : Trace (injBody out) iterKind g (List.replicate (k - j) .choose ++ [.yield])
          (1, some g'', out') := by
        rw [show k - j = k - j - 1 + 1 by omega, List.replicate_succ, List.cons_append]
        exact ht.head (if_pos (by omega)) (hb out)
      refine ⟨_, _, hall, ?_, .yield 0 (k - j) hdone⟩
      rw [List.length_append, List.length_replicate, List.length_singleton]
      omega
    · -- backtrack, and resume one level up
      obtain ⟨g', x, hb, hI', hpos', -⟩ := hback
      obtain ⟨kinds, r, ht, hlen, hcourse⟩ := ih (j - 1) (by omega) (by omega) (by omega) hI'
      refine ⟨.backtrack :: kinds, r, ht.head (if_neg (by omega)) (hb out), ?_,
        hcourse.backtrack⟩
      rw [List.length_cons]
      omega
    · -- nothing left at the first level
      obtain ⟨-, g', hb, hE⟩ := hfin
      refine ⟨_, _, .leave (hb out), ?_, .finish 0 hE.done_eq⟩
      rw [List.length_singleton]
      omega

/-- **Every resume terminates, with no dead ends.** After a successful `inj_init`
with `1 ≤ k ≤ n` and any number of completed calls, the next call either returns
at once, which it does without `out_images` or after the end, or it leaves the
loop within `2 k` iterations. These first backtrack zero or more levels; then the
call finishes with `done = 1`, or it only descends until it yields. -/
theorem injNext_resume {g g₀ : InjCoroutine} {a nextc used : Ptr ℕ} {heap : InjHeap}
    (hn : n < 2 ^ 64) (hk : 1 ≤ k) (hkn : k ≤ n) (hst : InjStorage n k a nextc used)
    (hinit : injInit (some g) n k a nextc used heap = .ok (1, some g₀)) :
    ∀ g' out, InjCalls g₀ g' → (out.addr ≠ 0 → out.cells.length = k) →
      ((out.addr = 0 ∨ g'.done ≠ 0) ∧
        ∀ fuel, injNext fuel (some g') out = .ok (0, some g', out)) ∨
      (out.addr ≠ 0 ∧ g'.done = 0 ∧ ∃ kinds r, Trace (injBody out) iterKind g' kinds r ∧
        kinds.length ≤ 2 * k ∧ Course out kinds r ∧
        ∀ fuel, kinds.length ≤ fuel → injNext fuel (some g') out = .ok r) := by
  intro g' out hcalls hout
  have hS := hcalls.state hk (injInit_state hn hk hkn hst hinit)
  have hk0 : g'.k ≠ 0 := by rw [hS.k_eq]; omega
  by_cases hnull : out.addr = 0
  · exact Or.inl ⟨Or.inl hnull, fun fuel => injNext_null fuel hk0 hnull⟩
  · rcases hS with ⟨hI, hpos⟩ | hE
    · -- a suspended search
      obtain ⟨kinds, r, ht, hlen, hcourse⟩ := courses hkn (hout hnull) rfl hpos hI
      refine Or.inr ⟨hnull, hI.not_done, kinds, r, ht, by omega, hcourse, fun fuel hfuel => ?_⟩
      rw [injNext_loop fuel hk0 hnull hI.not_done]
      exact ht.forever hfuel
    · -- the end has been reported
      have hdone : g'.done ≠ 0 := by rw [hE.done_eq]; decide
      exact Or.inl ⟨Or.inr hdone, fun fuel => injNext_done fuel out hdone⟩

/-- The bound at work for `n = 3` and `k = 2` on caller storage, at the first call. -/
theorem injNext_resume_three_two :
    let g : InjCoroutine := ⟨9, 9, .null, .null, .null, 9, 9, 9, 9⟩
    let g₀ : InjCoroutine := ⟨3, 2, ⟨1, [0, 0]⟩, ⟨2, [0, 0]⟩, ⟨3, [0, 0, 0]⟩, 0, 0, 0, 0⟩
    injInit (some g) 3 2 ⟨1, [5, 6]⟩ ⟨2, [7, 8]⟩ ⟨3, [1, 1, 1]⟩ ⟨.failed, .failed, .failed⟩
        = .ok (1, some g₀) ∧
      ∃ kinds r, kinds.length ≤ 4 ∧ Course ⟨5, [0, 0]⟩ kinds r ∧
        injNext 4 (some g₀) ⟨5, [0, 0]⟩ = .ok r := by
  intro g g₀
  have hinit : injInit (some g) 3 2 ⟨1, [5, 6]⟩ ⟨2, [7, 8]⟩ ⟨3, [1, 1, 1]⟩
      ⟨.failed, .failed, .failed⟩ = .ok (1, some g₀) := rfl
  refine ⟨hinit, ?_⟩
  rcases injNext_resume (n := 3) (k := 2) (by decide) (by decide) (by decide)
      (fun _ => ⟨rfl, rfl, rfl⟩) hinit g₀ ⟨5, [0, 0]⟩ .refl (fun _ => rfl) with
    ⟨h | h, -⟩ | ⟨-, -, kinds, r, -, hlen, hcourse, hcall⟩
  · exact absurd h (by decide)
  · exact absurd rfl h
  · exact ⟨kinds, r, hlen, hcourse, hcall 4 hlen⟩

end Arboql
