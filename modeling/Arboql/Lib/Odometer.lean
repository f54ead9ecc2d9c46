import Arboql.Lib.LexTuples
import Mathlib.Algebra.BigOperators.Group.Finset.Piecewise
import Mathlib.Algebra.BigOperators.Group.Finset.Sigma
import Mathlib.Algebra.Order.BigOperators.GroupWithZero.List
import Mathlib.Data.List.Induction
import Mathlib.Data.Nat.Factorization.Basic

/-!
# How often the digits of a counter move

Counting on from `m`, the digits of a mixed-radix counter move from the last one up to
the first that does not start over. A digit moves when all those behind it start over,
that is, when the product of their radices divides `m + 1` (`movedAt`). Over a whole
round of the counter the digit `i` moves once for each tuple of digits up to `i`
(`count_round`), so that a round moves fewer than two digits for each number it counts,
when no radix is below `2` (`length_round_lt`).
-/

namespace LexTuples

/-- The positions of the digits that move when the counter goes on from `m`, in the order
in which they move. -/
def movedAt (bs : List ℕ) (m : ℕ) : List ℕ :=
  (List.range bs.length).reverse.filter fun i => (bs.drop (i + 1)).prod ∣ m + 1

/-- The moves of the first `m` numbers. -/
def movesUpTo (bs : List ℕ) (m : ℕ) : List ℕ := (List.range m).flatMap (movedAt bs)

variable {bs : List ℕ}

theorem movesUpTo_succ (bs : List ℕ) (m : ℕ) :
    movesUpTo bs (m + 1) = movesUpTo bs m ++ movedAt bs m := by
  unfold movesUpTo
  rw [List.range_succ, List.flatMap_append, List.flatMap_singleton]

/-- The last digit is the remainder. -/
theorem digits_concat (bs : List ℕ) (b m : ℕ) :
    digits (bs ++ [b]) m = digits bs (m / b) ++ [m % b] := by
  induction bs with
  | nil => simp [digits]
  | cons b' bs ih =>
    rw [List.cons_append, digits, ih, digits, List.prod_append, List.prod_singleton,
      Nat.mul_comm, Nat.div_div_eq_div_mul, List.cons_append]

/-- The last digit always moves, and the others when it starts over. -/
theorem movedAt_concat (bs : List ℕ) (b m : ℕ) :
    movedAt (bs ++ [b]) m = bs.length :: if b ∣ m + 1 then movedAt bs (m / b) else [] := by
  have hlast : ((bs ++ [b]).drop (bs.length + 1)).prod ∣ m + 1 := by
    rw [List.drop_eq_nil_of_le (by simp)]
    exact one_dvd _
  have hweight : ∀ i < bs.length,
      ((bs ++ [b]).drop (i + 1)).prod = (bs.drop (i + 1)).prod * b := by
    intro i hi
    rw [List.drop_append_of_le_length hi, List.prod_append, List.prod_singleton]
  unfold movedAt
  rw [List.length_append, List.length_singleton, List.range_succ, List.reverse_append,
    List.reverse_singleton, List.singleton_append, List.filter_cons, if_pos (decide_eq_true hlast)]
  congr 1
  by_cases hdvd : b ∣ m + 1
  · -- the other digits count the rounds of the last one
    have hdiv : (m + 1) / b = m / b + 1 := Nat.succ_div_of_dvd hdvd
    rw [if_pos hdvd]
    refine List.filter_congr fun i hi => ?_
    rw [List.mem_reverse, List.mem_range] at hi
    have hiff : (bs.drop (i + 1)).prod * b ∣ m + 1 ↔ (bs.drop (i + 1)).prod ∣ m / b + 1 := by
      rw [Nat.mul_comm, ← hdiv, Nat.dvd_div_iff_mul_dvd hdvd]
    simp only [hweight i hi, hiff]
  · rw [if_neg hdvd, List.filter_eq_nil_iff]
    intro i hi
    rw [List.mem_reverse, List.mem_range] at hi
    rw [hweight i hi]
    simpa using fun h => hdvd (dvd_trans (Nat.dvd_mul_left _ _) h)

/-- A digit moves once at most. -/
theorem count_movedAt {i : ℕ} (hi : i < bs.length) (m : ℕ) :
    (movedAt bs m).count i = if (bs.drop (i + 1)).prod ∣ m + 1 then 1 else 0 := by
  have hnodup : (movedAt bs m).Nodup :=
    (List.nodup_reverse.mpr List.nodup_range).filter _
  have hmem : i ∈ movedAt bs m ↔ (bs.drop (i + 1)).prod ∣ m + 1 := by
    unfold movedAt
    rw [List.mem_filter, List.mem_reverse, List.mem_range]
    simp [hi]
  by_cases hdvd : (bs.drop (i + 1)).prod ∣ m + 1
  · rw [if_pos hdvd, List.count_eq_one_of_mem hnodup (hmem.mpr hdvd)]
  · rw [if_neg hdvd, List.count_eq_zero.mpr (fun h => hdvd (hmem.mp h))]

theorem length_movedAt (bs : List ℕ) (m : ℕ) :
    (movedAt bs m).length
      = ∑ i ∈ Finset.range bs.length, if (bs.drop (i + 1)).prod ∣ m + 1 then 1 else 0 := by
  rw [← Finset.card_filter]
  unfold movedAt
  rw [List.filter_reverse, List.length_reverse]
  rfl

/-- The numbers of a round at which the digit `i` moves. -/
theorem sum_moves_round (h : ∀ b ∈ bs, 0 < b) (i : ℕ) :
    (∑ m ∈ Finset.range bs.prod, if (bs.drop (i + 1)).prod ∣ m + 1 then 1 else 0)
      = (bs.take (i + 1)).prod := by
  have hpos : 0 < (bs.drop (i + 1)).prod :=
    List.prod_pos fun b hb => h b (List.mem_of_mem_drop hb)
  rw [← Finset.card_filter, Nat.card_multiples, ← List.prod_take_mul_prod_drop bs (i + 1),
    Nat.mul_div_cancel _ hpos]

/-- **In one round** of the counter the digit `i` moves once for each tuple of digits up to
`i`. -/
theorem count_round (h : ∀ b ∈ bs, 0 < b) {i : ℕ} (hi : i < bs.length) :
    (movesUpTo bs bs.prod).count i = (bs.take (i + 1)).prod := by
  rw [← sum_moves_round h i, movesUpTo, List.count_flatMap]
  have hterm : List.count i ∘ movedAt bs
      = fun m => if (bs.drop (i + 1)).prod ∣ m + 1 then 1 else 0 :=
    funext fun m => count_movedAt hi m
  rw [hterm]
  rfl

/-- The moves in one round. -/
theorem length_round (h : ∀ b ∈ bs, 0 < b) :
    (movesUpTo bs bs.prod).length
      = ∑ i ∈ Finset.range bs.length, (bs.take (i + 1)).prod := by
  have hterm : List.length ∘ movedAt bs = fun m => ∑ i ∈ Finset.range bs.length,
      if (bs.drop (i + 1)).prod ∣ m + 1 then 1 else 0 :=
    funext (length_movedAt bs)
  calc (movesUpTo bs bs.prod).length
      = ∑ m ∈ Finset.range bs.prod, ∑ i ∈ Finset.range bs.length,
          (if (bs.drop (i + 1)).prod ∣ m + 1 then 1 else 0) := by
        rw [movesUpTo, List.length_flatMap]
        change ((List.range bs.prod).map (List.length ∘ movedAt bs)).sum = _
        rw [hterm]
        rfl
    _ = ∑ i ∈ Finset.range bs.length, (bs.take (i + 1)).prod := by
        rw [Finset.sum_comm]
        exact Finset.sum_congr rfl fun i _ => sum_moves_round h i

/-- The products of the initial parts add up to less than twice the whole product. -/
theorem sum_take_prod_lt (h : ∀ b ∈ bs, 2 ≤ b) :
    ∑ i ∈ Finset.range bs.length, (bs.take (i + 1)).prod < 2 * bs.prod := by
  induction bs using List.reverseRecOn with
  | nil => simp
  | append_singleton bs b ih =>
    have hb : 2 ≤ b := h b (by simp)
    have hbs := ih fun b' hb' => h b' (by simp [hb'])
    have hinit : ∑ i ∈ Finset.range bs.length, ((bs ++ [b]).take (i + 1)).prod
        = ∑ i ∈ Finset.range bs.length, (bs.take (i + 1)).prod := by
      refine Finset.sum_congr rfl fun i hi => ?_
      rw [List.take_append_of_le_length (Finset.mem_range.mp hi)]
    -- those of the shorter parts are paid for by the last radix
    have hstep : 2 * bs.prod ≤ bs.prod * b := by
      rw [Nat.mul_comm 2]
      exact Nat.mul_le_mul_left _ hb
    rw [List.length_append, List.length_singleton, Finset.sum_range_succ, hinit,
      List.take_of_length_le (by simp), List.prod_append, List.prod_singleton]
    omega

/-- **Fewer than two moves** for each number of a round. -/
theorem length_round_lt (h : ∀ b ∈ bs, 2 ≤ b) : (movesUpTo bs bs.prod).length < 2 * bs.prod := by
  rw [length_round fun b hb => Nat.lt_of_lt_of_le Nat.two_pos (h b hb)]
  exact sum_take_prod_lt h

end LexTuples
