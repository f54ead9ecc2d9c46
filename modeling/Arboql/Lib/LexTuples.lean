import Mathlib.Data.List.Nodup
import Mathlib.Data.List.Perm.Subperm
import Mathlib.Data.Nat.Factorial.Basic
import Mathlib.Algebra.BigOperators.Group.List.Basic
import Mathlib.Algebra.Order.BigOperators.Group.List
import Mathlib.Tactic.Ring

/-!
# Tuples in lexicographic order

Three ways of listing tuples, each in lexicographic order with the first entry
the most significant:

* `product ls`, the tuples whose `i`-th entry is taken from the `i`-th of the
  lists `ls`;
* `arrangements l d p`, the extensions of the tuple `p` by `d` entries of `l`
  that are new at the place they stand;
* `digits bs m`, the `m`-th tuple of digits for the radices `bs`, with its
  successor operation `bump`.

The arrangements are the product with the repeating tuples filtered out
(`arrangements_eq_filter`), so membership and order are proved for the product
once. The digits list the product of the initial segments
(`map_digits_range`), which is what turns a position in the product into
arithmetic.
-/

namespace LexTuples

variable {α : Type}

/-! ### The product -/

/-- **The cartesian product** in lexicographic order. -/
def product : List (List α) → List (List α)
  | [] => [[]]
  | l :: ls => l.flatMap fun x => (product ls).map (x :: ·)

@[simp] theorem product_nil : product ([] : List (List α)) = [[]] := rfl

theorem product_cons (l : List α) (ls : List (List α)) :
    product (l :: ls) = l.flatMap fun x => (product ls).map (x :: ·) := rfl

/-- A tuple over `d` copies of one list. -/
theorem mem_product_replicate {l : List α} {d : ℕ} {t : List α} :
    t ∈ product (List.replicate d l) ↔ t.length = d ∧ ∀ x ∈ t, x ∈ l := by
  induction d generalizing t with
  | zero =>
    simp only [List.replicate_zero, product_nil, List.mem_singleton, List.length_eq_zero_iff]
    exact ⟨fun h => by subst h; simp, fun h => h.1⟩
  | succ d ih =>
    cases t with
    | nil => simp [List.replicate_succ, product_cons]
    | cons x t => simp [List.replicate_succ, product_cons, ih, and_assoc, and_left_comm]

/-- The product is listed in strictly increasing lexicographic order when each
of the lists is strictly increasing. -/
theorem product_sorted [LT α] {ls : List (List α)}
    (h : ∀ l ∈ ls, l.Pairwise (· < ·)) : (product ls).Pairwise (· < ·) := by
  induction ls with
  | nil => simp
  | cons l ls ih =>
    have hl : l.Pairwise (· < ·) := h l (by simp)
    have hls : (product ls).Pairwise (· < ·) := ih fun l' hl' => h l' (by simp [hl'])
    rw [product_cons, List.pairwise_flatMap]
    refine ⟨fun x _ => ?_, hl.imp fun {x y} hxy s hs t ht => ?_⟩
    · -- equal first entries
      rw [List.pairwise_map]
      exact hls.imp fun hst => List.Lex.cons hst
    · -- an increasing first entry decides
      obtain ⟨s', _, rfl⟩ := List.mem_map.mp hs
      obtain ⟨t', _, rfl⟩ := List.mem_map.mp ht
      exact List.Lex.rel hxy

/-! ### Arrangements -/

section Arrangements

variable [DecidableEq α]

/-- **The arrangements**: every extension of `p` by `d` entries of `l`, each of
them different from all entries before it. -/
def arrangements (l : List α) : ℕ → List α → List (List α)
  | 0, p => [p]
  | d + 1, p => l.flatMap fun v => if v ∈ p then [] else arrangements l d (p ++ [v])

@[simp] theorem arrangements_zero (l p : List α) : arrangements l 0 p = [p] := rfl

theorem arrangements_succ (l : List α) (d : ℕ) (p : List α) :
    arrangements l (d + 1) p
      = l.flatMap fun v => if v ∈ p then [] else arrangements l d (p ++ [v]) := rfl

/-- **Generate and filter.** The arrangements are the tuples of the product that
do not repeat an entry, in the same order. -/
theorem arrangements_eq_filter (l : List α) (d : ℕ) {p : List α} (hp : p.Nodup) :
    arrangements l d p
      = ((product (List.replicate d l)).filter (fun s => (p ++ s).Nodup)).map (p ++ ·) := by
  induction d generalizing p with
  | zero => simp [hp]
  | succ d ih =>
    rw [arrangements_succ, List.replicate_succ, product_cons, List.filter_flatMap,
      List.map_flatMap]
    congr 1
    funext v
    rw [List.filter_map, List.map_map]
    by_cases hv : v ∈ p
    · -- no tuple that starts with `v` survives the filter
      rw [if_pos hv, eq_comm, List.map_eq_nil_iff, List.filter_eq_nil_iff]
      intro s _
      simp only [Function.comp_apply, decide_eq_true_eq]
      exact fun h => List.disjoint_of_nodup_append h hv (by simp)
    · have hpv : (p ++ [v]).Nodup := by
        simp [List.nodup_append, hp]
        exact fun a ha h => hv (h ▸ ha)
      rw [if_neg hv, ih hpv]
      simp [Function.comp_def, List.append_assoc]

theorem arrangements_nil (l : List α) (d : ℕ) :
    arrangements l d [] = (product (List.replicate d l)).filter (fun s => s.Nodup) := by
  rw [arrangements_eq_filter l d List.nodup_nil]
  simp

theorem mem_arrangements_nil {l : List α} {d : ℕ} {t : List α} :
    t ∈ arrangements l d [] ↔ t.length = d ∧ t.Nodup ∧ ∀ x ∈ t, x ∈ l := by
  rw [arrangements_nil, List.mem_filter, mem_product_replicate]
  simp only [decide_eq_true_eq]
  exact ⟨fun ⟨⟨h₁, h₂⟩, h₃⟩ => ⟨h₁, h₃, h₂⟩, fun ⟨h₁, h₂, h₃⟩ => ⟨⟨h₁, h₃⟩, h₂⟩⟩

theorem arrangements_nil_sorted [LT α] {l : List α} (d : ℕ) (hl : l.Pairwise (· < ·)) :
    (arrangements l d []).Pairwise (· < ·) := by
  rw [arrangements_nil]
  refine List.Pairwise.filter _ (product_sorted fun l' hl' => ?_)
  rw [List.eq_of_mem_replicate hl']
  exact hl

/-- The entries of `l` that do not occur in a duplicate-free part `p` of it. -/
theorem countP_notMem {l p : List α} (hl : l.Nodup) (hp : p.Nodup) (hpl : p ⊆ l) :
    l.countP (fun v => v ∉ p) = l.length - p.length := by
  have hperm : (l.filter (fun v => v ∈ p)).Perm p :=
    (List.perm_ext_iff_of_nodup (hl.filter _) hp).mpr fun v => by
      simp only [List.mem_filter, decide_eq_true_eq]
      exact ⟨fun h => h.2, fun h => ⟨hpl h, h⟩⟩
  have hsplit := List.length_eq_countP_add_countP (fun v => decide (v ∈ p)) (l := l)
  rw [List.countP_eq_length_filter, hperm.length_eq] at hsplit
  simp only [decide_eq_true_eq] at hsplit
  have hcongr : l.countP (fun v => decide (v ∉ p)) = l.countP (fun v => decide ¬v ∈ p) := rfl
  omega

/-- A sum that counts `c` for each entry outside `p`. -/
theorem sum_map_ite_notMem (l p : List α) (c : ℕ) :
    (l.map fun v => if v ∉ p then c else 0).sum = l.countP (fun v => v ∉ p) * c := by
  induction l with
  | nil => simp
  | cons v l ih =>
    rw [List.map_cons, List.sum_cons, ih, List.countP_cons]
    by_cases hv : v ∈ p
    · simp [hv]
    · simp [hv]; ring

/-- **The number of arrangements** is a falling factorial. -/
theorem length_arrangements {l : List α} (hl : l.Nodup) (d : ℕ) {p : List α}
    (hp : p.Nodup) (hpl : p ⊆ l) :
    (arrangements l d p).length = (l.length - p.length).descFactorial d := by
  induction d generalizing p with
  | zero => simp
  | succ d ih =>
    -- every unused first entry has equally many arrangements after it
    have hbranch : ∀ v ∈ l, (if v ∈ p then [] else arrangements l d (p ++ [v])).length
        = if v ∉ p then (l.length - p.length - 1).descFactorial d else 0 := by
      intro v hv
      by_cases hvp : v ∈ p
      · simp [hvp]
      · have hpv : (p ++ [v]).Nodup := by
          simp only [List.nodup_append, hp, List.nodup_singleton, List.mem_singleton, true_and]
          exact fun a ha b hb h => hvp (hb ▸ h ▸ ha)
        rw [if_neg hvp, if_pos hvp, ih hpv]
        · simp [Nat.sub_sub]
        · intro x hx
          rcases List.mem_append.mp hx with hx | hx
          · exact hpl hx
          · exact List.mem_singleton.mp hx ▸ hv
    rw [arrangements_succ, List.length_flatMap, List.map_congr_left hbranch]
    rw [sum_map_ite_notMem, countP_notMem hl hp hpl]
    cases hm : l.length - p.length with
    | zero => simp
    | succ m => rw [Nat.succ_descFactorial_succ, Nat.add_sub_cancel]

end Arrangements

/-! ### Mixed-radix digits -/

/-- **The digits of `m`** for the radices `bs`, the most significant first and
each reduced by its radix. -/
def digits : List ℕ → ℕ → List ℕ
  | [], _ => []
  | b :: bs, m => m / bs.prod % b :: digits bs m

@[simp] theorem length_digits (bs : List ℕ) (m : ℕ) : (digits bs m).length = bs.length := by
  induction bs with
  | nil => rfl
  | cons b bs ih => simp [digits, ih]

/-- The `i`-th digit, with the product of the later radices as its weight. -/
theorem getElem?_digits {bs : List ℕ} {m i b : ℕ} (hb : bs[i]? = some b) :
    (digits bs m)[i]? = some (m / (bs.drop (i + 1)).prod % b) := by
  induction bs generalizing i with
  | nil => simp at hb
  | cons b' bs ih =>
    cases i with
    | zero =>
      obtain rfl : b' = b := by simpa using hb
      simp [digits]
    | succ i => simpa [digits] using ih (by simpa using hb)

/-- A multiple of the product of the radices does not show in the digits. -/
theorem digits_mul_prod_add (bs : List ℕ) (q m : ℕ) :
    digits bs (bs.prod * q + m) = digits bs m := by
  induction bs generalizing q with
  | nil => rfl
  | cons b bs ih =>
    have hrest : bs.prod * (b * q) = (b :: bs).prod * q := by
      rw [List.prod_cons]; ring
    rw [← hrest, digits, digits, ih (b * q)]
    by_cases hP : bs.prod = 0
    · simp [hP]
    · rw [Nat.mul_add_div (Nat.pos_of_ne_zero hP), Nat.mul_add_mod]

theorem digits_zero (bs : List ℕ) : digits bs 0 = bs.map fun _ => 0 := by
  induction bs with
  | nil => rfl
  | cons b bs ih => simp [digits, ih]

/-- **The digits enumerate the product** of the initial segments. -/
theorem map_digits_range (bs : List ℕ) :
    (List.range bs.prod).map (digits bs) = product (bs.map List.range) := by
  induction bs with
  | nil => rfl
  | cons b bs ih =>
    -- a block of `bs.prod` numbers for each value of the first digit
    have hsplit : ∀ c, (List.range (c * bs.prod))
        = (List.range c).flatMap fun d => (List.range bs.prod).map (bs.prod * d + ·) := by
      intro c
      induction c with
      | zero => simp
      | succ c ihc =>
        rw [List.range_succ, List.flatMap_append, ← ihc, Nat.succ_mul, List.range_add]
        simp [Nat.mul_comm c]
    rw [List.prod_cons, hsplit, List.map_cons, product_cons, ← ih, List.map_flatMap]
    refine List.flatMap_congr fun d hd => ?_
    rw [List.map_map, List.map_map]
    refine List.map_congr_left fun r hr => ?_
    have hd' : d < b := List.mem_range.mp hd
    have hr' : r < bs.prod := List.mem_range.mp hr
    have hP : 0 < bs.prod := by omega
    change digits (b :: bs) (bs.prod * d + r) = d :: digits bs r
    rw [digits, digits_mul_prod_add, Nat.mul_add_div hP, Nat.div_eq_of_lt hr', Nat.add_zero,
      Nat.mod_eq_of_lt hd']

/-- **The successor** of a digit list, the last digit first to move: `none` when
every digit is at its maximum. -/
def bump : List ℕ → List ℕ → Option (List ℕ)
  | b :: bs, d :: ds =>
    match bump bs ds with
    | some ds' => some (d :: ds')
    | none => if d + 1 < b then some ((d + 1) :: ds.map fun _ => 0) else none
  | _, _ => none

/-- The last digit moves first: it is incremented, or falls back to `0` while
the others move. -/
theorem bump_concat {bs ds : List ℕ} (hlen : ds.length = bs.length) (b d : ℕ) :
    bump (bs ++ [b]) (ds ++ [d])
      = if d + 1 < b then some (ds ++ [d + 1]) else (bump bs ds).map (· ++ [0]) := by
  induction bs generalizing ds with
  | nil =>
    obtain rfl : ds = [] := List.eq_nil_of_length_eq_zero hlen
    by_cases hd : d + 1 < b <;> simp [bump, hd]
  | cons b' bs ih =>
    cases ds with
    | nil => simp at hlen
    | cons d' ds =>
      rw [List.cons_append, List.cons_append, bump, ih (by simpa using hlen), bump]
      by_cases hd : d + 1 < b
      · simp [hd]
      · -- the carry goes through, and the first digit moves only if the rest is full
        cases hb : bump bs ds with
        | some ds' => simp [hd]
        | none =>
          by_cases hd' : d' + 1 < b' <;> simp [hd, hd']

/-- When the product of the radices divides `m`, all the digits of `m` are `0`. -/
theorem digits_of_dvd {bs : List ℕ} {m : ℕ} (h : bs.prod ∣ m) :
    digits bs m = bs.map fun _ => 0 := by
  obtain ⟨q, rfl⟩ := h
  rw [← Nat.add_zero (bs.prod * q), digits_mul_prod_add, digits_zero]

/-- One more, modulo `b`: either the remainder grows by one, or `b` divides. -/
theorem succ_mod_cases {b : ℕ} (hb : 0 < b) (x : ℕ) :
    (x % b + 1 < b ∧ (x + 1) % b = x % b + 1 ∧ ¬ b ∣ x + 1) ∨
      (¬ x % b + 1 < b ∧ b ∣ x + 1) := by
  have hlt : x % b < b := Nat.mod_lt x hb
  have hmod : (x + 1) % b = (x % b + 1) % b := by simp [Nat.add_mod]
  by_cases hc : x % b + 1 < b
  · rw [Nat.mod_eq_of_lt hc] at hmod
    refine Or.inl ⟨hc, hmod, fun h => ?_⟩
    rw [Nat.dvd_iff_mod_eq_zero, hmod] at h
    omega
  · rw [show x % b + 1 = b by omega, Nat.mod_self] at hmod
    exact Or.inr ⟨hc, Nat.dvd_of_mod_eq_zero hmod⟩

/-- **The successor of the digits of `m`** is the digits of `m + 1`, unless
these start over. -/
theorem bump_digits {bs : List ℕ} (h : ∀ b ∈ bs, 0 < b) (m : ℕ) :
    bump bs (digits bs m)
      = if bs.prod ∣ m + 1 then none else some (digits bs (m + 1)) := by
  induction bs with
  | nil => simp [bump]
  | cons b bs ih =>
    have hb : 0 < b := h b (by simp)
    rw [digits, bump, ih fun b' hb' => h b' (by simp [hb'])]
    by_cases hdvd : bs.prod ∣ m + 1
    · -- the later digits start over, and this one moves
      have hdiv : (m + 1) / bs.prod = m / bs.prod + 1 := Nat.succ_div_of_dvd hdvd
      have hall : b * bs.prod ∣ m + 1 ↔ b ∣ m / bs.prod + 1 := by
        rw [Nat.mul_comm, ← hdiv, Nat.dvd_div_iff_mul_dvd hdvd]
      have hzero : (digits bs m).map (fun _ => 0) = digits bs (m + 1) := by
        rw [digits_of_dvd hdvd, List.map_const', List.map_const', length_digits]
      rcases succ_mod_cases hb (m / bs.prod) with ⟨hc, hmod, hnd⟩ | ⟨hc, hd⟩
      · simp [hdvd, hc, hall, hnd, digits, hzero, hdiv, hmod]
      · simp [hdvd, hc, hall, hd]
    · -- the later digits move, and this one stays
      have hnd : ¬ b * bs.prod ∣ m + 1 := fun h' =>
        hdvd (dvd_trans (Nat.dvd_mul_left _ _) h')
      have hdiv : (m + 1) / bs.prod = m / bs.prod := Nat.succ_div_of_not_dvd hdvd
      simp [hdvd, hnd, digits, hdiv]

/-- Every digit is below its radix, when no radix is `0`. -/
theorem forall₂_digits_lt {bs : List ℕ} (h : ∀ b ∈ bs, 0 < b) (m : ℕ) :
    List.Forall₂ (· < ·) (digits bs m) bs := by
  induction bs with
  | nil => exact .nil
  | cons b bs ih =>
    exact .cons (Nat.mod_lt _ (h b (by simp))) (ih fun b' hb' => h b' (by simp [hb']))

end LexTuples
