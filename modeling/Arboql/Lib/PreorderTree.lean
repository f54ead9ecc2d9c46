import Arboql.Lib.OrderedDict
import Mathlib.Logic.Relation
import Mathlib.Data.List.Perm.Basic
import Mathlib.Data.List.Range
import Mathlib.Data.Nat.Basic

/-!
# Rooted trees numbered in preorder

A rooted tree on the nodes `0, …, N-1` with root `0` is the list of its parents:
entry `m` is the parent of node `m + 1`. The numbering is a depth-first preorder
(`Preorder`) when each new node hangs from its predecessor or from one of its
predecessor's ancestors. From that alone it follows that parents come before
their children, that every node descends from the root, and that the nodes of
every subtree are an interval.

`childDict` is the dictionary of children that one gets by adding the nodes in
order. In a preorder tree its keys come in ascending order, because a node that
has children gets its first child right after itself, and so its entries are
strictly increasing (`Preorder.edgeList_pairwise`).
-/

namespace PreorderTree

/-- `p` is the parent of `m`. -/
def IsParent (pars : List ℕ) (p m : ℕ) : Prop := ∃ i, m = i + 1 ∧ pars[i]? = some p

/-- `a` is `m` or an ancestor of `m`. -/
def Descends (pars : List ℕ) (a m : ℕ) : Prop := Relation.ReflTransGen (IsParent pars) a m

/-- **A preorder numbering.** Each new node hangs from its predecessor or from an
ancestor of it. -/
inductive Preorder : List ℕ → Prop
  | root : Preorder []
  | add {pars : List ℕ} {p : ℕ} :
      Preorder pars → Descends pars p pars.length → Preorder (pars ++ [p])

variable {pars qs : List ℕ} {p q m a : ℕ}

/-! ### Parents and descendants -/

theorem IsParent.append (h : IsParent pars p m) (qs : List ℕ) : IsParent (pars ++ qs) p m := by
  obtain ⟨i, rfl, hi⟩ := h
  have hlt : i < pars.length := by
    by_contra hge
    rw [List.getElem?_eq_none (by omega)] at hi
    exact absurd hi (by simp)
  exact ⟨i, rfl, by rw [List.getElem?_append_left hlt, hi]⟩

theorem IsParent.le_length (h : IsParent pars p m) : 1 ≤ m ∧ m ≤ pars.length := by
  obtain ⟨i, rfl, hi⟩ := h
  obtain ⟨hlt, -⟩ := List.getElem?_eq_some_iff.mp hi
  omega

theorem IsParent.unique (h : IsParent pars p m) (h' : IsParent pars q m) : p = q := by
  obtain ⟨i, rfl, hi⟩ := h
  obtain ⟨j, hj, hq⟩ := h'
  obtain rfl : i = j := by omega
  rw [hi] at hq
  exact Option.some.inj hq

theorem isParent_concat : IsParent (pars ++ [q]) p m
    ↔ IsParent pars p m ∨ m = pars.length + 1 ∧ p = q := by
  constructor
  · rintro ⟨i, rfl, hi⟩
    by_cases hlt : i < pars.length
    · rw [List.getElem?_append_left hlt] at hi
      exact Or.inl ⟨i, rfl, hi⟩
    · obtain ⟨hle, -⟩ := List.getElem?_eq_some_iff.mp hi
      rw [List.length_append, List.length_singleton] at hle
      obtain rfl : i = pars.length := by omega
      rw [List.getElem?_concat_length] at hi
      exact Or.inr ⟨rfl, (Option.some.inj hi).symm⟩
  · rintro (h | ⟨rfl, rfl⟩)
    · exact h.append [q]
    · exact ⟨pars.length, rfl, List.getElem?_concat_length⟩

theorem Descends.append (h : Descends pars a m) (qs : List ℕ) :
    Descends (pars ++ qs) a m := by
  induction h with
  | refl => exact .refl
  | tail _ hp ih => exact ih.tail (hp.append qs)

theorem Descends.trans {b : ℕ} (h : Descends pars a b) (h' : Descends pars b m) :
    Descends pars a m := Relation.ReflTransGen.trans h h'

/-- The newest node descends from whatever its parent descends from. -/
theorem Descends.concat (h : Descends pars a p) :
    Descends (pars ++ [p]) a (pars.length + 1) :=
  (h.append [p]).tail (isParent_concat.mpr (Or.inr ⟨rfl, rfl⟩))

/-- A new node gives no old node a new ancestor. -/
theorem Descends.of_concat (h : Descends (pars ++ [q]) a m) (hlen : ∀ r s,
    IsParent (pars ++ [q]) r s → r < s) (hm : m ≤ pars.length) : Descends pars a m := by
  induction h with
  | refl => exact .refl
  | tail _ hp ih =>
    have hlt := hlen _ _ hp
    rcases isParent_concat.mp hp with hold | ⟨rfl, -⟩
    · exact (ih (by omega)).tail hold
    · exact absurd hm (by omega)

namespace Preorder

/-- The parent of a node comes before it. -/
theorem parent_lt (h : Preorder pars) (hp : IsParent pars p m) : p < m := by
  induction h generalizing p m with
  | root => exact absurd hp.le_length (by simp; omega)
  | @add pars q _ hq ih =>
    rcases isParent_concat.mp hp with hold | ⟨rfl, rfl⟩
    · exact ih hold
    · -- an ancestor of the last node is at most the last node
      have hle : ∀ x, Descends pars p x → p ≤ x := by
        intro x hx
        induction hx with
        | refl => exact le_rfl
        | tail _ hstep ihx => exact ihx.trans (ih hstep).le
      have := hle _ hq
      omega

theorem descends_le (h : Preorder pars) (hd : Descends pars a m) : a ≤ m := by
  induction hd with
  | refl => exact le_rfl
  | tail _ hp ih => exact ih.trans (h.parent_lt hp).le

/-- Every node descends from the root. -/
theorem reachable (h : Preorder pars) (hm : m ≤ pars.length) : Descends pars 0 m := by
  induction h generalizing m with
  | root =>
    obtain rfl : m = 0 := by simpa using hm
    exact .refl
  | @add pars q hpre hq ih =>
    rw [List.length_append, List.length_singleton] at hm
    by_cases hlt : m ≤ pars.length
    · exact (ih hlt).append [q]
    · -- the new node, whose parent is reachable
      obtain rfl : m = pars.length + 1 := by omega
      have hle := hpre.descends_le hq
      exact (ih hle).concat

/-- The parent of `m + 1` is `m` or an ancestor of `m`. -/
theorem parent_succ (h : Preorder pars) (hm : m < pars.length) :
    ∃ p, IsParent pars p (m + 1) ∧ Descends pars p m := by
  induction h with
  | root => exact absurd hm (by simp)
  | @add pars q hpre hq ih =>
    rw [List.length_append, List.length_singleton] at hm
    by_cases hlt : m < pars.length
    · obtain ⟨p, hp, hd⟩ := ih hlt
      exact ⟨p, hp.append [q], hd.append [q]⟩
    · obtain rfl : m = pars.length := by omega
      exact ⟨q, isParent_concat.mpr (Or.inr ⟨rfl, rfl⟩), hq.append [q]⟩

/-- **Subtrees are intervals.** What lies between a node and one of its
descendants descends from it too. -/
theorem descends_interval (h : Preorder pars) (hd : Descends pars a m) {x : ℕ} (hax : a ≤ x)
    (hxm : x ≤ m) : Descends pars a x := by
  induction h generalizing a m x with
  | root =>
    rcases hd.cases_tail with rfl | ⟨b, -, hb⟩
    · obtain rfl : x = m := by omega
      exact .refl
    · exact absurd hb.le_length (by simp; omega)
  | @add pars q hpre hq ih =>
    have hlt := fun r s => (hpre.add hq).parent_lt (p := r) (m := s)
    rcases hd.cases_tail with rfl | ⟨b, hab, hb⟩
    · obtain rfl : x = m := by omega
      exact .refl
    · have hbm := hlt b m hb
      rcases isParent_concat.mp hb with hold | ⟨rfl, rfl⟩
      · -- the descendant is an old node
        have hm := hold.le_length
        have habm := Descends.of_concat (hab.tail hb) hlt hm.2
        exact (ih habm hax hxm).append [q]
      · by_cases hx : x = pars.length + 1
        · subst hx
          exact hab.tail hb
        · -- `x` is old, and the node before the new one descends from `a`
          have hap := Descends.of_concat hab hlt (by omega)
          exact (ih (hap.trans hq) hax (by omega)).append [b]

end Preorder

/-! ### The children of a node -/

/-- The children of `p`, in ascending order. -/
def childrenOf (pars : List ℕ) (p : ℕ) : List ℕ :=
  ((List.range pars.length).filter fun i => pars[i]? = some p).map (· + 1)

theorem mem_childrenOf : m ∈ childrenOf pars p ↔ IsParent pars p m := by
  unfold childrenOf IsParent
  rw [List.mem_map]
  constructor
  · rintro ⟨i, hi, rfl⟩
    rw [List.mem_filter] at hi
    exact ⟨i, rfl, by simpa using hi.2⟩
  · rintro ⟨i, rfl, hi⟩
    obtain ⟨hlt, -⟩ := List.getElem?_eq_some_iff.mp hi
    exact ⟨i, List.mem_filter.mpr ⟨List.mem_range.mpr hlt, by simpa using hi⟩, rfl⟩

theorem childrenOf_pairwise (pars : List ℕ) (p : ℕ) : (childrenOf pars p).Pairwise (· < ·) := by
  unfold childrenOf
  rw [List.pairwise_map]
  refine (List.pairwise_lt_range.filter _).imp ?_
  intro i j hij
  omega

theorem childrenOf_concat (pars : List ℕ) (p q : ℕ) :
    childrenOf (pars ++ [q]) p
      = childrenOf pars p ++ if p = q then [pars.length + 1] else [] := by
  have hold : ((List.range pars.length).filter fun i => (pars ++ [q])[i]? = some p)
      = (List.range pars.length).filter fun i => pars[i]? = some p := by
    refine List.filter_congr fun i hi => ?_
    rw [List.getElem?_append_left (List.mem_range.mp hi)]
  unfold childrenOf
  rw [List.length_append, List.length_singleton, List.range_succ, List.filter_append, hold,
    List.map_append]
  by_cases hpq : p = q
  · subst hpq
    simp
  · have hne : ¬ q = p := fun h => hpq h.symm
    simp [hpq, hne]

/-- The nodes that have children, in the order of their first child. -/
def sources (pars : List ℕ) : List ℕ := OrderedDict.firsts pars

/-- **The sources of a preorder tree ascend.** A node with children gets its
first child right after itself. -/
theorem Preorder.sources_pairwise (h : Preorder pars) : (sources pars).Pairwise (· < ·) := by
  induction h with
  | root => exact List.Pairwise.nil
  | @add pars q hpre hq ih =>
    unfold sources at ih ⊢
    rw [OrderedDict.firsts_concat]
    by_cases hmem : q ∈ OrderedDict.firsts pars
    · rw [if_pos hmem]
      exact ih
    · rw [if_neg hmem, List.pairwise_append]
      refine ⟨ih, List.pairwise_singleton _ _, fun x hx y hy => ?_⟩
      obtain rfl := List.mem_singleton.mp hy
      rw [OrderedDict.mem_firsts] at hx hmem
      -- a source so far has a child so far, and the new source is the last node
      obtain ⟨i, hi, hxi⟩ := List.mem_iff_getElem.mp hx
      have hxlt := hpre.parent_lt (p := x) (m := i + 1)
        ⟨i, rfl, by rw [List.getElem?_eq_getElem hi, hxi]⟩
      rcases Relation.ReflTransGen.cases_head hq with rfl | ⟨b, ⟨j, -, hj⟩, -⟩
      · omega
      · -- a proper ancestor of the last node has a child already
        exact absurd (List.mem_of_getElem? hj) hmem

/-! ### The edges, source by source -/

/-- The edges of the tree, grouped by source. -/
def edgeList (pars : List ℕ) : List (ℕ × ℕ) :=
  (sources pars).flatMap fun p => (childrenOf pars p).map fun m => (p, m)

theorem mem_edgeList : (p, m) ∈ edgeList pars ↔ IsParent pars p m := by
  unfold edgeList
  rw [List.mem_flatMap]
  constructor
  · rintro ⟨q, -, hq⟩
    obtain ⟨x, hx, he⟩ := List.mem_map.mp hq
    obtain ⟨rfl, rfl⟩ := Prod.mk.inj he
    exact mem_childrenOf.mp hx
  · intro h
    have ⟨i, _, hi⟩ := h
    exact ⟨p, OrderedDict.mem_firsts.mpr (List.mem_of_getElem? hi),
      List.mem_map.mpr ⟨m, mem_childrenOf.mpr h, rfl⟩⟩

/-- **Edges come in lexicographic order.** -/
theorem Preorder.edgeList_pairwise (h : Preorder pars) :
    (edgeList pars).Pairwise fun e f => e.1 < f.1 ∨ e.1 = f.1 ∧ e.2 < f.2 := by
  unfold edgeList
  rw [List.pairwise_flatMap]
  constructor
  · -- under one source, the children ascend
    intro p _
    rw [List.pairwise_map]
    exact (childrenOf_pairwise pars p).imp fun hlt => Or.inr ⟨rfl, hlt⟩
  · -- between sources, the sources ascend
    refine h.sources_pairwise.imp fun hlt e he f hf => Or.inl ?_
    obtain ⟨_, -, rfl⟩ := List.mem_map.mp he
    obtain ⟨_, -, rfl⟩ := List.mem_map.mp hf
    exact hlt

theorem Preorder.edgeList_nodup (h : Preorder pars) : (edgeList pars).Nodup := by
  refine h.edgeList_pairwise.imp fun {e f} hlt heq => ?_
  subst heq
  omega

/-- Every node but the root is the target of exactly one edge. -/
theorem Preorder.edgeList_filter_target (h : Preorder pars) (hp : IsParent pars p m) :
    (edgeList pars).filter (fun e => e.2 = m) = [(p, m)] := by
  have hnd := h.edgeList_nodup.filter (fun e : ℕ × ℕ => decide (e.2 = m))
  refine List.perm_singleton.mp ((List.perm_ext_iff_of_nodup hnd (List.nodup_singleton _)).mpr ?_)
  rintro ⟨q, x⟩
  rw [List.mem_filter, mem_edgeList, List.mem_singleton, decide_eq_true_iff]
  constructor
  · rintro ⟨hq, rfl⟩
    rw [hq.unique hp]
  · intro he
    obtain ⟨rfl, rfl⟩ := Prod.mk.inj he
    exact ⟨hp, rfl⟩

/-- There are as many edges as nodes other than the root. -/
theorem Preorder.length_edgeList (h : Preorder pars) :
    (edgeList pars).length = pars.length := by
  -- the targets are distinct and run through `1, …, N - 1`
  have hnd : ((edgeList pars).map Prod.snd).Nodup := by
    refine (List.nodup_map_iff_inj_on h.edgeList_nodup).mpr ?_
    rintro ⟨p, m⟩ hp ⟨q, m'⟩ hq rfl
    rw [mem_edgeList] at hp hq
    rw [hp.unique hq]
  have hperm : ((edgeList pars).map Prod.snd).Perm (List.range' 1 pars.length) := by
    refine (List.perm_ext_iff_of_nodup hnd List.nodup_range').mpr fun m => ?_
    rw [List.mem_range'_1, List.mem_map]
    constructor
    · rintro ⟨⟨p, m'⟩, hp, rfl⟩
      have := (mem_edgeList.mp hp).le_length
      omega
    · rintro ⟨hm, hlt⟩
      obtain ⟨i, rfl⟩ : ∃ i, m = i + 1 := ⟨m - 1, by omega⟩
      have hi : i < pars.length := by omega
      exact ⟨(pars[i], i + 1), mem_edgeList.mpr ⟨i, rfl, List.getElem?_eq_getElem hi⟩, rfl⟩
  have := hperm.length_eq
  rwa [List.length_map, List.length_range'] at this

/-! ### The dictionary of children -/

section ChildDict

variable {ν : Type}

/-- Adds the nodes `m + 1, m + 2, …` under the given parents, one after the other.
`entry x` is what stands for node `x` in its parent's list. -/
def addChildren (entry : ℕ → ν) : OrderedDict ℕ (List ν) → ℕ → List ℕ → OrderedDict ℕ (List ν)
  | d, _, [] => d
  | d, m, p :: ps => addChildren entry (d.appendAt p (entry (m + 1))) (m + 1) ps

/-- The dictionary of children of a tree, built in node order. -/
def childDict (entry : ℕ → ν) (pars : List ℕ) : OrderedDict ℕ (List ν) :=
  addChildren entry .empty 0 pars

variable {entry : ℕ → ν}

theorem addChildren_append (d : OrderedDict ℕ (List ν)) (m : ℕ) (ps qs : List ℕ) :
    addChildren entry d m (ps ++ qs)
      = addChildren entry (addChildren entry d m ps) (m + ps.length) qs := by
  induction ps generalizing d m with
  | nil => rfl
  | cons p ps ih =>
    rw [List.cons_append, addChildren, ih, addChildren, List.length_cons, Nat.add_right_comm,
      Nat.add_assoc m]

theorem childDict_concat (pars : List ℕ) (p : ℕ) :
    childDict entry (pars ++ [p])
      = (childDict entry pars).appendAt p (entry (pars.length + 1)) := by
  unfold childDict
  rw [addChildren_append, Nat.zero_add]
  rfl

theorem keys_childDict (pars : List ℕ) : (childDict entry pars).keys = sources pars := by
  induction pars using List.reverseRecOn with
  | nil => rfl
  | append_singleton pars p ih =>
    rw [childDict_concat, OrderedDict.keys_appendAt, ih]
    exact (OrderedDict.firsts_concat pars p).symm

theorem get?_childDict (pars : List ℕ) (p : ℕ) :
    ((childDict entry pars).get? p).getD [] = (childrenOf pars p).map entry := by
  induction pars using List.reverseRecOn with
  | nil => rfl
  | append_singleton pars q ih =>
    rw [childDict_concat, OrderedDict.get?_appendAt, ih, childrenOf_concat, List.map_append]
    by_cases hpq : p = q
    · rw [if_pos hpq, if_pos hpq, List.map_singleton]
    · rw [if_neg hpq, if_neg hpq, List.map_nil]

/-- Its entries are the edges of the tree. -/
theorem pairs_childDict (pars : List ℕ) :
    (childDict entry pars).pairs = (edgeList pars).map fun e => (e.1, entry e.2) := by
  rw [OrderedDict.pairs_eq_flatMap_keys, keys_childDict, edgeList, List.map_flatMap]
  refine List.flatMap_congr fun p _ => ?_
  rw [get?_childDict, List.map_map, List.map_map]
  rfl

/-- **The dictionary determines the tree**, even as a mapping. -/
theorem childDict_same_iff (hentry : Function.Injective entry)
    (hlen : pars.length = qs.length) :
    OrderedDict.Same (childDict entry pars) (childDict entry qs) ↔ pars = qs := by
  constructor
  · intro h
    -- a node has one and the same children in both, and hence one parent
    have hchildren : ∀ p, childrenOf pars p = childrenOf qs p := by
      intro p
      have := congrArg (Option.getD · []) (h p)
      simp only [get?_childDict] at this
      exact (List.map_injective_iff.mpr hentry) this
    refine List.ext_getElem hlen fun i hi hi' => ?_
    have hp : i + 1 ∈ childrenOf pars pars[i] :=
      mem_childrenOf.mpr ⟨i, rfl, List.getElem?_eq_getElem hi⟩
    rw [hchildren, mem_childrenOf] at hp
    exact hp.unique ⟨i, rfl, List.getElem?_eq_getElem hi'⟩
  · rintro rfl k
    rfl

end ChildDict

end PreorderTree
