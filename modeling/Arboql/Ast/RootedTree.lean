import Arboql.Ast.Visits

/-!
# The output is a rooted tree numbered in preorder

A call of `process_node` entered at the node `c`, the counter, hangs its first
node from `c` and every later one from the node made last or from one of its
ancestors (`preorder_visits`). So the parents of a whole run are a preorder
numbering (`preorder_parents`), and with it the returned edges are those of a
rooted tree (`ast_dict_rooted_preorder`), listed in lexicographic order
(`ast_dict_edges_sorted`).
-/

namespace Arboql

open PreorderTree OrderedDict

variable {α : Type} [ToString α]

/-! ### Every visit keeps the numbering a preorder -/

mutual

/-- **The visits of a call extend a preorder**, and the counter goes on to
descend from everything it descended from. -/
theorem preorder_visits (v : Value α) {pars : List ℕ} (h : Preorder pars) :
    Preorder (pars ++ (visits v pars.length).map Prod.fst)
      ∧ Descends (pars ++ (visits v pars.length).map Prod.fst) pars.length
          (pars.length + size v) := by
  have hleaf : Preorder (pars ++ [pars.length])
      ∧ Descends (pars ++ [pars.length]) pars.length (pars.length + 1) :=
    ⟨h.add .refl, .concat .refl⟩
  cases v with
  | dict items => exact preorder_visitsItems items h .refl
  | str x => exact hleaf
  | list elems => exact preorder_visitsList elems h .refl
  | other a => exact hleaf

theorem preorder_visitsItems (items : List (String × Value α)) {pars : List ℕ} {owner : ℕ}
    (h : Preorder pars) (ho : Descends pars owner pars.length) :
    Preorder (pars ++ (visitsItems items owner pars.length).map Prod.fst)
      ∧ Descends (pars ++ (visitsItems items owner pars.length).map Prod.fst) owner
          (pars.length + sizeItems items) := by
  match items with
  | [] =>
    rw [visitsItems, List.map_nil, List.append_nil]
    exact ⟨h, ho⟩
  | (key, value) :: items =>
    have hkey : (pars ++ [owner]).length = pars.length + 1 := by
      rw [List.length_append, List.length_singleton]
    obtain ⟨hpre, hdesc⟩ := preorder_visits value (h.add ho)
    have hlen : (pars ++ [owner] ++ (visits value (pars.length + 1)).map Prod.fst).length
        = pars.length + 1 + size value := by
      rw [List.length_append, hkey, List.length_map, length_visits]
    rw [hkey] at hpre hdesc
    -- the owner is above its key's node, and that one above what the value made
    have howner : Descends (pars ++ [owner] ++ (visits value (pars.length + 1)).map Prod.fst)
        owner (pars ++ [owner] ++ (visits value (pars.length + 1)).map Prod.fst).length := by
      rw [hlen]
      exact ((Descends.concat (.refl (a := owner))).append _).trans hdesc
    have hrest := preorder_visitsItems items hpre howner
    rw [hlen] at hrest
    rw [visitsItems, sizeItems, List.map_cons, List.map_append]
    rw [show pars.length + (1 + size value + sizeItems items)
        = pars.length + 1 + size value + sizeItems items by omega]
    simpa only [List.append_assoc, List.singleton_append, List.cons_append, List.nil_append]
      using hrest

theorem preorder_visitsList (elems : List (Value α)) {pars : List ℕ} {a : ℕ}
    (h : Preorder pars) (ha : Descends pars a pars.length) :
    Preorder (pars ++ (visitsList elems pars.length).map Prod.fst)
      ∧ Descends (pars ++ (visitsList elems pars.length).map Prod.fst) a
          (pars.length + sizeList elems) := by
  match elems with
  | [] =>
    rw [visitsList, List.map_nil, List.append_nil]
    exact ⟨h, ha⟩
  | child :: elems =>
    obtain ⟨hpre, hdesc⟩ := preorder_visits child h
    have hlen : (pars ++ (visits child pars.length).map Prod.fst).length
        = pars.length + size child := by
      rw [List.length_append, List.length_map, length_visits]
    -- the next element hangs from the counter, which descends from this one's
    have hrest := preorder_visitsList elems hpre (a := a) (by
      rw [hlen]
      exact (ha.append _).trans hdesc)
    rw [hlen] at hrest
    rw [visitsList, sizeList, List.map_append, ← Nat.add_assoc]
    simpa only [List.append_assoc] using hrest

end

/-- **The parents of a run are a preorder numbering.** -/
theorem preorder_parents (t : Value α) : Preorder (parents t) :=
  (preorder_visits t .root).1

/-! ### The returned edges as pairs of nodes -/

/-- The pairs `(source, target)` of a dictionary of edges in iteration order, the
target being the second component of an entry. -/
def edgePairs (edges : OrderedDict ℕ (List (ℕ × ℕ))) : List (ℕ × ℕ) :=
  edges.pairs.map fun e => (e.1, e.2.2)

/-- `m` is reached from `a` along the edges. -/
def Reaches (pairs : List (ℕ × ℕ)) (a m : ℕ) : Prop :=
  Relation.ReflTransGen (fun s t => (s, t) ∈ pairs) a m

theorem edgePairs_eq (t : Value α) :
    edgePairs (astDictToIncidenceListAndAttributes t).edges = edgeList (parents t) := by
  unfold edgePairs
  rw [edges_eq, pairs_childDict, List.map_map]
  exact List.map_id _

theorem reaches_edgeList {pars : List ℕ} {a m : ℕ} :
    Reaches (edgeList pars) a m ↔ Descends pars a m := by
  unfold Reaches Descends
  rw [show (fun s t => (s, t) ∈ edgeList pars) = IsParent pars from
    funext fun s => funext fun t => propext mem_edgeList]

/-- **A rooted tree numbered in preorder.** What the edges `pairs` say about the
nodes `0, …, N-1`. -/
structure RootedPreorder (pairs : List (ℕ × ℕ)) (N : ℕ) : Prop where
  /-- There is one edge less than there are nodes. -/
  count : pairs.length + 1 = N
  /-- Every node but the root is the target of exactly one edge, from below. -/
  parent : ∀ m, 1 ≤ m → m < N → ∃ s < m, pairs.filter (fun e => e.2 = m) = [(s, m)]
  /-- No edge targets the root. -/
  root : ∀ e ∈ pairs, e.2 ≠ 0
  /-- Every node is reachable from the root. -/
  reachable : ∀ m < N, Reaches pairs 0 m
  /-- The parent of `m + 1` is `m` or an ancestor of `m`. -/
  preorder : ∀ m, m + 1 < N → ∃ s, (s, m + 1) ∈ pairs ∧ Reaches pairs s m
  /-- Subtrees are contiguous intervals that start at their root. -/
  interval : ∀ a m, Reaches pairs a m → a ≤ m ∧ ∀ x, a ≤ x → x ≤ m → Reaches pairs a x

/-- A preorder numbering is a rooted tree. -/
theorem rootedPreorder_edgeList {pars : List ℕ} (h : Preorder pars) :
    RootedPreorder (edgeList pars) (pars.length + 1) where
  count := by rw [h.length_edgeList]
  parent m hm hN := by
    obtain ⟨i, rfl⟩ : ∃ i, m = i + 1 := ⟨m - 1, by omega⟩
    have hi : i < pars.length := by omega
    have hp : IsParent pars pars[i] (i + 1) := ⟨i, rfl, List.getElem?_eq_getElem hi⟩
    exact ⟨_, h.parent_lt hp, h.edgeList_filter_target hp⟩
  root e he := by
    have := (mem_edgeList.mp (show (e.1, e.2) ∈ edgeList pars from he)).le_length
    omega
  reachable m hm := reaches_edgeList.mpr (h.reachable (by omega))
  preorder m hm := by
    obtain ⟨p, hp, hd⟩ := h.parent_succ (m := m) (by omega)
    exact ⟨p, mem_edgeList.mpr hp, reaches_edgeList.mpr hd⟩
  interval a m ham := by
    have hd := reaches_edgeList.mp ham
    exact ⟨h.descends_le hd, fun x hax hxm =>
      reaches_edgeList.mpr (h.descends_interval hd hax hxm)⟩

/-! ### The two results -/

/-- **The output is a rooted tree numbered in preorder.** -/
theorem ast_dict_rooted_preorder (t : Value α) :
    (astDictToIncidenceListAndAttributes t).nodes.keys
        = List.range (astDictToIncidenceListAndAttributes t).nodes.length
      ∧ RootedPreorder (edgePairs (astDictToIncidenceListAndAttributes t).edges)
          (astDictToIncidenceListAndAttributes t).nodes.length := by
  rw [length_nodes, keys_nodes, edgePairs_eq, ← length_parents t]
  exact ⟨rfl, rootedPreorder_edgeList (preorder_parents t)⟩

/-- **The edges come out in CSR order**: strictly increasing by source and then by
target, the sources being met in ascending order. -/
theorem ast_dict_edges_sorted (t : Value α) :
    (edgePairs (astDictToIncidenceListAndAttributes t).edges).Pairwise
        (fun e f => e.1 < f.1 ∨ e.1 = f.1 ∧ e.2 < f.2)
      ∧ (astDictToIncidenceListAndAttributes t).edges.keys.Pairwise (· < ·) := by
  rw [edgePairs_eq, edges_eq, keys_childDict]
  exact ⟨(preorder_parents t).edgeList_pairwise, (preorder_parents t).sources_pairwise⟩

end Arboql
