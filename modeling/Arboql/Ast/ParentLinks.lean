import Arboql.Ast.Visits

/-!
# Parent links against the reference tree

The reference recursion hands every element of a list the owner of the list
itself (`refNode`), where `process_node` hands it the counter. The two agree on
an element only while the counter is still the owner, that is until an element
has made a node. So the edges are those of the reference exactly when no list,
at any depth, has two elements that make nodes (`edges_eq_reference_iff`).
-/

namespace Arboql

open PreorderTree OrderedDict

variable {α : Type}

/-! ### Lists with two elements that make nodes -/

mutual

/-- **No list has two elements that make nodes**, at any depth: an element that
makes one is followed by elements that make none, such as empty lists. -/
def SingleFilled : Value α → Prop
  | .dict items => SingleFilledItems items
  | .str _ => True
  | .list elems => SingleFilledList elems
  | .other _ => True

def SingleFilledItems : List (String × Value α) → Prop
  | [] => True
  | (_, value) :: items => SingleFilled value ∧ SingleFilledItems items

def SingleFilledList : List (Value α) → Prop
  | [] => True
  | child :: elems =>
    SingleFilled child ∧ (0 < size child → sizeList elems = 0) ∧ SingleFilledList elems

end

mutual

def decidableSingleFilled : (v : Value α) → Decidable (SingleFilled v)
  | .dict items => decidableSingleFilledItems items
  | .str _ => .isTrue trivial
  | .list elems => decidableSingleFilledList elems
  | .other _ => .isTrue trivial

def decidableSingleFilledItems :
    (items : List (String × Value α)) → Decidable (SingleFilledItems items)
  | [] => .isTrue trivial
  | (_, value) :: items =>
    @instDecidableAnd _ _ (decidableSingleFilled value) (decidableSingleFilledItems items)

def decidableSingleFilledList :
    (elems : List (Value α)) → Decidable (SingleFilledList elems)
  | [] => .isTrue trivial
  | child :: elems =>
    @instDecidableAnd _ _ (decidableSingleFilled child)
      (@instDecidableAnd _ _ inferInstance (decidableSingleFilledList elems))

end

instance decidablePredSingleFilled : DecidablePred (SingleFilled (α := α)) := decidableSingleFilled

mutual

/-- What makes no node has no list with two elements that make nodes. -/
theorem singleFilled_of_size (v : Value α) (h : size v = 0) : SingleFilled v := by
  cases v with
  | dict items =>
    cases items with
    | nil => exact trivial
    | cons item items =>
      -- a key makes a node
      obtain ⟨key, value⟩ := item
      rw [size, sizeItems] at h
      omega
  | str x => exact trivial
  | list elems => exact singleFilledList_of_size elems h
  | other a => exact trivial

theorem singleFilledList_of_size (elems : List (Value α)) (h : sizeList elems = 0) :
    SingleFilledList elems := by
  match elems with
  | [] => exact trivial
  | child :: elems =>
    rw [sizeList] at h
    exact ⟨singleFilled_of_size child (by omega), fun _ => by omega,
      singleFilledList_of_size elems (by omega)⟩

end

variable [ToString α]

/-! ### The reference recursion -/

mutual

/-- **The reference recursion.** `value` is met under the node `owner`. -/
def refNode (s : TreeState) (value : Value α) (owner : ℕ) : TreeState :=
  match value with
  | .dict items => refItems s items owner
  | .str x => s.addChild owner x
  | .list elems => refChildren s elems owner
  | .other a => s.addChild owner (otherLabel a)

/-- One child of `owner` per key, each the owner of its value. -/
def refItems (s : TreeState) (items : List (String × Value α)) (owner : ℕ) : TreeState :=
  match items with
  | [] => s
  | (key, value) :: items =>
    let s := s.addChild owner key
    refItems (refNode s value s.nodeCounter) items owner

/-- Every element under the same `owner`. -/
def refChildren (s : TreeState) (elems : List (Value α)) (owner : ℕ) : TreeState :=
  match elems with
  | [] => s
  | child :: elems => refChildren (refNode s child owner) elems owner

end

/-- The edges of the reference recursion on a whole value. -/
def refEdges (t : Value α) : OrderedDict ℕ (List (ℕ × ℕ)) :=
  (refNode .rooted t 0).edges

/-! ### Its visits -/

mutual

/-- The parent and the label of each node that the reference makes under `owner`
when the counter is at `c`. -/
def refVisits : Value α → ℕ → ℕ → List (ℕ × String)
  | .dict items, owner, c => refVisitsItems items owner c
  | .str x, owner, _ => [(owner, x)]
  | .list elems, owner, c => refVisitsList elems owner c
  | .other a, owner, _ => [(owner, otherLabel a)]

def refVisitsItems : List (String × Value α) → ℕ → ℕ → List (ℕ × String)
  | [], _, _ => []
  | (key, value) :: items, owner, c =>
    (owner, key) ::
      (refVisits value (c + 1) (c + 1) ++ refVisitsItems items owner (c + 1 + size value))

def refVisitsList : List (Value α) → ℕ → ℕ → List (ℕ × String)
  | [], _, _ => []
  | child :: elems, owner, c =>
    refVisits child owner c ++ refVisitsList elems owner (c + size child)

end

mutual

@[simp] theorem length_refVisits (v : Value α) (owner c : ℕ) :
    (refVisits v owner c).length = size v := by
  cases v with
  | dict items => rw [refVisits, size, length_refVisitsItems]
  | str x => rw [refVisits, size, List.length_singleton]
  | list elems => rw [refVisits, size, length_refVisitsList]
  | other a => rw [refVisits, size, List.length_singleton]

@[simp] theorem length_refVisitsItems (items : List (String × Value α)) (owner c : ℕ) :
    (refVisitsItems items owner c).length = sizeItems items := by
  match items with
  | [] => rfl
  | (_, value) :: items =>
    rw [refVisitsItems, sizeItems, List.length_cons, List.length_append, length_refVisits value,
      length_refVisitsItems items]
    omega

@[simp] theorem length_refVisitsList (elems : List (Value α)) (owner c : ℕ) :
    (refVisitsList elems owner c).length = sizeList elems := by
  match elems with
  | [] => rfl
  | child :: elems =>
    rw [refVisitsList, sizeList, List.length_append, length_refVisits child,
      length_refVisitsList elems]

end

mutual

/-- The reference adds its visits. -/
theorem refNode_eq (v : Value α) (owner : ℕ) {s : TreeState} {c : ℕ} (hc : s.nodeCounter = c) :
    refNode s v owner = s.addAll (refVisits v owner c) := by
  cases v with
  | dict items =>
    rw [refVisits, refNode]
    exact refItems_eq items owner hc
  | str x => rw [refVisits, refNode]; rfl
  | list elems =>
    rw [refVisits, refNode]
    exact refChildren_eq elems owner hc
  | other a => rw [refVisits, refNode]; rfl

theorem refItems_eq (items : List (String × Value α)) (owner : ℕ) {s : TreeState} {c : ℕ}
    (hc : s.nodeCounter = c) :
    refItems s items owner = s.addAll (refVisitsItems items owner c) := by
  match items with
  | [] => rw [refItems, refVisitsItems]; rfl
  | (key, value) :: items =>
    have hkey : (s.addChild owner key).nodeCounter = c + 1 := by
      rw [TreeState.addChild_nodeCounter, hc]
    rw [refItems, refVisitsItems, TreeState.addAll_cons, TreeState.addAll_append]
    simp only [hkey]
    -- the value is met under its key's node, which is the counter
    rw [refNode_eq value (c + 1) hkey]
    refine refItems_eq items owner ?_
    rw [TreeState.addAll_nodeCounter, hkey, length_refVisits]

theorem refChildren_eq (elems : List (Value α)) (owner : ℕ) {s : TreeState} {c : ℕ}
    (hc : s.nodeCounter = c) :
    refChildren s elems owner = s.addAll (refVisitsList elems owner c) := by
  match elems with
  | [] => rw [refChildren, refVisitsList]; rfl
  | child :: elems =>
    rw [refChildren, refVisitsList, TreeState.addAll_append, refNode_eq child owner hc]
    refine refChildren_eq elems owner ?_
    rw [TreeState.addAll_nodeCounter, hc, length_refVisits]

end

/-- The parents of the nodes `1, 2, …` in the reference. -/
def refParents (t : Value α) : List ℕ := (refVisits t 0 0).map Prod.fst

theorem refEdges_eq (t : Value α) :
    refEdges t = childDict (fun m => (ATTR_UNSIGNED, m)) (refParents t) := by
  have hrooted : TreeState.rooted.nodeCounter = 0 := rfl
  rw [refEdges, refNode_eq t 0 hrooted]
  exact TreeState.addAll_edges _ _

/-! ### Where the two recursions part -/

mutual

/-- The first node of a call hangs from the counter. -/
theorem head_visits (v : Value α) (c : ℕ) :
    ((visits v c).map Prod.fst).head? = if size v = 0 then none else some c := by
  cases v with
  | dict items =>
    cases items with
    | nil => rfl
    | cons item items =>
      obtain ⟨key, value⟩ := item
      rw [visits, visitsItems, size, sizeItems, if_neg (by omega)]
      rfl
  | str x => rfl
  | list elems => exact head_visitsList elems c
  | other a => rfl

theorem head_visitsList (elems : List (Value α)) (c : ℕ) :
    ((visitsList elems c).map Prod.fst).head? = if sizeList elems = 0 then none else some c := by
  match elems with
  | [] => rfl
  | child :: elems =>
    rw [visitsList, sizeList, List.map_append, List.head?_append, head_visits child c,
      head_visitsList elems]
    -- the first node is the child's, unless the child makes none
    by_cases h : size child = 0
    · rw [if_pos h, h, Nat.add_zero, Nat.zero_add, Option.none_or]
    · have hsum : ¬ size child + sizeList elems = 0 := by omega
      rw [if_neg h, if_neg hsum, Option.some_or]

end

mutual

/-- The first node of the reference hangs from the owner. -/
theorem head_refVisits (v : Value α) (owner c : ℕ) :
    ((refVisits v owner c).map Prod.fst).head? = if size v = 0 then none else some owner := by
  cases v with
  | dict items =>
    cases items with
    | nil => rfl
    | cons item items =>
      obtain ⟨key, value⟩ := item
      rw [refVisits, refVisitsItems, size, sizeItems, if_neg (by omega)]
      rfl
  | str x => rfl
  | list elems => exact head_refVisitsList elems owner c
  | other a => rfl

theorem head_refVisitsList (elems : List (Value α)) (owner c : ℕ) :
    ((refVisitsList elems owner c).map Prod.fst).head?
      = if sizeList elems = 0 then none else some owner := by
  match elems with
  | [] => rfl
  | child :: elems =>
    rw [refVisitsList, sizeList, List.map_append, List.head?_append, head_refVisits child,
      head_refVisitsList elems]
    by_cases h : size child = 0
    · rw [if_pos h, h, Nat.zero_add, Option.none_or]
    · have hsum : ¬ size child + sizeList elems = 0 := by omega
      rw [if_neg h, if_neg hsum, Option.some_or]

end

/-- Once the counter has left the owner, the elements of a list agree with the
reference only if they make no node. -/
theorem visitsList_eq_iff_of_ne (elems : List (Value α)) {owner c : ℕ} (h : owner ≠ c) :
    (visitsList elems c).map Prod.fst = (refVisitsList elems owner c).map Prod.fst
      ↔ sizeList elems = 0 := by
  constructor
  · -- a first node would hang from two different places
    intro heq
    have hhead := congrArg List.head? heq
    rw [head_visitsList, head_refVisitsList] at hhead
    by_contra hsize
    rw [if_neg hsize, if_neg hsize] at hhead
    exact h (Option.some.inj hhead).symm
  · intro hsize
    have hnil : visitsList elems c = [] :=
      List.eq_nil_of_length_eq_zero (by rw [length_visitsList, hsize])
    have hnil' : refVisitsList elems owner c = [] :=
      List.eq_nil_of_length_eq_zero (by rw [length_refVisitsList, hsize])
    rw [hnil, hnil']

mutual

/-- **Where a call agrees with the reference.** -/
theorem visits_eq_iff (v : Value α) (c : ℕ) :
    (visits v c).map Prod.fst = (refVisits v c c).map Prod.fst ↔ SingleFilled v := by
  cases v with
  | dict items => exact visitsItems_eq_iff items c c
  | str x => exact ⟨fun _ => trivial, fun _ => rfl⟩
  | list elems => exact visitsList_eq_iff elems c
  | other a => exact ⟨fun _ => trivial, fun _ => rfl⟩

theorem visitsItems_eq_iff (items : List (String × Value α)) (owner c : ℕ) :
    (visitsItems items owner c).map Prod.fst = (refVisitsItems items owner c).map Prod.fst
      ↔ SingleFilledItems items := by
  match items with
  | [] => exact ⟨fun _ => trivial, fun _ => rfl⟩
  | (key, value) :: items =>
    have hlen : ((visits value (c + 1)).map Prod.fst).length
        = ((refVisits value (c + 1) (c + 1)).map Prod.fst).length := by
      rw [List.length_map, List.length_map, length_visits, length_refVisits]
    -- the value's visits are as many on both sides, so they can be compared apart
    rw [visitsItems, refVisitsItems, SingleFilledItems, List.map_cons, List.map_cons,
      List.map_append, List.map_append, List.cons_inj_right,
      List.append_eq_append_iff_of_size_eq_left hlen, visits_eq_iff value, visitsItems_eq_iff items]

theorem visitsList_eq_iff (elems : List (Value α)) (c : ℕ) :
    (visitsList elems c).map Prod.fst = (refVisitsList elems c c).map Prod.fst
      ↔ SingleFilledList elems := by
  match elems with
  | [] => exact ⟨fun _ => trivial, fun _ => rfl⟩
  | child :: elems =>
    have hlen : ((visits child c).map Prod.fst).length
        = ((refVisits child c c).map Prod.fst).length := by
      rw [List.length_map, List.length_map, length_visits, length_refVisits]
    rw [visitsList, refVisitsList, SingleFilledList, List.map_append, List.map_append,
      List.append_eq_append_iff_of_size_eq_left hlen, visits_eq_iff child]
    refine and_congr_right fun _ => ?_
    by_cases hsize : size child = 0
    · -- the child made no node, so the counter is still the owner
      rw [hsize, Nat.add_zero, visitsList_eq_iff elems]
      exact ⟨fun h => ⟨fun hpos => absurd hpos (by omega), h⟩, fun h => h.2⟩
    · -- the child has made a node, so the counter has left the owner
      rw [visitsList_eq_iff_of_ne elems (by omega)]
      exact ⟨fun h => ⟨fun _ => h, singleFilledList_of_size elems h⟩, fun h => h.1 (by omega)⟩

end

/-! ### The edges -/

/-- **Parent links against the reference tree.** The returned edges are those of
the reference recursion, as a dictionary and as a mapping, exactly when no list
has two elements that make nodes. -/
theorem edges_eq_reference_iff (t : Value α) :
    ((astDictToIncidenceListAndAttributes t).edges = refEdges t ↔ SingleFilled t)
      ∧ (Same (astDictToIncidenceListAndAttributes t).edges (refEdges t) ↔ SingleFilled t) := by
  have hlen : (parents t).length = (refParents t).length := by
    rw [parents, refParents, List.length_map, List.length_map, length_visits, length_refVisits]
  have hentry : Function.Injective fun m : ℕ => (ATTR_UNSIGNED, m) :=
    fun m m' h => (Prod.mk.inj h).2
  have hsame := childDict_same_iff hentry hlen
  rw [edges_eq, refEdges_eq]
  have hfilled : parents t = refParents t ↔ SingleFilled t := visits_eq_iff t 0
  refine ⟨⟨fun h => ?_, fun h => ?_⟩, hsame.trans hfilled⟩
  · exact hfilled.mp (hsame.mp fun k => by rw [h])
  · rw [hfilled.mpr h]

/-- The second of two strings in a list is hung from the first. -/
theorem edges_ne_reference_two_strings :
    ¬ ∀ t : Value Unit, (astDictToIncidenceListAndAttributes t).edges = refEdges t := by
  intro h
  have := h (.dict [("body", .list [.str "a", .str "b"])])
  revert this
  decide +kernel

end Arboql
