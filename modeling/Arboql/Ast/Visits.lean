import Arboql.Ast.AstUtils
import Arboql.Lib.PreorderTree

/-!
# What `process_node` visits

`process_node` changes its variables only by adding children, one for each key
and each leaf. So a call is the list of the children it adds (`visits`), and its
effect is that of adding them in order (`processNode_some`).

On every entry but the first, `current_node` is the counter: a key's value is
entered right after the key's node was made, and the list branch passes the
counter itself. This is why `visits` takes one number and not two.

The three returned dictionaries are functions of this list: `edges` is the
dictionary of children of the parents in it (`edges_eq`), and `nodes` and
`attributes_lookup` intern its labels (`interned`).
-/

namespace Arboql

open PreorderTree OrderedDict

variable {α : Type} [ToString α]

/-! ### The children a call adds -/

mutual

/-- The number of nodes that a call makes. -/
def size : Value α → ℕ
  | .dict items => sizeItems items
  | .str _ => 1
  | .list elems => sizeList elems
  | .other _ => 1

def sizeItems : List (String × Value α) → ℕ
  | [] => 0
  | (_, value) :: items => 1 + size value + sizeItems items

def sizeList : List (Value α) → ℕ
  | [] => 0
  | child :: elems => size child + sizeList elems

end

mutual

/-- **The visits of a call.** The parent and the label of each node that
`process_node` makes when it is entered with `current_node` and the counter both
at `c`. -/
def visits : Value α → ℕ → List (ℕ × String)
  | .dict items, c => visitsItems items c c
  | .str x, c => [(c, x)]
  | .list elems, c => visitsList elems c
  | .other a, c => [(c, otherLabel a)]

/-- The items of a dictionary, under the node `owner`. -/
def visitsItems : List (String × Value α) → ℕ → ℕ → List (ℕ × String)
  | [], _, _ => []
  | (key, value) :: items, owner, c =>
    (owner, key) :: (visits value (c + 1) ++ visitsItems items owner (c + 1 + size value))

/-- The elements of a list, each under the counter. -/
def visitsList : List (Value α) → ℕ → List (ℕ × String)
  | [], _ => []
  | child :: elems, c => visits child c ++ visitsList elems (c + size child)

end

mutual

@[simp] theorem length_visits (v : Value α) (c : ℕ) : (visits v c).length = size v := by
  cases v with
  | dict items => rw [visits, size, length_visitsItems]
  | str x => rw [visits, size, List.length_singleton]
  | list elems => rw [visits, size, length_visitsList]
  | other a => rw [visits, size, List.length_singleton]

@[simp] theorem length_visitsItems (items : List (String × Value α)) (owner c : ℕ) :
    (visitsItems items owner c).length = sizeItems items := by
  match items with
  | [] => rfl
  | (_, value) :: items =>
    rw [visitsItems, sizeItems, List.length_cons, List.length_append, length_visits value,
      length_visitsItems items]
    omega

@[simp] theorem length_visitsList (elems : List (Value α)) (c : ℕ) :
    (visitsList elems c).length = sizeList elems := by
  match elems with
  | [] => rfl
  | child :: elems =>
    rw [visitsList, sizeList, List.length_append, length_visits child, length_visitsList elems]

end

theorem visitsItems_append (items items' : List (String × Value α)) (owner c : ℕ) :
    visitsItems (items ++ items') owner c
      = visitsItems items owner c ++ visitsItems items' owner (c + sizeItems items) := by
  induction items generalizing c with
  | nil => rw [List.nil_append, visitsItems, sizeItems, List.nil_append, Nat.add_zero]
  | cons item items ih =>
    obtain ⟨key, value⟩ := item
    rw [List.cons_append, visitsItems, visitsItems, sizeItems, ih, List.cons_append,
      List.append_assoc]
    rw [show c + 1 + size value + sizeItems items = c + (1 + size value + sizeItems items) by
      omega]

/-! ### A call adds its visits -/

/-- Adds children one after the other. -/
def TreeState.addAll (s : TreeState) (vs : List (ℕ × String)) : TreeState :=
  vs.foldl (fun s v => s.addChild v.1 v.2) s

theorem TreeState.addAll_cons (s : TreeState) (v : ℕ × String) (vs : List (ℕ × String)) :
    s.addAll (v :: vs) = (s.addChild v.1 v.2).addAll vs := rfl

theorem TreeState.addAll_append (s : TreeState) (vs ws : List (ℕ × String)) :
    s.addAll (vs ++ ws) = (s.addAll vs).addAll ws := List.foldl_append

@[simp] theorem TreeState.setNode_nodeCounter (s : TreeState) (m : ℕ) (label : String) :
    (s.setNode m label).nodeCounter = s.nodeCounter := by
  unfold setNode getAttributeId
  cases s.attributesLookup.get? label <;> rfl

@[simp] theorem TreeState.setNode_edges (s : TreeState) (m : ℕ) (label : String) :
    (s.setNode m label).edges = s.edges := by
  unfold setNode getAttributeId
  cases s.attributesLookup.get? label <;> rfl

@[simp] theorem TreeState.addChild_nodeCounter (s : TreeState) (p : ℕ) (label : String) :
    (s.addChild p label).nodeCounter = s.nodeCounter + 1 :=
  setNode_nodeCounter _ _ _

@[simp] theorem TreeState.addChild_edges (s : TreeState) (p : ℕ) (label : String) :
    (s.addChild p label).edges = s.edges.appendAt p (ATTR_UNSIGNED, s.nodeCounter + 1) :=
  setNode_edges _ _ _

@[simp] theorem TreeState.addAll_nodeCounter (s : TreeState) (vs : List (ℕ × String)) :
    (s.addAll vs).nodeCounter = s.nodeCounter + vs.length := by
  induction vs generalizing s with
  | nil => rfl
  | cons v vs ih =>
    rw [addAll_cons, ih, addChild_nodeCounter, List.length_cons]
    omega

mutual

/-- **A call adds its visits**, provided it is entered at the counter. -/
theorem processNode_some (v : Value α) {s : TreeState} {c : ℕ} (hc : s.nodeCounter = c) :
    processNode s v (some c) = s.addAll (visits v c) := by
  cases v with
  | dict items =>
    rw [visits, processNode]
    exact processItems_eq items c hc
  | str x => rw [visits, processNode]; rfl
  | list elems =>
    rw [visits, processNode]
    exact processChildren_eq elems hc
  | other a => rw [visits, processNode]; rfl

theorem processItems_eq (items : List (String × Value α)) (owner : ℕ) {s : TreeState} {c : ℕ}
    (hc : s.nodeCounter = c) :
    processItems s items owner = s.addAll (visitsItems items owner c) := by
  match items with
  | [] => rw [processItems, visitsItems]; rfl
  | (key, value) :: items =>
    have hkey : (s.addChild owner key).nodeCounter = c + 1 := by
      rw [TreeState.addChild_nodeCounter, hc]
    rw [processItems, visitsItems, TreeState.addAll_cons, TreeState.addAll_append]
    simp only [hkey]
    -- the value is entered at its key's node, which is the counter
    rw [processNode_some value hkey]
    refine processItems_eq items owner ?_
    rw [TreeState.addAll_nodeCounter, hkey, length_visits]

theorem processChildren_eq (elems : List (Value α)) {s : TreeState} {c : ℕ}
    (hc : s.nodeCounter = c) :
    processChildren s elems = s.addAll (visitsList elems c) := by
  match elems with
  | [] => rw [processChildren, visitsList]; rfl
  | child :: elems =>
    -- the child is entered at the counter, wherever that is by now
    rw [processChildren, visitsList, TreeState.addAll_append, hc, processNode_some child hc]
    refine processChildren_eq elems ?_
    rw [TreeState.addAll_nodeCounter, hc, length_visits]

end

/-- The variables once the root is recorded. -/
def TreeState.rooted : TreeState := TreeState.initial.setNode 0 "_root"

/-- The first call records the root and then adds its visits. -/
theorem processNode_none (t : Value α) :
    processNode .initial t none = TreeState.rooted.addAll (visits t 0) := by
  have hrooted : TreeState.rooted.nodeCounter = 0 := rfl
  rw [← processNode_some t hrooted]
  cases t <;> simp only [processNode, enterNode, TreeState.rooted]

/-! ### The returned edges -/

/-- The parents of the nodes `1, 2, …`. -/
def parents (t : Value α) : List ℕ := (visits t 0).map Prod.fst

/-- The labels of the nodes `0, 1, …`. -/
def labels (t : Value α) : List String := "_root" :: (visits t 0).map Prod.snd

@[simp] theorem length_parents (t : Value α) : (parents t).length = size t := by
  rw [parents, List.length_map, length_visits]

@[simp] theorem length_labels (t : Value α) : (labels t).length = size t + 1 := by
  rw [labels, List.length_cons, List.length_map, length_visits]

theorem TreeState.addAll_edges (s : TreeState) (vs : List (ℕ × String)) :
    (s.addAll vs).edges
      = addChildren (fun m => (ATTR_UNSIGNED, m)) s.edges s.nodeCounter (vs.map Prod.fst) := by
  induction vs generalizing s with
  | nil => rfl
  | cons v vs ih => rw [addAll_cons, ih, addChild_edges, addChild_nodeCounter]; rfl

/-- **`edges` is the dictionary of children** of the parents visited. -/
theorem edges_eq (t : Value α) :
    (astDictToIncidenceListAndAttributes t).edges
      = childDict (fun m => (ATTR_UNSIGNED, m)) (parents t) := by
  unfold astDictToIncidenceListAndAttributes
  rw [processNode_none]
  exact TreeState.addAll_edges _ _

/-! ### The returned attributes -/

/-- **The labels are interned.** What the variables hold once the nodes
`0, 1, …` have been recorded with the given labels: the table numbers the
distinct labels in order of first occurrence, and a node's attribute is the
number of its label. -/
structure Interned (s : TreeState) (labels : List String) : Prop where
  /-- The table, in order of insertion. -/
  lookup : s.attributesLookup.items = (firsts labels).zipIdx
  /-- The counter is the number of distinct labels. -/
  attributeCounter : s.attributeCounter = (firsts labels).length
  /-- The nodes are recorded in order. -/
  keys : s.nodes.keys = List.range labels.length
  /-- Each node has the number of its label. -/
  node : ∀ m label, labels[m]? = some label →
    s.nodes.get? m = some (ATTR_UNSIGNED, (firsts labels).idxOf label)

namespace Interned

variable {s : TreeState} {labels : List String}

/-- The table maps each label to its position among the distinct labels. -/
theorem get?_lookup (h : Interned s labels) {label : String} {id : ℕ} :
    s.attributesLookup.get? label = some id ↔ (firsts labels)[id]? = some label := by
  rw [get?_eq_some_iff, h.lookup, List.mk_mem_zipIdx_iff_getElem?]

theorem get?_lookup_of_mem (h : Interned s labels) {label : String} (hl : label ∈ labels) :
    s.attributesLookup.get? label = some ((firsts labels).idxOf label) := by
  rw [h.get?_lookup]
  exact List.getElem?_idxOf (mem_firsts.mpr hl)

theorem get?_lookup_of_notMem (h : Interned s labels) {label : String} (hl : label ∉ labels) :
    s.attributesLookup.get? label = none := by
  cases hget : s.attributesLookup.get? label with
  | none => rfl
  | some id =>
    have hmem := List.mem_of_getElem? (h.get?_lookup.mp hget)
    exact absurd (mem_firsts.mp hmem) hl

/-- Numbers never change once assigned. -/
theorem idxOf_concat {label : String} (hl : label ∈ labels) (new : String) :
    (firsts (labels ++ [new])).idxOf label = (firsts labels).idxOf label := by
  obtain ⟨rest, hrest⟩ := firsts_prefix labels new
  rw [← hrest, List.idxOf_append_of_mem (mem_firsts.mpr hl)]

/-- The old nodes keep their numbers, and the new one gets `id`. -/
theorem get?_set_node (h : Interned s labels) {new : String} {id : ℕ}
    (hid : (firsts (labels ++ [new])).idxOf new = id) {m : ℕ} {label : String}
    (hm : (labels ++ [new])[m]? = some label) :
    (s.nodes.set labels.length (ATTR_UNSIGNED, id)).get? m
      = some (ATTR_UNSIGNED, (firsts (labels ++ [new])).idxOf label) := by
  by_cases hlt : m < labels.length
  · rw [List.getElem?_append_left hlt] at hm
    rw [get?_set_of_ne (by omega), h.node m label hm, idxOf_concat (List.mem_of_getElem? hm)]
  · obtain ⟨hle, -⟩ := List.getElem?_eq_some_iff.mp hm
    rw [List.length_append, List.length_singleton] at hle
    obtain rfl : m = labels.length := by omega
    rw [List.getElem?_concat_length] at hm
    obtain rfl := Option.some.inj hm
    rw [get?_set_self, hid]

theorem keys_set_node (h : Interned s labels) (new : String) (v : ℕ × ℕ) :
    (s.nodes.set labels.length v).keys = List.range (labels ++ [new]).length := by
  have hfresh : labels.length ∉ s.nodes.keys := by simp [h.keys]
  rw [keys_set, if_neg hfresh, h.keys, List.length_append, List.length_singleton,
    List.range_succ]

/-- One more node is recorded. -/
theorem setNode (h : Interned s labels) (new : String) :
    Interned (s.setNode labels.length new) (labels ++ [new]) := by
  by_cases hnew : new ∈ labels
  · -- a known label keeps its number
    have hlook := h.get?_lookup_of_mem hnew
    have hfirsts : firsts (labels ++ [new]) = firsts labels := by
      rw [firsts_concat, if_pos (mem_firsts.mpr hnew)]
    unfold TreeState.setNode TreeState.getAttributeId
    rw [hlook]
    exact {
      lookup := by rw [hfirsts]; exact h.lookup
      attributeCounter := by rw [hfirsts]; exact h.attributeCounter
      keys := h.keys_set_node new _
      node := fun m label hm => h.get?_set_node (by rw [hfirsts]) hm }
  · -- a new label gets the counter for its number
    have hlook := h.get?_lookup_of_notMem hnew
    have hnot : new ∉ firsts labels := fun hmem => hnew (mem_firsts.mp hmem)
    have hfirsts : firsts (labels ++ [new]) = firsts labels ++ [new] := by
      rw [firsts_concat, if_neg hnot]
    have hid : (firsts (labels ++ [new])).idxOf new = s.attributeCounter := by
      rw [hfirsts, List.idxOf_append_of_notMem hnot, h.attributeCounter]
      simp
    unfold TreeState.setNode TreeState.getAttributeId
    rw [hlook]
    exact {
      lookup := by
        have hkey : new ∉ s.attributesLookup.keys := get?_eq_none_iff.mp hlook
        rw [hfirsts, List.zipIdx_append, Nat.zero_add, ← h.attributeCounter, ← h.lookup]
        exact items_set_of_notMem hkey _
      attributeCounter := by
        rw [hfirsts, List.length_append, List.length_singleton, ← h.attributeCounter]
      keys := h.keys_set_node new _
      node := fun m label hm => h.get?_set_node hid hm }

/-- **A child more.** The new node is the one after the counter. -/
theorem addChild (h : Interned s labels) (hlen : labels.length = s.nodeCounter + 1) (p : ℕ)
    (new : String) : Interned (s.addChild p new) (labels ++ [new]) := by
  have hshared : Interned
      { s with
        nodeCounter := s.nodeCounter + 1
        edges := s.edges.appendAt p (ATTR_UNSIGNED, s.nodeCounter + 1) } labels :=
    ⟨h.lookup, h.attributeCounter, h.keys, h.node⟩
  have := hshared.setNode new
  rwa [hlen] at this

theorem addAll (h : Interned s labels) (hlen : labels.length = s.nodeCounter + 1)
    (vs : List (ℕ × String)) : Interned (s.addAll vs) (labels ++ vs.map Prod.snd) := by
  induction vs generalizing s labels with
  | nil => rwa [List.map_nil, List.append_nil]
  | cons v vs ih =>
    have := ih (h.addChild hlen v.1 v.2) (by simp [hlen])
    rwa [List.append_assoc, List.singleton_append] at this

end Interned

/-- After the root and some visits, their labels are interned. -/
theorem interned_rooted (vs : List (ℕ × String)) :
    Interned (TreeState.rooted.addAll vs) ("_root" :: vs.map Prod.snd) := by
  have hempty : Interned TreeState.initial [] :=
    ⟨rfl, rfl, rfl, fun m label hm => absurd hm (by simp)⟩
  exact (hempty.setNode "_root").addAll rfl vs

/-- **The returned attributes** intern the labels visited. -/
theorem interned (t : Value α) : Interned (processNode .initial t none) (labels t) := by
  rw [processNode_none]
  exact interned_rooted (visits t 0)

theorem keys_nodes (t : Value α) :
    (astDictToIncidenceListAndAttributes t).nodes.keys = List.range (size t + 1) := by
  rw [← length_labels]
  exact (interned t).keys

/-- The number of nodes. -/
theorem length_nodes (t : Value α) :
    (astDictToIncidenceListAndAttributes t).nodes.length = size t + 1 := by
  have hlen := congrArg List.length (keys_nodes t)
  rwa [keys, List.length_map, List.length_range] at hlen

/-! ### The output determines the visits -/

/-- Two outputs are equal in Python: the same mappings. -/
structure TreeOutput.Same (o o' : TreeOutput) : Prop where
  edges : OrderedDict.Same o.edges o'.edges
  nodes : OrderedDict.Same o.nodes o'.nodes
  attributesLookup : OrderedDict.Same o.attributesLookup o'.attributesLookup

theorem size_eq_of_same {t t' : Value α}
    (h : (astDictToIncidenceListAndAttributes t).Same (astDictToIncidenceListAndAttributes t')) :
    size t = size t' := by
  have hkeys : ∀ m, m < size t + 1 ↔ m < size t' + 1 := by
    intro m
    have := h.nodes.mem_keys m
    rwa [keys_nodes, keys_nodes, List.mem_range, List.mem_range] at this
  have h₁ := hkeys (size t)
  have h₂ := hkeys (size t')
  omega

/-- Equal outputs have equal labels: a node's attribute is the number of its label
in one and the same table. -/
theorem labels_eq_of_same {t t' : Value α}
    (h : (astDictToIncidenceListAndAttributes t).Same (astDictToIncidenceListAndAttributes t')) :
    labels t = labels t' := by
  have hsize := size_eq_of_same h
  refine List.ext_getElem (by rw [length_labels, length_labels, hsize]) fun m hm hm' => ?_
  have hlabel := List.getElem?_eq_getElem hm
  have hlabel' := List.getElem?_eq_getElem hm'
  have hnode := (interned t).node m _ hlabel
  have hnode' := (interned t').node m _ hlabel'
  -- the two labels have one number, and a number stands for one label
  have hid : (firsts (labels t)).idxOf (labels t)[m]
      = (firsts (labels t')).idxOf (labels t')[m] := by
    have := (hnode.symm.trans (h.nodes m)).trans hnode'
    exact (Prod.mk.inj (Option.some.inj this)).2
  have hlook := (interned t).get?_lookup_of_mem (List.getElem_mem hm)
  rw [hid] at hlook
  have hlook' := (h.attributesLookup _).symm.trans hlook
  have hat := (interned t').get?_lookup.mp hlook'
  have hat' := (interned t').get?_lookup.mp
    ((interned t').get?_lookup_of_mem (List.getElem_mem hm'))
  rw [hat] at hat'
  exact Option.some.inj hat'

/-- **The output determines the visits**, and is determined by them. -/
theorem same_output_iff (t t' : Value α) :
    (astDictToIncidenceListAndAttributes t).Same (astDictToIncidenceListAndAttributes t')
      ↔ visits t 0 = visits t' 0 := by
  constructor
  · intro h
    have hsize := size_eq_of_same h
    have hedges := h.edges
    rw [edges_eq, edges_eq, childDict_same_iff (fun m m' he => (Prod.mk.inj he).2)
      (by rw [length_parents, length_parents, hsize])] at hedges
    have hlabels : (visits t 0).map Prod.snd = (visits t' 0).map Prod.snd :=
      (List.cons.inj (labels_eq_of_same h)).2
    refine List.ext_getElem (by rw [length_visits, length_visits, hsize]) fun i hi hi' => ?_
    -- the parents come from the edges, the labels from the nodes and the table
    refine Prod.ext ?_ ?_
    · have := congrArg (·[i]?) hedges
      simpa [parents, List.getElem?_eq_getElem hi, List.getElem?_eq_getElem hi'] using this
    · have := congrArg (·[i]?) hlabels
      simpa [List.getElem?_eq_getElem hi, List.getElem?_eq_getElem hi'] using this
  · intro h
    unfold astDictToIncidenceListAndAttributes
    rw [processNode_none, processNode_none, h]
    exact ⟨fun _ => rfl, fun _ => rfl, fun _ => rfl⟩

end Arboql
