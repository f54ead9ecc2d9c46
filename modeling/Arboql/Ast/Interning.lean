import Arboql.Ast.Listing

/-!
# The attribute table during a run

`history` is the run of `process_node` with its past: what the shared variables
held each time a node had just been recorded, starting with the root. It is
`process_node` with one more list to append to (`recordNode_now`), and the state
in which node `m` has just been recorded is the one after `m` visits
(`getElem?_history`).

`DenseTable` is what the attribute table is for. The labels of the nodes recorded
so far are numbered from `0` without gaps, in the order of their first occurrence,
and every number is that of some node. Every state of the history has such a table
of the labels listed so far, and no number changes from one to a later one
(`history_dense`).
-/

namespace Arboql

open OrderedDict

variable {α : Type}

/-! ### A run with its past -/

/-- The shared variables, and what they held each time a node had been recorded. -/
structure Recorded where
  now : TreeState
  past : List TreeState

namespace Recorded

/-- A child more. -/
def addChild (h : Recorded) (currentNode : ℕ) (label : String) : Recorded :=
  let s := h.now.addChild currentNode label
  ⟨s, h.past ++ [s]⟩

/-- Several children, one after the other. -/
def addAll (h : Recorded) (vs : List (ℕ × String)) : Recorded :=
  vs.foldl (fun h v => h.addChild v.1 v.2) h

theorem addAll_cons (h : Recorded) (v : ℕ × String) (vs : List (ℕ × String)) :
    h.addAll (v :: vs) = (h.addChild v.1 v.2).addAll vs := rfl

theorem addAll_append (h : Recorded) (vs ws : List (ℕ × String)) :
    h.addAll (vs ++ ws) = (h.addAll vs).addAll ws := List.foldl_append

theorem addAll_now (h : Recorded) (vs : List (ℕ × String)) :
    (h.addAll vs).now = h.now.addAll vs := by
  induction vs generalizing h with
  | nil => rfl
  | cons v vs ih =>
    rw [addAll_cons, TreeState.addAll_cons, ih]
    rfl

/-- The states added to the past are those after each initial part of the visits. -/
theorem addAll_past (h : Recorded) (vs : List (ℕ × String)) :
    (h.addAll vs).past
      = h.past ++ (List.range vs.length).map fun i => h.now.addAll (vs.take (i + 1)) := by
  induction vs generalizing h with
  | nil => exact (List.append_nil _).symm
  | cons v vs ih =>
    rw [addAll_cons, ih, List.length_cons, List.range_succ_eq_map, List.map_cons, List.map_map]
    simp only [addChild, List.append_assoc]
    rfl

end Recorded

variable [ToString α]

mutual

/-- `process_node` past its start, with the past. -/
def recordNode (h : Recorded) (node : Value α) (currentNode : ℕ) : Recorded :=
  match node with
  | .dict items => recordItems h items currentNode
  | .str x => h.addChild currentNode x
  | .list elems => recordChildren h elems
  | .other a => h.addChild currentNode (otherLabel a)

def recordItems (h : Recorded) (items : List (String × Value α)) (currentNode : ℕ) : Recorded :=
  match items with
  | [] => h
  | (key, value) :: items =>
    let h := h.addChild currentNode key
    recordItems (recordNode h value h.now.nodeCounter) items currentNode

def recordChildren (h : Recorded) (elems : List (Value α)) : Recorded :=
  match elems with
  | [] => h
  | child :: elems => recordChildren (recordNode h child h.now.nodeCounter) elems

end

/-- **The history** of a run: the shared variables after the root has been recorded,
and after each further node has. -/
def history (t : Value α) : List TreeState :=
  (recordNode ⟨.rooted, [.rooted]⟩ t 0).past

mutual

/-- **Recording changes nothing.** -/
theorem recordNode_now (v : Value α) (h : Recorded) (currentNode : ℕ) :
    (recordNode h v currentNode).now = processNode h.now v (some currentNode) := by
  cases v with
  | dict items =>
    rw [recordNode, processNode]
    exact recordItems_now items h currentNode
  | str x => rw [recordNode, processNode]; rfl
  | list elems =>
    rw [recordNode, processNode]
    exact recordChildren_now elems h
  | other a => rw [recordNode, processNode]; rfl

theorem recordItems_now (items : List (String × Value α)) (h : Recorded) (currentNode : ℕ) :
    (recordItems h items currentNode).now = processItems h.now items currentNode := by
  match items with
  | [] => rw [recordItems, processItems]
  | (key, value) :: items =>
    rw [recordItems, processItems, recordItems_now items, recordNode_now value]
    rfl

theorem recordChildren_now (elems : List (Value α)) (h : Recorded) :
    (recordChildren h elems).now = processChildren h.now elems := by
  match elems with
  | [] => rw [recordChildren, processChildren]
  | child :: elems =>
    rw [recordChildren, processChildren, recordChildren_now elems, recordNode_now child]

end

mutual

/-- A recorded call adds its visits, provided it is entered at the counter. -/
theorem recordNode_eq (v : Value α) {h : Recorded} {c : ℕ} (hc : h.now.nodeCounter = c) :
    recordNode h v c = h.addAll (visits v c) := by
  cases v with
  | dict items =>
    rw [visits, recordNode]
    exact recordItems_eq items c hc
  | str x => rw [visits, recordNode]; rfl
  | list elems =>
    rw [visits, recordNode]
    exact recordChildren_eq elems hc
  | other a => rw [visits, recordNode]; rfl

theorem recordItems_eq (items : List (String × Value α)) (owner : ℕ) {h : Recorded} {c : ℕ}
    (hc : h.now.nodeCounter = c) :
    recordItems h items owner = h.addAll (visitsItems items owner c) := by
  match items with
  | [] => rw [recordItems, visitsItems]; rfl
  | (key, value) :: items =>
    have hkey : (h.addChild owner key).now.nodeCounter = c + 1 := by
      rw [Recorded.addChild, TreeState.addChild_nodeCounter, hc]
    rw [recordItems, visitsItems, Recorded.addAll_cons, Recorded.addAll_append]
    simp only [hkey]
    -- the value is entered at its key's node, which is the counter
    rw [recordNode_eq value hkey]
    refine recordItems_eq items owner ?_
    rw [Recorded.addAll_now, TreeState.addAll_nodeCounter, hkey, length_visits]

theorem recordChildren_eq (elems : List (Value α)) {h : Recorded} {c : ℕ}
    (hc : h.now.nodeCounter = c) :
    recordChildren h elems = h.addAll (visitsList elems c) := by
  match elems with
  | [] => rw [recordChildren, visitsList]; rfl
  | child :: elems =>
    -- the child is entered at the counter, wherever that is by now
    rw [recordChildren, visitsList, Recorded.addAll_append, hc, recordNode_eq child hc]
    refine recordChildren_eq elems ?_
    rw [Recorded.addAll_now, TreeState.addAll_nodeCounter, hc, length_visits]

end

/-- The history is the states after each number of visits. -/
theorem history_eq (t : Value α) :
    history t = (List.range (size t + 1)).map fun m =>
      TreeState.rooted.addAll ((visits t 0).take m) := by
  have hc : TreeState.rooted.nodeCounter = 0 := rfl
  unfold history
  rw [recordNode_eq t hc, Recorded.addAll_past, length_visits, List.range_succ_eq_map,
    List.map_cons, List.map_map]
  rfl

theorem getElem?_history {t : Value α} {m : ℕ} {s : TreeState} (h : (history t)[m]? = some s) :
    m ≤ size t ∧ s = TreeState.rooted.addAll ((visits t 0).take m) := by
  rw [history_eq, List.getElem?_map] at h
  obtain ⟨i, hi, rfl⟩ := Option.map_eq_some_iff.mp h
  obtain ⟨hlt, rfl⟩ := List.getElem?_eq_some_iff.mp hi
  rw [List.length_range] at hlt
  rw [List.getElem_range]
  exact ⟨by omega, rfl⟩

/-- The last state is the one that the tables are returned from. -/
theorem getLast?_history (t : Value α) :
    (history t).getLast? = some (processNode .initial t none) := by
  rw [history_eq, List.range_succ, List.map_append, List.map_singleton, List.getLast?_concat,
    ← length_visits t 0, List.take_length, processNode_none]

/-- Recording is faithful: the run with its past ends in the state of the run. -/
theorem recordNode_rooted (t : Value α) :
    (recordNode ⟨.rooted, [.rooted]⟩ t 0).now = processNode .initial t none := by
  have hc : TreeState.rooted.nodeCounter = 0 := rfl
  rw [recordNode_now, processNode_some t hc, processNode_none]

/-! ### A dense table -/

/-- **A dense interning table** of the labels of the nodes recorded so far. -/
structure DenseTable (s : TreeState) (labels : List String) : Prop where
  /-- The table has the labels, and no others. -/
  domain : ∀ label, (∃ id, s.attributesLookup.get? label = some id) ↔ label ∈ labels
  injective : s.attributesLookup.Injective
  /-- The numbers are those below the counter. -/
  range : ∀ id, (∃ label, s.attributesLookup.get? label = some id) ↔ id < s.attributeCounter
  /-- They are given in the order of first occurrence. -/
  order : ∀ label label' id id', s.attributesLookup.get? label = some id →
    s.attributesLookup.get? label' = some id' →
    (id < id' ↔ labels.idxOf label < labels.idxOf label')
  /-- The nodes are those recorded so far, and have numbers of the table. -/
  nodes_keys : s.nodes.keys = List.range labels.length
  nodes_lt : ∀ m attr, s.nodes.get? m = some attr → attr.2 < s.attributeCounter
  /-- Every number is used. -/
  used : ∀ id < s.attributeCounter, ∃ m attr, s.nodes.get? m = some attr ∧ attr.2 = id

/-- Numbers compare like first occurrences. -/
theorem firsts_lt_iff {labels : List String} {i j : ℕ} {label label' : String}
    (hi : (firsts labels)[i]? = some label) (hj : (firsts labels)[j]? = some label') :
    i < j ↔ labels.idxOf label < labels.idxOf label' := by
  obtain ⟨hi', rfl⟩ := List.getElem?_eq_some_iff.mp hi
  obtain ⟨hj', rfl⟩ := List.getElem?_eq_some_iff.mp hj
  have hsorted := List.pairwise_iff_getElem.mp (firsts_sorted labels)
  rcases Nat.lt_trichotomy i j with hlt | rfl | hgt
  · exact iff_of_true hlt (hsorted i j hi' hj' hlt)
  · exact iff_of_false (Nat.lt_irrefl i) (Nat.lt_irrefl _)
  · have := hsorted j i hj' hi' hgt
    exact iff_of_false (by omega) (by omega)

/-- **Interned labels have a dense table.** -/
theorem Interned.denseTable {s : TreeState} {labels : List String} (h : Interned s labels) :
    DenseTable s labels where
  domain label := by
    constructor
    · rintro ⟨id, hid⟩
      by_contra hnot
      rw [h.get?_lookup_of_notMem hnot] at hid
      cases hid
    · exact fun hmem => ⟨_, h.get?_lookup_of_mem hmem⟩
  injective := h.injective
  range id := by
    rw [h.attributeCounter]
    constructor
    · rintro ⟨label, hid⟩
      exact (List.getElem?_eq_some_iff.mp (h.get?_lookup.mp hid)).1
    · exact fun hlt => ⟨_, h.get?_lookup.mpr (List.getElem?_eq_getElem hlt)⟩
  order label label' id id' hid hid' := firsts_lt_iff (h.get?_lookup.mp hid) (h.get?_lookup.mp hid')
  nodes_keys := h.keys
  nodes_lt m attr hm := by
    -- a recorded node has the number of its label, which is in the table
    have hkey : m ∈ s.nodes.keys := by
      by_contra hnot
      rw [get?_eq_none_iff.mpr hnot] at hm
      cases hm
    rw [h.keys, List.mem_range] at hkey
    have hnode := h.node m _ (List.getElem?_eq_getElem hkey)
    obtain rfl := Option.some.inj (hm.symm.trans hnode)
    rw [h.attributeCounter]
    exact List.idxOf_lt_length_of_mem (mem_firsts.mpr (List.getElem_mem hkey))
  used id hlt := by
    -- the label with that number is the label of some node
    rw [h.attributeCounter] at hlt
    obtain ⟨m, hm⟩ := List.mem_iff_getElem?.mp (mem_firsts.mp (List.getElem_mem hlt))
    exact ⟨m, _, h.node m _ hm, (nodup_firsts labels).idxOf_getElem id hlt⟩

/-! ### Along the run -/

/-- In the state in which node `m` has just been recorded, the labels of the nodes
up to `m` are interned. -/
theorem interned_history {t : Value α} {m : ℕ} {s : TreeState} (h : (history t)[m]? = some s) :
    Interned s (("_root" :: listing t).take (m + 1)) := by
  obtain ⟨-, rfl⟩ := getElem?_history h
  have hrooted := interned_rooted ((visits t 0).take m)
  rw [List.map_take, map_snd_visits] at hrooted
  exact hrooted

/-- More labels change no number. -/
theorem firsts_append_getElem? {labels more : List String} {id : ℕ} {label : String}
    (h : (firsts labels)[id]? = some label) : (firsts (labels ++ more))[id]? = some label := by
  induction more using List.reverseRecOn with
  | nil => rwa [List.append_nil]
  | append_singleton more new ih =>
    obtain ⟨rest, hrest⟩ := firsts_prefix (labels ++ more) new
    rw [← List.append_assoc, ← hrest, List.getElem?_append_left
      (List.getElem?_eq_some_iff.mp ih).1]
    exact ih

/-- **The attribute table is a dense interning table.** After the root and after each
further node has been recorded, the table numbers the labels of the nodes recorded
so far from `0` without gaps and in the order of first occurrence, every node has
a number of the table and every number is that of a node. Numbers never change. The
run with its past ends where the run does, and that state is the last of its
history. -/
theorem history_dense (t : Value α) :
    (recordNode ⟨.rooted, [.rooted]⟩ t 0).now = processNode .initial t none
      ∧ (history t).getLast? = some (processNode .initial t none)
      ∧ (history t).length = (astDictToIncidenceListAndAttributes t).nodes.length
      ∧ (∀ m s, (history t)[m]? = some s →
        s.nodes.keys = List.range (m + 1) ∧ DenseTable s (("_root" :: listing t).take (m + 1)))
      ∧ ∀ (m m' : ℕ) (s s' : TreeState), m ≤ m' → (history t)[m]? = some s →
        (history t)[m']? = some s' → ∀ label id, s.attributesLookup.get? label = some id →
          s'.attributesLookup.get? label = some id := by
  refine ⟨recordNode_rooted t, getLast?_history t, ?_, fun m s hm => ?_,
    fun m m' s s' hle hm hm' label id hid => ?_⟩
  · rw [length_nodes, history_eq, List.length_map, List.length_range]
  · have hint := interned_history hm
    refine ⟨?_, hint.denseTable⟩
    have hlen := length_labels t
    rw [hint.keys, List.length_take, ← labels_eq, hlen,
      Nat.min_eq_left (Nat.succ_le_succ (getElem?_history hm).1)]
  · -- the labels up to `m` are the first of those up to `m'`
    have hsplit : ("_root" :: listing t).take (m' + 1)
        = ("_root" :: listing t).take (m + 1)
          ++ (("_root" :: listing t).drop (m + 1)).take (m' - m) := by
      rw [← List.take_add, show m + 1 + (m' - m) = m' + 1 by omega]
    have hid' := (interned_history hm).get?_lookup.mp hid
    rw [(interned_history hm').get?_lookup, hsplit]
    exact firsts_append_getElem? hid'

end Arboql
