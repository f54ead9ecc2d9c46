import Arboql.Graph.GraphBuilder

/-!
# `create_graph` fills what it allocates

On integer targets the loops of `create_graph` are one fixed sequence of calls
(`fillCalls`): a call of `add_node` for each item of `nodes`, and then a call of
`add_edge` for each pair of `edges` in iteration order, its slot being the number
of the pair (`fillEdges_int`); and the sizing pass counts the same pairs
(`countTargets_int`).

Each slot gets one call (`filterMap_nodeAt`, `filterMap_edgeAt`), and a run of
calls in range writes to no byte outside the arrays (`GraphAt.runCalls_frame`). So
a graph that was allocated is filled exactly (`createGraph_fills`).
-/

namespace Arboql

open CLayout OrderedDict
open Bindings (PyArg PyError)

/-- The edges as `create_graph` gets them, the targets being `int`s. -/
def intEdges (edges : OrderedDict ℕ (List ℕ)) : OrderedDict ℕ (List PyArg) :=
  edges.mapValues (List.map fun target : ℕ => .int target)

/-- The calls for the nodes. -/
def nodeCalls (nodes : OrderedDict ℕ (ℕ × ℕ)) : List GraphCall :=
  nodes.items.map fun item => .addNode item.1 ⟨item.2.1, item.2.2⟩

/-- The calls for pairs of source and target, from slot `j` on. -/
def edgeCalls (j : ℕ) (pairs : List (ℕ × ℕ)) : List GraphCall :=
  (pairs.zipIdx j).map fun p => .addEdge p.2 ⟨p.1.1, p.1.2, ATTR_UNSIGNED, p.1.2⟩

/-- All the calls of `create_graph`. -/
def fillCalls (nodes : OrderedDict ℕ (ℕ × ℕ)) (edges : OrderedDict ℕ (List ℕ)) :
    List GraphCall :=
  nodeCalls nodes ++ edgeCalls 0 edges.pairs

/-! ### The loops are the calls -/

theorem runCalls_append (m : Memory) (graph : ℕ) (calls calls' : List GraphCall) :
    runCalls m graph (calls ++ calls')
      = runCalls m graph calls >>= fun m₁ => runCalls m₁ graph calls' :=
  List.foldlM_append

theorem edgeCalls_append (j : ℕ) (pairs pairs' : List (ℕ × ℕ)) :
    edgeCalls j (pairs ++ pairs')
      = edgeCalls j pairs ++ edgeCalls (j + pairs.length) pairs' := by
  unfold edgeCalls
  rw [List.zipIdx_append, List.map_append]

theorem targetsOf_intEdges (edges : OrderedDict ℕ (List ℕ)) (source : ℕ) :
    targetsOf (intEdges edges) source
      = ((edges.get? source).getD []).map fun target : ℕ => .int target := by
  unfold targetsOf intEdges
  rw [get?_mapValues]
  cases edges.get? source <;> rfl

/-- The pairs of some sources. -/
def pairsOf (edges : OrderedDict ℕ (List ℕ)) (sources : List ℕ) : List (ℕ × ℕ) :=
  sources.flatMap fun source => ((edges.get? source).getD []).map fun target => (source, target)

/-- The loop over the nodes. -/
theorem fillNodes_eq (m : Memory) (graph : ℕ) (nodes : OrderedDict ℕ (ℕ × ℕ)) :
    fillNodes m graph nodes.items = runCalls m graph (nodeCalls nodes) := by
  unfold fillNodes runCalls nodeCalls
  rw [List.foldlM_map]
  rfl

/-- The pairs with integer targets. -/
theorem targetPairs_intEdges (edges : OrderedDict ℕ (List ℕ)) (sources : List ℕ) :
    targetPairs (intEdges edges) sources
      = (pairsOf edges sources).map fun p => (p.1, .int p.2) := by
  unfold targetPairs pairsOf
  rw [List.map_flatMap]
  refine List.flatMap_congr fun source _ => ?_
  rw [targetsOf_intEdges, List.map_map, List.map_map]
  rfl

/-- On integer targets the loop is a run of calls. -/
theorem addTargets_int (m : Memory) (graph j : ℕ) (pairs : List (ℕ × ℕ)) :
    addTargets m graph j (pairs.map fun p => (p.1, .int p.2))
      = runCalls m graph (edgeCalls j pairs) := by
  unfold addTargets runCalls edgeCalls
  rw [List.zipIdx_map, List.foldlM_map, List.foldlM_map]
  rfl

/-- **The loops over the edges.** The counter is the number of the pairs met so far. -/
theorem fillEdges_int (graph : ℕ) (edges : OrderedDict ℕ (List ℕ)) (sources : List ℕ)
    (m : Memory) (j : ℕ) :
    fillEdges graph (intEdges edges) sources (m, j)
      = (runCalls m graph (edgeCalls j (pairsOf edges sources))).map
          fun m => (m, j + (pairsOf edges sources).length) := by
  rw [fillEdges_eq, targetPairs_intEdges, addTargets_int, List.length_map]

/-- The sizing pass counts the pairs. -/
theorem countTargets_int (edges : OrderedDict ℕ (List ℕ)) :
    countTargets (intEdges edges) = edges.pairs.length := by
  have hkeys : (intEdges edges).keys = edges.keys := keys_mapValues _ _
  rw [countTargets_eq, hkeys, targetPairs_intEdges, List.length_map, pairs_eq_flatMap_keys]
  rfl

/-- **`create_graph` is an allocation and a run of calls.** -/
theorem createGraph_eq (m₀ : Memory) (alloc : Allocator) (nodes : OrderedDict ℕ (ℕ × ℕ))
    (edges : OrderedDict ℕ (List ℕ)) :
    createGraph m₀ alloc nodes (intEdges edges) = (do
      let (m, graph) ← Bindings.mallocGraph m₀ alloc (.int nodes.length)
        (.int edges.pairs.length)
      let m ← runCalls m graph (fillCalls nodes edges)
      return (m, graph)) := by
  unfold createGraph
  rw [countTargets_int]
  refine congrArg (_ >>= ·) (funext fun r => ?_)
  obtain ⟨m, graph⟩ := r
  have hkeys : (intEdges edges).keys = edges.keys := keys_mapValues _ _
  have hpairs : pairsOf edges edges.keys = edges.pairs := (pairs_eq_flatMap_keys edges).symm
  simp only [fillNodes_eq, fillCalls, runCalls_append, hkeys]
  cases runCalls m graph (nodeCalls nodes) with
  | error e => rfl
  | ok m₁ =>
    -- the nodes are in, and the counter starts at `0`
    have hedges := fillEdges_int graph edges edges.keys m₁ 0
    rw [hpairs] at hedges
    change (fillEdges graph (intEdges edges) edges.keys (m₁, 0) >>= _) = _
    rw [hedges]
    change _ = runCalls m₁ graph (edgeCalls 0 edges.pairs) >>= _
    cases runCalls m₁ graph (edgeCalls 0 edges.pairs) <;> rfl

/-! ### One call for each slot -/

section Slots

variable {nodes : OrderedDict ℕ (ℕ × ℕ)} {edges : OrderedDict ℕ (List ℕ)}

/-- Each node slot gets one call, with the item of the node. -/
theorem filterMap_nodeAt {i ty v : ℕ} (h : nodes.get? i = some (ty, v)) :
    (fillCalls nodes edges).filterMap (GraphCall.nodeAt i) = [⟨ty, v⟩] := by
  -- no call for an edge is on a node slot
  have hedges : (edgeCalls 0 edges.pairs).filterMap (GraphCall.nodeAt i) = [] := by
    unfold edgeCalls
    rw [List.filterMap_map]
    exact List.filterMap_eq_nil_iff.mpr fun p _ => rfl
  rw [fillCalls, List.filterMap_append, hedges, List.append_nil, nodeCalls, List.filterMap_map]
  exact filterMap_key nodes.nodup (get?_eq_some_iff.mp h)

/-- Each edge slot gets one call, with the pair of its number. -/
theorem filterMap_edgeAt {j source target : ℕ}
    (h : edges.pairs[j]? = some (source, target)) :
    (fillCalls nodes edges).filterMap (GraphCall.edgeAt j)
      = [⟨source, target, ATTR_UNSIGNED, target⟩] := by
  have hnodes : (nodeCalls nodes).filterMap (GraphCall.edgeAt j) = [] := by
    unfold nodeCalls
    rw [List.filterMap_map]
    exact List.filterMap_eq_nil_iff.mpr fun item _ => rfl
  rw [fillCalls, List.filterMap_append, hnodes, List.nil_append, edgeCalls, List.filterMap_map]
  -- the pairs are numbered, so no slot comes twice
  have hnodup : ((edges.pairs.zipIdx 0).map Prod.snd).Nodup := by
    rw [List.zipIdx_map_snd]
    exact List.nodup_range'
  exact filterMap_key hnodup (List.mk_mem_zipIdx_iff_getElem?.mpr h)

/-- A slot that gets one call holds what that call was given. -/
theorem lastNode_of_filterMap {calls : List GraphCall} {i : ℕ} {a : NodeArgs}
    (h : calls.filterMap (GraphCall.nodeAt i) = [a]) : lastNode calls i = some a := by
  unfold lastNode
  rw [← List.head?_filterMap, List.filterMap_reverse, h]
  rfl

theorem lastEdge_of_filterMap {calls : List GraphCall} {j : ℕ} {e : EdgeArgs}
    (h : calls.filterMap (GraphCall.edgeAt j) = [e]) : lastEdge calls j = some e := by
  unfold lastEdge
  rw [← List.head?_filterMap, List.filterMap_reverse, h]
  rfl

/-- The calls stay within the counts that the graph is allocated with. -/
theorem fillCalls_inRange {n : ℕ} (hkeys : nodes.keys.Perm (List.range n))
    (hvalues : ∀ i ty v, nodes.get? i = some (ty, v) → v < 2 ^ 32)
    (hids : ∀ source target, (source, target) ∈ edges.pairs →
      source < 2 ^ 32 ∧ target < 2 ^ 32) :
    ∀ c ∈ fillCalls nodes edges, c.InRange n edges.pairs.length := by
  intro c hc
  rcases List.mem_append.mp hc with hc | hc
  · -- a node: its id is a key
    obtain ⟨⟨i, ty, v⟩, hitem, rfl⟩ := List.mem_map.mp hc
    have hkey : i ∈ nodes.keys := List.mem_map.mpr ⟨_, hitem, rfl⟩
    exact ⟨List.mem_range.mp (hkeys.mem_iff.mp hkey),
      hvalues i ty v (get?_eq_some_iff.mpr hitem)⟩
  · -- an edge: its slot is the number of a pair
    obtain ⟨⟨⟨source, target⟩, j⟩, hpair, rfl⟩ := List.mem_map.mp hc
    have hat := List.mk_mem_zipIdx_iff_getElem?.mp hpair
    obtain ⟨hs, ht⟩ := hids source target (List.mem_of_getElem? hat)
    exact ⟨(List.getElem?_eq_some_iff.mp hat).1, hs, ht, ht⟩

end Slots

/-! ### Nothing else is written -/

theorem writeWords_of_disjoint {bytes : ℕ → UInt8} {addr a : ℕ} {ws : List ℕ}
    (h : a < addr ∨ addr + 4 * ws.length ≤ a) : writeWords bytes addr ws a = bytes a := by
  induction ws generalizing bytes addr with
  | nil => rfl
  | cons w ws ih =>
    rw [List.length_cons] at h
    rw [writeWords, ih (by omega), writeLE_of_disjoint (by omega)]

section Frame

variable {m m' : Memory} {graph nodesN edgesN edgesPtr nodesPtr : ℕ} {calls : List GraphCall}

/-- A call writes inside its array. -/
theorem GraphCall.write_frame {c : GraphCall} (hc : c.InRange nodesN edgesN) {a : ℕ}
    (hedges : a < edgesPtr ∨ edgesPtr + 16 * edgesN ≤ a)
    (hnodes : a < nodesPtr ∨ nodesPtr + 8 * nodesN ≤ a) (bytes : ℕ → UInt8) :
    c.write edgesPtr nodesPtr bytes a = bytes a := by
  cases c with
  | addEdge i e =>
    have hi := hc.1
    exact writeWords_of_disjoint (by rw [e.length_words]; omega)
  | addNode j args =>
    have hj := hc.1
    exact writeWords_of_disjoint (by rw [args.length_words]; omega)

/-- **The frame of a run**: every byte outside the two arrays is as it was. -/
theorem GraphAt.runCalls_frame (h : GraphAt m graph nodesN edgesN edgesPtr nodesPtr)
    (hnodesN : nodesN < 2 ^ 32) (hedgesN : edgesN < 2 ^ 32)
    (hcalls : ∀ c ∈ calls, c.InRange nodesN edgesN)
    (hok : Arboql.runCalls m graph calls = .ok m') {a : ℕ}
    (hedges : a < edgesPtr ∨ edgesPtr + 16 * edgesN ≤ a)
    (hnodes : a < nodesPtr ∨ nodesPtr + 8 * nodesN ≤ a) : m'.bytes a = m.bytes a := by
  induction calls using List.reverseRecOn generalizing m' with
  | nil =>
    obtain rfl := Except.ok.inj hok
    rfl
  | append_singleton calls c ih =>
    -- the last call comes after a run that went through
    have hpre : ∀ c ∈ calls, c.InRange nodesN edgesN := fun c hc =>
      hcalls c (List.mem_append_left _ hc)
    have hc : c.InRange nodesN edgesN := hcalls c (by simp)
    obtain ⟨m₁, hrun, hstep⟩ := runCalls_concat_ok_iff.mp hok
    have hat := (h.runCalls hnodesN hedgesN hpre hrun).graphAt
    obtain ⟨-, rfl⟩ := (hat.perform_ok_iff hnodesN hedgesN hc).mp hstep
    exact (GraphCall.write_frame hc hedges hnodes m₁.bytes).trans (ih hpre hrun)

end Frame

/-! ### What the slots hold -/

/-- `graph->nodes[node_id].path`. -/
def nodeMember (m : Memory) (graph nodeId : ℕ) (path : List String) : Except MemFault ℤ := do
  let nodes ← m.load GraphH.Graph graph ["nodes"]
  m.load GraphH.Node (elemAddr GraphH.Node nodes.toNat nodeId) path

/-- `graph->edges[edge_id].path`. -/
def edgeMember (m : Memory) (graph edgeId : ℕ) (path : List String) : Except MemFault ℤ := do
  let edges ← m.load GraphH.Graph graph ["edges"]
  m.load GraphH.Edge (elemAddr GraphH.Edge edges.toNat edgeId) path

section Members

variable {m : Memory} {graph nodesN edgesN edgesPtr nodesPtr : ℕ} {calls : List GraphCall}

/-- Reading a member of a node is reading a word of its slot. -/
theorem GraphAt.nodeMember_load (h : GraphAt m graph nodesN edgesN edgesPtr nodesPtr)
    (hn : nodesPtr ≠ 0) {i off : ℕ} {path : List String} (hi : i < nodesN)
    (hloc : GraphH.Node.locate path = some (off, .int 4 false)) (hoff : off + 4 ≤ 8) :
    nodeMember m graph i path = .ok (readLE m.bytes (nodesPtr + i * 8 + off) 4 : ℤ) := by
  unfold nodeMember elemAddr
  rw [h.load_nodes]
  change m.load GraphH.Node _ path = _
  have hsize : GraphH.Node.size = 8 := rfl
  rw [Int.toNat_natCast, if_neg hn, hsize, Memory.load_eq hloc (by omega)
    ((h.nodes_block hn).1.sub (by omega) (by omega)), decode_unsigned]

/-- Reading a member of an edge is reading a word of its slot. -/
theorem GraphAt.edgeMember_load (h : GraphAt m graph nodesN edgesN edgesPtr nodesPtr)
    (he : edgesPtr ≠ 0) {j off : ℕ} {path : List String} (hj : j < edgesN)
    (hloc : GraphH.Edge.locate path = some (off, .int 4 false)) (hoff : off + 4 ≤ 16) :
    edgeMember m graph j path = .ok (readLE m.bytes (edgesPtr + j * 16 + off) 4 : ℤ) := by
  unfold edgeMember elemAddr
  rw [h.load_edges]
  change m.load GraphH.Edge _ path = _
  have hsize : GraphH.Edge.size = 16 := rfl
  rw [Int.toNat_natCast, if_neg he, hsize, Memory.load_eq hloc (by omega)
    ((h.edges_block he).1.sub (by omega) (by omega)), decode_unsigned]

/-- After a run, C reads of a node what the last call on it was given. -/
theorem Written.nodeMember_eq (h : Written m graph nodesN edgesN edgesPtr nodesPtr calls) {i : ℕ}
    {a : NodeArgs} (hlast : lastNode calls i = some a) :
    nodeMember m graph i ["type"] = .ok (Bindings.typeWord a.attributeType : ℤ)
      ∧ nodeMember m graph i ["value", "u"] = .ok (a.attributeValue : ℤ) := by
  obtain ⟨hi, hn, hwords⟩ := h.node i a hlast
  obtain ⟨htype, hvalue, -⟩ := locate_node
  have hw₀ := hwords 0 _ rfl
  have hw₁ := hwords 1 _ rfl
  rw [h.graphAt.nodeMember_load hn hi htype (by omega),
    h.graphAt.nodeMember_load hn hi hvalue (by omega)]
  exact ⟨congrArg _ (congrArg _ hw₀), congrArg _ (congrArg _ hw₁)⟩

/-- After a run, C reads of an edge what the last call on it was given. -/
theorem Written.edgeMember_eq (h : Written m graph nodesN edgesN edgesPtr nodesPtr calls) {j : ℕ}
    {e : EdgeArgs} (hlast : lastEdge calls j = some e) :
    edgeMember m graph j ["source"] = .ok (e.source : ℤ)
      ∧ edgeMember m graph j ["target"] = .ok (e.target : ℤ)
      ∧ edgeMember m graph j ["data", "type"] = .ok (Bindings.typeWord e.attributeType : ℤ)
      ∧ edgeMember m graph j ["data", "value", "u"] = .ok (e.attributeValue : ℤ) := by
  obtain ⟨hj, he, -, -, hwords⟩ := h.edge j e hlast
  obtain ⟨hsource, htarget, htype, hvalue, -⟩ := locate_edge
  have hload : ∀ (k w off : ℕ) path, e.words[k]? = some w → off = 4 * k → off + 4 ≤ 16 →
      GraphH.Edge.locate path = some (off, .int 4 false) →
      edgeMember m graph j path = .ok (w : ℤ) := by
    rintro k w _ path hk rfl hoff hloc
    rw [h.graphAt.edgeMember_load he hj hloc hoff, hwords k w hk]
  exact ⟨hload 0 _ 0 _ rfl rfl (by omega) hsource, hload 1 _ 4 _ rfl rfl (by omega) htarget,
    hload 2 _ 8 _ rfl rfl (by omega) htype, hload 3 _ 12 _ rfl rfl (by omega) hvalue⟩

end Members

/-! ### The filled graph -/

/-- **A filled graph.** `m` is the memory after `create_graph` and `m₁` the memory
after its allocation. Every node slot holds the item of the node, every edge slot
the pair of its number with the target for attribute, and every byte outside the
two arrays is as the allocation left it. -/
structure Filled (m₁ m : Memory) (graph edgesPtr nodesPtr : ℕ) (nodes : OrderedDict ℕ (ℕ × ℕ))
    (edges : OrderedDict ℕ (List ℕ)) : Prop where
  node : ∀ i (ty v : ℕ), nodes.get? i = some (ty, v) →
    nodeMember m graph i ["type"] = .ok (Bindings.typeWord ty : ℤ)
      ∧ nodeMember m graph i ["value", "u"] = .ok (v : ℤ)
  edge : ∀ j (source target : ℕ), edges.pairs[j]? = some (source, target) →
    edgeMember m graph j ["source"] = .ok (source : ℤ)
      ∧ edgeMember m graph j ["target"] = .ok (target : ℤ)
      ∧ edgeMember m graph j ["data", "type"] = .ok (ATTR_UNSIGNED : ℤ)
      ∧ edgeMember m graph j ["data", "value", "u"] = .ok (target : ℤ)
  frame : ∀ a, (a < nodesPtr ∨ nodesPtr + 8 * nodes.length ≤ a) →
    (a < edgesPtr ∨ edgesPtr + 16 * edges.pairs.length ≤ a) → m.bytes a = m₁.bytes a

section Fill

variable {n : ℕ} {nodes : OrderedDict ℕ (ℕ × ℕ)} {edges : OrderedDict ℕ (List ℕ)}

theorem length_of_keys (hkeys : nodes.keys.Perm (List.range n)) : nodes.length = n := by
  have hlen := hkeys.length_eq
  rwa [keys, List.length_map, List.length_range] at hlen

/-- With the graph allocated, what is left is the run of the calls. -/
theorem createGraph_ok_iff {m₀ m₁ m : Memory} {alloc : Allocator} {graph g : ℕ}
    (hmalloc : Bindings.mallocGraph m₀ alloc (.int nodes.length) (.int edges.pairs.length)
      = .ok (m₁, graph)) :
    createGraph m₀ alloc nodes (intEdges edges) = .ok (m, g)
      ↔ runCalls m₁ graph (fillCalls nodes edges) = .ok m ∧ g = graph := by
  rw [createGraph_eq, hmalloc]
  constructor
  · intro h
    obtain ⟨r, hr, h⟩ := Loops.bind_eq_ok_iff.mp h
    obtain rfl := Except.ok.inj hr
    obtain ⟨m', hrun, hres⟩ := Loops.bind_eq_ok_iff.mp h
    obtain ⟨rfl, rfl⟩ := Prod.mk.inj (Except.ok.inj hres)
    exact ⟨hrun, rfl⟩
  · rintro ⟨hrun, rfl⟩
    refine Loops.bind_eq_ok_iff.mpr ⟨_, rfl, ?_⟩
    exact Loops.bind_eq_ok_iff.mpr ⟨m, hrun, rfl⟩

/-- The arrays that the calls write to are there when those that are not empty are. -/
theorem GraphAt.fillCalls_hasArray {m : Memory} {graph edgesPtr nodesPtr : ℕ}
    (h : GraphAt m graph n edges.pairs.length edgesPtr nodesPtr)
    (hlen : nodes.length = n) :
    (∀ c ∈ fillCalls nodes edges, c.HasArray m graph)
      ↔ (0 < n → nodesPtr ≠ 0) ∧ (0 < edges.pairs.length → edgesPtr ≠ 0) := by
  constructor
  · intro hall
    constructor
    · intro hpos
      obtain ⟨item, hitem⟩ := List.exists_mem_of_length_pos (hlen.symm ▸ hpos)
      have hcall := hall _ (List.mem_append_left _ (List.mem_map_of_mem hitem))
      exact (h.hasArray_iff _).mp hcall
    · intro hpos
      have hpair : (edges.pairs[0], 0) ∈ edges.pairs.zipIdx 0 :=
        List.mk_mem_zipIdx_iff_getElem?.mpr (List.getElem?_eq_getElem hpos)
      have hcall := hall _ (List.mem_append_right _ (List.mem_map_of_mem hpair))
      exact (h.hasArray_iff _).mp hcall
  · rintro ⟨hnodes, hedges⟩ c hc
    rw [h.hasArray_iff]
    rcases List.mem_append.mp hc with hc | hc
    · obtain ⟨item, hitem, rfl⟩ := List.mem_map.mp hc
      exact hnodes (hlen ▸ List.length_pos_of_mem hitem)
    · obtain ⟨p, hp, rfl⟩ := List.mem_map.mp hc
      have hpos := List.length_pos_of_mem hp
      rw [List.length_zipIdx] at hpos
      exact hedges hpos

/-- A run of the calls fills the graph. -/
theorem GraphAt.filled {m₁ m : Memory} {graph edgesPtr nodesPtr : ℕ}
    (h : GraphAt m₁ graph n edges.pairs.length edgesPtr nodesPtr) (hn : n < 2 ^ 32)
    (hE : edges.pairs.length < 2 ^ 32) (hlen : nodes.length = n)
    (hcalls : ∀ c ∈ fillCalls nodes edges, c.InRange n edges.pairs.length)
    (hrun : Arboql.runCalls m₁ graph (fillCalls nodes edges) = .ok m) :
    Filled m₁ m graph edgesPtr nodesPtr nodes edges := by
  have hw := h.runCalls hn hE hcalls hrun
  constructor
  case node => exact fun i ty v hi => hw.nodeMember_eq (lastNode_of_filterMap (filterMap_nodeAt hi))
  case edge =>
    exact fun j source target hj =>
      hw.edgeMember_eq (lastEdge_of_filterMap (filterMap_edgeAt hj))
  case frame =>
    intro a hnodes hedges
    rw [hlen] at hnodes
    exact h.runCalls_frame hn hE hcalls hrun hedges hnodes

/-- **`create_graph` fills exactly what it allocates.** On nodes with the keys
`0, …, n-1` in any order and edges to integer targets, it calls `malloc_graph`
with `n` and the number of targets and then makes one call for each slot, with the
item of the node or the pair of that number, and none out of range. Once the graph
is allocated the calls are defined if the arrays that are not empty are there, and then
they have filled them and written nowhere else. -/
theorem createGraph_fills (hkeys : nodes.keys.Perm (List.range n)) (hn : n < 2 ^ 32)
    (hE : edges.pairs.length < 2 ^ 32)
    (hvalues : ∀ i ty v, nodes.get? i = some (ty, v) → v < 2 ^ 32)
    (hids : ∀ source target, (source, target) ∈ edges.pairs →
      source < 2 ^ 32 ∧ target < 2 ^ 32) :
    (∀ m₀ alloc, createGraph m₀ alloc nodes (intEdges edges) = (do
        let (m, graph) ← Bindings.mallocGraph m₀ alloc (.int n) (.int edges.pairs.length)
        let m ← runCalls m graph (fillCalls nodes edges)
        return (m, graph)))
      ∧ (∀ c ∈ fillCalls nodes edges, c.InRange n edges.pairs.length)
      ∧ (∀ i < n, ∃ ty v, nodes.get? i = some (ty, v)
        ∧ (fillCalls nodes edges).filterMap (GraphCall.nodeAt i) = [⟨ty, v⟩])
      ∧ (∀ j source target, edges.pairs[j]? = some (source, target) →
        (fillCalls nodes edges).filterMap (GraphCall.edgeAt j)
          = [⟨source, target, ATTR_UNSIGNED, target⟩])
      ∧ ∀ m₀ alloc m₁ graph,
        Bindings.mallocGraph m₀ alloc (.int n) (.int edges.pairs.length) = .ok (m₁, graph) →
        ∃ edgesPtr nodesPtr, GraphAt m₁ graph n edges.pairs.length edgesPtr nodesPtr
          ∧ ((∃ m, createGraph m₀ alloc nodes (intEdges edges) = .ok (m, graph))
            ↔ (0 < n → nodesPtr ≠ 0) ∧ (0 < edges.pairs.length → edgesPtr ≠ 0))
          ∧ ∀ m g, createGraph m₀ alloc nodes (intEdges edges) = .ok (m, g) →
            g = graph ∧ Filled m₁ m graph edgesPtr nodesPtr nodes edges := by
  have hlen := length_of_keys hkeys
  have hcalls := fillCalls_inRange hkeys hvalues hids
  refine ⟨fun m₀ alloc => ?_, hcalls, fun i hi => ?_, fun j source target => filterMap_edgeAt,
    fun m₀ alloc m₁ graph hmalloc => ?_⟩
  · rw [createGraph_eq, hlen]
  · -- every slot is that of a key
    have hkey : i ∈ nodes.keys := hkeys.mem_iff.mpr (List.mem_range.mpr hi)
    obtain ⟨⟨i, ty, v⟩, hitem, rfl⟩ := List.mem_map.mp hkey
    have hget := get?_eq_some_iff.mpr hitem
    exact ⟨ty, v, hget, filterMap_nodeAt hget⟩
  · -- the graph is there, and what is left is the run of the calls
    have hcreate : Bindings.mallocGraph m₀ alloc (.int nodes.length) (.int edges.pairs.length)
        = .ok (m₁, graph) := by rw [hlen]; exact hmalloc
    rw [Bindings.mallocGraph_int hn hE] at hmalloc
    obtain ⟨edgesPtr, nodesPtr, h⟩ := mallocGraph_at hn hE (Bindings.call_eq_ok_iff.mp hmalloc)
    refine ⟨edgesPtr, nodesPtr, h, ?_, fun m g hok => ?_⟩
    · rw [← h.fillCalls_hasArray hlen, ← h.runCalls_ok_iff hn hE hcalls]
      refine exists_congr fun m => ?_
      rw [createGraph_ok_iff hcreate]
      exact and_iff_left rfl
    · obtain ⟨hrun, rfl⟩ := (createGraph_ok_iff hcreate).mp hok
      exact ⟨rfl, h.filled hn hE hlen hcalls hrun⟩

/-- The filling at work on three nodes, out of order, and two edges, with a source
that has none. -/
theorem createGraph_fills_three_two :
    let nodes : OrderedDict ℕ (ℕ × ℕ) := ⟨[(0, 0, 0), (2, 0, 2), (1, 0, 1)], by decide⟩
    let edges : OrderedDict ℕ (List ℕ) := ⟨[(0, [1]), (2, []), (1, [2])], by decide⟩
    ∃ m₁ graph edgesPtr nodesPtr m,
      Bindings.mallocGraph .empty .bump (.int 3) (.int 2) = .ok (m₁, graph)
        ∧ createGraph .empty .bump nodes (intEdges edges) = .ok (m, graph)
        ∧ Filled m₁ m graph edgesPtr nodesPtr nodes edges := by
  intro nodes edges
  have hvalues : ∀ i ty v, nodes.get? i = some (ty, v) → v < 2 ^ 32 := by
    intro i ty v hi
    have hitem : ∀ item ∈ nodes.items, item.2.2 < 2 ^ 32 := by decide
    exact hitem _ (get?_eq_some_iff.mp hi)
  have hids : ∀ source target, (source, target) ∈ edges.pairs →
      source < 2 ^ 32 ∧ target < 2 ^ 32 := by
    intro source target hpair
    have hall : ∀ pair ∈ edges.pairs, pair.1 < 2 ^ 32 ∧ pair.2 < 2 ^ 32 := by decide
    exact hall _ hpair
  obtain ⟨-, -, -, -, hfills⟩ := @createGraph_fills 3 nodes edges (by decide) (by decide)
    (by decide) hvalues hids
  cases hmalloc : Bindings.mallocGraph .empty .bump (.int 3) (.int 2) with
  | error f =>
    have hok : (Bindings.mallocGraph .empty .bump (.int 3) (.int 2)).isOk := by decide +kernel
    rw [hmalloc] at hok
    cases hok
  | ok r =>
    obtain ⟨edgesPtr, nodesPtr, -, -, hfilled⟩ := hfills .empty .bump r.1 r.2 hmalloc
    cases hcreate : createGraph .empty .bump nodes (intEdges edges) with
    | error f =>
      have hok : (createGraph .empty .bump nodes (intEdges edges)).isOk := by decide +kernel
      rw [hcreate] at hok
      cases hok
    | ok g =>
      obtain ⟨hgraph, hf⟩ := hfilled g.1 g.2 hcreate
      exact ⟨r.1, r.2, edgesPtr, nodesPtr, g.1, rfl, by rw [← hgraph], hf⟩

end Fill

end Arboql
