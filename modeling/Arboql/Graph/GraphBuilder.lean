import Arboql.Ast.AstDict
import Arboql.Ast.RootedTree
import Arboql.Graph.RoundTrip

/-!
# From the dictionaries to a graph

`create_graph` counts the targets, allocates a graph and writes one slot per
node and per target. It hands each target to `ctypes` as it finds it, twice: as
the target and as the attribute value. The entries of the lists that
`ast_dict_to_incidence_list_and_attributes` returns are tuples, which a
parameter declared `c_uint` refuses. So the two compose only where there is no
edge at all (`create_graph_of_tree_iff`), which is the case of no dictionary
that `ast_to_dict` returns.

The two nested loops over the targets are one loop over the pairs of source and target,
whatever the targets are (`fillEdges_eq`), and the sizing pass counts these pairs
(`countTargets_eq`).
-/

namespace Arboql

open CLayout OrderedDict
open Bindings (PyArg PyError)

/-! ### `create_graph` -/

/-- `edges[source]` for a key of `edges`. -/
def targetsOf (edges : OrderedDict ℕ (List PyArg)) (source : ℕ) : List PyArg :=
  (edges.get? source).getD []

/-- The loops that count the targets. -/
def countTargets (edges : OrderedDict ℕ (List PyArg)) : ℕ :=
  edges.keys.foldl
    (fun edgesN source => (targetsOf edges source).foldl (fun edgesN _ => edgesN + 1) edgesN) 0

/-- The loop over the nodes. -/
def fillNodes (m : Memory) (graph : ℕ) (items : List (ℕ × ℕ × ℕ)) : Except PyError Memory :=
  items.foldlM
    (fun m item => Bindings.addNode m graph (.int item.1) (.int item.2.1) (.int item.2.2)) m

/-- The loop over the targets of one source. The state is the memory and
`edges_counter`. -/
def fillTargets (graph source : ℕ) (targets : List PyArg) (s : Memory × ℕ) :
    Except PyError (Memory × ℕ) :=
  targets.foldlM (fun s target => do
    let m ← Bindings.addEdge s.1 graph (.int s.2) (.int source) target (.int ATTR_UNSIGNED)
      target
    return (m, s.2 + 1)) s

/-- The loop over the sources. -/
def fillEdges (graph : ℕ) (edges : OrderedDict ℕ (List PyArg)) (sources : List ℕ)
    (s : Memory × ℕ) : Except PyError (Memory × ℕ) :=
  sources.foldlM (fun s source => fillTargets graph source (targetsOf edges source) s) s

/-- `create_graph`. The result is the memory and the address of the graph. -/
def createGraph (m : Memory) (alloc : Allocator) (nodes : OrderedDict ℕ (ℕ × ℕ))
    (edges : OrderedDict ℕ (List PyArg)) : Except PyError (Memory × ℕ) := do
  let (m, graph) ← Bindings.mallocGraph m alloc (.int nodes.length) (.int (countTargets edges))
  let m ← fillNodes m graph nodes.items
  let (m, _) ← fillEdges graph edges edges.keys (m, 0)
  return (m, graph)

/-! ### One loop over the pairs -/

/-- The pairs of some sources with their targets. -/
def targetPairs (edges : OrderedDict ℕ (List PyArg)) (sources : List ℕ) : List (ℕ × PyArg) :=
  sources.flatMap fun source => (targetsOf edges source).map fun target => (source, target)

theorem targetPairs_cons (edges : OrderedDict ℕ (List PyArg)) (source : ℕ) (sources : List ℕ) :
    targetPairs edges (source :: sources)
      = (targetsOf edges source).map (fun target => (source, target))
        ++ targetPairs edges sources := rfl

/-- The calls for pairs of source and target, from slot `j` on. -/
def addTargets (m : Memory) (graph j : ℕ) (pairs : List (ℕ × PyArg)) : Except PyError Memory :=
  (pairs.zipIdx j).foldlM (fun m p =>
    Bindings.addEdge m graph (.int p.2) (.int p.1.1) p.1.2 (.int ATTR_UNSIGNED) p.1.2) m

theorem addTargets_append (m : Memory) (graph j : ℕ) (pairs pairs' : List (ℕ × PyArg)) :
    addTargets m graph j (pairs ++ pairs')
      = addTargets m graph j pairs >>= fun m => addTargets m graph (j + pairs.length) pairs' := by
  unfold addTargets
  rw [List.zipIdx_append, List.foldlM_append]

/-- The loop over the targets of a source, from the counter `j` on. -/
theorem fillTargets_eq (graph source : ℕ) (targets : List PyArg) (m : Memory) (j : ℕ) :
    fillTargets graph source targets (m, j)
      = (addTargets m graph j (targets.map fun target => (source, target))).map
          fun m => (m, j + targets.length) := by
  induction targets generalizing m j with
  | nil => rfl
  | cons target targets ih =>
    -- one call on either side
    unfold fillTargets addTargets at ih ⊢
    rw [List.map_cons, List.zipIdx_cons, List.foldlM_cons, List.foldlM_cons]
    change (Bindings.addEdge m graph (.int j) (.int source) target _ _ >>= _) >>= _
      = Except.map _ (Bindings.addEdge m graph (.int j) (.int source) target _ _ >>= _)
    cases Bindings.addEdge m graph (.int j) (.int source) target (.int ATTR_UNSIGNED) target with
    | error e => rfl
    | ok m₁ =>
      -- the rest runs from the next slot on
      have hrest := ih m₁ (j + 1)
      rw [List.length_cons, show j + (targets.length + 1) = j + 1 + targets.length by omega]
      exact hrest

/-- **The loop invariant.** The counter is the number of the pairs met so far, whatever the
targets are. -/
theorem fillEdges_eq (graph : ℕ) (edges : OrderedDict ℕ (List PyArg)) (sources : List ℕ)
    (m : Memory) (j : ℕ) :
    fillEdges graph edges sources (m, j)
      = (addTargets m graph j (targetPairs edges sources)).map
          fun m => (m, j + (targetPairs edges sources).length) := by
  induction sources generalizing m j with
  | nil => rfl
  | cons source sources ih =>
    unfold fillEdges at ih ⊢
    rw [List.foldlM_cons, fillTargets_eq, targetPairs_cons, addTargets_append,
      List.length_append, List.length_map]
    cases addTargets m graph j ((targetsOf edges source).map fun target => (source, target)) with
    | error e => rfl
    | ok m₁ =>
      -- the next source goes on where this one's targets end
      have hrest := ih m₁ (j + (targetsOf edges source).length)
      rw [← Nat.add_assoc]
      exact hrest

/-- The sizing pass counts the pairs. -/
theorem countTargets_eq (edges : OrderedDict ℕ (List PyArg)) :
    countTargets edges = (targetPairs edges edges.keys).length := by
  have hsource : ∀ (targets : List PyArg) (count : ℕ),
      targets.foldl (fun count _ => count + 1) count = count + targets.length := by
    intro targets count
    rw [List.foldl_add_const, Nat.one_mul]
  have hloop : ∀ (sources : List ℕ) (count : ℕ),
      sources.foldl (fun count source =>
          (targetsOf edges source).foldl (fun count _ => count + 1) count) count
        = count + (targetPairs edges sources).length := by
    intro sources
    induction sources with
    | nil => exact fun count => rfl
    | cons source sources ih =>
      intro count
      rw [List.foldl_cons, ih, hsource, targetPairs_cons, List.length_append, List.length_map,
        Nat.add_assoc]
  exact (hloop edges.keys 0).trans (Nat.zero_add _)

/-! ### Tuples for targets -/

/-- A dictionary of edges as Python sees it: each entry is a tuple. -/
def tupleEdges (edges : OrderedDict ℕ (List (ℕ × ℕ))) : OrderedDict ℕ (List PyArg) :=
  edges.mapValues (List.map fun e => .tuple [(e.1 : ℤ), (e.2 : ℤ)])

/-- A tuple stops the loop at once. -/
theorem addTargets_tuple (m : Memory) (graph j source : ℕ) (elems : List ℤ)
    (pairs : List (ℕ × PyArg)) :
    addTargets m graph j ((source, .tuple elems) :: pairs) = .error .argumentError := rfl

/-- Where every target is a tuple, the loops come through only if there is none. -/
theorem fillEdges_tuple {graph : ℕ} {edges : OrderedDict ℕ (List PyArg)} {sources : List ℕ}
    {s s' : Memory × ℕ}
    (htuple : ∀ source ∈ sources, ∀ target ∈ targetsOf edges source, ∃ elems, target = .tuple elems)
    (hok : fillEdges graph edges sources s = .ok s') :
    ∀ source ∈ sources, targetsOf edges source = [] := by
  obtain ⟨m, j⟩ := s
  rw [fillEdges_eq] at hok
  have hnil : targetPairs edges sources = [] := by
    cases hpairs : targetPairs edges sources with
    | nil => rfl
    | cons pair pairs =>
      -- the first target is refused
      have hmem : pair ∈ targetPairs edges sources := hpairs ▸ List.mem_cons_self
      obtain ⟨source, hsource, hmem⟩ := List.mem_flatMap.mp hmem
      obtain ⟨target, htarget, rfl⟩ := List.mem_map.mp hmem
      obtain ⟨elems, rfl⟩ := htuple source hsource target htarget
      rw [hpairs, addTargets_tuple] at hok
      cases hok
  intro source hsource
  exact List.map_eq_nil_iff.mp (List.flatMap_eq_nil_iff.mp hnil source hsource)

section Compose

variable {α : Type} [ToString α]

/-- The targets in the returned edges are tuples. -/
theorem targetsOf_tupleEdges (t : Value α) (source : ℕ) :
    targetsOf (tupleEdges (astDictToIncidenceListAndAttributes t).edges) source
      = (PreorderTree.childrenOf (parents t) source).map
          fun m => .tuple [(ATTR_UNSIGNED : ℤ), (m : ℤ)] := by
  unfold targetsOf tupleEdges
  rw [get?_mapValues, edges_eq]
  have hget : ((PreorderTree.childDict (fun m => (ATTR_UNSIGNED, m)) (parents t)).get?
      source).getD [] = _ := PreorderTree.get?_childDict (parents t) source
  cases hsome : (PreorderTree.childDict (fun m => (ATTR_UNSIGNED, m)) (parents t)).get? source with
  | none =>
    rw [hsome] at hget
    rw [List.map_eq_nil_iff.mp hget.symm]
    rfl
  | some targets =>
    rw [hsome] at hget
    obtain rfl : targets = _ := hget
    rw [Option.map_some, Option.getD_some, List.map_map]
    rfl

/-- **What is asked of the composition.** No error is raised, and the graph has the
counts, the nodes and the edges of the tree, the latter in any order. -/
def GraphOfTree (m₀ : Memory) (alloc : Allocator) (t : Value α) : Prop :=
  ∃ m graph,
    createGraph m₀ alloc (astDictToIncidenceListAndAttributes t).nodes
        (tupleEdges (astDictToIncidenceListAndAttributes t).edges) = .ok (m, graph)
      ∧ Bindings.nodesN m graph = .ok ((astDictToIncidenceListAndAttributes t).nodes.length : ℤ)
      ∧ Bindings.edgesN m graph
        = .ok ((astDictToIncidenceListAndAttributes t).nodes.length - 1 : ℤ)
      ∧ (∀ i ty v, (astDictToIncidenceListAndAttributes t).nodes.get? i = some (ty, v) →
        Bindings.nodeType m graph i = .ok (ty : ℤ) ∧ Bindings.nodeValue m graph i = .ok (v : ℤ))
      ∧ ∃ pairs : List (ℕ × ℕ),
        pairs.Perm (edgePairs (astDictToIncidenceListAndAttributes t).edges)
          ∧ ∀ j e, pairs[j]? = some e →
            Bindings.edgeSource m graph j = .ok (e.1 : ℤ)
              ∧ Bindings.edgeTarget m graph j = .ok (e.2 : ℤ)

/-- A value that makes no node leaves the root alone. -/
theorem processNode_of_size {t : Value α} (h : size t = 0) :
    processNode .initial t none = .rooted := by
  rw [processNode_none, List.eq_nil_of_length_eq_zero ((length_visits t 0).trans h)]
  rfl

/-- **With an edge the composition raises an error.** -/
theorem size_eq_zero_of_createGraph {m₀ m : Memory} {alloc : Allocator} {t : Value α} {graph : ℕ}
    (h : createGraph m₀ alloc (astDictToIncidenceListAndAttributes t).nodes
      (tupleEdges (astDictToIncidenceListAndAttributes t).edges) = .ok (m, graph)) :
    size t = 0 := by
  unfold createGraph at h
  obtain ⟨⟨m₁, g⟩, -, h⟩ := Loops.bind_eq_ok_iff.mp h
  obtain ⟨m₂, -, h⟩ := Loops.bind_eq_ok_iff.mp h
  obtain ⟨s, hfill, -⟩ := Loops.bind_eq_ok_iff.mp h
  -- every source met has an empty list of targets
  have hempty := fillEdges_tuple (fun source _ target htarget => by
    rw [targetsOf_tupleEdges] at htarget
    obtain ⟨m, -, rfl⟩ := List.mem_map.mp htarget
    exact ⟨_, rfl⟩) hfill
  by_contra hsize
  have hpos : 0 < (parents t).length := by
    rw [length_parents]
    omega
  -- the parent of node 1 is a key, and its list is not empty
  have hp : PreorderTree.IsParent (parents t) (parents t)[0] 1 :=
    ⟨0, rfl, List.getElem?_eq_getElem hpos⟩
  have hkey : (parents t)[0] ∈ (tupleEdges (astDictToIncidenceListAndAttributes t).edges).keys := by
    rw [tupleEdges, keys_mapValues, edges_eq, PreorderTree.keys_childDict]
    exact mem_firsts.mpr (List.getElem_mem hpos)
  have hnil := hempty _ hkey
  rw [targetsOf_tupleEdges, List.map_eq_nil_iff] at hnil
  have hmem := PreorderTree.mem_childrenOf.mpr hp
  rw [hnil] at hmem
  exact List.not_mem_nil hmem

/-- The one node of a tree without edges. -/
def rootCall : GraphCall := .addNode 0 ⟨0, 0⟩

theorem rootCall_inRange : rootCall.InRange 1 0 := ⟨Nat.one_pos, by decide⟩

/-- There is memory for the header and the node of a graph of one node: `malloc`
grants the first and the last of the three requests of `malloc_graph`. -/
def HasRoom (m₀ : Memory) (alloc : Allocator) : Prop :=
  let header := m₀.malloc alloc GraphH.Graph.size
  let edges := header.1.malloc alloc 0
  header.2 ≠ 0 ∧ (edges.1.malloc alloc GraphH.Node.size).2 ≠ 0

/-- With room, and only then, `malloc_graph` returns a graph that has a node. -/
theorem hasRoom_iff {m₀ : Memory} {alloc : Allocator} :
    HasRoom m₀ alloc
      ↔ ∃ m graph, mallocGraph m₀ alloc 1 0 = .ok (m, graph) ∧ rootCall.HasArray m graph := by
  by_cases hg : (m₀.malloc alloc GraphH.Graph.size).2 = 0
  · rw [mallocGraph_null hg]
    constructor
    · exact fun hroom => absurd hg hroom.1
    · rintro ⟨m, graph, hok, -⟩
      cases hok
  · obtain ⟨m, hok, hat⟩ := mallocGraph_ok (show 1 < 2 ^ 32 by decide)
      (show 0 < 2 ^ 32 by decide) hg rfl rfl rfl
    -- the third request is answered as if the header had not been written to
    have harray := (hat.hasArray_iff rootCall).trans
      (not_congr (Eq.congr_left (Memory.malloc_bytes _ _ _ _)))
    constructor
    · exact fun hroom => ⟨m, _, hok, harray.mpr hroom.2⟩
    · rintro ⟨m', graph, hok', harray'⟩
      obtain ⟨rfl, rfl⟩ := Prod.mk.inj (Except.ok.inj (hok.symm.trans hok'))
      exact ⟨hg, harray.mp harray'⟩

/-- Without edges `create_graph` allocates a graph and writes the root. -/
theorem createGraph_rooted_iff {m₀ m : Memory} {alloc : Allocator} {graph : ℕ} :
    createGraph m₀ alloc TreeState.rooted.nodes (tupleEdges TreeState.rooted.edges)
        = .ok (m, graph)
      ↔ ∃ m₁, mallocGraph m₀ alloc 1 0 = .ok (m₁, graph)
        ∧ rootCall.perform m₁ graph = .ok m := by
  have hmalloc : Bindings.mallocGraph m₀ alloc (.int (1 : ℕ)) (.int (0 : ℕ))
      = Bindings.call (mallocGraph m₀ alloc 1 0) :=
    Bindings.mallocGraph_int (by decide) (by decide)
  have hfill : ∀ m₁ g, fillNodes m₁ g TreeState.rooted.nodes.items = rootCall.perform m₁ g :=
    fun m₁ g => bind_pure (rootCall.perform m₁ g)
  constructor
  · intro h
    obtain ⟨⟨m₁, g⟩, hm, h⟩ := Loops.bind_eq_ok_iff.mp h
    obtain ⟨m₂, hn, h⟩ := Loops.bind_eq_ok_iff.mp h
    obtain ⟨rfl, rfl⟩ := Prod.mk.inj (Except.ok.inj h)
    rw [hfill] at hn
    exact ⟨m₁, Bindings.call_eq_ok_iff.mp (hmalloc.symm.trans hm), hn⟩
  · rintro ⟨m₁, hm, hn⟩
    refine Loops.bind_eq_ok_iff.mpr ⟨(m₁, graph),
      hmalloc.trans (Bindings.call_eq_ok_iff.mpr hm), ?_⟩
    exact Loops.bind_eq_ok_iff.mpr ⟨m, (hfill m₁ graph).trans hn, rfl⟩

/-- What Python reads of the graph of a tree without edges. -/
theorem graph_of_root {m₁ m : Memory} {graph edges nodes : ℕ}
    (h : GraphAt m₁ graph 1 0 edges nodes) (hok : rootCall.perform m₁ graph = .ok m) :
    Bindings.nodesN m graph = .ok 1 ∧ Bindings.edgesN m graph = .ok 0
      ∧ Bindings.nodeType m graph 0 = .ok 0 ∧ Bindings.nodeValue m graph 0 = .ok 0 := by
  have hrange : ∀ c ∈ [rootCall], c.InRange 1 0 :=
    List.forall_mem_singleton.mpr rootCall_inRange
  have hrun : runCalls m₁ graph [rootCall] = .ok m := (bind_pure _).trans hok
  have hw := h.runCalls (by decide) (by decide) hrange hrun
  obtain ⟨hj, hn, hwords⟩ := hw.node 0 ⟨0, 0⟩ rfl
  obtain ⟨htype, hvalue⟩ := hw.graphAt.nodeView_eq hj hn
  have htype₀ : readLE m.bytes (nodes + 0 * 8) 4 = 0 := hwords 0 _ rfl
  have hvalue₀ : readLE m.bytes (nodes + 0 * 8 + 4) 4 = 0 := hwords 1 _ rfl
  rw [htype₀] at htype
  rw [hvalue₀] at hvalue
  exact ⟨hw.graphAt.py_nodesN, hw.graphAt.py_edgesN, htype, hvalue⟩

/-! ### Where the two compose -/

/-- **The front end and the graph builder** compose exactly where the value makes
no node and memory lasts for the root; for no AST. -/
theorem create_graph_of_tree_iff (m₀ : Memory) (alloc : Allocator) :
    (∀ t : Value α, GraphOfTree m₀ alloc t ↔ size t = 0 ∧ HasRoom m₀ alloc)
      ∧ ∀ t : Ast α, ¬ GraphOfTree m₀ alloc (astToDict t) := by
  have hiff : ∀ t : Value α, GraphOfTree m₀ alloc t ↔ size t = 0 ∧ HasRoom m₀ alloc := by
    intro t
    constructor
    · -- no error means no edge, and the root was written to a node that is there
      rintro ⟨m, graph, hok, -⟩
      have hsize := size_eq_zero_of_createGraph hok
      refine ⟨hsize, ?_⟩
      unfold astDictToIncidenceListAndAttributes at hok
      rw [processNode_of_size hsize] at hok
      obtain ⟨m₁, hm, hn⟩ := createGraph_rooted_iff.mp hok
      obtain ⟨edges, nodes, hat⟩ := mallocGraph_at (by decide) (by decide) hm
      obtain ⟨harray, -⟩ := (hat.perform_ok_iff (by decide) (by decide) rootCall_inRange).mp hn
      exact hasRoom_iff.mpr ⟨m₁, graph, hm, harray⟩
    · -- the root is all there is to write
      rintro ⟨hsize, hroom⟩
      obtain ⟨m₁, graph, hm, harray⟩ := hasRoom_iff.mp hroom
      obtain ⟨edges, nodes, hat⟩ := mallocGraph_at (by decide) (by decide) hm
      have hn := hat.perform_eq (by decide) (by decide) rootCall_inRange harray
      obtain ⟨hnodesN, hedgesN, htype, hvalue⟩ := graph_of_root hat hn
      unfold GraphOfTree astDictToIncidenceListAndAttributes
      rw [processNode_of_size hsize]
      refine ⟨_, graph, createGraph_rooted_iff.mpr ⟨m₁, hm, hn⟩, hnodesN, hedgesN,
        fun i ty v hget => ?_, [], .refl _, fun j e he => absurd he (by simp)⟩
      have hmem : (i, ty, v) ∈ [(0, ATTR_UNSIGNED, 0)] := get?_eq_some_iff.mp hget
      obtain ⟨rfl, hrest⟩ := Prod.mk.inj (List.mem_singleton.mp hmem)
      obtain ⟨rfl, rfl⟩ := Prod.mk.inj hrest
      exact ⟨htype, hvalue⟩
  refine ⟨hiff, fun t h => ?_⟩
  have hsize := ((hiff _).mp h).1
  have hpos := size_astToDict_pos t
  omega

/-- The tree of an empty Python module is refused. -/
theorem create_graph_refuses_empty_module :
    createGraph .empty .bump
      (astDictToIncidenceListAndAttributes (astToDict (.node "Module"
        [("body", .list []), ("type_ignores", .list [])] : Ast Unit))).nodes
      (tupleEdges (astDictToIncidenceListAndAttributes (astToDict (.node "Module"
        [("body", .list []), ("type_ignores", .list [])] : Ast Unit))).edges)
      = .error .argumentError := by
  rfl

end Compose

end Arboql
