import Arboql.Graph.CtypeBindings

/-!
# A graph in memory

`GraphAt` is what `malloc_graph` establishes and every later call keeps: the
header holds the two counts and the two array pointers, and the header and the
arrays do not overlap. Under it each call of `graph.c` is a plain write of a few
words in one slot (`addEdge_eq`, `addNode_eq`), and each read of the `ctypes`
view a plain read of one word (`edgeMember_eq`, `nodeMember_eq`).
-/

namespace Arboql

open CLayout

/-! ### Consecutive words -/

/-- The bytes after writing four-byte words from `addr` on. -/
def writeWords (bytes : ℕ → UInt8) (addr : ℕ) : List ℕ → ℕ → UInt8
  | [] => bytes
  | w :: ws => writeWords (writeLE bytes addr 4 w) (addr + 4) ws

theorem readLE_writeWords_of_disjoint {bytes : ℕ → UInt8} {addr a width : ℕ} {ws : List ℕ}
    (h : a + width ≤ addr ∨ addr + 4 * ws.length ≤ a) :
    readLE (writeWords bytes addr ws) a width = readLE bytes a width := by
  induction ws generalizing bytes addr with
  | nil => rfl
  | cons w ws ih =>
    rw [List.length_cons] at h
    rw [writeWords, ih (by omega), readLE_writeLE_of_disjoint (by omega)]

theorem readLE_writeWords_self {bytes : ℕ → UInt8} {addr k w : ℕ} {ws : List ℕ}
    (hk : ws[k]? = some w) (hw : w < 2 ^ 32) :
    readLE (writeWords bytes addr ws) (addr + 4 * k) 4 = w := by
  induction ws generalizing bytes addr k with
  | nil => exact absurd hk (by simp)
  | cons v ws ih =>
    rw [writeWords]
    cases k with
    | zero =>
      obtain rfl : v = w := by simpa using hk
      rw [readLE_writeWords_of_disjoint (by omega), Nat.mul_zero, Nat.add_zero,
        readLE_writeLE_self, Nat.mod_eq_of_lt (show v < 256 ^ 4 by omega)]
    | succ k =>
      rw [show addr + 4 * (k + 1) = addr + 4 + 4 * k by omega]
      exact ih (by simpa using hk)

/-! ### The invariant -/

/-- **A graph at `graph`**, with its edges at `edges` and its nodes at `nodes`; a
null pointer there means that the array was not allocated. -/
structure GraphAt (m : Memory) (graph nodesN edgesN edges nodes : ℕ) : Prop where
  ne_zero : graph ≠ 0
  header : m.InBlock graph 24
  nodesN_eq : readLE m.bytes graph 4 = nodesN
  edgesN_eq : readLE m.bytes (graph + 4) 4 = edgesN
  edges_eq : readLE m.bytes (graph + 8) 8 = edges
  nodes_eq : readLE m.bytes (graph + 16) 8 = nodes
  /-- The array of edges, apart from the header. -/
  edges_block : edges ≠ 0 → m.InBlock edges (16 * edgesN)
    ∧ (graph + 24 ≤ edges ∨ edges + 16 * edgesN ≤ graph)
  /-- The array of nodes, apart from the header. -/
  nodes_block : nodes ≠ 0 → m.InBlock nodes (8 * nodesN)
    ∧ (graph + 24 ≤ nodes ∨ nodes + 8 * nodesN ≤ graph)
  /-- The two arrays are apart. -/
  apart : edges ≠ 0 → nodes ≠ 0 →
    edges + 16 * edgesN ≤ nodes ∨ nodes + 8 * nodesN ≤ edges

namespace GraphAt

variable {m : Memory} {graph nodesN edgesN edges nodes : ℕ}

/-- Writing outside the header keeps the graph. -/
theorem of_bytes (h : GraphAt m graph nodesN edgesN edges nodes) {bytes : ℕ → UInt8}
    (hbytes : ∀ a w, graph ≤ a → a + w ≤ graph + 24 →
      readLE bytes a w = readLE m.bytes a w) :
    GraphAt { m with bytes } graph nodesN edgesN edges nodes where
  ne_zero := h.ne_zero
  header := h.header
  nodesN_eq := (hbytes _ _ (by omega) (by omega)).trans h.nodesN_eq
  edgesN_eq := (hbytes _ _ (by omega) (by omega)).trans h.edgesN_eq
  edges_eq := (hbytes _ _ (by omega) (by omega)).trans h.edges_eq
  nodes_eq := (hbytes _ _ (by omega) (by omega)).trans h.nodes_eq
  edges_block := h.edges_block
  nodes_block := h.nodes_block
  apart := h.apart

/-- Writing inside the array of edges keeps the graph. -/
theorem writeLE_edges (h : GraphAt m graph nodesN edgesN edges nodes) (he : edges ≠ 0)
    {a w v : ℕ} (ha : edges ≤ a) (haw : a + w ≤ edges + 16 * edgesN) :
    GraphAt { m with bytes := writeLE m.bytes a w v } graph nodesN edgesN edges nodes := by
  have hapart := (h.edges_block he).2
  exact h.of_bytes fun b w' hb hbw => readLE_writeLE_of_disjoint (by omega)

/-- Writing inside the array of nodes keeps the graph. -/
theorem writeLE_nodes (h : GraphAt m graph nodesN edgesN edges nodes) (hn : nodes ≠ 0)
    {a w v : ℕ} (ha : nodes ≤ a) (haw : a + w ≤ nodes + 8 * nodesN) :
    GraphAt { m with bytes := writeLE m.bytes a w v } graph nodesN edgesN edges nodes := by
  have hapart := (h.nodes_block hn).2
  exact h.of_bytes fun b w' hb hbw => readLE_writeLE_of_disjoint (by omega)

/-! ### The header -/

theorem load_edges (h : GraphAt m graph nodesN edgesN edges nodes) :
    m.load GraphH.Graph graph ["edges"] = .ok (edges : ℤ) := by
  obtain ⟨-, -, hloc, -⟩ := locate_graph
  rw [Memory.load_eq hloc h.ne_zero (h.header.sub (by omega) (by omega)),
    decode_unsigned, h.edges_eq]

theorem load_nodes (h : GraphAt m graph nodesN edgesN edges nodes) :
    m.load GraphH.Graph graph ["nodes"] = .ok (nodes : ℤ) := by
  obtain ⟨-, -, -, hloc, -⟩ := locate_graph
  rw [Memory.load_eq hloc h.ne_zero (h.header.sub (by omega) (by omega)),
    decode_unsigned, h.nodes_eq]

theorem load_py_edges (h : GraphAt m graph nodesN edgesN edges nodes) :
    m.load Bindings.Graph graph ["_edges"] = .ok (edges : ℤ) := by
  obtain ⟨-, -, -, -, -, -, hloc, -⟩ := locate_graph
  rw [Memory.load_eq hloc h.ne_zero (h.header.sub (by omega) (by omega)),
    decode_unsigned, h.edges_eq]

theorem load_py_nodes (h : GraphAt m graph nodesN edgesN edges nodes) :
    m.load Bindings.Graph graph ["_nodes"] = .ok (nodes : ℤ) := by
  obtain ⟨-, -, -, -, -, -, -, hloc⟩ := locate_graph
  rw [Memory.load_eq hloc h.ne_zero (h.header.sub (by omega) (by omega)),
    decode_unsigned, h.nodes_eq]

theorem py_nodesN (h : GraphAt m graph nodesN edgesN edges nodes) :
    Bindings.nodesN m graph = .ok (decode 4 true nodesN) := by
  obtain ⟨-, -, -, -, hloc, -⟩ := locate_graph
  rw [Bindings.nodesN, Memory.load_eq hloc h.ne_zero (h.header.sub (by omega) (by omega)),
    Nat.add_zero, h.nodesN_eq]

theorem py_edgesN (h : GraphAt m graph nodesN edgesN edges nodes) :
    Bindings.edgesN m graph = .ok (decode 4 true edgesN) := by
  obtain ⟨-, -, -, -, -, hloc, -⟩ := locate_graph
  rw [Bindings.edgesN, Memory.load_eq hloc h.ne_zero (h.header.sub (by omega) (by omega)),
    h.edgesN_eq]

/-! ### The slots -/

/-- Reading a member of an edge is reading a word of its slot. -/
theorem edgeMember_eq (h : GraphAt m graph nodesN edgesN edges nodes) {i off : ℕ}
    {path : List String} {signed : Bool} (hi : i < edgesN)
    (hloc : Bindings.Edge.locate path = some (off, .int 4 signed)) (hoff : off + 4 ≤ 16) :
    Bindings.edgeMember m graph i path
      = if edges = 0 then .error .nullDeref
        else .ok (decode 4 signed (readLE m.bytes (edges + i * 16 + off) 4)) := by
  unfold Bindings.edgeMember elemAddr
  rw [h.load_py_edges]
  change m.load Bindings.Edge _ path = _
  rw [Int.toNat_natCast]
  by_cases he : edges = 0
  · rw [if_pos he, if_pos he, Memory.load_null]
  · have hsize : Bindings.Edge.size = 16 := rfl
    rw [if_neg he, if_neg he, hsize]
    exact Memory.load_eq hloc (by omega) ((h.edges_block he).1.sub (by omega) (by omega))

/-- Reading a member of a node is reading a word of its slot. -/
theorem nodeMember_eq (h : GraphAt m graph nodesN edgesN edges nodes) {j off : ℕ}
    {path : List String} {signed : Bool} (hj : j < nodesN)
    (hloc : Bindings.Attribute.locate path = some (off, .int 4 signed)) (hoff : off + 4 ≤ 8) :
    Bindings.nodeMember m graph j path
      = if nodes = 0 then .error .nullDeref
        else .ok (decode 4 signed (readLE m.bytes (nodes + j * 8 + off) 4)) := by
  unfold Bindings.nodeMember elemAddr
  rw [h.load_py_nodes]
  change m.load Bindings.Attribute _ path = _
  rw [Int.toNat_natCast]
  by_cases hn : nodes = 0
  · rw [if_pos hn, if_pos hn, Memory.load_null]
  · have hsize : Bindings.Attribute.size = 8 := rfl
    rw [if_neg hn, if_neg hn, hsize]
    exact Memory.load_eq hloc (by omega) ((h.nodes_block hn).1.sub (by omega) (by omega))

/-- Assigning a member of an edge writes a word of its slot. -/
theorem setEdgeMember_eq (h : GraphAt m graph nodesN edgesN edges nodes) {i off v : ℕ}
    {path : List String} (he : edges ≠ 0) (hi : i < edgesN)
    (hloc : GraphH.Edge.locate path = some (off, .int 4 false)) (hoff : off + 4 ≤ 16) :
    setEdgeMember m graph i path v
      = .ok { m with bytes := writeLE m.bytes (edges + i * 16 + off) 4 v } := by
  unfold setEdgeMember elemAddr
  rw [h.load_edges]
  change m.store GraphH.Edge _ path v = _
  have hsize : GraphH.Edge.size = 16 := rfl
  rw [Int.toNat_natCast, if_neg he, hsize]
  exact Memory.store_eq hloc (by omega) ((h.edges_block he).1.sub (by omega) (by omega))

/-- Assigning a member of a node writes a word of its slot. -/
theorem setNodeMember_eq (h : GraphAt m graph nodesN edgesN edges nodes) {j off v : ℕ}
    {path : List String} (hn : nodes ≠ 0) (hj : j < nodesN)
    (hloc : GraphH.Node.locate path = some (off, .int 4 false)) (hoff : off + 4 ≤ 8) :
    setNodeMember m graph j path v
      = .ok { m with bytes := writeLE m.bytes (nodes + j * 8 + off) 4 v } := by
  unfold setNodeMember elemAddr
  rw [h.load_nodes]
  change m.store GraphH.Node _ path v = _
  have hsize : GraphH.Node.size = 8 := rfl
  rw [Int.toNat_natCast, if_neg hn, hsize]
  exact Memory.store_eq hloc (by omega) ((h.nodes_block hn).1.sub (by omega) (by omega))

/-! ### The calls -/

/-- **`add_edge`** writes the four words of its slot. -/
theorem addEdge_eq (h : GraphAt m graph nodesN edgesN edges nodes) (he : edges ≠ 0) {i : ℕ}
    (hi : i < edgesN) (s t ty v : ℕ) :
    addEdge m graph i s t ty v
      = .ok { m with bytes := writeWords m.bytes (edges + i * 16) [s, t, ty, v] } := by
  -- each assignment reads `graph->edges` again, so each needs the graph after the last
  have h₁ := h.writeLE_edges he (a := edges + i * 16 + 0) (w := 4) (v := s) (by omega) (by omega)
  have h₂ := h₁.writeLE_edges he (a := edges + i * 16 + 4) (w := 4) (v := t) (by omega) (by omega)
  have h₃ := h₂.writeLE_edges he (a := edges + i * 16 + 8) (w := 4) (v := ty) (by omega) (by omega)
  obtain ⟨hsource, htarget, htype, hvalue, -⟩ := locate_edge
  unfold addEdge
  rw [h.setEdgeMember_eq he hi hsource (by omega)]
  change (setEdgeMember _ graph i ["target"] t >>= _) = _
  rw [h₁.setEdgeMember_eq he hi htarget (by omega)]
  change (setEdgeMember _ graph i ["data", "type"] ty >>= _) = _
  rw [h₂.setEdgeMember_eq he hi htype (by omega)]
  change setEdgeMember _ graph i ["data", "value", "u"] v = _
  rw [h₃.setEdgeMember_eq he hi hvalue (by omega)]
  rfl

/-- **`add_node`** writes the two words of its slot. -/
theorem addNode_eq (h : GraphAt m graph nodesN edgesN edges nodes) (hn : nodes ≠ 0) {j : ℕ}
    (hj : j < nodesN) (ty v : ℕ) :
    addNode m graph j ty v
      = .ok { m with bytes := writeWords m.bytes (nodes + j * 8) [ty, v] } := by
  have h₁ := h.writeLE_nodes hn (a := nodes + j * 8 + 0) (w := 4) (v := ty) (by omega) (by omega)
  obtain ⟨htype, hvalue, -⟩ := locate_node
  unfold addNode
  rw [h.setNodeMember_eq hn hj htype (by omega)]
  change setNodeMember _ graph j ["value", "u"] v = _
  rw [h₁.setNodeMember_eq hn hj hvalue (by omega)]
  rfl

/-- Without an array of edges `add_edge` makes an invalid access. -/
theorem addEdge_null (h : GraphAt m graph nodesN edgesN 0 nodes) (i s t ty v : ℕ) :
    addEdge m graph i s t ty v = .error .nullDeref := by
  unfold addEdge setEdgeMember
  rw [h.load_edges]
  rfl

/-- Without an array of nodes `add_node` makes an invalid access. -/
theorem addNode_null (h : GraphAt m graph nodesN edgesN edges 0) (j ty v : ℕ) :
    addNode m graph j ty v = .error .nullDeref := by
  unfold addNode setNodeMember
  rw [h.load_nodes]
  rfl

end GraphAt

/-! ### The allocation -/

/-- `malloc_graph` writes the header and nothing else. -/
theorem mallocGraph_eq {m m₁ m₂ m₃ : Memory} {alloc : Allocator} {nodesN edgesN g e n : ℕ}
    (hg : g ≠ 0) (hin : m₂.InBlock g 24)
    (h₁ : m.malloc alloc GraphH.Graph.size = (m₁, g))
    (h₂ : m₁.malloc alloc (GraphH.Edge.size * edgesN) = (m₂, e))
    (h₃ : Memory.malloc { m₂ with bytes := writeLE m₂.bytes (g + 8) 8 e } alloc
      (GraphH.Node.size * nodesN) = (m₃, n))
    (hin₃ : m₃.InBlock g 24) :
    mallocGraph m alloc nodesN edgesN
      = .ok ({ m₃ with bytes := writeLE (writeLE (writeLE m₃.bytes (g + 16) 8 n)
          (g + 4) 4 edgesN) g 4 nodesN }, g) := by
  obtain ⟨hnodesN, hedgesN, hedges, hnodes, -⟩ := locate_graph
  have hs₁ := Memory.store_eq (v := e) hedges hg (hin.sub (by omega) (by omega))
  have hs₂ := Memory.store_eq (v := n) hnodes hg (hin₃.sub (by omega) (by omega))
  have hs₃ := Memory.store_eq (m := { m₃ with bytes := writeLE m₃.bytes (g + 16) 8 n })
    (v := edgesN) hedgesN hg (hin₃.sub (by omega) (by omega))
  have hs₄ := Memory.store_eq
    (m := { m₃ with bytes := writeLE (writeLE m₃.bytes (g + 16) 8 n) (g + 4) 4 edgesN })
    (v := nodesN) hnodesN hg (hin₃.sub (by omega) (by omega))
  simp only [mallocGraph, h₁, h₂, hs₁, h₃, hs₂, hs₃, hs₄, bind, Except.bind, pure, Except.pure]
  rfl

/-- **With a header `malloc_graph` returns a graph**, whose arrays are those that the
next two requests gave. -/
theorem mallocGraph_ok {m m₁ m₂ m₃ : Memory} {alloc : Allocator} {nodesN edgesN g e n : ℕ}
    (hnodesN : nodesN < 2 ^ 32) (hedgesN : edgesN < 2 ^ 32) (hg : g ≠ 0)
    (h₁ : m.malloc alloc GraphH.Graph.size = (m₁, g))
    (h₂ : m₁.malloc alloc (GraphH.Edge.size * edgesN) = (m₂, e))
    (h₃ : Memory.malloc { m₂ with bytes := writeLE m₂.bytes (g + 8) 8 e } alloc
      (GraphH.Node.size * nodesN) = (m₃, n)) :
    ∃ m', mallocGraph m alloc nodesN edgesN = .ok (m', g)
      ∧ GraphAt m' g nodesN edgesN e n := by
  -- the header stays allocated through the later requests
  obtain ⟨-, -, -, hnew₁⟩ := Memory.malloc_spec h₁
  obtain ⟨-, he64, hkeep₂, hnew₂⟩ := Memory.malloc_spec h₂
  obtain ⟨hbytes, hn64, hkeep₃, hnew₃⟩ := Memory.malloc_spec h₃
  have hg₁ : (g, 24) ∈ m₁.blocks := (hnew₁ hg).1
  have hg₂ := hkeep₂ _ hg₁
  have hg₃ := hkeep₃ _ hg₂
  refine ⟨_, mallocGraph_eq hg (Memory.inBlock_of_mem hg₂) h₁ h₂ h₃ (Memory.inBlock_of_mem hg₃),
    ?_⟩
  exact {
    ne_zero := hg
    header := Memory.inBlock_of_mem hg₃
    nodesN_eq := by rw [readLE_writeLE_self, Nat.mod_eq_of_lt (by omega)]
    edgesN_eq := by
      rw [readLE_writeLE_of_disjoint (by omega), readLE_writeLE_self,
        Nat.mod_eq_of_lt (by omega)]
    edges_eq := by
      rw [readLE_writeLE_of_disjoint (by omega), readLE_writeLE_of_disjoint (by omega),
        readLE_writeLE_of_disjoint (by omega), hbytes, readLE_writeLE_self,
        Nat.mod_eq_of_lt (by omega)]
    nodes_eq := by
      rw [readLE_writeLE_of_disjoint (by omega), readLE_writeLE_of_disjoint (by omega),
        readLE_writeLE_self, Nat.mod_eq_of_lt (by omega)]
    edges_block := fun he => by
      have hapart := (hnew₂ he).2 _ hg₁
      exact ⟨Memory.inBlock_of_mem (hkeep₃ _ (hnew₂ he).1), hapart.symm⟩
    nodes_block := fun hn => by
      have hapart := (hnew₃ hn).2 _ hg₂
      exact ⟨Memory.inBlock_of_mem (hnew₃ hn).1, hapart.symm⟩
    apart := fun he hn => by
      have hapart := (hnew₃ hn).2 _ (hnew₂ he).1
      exact hapart.symm }

/-- Without a header `malloc_graph` makes an invalid access. -/
theorem mallocGraph_null {m : Memory} {alloc : Allocator}
    (h : (m.malloc alloc GraphH.Graph.size).2 = 0) (nodesN edgesN : ℕ) :
    mallocGraph m alloc nodesN edgesN = .error .nullDeref := by
  simp [mallocGraph, h, Memory.store_null, bind, Except.bind]

/-- **What `malloc_graph` returns is a graph** with the counts asked for. -/
theorem mallocGraph_at {m m' : Memory} {alloc : Allocator} {nodesN edgesN graph : ℕ}
    (hnodesN : nodesN < 2 ^ 32) (hedgesN : edgesN < 2 ^ 32)
    (h : mallocGraph m alloc nodesN edgesN = .ok (m', graph)) :
    ∃ edges nodes, GraphAt m' graph nodesN edgesN edges nodes := by
  by_cases hg : (m.malloc alloc GraphH.Graph.size).2 = 0
  · rw [mallocGraph_null hg] at h
    cases h
  · obtain ⟨m'', hok, hat⟩ := mallocGraph_ok hnodesN hedgesN hg rfl rfl rfl
    rw [hok] at h
    obtain ⟨rfl, rfl⟩ := Prod.mk.inj (Except.ok.inj h)
    exact ⟨_, _, hat⟩

end Arboql
