import Arboql.Lib.CLayout

/-!
# Graphs across the C boundary

A graph lives in C memory. `graph.c` allocates and fills it through the
structures of `graph.h`; Python calls these functions through `ctypes`, which
converts the arguments, and reads the graph through `ctypes.Structure` classes
of its own. The two sides declare the structures independently, so each
declaration is modelled as it stands (`GraphH`, `Bindings`).

The C compiler and `ctypes` lay structures out by the same rule, an enumeration
is an unsigned integer of four bytes, and the union `AttributeValue` is passed
like its only member. The calls to the logger are left out.
-/

namespace Arboql

open CLayout

/-! ### `graph.h` -/

namespace GraphH

def unsigned : CType := .int 4 false

def pointer : CType := .int 8 false

/-- An enumeration without negative members. -/
def AttributeType : CType := .int 4 false

def AttributeValue : CType := .union [("u", unsigned)]

def Attribute : CType := .struct [("type", AttributeType), ("value", AttributeValue)]

def Edge : CType := .struct [("source", unsigned), ("target", unsigned), ("data", Attribute)]

def Node : CType := Attribute

def Graph : CType :=
  .struct [("nodes_n", unsigned), ("edges_n", unsigned), ("edges", pointer), ("nodes", pointer)]

end GraphH

/-- The address of `base[i]` in an array of `t`. C does not define what is reached from a
null pointer, whatever `i` is; an access to it counts as one through the null pointer. -/
def elemAddr (t : CType) (base i : ℕ) : ℕ := if base = 0 then 0 else base + i * t.size

/-! ### `graph.c` -/

section GraphC

/-- `malloc_graph`. The products are of type `size_t`, where they do not wrap. -/
def mallocGraph (m : Memory) (alloc : Allocator) (nodesN edgesN : ℕ) :
    Except MemFault (Memory × ℕ) := do
  let (m, graph) := m.malloc alloc GraphH.Graph.size
  let (m, edges) := m.malloc alloc (GraphH.Edge.size * edgesN)
  let m ← m.store GraphH.Graph graph ["edges"] edges
  let (m, nodes) := m.malloc alloc (GraphH.Node.size * nodesN)
  let m ← m.store GraphH.Graph graph ["nodes"] nodes
  let m ← m.store GraphH.Graph graph ["edges_n"] edgesN
  let m ← m.store GraphH.Graph graph ["nodes_n"] nodesN
  return (m, graph)

/-- `graph->edges[edge_id].path = v`. -/
def setEdgeMember (m : Memory) (graph edgeId : ℕ) (path : List String) (v : ℕ) :
    Except MemFault Memory := do
  let edges ← m.load GraphH.Graph graph ["edges"]
  m.store GraphH.Edge (elemAddr GraphH.Edge edges.toNat edgeId) path v

/-- `graph->nodes[node_id].path = v`. -/
def setNodeMember (m : Memory) (graph nodeId : ℕ) (path : List String) (v : ℕ) :
    Except MemFault Memory := do
  let nodes ← m.load GraphH.Graph graph ["nodes"]
  m.store GraphH.Node (elemAddr GraphH.Node nodes.toNat nodeId) path v

/-- `add_edge`. -/
def addEdge (m : Memory) (graph edgeId source target attributeType attributeValue : ℕ) :
    Except MemFault Memory := do
  let m ← setEdgeMember m graph edgeId ["source"] source
  let m ← setEdgeMember m graph edgeId ["target"] target
  let m ← setEdgeMember m graph edgeId ["data", "type"] attributeType
  setEdgeMember m graph edgeId ["data", "value", "u"] attributeValue

/-- `add_node`. -/
def addNode (m : Memory) (graph nodeId attributeType attributeValue : ℕ) :
    Except MemFault Memory := do
  let m ← setNodeMember m graph nodeId ["type"] attributeType
  setNodeMember m graph nodeId ["value", "u"] attributeValue

end GraphC

/-! ### The `ctypes` structures -/

namespace Bindings

def cInt : CType := .int 4 true

def cUint : CType := .int 4 false

def POINTER : CType := .int 8 false

def AttributeType : CType := cInt

def AttributeValue : CType := .union [("_u", cUint)]

def Attribute : CType := .struct [("_type", AttributeType), ("_value", AttributeValue)]

def Edge : CType := .struct [("_source", cInt), ("_target", cInt), ("_data", Attribute)]

def Graph : CType :=
  .struct [("_nodes_n", cInt), ("_edges_n", cInt), ("_edges", POINTER), ("_nodes", POINTER)]

/-- `graph.nodes_n`. -/
def nodesN (m : Memory) (graph : ℕ) : Except MemFault ℤ := m.load Graph graph ["_nodes_n"]

/-- `graph.edges_n`. -/
def edgesN (m : Memory) (graph : ℕ) : Except MemFault ℤ := m.load Graph graph ["_edges_n"]

/-- A member of `graph.edges[i]`. -/
def edgeMember (m : Memory) (graph i : ℕ) (path : List String) : Except MemFault ℤ := do
  let edges ← m.load Graph graph ["_edges"]
  m.load Edge (elemAddr Edge edges.toNat i) path

/-- A member of `graph.nodes[j]`. -/
def nodeMember (m : Memory) (graph j : ℕ) (path : List String) : Except MemFault ℤ := do
  let nodes ← m.load Graph graph ["_nodes"]
  m.load Attribute (elemAddr Attribute nodes.toNat j) path

/-- `graph.edges[i].source`. -/
def edgeSource (m : Memory) (graph i : ℕ) : Except MemFault ℤ := edgeMember m graph i ["_source"]

/-- `graph.edges[i].target`. -/
def edgeTarget (m : Memory) (graph i : ℕ) : Except MemFault ℤ := edgeMember m graph i ["_target"]

/-- `graph.edges[i].data.type.value`. -/
def edgeType (m : Memory) (graph i : ℕ) : Except MemFault ℤ :=
  edgeMember m graph i ["_data", "_type"]

/-- `graph.edges[i].data.value.u`. -/
def edgeValue (m : Memory) (graph i : ℕ) : Except MemFault ℤ :=
  edgeMember m graph i ["_data", "_value", "_u"]

/-- `graph.nodes[j].type.value`. -/
def nodeType (m : Memory) (graph j : ℕ) : Except MemFault ℤ := nodeMember m graph j ["_type"]

/-- `graph.nodes[j].value.u`. -/
def nodeValue (m : Memory) (graph j : ℕ) : Except MemFault ℤ :=
  nodeMember m graph j ["_value", "_u"]

/-! ### The wrapped functions -/

/-- What Python code passes as an argument: an `int`, or a `tuple` of them. -/
inductive PyArg where
  | int (z : ℤ)
  | tuple (elems : List ℤ)
  deriving DecidableEq

/-- The abnormal ends of a call from Python. -/
inductive PyError where
  /-- `ctypes.ArgumentError`. -/
  | argumentError
  /-- The C function makes an invalid access, which C does not define. -/
  | fault (f : MemFault)
  deriving DecidableEq

/-- The conversion of an argument declared `c_uint` or `c_int`: an `int` is reduced
modulo `2 ^ 32`, a `tuple` is refused. The four bytes passed are given as an
unsigned number. -/
def convert : PyArg → Except PyError ℕ
  | .int z => .ok (z % 2 ^ 32).toNat
  | .tuple _ => .error .argumentError

/-- The call of a C function. -/
def call {β : Type} (r : Except MemFault β) : Except PyError β := r.mapError .fault

theorem call_eq_ok_iff {β : Type} {r : Except MemFault β} {x : β} :
    call r = .ok x ↔ r = .ok x := by
  cases r with
  | error f => exact iff_of_false (by rintro ⟨⟩) (by rintro ⟨⟩)
  | ok y =>
    constructor
    · intro h
      rw [show y = x from Except.ok.inj h]
    · intro h
      rw [h]
      rfl

/-- `malloc_graph`. -/
def mallocGraph (m : Memory) (alloc : Allocator) (nodesN edgesN : PyArg) :
    Except PyError (Memory × ℕ) := do
  let nodesN ← convert nodesN
  let edgesN ← convert edgesN
  call (Arboql.mallocGraph m alloc nodesN edgesN)

/-- `add_edge`. -/
def addEdge (m : Memory) (graph : ℕ)
    (edgeId source target attributeType attributeValue : PyArg) : Except PyError Memory := do
  let edgeId ← convert edgeId
  let source ← convert source
  let target ← convert target
  let attributeType ← convert attributeType
  let attributeValue ← convert attributeValue
  call (Arboql.addEdge m graph edgeId source target attributeType attributeValue)

/-- `add_node`. -/
def addNode (m : Memory) (graph : ℕ) (nodeId attributeType attributeValue : PyArg) :
    Except PyError Memory := do
  let nodeId ← convert nodeId
  let attributeType ← convert attributeType
  let attributeValue ← convert attributeValue
  call (Arboql.addNode m graph nodeId attributeType attributeValue)

/-- An argument in the range of `c_uint` arrives as it is. -/
theorem convert_natCast {n : ℕ} (h : n < 2 ^ 32) : convert (.int n) = .ok n := by
  rw [convert, Int.emod_eq_of_lt (by omega) (by omega), Int.toNat_natCast]

/-- The word that is passed for an attribute type. -/
def typeWord (z : ℤ) : ℕ := (z % 2 ^ 32).toNat

theorem mallocGraph_int {m : Memory} {alloc : Allocator} {n e : ℕ} (hn : n < 2 ^ 32)
    (he : e < 2 ^ 32) :
    mallocGraph m alloc (.int n) (.int e) = call (Arboql.mallocGraph m alloc n e) := by
  rw [mallocGraph, convert_natCast hn, convert_natCast he]
  rfl

theorem addEdge_int {m : Memory} {graph i s t v : ℕ} {ty : ℤ} (hi : i < 2 ^ 32)
    (hs : s < 2 ^ 32) (ht : t < 2 ^ 32) (hv : v < 2 ^ 32) :
    addEdge m graph (.int i) (.int s) (.int t) (.int ty) (.int v)
      = call (Arboql.addEdge m graph i s t (typeWord ty) v) := by
  rw [addEdge, convert_natCast hi, convert_natCast hs, convert_natCast ht, convert_natCast hv]
  rfl

theorem addNode_int {m : Memory} {graph j v : ℕ} {ty : ℤ} (hj : j < 2 ^ 32)
    (hv : v < 2 ^ 32) :
    addNode m graph (.int j) (.int ty) (.int v)
      = call (Arboql.addNode m graph j (typeWord ty) v) := by
  rw [addNode, convert_natCast hj, convert_natCast hv]
  rfl

end Bindings

/-! ### The two layouts -/

/-- The two sides place the members of a graph at the same offsets, with the same
widths. Signedness differs at the counts. -/
theorem locate_graph :
    GraphH.Graph.locate ["nodes_n"] = some (0, .int 4 false)
      ∧ GraphH.Graph.locate ["edges_n"] = some (4, .int 4 false)
      ∧ GraphH.Graph.locate ["edges"] = some (8, .int 8 false)
      ∧ GraphH.Graph.locate ["nodes"] = some (16, .int 8 false)
      ∧ Bindings.Graph.locate ["_nodes_n"] = some (0, .int 4 true)
      ∧ Bindings.Graph.locate ["_edges_n"] = some (4, .int 4 true)
      ∧ Bindings.Graph.locate ["_edges"] = some (8, .int 8 false)
      ∧ Bindings.Graph.locate ["_nodes"] = some (16, .int 8 false) :=
  ⟨rfl, rfl, rfl, rfl, rfl, rfl, rfl, rfl⟩

/-- Likewise for an edge, where signedness differs at the source, the target and
the type. -/
theorem locate_edge :
    GraphH.Edge.locate ["source"] = some (0, .int 4 false)
      ∧ GraphH.Edge.locate ["target"] = some (4, .int 4 false)
      ∧ GraphH.Edge.locate ["data", "type"] = some (8, .int 4 false)
      ∧ GraphH.Edge.locate ["data", "value", "u"] = some (12, .int 4 false)
      ∧ Bindings.Edge.locate ["_source"] = some (0, .int 4 true)
      ∧ Bindings.Edge.locate ["_target"] = some (4, .int 4 true)
      ∧ Bindings.Edge.locate ["_data", "_type"] = some (8, .int 4 true)
      ∧ Bindings.Edge.locate ["_data", "_value", "_u"] = some (12, .int 4 false) :=
  ⟨rfl, rfl, rfl, rfl, rfl, rfl, rfl, rfl⟩

/-- Likewise for a node, where signedness differs at the type. -/
theorem locate_node :
    GraphH.Node.locate ["type"] = some (0, .int 4 false)
      ∧ GraphH.Node.locate ["value", "u"] = some (4, .int 4 false)
      ∧ Bindings.Attribute.locate ["_type"] = some (0, .int 4 true)
      ∧ Bindings.Attribute.locate ["_value", "_u"] = some (4, .int 4 false) :=
  ⟨rfl, rfl, rfl, rfl⟩

end Arboql
