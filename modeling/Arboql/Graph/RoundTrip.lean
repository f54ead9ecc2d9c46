import Arboql.Graph.GraphMemory
import Arboql.Lib.Loops
import Mathlib.Data.List.Induction

/-!
# What Python reads back from a graph

Any sequence of `add_edge` and `add_node` calls on a graph from `malloc_graph`
leaves in every slot the words of the last call on it (`Written`). The `ctypes`
view reads the same words, but takes the counts, the sources and the targets for
signed integers, where C writes unsigned ones. So what is read back is what was
written exactly when these stay below `2 ^ 31` (`graph_round_trip_iff`).
-/

namespace Arboql

open CLayout

/-! ### Calls -/

/-- The arguments of `add_edge` apart from the graph and the slot. -/
structure EdgeArgs where
  source : ℕ
  target : ℕ
  attributeType : ℤ
  attributeValue : ℕ

/-- The arguments of `add_node` apart from the graph and the slot. -/
structure NodeArgs where
  attributeType : ℤ
  attributeValue : ℕ

/-- **A call on a graph.** -/
inductive GraphCall where
  | addEdge (edgeId : ℕ) (args : EdgeArgs)
  | addNode (nodeId : ℕ) (args : NodeArgs)

namespace GraphCall

/-- Slot indices in range, and values in the range of `c_uint`. -/
def InRange (nodesN edgesN : ℕ) : GraphCall → Prop
  | .addEdge i e =>
    i < edgesN ∧ e.source < 2 ^ 32 ∧ e.target < 2 ^ 32 ∧ e.attributeValue < 2 ^ 32
  | .addNode j a => j < nodesN ∧ a.attributeValue < 2 ^ 32

/-- The call from Python. -/
def perform (m : Memory) (graph : ℕ) : GraphCall → Except Bindings.PyError Memory
  | .addEdge i e =>
    Bindings.addEdge m graph (.int i) (.int e.source) (.int e.target) (.int e.attributeType)
      (.int e.attributeValue)
  | .addNode j a =>
    Bindings.addNode m graph (.int j) (.int a.attributeType) (.int a.attributeValue)

/-- What the call writes to edge slot `i`. -/
def edgeAt (i : ℕ) : GraphCall → Option EdgeArgs
  | .addEdge i' e => if i' = i then some e else none
  | .addNode _ _ => none

/-- What the call writes to node slot `j`. -/
def nodeAt (j : ℕ) : GraphCall → Option NodeArgs
  | .addEdge _ _ => none
  | .addNode j' a => if j' = j then some a else none

/-- The array that the call writes to was allocated. -/
def HasArray (m : Memory) (graph : ℕ) : GraphCall → Prop
  | .addEdge _ _ => m.load GraphH.Graph graph ["edges"] ≠ .ok 0
  | .addNode _ _ => m.load GraphH.Graph graph ["nodes"] ≠ .ok 0

end GraphCall

/-- A sequence of calls. -/
def runCalls (m : Memory) (graph : ℕ) (calls : List GraphCall) :
    Except Bindings.PyError Memory :=
  calls.foldlM (fun m c => c.perform m graph) m

/-- The arguments of the last `add_edge` on slot `i`. -/
def lastEdge (calls : List GraphCall) (i : ℕ) : Option EdgeArgs :=
  calls.reverse.findSome? (GraphCall.edgeAt i)

/-- The arguments of the last `add_node` on slot `j`. -/
def lastNode (calls : List GraphCall) (j : ℕ) : Option NodeArgs :=
  calls.reverse.findSome? (GraphCall.nodeAt j)

theorem lastEdge_concat (calls : List GraphCall) (c : GraphCall) (i : ℕ) :
    lastEdge (calls ++ [c]) i = (c.edgeAt i).or (lastEdge calls i) := by
  unfold lastEdge
  rw [List.reverse_append, List.reverse_singleton, List.singleton_append, List.findSome?_cons]
  cases c.edgeAt i <;> rfl

theorem lastNode_concat (calls : List GraphCall) (c : GraphCall) (j : ℕ) :
    lastNode (calls ++ [c]) j = (c.nodeAt j).or (lastNode calls j) := by
  unfold lastNode
  rw [List.reverse_append, List.reverse_singleton, List.singleton_append, List.findSome?_cons]
  cases c.nodeAt j <;> rfl

/-! ### One call -/

/-- The four words of an edge. -/
def EdgeArgs.words (e : EdgeArgs) : List ℕ :=
  [e.source, e.target, Bindings.typeWord e.attributeType, e.attributeValue]

/-- The two words of a node. -/
def NodeArgs.words (a : NodeArgs) : List ℕ :=
  [Bindings.typeWord a.attributeType, a.attributeValue]

section OneCall

variable {m m' : Memory} {graph nodesN edgesN edges nodes : ℕ}

/-- The bytes after a call that makes no invalid access. -/
def GraphCall.write (edges nodes : ℕ) (bytes : ℕ → UInt8) : GraphCall → ℕ → UInt8
  | .addEdge i e => writeWords bytes (edges + i * 16) e.words
  | .addNode j a => writeWords bytes (nodes + j * 8) a.words

/-- The array that the call writes to, in terms of the two array pointers. -/
theorem GraphAt.hasArray_iff (h : GraphAt m graph nodesN edgesN edges nodes) (c : GraphCall) :
    c.HasArray m graph ↔ match c with
      | .addEdge _ _ => edges ≠ 0
      | .addNode _ _ => nodes ≠ 0 := by
  cases c with
  | addEdge i e =>
    unfold GraphCall.HasArray
    rw [h.load_edges]
    simp
  | addNode j a =>
    unfold GraphCall.HasArray
    rw [h.load_nodes]
    simp

/-- **A call writes its slot**, if the array is there. -/
theorem GraphAt.perform_eq (h : GraphAt m graph nodesN edgesN edges nodes)
    (hnodesN : nodesN < 2 ^ 32) (hedgesN : edgesN < 2 ^ 32) {c : GraphCall}
    (hc : c.InRange nodesN edgesN) (harray : c.HasArray m graph) :
    c.perform m graph = .ok { m with bytes := c.write edges nodes m.bytes } := by
  rw [h.hasArray_iff] at harray
  cases c with
  | addEdge i e =>
    obtain ⟨hi, hs, ht, hv⟩ := hc
    change Bindings.addEdge m graph (.int i) _ _ _ _ = _
    rw [Bindings.addEdge_int (by omega) hs ht hv, h.addEdge_eq harray hi]
    rfl
  | addNode j a =>
    obtain ⟨hj, hv⟩ := hc
    change Bindings.addNode m graph (.int j) _ _ = _
    rw [Bindings.addNode_int (by omega) hv, h.addNode_eq harray hj]
    rfl

/-- Without the array a call makes an invalid access. -/
theorem GraphAt.perform_ok_iff (h : GraphAt m graph nodesN edgesN edges nodes)
    (hnodesN : nodesN < 2 ^ 32) (hedgesN : edgesN < 2 ^ 32) {c : GraphCall}
    (hc : c.InRange nodesN edgesN) :
    c.perform m graph = .ok m'
      ↔ c.HasArray m graph ∧ m' = { m with bytes := c.write edges nodes m.bytes } := by
  by_cases harray : c.HasArray m graph
  · rw [h.perform_eq hnodesN hedgesN hc harray]
    constructor
    · intro heq
      exact ⟨harray, (Except.ok.inj heq).symm⟩
    · rintro ⟨-, rfl⟩
      rfl
  · -- the array pointer is null, and its first use is an invalid access
    refine ⟨fun hok => absurd hok ?_, fun hr => absurd hr.1 harray⟩
    rw [h.hasArray_iff] at harray
    cases c with
    | addEdge i e =>
      obtain ⟨hi, hs, ht, hv⟩ := hc
      obtain rfl : edges = 0 := by simpa using harray
      change Bindings.addEdge m graph (.int i) _ _ _ _ ≠ _
      rw [Bindings.addEdge_int (by omega) hs ht hv, h.addEdge_null]
      rintro ⟨⟩
    | addNode j a =>
      obtain ⟨hj, hv⟩ := hc
      obtain rfl : nodes = 0 := by simpa using harray
      change Bindings.addNode m graph (.int j) _ _ ≠ _
      rw [Bindings.addNode_int (by omega) hv, h.addNode_null]
      rintro ⟨⟩

end OneCall

/-! ### What a call leaves alone -/

section Frame

variable {m : Memory} {graph nodesN edgesN edges nodes : ℕ} {c : GraphCall}

@[simp] theorem EdgeArgs.length_words (e : EdgeArgs) : e.words.length = 4 := rfl

@[simp] theorem NodeArgs.length_words (a : NodeArgs) : a.words.length = 2 := rfl

/-- A call leaves the header alone. -/
theorem GraphAt.write (h : GraphAt m graph nodesN edgesN edges nodes)
    (hc : c.InRange nodesN edgesN) (harray : c.HasArray m graph) :
    GraphAt { m with bytes := c.write edges nodes m.bytes } graph nodesN edgesN edges nodes := by
  rw [h.hasArray_iff] at harray
  refine h.of_bytes fun a w ha haw => ?_
  cases c with
  | addEdge i e =>
    have hi := hc.1
    have hapart := (h.edges_block harray).2
    exact readLE_writeWords_of_disjoint (by rw [e.length_words]; omega)
  | addNode j a =>
    have hj := hc.1
    have hapart := (h.nodes_block harray).2
    exact readLE_writeWords_of_disjoint (by rw [a.length_words]; omega)

/-- A call leaves the other edge slots alone. -/
theorem GraphAt.write_edge (h : GraphAt m graph nodesN edgesN edges nodes)
    (hc : c.InRange nodesN edgesN) (harray : c.HasArray m graph) (he : edges ≠ 0) {i off : ℕ}
    (hi : i < edgesN) (hoff : off + 4 ≤ 16) (hat : c.edgeAt i = none) :
    readLE (c.write edges nodes m.bytes) (edges + i * 16 + off) 4
      = readLE m.bytes (edges + i * 16 + off) 4 := by
  rw [h.hasArray_iff] at harray
  cases c with
  | addEdge i' e =>
    -- slots of 16 bytes with different numbers
    have hne : i' ≠ i := fun heq => absurd hat (by simp [GraphCall.edgeAt, heq])
    exact readLE_writeWords_of_disjoint (by rw [e.length_words]; omega)
  | addNode j a =>
    -- the two arrays do not overlap
    have hj := hc.1
    have hapart := h.apart he harray
    exact readLE_writeWords_of_disjoint (by rw [a.length_words]; omega)

/-- A call leaves the other node slots alone. -/
theorem GraphAt.write_node (h : GraphAt m graph nodesN edgesN edges nodes)
    (hc : c.InRange nodesN edgesN) (harray : c.HasArray m graph) (hn : nodes ≠ 0) {j off : ℕ}
    (hj : j < nodesN) (hoff : off + 4 ≤ 8) (hat : c.nodeAt j = none) :
    readLE (c.write edges nodes m.bytes) (nodes + j * 8 + off) 4
      = readLE m.bytes (nodes + j * 8 + off) 4 := by
  rw [h.hasArray_iff] at harray
  cases c with
  | addEdge i e =>
    have hi := hc.1
    have hapart := h.apart harray hn
    exact readLE_writeWords_of_disjoint (by rw [e.length_words]; omega)
  | addNode j' a =>
    have hne : j' ≠ j := fun heq => absurd hat (by simp [GraphCall.nodeAt, heq])
    exact readLE_writeWords_of_disjoint (by rw [a.length_words]; omega)

end Frame

/-! ### Runs -/

section Runs

variable {m m' : Memory} {graph nodesN edgesN edges nodes : ℕ} {calls : List GraphCall}

theorem runCalls_concat (m : Memory) (graph : ℕ) (calls : List GraphCall) (c : GraphCall) :
    runCalls m graph (calls ++ [c])
      = runCalls m graph calls >>= fun m₁ => c.perform m₁ graph := by
  unfold runCalls
  rw [List.foldlM_append]
  exact congrArg (calls.foldlM _ m >>= ·) (funext fun m₁ => bind_pure (c.perform m₁ graph))

/-- A run with one call more is a run and then the call. -/
theorem runCalls_concat_ok_iff {c : GraphCall} :
    runCalls m graph (calls ++ [c]) = .ok m'
      ↔ ∃ m₁, runCalls m graph calls = .ok m₁ ∧ c.perform m₁ graph = .ok m' := by
  rw [runCalls_concat]
  exact Loops.bind_eq_ok_iff

/-- **What a run leaves**: the graph it found, and in every slot written the words
of the last call on it. -/
structure Written (m : Memory) (graph nodesN edgesN edges nodes : ℕ)
    (calls : List GraphCall) : Prop where
  graphAt : GraphAt m graph nodesN edgesN edges nodes
  edge : ∀ i e, lastEdge calls i = some e →
    i < edgesN ∧ edges ≠ 0 ∧ e.source < 2 ^ 32 ∧ e.target < 2 ^ 32
      ∧ ∀ k w, e.words[k]? = some w → readLE m.bytes (edges + i * 16 + 4 * k) 4 = w
  node : ∀ j a, lastNode calls j = some a →
    j < nodesN ∧ nodes ≠ 0
      ∧ ∀ k w, a.words[k]? = some w → readLE m.bytes (nodes + j * 8 + 4 * k) 4 = w

theorem typeWord_lt (z : ℤ) : Bindings.typeWord z < 2 ^ 32 := by
  unfold Bindings.typeWord
  omega

theorem EdgeArgs.words_lt {e : EdgeArgs} (hs : e.source < 2 ^ 32) (ht : e.target < 2 ^ 32)
    (hv : e.attributeValue < 2 ^ 32) : ∀ w ∈ e.words, w < 2 ^ 32 := by
  intro w hw
  simp only [words, List.mem_cons, List.not_mem_nil, or_false] at hw
  rcases hw with rfl | rfl | rfl | rfl
  · exact hs
  · exact ht
  · exact typeWord_lt _
  · exact hv

theorem NodeArgs.words_lt {a : NodeArgs} (hv : a.attributeValue < 2 ^ 32) :
    ∀ w ∈ a.words, w < 2 ^ 32 := by
  intro w hw
  simp only [words, List.mem_cons, List.not_mem_nil, or_false] at hw
  rcases hw with rfl | rfl
  · exact typeWord_lt _
  · exact hv

/-- The edge slots after one call more. -/
theorem Written.edge_step (h : Written m graph nodesN edgesN edges nodes calls) {c : GraphCall}
    (hc : c.InRange nodesN edgesN) (harray : c.HasArray m graph) {i : ℕ} {e : EdgeArgs}
    (hlast : lastEdge (calls ++ [c]) i = some e) :
    i < edgesN ∧ edges ≠ 0 ∧ e.source < 2 ^ 32 ∧ e.target < 2 ^ 32
      ∧ ∀ k w, e.words[k]? = some w →
        readLE (c.write edges nodes m.bytes) (edges + i * 16 + 4 * k) 4 = w := by
  rw [lastEdge_concat] at hlast
  cases hat : c.edgeAt i with
  | none =>
    -- another slot: what it held is still there
    rw [hat, Option.none_or] at hlast
    obtain ⟨hi, he, hs, ht, hwords⟩ := h.edge i e hlast
    refine ⟨hi, he, hs, ht, fun k w hk => ?_⟩
    have hk4 : k < 4 := (List.getElem?_eq_some_iff.mp hk).1
    rw [← hwords k w hk]
    exact h.graphAt.write_edge hc harray he hi (by omega) hat
  | some e' =>
    -- this slot: it holds the words of the call
    rw [hat, Option.some_or] at hlast
    obtain rfl := Option.some.inj hlast
    have harray' := (h.graphAt.hasArray_iff c).mp harray
    cases c with
    | addNode j a => exact absurd hat (by simp [GraphCall.edgeAt])
    | addEdge i' e'' =>
      obtain ⟨rfl, rfl⟩ : i' = i ∧ e'' = e' := by
        simpa [GraphCall.edgeAt] using hat
      obtain ⟨hi, hs, ht, hv⟩ := hc
      exact ⟨hi, harray', hs, ht, fun k w hk => readLE_writeWords_self hk
        (EdgeArgs.words_lt hs ht hv w (List.mem_of_getElem? hk))⟩

/-- The node slots after one call more. -/
theorem Written.node_step (h : Written m graph nodesN edgesN edges nodes calls) {c : GraphCall}
    (hc : c.InRange nodesN edgesN) (harray : c.HasArray m graph) {j : ℕ} {a : NodeArgs}
    (hlast : lastNode (calls ++ [c]) j = some a) :
    j < nodesN ∧ nodes ≠ 0
      ∧ ∀ k w, a.words[k]? = some w →
        readLE (c.write edges nodes m.bytes) (nodes + j * 8 + 4 * k) 4 = w := by
  rw [lastNode_concat] at hlast
  cases hat : c.nodeAt j with
  | none =>
    rw [hat, Option.none_or] at hlast
    obtain ⟨hj, hn, hwords⟩ := h.node j a hlast
    refine ⟨hj, hn, fun k w hk => ?_⟩
    have hk2 : k < 2 := (List.getElem?_eq_some_iff.mp hk).1
    rw [← hwords k w hk]
    exact h.graphAt.write_node hc harray hn hj (by omega) hat
  | some a' =>
    rw [hat, Option.some_or] at hlast
    obtain rfl := Option.some.inj hlast
    have harray' := (h.graphAt.hasArray_iff c).mp harray
    cases c with
    | addEdge i e => exact absurd hat (by simp [GraphCall.nodeAt])
    | addNode j' a'' =>
      obtain ⟨rfl, rfl⟩ : j' = j ∧ a'' = a' := by
        simpa [GraphCall.nodeAt] using hat
      obtain ⟨hj, hv⟩ := hc
      exact ⟨hj, harray', fun k w hk => readLE_writeWords_self hk
        (NodeArgs.words_lt hv w (List.mem_of_getElem? hk))⟩

/-- **One call more.** -/
theorem Written.step (h : Written m graph nodesN edgesN edges nodes calls)
    (hnodesN : nodesN < 2 ^ 32) (hedgesN : edgesN < 2 ^ 32) {c : GraphCall}
    (hc : c.InRange nodesN edgesN) (hok : c.perform m graph = .ok m') :
    Written m' graph nodesN edgesN edges nodes (calls ++ [c]) := by
  obtain ⟨harray, rfl⟩ := (h.graphAt.perform_ok_iff hnodesN hedgesN hc).mp hok
  exact ⟨h.graphAt.write hc harray, fun _ _ hlast => h.edge_step hc harray hlast,
    fun _ _ hlast => h.node_step hc harray hlast⟩

/-- **Every run** leaves in the slots what was written last. -/
theorem GraphAt.runCalls (h : GraphAt m graph nodesN edgesN edges nodes)
    (hnodesN : nodesN < 2 ^ 32) (hedgesN : edgesN < 2 ^ 32)
    (hcalls : ∀ c ∈ calls, c.InRange nodesN edgesN)
    (hok : Arboql.runCalls m graph calls = .ok m') :
    Written m' graph nodesN edgesN edges nodes calls := by
  induction calls using List.reverseRecOn generalizing m' with
  | nil =>
    obtain rfl := Except.ok.inj hok
    exact ⟨h, fun i e hi => absurd hi (by simp [lastEdge]),
      fun j a hj => absurd hj (by simp [lastNode])⟩
  | append_singleton calls c ih =>
    -- the last call comes after a run that went through
    obtain ⟨m₁, hrun, hstep⟩ := runCalls_concat_ok_iff.mp hok
    have hpre := ih (fun c hc => hcalls c (List.mem_append_left _ hc)) hrun
    exact hpre.step hnodesN hedgesN (hcalls c (by simp)) hstep

/-- A run goes through when the arrays that it writes to are there. -/
theorem GraphAt.runCalls_ok_iff (h : GraphAt m graph nodesN edgesN edges nodes)
    (hnodesN : nodesN < 2 ^ 32) (hedgesN : edgesN < 2 ^ 32)
    (hcalls : ∀ c ∈ calls, c.InRange nodesN edgesN) :
    (∃ m', Arboql.runCalls m graph calls = .ok m') ↔ ∀ c ∈ calls, c.HasArray m graph := by
  induction calls using List.reverseRecOn with
  | nil => exact ⟨fun _ c hc => absurd hc (by simp), fun _ => ⟨m, rfl⟩⟩
  | append_singleton calls c ih =>
    have hc := hcalls c (by simp)
    have hpre : ∀ c ∈ calls, c.InRange nodesN edgesN :=
      fun c hc => hcalls c (List.mem_append_left _ hc)
    -- calls do not move the arrays, so the last one finds what the first found
    have hat : ∀ m₁, Arboql.runCalls m graph calls = .ok m₁ →
        GraphAt m₁ graph nodesN edgesN edges nodes := fun m₁ hrun =>
      (h.runCalls hnodesN hedgesN hpre hrun).graphAt
    simp only [List.forall_mem_append, List.forall_mem_singleton]
    rw [← ih hpre]
    constructor
    · rintro ⟨m', hok⟩
      obtain ⟨m₁, hrun, hstep⟩ := runCalls_concat_ok_iff.mp hok
      have harray := (((hat m₁ hrun).perform_ok_iff hnodesN hedgesN hc).mp hstep).1
      rw [(hat m₁ hrun).hasArray_iff, ← h.hasArray_iff] at harray
      exact ⟨⟨m₁, hrun⟩, harray⟩
    · rintro ⟨⟨m₁, hrun⟩, harray⟩
      rw [h.hasArray_iff, ← (hat m₁ hrun).hasArray_iff] at harray
      have hstep := (hat m₁ hrun).perform_eq hnodesN hedgesN hc harray
      exact ⟨_, runCalls_concat_ok_iff.mpr ⟨m₁, hrun, hstep⟩⟩

end Runs

/-! ### The view from Python -/

section View

variable {m m' : Memory} {graph nodesN edgesN edges nodes : ℕ} {calls : List GraphCall}

/-- All that Python reads of an edge. -/
def edgeView (m : Memory) (graph i : ℕ) : List (Except MemFault ℤ) :=
  [Bindings.edgeSource m graph i, Bindings.edgeTarget m graph i, Bindings.edgeType m graph i,
    Bindings.edgeValue m graph i]

/-- All that Python reads of a node. -/
def nodeView (m : Memory) (graph j : ℕ) : List (Except MemFault ℤ) :=
  [Bindings.nodeType m graph j, Bindings.nodeValue m graph j]

/-- **A call changes nothing else**: neither the counts nor any other slot. -/
structure ChangesOnlyItsSlot (m m' : Memory) (graph nodesN edgesN : ℕ) (c : GraphCall) :
    Prop where
  nodes_count : Bindings.nodesN m' graph = Bindings.nodesN m graph
  edges_count : Bindings.edgesN m' graph = Bindings.edgesN m graph
  edge : ∀ i < edgesN, c.edgeAt i = none → edgeView m' graph i = edgeView m graph i
  node : ∀ j < nodesN, c.nodeAt j = none → nodeView m' graph j = nodeView m graph j

/-- **Python reads back what was written.** `m` is the memory before the calls and
`m'` the memory after them. -/
structure ReadBack (m m' : Memory) (graph nodesN edgesN : ℕ) (calls : List GraphCall) :
    Prop where
  nodes_count : Bindings.nodesN m' graph = .ok (nodesN : ℤ)
  edges_count : Bindings.edgesN m' graph = .ok (edgesN : ℤ)
  edge : ∀ i e, lastEdge calls i = some e →
    Bindings.edgeSource m' graph i = .ok (e.source : ℤ)
      ∧ Bindings.edgeTarget m' graph i = .ok (e.target : ℤ)
      ∧ Bindings.edgeValue m' graph i = .ok (e.attributeValue : ℤ)
  node : ∀ j a, lastNode calls j = some a →
    Bindings.nodeValue m' graph j = .ok (a.attributeValue : ℤ)
  frame : ∀ pre c post m₁ m₂, calls = pre ++ c :: post → runCalls m graph pre = .ok m₁ →
    c.perform m₁ graph = .ok m₂ → ChangesOnlyItsSlot m₁ m₂ graph nodesN edgesN c

/-- The offsets that the view reads an edge at. -/
theorem GraphAt.edgeView_eq (h : GraphAt m graph nodesN edgesN edges nodes) {i : ℕ}
    (hi : i < edgesN) (he : edges ≠ 0) :
    Bindings.edgeSource m graph i = .ok (decode 4 true (readLE m.bytes (edges + i * 16) 4))
      ∧ Bindings.edgeTarget m graph i
        = .ok (decode 4 true (readLE m.bytes (edges + i * 16 + 4) 4))
      ∧ Bindings.edgeType m graph i
        = .ok (decode 4 true (readLE m.bytes (edges + i * 16 + 8) 4))
      ∧ Bindings.edgeValue m graph i
        = .ok (readLE m.bytes (edges + i * 16 + 12) 4 : ℤ) := by
  obtain ⟨-, -, -, -, hsource, htarget, htype, hvalue⟩ := locate_edge
  refine ⟨(h.edgeMember_eq hi hsource (by omega)).trans (if_neg he),
    (h.edgeMember_eq hi htarget (by omega)).trans (if_neg he),
    (h.edgeMember_eq hi htype (by omega)).trans (if_neg he), ?_⟩
  rw [← decode_unsigned 4]
  exact (h.edgeMember_eq hi hvalue (by omega)).trans (if_neg he)

theorem GraphAt.nodeView_eq (h : GraphAt m graph nodesN edgesN edges nodes) {j : ℕ}
    (hj : j < nodesN) (hn : nodes ≠ 0) :
    Bindings.nodeType m graph j = .ok (decode 4 true (readLE m.bytes (nodes + j * 8) 4))
      ∧ Bindings.nodeValue m graph j = .ok (readLE m.bytes (nodes + j * 8 + 4) 4 : ℤ) := by
  obtain ⟨-, -, htype, hvalue⟩ := locate_node
  refine ⟨(h.nodeMember_eq hj htype (by omega)).trans (if_neg hn), ?_⟩
  rw [← decode_unsigned 4]
  exact (h.nodeMember_eq hj hvalue (by omega)).trans (if_neg hn)

/-- Without an array nothing is read. -/
theorem GraphAt.edgeView_null (h : GraphAt m graph nodesN edgesN 0 nodes) (i : ℕ) :
    edgeView m graph i = List.replicate 4 (.error .nullDeref) := by
  unfold edgeView Bindings.edgeSource Bindings.edgeTarget Bindings.edgeType Bindings.edgeValue
    Bindings.edgeMember
  rw [h.load_py_edges]
  rfl

theorem GraphAt.nodeView_null (h : GraphAt m graph nodesN edgesN edges 0) (j : ℕ) :
    nodeView m graph j = List.replicate 2 (.error .nullDeref) := by
  unfold nodeView Bindings.nodeType Bindings.nodeValue Bindings.nodeMember
  rw [h.load_py_nodes]
  rfl

/-- **The frame of a call.** -/
theorem GraphAt.changesOnlyItsSlot (h : GraphAt m graph nodesN edgesN edges nodes)
    (hnodesN : nodesN < 2 ^ 32) (hedgesN : edgesN < 2 ^ 32) {c : GraphCall}
    (hc : c.InRange nodesN edgesN) (hok : c.perform m graph = .ok m') :
    ChangesOnlyItsSlot m m' graph nodesN edgesN c := by
  obtain ⟨harray, rfl⟩ := (h.perform_ok_iff hnodesN hedgesN hc).mp hok
  have hat := h.write hc harray
  refine ⟨hat.py_nodesN.trans h.py_nodesN.symm, hat.py_edgesN.trans h.py_edgesN.symm,
    fun i hi hnone => ?_, fun j hj hnone => ?_⟩
  · by_cases he : edges = 0
    · -- nothing can be read before or after
      subst he
      rw [h.edgeView_null, hat.edgeView_null]
    · obtain ⟨hs, ht, hty, hv⟩ := h.edgeView_eq hi he
      obtain ⟨hs', ht', hty', hv'⟩ := hat.edgeView_eq hi he
      -- all four words are those of before
      have hframe : ∀ off, off + 4 ≤ 16 → _ := fun off hoff =>
        h.write_edge hc harray he hi hoff hnone
      unfold edgeView
      rw [hs, ht, hty, hv, hs', ht', hty', hv', hframe 4 (by omega), hframe 8 (by omega),
        hframe 12 (by omega)]
      have hframe0 := hframe 0 (by omega)
      rw [Nat.add_zero] at hframe0
      rw [hframe0]
  · by_cases hn : nodes = 0
    · subst hn
      rw [h.nodeView_null, hat.nodeView_null]
    · obtain ⟨hty, hv⟩ := h.nodeView_eq hj hn
      obtain ⟨hty', hv'⟩ := hat.nodeView_eq hj hn
      have hframe : ∀ off, off + 4 ≤ 8 → _ := fun off hoff =>
        h.write_node hc harray hn hj hoff hnone
      unfold nodeView
      rw [hty, hv, hty', hv', hframe 4 (by omega)]
      have hframe0 := hframe 0 (by omega)
      rw [Nat.add_zero] at hframe0
      rw [hframe0]

/-- A signed word reads as the number that was written, in the lower half only. -/
theorem decode_word_eq_iff {v : ℕ} : decode 4 true v = v ↔ v < 2 ^ 31 :=
  decode_signed_eq_iff.trans (by omega)

/-- What Python reads of a slot after a run. -/
theorem Written.edge_iff (h : Written m graph nodesN edgesN edges nodes calls) {i : ℕ}
    {e : EdgeArgs} (hlast : lastEdge calls i = some e) :
    (Bindings.edgeSource m graph i = .ok (e.source : ℤ) ↔ e.source < 2 ^ 31)
      ∧ (Bindings.edgeTarget m graph i = .ok (e.target : ℤ) ↔ e.target < 2 ^ 31)
      ∧ Bindings.edgeValue m graph i = .ok (e.attributeValue : ℤ) := by
  obtain ⟨hi, he, hs, ht, hwords⟩ := h.edge i e hlast
  obtain ⟨hsource, htarget, -, hvalue⟩ := h.graphAt.edgeView_eq hi he
  have hw₀ : readLE m.bytes (edges + i * 16) 4 = e.source := hwords 0 _ rfl
  have hw₁ : readLE m.bytes (edges + i * 16 + 4) 4 = e.target := hwords 1 _ rfl
  have hw₃ : readLE m.bytes (edges + i * 16 + 12) 4 = e.attributeValue := hwords 3 _ rfl
  rw [hsource, htarget, hvalue, hw₀, hw₁, hw₃, Except.ok.injEq, Except.ok.injEq,
    decode_word_eq_iff, decode_word_eq_iff]
  exact ⟨Iff.rfl, Iff.rfl, rfl⟩

theorem Written.node_eq (h : Written m graph nodesN edgesN edges nodes calls) {j : ℕ}
    {a : NodeArgs} (hlast : lastNode calls j = some a) :
    Bindings.nodeValue m graph j = .ok (a.attributeValue : ℤ) := by
  obtain ⟨hj, hn, hwords⟩ := h.node j a hlast
  obtain ⟨-, hvalue⟩ := h.graphAt.nodeView_eq hj hn
  have hw₁ : readLE m.bytes (nodes + j * 8 + 4) 4 = a.attributeValue := hwords 1 _ rfl
  rw [hvalue, hw₁]

end View

/-! ### The round trip -/

/-- **Write and read across the C boundary.** Python reads back what was written
exactly when the counts, and the source and the target last written to each
edge, are below `2 ^ 31`, and the arrays that are written to were allocated. -/
theorem graph_round_trip_iff {m₀ m : Memory} {alloc : Allocator} {graph nodesN edgesN : ℕ}
    {calls : List GraphCall} (hnodesN : nodesN < 2 ^ 32) (hedgesN : edgesN < 2 ^ 32)
    (hmalloc : Bindings.mallocGraph m₀ alloc (.int nodesN) (.int edgesN) = .ok (m, graph))
    (hcalls : ∀ c ∈ calls, c.InRange nodesN edgesN) :
    (∃ m', runCalls m graph calls = .ok m' ∧ ReadBack m m' graph nodesN edgesN calls)
      ↔ (∀ c ∈ calls, c.HasArray m graph) ∧ nodesN < 2 ^ 31 ∧ edgesN < 2 ^ 31
        ∧ ∀ i e, lastEdge calls i = some e → e.source < 2 ^ 31 ∧ e.target < 2 ^ 31 := by
  rw [Bindings.mallocGraph_int hnodesN hedgesN] at hmalloc
  obtain ⟨edges, nodes, h⟩ :=
    mallocGraph_at hnodesN hedgesN (Bindings.call_eq_ok_iff.mp hmalloc)
  constructor
  · -- what is read back is decoded as signed, so it is in the lower half
    rintro ⟨m', hrun, hback⟩
    have hw := h.runCalls hnodesN hedgesN hcalls hrun
    have hnodes := hback.nodes_count
    have hedges := hback.edges_count
    rw [hw.graphAt.py_nodesN, Except.ok.injEq, decode_word_eq_iff] at hnodes
    rw [hw.graphAt.py_edgesN, Except.ok.injEq, decode_word_eq_iff] at hedges
    refine ⟨(h.runCalls_ok_iff hnodesN hedgesN hcalls).mp ⟨m', hrun⟩, hnodes, hedges,
      fun i e hlast => ?_⟩
    obtain ⟨hs, ht, -⟩ := hw.edge_iff hlast
    obtain ⟨hs', ht', -⟩ := hback.edge i e hlast
    exact ⟨hs.mp hs', ht.mp ht'⟩
  · -- the run goes through, and decoding changes no number of the lower half
    rintro ⟨harrays, hnodes, hedges, hlow⟩
    obtain ⟨m', hrun⟩ := (h.runCalls_ok_iff hnodesN hedgesN hcalls).mpr harrays
    have hw := h.runCalls hnodesN hedgesN hcalls hrun
    refine ⟨m', hrun, ?_, ?_, fun i e hlast => ?_, fun j a hlast => hw.node_eq hlast, ?_⟩
    · rw [hw.graphAt.py_nodesN, decode_word_eq_iff.mpr hnodes]
    · rw [hw.graphAt.py_edgesN, decode_word_eq_iff.mpr hedges]
    · obtain ⟨hs, ht, hv⟩ := hw.edge_iff hlast
      obtain ⟨hs', ht'⟩ := hlow i e hlast
      exact ⟨hs.mpr hs', ht.mpr ht', hv⟩
    · -- a call in the middle of the run finds a graph too
      rintro pre c post m₁ m₂ rfl hpre hstep
      have hat := h.runCalls hnodesN hedgesN (fun c hc => hcalls c (by simp [hc])) hpre
      exact hat.graphAt.changesOnlyItsSlot hnodesN hedgesN (hcalls c (by simp)) hstep

/-- The equivalence at a graph of two nodes and one edge. -/
theorem graph_round_trip_iff_two_one :
    ∃ m graph, Bindings.mallocGraph .empty .bump (.int 2) (.int 1) = .ok (m, graph)
      ∧ ((∃ m', runCalls m graph [.addNode 1 ⟨0, 7⟩, .addEdge 0 ⟨0, 1, 0, 1⟩] = .ok m'
          ∧ ReadBack m m' graph 2 1 [.addNode 1 ⟨0, 7⟩, .addEdge 0 ⟨0, 1, 0, 1⟩])
        ↔ (∀ c ∈ [.addNode 1 ⟨0, 7⟩, .addEdge 0 ⟨0, 1, 0, 1⟩], GraphCall.HasArray m graph c)
          ∧ 2 < 2 ^ 31 ∧ 1 < 2 ^ 31
          ∧ ∀ i e, lastEdge [.addNode 1 ⟨0, 7⟩, .addEdge 0 ⟨0, 1, 0, 1⟩] i = some e →
            e.source < 2 ^ 31 ∧ e.target < 2 ^ 31) := by
  cases hmalloc : Bindings.mallocGraph .empty .bump (.int 2) (.int 1) with
  | error f =>
    have hok : (Bindings.mallocGraph .empty .bump (.int 2) (.int 1)).isOk := by decide +kernel
    rw [hmalloc] at hok
    cases hok
  | ok r =>
    exact ⟨r.1, r.2, rfl, graph_round_trip_iff (by decide) (by decide) hmalloc
      (by simp [GraphCall.InRange])⟩

/-- The source `2 ^ 31` is read back as `-2 ^ 31`. -/
theorem edge_source_reads_negative :
    ∃ m graph m', Bindings.mallocGraph .empty .bump (.int 2) (.int 1) = .ok (m, graph)
      ∧ runCalls m graph [.addEdge 0 ⟨2147483648, 1, 0, 1⟩] = .ok m'
      ∧ Bindings.edgeSource m' graph 0 = .ok (-2147483648)
      ∧ ¬ ReadBack m m' graph 2 1 [.addEdge 0 ⟨2147483648, 1, 0, 1⟩] := by
  have hrun : (do
      let g ← Bindings.mallocGraph .empty .bump (.int 2) (.int 1)
      let m ← runCalls g.1 g.2 [.addEdge 0 ⟨2147483648, 1, 0, 1⟩]
      Bindings.call (Bindings.edgeSource m g.2 0)) = .ok (-2147483648) := by decide +kernel
  obtain ⟨⟨m, graph⟩, hmalloc, hrun⟩ := Loops.bind_eq_ok_iff.mp hrun
  obtain ⟨m', hcalls, hrun⟩ := Loops.bind_eq_ok_iff.mp hrun
  have hsource : Bindings.edgeSource m' graph 0 = .ok (-2147483648) :=
    Bindings.call_eq_ok_iff.mp hrun
  refine ⟨m, graph, m', hmalloc, hcalls, hsource, fun h => ?_⟩
  obtain ⟨hs, -⟩ := h.edge 0 ⟨2147483648, 1, 0, 1⟩ rfl
  rw [hsource] at hs
  exact absurd hs (by decide)

end Arboql
