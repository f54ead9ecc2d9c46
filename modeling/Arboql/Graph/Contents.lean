import Arboql.Graph.RoundTrip
import Arboql.Graph.World
import Arboql.Lib.Slots

/-!
# What memory holds

The objects in the memory of a process that has loaded the library: the logger, the
graphs, and whatever belongs to the rest of the process. A `LiveGraph` is a graph with
its addresses and its value, which is the two counts and the words of all its slots;
an array that `malloc` refused has no value.

`owned` says which blocks each object owns and when the bytes represent it. So a
`Ledger` over these objects accounts for all of memory, and every graph in it satisfies
`GraphAt` (`Ledger.graphAt`).
-/

namespace Arboql

open CLayout

/-! ### Slots -/

/-- The words in the slot of an edge. -/
structure EdgeWords where
  source : ℕ
  target : ℕ
  attributeType : ℕ
  attributeValue : ℕ
  deriving DecidableEq

/-- The words in the slot of a node. -/
structure NodeWords where
  attributeType : ℕ
  attributeValue : ℕ
  deriving DecidableEq

/-- A slot of the array `edges`. -/
def edgeSlot : Slot EdgeWords where
  size := 16
  read bytes addr :=
    ⟨readLE bytes addr 4, readLE bytes (addr + 4) 4, readLE bytes (addr + 8) 4,
      readLE bytes (addr + 12) 4⟩
  locality bytes bytes' addr h := by
    have hword : ∀ off, off + 4 ≤ 16 → readLE bytes' (addr + off) 4 = readLE bytes (addr + off) 4 :=
      fun off hoff => readLE_congr fun a ha hlt => h a (by omega) (by omega)
    have hsource := hword 0 (by omega)
    -- the first word is at the address itself
    rw [Nat.add_zero] at hsource
    rw [hsource, hword 4 (by omega), hword 8 (by omega), hword 12 (by omega)]

/-- A slot of the array `nodes`. -/
def nodeSlot : Slot NodeWords where
  size := 8
  read bytes addr := ⟨readLE bytes addr 4, readLE bytes (addr + 4) 4⟩
  locality bytes bytes' addr h := by
    rw [readLE_congr fun a ha hlt => h a ha (by omega),
      readLE_congr fun a ha hlt => h a (by omega) (by omega)]

@[simp] theorem edgeSlot_size : edgeSlot.size = 16 := rfl

@[simp] theorem nodeSlot_size : nodeSlot.size = 8 := rfl

/-- The words as `add_edge` writes them. -/
def EdgeWords.toList (e : EdgeWords) : List ℕ :=
  [e.source, e.target, e.attributeType, e.attributeValue]

/-- The words as `add_node` writes them. -/
def NodeWords.toList (a : NodeWords) : List ℕ := [a.attributeType, a.attributeValue]

theorem edgeSlot_read_writeWords {bytes : ℕ → UInt8} {addr : ℕ} {e : EdgeWords}
    (he : ∀ w ∈ e.toList, w < 2 ^ 32) :
    edgeSlot.read (writeWords bytes addr e.toList) addr = e := by
  have hword : ∀ k w, e.toList[k]? = some w →
      readLE (writeWords bytes addr e.toList) (addr + 4 * k) 4 = w := fun k w hk =>
    -- a word below 2 ^ 32 survives the truncation to four bytes
    readLE_writeWords_self hk (he w (List.mem_of_getElem? hk))
  have hsource := hword 0 _ rfl
  have htarget := hword 1 _ rfl
  have htype := hword 2 _ rfl
  have hvalue := hword 3 _ rfl
  cases e with
  | mk source target attributeType attributeValue =>
    refine (EdgeWords.mk.injEq ..).mpr ?_
    exact ⟨hsource, htarget, htype, hvalue⟩

theorem nodeSlot_read_writeWords {bytes : ℕ → UInt8} {addr : ℕ} {a : NodeWords}
    (ha : ∀ w ∈ a.toList, w < 2 ^ 32) :
    nodeSlot.read (writeWords bytes addr a.toList) addr = a := by
  have hword : ∀ k w, a.toList[k]? = some w →
      readLE (writeWords bytes addr a.toList) (addr + 4 * k) 4 = w := fun k w hk =>
    readLE_writeWords_self hk (ha w (List.mem_of_getElem? hk))
  have htype := hword 0 _ rfl
  have hvalue := hword 1 _ rfl
  cases a with
  | mk attributeType attributeValue =>
    refine (NodeWords.mk.injEq ..).mpr ?_
    exact ⟨htype, hvalue⟩

/-! ### The value of a graph -/

/-- **The value of a graph**: the counts, and the words in the slots. -/
structure GraphVal where
  nodesN : ℕ
  edgesN : ℕ
  /-- `none` if `malloc` refused the array. -/
  edges : Option (List EdgeWords)
  nodes : Option (List NodeWords)
  nodesN_lt : nodesN < 2 ^ 32
  edgesN_lt : edgesN < 2 ^ 32
  edges_length : ∀ slots, edges = some slots → slots.length = edgesN
  nodes_length : ∀ slots, nodes = some slots → slots.length = nodesN

namespace GraphVal

/-- The value after a write to edge slot `i`. -/
def setEdge (v : GraphVal) (i : ℕ) (e : EdgeWords) : GraphVal where
  nodesN := v.nodesN
  edgesN := v.edgesN
  edges := v.edges.map fun slots => slots.set i e
  nodes := v.nodes
  nodesN_lt := v.nodesN_lt
  edgesN_lt := v.edgesN_lt
  edges_length slots h := by
    obtain ⟨slots, hslots, rfl⟩ := Option.map_eq_some_iff.mp h
    rw [List.length_set]
    exact v.edges_length slots hslots
  nodes_length := v.nodes_length

/-- The value after a write to node slot `j`. -/
def setNode (v : GraphVal) (j : ℕ) (a : NodeWords) : GraphVal where
  nodesN := v.nodesN
  edgesN := v.edgesN
  edges := v.edges
  nodes := v.nodes.map fun slots => slots.set j a
  nodesN_lt := v.nodesN_lt
  edgesN_lt := v.edgesN_lt
  edges_length := v.edges_length
  nodes_length slots h := by
    obtain ⟨slots, hslots, rfl⟩ := Option.map_eq_some_iff.mp h
    rw [List.length_set]
    exact v.nodes_length slots hslots

/-- The value of a graph whose arrays are at `edgesPtr` and `nodesPtr`. -/
def ofBytes (bytes : ℕ → UInt8) (nodesN edgesN edgesPtr nodesPtr : ℕ) (hn : nodesN < 2 ^ 32)
    (he : edgesN < 2 ^ 32) : GraphVal where
  nodesN := nodesN
  edgesN := edgesN
  edges := if edgesPtr = 0 then none else some (edgeSlot.array bytes edgesPtr edgesN)
  nodes := if nodesPtr = 0 then none else some (nodeSlot.array bytes nodesPtr nodesN)
  nodesN_lt := hn
  edgesN_lt := he
  edges_length slots h := by
    by_cases h0 : edgesPtr = 0
    · rw [if_pos h0] at h
      cases h
    · rw [if_neg h0] at h
      rw [← Option.some.inj h, Slot.length_array]
  nodes_length slots h := by
    by_cases h0 : nodesPtr = 0
    · rw [if_pos h0] at h
      cases h
    · rw [if_neg h0] at h
      rw [← Option.some.inj h, Slot.length_array]

end GraphVal

/-! ### Objects -/

/-- A graph in memory. -/
structure LiveGraph where
  addr : ℕ
  edgesPtr : ℕ
  nodesPtr : ℕ
  val : GraphVal

/-- The block of an array, if there is one. -/
def arrayBlock (p size : ℕ) : List (ℕ × ℕ) := if p = 0 then [] else [(p, size)]

theorem mem_arrayBlock {p size : ℕ} (h : p ≠ 0) : (p, size) ∈ arrayBlock p size := by
  rw [arrayBlock, if_neg h]
  exact List.mem_singleton_self _

namespace LiveGraph

/-- The blocks that `malloc_graph` requested. -/
def blocks (g : LiveGraph) : List (ℕ × ℕ) :=
  (g.addr, 24) :: (arrayBlock g.edgesPtr (16 * g.val.edgesN)
    ++ arrayBlock g.nodesPtr (8 * g.val.nodesN))

/-- **The bytes represent the graph.** -/
structure Holds (g : LiveGraph) (bytes : ℕ → UInt8) : Prop where
  nodesN_eq : readLE bytes g.addr 4 = g.val.nodesN
  edgesN_eq : readLE bytes (g.addr + 4) 4 = g.val.edgesN
  edgesPtr_eq : readLE bytes (g.addr + 8) 8 = g.edgesPtr
  nodesPtr_eq : readLE bytes (g.addr + 16) 8 = g.nodesPtr
  edges_eq : g.val.edges
    = if g.edgesPtr = 0 then none else some (edgeSlot.array bytes g.edgesPtr g.val.edgesN)
  nodes_eq : g.val.nodes
    = if g.nodesPtr = 0 then none else some (nodeSlot.array bytes g.nodesPtr g.val.nodesN)

theorem mem_edges_block {g : LiveGraph} (h : g.edgesPtr ≠ 0) :
    (g.edgesPtr, 16 * g.val.edgesN) ∈ g.blocks :=
  List.mem_cons_of_mem _ (List.mem_append_left _ (mem_arrayBlock h))

theorem mem_nodes_block {g : LiveGraph} (h : g.nodesPtr ≠ 0) :
    (g.nodesPtr, 8 * g.val.nodesN) ∈ g.blocks :=
  List.mem_cons_of_mem _ (List.mem_append_right _ (mem_arrayBlock h))

/-- An array without a value is the null pointer. -/
theorem Holds.edges_none_iff {g : LiveGraph} {bytes : ℕ → UInt8} (h : g.Holds bytes) :
    g.val.edges = none ↔ g.edgesPtr = 0 := by
  rw [h.edges_eq]
  by_cases h0 : g.edgesPtr = 0 <;> simp [h0]

theorem Holds.nodes_none_iff {g : LiveGraph} {bytes : ℕ → UInt8} (h : g.Holds bytes) :
    g.val.nodes = none ↔ g.nodesPtr = 0 := by
  rw [h.nodes_eq]
  by_cases h0 : g.nodesPtr = 0 <;> simp [h0]

/-- Only the bytes of its blocks matter to a graph. -/
theorem Holds.congr {g : LiveGraph} {bytes bytes' : ℕ → UInt8} (h : g.Holds bytes)
    (hbytes : ∀ b ∈ g.blocks, ∀ a, b.1 ≤ a → a < b.1 + b.2 → bytes' a = bytes a) :
    g.Holds bytes' := by
  -- the four members lie in the first block, and the arrays in the others
  have hheader : ∀ off w, off + w ≤ 24 →
      readLE bytes' (g.addr + off) w = readLE bytes (g.addr + off) w := by
    intro off w hw
    refine readLE_congr fun a ha hlt => hbytes (g.addr, 24) List.mem_cons_self a ?_ ?_
    · exact (Nat.le_add_right _ _).trans ha
    · change a < g.addr + 24
      omega
  constructor
  case nodesN_eq => exact (hheader 0 4 (by omega)).trans h.nodesN_eq
  case edgesN_eq => exact (hheader 4 4 (by omega)).trans h.edgesN_eq
  case edgesPtr_eq => exact (hheader 8 8 (by omega)).trans h.edgesPtr_eq
  case nodesPtr_eq => exact (hheader 16 8 (by omega)).trans h.nodesPtr_eq
  case edges_eq =>
    rw [h.edges_eq]
    by_cases h0 : g.edgesPtr = 0
    · rw [if_pos h0, if_pos h0]
    · rw [if_neg h0, if_neg h0]
      refine congrArg some (edgeSlot.array_congr fun a ha hlt => ?_).symm
      rw [edgeSlot_size, Nat.mul_comm] at hlt
      exact hbytes _ (mem_edges_block h0) a ha hlt
  case nodes_eq =>
    rw [h.nodes_eq]
    by_cases h0 : g.nodesPtr = 0
    · rw [if_pos h0, if_pos h0]
    · rw [if_neg h0, if_neg h0]
      refine congrArg some (nodeSlot.array_congr fun a ha hlt => ?_).symm
      rw [nodeSlot_size, Nat.mul_comm] at hlt
      exact hbytes _ (mem_nodes_block h0) a ha hlt

end LiveGraph

/-- **The logger as `init_logger` leaves it**, with the log level `level`. -/
structure LoggerHolds (h : Host) (level : ℕ) (bytes : ℕ → UInt8) : Prop where
  logLevel : readLE bytes h.staticLogger 4 = level
  printLocation : readLE bytes (h.staticLogger + 4) 4 = 1
  infoOutput : readLE bytes (h.staticLogger + 8) 8 = h.stdout
  debugOutput : readLE bytes (h.staticLogger + 16) 8 = h.stdout
  errorOutput : readLE bytes (h.staticLogger + 24) 8 = h.stderr

/-- An object in memory. -/
inductive Owned where
  /-- What belongs to the rest of the process, with what it holds. -/
  | other (rest : Memory)
  | logger (level : ℕ)
  | graph (g : LiveGraph)

/-- What the objects own. -/
def owned (h : Host) : Ownership Owned where
  blocks
    | .other rest => rest.blocks
    | .logger _ => [(h.staticLogger, LoggerH.Logger.size)]
    | .graph g => g.blocks
  Holds
    | .other rest, bytes =>
      ∀ b ∈ rest.blocks, ∀ a, b.1 ≤ a → a < b.1 + b.2 → bytes a = rest.bytes a
    | .logger level, bytes => LoggerHolds h level bytes
    | .graph g, bytes => g.Holds bytes
  locality o bytes bytes' hbytes ho := by
    -- what each kind of object says about the bytes, read in its own blocks
    cases o with
    | other rest =>
      exact fun b hb a ha hlt => (hbytes b hb a ha hlt).trans (ho b hb a ha hlt)
    | logger level =>
      have hword : ∀ off w, off + w ≤ 32 →
          readLE bytes' (h.staticLogger + off) w = readLE bytes (h.staticLogger + off) w := by
        intro off w hw
        refine readLE_congr fun a ha hlt => hbytes _ (List.mem_singleton_self _) a ?_ ?_
        · exact (Nat.le_add_right _ _).trans ha
        · have hsize : LoggerH.Logger.size = 32 := rfl
          change a < h.staticLogger + LoggerH.Logger.size
          omega
      exact ⟨(hword 0 4 (by omega)).trans ho.logLevel,
        (hword 4 4 (by omega)).trans ho.printLocation,
        (hword 8 8 (by omega)).trans ho.infoOutput, (hword 16 8 (by omega)).trans ho.debugOutput,
        (hword 24 8 (by omega)).trans ho.errorOutput⟩
    | graph g => exact LiveGraph.Holds.congr ho hbytes

/-! ### Graphs in a ledger -/

section Ledger

variable {h : Host} {m : Memory} {loose : List (ℕ × ℕ)} {objs : List Owned} {g : LiveGraph}

/-- **A graph in the ledger is a graph in memory.** -/
theorem graphAt_of_ledger (hl : Ledger (owned h) m loose objs) (hg : Owned.graph g ∈ objs) :
    GraphAt m g.addr g.val.nodesN g.val.edgesN g.edgesPtr g.nodesPtr := by
  have hholds : g.Holds m.bytes := hl.holds _ hg
  have hwf : WellFormed g.blocks := hl.wellFormed_of_obj hg
  have hin : ∀ b ∈ g.blocks, m.InBlock b.1 b.2 := fun b hb =>
    Memory.inBlock_of_mem (hl.mem_blocks_of_obj hg hb)
  -- the header is apart from the arrays, and they from each other
  have hblocks := hwf.separate
  unfold LiveGraph.blocks at hblocks
  obtain ⟨hheader, harrays⟩ := List.pairwise_cons.mp hblocks
  constructor
  case ne_zero => exact hwf.ne_zero (g.addr, 24) List.mem_cons_self
  case header => exact hin (g.addr, 24) List.mem_cons_self
  case nodesN_eq => exact hholds.nodesN_eq
  case edgesN_eq => exact hholds.edgesN_eq
  case edges_eq => exact hholds.edgesPtr_eq
  case nodes_eq => exact hholds.nodesPtr_eq
  case edges_block =>
    intro he
    exact ⟨hin _ (LiveGraph.mem_edges_block he),
      (hheader _ (List.mem_append_left _ (mem_arrayBlock he))).2⟩
  case nodes_block =>
    intro hn
    exact ⟨hin _ (LiveGraph.mem_nodes_block hn),
      (hheader _ (List.mem_append_right _ (mem_arrayBlock hn))).2⟩
  case apart =>
    intro he hn
    have hsep := (List.pairwise_append.mp harrays).2.2
    exact (hsep _ (mem_arrayBlock he) _ (mem_arrayBlock hn)).2

end Ledger

end Arboql
