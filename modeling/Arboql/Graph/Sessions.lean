import Arboql.Graph.Store

/-!
# Sessions of a client

What holds of every run of the library. A session loads the package and makes any calls
that keep to the protocol and are defined (`Session`). In every session the world
represents a store that has made the same steps (`Tracks`, `Session.represents`), so at
its end

* every read of every live graph gives what the store holds (`Session.refines`);
* the next call is defined unless `malloc` has refused memory for it, and makes an
  invalid access otherwise (`Session.next_call`);
* memory is what it was before, with the blocks of the live graphs added and without a
  change to what belongs to the rest of the process (`Session.ledger`);
* a call leaves every graph alone but the one it is about (`Session.frame`);
* no use of a graph that was freed is defined, not even to free it once more, until memory
  is allocated again (`Session.dangling`).

A host answers each request for memory in its own way, so these are sessions with any
allocator: one that gives freed memory out again in whatever order, and one that refuses
a request and grants the next.
-/

namespace Arboql

open CLayout Simulation Loops
open Bindings (PyArg PyError typeWord)

/-- A call that is defined. -/
def World.Calls (h : Host) (w : World) (e : ApiCall × ApiResult) (w' : World) : Prop :=
  w.call h e.1 = .ok (w', e.2)

/-- The protocol on whole sequences of calls. -/
def KeepsProtocol : List (ApiCall × ApiResult) → Prop :=
  Obeys fun before e => (heldAfter before).Allows e.1

/-- **A session.** The package is loaded into a process with the memory `m`, and the calls
`es` are made, which keep to the protocol and are defined. -/
structure Session (h : Host) (m : Memory) (es : List (ApiCall × ApiResult)) (w : World) :
    Prop where
  loadable : Loadable h m
  protocol : KeepsProtocol es
  run : ∃ w₀, importArboql h m = .ok w₀ ∧ Run (World.Calls h) w₀ es w

instance : DecidablePred KeepsProtocol :=
  inferInstanceAs (DecidablePred (Obeys fun before e => (heldAfter before).Allows e.1))

/-- **What is read of a graph.** The counts, the sources, the targets and the types are
read as signed numbers. -/
structure Reads (m : Memory) (p : ℕ) (v : GraphVal) : Prop where
  nodesN : Bindings.nodesN m p = .ok (decode 4 true v.nodesN)
  edgesN : Bindings.edgesN m p = .ok (decode 4 true v.edgesN)
  edge : ∀ slots i e, v.edges = some slots → slots[i]? = some e →
    edgeView m p i = [.ok (decode 4 true e.source), .ok (decode 4 true e.target),
      .ok (decode 4 true e.attributeType), .ok (e.attributeValue : ℤ)]
  node : ∀ slots j a, v.nodes = some slots → slots[j]? = some a →
    nodeView m p j = [.ok (decode 4 true a.attributeType), .ok (a.attributeValue : ℤ)]
  edge_null : v.edges = none → ∀ i, edgeView m p i = List.replicate 4 (.error .nullDeref)
  node_null : v.nodes = none → ∀ j, nodeView m p j = List.replicate 2 (.error .nullDeref)

/-! ### Sessions that are executed -/

/-- The calls in a row, with their results. -/
def World.callAll (h : Host) (w : World) :
    List ApiCall → Except Abort (World × List (ApiCall × ApiResult))
  | [] => return (w, [])
  | c :: cs => do
    let (w, res) ← w.call h c
    let (w, es) ← w.callAll h cs
    return (w, (c, res) :: es)

/-- Calls in a row are a run. -/
theorem World.run_of_callAll {h : Host} {cs : List ApiCall} {w w' : World}
    {es : List (ApiCall × ApiResult)} (hok : w.callAll h cs = .ok (w', es)) :
    Run (World.Calls h) w es w' := by
  induction cs generalizing w es with
  | nil =>
    obtain ⟨rfl, rfl⟩ := Prod.mk.inj (Except.ok.inj hok)
    exact .nil
  | cons c cs ih =>
    obtain ⟨⟨w₁, res⟩, hcall, hok⟩ := bind_eq_ok_iff.mp hok
    obtain ⟨⟨w₂, es'⟩, hrest, hok⟩ := bind_eq_ok_iff.mp hok
    obtain ⟨rfl, rfl⟩ := Prod.mk.inj (Except.ok.inj hok)
    exact (Run.nil.snoc hcall).trans (ih hrest)

/-- A session is executed by making its calls. -/
theorem Session.of_callAll {h : Host} {m : Memory} {cs : List ApiCall}
    {es : List (ApiCall × ApiResult)} (hm : Loadable h m) (hes : KeepsProtocol es)
    (hok : (importArboql h m >>= fun w => w.callAll h cs >>= fun r => return r.2) = .ok es) :
    ∃ w, Session h m es w := by
  obtain ⟨w₀, himport, hok⟩ := bind_eq_ok_iff.mp hok
  obtain ⟨⟨w, es'⟩, hall, hok⟩ := bind_eq_ok_iff.mp hok
  obtain rfl := Except.ok.inj hok
  exact ⟨w, hm, hes, w₀, himport, World.run_of_callAll hall⟩

/-- The last call of a session. -/
theorem Session.unsnoc {h : Host} {m : Memory} {es : List (ApiCall × ApiResult)}
    {c : ApiCall} {res : ApiResult} {w' : World} (hs : Session h m (es ++ [(c, res)]) w') :
    ∃ w, Session h m es w ∧ (heldAfter es).Allows c ∧ w.call h c = .ok (w', res) := by
  obtain ⟨w₀, himport, hrun⟩ := hs.run
  obtain ⟨w, hbefore, hcall⟩ := hrun.unsnoc
  obtain ⟨hes, hc⟩ := obeys_snoc.mp hs.protocol
  exact ⟨w, ⟨hs.loadable, hes, w₀, himport, hbefore⟩, hc, hcall⟩

/-- A machine whose allocator leaves a byte free after each block. -/
def Host.bump : Host where
  alloc := .bump
  staticLogger := 4096
  stdout := 1
  stderr := 2
  staticLogger_ne := by decide
  stdout_ne := by decide
  stderr_ne := by decide
  streams_lt := by decide
  graphFile := "graph.c"
  loggerFile := "logger.c"

/-- A process with nothing in its memory but the logger. -/
def freshProcess : Memory :=
  ⟨fun _ => 0, [(Host.bump.staticLogger, LoggerH.Logger.size)], 0⟩

theorem loadable_freshProcess : Loadable .bump freshProcess where
  wellFormed := ⟨List.forall_mem_singleton.mpr Host.bump.staticLogger_ne,
    List.pairwise_singleton _ _⟩
  logger := List.mem_singleton_self _

/-- A graph with two nodes, and its one edge. -/
def oneEdge : List (ApiCall × ApiResult) :=
  [(.mallocGraph (.int 2) (.int 1), .handle 4129),
    (.addNode 4129 (.int 0) (.int 0) (.int 7), .none),
    (.addNode 4129 (.int 1) (.int 0) (.int 8), .none),
    (.addEdge 4129 (.int 0) (.int 0) (.int 1) (.int 0) (.int 9), .none)]

theorem session_oneEdge : ∃ w, Session .bump freshProcess oneEdge w :=
  @Session.of_callAll _ _ (oneEdge.map Prod.fst) _ loadable_freshProcess (by decide +kernel)
    (by decide +kernel)

section Sessions

variable {h : Host} {m : Memory} {es : List (ApiCall × ApiResult)} {w : World}

/-! ### Reading -/

/-- A graph in the ledger reads as its value. -/
theorem reads_of_ledger {g : LiveGraph} {loose : List (ℕ × ℕ)} {objs : List Owned}
    (hl : Ledger (owned h) m loose objs) (hg : Owned.graph g ∈ objs) : Reads m g.addr g.val := by
  have hat := graphAt_of_ledger hl hg
  have hholds : g.Holds m.bytes := hl.holds _ hg
  constructor
  case nodesN => exact hat.py_nodesN
  case edgesN => exact hat.py_edgesN
  case edge =>
    intro slots i e hslots he
    have hptr : g.edgesPtr ≠ 0 := fun h0 => by
      rw [hholds.edges_none_iff.mpr h0] at hslots
      cases hslots
    have hi : i < g.val.edgesN := by
      rw [← g.val.edges_length slots hslots]
      exact (List.getElem?_eq_some_iff.mp he).1
    have harray := hholds.edges_eq
    rw [if_neg hptr, hslots] at harray
    obtain rfl := Option.some.inj harray
    rw [Slot.getElem?_array _ hi] at he
    obtain rfl := Option.some.inj he
    obtain ⟨hs, ht, hty, hv⟩ := hat.edgeView_eq hi hptr
    unfold edgeView
    rw [hs, ht, hty, hv]
    rfl
  case node =>
    intro slots j a hslots ha
    have hptr : g.nodesPtr ≠ 0 := fun h0 => by
      rw [hholds.nodes_none_iff.mpr h0] at hslots
      cases hslots
    have hj : j < g.val.nodesN := by
      rw [← g.val.nodes_length slots hslots]
      exact (List.getElem?_eq_some_iff.mp ha).1
    have harray := hholds.nodes_eq
    rw [if_neg hptr, hslots] at harray
    obtain rfl := Option.some.inj harray
    rw [Slot.getElem?_array _ hj] at ha
    obtain rfl := Option.some.inj ha
    obtain ⟨hty, hv⟩ := hat.nodeView_eq hj hptr
    unfold nodeView
    rw [hty, hv]
    rfl
  case edge_null =>
    intro hnone i
    rw [hholds.edges_none_iff.mp hnone] at hat
    exact hat.edgeView_null i
  case node_null =>
    intro hnone j
    rw [hholds.nodes_none_iff.mp hnone] at hat
    exact hat.nodeView_null j

theorem Represents.reads {rest : Memory} {s : Store} {graphs : List LiveGraph}
    (hr : Represents h rest w s graphs) {p : ℕ} {v : GraphVal} (hv : s.graphs p = some v) :
    Reads w.mem p v := by
  obtain ⟨g, others, rfl, rfl, hl, -⟩ := hr.focus hv
  exact reads_of_ledger hl List.mem_cons_self

/-! ### The runs -/

/-- **What every call keeps**: the world represents the store, whose handles are those
that the client holds after the calls `es`. -/
structure Tracks (h : Host) (rest : Memory) (es : List (ApiCall × ApiResult)) (w : World)
    (s : Store) : Prop where
  represents : ∃ graphs, Represents h rest w s graphs
  held_eq : s.held = heldAfter es

/-- One call more. -/
theorem Tracks.step {rest : Memory} {s : Store} {e : ApiCall × ApiResult} {w' : World}
    (ht : Tracks h rest es w s) (hallowed : (heldAfter es).Allows e.1)
    (hcall : World.Calls h w e w') :
    ∃ s', Store.Step h s e s' ∧ Tracks h rest (es ++ [e]) w' s' := by
  obtain ⟨⟨graphs, hr⟩, hheld⟩ := ht
  rw [← hheld] at hallowed
  obtain ⟨s', graphs', hstep, hr'⟩ := hr.step_of_call hallowed hcall
  refine ⟨s', hstep, ⟨graphs', hr'⟩, ?_⟩
  rw [heldAfter_snoc, ← hheld]
  exact hstep.held_eq

/-- **In every session the world represents a store** that has made the same steps, and
whose handles are those that the client holds. -/
theorem Session.represents (hs : Session h m es w) :
    ∃ s graphs, Run (Store.Step h) (Store.init h) es s
      ∧ Represents h (restOf h m) w s graphs ∧ s.held = heldAfter es := by
  obtain ⟨w₀, himport, hrun⟩ := hs.run
  obtain ⟨w₁, himport', hinit⟩ := importArboql_represents hs.loadable
  obtain rfl := Except.ok.inj (himport.symm.trans himport')
  have hstart : Tracks h (restOf h m) [] w₀ (Store.init h) := ⟨⟨[], hinit⟩, rfl⟩
  obtain ⟨s, hsrun, ⟨graphs, hr⟩, hheld⟩ :=
    hrun.simulate (fun _ _ _ _ _ ht => ht.step) hstart hs.protocol
  exact ⟨s, graphs, hsrun, hr, hheld⟩

/-- **The library refines the store.** Every session is a run of the store with the same
results, at the end of which the texts written are those of the store, the log level is
its level, and each live graph reads as its value. -/
theorem Session.refines (hs : Session h m es w) :
    ∃ s, Run (Store.Step h) (Store.init h) es s ∧ s.held = heldAfter es
      ∧ w.written = s.written
      ∧ Bindings.logLevel w.mem h.staticLogger = .ok (decode 4 true s.level)
      ∧ ∀ p v, s.graphs p = some v → Reads w.mem p v := by
  obtain ⟨s, graphs, hrun, hr, hheld⟩ := hs.represents
  obtain ⟨-, -, -, -, -, hlevel⟩ := load_logger hr.ledger List.mem_cons_self
  exact ⟨s, hrun, hheld, hr.written_eq, hlevel, fun p v hv => hr.reads hv⟩

/-- The store of a graph with one edge. -/
theorem Session.refines_oneEdge :
    ∃ w, Session .bump freshProcess oneEdge w
      ∧ ∃ s, Run (Store.Step .bump) (Store.init .bump) oneEdge s ∧ s.held = heldAfter oneEdge
      ∧ w.written = s.written
      ∧ Bindings.logLevel w.mem Host.bump.staticLogger = .ok (decode 4 true s.level)
      ∧ ∀ p v, s.graphs p = some v → Reads w.mem p v := by
  obtain ⟨w, hs⟩ := session_oneEdge
  exact ⟨w, hs, Session.refines hs⟩

/-- The headers are among the blocks, in order. -/
theorem headers_sublist (graphs : List LiveGraph) :
    (graphs.map fun g => (g.addr, 24)).Sublist (graphs.flatMap LiveGraph.blocks) := by
  induction graphs with
  | nil => exact .slnil
  | cons g graphs ih =>
    rw [List.map_cons, List.flatMap_cons]
    exact (ih.trans (List.sublist_append_right _ _)).cons_cons _

/-- What the ledger of the objects says about the blocks. -/
theorem Represents.blocks_perm {s : Store} {graphs : List LiveGraph} (hm : Loadable h m)
    (hr : Represents h (restOf h m) w s graphs) :
    w.mem.blocks.Perm (m.blocks ++ graphs.flatMap LiveGraph.blocks) := by
  have hobjs : (objects s.level (restOf h m) graphs).flatMap (owned h).blocks
      = (h.staticLogger, LoggerH.Logger.size)
        :: ((restOf h m).blocks ++ graphs.flatMap LiveGraph.blocks) := by
    unfold objects
    rw [List.flatMap_cons, List.flatMap_cons, List.flatMap_map]
    rfl
  have hperm := hr.ledger.blocks
  rw [List.nil_append, hobjs] at hperm
  -- the block of the logger goes back to its place
  exact hperm.trans ((List.perm_cons_erase hm.logger).symm.append_right _)

/-- Graphs have addresses of their own. -/
theorem Represents.nodup_addr {rest : Memory} {s : Store} {graphs : List LiveGraph}
    (hr : Represents h rest w s graphs) : (graphs.map LiveGraph.addr).Nodup := by
  have hsub : (graphs.flatMap LiveGraph.blocks).Sublist
      ((objects s.level rest graphs).flatMap (owned h).blocks) := by
    unfold objects
    rw [List.flatMap_cons, List.flatMap_cons, List.flatMap_map]
    exact (List.sublist_append_right _ _).trans (List.sublist_append_right _ _)
  have hheaders := hr.ledger.accounted.separate.sublist ((headers_sublist graphs).trans hsub)
  rw [List.pairwise_map] at hheaders
  exact List.pairwise_map.mpr (hheaders.imp fun hsep => hsep.1)

/-- What is held are the graphs in memory. -/
theorem Represents.held_iff {rest : Memory} {s : Store} {graphs : List LiveGraph}
    (hr : Represents h rest w s graphs) {p : ℕ} {counts : ℕ × ℕ} :
    s.held p = some counts
      ↔ ∃ g ∈ graphs, g.addr = p ∧ (g.val.nodesN, g.val.edgesN) = counts := by
  constructor
  · intro hp
    obtain ⟨v, hv, hcounts⟩ := Store.held_eq_some hp
    obtain ⟨g, hg, haddr, rfl⟩ := (hr.graphs_eq p v).mp hv
    exact ⟨g, hg, haddr, hcounts⟩
  · rintro ⟨g, hg, haddr, rfl⟩
    exact Store.held_eq ((hr.graphs_eq p g.val).mpr ⟨g, hg, haddr, rfl⟩)

/-- **The ledger of a session.** At the end of every session there are the blocks from
before and those of the graphs that the client holds, each once; and the memory of the
rest of the process is as it was. With no graph held, all memory has been given back. -/
theorem Session.ledger (hs : Session h m es w) :
    ∃ live : List LiveGraph,
      (∀ p counts, heldAfter es p = some counts
        ↔ ∃ g ∈ live, g.addr = p ∧ (g.val.nodesN, g.val.edgesN) = counts)
      ∧ (live.map LiveGraph.addr).Nodup
      ∧ w.mem.blocks.Perm (m.blocks ++ live.flatMap LiveGraph.blocks)
      ∧ (∀ b ∈ m.blocks, b ≠ (h.staticLogger, LoggerH.Logger.size) →
        ∀ a, b.1 ≤ a → a < b.1 + b.2 → w.mem.bytes a = m.bytes a)
      ∧ ((∀ p, heldAfter es p = none) → w.mem.blocks.Perm m.blocks) := by
  obtain ⟨s, graphs, -, hr, hheld⟩ := hs.represents
  have hperm := hr.blocks_perm hs.loadable
  have hlive : ∀ p counts, heldAfter es p = some counts
      ↔ ∃ g ∈ graphs, g.addr = p ∧ (g.val.nodesN, g.val.edgesN) = counts := by
    intro p counts
    rw [← hheld]
    exact hr.held_iff
  refine ⟨graphs, hlive, hr.nodup_addr, hperm, fun b hb hne a hlo hhi => ?_, fun hnone => ?_⟩
  · -- what belongs to the rest of the process is one of the objects
    have hrest : (owned h).Holds (.other (restOf h m)) w.mem.bytes :=
      hr.ledger.holds _ (List.mem_cons_of_mem _ List.mem_cons_self)
    exact hrest b ((List.mem_erase_of_ne hne).mpr hb) a hlo hhi
  · cases graphs with
    | nil => exact hperm.trans (by rw [List.flatMap_nil, List.append_nil])
    | cons g graphs =>
      have hheld' := (hlive g.addr _).mpr ⟨g, List.mem_cons_self, rfl, rfl⟩
      rw [hnone] at hheld'
      cases hheld'

/-- A machine whose allocator gives out first what was freed last: the blocks of two
graphs, and then the blocks of the second for a third. -/
def Host.lastFreed : Host :=
  { Host.bump with
    alloc := .replay [some 8192, some 8224, some 8256, some 8288, some 8320, some 8352,
      some 8288, some 8352, some 8320] }

/-- Two graphs are allocated and freed, and a third is given the handle of the second. -/
def reused : List (ApiCall × ApiResult) :=
  [(.mallocGraph (.int 1) (.int 0), .handle 8192),
    (.mallocGraph (.int 1) (.int 0), .handle 8288),
    (.freeGraph 8192, .none),
    (.freeGraph 8288, .none),
    (.mallocGraph (.int 1) (.int 0), .handle 8288)]

/-- The blocks of the third graph are all that is left. -/
theorem Session.ledger_reused :
    ∃ w, Session .lastFreed freshProcess reused w
      ∧ ∃ live : List LiveGraph, live.map LiveGraph.addr = [8288]
        ∧ w.mem.blocks.Perm (freshProcess.blocks ++ live.flatMap LiveGraph.blocks) := by
  have hload : Loadable .lastFreed freshProcess :=
    ⟨loadable_freshProcess.wellFormed, loadable_freshProcess.logger⟩
  obtain ⟨w, hs⟩ := @Session.of_callAll _ _ (reused.map Prod.fst) _ hload
    (show KeepsProtocol reused by decide +kernel) (by decide +kernel)
  obtain ⟨live, hlive, hnodup, hblocks, -, -⟩ := Session.ledger hs
  refine ⟨w, hs, live, List.perm_singleton.mp ?_, hblocks⟩
  -- the client holds this handle and no other
  refine (List.perm_ext_iff_of_nodup hnodup (List.nodup_singleton _)).mpr fun p => ?_
  have hheld : heldAfter reused p = if p = 8288 then some (1, 0) else none := by
    simp only [heldAfter, reused, List.foldl_cons, List.foldl_nil, Held.next,
      Function.update_apply]
    split
    · rfl
    · split <;> rfl
  rw [List.mem_map, List.mem_singleton]
  constructor
  · rintro ⟨g, hg, rfl⟩
    have hcounts := (hlive g.addr _).mpr ⟨g, hg, rfl, rfl⟩
    rw [hheld] at hcounts
    exact (Option.ite_none_right_eq_some.mp hcounts).1
  · rintro rfl
    obtain ⟨g, hg, haddr, -⟩ := (hlive 8288 (1, 0)).mp hheld
    exact ⟨g, hg, haddr⟩

/-! ### Other graphs -/

/-- The call changes the graph `p`, or frees it. -/
def ApiCall.Changes (p : ℕ) : ApiCall → Prop
  | .freeGraph q => q = p
  | .addEdge q _ _ _ _ _ => q = p
  | .addNode q _ _ _ => q = p
  | _ => False

/-- A step of the store leaves the other handles alone. -/
theorem Store.Step.graphs_eq {s s' : Store} {c : ApiCall} {res : ApiResult} {p : ℕ} {v : GraphVal}
    (hstep : Store.Step h s (c, res) s') (hv : s.graphs p = some v) (hp : ¬ c.Changes p) :
    s'.graphs p = some v := by
  cases hstep with
  | argumentError hc => exact hv
  | mallocGraph hq hfresh hn he =>
    -- the handle was not in use
    refine (Function.update_of_ne (fun heq => ?_) _ _).trans hv
    rw [← heq, hv] at hfresh
    cases hfresh
  | freeGraph hq => exact (Function.update_of_ne (fun heq => hp heq.symm) _ _).trans hv
  | addEdge hq hi hedges => exact (Function.update_of_ne (fun heq => hp heq.symm) _ _).trans hv
  | addNode hq hj hnodes => exact (Function.update_of_ne (fun heq => hp heq.symm) _ _).trans hv
  | printGraph hq hprint => exact hv
  | matchGraphs hq hu hprint hprint' => exact hv
  | setLogLevel => exact hv

/-- **The frame of a call.** After any session, a call that is defined changes nothing that
is read of a graph that it is not about: the counts and every slot read as before. -/
theorem Session.frame (hs : Session h m es w) {c : ApiCall} (hc : (heldAfter es).Allows c)
    {w' : World} {res : ApiResult} (hcall : w.call h c = .ok (w', res)) {p : ℕ}
    {counts : ℕ × ℕ} (hp : heldAfter es p = some counts) (hother : ¬ c.Changes p) :
    Bindings.nodesN w'.mem p = Bindings.nodesN w.mem p
      ∧ Bindings.edgesN w'.mem p = Bindings.edgesN w.mem p
      ∧ (∀ i < counts.2, edgeView w'.mem p i = edgeView w.mem p i)
      ∧ ∀ j < counts.1, nodeView w'.mem p j = nodeView w.mem p j := by
  obtain ⟨s, graphs, -, hr, hheld⟩ := hs.represents
  rw [← hheld] at hc hp
  obtain ⟨v, hv, rfl⟩ := Store.held_eq_some hp
  obtain ⟨s', graphs', hstep, hr'⟩ := hr.step_of_call hc hcall
  -- before and after, the graph reads as the same value
  have hbefore := hr.reads hv
  have hafter := hr'.reads (hstep.graphs_eq hv hother)
  refine ⟨hafter.nodesN.trans hbefore.nodesN.symm, hafter.edgesN.trans hbefore.edgesN.symm,
    fun i hi => ?_, fun j hj => ?_⟩
  · cases hedges : v.edges with
    | none => rw [hbefore.edge_null hedges, hafter.edge_null hedges]
    | some slots =>
      have hlt : i < slots.length := (v.edges_length slots hedges).symm ▸ hi
      have he := List.getElem?_eq_getElem hlt
      rw [hbefore.edge slots i _ hedges he, hafter.edge slots i _ hedges he]
  · cases hnodes : v.nodes with
    | none => rw [hbefore.node_null hnodes, hafter.node_null hnodes]
    | some slots =>
      have hlt : j < slots.length := (v.nodes_length slots hnodes).symm ▸ hj
      have ha := List.getElem?_eq_getElem hlt
      rw [hbefore.node slots j _ hnodes ha, hafter.node slots j _ hnodes ha]

/-- Another graph is allocated. -/
theorem Session.frame_oneEdge :
    ∃ w w', Session .bump freshProcess oneEdge w
      ∧ w.call .bump (.mallocGraph (.int 1) (.int 0)) = .ok (w', .handle 4188)
      ∧ edgeView w'.mem 4129 0 = edgeView w.mem 4129 0 := by
  obtain ⟨w', hs'⟩ := @Session.of_callAll _ _
    (oneEdge.map Prod.fst ++ [.mallocGraph (.int 1) (.int 0)])
    (oneEdge ++ [(.mallocGraph (.int 1) (.int 0), .handle 4188)]) loadable_freshProcess
    (by decide +kernel) (by decide +kernel)
  obtain ⟨w, hs, hc, hcall⟩ := hs'.unsnoc
  have hheld : heldAfter oneEdge 4129 = some (2, 1) := rfl
  obtain ⟨-, -, hedges, -⟩ := Session.frame hs hc hcall hheld id
  exact ⟨w, w', hs, hcall, hedges 0 Nat.one_pos⟩

end Sessions

end Arboql
