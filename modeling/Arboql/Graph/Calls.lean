import Arboql.Graph.Contents
import Arboql.Graph.Filling

/-!
# Each call on a ledger

What each function does to a heap whose objects a `Ledger` accounts for. A message is
written or not, according to the level that the logger holds (`LOG_DEBUG_eq`);
`malloc_graph` adds a graph or makes an invalid access (`mallocGraphLogged_cases`);
`free_graph` takes one away with all its blocks (`freeGraph_eq`); `print_graph` writes
one line for each slot of `edges` and changes no memory (`printGraph_eq`); and
`add_edge`, `add_node` and `set_log_level` change the value of one object.
-/

namespace Arboql

open CLayout Loops

variable {h : Host} {w : World} {m : Memory} {loose : List (ℕ × ℕ)} {objs : List Owned}
  {g : LiveGraph} {level : ℕ}

theorem access_ok {β : Type} (x : β) : access (.ok x : Except MemFault β) = .ok x := rfl

/-! ### The logger -/

theorem locate_logger :
    LoggerH.Logger.locate ["log_level"] = some (0, .int 4 false)
      ∧ LoggerH.Logger.locate ["print_location"] = some (4, .int 4 true)
      ∧ LoggerH.Logger.locate ["info_output"] = some (8, .int 8 false)
      ∧ LoggerH.Logger.locate ["debug_output"] = some (16, .int 8 false)
      ∧ LoggerH.Logger.locate ["error_output"] = some (24, .int 8 false)
      ∧ Bindings.Logger.locate ["log_level"] = some (0, .int 4 true) :=
  ⟨rfl, rfl, rfl, rfl, rfl, rfl⟩

/-- A message with its location, as the three texts that are written. -/
def messageLines (stream : ℕ) (pre file : String) (line : ℕ) (message : String) :
    List (ℕ × String) :=
  [(stream, pre), (stream, file ++ ":" ++ toString line ++ ": " ++ message), (stream, "\n")]

/-- What `LOG_DEBUG` in `graph.c` writes at the level `level`. -/
def debugLines (h : Host) (level line : ℕ) (message : String) : List (ℕ × String) :=
  if LoggerH.DEBUG ≤ level then messageLines h.stdout "[DEBUG] " h.graphFile line message else []

theorem put_eq {stream : ℕ} (hs : stream ≠ 0) (text : String) :
    w.put stream text = .ok { w with written := w.written ++ [(stream, text)] } :=
  if_neg hs

/-- On a stream that is there a message is written. -/
theorem vlogImpl_eq {pre : String} {out : ℕ} (hout : out ≠ 0) (message : String) :
    vlogImpl pre w out message
      = .ok { w with written := w.written ++ [(out, pre), (out, message), (out, "\n")] } := by
  unfold vlogImpl
  rw [put_eq hout]
  change (World.put _ out message >>= _) = _
  rw [put_eq hout]
  change World.put _ out "\n" = _
  rw [put_eq hout, List.append_assoc, List.append_assoc]
  rfl

/-- The members of the logger. -/
theorem load_logger (hl : Ledger (owned h) m loose objs) (hlog : Owned.logger level ∈ objs) :
    m.load LoggerH.Logger h.staticLogger ["log_level"] = .ok (level : ℤ)
      ∧ m.load LoggerH.Logger h.staticLogger ["print_location"] = .ok 1
      ∧ m.load LoggerH.Logger h.staticLogger ["info_output"] = .ok (h.stdout : ℤ)
      ∧ m.load LoggerH.Logger h.staticLogger ["debug_output"] = .ok (h.stdout : ℤ)
      ∧ m.load LoggerH.Logger h.staticLogger ["error_output"] = .ok (h.stderr : ℤ)
      ∧ Bindings.logLevel m h.staticLogger = .ok (decode 4 true level) := by
  have hholds : LoggerHolds h level m.bytes := hl.holds _ hlog
  have hin : m.InBlock h.staticLogger 32 :=
    Memory.inBlock_of_mem (hl.mem_blocks_of_obj hlog (List.mem_singleton_self _))
  obtain ⟨hlevel, hlocation, hinfo, hdebug, herror, hpy⟩ := locate_logger
  have h0 := h.staticLogger_ne
  -- C reads the level as unsigned, and Python the same bytes as signed
  refine ⟨?_, ?_, ?_, ?_, ?_, ?_⟩
  · rw [Memory.load_eq hlevel h0 (hin.sub (by omega) (by omega)), decode_unsigned, Nat.add_zero,
      hholds.logLevel]
  · rw [Memory.load_eq hlocation h0 (hin.sub (by omega) (by omega)), hholds.printLocation]
    rfl
  · rw [Memory.load_eq hinfo h0 (hin.sub (by omega) (by omega)), decode_unsigned,
      hholds.infoOutput]
  · rw [Memory.load_eq hdebug h0 (hin.sub (by omega) (by omega)), decode_unsigned,
      hholds.debugOutput]
  · rw [Memory.load_eq herror h0 (hin.sub (by omega) (by omega)), decode_unsigned,
      hholds.errorOutput]
  · rw [Bindings.logLevel, Memory.load_eq hpy h0 (hin.sub (by omega) (by omega)), Nat.add_zero,
      hholds.logLevel]

/-- **A macro writes its message** at the levels from its severity on, and not below. -/
theorem logAt_eq (hl : Ledger (owned h) w.mem loose objs) (hlog : Owned.logger level ∈ objs)
    {severity stream : ℕ} {member pre : String} (hs : stream ≠ 0)
    (hout : w.mem.load LoggerH.Logger h.staticLogger [member] = .ok (stream : ℤ))
    (file : String) (line : ℕ) (message : String) :
    logAt severity member (vlogImpl pre) w h.staticLogger file line message
      = .ok { w with written := w.written
          ++ if severity ≤ level then messageLines stream pre file line message else [] } := by
  obtain ⟨hlevel, hlocation, -⟩ := load_logger hl hlog
  unfold logAt
  rw [hlevel, access_ok]
  -- the location is always printed, as `init_logger` leaves it
  change (if (level : ℤ) ≥ (severity : ℤ) then _ else _) = _
  by_cases hd : severity ≤ level
  · rw [if_pos (Int.ofNat_le.mpr hd), if_pos hd, hlocation, hout]
    exact vlogImpl_eq hs _
  · rw [if_neg fun hge => hd (Int.ofNat_le.mp hge), if_neg hd, List.append_nil]
    rfl

/-- **`LOG_DEBUG`** writes at the level `DEBUG`. -/
theorem LOG_DEBUG_eq (hl : Ledger (owned h) w.mem loose objs) (hlog : Owned.logger level ∈ objs)
    (line : ℕ) (message : String) :
    LOG_DEBUG w h.staticLogger h.graphFile line message
      = .ok { w with written := w.written ++ debugLines h level line message } := by
  obtain ⟨-, -, -, hdebug, -⟩ := load_logger hl hlog
  exact logAt_eq hl hlog h.stdout_ne hdebug h.graphFile line message

/-- **`set_log_level`** changes the level and nothing else. -/
theorem setLogLevel_eq (hl : Ledger (owned h) w.mem loose (.logger level :: objs)) {level' : ℕ}
    (hlevel' : level' < 2 ^ 32) :
    ∃ mem, setLogLevel w h.staticLogger level' = .ok { w with mem }
      ∧ Ledger (owned h) mem loose (.logger level' :: objs) := by
  have hlog : Owned.logger level ∈ .logger level :: objs := List.mem_cons_self
  have hholds : LoggerHolds h level w.mem.bytes := hl.holds _ hlog
  have hin : w.mem.InBlock h.staticLogger 32 :=
    Memory.inBlock_of_mem (hl.mem_blocks_of_obj hlog (List.mem_singleton_self _))
  obtain ⟨hloc, -⟩ := locate_logger
  have hstore := Memory.store_eq (v := level') hloc h.staticLogger_ne
    (hin.sub (by omega) (by omega))
  refine ⟨{ w.mem with bytes := writeLE w.mem.bytes (h.staticLogger + 0) 4 level' }, ?_, ?_⟩
  · unfold setLogLevel World.setLogger
    rw [hstore]
    rfl
  · refine hl.update rfl (fun a ha => writeLE_of_disjoint ?_) ?_
    · -- nothing is written outside the struct
      have hout := ha _ (List.mem_singleton_self _)
      have hsize : LoggerH.Logger.size = 32 := rfl
      rw [hsize] at hout
      omega
    · -- the other members keep their words
      constructor
      case logLevel => rw [Nat.add_zero, readLE_writeLE_self, Nat.mod_eq_of_lt (by omega)]
      case printLocation =>
        rw [readLE_writeLE_of_disjoint (by omega), hholds.printLocation]
      case infoOutput => rw [readLE_writeLE_of_disjoint (by omega), hholds.infoOutput]
      case debugOutput => rw [readLE_writeLE_of_disjoint (by omega), hholds.debugOutput]
      case errorOutput => rw [readLE_writeLE_of_disjoint (by omega), hholds.errorOutput]

/-! ### `free_graph` -/

/-- C reads the counts as they were written. -/
theorem GraphAt.load_counts {graph nodesN edgesN edges nodes : ℕ}
    (hg : GraphAt m graph nodesN edgesN edges nodes) :
    m.load GraphH.Graph graph ["nodes_n"] = .ok (nodesN : ℤ)
      ∧ m.load GraphH.Graph graph ["edges_n"] = .ok (edgesN : ℤ) := by
  obtain ⟨hnodes, hedges, -⟩ := locate_graph
  constructor
  · rw [Memory.load_eq hnodes hg.ne_zero (hg.header.sub (by omega) (by omega)), decode_unsigned,
      Nat.add_zero, hg.nodesN_eq]
  · rw [Memory.load_eq hedges hg.ne_zero (hg.header.sub (by omega) (by omega)), decode_unsigned,
      hg.edgesN_eq]

/-- Freeing an array, be it there or not. -/
theorem free_arrayBlock {p size : ℕ} (hl : Ledger (owned h) m (arrayBlock p size ++ loose) objs) :
    ∃ m', m.free p = .ok m' ∧ m'.bytes = m.bytes ∧ Ledger (owned h) m' loose objs := by
  by_cases hp : p = 0
  · -- freeing the null pointer does nothing
    subst hp
    exact ⟨m, rfl, rfl, hl⟩
  · rw [arrayBlock, if_neg hp] at hl
    exact hl.free

/-- **`free_graph`** takes the graph out of the ledger, with all its blocks. -/
theorem freeGraph_eq (hl : Ledger (owned h) w.mem [] (.graph g :: objs))
    (hlog : Owned.logger level ∈ objs) :
    ∃ mem, freeGraph h w g.addr = .ok ⟨mem, w.written
        ++ debugLines h level 24 (countsMessage "Freed" g.val.nodesN g.val.edgesN)⟩
      ∧ Ledger (owned h) mem [] objs := by
  have hat := graphAt_of_ledger hl List.mem_cons_self
  obtain ⟨hnodesN, hedgesN⟩ := hat.load_counts
  have hunpacked : Ledger (owned h) w.mem (g.blocks ++ []) objs := hl.unpack
  -- the arrays go first, and the header last
  have harrays : Ledger (owned h) w.mem (arrayBlock g.edgesPtr (16 * g.val.edgesN)
      ++ (arrayBlock g.nodesPtr (8 * g.val.nodesN) ++ [(g.addr, 24)])) objs := by
    refine hunpacked.perm ?_ (.refl _)
    rw [List.append_nil, ← List.append_assoc]
    exact (List.perm_append_singleton _ _).symm
  obtain ⟨m₁, hfree₁, hbytes₁, hl₁⟩ := free_arrayBlock harrays
  have hheader : m₁.InBlock g.addr 24 :=
    Memory.inBlock_of_mem (hl₁.mem_blocks (List.mem_append_right _ (List.mem_singleton_self _)))
  obtain ⟨-, -, -, hloc, -⟩ := locate_graph
  -- `nodes` is read after the first free, which keeps the bytes
  have hnodes : m₁.load GraphH.Graph g.addr ["nodes"] = .ok (g.nodesPtr : ℤ) := by
    rw [Memory.load_eq hloc hat.ne_zero (hheader.sub (by omega) (by omega)), decode_unsigned,
      hbytes₁, hat.nodes_eq]
  obtain ⟨m₂, hfree₂, -, hl₂⟩ := free_arrayBlock hl₁
  obtain ⟨m₃, hfree₃, -, hl₃⟩ := hl₂.free
  refine ⟨m₃, ?_, hl₃⟩
  unfold freeGraph
  rw [hedgesN, hnodesN, hat.load_edges]
  simp only [access_ok, Int.toNat_natCast, bind, Except.bind]
  rw [hfree₁]
  simp only [access_ok]
  rw [hnodes]
  simp only [access_ok, Int.toNat_natCast]
  rw [hfree₂]
  simp only [access_ok]
  rw [hfree₃]
  exact LOG_DEBUG_eq (w := { w with mem := m₃ }) hl₃ hlog 24 _

/-! ### `malloc_graph` -/

/-- Requesting an array, be it granted or not. -/
theorem malloc_arrayBlock {m' : Memory} {p size : ℕ} (hl : Ledger (owned h) m loose objs)
    (hp : m.malloc h.alloc.toAllocator size = (m', p)) :
    m'.bytes = m.bytes ∧ Ledger (owned h) m' (arrayBlock p size ++ loose) objs := by
  obtain ⟨hbytes, ⟨rfl, hl'⟩ | ⟨hne, hl'⟩⟩ := hl.malloc hp
  · exact ⟨hbytes, hl'⟩
  · rw [arrayBlock, if_neg hne]
    exact ⟨hbytes, hl'⟩

/-- Writing to a loose header changes no object. -/
theorem write_header {p off width : ℕ} (v : ℕ) (hl : Ledger (owned h) m loose objs)
    (hp : (p, 24) ∈ loose) (hw : off + width ≤ 24) :
    Ledger (owned h) { m with bytes := writeLE m.bytes (p + off) width v } loose objs := by
  refine hl.write fun b hb => writeLE_of_disjoint ?_
  have hout := hb _ hp
  change b < p ∨ p + 24 ≤ b at hout
  omega

/-- With a header `malloc_graph` leaves the blocks of a graph. -/
theorem mallocGraph_blocks (hl : Ledger (owned h) m [] objs) {nodesN edgesN : ℕ}
    (hn : nodesN < 2 ^ 32) (he : edgesN < 2 ^ 32)
    (hg : (m.malloc h.alloc.toAllocator GraphH.Graph.size).2 ≠ 0) :
    ∃ m' p edges nodes, mallocGraph m h.alloc.toAllocator nodesN edgesN = .ok (m', p)
      ∧ GraphAt m' p nodesN edgesN edges nodes
      ∧ Ledger (owned h) m'
        (arrayBlock nodes (8 * nodesN) ++ (arrayBlock edges (16 * edgesN) ++ [(p, 24)])) objs := by
  -- the three requests, with a write to the header between the last two
  rcases hreq₁ : m.malloc h.alloc.toAllocator GraphH.Graph.size with ⟨m₁, p⟩
  rw [hreq₁] at hg
  rcases hreq₂ : m₁.malloc h.alloc.toAllocator (GraphH.Edge.size * edgesN) with ⟨m₂, e⟩
  rcases hreq₃ : Memory.malloc { m₂ with bytes := writeLE m₂.bytes (p + 8) 8 e }
    h.alloc.toAllocator (GraphH.Node.size * nodesN) with ⟨m₃, n⟩
  have hl₁ : Ledger (owned h) m₁ [(p, 24)] objs := by
    obtain ⟨-, ⟨hp, -⟩ | ⟨-, hl₁⟩⟩ := hl.malloc hreq₁
    · exact absurd hp hg
    · exact hl₁
  obtain ⟨-, hl₂⟩ := malloc_arrayBlock hl₁ hreq₂
  have hmem₂ : (p, 24) ∈ arrayBlock e (16 * edgesN) ++ [(p, 24)] :=
    List.mem_append_right _ (List.mem_singleton_self _)
  have hheader₂ := write_header e hl₂ hmem₂ (show 8 + 8 ≤ 24 by omega)
  obtain ⟨-, hl₃⟩ := malloc_arrayBlock hheader₂ hreq₃
  have hmem₃ : (p, 24) ∈ arrayBlock n (8 * nodesN) ++ (arrayBlock e (16 * edgesN) ++ [(p, 24)]) :=
    List.mem_append_right _ hmem₂
  -- the last three writes go to the header as well
  have hnodes := write_header n hl₃ hmem₃ (show 16 + 8 ≤ 24 by omega)
  have hedgesN := write_header edgesN hnodes hmem₃ (show 4 + 4 ≤ 24 by omega)
  have hnodesN := write_header nodesN hedgesN hmem₃ (show 0 + 4 ≤ 24 by omega)
  have hcall := mallocGraph_eq hg (Memory.inBlock_of_mem (hl₂.mem_blocks hmem₂)) hreq₁ hreq₂
    hreq₃ (Memory.inBlock_of_mem (hl₃.mem_blocks hmem₃))
  obtain ⟨m', hok, hat⟩ := mallocGraph_ok hn he hg hreq₁ hreq₂ hreq₃
  obtain ⟨hm', -⟩ := Prod.mk.inj (Except.ok.inj (hcall.symm.trans hok))
  exact ⟨m', p, e, n, hok, hat, hm' ▸ hnodesN⟩

/-- **`malloc_graph`** adds a graph with the counts asked for. If the header is
refused, it makes an invalid access. -/
theorem mallocGraphLogged_cases (hl : Ledger (owned h) w.mem [] objs)
    (hlog : Owned.logger level ∈ objs) {nodesN edgesN : ℕ} (hn : nodesN < 2 ^ 32)
    (he : edgesN < 2 ^ 32) :
    ((w.mem.malloc h.alloc.toAllocator GraphH.Graph.size).2 = 0
        ∧ mallocGraphLogged h w nodesN edgesN = .error (.py (.fault .nullDeref)))
      ∨ ((w.mem.malloc h.alloc.toAllocator GraphH.Graph.size).2 ≠ 0
        ∧ ∃ mem g, mallocGraphLogged h w nodesN edgesN = .ok (⟨mem, w.written
            ++ debugLines h level 14 (countsMessage "Allocated new" nodesN edgesN)⟩, g.addr)
          ∧ g.val.nodesN = nodesN ∧ g.val.edgesN = edgesN
          ∧ Ledger (owned h) mem [] (.graph g :: objs)) := by
  by_cases hg : (w.mem.malloc h.alloc.toAllocator GraphH.Graph.size).2 = 0
  · refine Or.inl ⟨hg, ?_⟩
    unfold mallocGraphLogged
    rw [mallocGraph_null hg]
    rfl
  · refine Or.inr ⟨hg, ?_⟩
    obtain ⟨m', p, e, n, hok, hat, hblocks⟩ := mallocGraph_blocks hl hn he hg
    -- the new graph has whatever the arrays happen to hold
    let g : LiveGraph := ⟨p, e, n, .ofBytes m'.bytes nodesN edgesN e n hn he⟩
    have hperm : (arrayBlock n (8 * nodesN) ++ (arrayBlock e (16 * edgesN) ++ [(p, 24)])).Perm
        (g.blocks ++ []) := by
      rw [List.append_nil, ← List.append_assoc]
      exact (List.perm_append_singleton _ _).trans (List.perm_append_comm.cons _)
    have hpacked : Ledger (owned h) m' [] (.graph g :: objs) :=
      Ledger.pack (hblocks.perm hperm (.refl _))
        ⟨hat.nodesN_eq, hat.edgesN_eq, hat.edges_eq, hat.nodes_eq, rfl, rfl⟩
    refine ⟨m', g, ?_, rfl, rfl, hpacked⟩
    unfold mallocGraphLogged
    rw [hok]
    change (LOG_DEBUG _ h.staticLogger h.graphFile 14 _ >>= _) = _
    rw [LOG_DEBUG_eq hpacked (List.mem_cons_of_mem _ hlog)]
    rfl

/-! ### `print_graph` -/

/-- The line for an edge. -/
def edgeLine (e : EdgeWords) : String := formatU e.source ++ " " ++ formatU e.target ++ "\n"

/-- What `print_graph` writes. -/
def printedLines (h : Host) (v : GraphVal) : List (ℕ × String) :=
  (h.stdout, "\nTree\n") :: (v.edges.getD []).map fun e => (h.stdout, edgeLine e)

/-- **A graph that can be printed**: the `int` counter reaches every edge, and if there
is an edge, there is an array. -/
def GraphVal.Printable (v : GraphVal) : Prop :=
  v.edgesN < 2 ^ 31 ∧ (v.edges = none → v.edgesN = 0)

section Print

variable {slots : List EdgeWords} {e : EdgeWords} {i : ℕ} {written : List (ℕ × String)}

/-- C reads the words of an edge. -/
theorem load_edgeSlot (hl : Ledger (owned h) m loose objs) (hg : Owned.graph g ∈ objs)
    (hslots : g.val.edges = some slots) (he : slots[i]? = some e) :
    m.load GraphH.Edge (elemAddr GraphH.Edge g.edgesPtr i) ["source"] = .ok (e.source : ℤ)
      ∧ m.load GraphH.Edge (elemAddr GraphH.Edge g.edgesPtr i) ["target"]
        = .ok (e.target : ℤ) := by
  have hat := graphAt_of_ledger hl hg
  have hholds : g.Holds m.bytes := hl.holds _ hg
  have hi : i < g.val.edgesN := by
    rw [← g.val.edges_length slots hslots]
    exact (List.getElem?_eq_some_iff.mp he).1
  by_cases hptr : g.edgesPtr = 0
  · -- without an array there would be no slots
    have hnone := hholds.edges_eq
    rw [if_pos hptr, hslots] at hnone
    cases hnone
  · have harray := hholds.edges_eq
    rw [if_neg hptr, hslots] at harray
    obtain rfl := Option.some.inj harray
    rw [Slot.getElem?_array _ hi] at he
    obtain rfl := Option.some.inj he
    obtain ⟨hsource, htarget, -⟩ := locate_edge
    have hin := (hat.edges_block hptr).1
    have hsize : GraphH.Edge.size = 16 := rfl
    unfold elemAddr
    rw [if_neg hptr, hsize, Memory.load_eq hsource (by omega) (hin.sub (by omega) (by omega)),
      Memory.load_eq htarget (by omega) (hin.sub (by omega) (by omega)), decode_unsigned,
      decode_unsigned]
    exact ⟨rfl, rfl⟩

/-- One iteration prints one edge. -/
theorem printBody_again (written : List (ℕ × String)) (hl : Ledger (owned h) m loose objs)
    (hg : Owned.graph g ∈ objs)
    (hslots : g.val.edges = some slots) (he : slots[i]? = some e) :
    printBody h g.addr (⟨m, written⟩, i)
      = if i + 1 = 2 ^ 31 then .error .signedOverflow
        else .ok (.again (⟨m, written ++ [(h.stdout, edgeLine e)]⟩, i + 1)) := by
  have hat := graphAt_of_ledger hl hg
  obtain ⟨-, hedgesN⟩ := hat.load_counts
  obtain ⟨hsource, htarget⟩ := load_edgeSlot hl hg hslots he
  have hi : i < g.val.edgesN := by
    rw [← g.val.edges_length slots hslots]
    exact (List.getElem?_eq_some_iff.mp he).1
  unfold printBody
  simp only [hedgesN, access_ok, hat.load_edges, bind, Except.bind, Int.toNat_natCast, hsource,
    htarget, put_eq h.stdout_ne]
  rw [if_pos (Int.ofNat_lt.mpr hi)]
  rfl

/-- After the last edge the loop is left. -/
theorem printBody_leave (hl : Ledger (owned h) m loose objs) (hg : Owned.graph g ∈ objs)
    (hi : g.val.edgesN ≤ i) :
    printBody h g.addr (⟨m, written⟩, i) = .ok (.leave ⟨m, written⟩) := by
  obtain ⟨-, hedgesN⟩ := (graphAt_of_ledger hl hg).load_counts
  unfold printBody
  simp only [hedgesN, access_ok, bind, Except.bind]
  rw [if_neg fun hlt => absurd (Int.ofNat_lt.mp hlt) (Nat.not_lt.mpr hi)]
  rfl

/-- Without an array the first edge is an invalid access. -/
theorem printBody_null (hl : Ledger (owned h) m loose objs) (hg : Owned.graph g ∈ objs)
    (hnone : g.val.edges = none) (hi : i < g.val.edgesN) :
    printBody h g.addr (⟨m, written⟩, i) = .error (.py (.fault .nullDeref)) := by
  have hat := graphAt_of_ledger hl hg
  obtain ⟨-, hedgesN⟩ := hat.load_counts
  have hptr := (LiveGraph.Holds.edges_none_iff (hl.holds _ hg)).mp hnone
  have hedges : m.load GraphH.Graph g.addr ["edges"] = .ok ((0 : ℕ) : ℤ) := hptr ▸ hat.load_edges
  unfold printBody
  simp only [hedgesN, access_ok, hedges, bind, Except.bind]
  rw [if_pos (Int.ofNat_lt.mpr hi)]
  rfl

/-- The loop prints the edges that are left. -/
theorem printLoop_eq (hl : Ledger (owned h) m loose objs) (hg : Owned.graph g ∈ objs)
    (hlt : g.val.edgesN < 2 ^ 31) (before : List EdgeWords) {rest : List EdgeWords}
    (hslots : g.val.edges = some (before ++ rest)) {fuel : ℕ} (hf : rest.length < fuel)
    (written : List (ℕ × String)) :
    forever .signedOverflow (printBody h g.addr) fuel (⟨m, written⟩, before.length)
      = .ok ⟨m, written ++ rest.map fun e => (h.stdout, edgeLine e)⟩ := by
  have hlen := g.val.edges_length _ hslots
  rw [List.length_append] at hlen
  obtain ⟨fuel, rfl⟩ : ∃ f, fuel = f + 1 := ⟨fuel - 1, by omega⟩
  -- on the edges that are left, those before them being printed
  induction rest generalizing before written fuel with
  | nil =>
    rw [List.length_nil, Nat.add_zero] at hlen
    rw [forever_leave (printBody_leave hl hg hlen.ge), List.map_nil, List.append_nil]
  | cons e rest ih =>
    rw [List.length_cons] at hlen hf
    have he : (before ++ e :: rest)[before.length]? = some e := by
      rw [List.getElem?_append_right le_rfl, Nat.sub_self]
      rfl
    -- the counter stays below its maximum, for there are fewer edges
    have hstep : Step (printBody h g.addr) (⟨m, written⟩, before.length)
        (⟨m, written ++ [(h.stdout, edgeLine e)]⟩, (before ++ [e]).length) := by
      rw [List.length_append, List.length_singleton]
      exact (printBody_again written hl hg hslots he).trans (if_neg (by omega))
    obtain ⟨fuel, rfl⟩ : ∃ f, fuel = f + 1 := ⟨fuel - 1, by omega⟩
    have hsplit : g.val.edges = some ((before ++ [e]) ++ rest) := by
      rw [hslots, List.append_assoc]
      rfl
    have hcount : (before ++ [e]).length + rest.length = g.val.edgesN := by
      rw [List.length_append, List.length_singleton]
      omega
    rw [forever_again hstep, ih (before ++ [e]) hsplit _ hcount fuel (by omega), List.map_cons,
      List.append_assoc]
    rfl

theorem two_pow_31 : 2 ^ 31 = 2147483647 + 1 := rfl

/-- **`print_graph`** writes a line for each edge, in the order of the slots. -/
theorem printGraph_eq (hl : Ledger (owned h) w.mem loose objs) (hg : Owned.graph g ∈ objs)
    (hprint : g.val.Printable) :
    printGraph h w g.addr = .ok { w with written := w.written ++ printedLines h g.val } := by
  unfold printGraph
  rw [put_eq h.stdout_ne]
  change forever _ _ _ _ = _
  cases hslots : g.val.edges with
  | none =>
    -- there is no edge to read
    have hzero := hprint.2 hslots
    rw [two_pow_31, forever_leave (printBody_leave hl hg (by omega)), printedLines, hslots]
    rfl
  | some slots =>
    have hlen := g.val.edges_length _ hslots
    have hlt := hprint.1
    have hloop := printLoop_eq hl hg hlt [] hslots (show slots.length < 2 ^ 31 by omega)
      (w.written ++ [(h.stdout, "\nTree\n")])
    rw [List.append_assoc] at hloop
    rw [printedLines, hslots]
    exact hloop

/-- The counter overflows on a graph with more edges than it can count. -/
theorem printLoop_overflow (hl : Ledger (owned h) m loose objs) (hg : Owned.graph g ∈ objs)
    (hslots : g.val.edges = some slots) (hge : 2 ^ 31 ≤ g.val.edgesN) (fuel : ℕ)
    (hf : i + fuel ≤ 2 ^ 31) :
    forever .signedOverflow (printBody h g.addr) fuel (⟨m, written⟩, i)
      = .error .signedOverflow := by
  -- the loop runs out of counter values before it runs out of edges
  induction fuel generalizing i written with
  | zero => rfl
  | succ fuel ih =>
    have hi : i < slots.length := by
      rw [g.val.edges_length slots hslots]
      omega
    have hbody := printBody_again written hl hg hslots (List.getElem?_eq_getElem hi)
    by_cases hmax : i + 1 = 2 ^ 31
    · rw [if_pos hmax] at hbody
      rw [forever, hbody]
    · rw [if_neg hmax] at hbody
      rw [forever_again hbody]
      exact ih (by omega)

end Print

/-- **`print_graph` is defined** exactly on the graphs that can be printed. -/
theorem printGraph_defined_iff (hl : Ledger (owned h) w.mem loose objs)
    (hg : Owned.graph g ∈ objs) :
    Defined (printGraph h w g.addr) ↔ g.val.Printable := by
  constructor
  · rintro ⟨w', hok⟩
    unfold printGraph at hok
    rw [put_eq h.stdout_ne] at hok
    change forever _ _ _ _ = _ at hok
    constructor
    · -- an array with too many edges makes the counter overflow
      by_contra hge
      cases hslots : g.val.edges with
      | none =>
        have hpos : 0 < g.val.edgesN := by omega
        rw [two_pow_31, forever, printBody_null hl hg hslots hpos] at hok
        cases hok
      | some slots =>
        rw [printLoop_overflow hl hg hslots (by omega) (2 ^ 31) (by omega)] at hok
        cases hok
    · -- and the first edge of a missing array is not read
      intro hnone
      by_contra hne
      rw [two_pow_31, forever, printBody_null hl hg hnone (by omega)] at hok
      cases hok
  · intro hprint
    exact ⟨_, printGraph_eq hl hg hprint⟩

/-- Without its array a graph that has an edge is not printed. -/
theorem printGraph_null (hl : Ledger (owned h) w.mem loose objs) (hg : Owned.graph g ∈ objs)
    (hnone : g.val.edges = none) (hpos : 0 < g.val.edgesN) :
    printGraph h w g.addr = .error (.py (.fault .nullDeref)) := by
  unfold printGraph
  rw [put_eq h.stdout_ne]
  change forever _ _ _ _ = _
  rw [two_pow_31, forever, printBody_null hl hg hnone hpos]

/-! ### `add_edge` and `add_node` -/

/-- The arrays may change under a header that stays. -/
theorem LiveGraph.Holds.withVal {bytes bytes' : ℕ → UInt8} (hg : g.Holds bytes) {v : GraphVal}
    (hnodesN : v.nodesN = g.val.nodesN) (hedgesN : v.edgesN = g.val.edgesN)
    (hheader : ∀ a, g.addr ≤ a → a < g.addr + 24 → bytes' a = bytes a)
    (hedges : v.edges = if g.edgesPtr = 0 then none
      else some (edgeSlot.array bytes' g.edgesPtr g.val.edgesN))
    (hnodes : v.nodes = if g.nodesPtr = 0 then none
      else some (nodeSlot.array bytes' g.nodesPtr g.val.nodesN)) :
    LiveGraph.Holds { g with val := v } bytes' := by
  have hread : ∀ off width, off + width ≤ 24 →
      readLE bytes' (g.addr + off) width = readLE bytes (g.addr + off) width :=
    fun off width hw => readLE_congr fun a ha hlt => hheader a (by omega) (by omega)
  constructor
  case nodesN_eq => exact (hread 0 4 (by omega)).trans (hg.nodesN_eq.trans hnodesN.symm)
  case edgesN_eq => exact (hread 4 4 (by omega)).trans (hg.edgesN_eq.trans hedgesN.symm)
  case edgesPtr_eq => exact (hread 8 8 (by omega)).trans hg.edgesPtr_eq
  case nodesPtr_eq => exact (hread 16 8 (by omega)).trans hg.nodesPtr_eq
  case edges_eq => exact hedgesN ▸ hedges
  case nodes_eq => exact hnodesN ▸ hnodes

/-- **`add_edge`** changes the entry of its slot. -/
theorem addEdge_ledger (hl : Ledger (owned h) m loose (.graph g :: objs))
    (hedges : g.val.edges ≠ none) {i : ℕ} (hi : i < g.val.edgesN) {e : EdgeWords}
    (he : ∀ w ∈ e.toList, w < 2 ^ 32) :
    ∃ m', addEdge m g.addr i e.source e.target e.attributeType e.attributeValue = .ok m'
      ∧ Ledger (owned h) m' loose (.graph { g with val := g.val.setEdge i e } :: objs) := by
  have hat := graphAt_of_ledger hl List.mem_cons_self
  have hholds : g.Holds m.bytes := hl.holds _ List.mem_cons_self
  have hptr := mt hholds.edges_none_iff.mpr hedges
  have hheader := (hat.edges_block hptr).2
  have hbytes : ∀ a, a < g.edgesPtr + i * 16 ∨ g.edgesPtr + i * 16 + 16 ≤ a →
      writeWords m.bytes (g.edgesPtr + i * 16) e.toList a = m.bytes a :=
    fun a ha => writeWords_of_disjoint ha
  refine ⟨_, hat.addEdge_eq hptr hi _ _ _ _, hl.update rfl (fun a ha => hbytes a ?_) ?_⟩
  · have hout := ha _ (LiveGraph.mem_edges_block hptr)
    change a < g.edgesPtr ∨ g.edgesPtr + 16 * g.val.edgesN ≤ a at hout
    omega
  · refine hholds.withVal rfl rfl (fun a ha hlt => hbytes a (by omega)) ?_ ?_
    · have hset := edgeSlot.array_set (n := g.val.edgesN) (i := i) hbytes
      rw [edgeSlot_size, edgeSlot_read_writeWords he] at hset
      rw [if_neg hptr]
      change g.val.edges.map _ = _
      rw [hholds.edges_eq, if_neg hptr, Option.map_some, ← hset]
      rfl
    · -- the two arrays do not overlap
      change g.val.nodes = _
      rw [hholds.nodes_eq]
      by_cases hn : g.nodesPtr = 0
      · rw [if_pos hn, if_pos hn]
      · have hapart := hat.apart hptr hn
        rw [if_neg hn, if_neg hn]
        refine congrArg some (nodeSlot.array_congr fun a ha hlt => hbytes a ?_).symm
        rw [nodeSlot_size] at hlt
        omega

/-- **`add_node`** changes the entry of its slot. -/
theorem addNode_ledger (hl : Ledger (owned h) m loose (.graph g :: objs))
    (hnodes : g.val.nodes ≠ none) {j : ℕ} (hj : j < g.val.nodesN) {a : NodeWords}
    (ha : ∀ w ∈ a.toList, w < 2 ^ 32) :
    ∃ m', addNode m g.addr j a.attributeType a.attributeValue = .ok m'
      ∧ Ledger (owned h) m' loose (.graph { g with val := g.val.setNode j a } :: objs) := by
  have hat := graphAt_of_ledger hl List.mem_cons_self
  have hholds : g.Holds m.bytes := hl.holds _ List.mem_cons_self
  have hptr := mt hholds.nodes_none_iff.mpr hnodes
  have hheader := (hat.nodes_block hptr).2
  have hbytes : ∀ b, b < g.nodesPtr + j * 8 ∨ g.nodesPtr + j * 8 + 8 ≤ b →
      writeWords m.bytes (g.nodesPtr + j * 8) a.toList b = m.bytes b :=
    fun b hb => writeWords_of_disjoint hb
  refine ⟨_, hat.addNode_eq hptr hj _ _, hl.update rfl (fun b hb => hbytes b ?_) ?_⟩
  · have hout := hb _ (LiveGraph.mem_nodes_block hptr)
    change b < g.nodesPtr ∨ g.nodesPtr + 8 * g.val.nodesN ≤ b at hout
    omega
  · refine hholds.withVal rfl rfl (fun b hb hlt => hbytes b (by omega)) ?_ ?_
    · change g.val.edges = _
      rw [hholds.edges_eq]
      by_cases he : g.edgesPtr = 0
      · rw [if_pos he, if_pos he]
      · have hapart := hat.apart he hptr
        rw [if_neg he, if_neg he]
        refine congrArg some (edgeSlot.array_congr fun b hb hlt => hbytes b ?_).symm
        rw [edgeSlot_size] at hlt
        omega
    · have hset := nodeSlot.array_set (n := g.val.nodesN) (i := j) hbytes
      rw [nodeSlot_size, nodeSlot_read_writeWords ha] at hset
      rw [if_neg hptr]
      change g.val.nodes.map _ = _
      rw [hholds.nodes_eq, if_neg hptr, Option.map_some, ← hset]
      rfl

/-- Without its array a graph takes no edge. -/
theorem addEdge_starved (hl : Ledger (owned h) m loose objs) (hg : Owned.graph g ∈ objs)
    (hnone : g.val.edges = none) (i s t ty v : ℕ) :
    addEdge m g.addr i s t ty v = .error .nullDeref := by
  have hat := graphAt_of_ledger hl hg
  rw [(LiveGraph.Holds.edges_none_iff (hl.holds _ hg)).mp hnone] at hat
  exact hat.addEdge_null i s t ty v

/-- Without its array a graph takes no node. -/
theorem addNode_starved (hl : Ledger (owned h) m loose objs) (hg : Owned.graph g ∈ objs)
    (hnone : g.val.nodes = none) (j ty v : ℕ) :
    addNode m g.addr j ty v = .error .nullDeref := by
  have hat := graphAt_of_ledger hl hg
  rw [(LiveGraph.Holds.nodes_none_iff (hl.holds _ hg)).mp hnone] at hat
  exact hat.addNode_null j ty v

end Arboql
