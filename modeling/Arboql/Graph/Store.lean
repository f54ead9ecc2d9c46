import Arboql.Graph.Calls
import Arboql.Lib.Simulation

/-!
# The library as a store of graphs

To a client the library is a store: it maps handles to values of graphs, and keeps a
log level and the texts written so far (`Store`). A call changes the value at one handle
or adds or removes a handle (`Store.Step`); nothing in this description is an address
inside a graph, a byte or a block.

A client has to keep to a protocol, which it can check from the results that it got: it
uses handles that it holds, and slots within the counts that it asked for
(`Held.Allows`). The world then represents the store (`Represents`): memory is divided
into the logger, the graphs of the store and what belongs to the rest of the process.
Every call that the protocol allows preserves this, unless `malloc` has refused memory
that the call needs (`World.call_refines`).
-/

namespace Arboql

open CLayout Simulation
open Bindings (PyArg PyError typeWord)

/-! ### The store -/

/-- **The store**: the graphs by handle, the log level and the texts written. -/
structure Store where
  graphs : ℕ → Option GraphVal
  level : ℕ
  written : List (ℕ × String)

namespace Store

/-- Another value at one handle. -/
def put (s : Store) (p : ℕ) (v : Option GraphVal) : Store :=
  { s with graphs := Function.update s.graphs p v }

/-- More texts written. -/
def write (s : Store) (lines : List (ℕ × String)) : Store :=
  { s with written := s.written ++ lines }

/-- The store after the package is loaded. -/
def init (h : Host) : Store where
  graphs _ := none
  level := LoggerH.INFO
  written := messageLines h.stdout "[INFO]  " h.loggerFile 49
    "Logger initialized with INFO log level"

end Store

/-- The arguments that `ctypes` converts. -/
def ApiCall.args : ApiCall → List PyArg
  | .mallocGraph nodesN edgesN => [nodesN, edgesN]
  | .freeGraph _ => []
  | .addEdge _ edgeId source target attributeType attributeValue =>
    [edgeId, source, target, attributeType, attributeValue]
  | .addNode _ nodeId attributeType attributeValue => [nodeId, attributeType, attributeValue]
  | .printGraph _ current indent => [current, indent]
  | .matchGraphs _ _ => []
  | .setLogLevel logLevel => [logLevel]

/-- Some argument is refused. -/
def ApiCall.BadArgument (c : ApiCall) : Prop := ∃ elems, PyArg.tuple elems ∈ c.args

/-- **What a call does to the store.** The contents of a new graph are not specified,
and neither is which of its arrays there is memory for. -/
inductive Store.Step (h : Host) : Store → ApiCall × ApiResult → Store → Prop
  | argumentError {s : Store} {c : ApiCall} (hc : c.BadArgument) :
      Step h s (c, .argumentError) s
  | mallocGraph {s : Store} {nodesN edgesN : ℤ} {p : ℕ} {v : GraphVal} (hp : p ≠ 0)
      (hfresh : s.graphs p = none) (hn : v.nodesN = typeWord nodesN)
      (he : v.edgesN = typeWord edgesN) :
      Step h s (.mallocGraph (.int nodesN) (.int edgesN), .handle p)
        ((s.put p (some v)).write
          (debugLines h s.level 14 (countsMessage "Allocated new" v.nodesN v.edgesN)))
  | freeGraph {s : Store} {p : ℕ} {v : GraphVal} (hv : s.graphs p = some v) :
      Step h s (.freeGraph p, .none)
        ((s.put p none).write (debugLines h s.level 24 (countsMessage "Freed" v.nodesN v.edgesN)))
  | addEdge {s : Store} {p : ℕ} {v : GraphVal} {i source target ty value : ℤ}
      (hv : s.graphs p = some v) (hi : typeWord i < v.edgesN) (hedges : v.edges ≠ none) :
      Step h s (.addEdge p (.int i) (.int source) (.int target) (.int ty) (.int value), .none)
        (s.put p (some (v.setEdge (typeWord i)
          ⟨typeWord source, typeWord target, typeWord ty, typeWord value⟩)))
  | addNode {s : Store} {p : ℕ} {v : GraphVal} {j ty value : ℤ} (hv : s.graphs p = some v)
      (hj : typeWord j < v.nodesN) (hnodes : v.nodes ≠ none) :
      Step h s (.addNode p (.int j) (.int ty) (.int value), .none)
        (s.put p (some (v.setNode (typeWord j) ⟨typeWord ty, typeWord value⟩)))
  | printGraph {s : Store} {p : ℕ} {v : GraphVal} {current indent : ℤ}
      (hv : s.graphs p = some v) (hprint : v.Printable) :
      Step h s (.printGraph p (.int current) (.int indent), .none) (s.write (printedLines h v))
  | matchGraphs {s : Store} {p q : ℕ} {v u : GraphVal} (hv : s.graphs p = some v)
      (hu : s.graphs q = some u) (hprint : v.Printable) (hprint' : u.Printable) :
      Step h s (.matchGraphs p q, .status 42) (s.write (printedLines h v ++ printedLines h u))
  | setLogLevel {s : Store} {z : ℤ} :
      Step h s (.setLogLevel (.int z), .none) { s with level := typeWord z }

/-! ### The protocol -/

/-- The graphs that a client holds, with the counts of their nodes and edges. -/
abbrev Held := ℕ → Option (ℕ × ℕ)

/-- The four bytes that are passed for an argument. -/
def wordOf : PyArg → ℕ
  | .int z => typeWord z
  | .tuple _ => 0

/-- What the client holds after a call. -/
def Held.next (held : Held) : ApiCall × ApiResult → Held
  | (.mallocGraph nodesN edgesN, .handle p) =>
    Function.update held p (some (wordOf nodesN, wordOf edgesN))
  | (.freeGraph p, .none) => Function.update held p none
  | _ => held

/-- What the client holds after some calls. -/
def heldAfter (es : List (ApiCall × ApiResult)) : Held := es.foldl Held.next fun _ => none

/-- **The protocol**: handles that are held, slots in range, and nothing printed that
has more edges than an `int` can count. -/
def Held.Allows (held : Held) : ApiCall → Prop
  | .mallocGraph _ _ => True
  | .freeGraph p => ∃ counts, held p = some counts
  | .addEdge p edgeId _ _ _ _ =>
    ∃ counts, held p = some counts ∧ ∀ i, edgeId = .int i → typeWord i < counts.2
  | .addNode p nodeId _ _ =>
    ∃ counts, held p = some counts ∧ ∀ j, nodeId = .int j → typeWord j < counts.1
  | .printGraph p _ _ => ∃ counts, held p = some counts ∧ counts.2 < 2 ^ 31
  | .matchGraphs p q =>
    (∃ counts, held p = some counts ∧ counts.2 < 2 ^ 31)
      ∧ ∃ counts, held q = some counts ∧ counts.2 < 2 ^ 31
  | .setLogLevel _ => True

/-- Whether there is a value that meets a condition. -/
instance decidableExistsCounts (r : Option (ℕ × ℕ)) (P : ℕ × ℕ → Prop) [DecidablePred P] :
    Decidable (∃ counts, r = some counts ∧ P counts) :=
  match r with
  | none => isFalse fun ⟨_, hc, _⟩ => Option.some_ne_none _ hc.symm
  | some counts => decidable_of_iff (P counts) (by simp)

/-- Whether an argument that is passed is below a bound. -/
instance decidableWordLt (a : PyArg) (bound : ℕ) :
    Decidable (∀ z, a = .int z → typeWord z < bound) :=
  match a with
  | .int z => decidable_of_iff (typeWord z < bound) (by simp)
  | .tuple _ => isTrue fun z hz => by cases hz

instance decidableAllows (held : Held) : DecidablePred held.Allows
  | .mallocGraph _ _ => inferInstanceAs (Decidable True)
  | .freeGraph p => decidable_of_iff ((held p).isSome) Option.isSome_iff_exists
  | .addEdge p edgeId _ _ _ _ => inferInstanceAs (Decidable
      (∃ counts, held p = some counts ∧ ∀ i, edgeId = .int i → typeWord i < counts.2))
  | .addNode p nodeId _ _ => inferInstanceAs (Decidable
      (∃ counts, held p = some counts ∧ ∀ j, nodeId = .int j → typeWord j < counts.1))
  | .printGraph p _ _ => inferInstanceAs (Decidable
      (∃ counts, held p = some counts ∧ counts.2 < 2 ^ 31))
  | .matchGraphs p q => inferInstanceAs (Decidable
      ((∃ counts, held p = some counts ∧ counts.2 < 2 ^ 31)
        ∧ ∃ counts, held q = some counts ∧ counts.2 < 2 ^ 31))
  | .setLogLevel _ => inferInstanceAs (Decidable True)

/-- What the client of a store holds. -/
def Store.held (s : Store) : Held := fun p => (s.graphs p).map fun v => (v.nodesN, v.edgesN)

theorem Store.held_eq_some {s : Store} {p : ℕ} {counts : ℕ × ℕ} (hp : s.held p = some counts) :
    ∃ v, s.graphs p = some v ∧ (v.nodesN, v.edgesN) = counts :=
  Option.map_eq_some_iff.mp hp

theorem Store.held_eq {s : Store} {p : ℕ} {v : GraphVal} (hv : s.graphs p = some v) :
    s.held p = some (v.nodesN, v.edgesN) := by
  rw [held, hv, Option.map_some]

/-- Putting a value puts its counts. -/
theorem Store.held_put (s : Store) (p : ℕ) (v : Option GraphVal) :
    (s.put p v).held = Function.update s.held p (v.map fun v => (v.nodesN, v.edgesN)) := by
  funext q
  change (Function.update s.graphs p v q).map _ = _
  by_cases hq : q = p
  · subst hq
    rw [Function.update_self, Function.update_self]
  · rw [Function.update_of_ne hq, Function.update_of_ne hq]
    rfl

/-- **The client knows what the store holds**, from the results it got. -/
theorem Store.Step.held_eq {h : Host} {s s' : Store} {e : ApiCall × ApiResult}
    (hstep : Store.Step h s e s') : s'.held = s.held.next e := by
  cases hstep with
  | argumentError hc => cases ‹ApiCall› <;> rfl
  | mallocGraph hp hfresh hn he =>
    change (s.put _ _).held = _
    rw [held_put, Option.map_some, hn, he]
    rfl
  | freeGraph hv => exact s.held_put _ none
  | addEdge hv hi hedges =>
    -- the counts stay
    refine (s.held_put _ _).trans (Function.update_eq_self_iff.mpr ?_)
    exact (Store.held_eq hv).symm
  | addNode hv hj hnodes =>
    -- the counts stay
    refine (s.held_put _ _).trans (Function.update_eq_self_iff.mpr ?_)
    exact (Store.held_eq hv).symm
  | printGraph hv hprint => rfl
  | matchGraphs hv hu hprint hprint' => rfl
  | setLogLevel => rfl

theorem heldAfter_snoc (es : List (ApiCall × ApiResult)) (e : ApiCall × ApiResult) :
    heldAfter (es ++ [e]) = (heldAfter es).next e := by
  unfold heldAfter
  rw [List.foldl_append]
  rfl

/-! ### Representation -/

/-- The values at the handles are those of the graphs. -/
def Shows (f : ℕ → Option GraphVal) (graphs : List LiveGraph) : Prop :=
  ∀ p v, f p = some v ↔ ∃ g ∈ graphs, g.addr = p ∧ g.val = v

section Shows

variable {f : ℕ → Option GraphVal} {g : LiveGraph} {graphs graphs' : List LiveGraph}

theorem Shows.perm (hf : Shows f graphs) (hp : graphs.Perm graphs') : Shows f graphs' := by
  intro p v
  rw [hf p v]
  exact exists_congr fun g => and_congr_left' hp.mem_iff

/-- One graph more. -/
theorem Shows.cons (hf : Shows f graphs) (hne : ∀ g' ∈ graphs, g'.addr ≠ g.addr) :
    Shows (Function.update f g.addr (some g.val)) (g :: graphs) := by
  intro p v
  by_cases hp : p = g.addr
  · subst hp
    rw [Function.update_self, Option.some.injEq]
    constructor
    · exact fun hv => ⟨g, List.mem_cons_self, rfl, hv⟩
    · rintro ⟨g', hg', haddr, hv⟩
      rcases List.mem_cons.mp hg' with rfl | hmem
      · exact hv
      · exact absurd haddr (hne g' hmem)
  · rw [Function.update_of_ne hp, hf p v]
    constructor
    · rintro ⟨g', hg', hrest⟩
      exact ⟨g', List.mem_cons_of_mem _ hg', hrest⟩
    · rintro ⟨g', hg', haddr, hv⟩
      rcases List.mem_cons.mp hg' with rfl | hmem
      · exact absurd haddr.symm hp
      · exact ⟨g', hmem, haddr, hv⟩

/-- One graph less. -/
theorem Shows.tail (hf : Shows f (g :: graphs)) (hne : ∀ g' ∈ graphs, g'.addr ≠ g.addr) :
    Shows (Function.update f g.addr none) graphs := by
  intro p v
  by_cases hp : p = g.addr
  · subst hp
    rw [Function.update_self]
    constructor
    · intro hv
      cases hv
    · rintro ⟨g', hg', haddr, -⟩
      exact absurd haddr (hne g' hg')
  · rw [Function.update_of_ne hp, hf p v]
    constructor
    · rintro ⟨g', hg', haddr, hv⟩
      rcases List.mem_cons.mp hg' with rfl | hmem
      · exact absurd haddr.symm hp
      · exact ⟨g', hmem, haddr, hv⟩
    · rintro ⟨g', hg', hrest⟩
      exact ⟨g', List.mem_cons_of_mem _ hg', hrest⟩

end Shows

/-- The objects in memory. -/
def objects (level : ℕ) (rest : Memory) (graphs : List LiveGraph) : List Owned :=
  .logger level :: .other rest :: graphs.map .graph

/-- **The world represents the store**, with the rest of the process as `rest` has
it. -/
structure Represents (h : Host) (rest : Memory) (w : World) (s : Store)
    (graphs : List LiveGraph) : Prop where
  ledger : Ledger (owned h) w.mem [] (objects s.level rest graphs)
  graphs_eq : Shows s.graphs graphs
  written_eq : w.written = s.written

section Represents

variable {h : Host} {rest : Memory} {w : World} {s : Store} {graphs : List LiveGraph}
  {m : Memory} {g : LiveGraph} {loose : List (ℕ × ℕ)} {objs : List Owned}

theorem mem_objects {level : ℕ} (hg : g ∈ graphs) : Owned.graph g ∈ objects level rest graphs :=
  List.mem_cons_of_mem _ (List.mem_cons_of_mem _ (List.mem_map_of_mem hg))

/-- Graphs have addresses of their own. -/
theorem addr_ne_of_ledger (hl : Ledger (owned h) m loose (.graph g :: objs)) {g' : LiveGraph}
    (hg' : Owned.graph g' ∈ objs) : g'.addr ≠ g.addr := by
  -- the two headers are blocks that do not overlap
  have hblocks := (hl.unpack.accounted).of_append (b := (g.addr, 24)) (c := (g'.addr, 24))
    (List.mem_append_left _ List.mem_cons_self)
    (List.mem_flatMap.mpr ⟨_, hg', List.mem_cons_self⟩)
  exact hblocks.1.symm

/-- **A handle in the store** is the address of one of the graphs, which comes before
the other objects. -/
theorem Represents.focus (hr : Represents h rest w s graphs) {p : ℕ} {v : GraphVal}
    (hv : s.graphs p = some v) :
    ∃ g others, g.addr = p ∧ g.val = v
      ∧ Ledger (owned h) w.mem [] (.graph g :: objects s.level rest others)
      ∧ Shows (Function.update s.graphs p none) others := by
  obtain ⟨g, hg, rfl, rfl⟩ := (hr.graphs_eq p v).mp hv
  -- the graph is moved to the front, before the logger and the rest
  obtain ⟨before, after, rfl⟩ := List.append_of_mem hg
  have hperm : (before ++ g :: after).Perm (g :: (before ++ after)) := List.perm_middle
  have hl : Ledger (owned h) w.mem [] (.graph g :: objects s.level rest (before ++ after)) := by
    refine hr.ledger.perm (.refl _) ?_
    have hmap := hperm.map Owned.graph
    exact ((hmap.cons _).cons _).trans (((List.Perm.swap _ _ _).cons _).trans (.swap _ _ _))
  refine ⟨g, before ++ after, rfl, rfl, hl, (hr.graphs_eq.perm hperm).tail fun g' hg' => ?_⟩
  exact addr_ne_of_ledger hl (mem_objects hg')

/-- The graph is gone. -/
theorem Represents.drop {level p : ℕ} {f : ℕ → Option GraphVal} {others : List LiveGraph}
    {written : List (ℕ × String)} (hl : Ledger (owned h) m [] (objects level rest others))
    (hf : Shows (Function.update f p none) others) :
    Represents h rest ⟨m, written⟩ ⟨Function.update f p none, level, written⟩ others :=
  ⟨hl, hf, rfl⟩

/-- The graph has another value, or is new. -/
theorem Represents.unfocus {level : ℕ} {f : ℕ → Option GraphVal} {others : List LiveGraph}
    {written : List (ℕ × String)}
    (hl : Ledger (owned h) m [] (.graph g :: objects level rest others))
    (hf : Shows (Function.update f g.addr none) others) :
    Represents h rest ⟨m, written⟩ ⟨Function.update f g.addr (some g.val), level, written⟩
      (g :: others) := by
  have hne : ∀ g' ∈ others, g'.addr ≠ g.addr := fun g' hg' =>
    addr_ne_of_ledger hl (mem_objects hg')
  have hshows := hf.cons hne
  rw [Function.update_idem] at hshows
  refine ⟨hl.perm (.refl _) ?_, hshows, rfl⟩
  exact (List.Perm.swap _ _ _).trans ((List.Perm.swap _ _ _).cons _)

end Represents

/-! ### One call -/

/-- The graph has edges but no array for them. -/
def LacksEdges (m : Memory) (p : ℕ) : Prop :=
  m.load GraphH.Graph p ["edges"] = .ok 0 ∧ m.load GraphH.Graph p ["edges_n"] ≠ .ok 0

/-- **`malloc` has refused memory that the call needs**: now, or when the graph was
allocated. -/
def World.Starves (h : Host) (w : World) : ApiCall → Prop
  | .mallocGraph _ _ => (w.mem.malloc h.alloc.toAllocator GraphH.Graph.size).2 = 0
  | .addEdge p _ _ _ _ _ => w.mem.load GraphH.Graph p ["edges"] = .ok 0
  | .addNode p _ _ _ => w.mem.load GraphH.Graph p ["nodes"] = .ok 0
  | .printGraph p _ _ => LacksEdges w.mem p
  | .matchGraphs p q => LacksEdges w.mem p ∨ LacksEdges w.mem q
  | .freeGraph _ => False
  | .setLogLevel _ => False

section OneCall

variable {h : Host} {rest : Memory} {w : World} {s : Store} {graphs : List LiveGraph}

/-- A refused argument raises an exception, before anything is done. -/
theorem World.call_badArgument {c : ApiCall} (hc : c.BadArgument) :
    w.call h c = .ok (w, .argumentError) := by
  obtain ⟨elems, hmem⟩ := hc
  -- on which arguments are tuples: the first of them raises, or none was there
  cases c with
  | mallocGraph nodesN edgesN =>
    cases nodesN <;> cases edgesN <;> first | rfl | simp [ApiCall.args] at hmem
  | freeGraph graph => simp [ApiCall.args] at hmem
  | addEdge graph edgeId source target ty value =>
    cases edgeId <;> cases source <;> cases target <;> cases ty <;> cases value <;>
      first | rfl | simp [ApiCall.args] at hmem
  | addNode graph nodeId ty value =>
    cases nodeId <;> cases ty <;> cases value <;> first | rfl | simp [ApiCall.args] at hmem
  | printGraph graph current indent =>
    cases current <;> cases indent <;> first | rfl | simp [ApiCall.args] at hmem
  | matchGraphs graph pattern => simp [ApiCall.args] at hmem
  | setLogLevel level => cases level <;> first | rfl | simp [ApiCall.args] at hmem

theorem World.call_of_ok {c : ApiCall} {r : World × ApiResult} (hc : w.perform h c = .ok r) :
    w.call h c = .ok r := by
  rw [call, hc]

theorem World.call_of_fault {c : ApiCall} {f : MemFault}
    (hc : w.perform h c = .error (.py (.fault f))) : w.call h c = .error (.py (.fault f)) := by
  rw [call, hc]

theorem World.call_of_overflow {c : ApiCall} (hc : w.perform h c = .error .signedOverflow) :
    w.call h c = .error .signedOverflow := by
  rw [call, hc]

/-- Without a refused argument every argument is an `int`. -/
theorem ApiCall.int_of_not_badArgument {c : ApiCall} (hc : ¬ c.BadArgument) {a : PyArg}
    (ha : a ∈ c.args) : ∃ z, a = .int z := by
  cases a with
  | int z => exact ⟨z, rfl⟩
  | tuple elems => exact absurd ⟨elems, ha⟩ hc

/-- **A call that is answered**: the store makes the same step, and is represented
again. -/
def Answered (h : Host) (rest : Memory) (w : World) (s : Store) (c : ApiCall) : Prop :=
  ∃ w' res s' graphs', w.call h c = .ok (w', res) ∧ Store.Step h s (c, res) s'
    ∧ Represents h rest w' s' graphs'

/-- What C reads in the header of a graph of the store. -/
theorem Represents.header (hr : Represents h rest w s graphs) {p : ℕ} {v : GraphVal}
    (hv : s.graphs p = some v) :
    (w.mem.load GraphH.Graph p ["edges"] = .ok 0 ↔ v.edges = none)
      ∧ (w.mem.load GraphH.Graph p ["nodes"] = .ok 0 ↔ v.nodes = none)
      ∧ (LacksEdges w.mem p ↔ v.edges = none ∧ 0 < v.edgesN) := by
  obtain ⟨g, others, rfl, rfl, hl, -⟩ := hr.focus hv
  have hat := graphAt_of_ledger hl List.mem_cons_self
  have hholds : g.Holds w.mem.bytes := hl.holds _ List.mem_cons_self
  have hedges : w.mem.load GraphH.Graph g.addr ["edges"] = .ok 0 ↔ g.val.edges = none := by
    rw [hat.load_edges, hholds.edges_none_iff, Except.ok.injEq]
    exact Int.natCast_eq_zero
  have hcount : w.mem.load GraphH.Graph g.addr ["edges_n"] ≠ .ok 0 ↔ 0 < g.val.edgesN := by
    rw [hat.load_counts.2, ne_eq, Except.ok.injEq, Nat.pos_iff_ne_zero]
    exact not_congr Int.natCast_eq_zero
  refine ⟨hedges, ?_, and_congr hedges hcount⟩
  rw [hat.load_nodes, hholds.nodes_none_iff, Except.ok.injEq]
  exact Int.natCast_eq_zero

theorem call_mallocGraph (hr : Represents h rest w s graphs) (nodesN edgesN : ℤ) :
    (w.Starves h (.mallocGraph (.int nodesN) (.int edgesN))
        ∧ w.call h (.mallocGraph (.int nodesN) (.int edgesN))
          = .error (.py (.fault .nullDeref)))
      ∨ (¬ w.Starves h (.mallocGraph (.int nodesN) (.int edgesN))
        ∧ Answered h rest w s (.mallocGraph (.int nodesN) (.int edgesN))) := by
  have hcall : w.perform h (.mallocGraph (.int nodesN) (.int edgesN))
      = mallocGraphLogged h w (typeWord nodesN) (typeWord edgesN) >>= fun r =>
        return (r.1, .handle r.2) := rfl
  rcases mallocGraphLogged_cases hr.ledger List.mem_cons_self (typeWord_lt nodesN)
    (typeWord_lt edgesN) with ⟨h0, herr⟩ | ⟨hne, mem, g, hok, hn, he, hl⟩
  · refine Or.inl ⟨h0, ?_⟩
    refine World.call_of_fault ?_
    rw [hcall, herr]
    rfl
  · refine Or.inr ⟨hne, ?_⟩
    -- a handle in use would be the address of another live block
    have hfresh : s.graphs g.addr = none := by
      cases hv : s.graphs g.addr with
      | none => rfl
      | some v =>
        obtain ⟨g', hg', haddr, -⟩ := (hr.graphs_eq _ v).mp hv
        exact absurd haddr (addr_ne_of_ledger hl (mem_objects hg'))
    have hp : g.addr ≠ 0 := (graphAt_of_ledger hl List.mem_cons_self).ne_zero
    have hshows : Shows (Function.update s.graphs g.addr none) graphs := by
      rw [← hfresh, Function.update_eq_self]
      exact hr.graphs_eq
    refine ⟨_, .handle g.addr, _, _, World.call_of_ok ?_, .mallocGraph hp hfresh hn he,
      .unfocus hl hshows⟩
    rw [hcall, hok, hr.written_eq, hn, he]
    rfl

theorem call_freeGraph (hr : Represents h rest w s graphs) {p : ℕ} {v : GraphVal}
    (hv : s.graphs p = some v) : Answered h rest w s (.freeGraph p) := by
  obtain ⟨g, others, rfl, rfl, hl, hshows⟩ := hr.focus hv
  obtain ⟨mem, hok, hl'⟩ := freeGraph_eq hl List.mem_cons_self
  refine ⟨_, .none, _, _, World.call_of_ok ?_, .freeGraph hv, .drop hl' hshows⟩
  change (freeGraph h w g.addr >>= fun w => Except.ok (w, ApiResult.none)) = _
  rw [hok, hr.written_eq]
  rfl

/-- The arguments of `add_edge` as words. -/
theorem edgeWords_lt (source target ty value : ℤ) :
    ∀ w ∈ EdgeWords.toList ⟨typeWord source, typeWord target, typeWord ty, typeWord value⟩,
      w < 2 ^ 32 := by
  intro w hw
  simp only [EdgeWords.toList, List.mem_cons, List.not_mem_nil, or_false] at hw
  rcases hw with rfl | rfl | rfl | rfl <;> exact typeWord_lt _

/-- The arguments of `add_node` as words. -/
theorem nodeWords_lt (ty value : ℤ) :
    ∀ w ∈ NodeWords.toList ⟨typeWord ty, typeWord value⟩, w < 2 ^ 32 := by
  intro w hw
  simp only [NodeWords.toList, List.mem_cons, List.not_mem_nil, or_false] at hw
  rcases hw with rfl | rfl <;> exact typeWord_lt _

theorem call_addEdge (hr : Represents h rest w s graphs) {p : ℕ} {v : GraphVal}
    (hv : s.graphs p = some v) {i : ℤ} (hi : typeWord i < v.edgesN) (source target ty value : ℤ) :
    (w.Starves h (.addEdge p (.int i) (.int source) (.int target) (.int ty) (.int value))
        ∧ w.call h (.addEdge p (.int i) (.int source) (.int target) (.int ty) (.int value))
          = .error (.py (.fault .nullDeref)))
      ∨ (¬ w.Starves h (.addEdge p (.int i) (.int source) (.int target) (.int ty) (.int value))
        ∧ Answered h rest w s
          (.addEdge p (.int i) (.int source) (.int target) (.int ty) (.int value))) := by
  obtain ⟨hedges, -, -⟩ := hr.header hv
  have hcall : w.perform h (.addEdge p (.int i) (.int source) (.int target) (.int ty) (.int value))
      = (Bindings.onMemory w (Bindings.call (addEdge w.mem p (typeWord i) (typeWord source)
        (typeWord target) (typeWord ty) (typeWord value))) >>= fun w => return (w, .none)) := rfl
  obtain ⟨g, others, rfl, rfl, hl, hshows⟩ := hr.focus hv
  by_cases hnone : g.val.edges = none
  · refine Or.inl ⟨hedges.mpr hnone, ?_⟩
    refine World.call_of_fault ?_
    rw [hcall, addEdge_starved hl List.mem_cons_self hnone]
    rfl
  · refine Or.inr ⟨mt hedges.mp hnone, ?_⟩
    obtain ⟨mem, hok, hl'⟩ := addEdge_ledger hl hnone hi (edgeWords_lt source target ty value)
    refine ⟨_, .none, _, _, World.call_of_ok ?_, .addEdge hv hi hnone, .unfocus hl' hshows⟩
    rw [hcall, hok, ← hr.written_eq]
    rfl

theorem call_addNode (hr : Represents h rest w s graphs) {p : ℕ} {v : GraphVal}
    (hv : s.graphs p = some v) {j : ℤ} (hj : typeWord j < v.nodesN) (ty value : ℤ) :
    (w.Starves h (.addNode p (.int j) (.int ty) (.int value))
        ∧ w.call h (.addNode p (.int j) (.int ty) (.int value))
          = .error (.py (.fault .nullDeref)))
      ∨ (¬ w.Starves h (.addNode p (.int j) (.int ty) (.int value))
        ∧ Answered h rest w s (.addNode p (.int j) (.int ty) (.int value))) := by
  obtain ⟨-, hnodes, -⟩ := hr.header hv
  have hcall : w.perform h (.addNode p (.int j) (.int ty) (.int value))
      = (Bindings.onMemory w (Bindings.call (addNode w.mem p (typeWord j) (typeWord ty)
        (typeWord value))) >>= fun w => return (w, .none)) := rfl
  obtain ⟨g, others, rfl, rfl, hl, hshows⟩ := hr.focus hv
  by_cases hnone : g.val.nodes = none
  · refine Or.inl ⟨hnodes.mpr hnone, ?_⟩
    refine World.call_of_fault ?_
    rw [hcall, addNode_starved hl List.mem_cons_self hnone]
    rfl
  · refine Or.inr ⟨mt hnodes.mp hnone, ?_⟩
    obtain ⟨mem, hok, hl'⟩ := addNode_ledger hl hnone hj (nodeWords_lt ty value)
    refine ⟨_, .none, _, _, World.call_of_ok ?_, .addNode hv hj hnone, .unfocus hl' hshows⟩
    rw [hcall, hok, ← hr.written_eq]
    rfl

/-- A call that writes texts only. -/
theorem Represents.write (hr : Represents h rest w s graphs) (lines : List (ℕ × String)) :
    Represents h rest { w with written := w.written ++ lines } (s.write lines) graphs :=
  ⟨hr.ledger, hr.graphs_eq, congrArg (· ++ lines) hr.written_eq⟩

/-- `print_graph` on a graph of the store. -/
theorem Represents.printGraph (hr : Represents h rest w s graphs) {p : ℕ} {v : GraphVal}
    (hv : s.graphs p = some v) (hlt : v.edgesN < 2 ^ 31) :
    (LacksEdges w.mem p ∧ printGraph h w p = .error (.py (.fault .nullDeref)))
      ∨ (¬ LacksEdges w.mem p ∧ v.Printable
        ∧ Arboql.printGraph h w p
          = .ok { w with written := w.written ++ printedLines h v }) := by
  obtain ⟨-, -, hlacks⟩ := hr.header hv
  obtain ⟨g, others, rfl, rfl, hl, -⟩ := hr.focus hv
  -- what stands in the way is an edge without an array
  by_cases hbad : g.val.edges = none ∧ 0 < g.val.edgesN
  · exact Or.inl ⟨hlacks.mpr hbad, printGraph_null hl List.mem_cons_self hbad.1 hbad.2⟩
  · have hprint : g.val.Printable :=
      ⟨hlt, fun hnone => Nat.eq_zero_of_not_pos fun hpos => hbad ⟨hnone, hpos⟩⟩
    exact Or.inr ⟨mt hlacks.mp hbad, hprint, printGraph_eq hl List.mem_cons_self hprint⟩

theorem call_printGraph (hr : Represents h rest w s graphs) {p : ℕ} {v : GraphVal}
    (hv : s.graphs p = some v) (hlt : v.edgesN < 2 ^ 31) (current indent : ℤ) :
    (w.Starves h (.printGraph p (.int current) (.int indent))
        ∧ w.call h (.printGraph p (.int current) (.int indent))
          = .error (.py (.fault .nullDeref)))
      ∨ (¬ w.Starves h (.printGraph p (.int current) (.int indent))
        ∧ Answered h rest w s (.printGraph p (.int current) (.int indent))) := by
  have hcall : w.perform h (.printGraph p (.int current) (.int indent))
      = (printGraph h w p >>= fun w => return (w, .none)) := rfl
  rcases hr.printGraph hv hlt with ⟨hlacks, herr⟩ | ⟨hnot, hprint, hok⟩
  · refine Or.inl ⟨hlacks, ?_⟩
    refine World.call_of_fault ?_
    rw [hcall, herr]
    rfl
  · refine Or.inr ⟨hnot, _, .none, _, graphs, World.call_of_ok ?_, .printGraph hv hprint,
      hr.write _⟩
    rw [hcall, hok]
    rfl

/-- `match` prints one graph and then the other. -/
theorem World.perform_matchGraphs (p q : ℕ) :
    w.perform h (.matchGraphs p q) = (printGraph h w p >>= fun w =>
      printGraph h w q >>= fun w => return (w, .status 42)) := by
  change (matchGraphs h w p q >>= _) = _
  unfold matchGraphs
  rw [bind_assoc]
  refine bind_congr fun w => ?_
  rw [bind_assoc]
  rfl

theorem call_matchGraphs (hr : Represents h rest w s graphs) {p q : ℕ} {v u : GraphVal}
    (hv : s.graphs p = some v) (hu : s.graphs q = some u) (hlt : v.edgesN < 2 ^ 31)
    (hlt' : u.edgesN < 2 ^ 31) :
    (w.Starves h (.matchGraphs p q)
        ∧ w.call h (.matchGraphs p q) = .error (.py (.fault .nullDeref)))
      ∨ (¬ w.Starves h (.matchGraphs p q) ∧ Answered h rest w s (.matchGraphs p q)) := by
  have hcall : w.perform h (.matchGraphs p q) = _ := World.perform_matchGraphs p q
  rcases hr.printGraph hv hlt with ⟨hlacks, herr⟩ | ⟨hnot, hprint, hok⟩
  · refine Or.inl ⟨Or.inl hlacks, ?_⟩
    refine World.call_of_fault ?_
    rw [hcall, herr]
    rfl
  · -- the first graph is printed, and memory is as before
    have hfirst : w.perform h (.matchGraphs p q)
        = (printGraph h { w with written := w.written ++ printedLines h v } q >>= fun w =>
          return (w, .status 42)) := by
      rw [hcall, hok]
      rfl
    rcases (hr.write (printedLines h v)).printGraph hu hlt' with
      ⟨hlacks, herr⟩ | ⟨hnot', hprint', hok'⟩
    · refine Or.inl ⟨Or.inr hlacks, World.call_of_fault ?_⟩
      rw [hfirst, herr]
      rfl
    · refine Or.inr ⟨not_or.mpr ⟨hnot, hnot'⟩, _, .status 42, _, graphs, World.call_of_ok ?_,
        .matchGraphs hv hu hprint hprint', hr.write _⟩
      rw [hfirst, hok', ← List.append_assoc]
      rfl

theorem call_setLogLevel (hr : Represents h rest w s graphs) (z : ℤ) :
    Answered h rest w s (.setLogLevel (.int z)) := by
  obtain ⟨mem, hok, hl⟩ := setLogLevel_eq hr.ledger (typeWord_lt z)
  refine ⟨{ w with mem }, .none, _, graphs, World.call_of_ok ?_, .setLogLevel,
    ⟨hl, hr.graphs_eq, hr.written_eq⟩⟩
  change (setLogLevel w h.staticLogger (typeWord z) >>= fun w => Except.ok (w, ApiResult.none)) = _
  rw [hok]
  rfl

/-- **One call refines one step of the store.** If `malloc` has refused memory that the
call needs, it makes an invalid access; otherwise it is answered. -/
theorem World.call_refines (hr : Represents h rest w s graphs) {c : ApiCall}
    (hc : s.held.Allows c) :
    (¬ c.BadArgument ∧ w.Starves h c ∧ w.call h c = .error (.py (.fault .nullDeref)))
      ∨ ((c.BadArgument ∨ ¬ w.Starves h c) ∧ Answered h rest w s c) := by
  by_cases hbad : c.BadArgument
  · exact Or.inr ⟨Or.inl hbad, w, .argumentError, s, graphs, call_badArgument hbad,
      .argumentError hbad, hr⟩
  · have hint : ∀ a ∈ c.args, ∃ z, a = .int z := fun a ha => ApiCall.int_of_not_badArgument hbad ha
    -- one case for each function of the package
    have hsplit : (w.Starves h c ∧ w.call h c = .error (.py (.fault .nullDeref)))
        ∨ (¬ w.Starves h c ∧ Answered h rest w s c) := by
      cases c with
      | mallocGraph nodesN edgesN =>
        obtain ⟨nodesN, rfl⟩ := hint nodesN (by simp [ApiCall.args])
        obtain ⟨edgesN, rfl⟩ := hint edgesN (by simp [ApiCall.args])
        exact call_mallocGraph hr nodesN edgesN
      | freeGraph p =>
        obtain ⟨counts, hp⟩ := hc
        obtain ⟨v, hv, -⟩ := Store.held_eq_some hp
        exact Or.inr ⟨fun hs => hs, call_freeGraph hr hv⟩
      | addEdge p edgeId source target ty value =>
        obtain ⟨i, rfl⟩ := hint edgeId (by simp [ApiCall.args])
        obtain ⟨source, rfl⟩ := hint source (by simp [ApiCall.args])
        obtain ⟨target, rfl⟩ := hint target (by simp [ApiCall.args])
        obtain ⟨ty, rfl⟩ := hint ty (by simp [ApiCall.args])
        obtain ⟨value, rfl⟩ := hint value (by simp [ApiCall.args])
        obtain ⟨counts, hp, hi⟩ := hc
        obtain ⟨v, hv, rfl⟩ := Store.held_eq_some hp
        exact call_addEdge hr hv (hi i rfl) source target ty value
      | addNode p nodeId ty value =>
        obtain ⟨j, rfl⟩ := hint nodeId (by simp [ApiCall.args])
        obtain ⟨ty, rfl⟩ := hint ty (by simp [ApiCall.args])
        obtain ⟨value, rfl⟩ := hint value (by simp [ApiCall.args])
        obtain ⟨counts, hp, hj⟩ := hc
        obtain ⟨v, hv, rfl⟩ := Store.held_eq_some hp
        exact call_addNode hr hv (hj j rfl) ty value
      | printGraph p current indent =>
        obtain ⟨current, rfl⟩ := hint current (by simp [ApiCall.args])
        obtain ⟨indent, rfl⟩ := hint indent (by simp [ApiCall.args])
        obtain ⟨counts, hp, hlt⟩ := hc
        obtain ⟨v, hv, rfl⟩ := Store.held_eq_some hp
        exact call_printGraph hr hv hlt current indent
      | matchGraphs p q =>
        obtain ⟨⟨counts, hp, hlt⟩, counts', hq, hlt'⟩ := hc
        obtain ⟨v, hv, rfl⟩ := Store.held_eq_some hp
        obtain ⟨u, hu, rfl⟩ := Store.held_eq_some hq
        exact call_matchGraphs hr hv hu hlt hlt'
      | setLogLevel level =>
        obtain ⟨z, rfl⟩ := hint level (by simp [ApiCall.args])
        exact Or.inr ⟨fun hs => hs, call_setLogLevel hr z⟩
    rcases hsplit with ⟨hs, herr⟩ | ⟨hs, hok⟩
    · exact Or.inl ⟨hbad, hs, herr⟩
    · exact Or.inr ⟨Or.inr hs, hok⟩

/-- **A call that is defined** is a step of the store. -/
theorem Represents.step_of_call (hr : Represents h rest w s graphs) {c : ApiCall} {w' : World}
    {res : ApiResult} (hc : s.held.Allows c) (hcall : w.call h c = .ok (w', res)) :
    ∃ s' graphs', Store.Step h s (c, res) s' ∧ Represents h rest w' s' graphs' := by
  rcases World.call_refines hr hc with
    ⟨-, -, herr⟩ | ⟨-, w₁, res₁, s', graphs', hok, hstep, hr'⟩
  · -- the call is defined, so it made no invalid access
    rw [hcall] at herr
    cases herr
  · obtain ⟨rfl, rfl⟩ := Prod.mk.inj (Except.ok.inj (hcall.symm.trans hok))
    exact ⟨s', graphs', hstep, hr'⟩

end OneCall

/-! ### Loading -/

/-- The memory of the process apart from the logger. -/
def restOf (h : Host) (m : Memory) : Memory :=
  { m with blocks := m.blocks.erase (h.staticLogger, LoggerH.Logger.size) }

/-- **A process before the package is loaded**: its blocks do not overlap, and
`static_logger` is one of them. -/
structure Loadable (h : Host) (m : Memory) : Prop where
  wellFormed : WellFormed m.blocks
  logger : (h.staticLogger, LoggerH.Logger.size) ∈ m.blocks

section Loading

variable {h : Host} {m : Memory} {w : World}

/-- An assignment to a member of `static_logger`. -/
theorem setLogger_eq {member : String} {off width v : ℕ} {signed : Bool}
    (hin : w.mem.InBlock h.staticLogger 32)
    (hloc : LoggerH.Logger.locate [member] = some (off, .int width signed))
    (hoff : off + width ≤ 32) :
    w.setLogger h.staticLogger member v
      = .ok { w with mem := { w.mem with
          bytes := writeLE w.mem.bytes (h.staticLogger + off) width v } } := by
  unfold World.setLogger
  rw [Memory.store_eq hloc h.staticLogger_ne (hin.sub (by omega) (by omega))]
  rfl

/-- The bytes after the assignments of `init_logger`. -/
def loggerBytes (h : Host) (bytes : ℕ → UInt8) : ℕ → UInt8 :=
  let bytes := writeLE bytes (h.staticLogger + 4) 4 1
  let bytes := writeLE bytes (h.staticLogger + 0) 4 LoggerH.INFO
  let bytes := writeLE bytes (h.staticLogger + 8) 8 h.stdout
  let bytes := writeLE bytes (h.staticLogger + 16) 8 h.stdout
  writeLE bytes (h.staticLogger + 24) 8 h.stderr

theorem loggerBytes_holds (h : Host) (bytes : ℕ → UInt8) :
    LoggerHolds h LoggerH.INFO (loggerBytes h bytes) := by
  obtain ⟨hout, herr⟩ := h.streams_lt
  -- each member is read from under the writes to the others
  constructor
  case logLevel =>
    rw [loggerBytes, readLE_writeLE_of_disjoint (by omega), readLE_writeLE_of_disjoint (by omega),
      readLE_writeLE_of_disjoint (by omega)]
    exact readLE_writeLE_self
  case printLocation =>
    rw [loggerBytes, readLE_writeLE_of_disjoint (by omega), readLE_writeLE_of_disjoint (by omega),
      readLE_writeLE_of_disjoint (by omega), readLE_writeLE_of_disjoint (by omega),
      readLE_writeLE_self]
    rfl
  case infoOutput =>
    rw [loggerBytes, readLE_writeLE_of_disjoint (by omega), readLE_writeLE_of_disjoint (by omega),
      readLE_writeLE_self, Nat.mod_eq_of_lt (by omega)]
  case debugOutput =>
    rw [loggerBytes, readLE_writeLE_of_disjoint (by omega), readLE_writeLE_self,
      Nat.mod_eq_of_lt (by omega)]
  case errorOutput =>
    rw [loggerBytes, readLE_writeLE_self, Nat.mod_eq_of_lt (by omega)]

theorem loggerBytes_of_outside {bytes : ℕ → UInt8} {a : ℕ}
    (ha : a < h.staticLogger ∨ h.staticLogger + 32 ≤ a) : loggerBytes h bytes a = bytes a := by
  rw [loggerBytes, writeLE_of_disjoint (by omega), writeLE_of_disjoint (by omega),
    writeLE_of_disjoint (by omega), writeLE_of_disjoint (by omega), writeLE_of_disjoint (by omega)]

/-- **Loading the package** sets up the logger, which writes its first message. -/
theorem importArboql_represents (hm : Loadable h m) :
    ∃ w, importArboql h m = .ok w ∧ Represents h (restOf h m) w (Store.init h) [] := by
  have hin : m.InBlock h.staticLogger 32 := Memory.inBlock_of_mem hm.logger
  obtain ⟨hlevel, hlocation, hinfo, hdebug, herror, -⟩ := locate_logger
  -- before the assignments the logger is a loose block
  have hloose : Ledger (owned h) m [(h.staticLogger, LoggerH.Logger.size)]
      [.other (restOf h m)] := by
    refine ⟨hm.wellFormed, ?_, List.forall_mem_singleton.mpr fun _ _ _ _ _ => rfl⟩
    rw [List.flatMap_singleton]
    exact List.perm_cons_erase hm.logger
  -- they make it an object
  have hwritten : Ledger (owned h) { m with bytes := loggerBytes h m.bytes } _ _ :=
    hloose.write fun a ha => loggerBytes_of_outside (ha _ (List.mem_singleton_self _))
  have hl : Ledger (owned h) { m with bytes := loggerBytes h m.bytes } []
      (objects LoggerH.INFO (restOf h m) []) :=
    Ledger.pack (o := Owned.logger LoggerH.INFO) hwritten (loggerBytes_holds h m.bytes)
  obtain ⟨-, -, hload, -⟩ := load_logger hl List.mem_cons_self
  have hset : ∀ (bytes : ℕ → UInt8) (member : String) (off width v : ℕ) (signed : Bool),
      LoggerH.Logger.locate [member] = some (off, .int width signed) → off + width ≤ 32 →
      World.setLogger ⟨{ m with bytes }, []⟩ h.staticLogger member v
        = .ok ⟨{ m with bytes := writeLE bytes (h.staticLogger + off) width v }, []⟩ :=
    fun bytes member off width v signed hloc hoff =>
      setLogger_eq (w := ⟨{ m with bytes }, []⟩) hin hloc hoff
  refine ⟨⟨{ m with bytes := loggerBytes h m.bytes }, (Store.init h).written⟩, ?_,
    ⟨hl, fun p v => ?_, rfl⟩⟩
  · change initLogger h ⟨{ m with bytes := m.bytes }, []⟩ h.staticLogger = _
    simp only [initLogger, if_neg h.staticLogger_ne, bind, Except.bind,
      hset _ _ _ _ _ _ hlocation (by omega), hset _ _ _ _ _ _ hlevel (by omega),
      hset _ _ _ _ _ _ hinfo (by omega), hset _ _ _ _ _ _ hdebug (by omega),
      hset _ _ _ _ _ _ herror (by omega)]
    exact logAt_eq (w := ⟨_, []⟩) hl List.mem_cons_self h.stdout_ne hload h.loggerFile 49 _
  · constructor
    · intro hv
      cases hv
    · rintro ⟨g, hg, -⟩
      exact absurd hg List.not_mem_nil

end Loading

end Arboql
