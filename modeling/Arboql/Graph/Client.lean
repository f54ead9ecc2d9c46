import Arboql.Graph.Output

/-!
# `create_graph` as a client

`create_graph` in a world with output, which is what `test.py` calls. It is a client that
keeps to the protocol: one call of `malloc_graph`, and then a call for each slot with the
handle that it got (`Session.create`). So what holds of sessions holds of programs that
create graphs this way.

The program of `test.py` is followed to its end for any two graphs: `match` prints the
pairs of both dictionaries in iteration order, and since the program frees the graph but
not the pattern, the blocks of the pattern are what is left in memory
(`Session.create_match_free`).
-/

namespace Arboql

open CLayout OrderedDict Simulation Loops
open Bindings (PyArg typeWord)

/-- `create_graph`, with the message of `malloc_graph`. -/
def createGraphLogged (h : Host) (w : World) (nodes : OrderedDict ℕ (ℕ × ℕ))
    (edges : OrderedDict ℕ (List PyArg)) : Except Abort (World × ℕ) := do
  let (w, graph) ← Bindings.mallocGraphLogged h w (.int nodes.length) (.int (countTargets edges))
  let w ← Bindings.onMemory w (fillNodes w.mem graph nodes.items)
  let w ← Bindings.onMemory w ((fillEdges graph edges edges.keys (w.mem, 0)).map Prod.fst)
  return (w, graph)

/-- A call on a graph as a call of the package. -/
def GraphCall.api (graph : ℕ) : GraphCall → ApiCall
  | .addEdge i e =>
    .addEdge graph (.int i) (.int e.source) (.int e.target) (.int e.attributeType)
      (.int e.attributeValue)
  | .addNode j a => .addNode graph (.int j) (.int a.attributeType) (.int a.attributeValue)

/-- Calls on one graph, with their results. -/
def apiEvents (graph : ℕ) (calls : List GraphCall) : List (ApiCall × ApiResult) :=
  calls.map fun c => (c.api graph, .none)

theorem apiEvents_append (graph : ℕ) (calls calls' : List GraphCall) :
    apiEvents graph (calls ++ calls') = apiEvents graph calls ++ apiEvents graph calls' :=
  List.map_append

/-- The calls that `create_graph` makes, with their results. -/
def createEvents (nodes : OrderedDict ℕ (ℕ × ℕ)) (edges : OrderedDict ℕ (List ℕ)) (graph : ℕ) :
    List (ApiCall × ApiResult) :=
  (.mallocGraph (.int nodes.length) (.int edges.pairs.length), .handle graph)
    :: apiEvents graph (fillCalls nodes edges)

section Create

variable {h : Host} {m : Memory} {es : List (ApiCall × ApiResult)} {w w' : World}
  {nodes : OrderedDict ℕ (ℕ × ℕ)} {edges : OrderedDict ℕ (List ℕ)} {graph : ℕ}

/-- **`create_graph` is an allocation and a run of calls**, in a world with output. -/
theorem createGraphLogged_ok
    (hok : createGraphLogged h w nodes (intEdges edges) = .ok (w', graph)) :
    ∃ w₀ mem, Bindings.mallocGraphLogged h w (.int nodes.length) (.int edges.pairs.length)
        = .ok (w₀, graph)
      ∧ runCalls w₀.mem graph (fillCalls nodes edges) = .ok mem ∧ w' = { w₀ with mem } := by
  obtain ⟨⟨w₀, g⟩, hmalloc, hok⟩ := bind_eq_ok_iff.mp hok
  obtain ⟨w₁, hnodes, hok⟩ := bind_eq_ok_iff.mp hok
  obtain ⟨w₂, hedges, hok⟩ := bind_eq_ok_iff.mp hok
  obtain ⟨rfl, rfl⟩ := Prod.mk.inj (Except.ok.inj hok)
  rw [countTargets_int] at hmalloc
  obtain ⟨mem₁, hfirst, rfl⟩ := onMemory_ok_iff.mp hnodes
  obtain ⟨mem₂, hsecond, rfl⟩ := onMemory_ok_iff.mp hedges
  refine ⟨w₀, mem₂, hmalloc, ?_, rfl⟩
  -- the loop over the edges goes on where the loop over the nodes ends
  have hkeys : (intEdges edges).keys = edges.keys := keys_mapValues _ _
  have hpairs : pairsOf edges edges.keys = edges.pairs := (pairs_eq_flatMap_keys edges).symm
  rw [hkeys, fillEdges_int, hpairs] at hsecond
  rw [fillNodes_eq] at hfirst
  rw [fillCalls, runCalls_append, hfirst]
  change runCalls mem₁ g (edgeCalls 0 edges.pairs) = .ok mem₂
  cases hrun : runCalls mem₁ g (edgeCalls 0 edges.pairs) with
  | error e =>
    rw [hrun] at hsecond
    cases hsecond
  | ok mem =>
    rw [hrun] at hsecond
    exact hsecond

/-! ### The calls keep to the protocol -/

/-- One call more. -/
theorem Session.snoc (hs : Session h m es w) {c : ApiCall} {res : ApiResult}
    (hc : (heldAfter es).Allows c) (hcall : w.call h c = .ok (w', res)) :
    Session h m (es ++ [(c, res)]) w' := by
  obtain ⟨w₀, himport, hrun⟩ := hs.run
  exact ⟨hs.loadable, obeys_snoc.mpr ⟨hs.protocol, hc⟩, w₀, himport, hrun.snoc hcall⟩

/-- A call on a graph that makes no invalid access is a call of the package. -/
theorem call_api {c : GraphCall} {mem : Memory} (hc : c.perform w.mem graph = .ok mem) :
    w.call h (c.api graph) = .ok ({ w with mem }, .none) := by
  refine World.call_of_ok ?_
  cases c with
  | addEdge i e =>
    change (Bindings.onMemory w (GraphCall.perform w.mem graph (.addEdge i e)) >>= _) = _
    rw [hc]
    rfl
  | addNode j a =>
    change (Bindings.onMemory w (GraphCall.perform w.mem graph (.addNode j a)) >>= _) = _
    rw [hc]
    rfl

/-- A number in range arrives as it is. -/
theorem typeWord_natCast {n : ℕ} (hn : n < 2 ^ 32) : typeWord n = n := by
  unfold typeWord
  omega

/-- A call in range is allowed on a graph that is held. -/
theorem allows_api {c : GraphCall} {held : Held} {nodesN edgesN : ℕ}
    (hheld : held graph = some (nodesN, edgesN)) (hn : nodesN < 2 ^ 32) (he : edgesN < 2 ^ 32)
    (hc : c.InRange nodesN edgesN) : held.Allows (c.api graph) := by
  cases c with
  | addEdge i e =>
    refine ⟨_, hheld, fun z hz => ?_⟩
    obtain rfl := Bindings.PyArg.int.inj hz
    rw [typeWord_natCast (hc.1.trans he)]
    exact hc.1
  | addNode j a =>
    refine ⟨_, hheld, fun z hz => ?_⟩
    obtain rfl := Bindings.PyArg.int.inj hz
    rw [typeWord_natCast (hc.1.trans hn)]
    exact hc.1

/-- A call on a graph changes nothing that is held. -/
theorem Held.next_api (held : Held) (c : GraphCall) (res : ApiResult) :
    held.next (c.api graph, res) = held := by
  cases c <;> rfl

/-- A run of calls on a graph that is held. -/
theorem Session.runCalls (hs : Session h m es w) {nodesN edgesN : ℕ}
    (hheld : heldAfter es graph = some (nodesN, edgesN)) (hn : nodesN < 2 ^ 32)
    (he : edgesN < 2 ^ 32) {calls : List GraphCall} (hcalls : ∀ c ∈ calls, c.InRange nodesN edgesN)
    {mem : Memory} (hrun : Arboql.runCalls w.mem graph calls = .ok mem) :
    Session h m (es ++ apiEvents graph calls) { w with mem }
      ∧ heldAfter (es ++ apiEvents graph calls) = heldAfter es := by
  induction calls using List.reverseRecOn generalizing mem with
  | nil =>
    obtain rfl := Except.ok.inj hrun
    exact ⟨(List.append_nil es).symm ▸ hs, congrArg _ (List.append_nil es)⟩
  | append_singleton calls c ih =>
    obtain ⟨mem₁, hpre, hlast⟩ := runCalls_concat_ok_iff.mp hrun
    obtain ⟨hsession, hsame⟩ := ih (fun c hc => hcalls c (List.mem_append_left _ hc)) hpre
    rw [apiEvents_append, ← List.append_assoc]
    have hallowed : (heldAfter (es ++ apiEvents graph calls)).Allows (c.api graph) := by
      rw [hsame]
      exact allows_api hheld hn he (hcalls c (by simp))
    constructor
    · exact hsession.snoc hallowed (call_api (w := { w with mem := mem₁ }) hlast)
    · change heldAfter (_ ++ [_]) = _
      rw [heldAfter_snoc, Held.next_api, hsame]

/-- **The dictionaries describe a graph with `n` nodes**: its nodes are the numbers below
`n`, in any order, its edges can be counted by an `int`, and values and ids fit. -/
structure Describes (n : ℕ) (nodes : OrderedDict ℕ (ℕ × ℕ)) (edges : OrderedDict ℕ (List ℕ)) :
    Prop where
  keys : nodes.keys.Perm (List.range n)
  nodesN_lt : n < 2 ^ 32
  edgesN_lt : edges.pairs.length < 2 ^ 31
  values : ∀ i ty v, nodes.get? i = some (ty, v) → v < 2 ^ 32
  ids : ∀ source target, (source, target) ∈ edges.pairs → source < 2 ^ 32 ∧ target < 2 ^ 32

theorem Describes.edgesN_lt' {n : ℕ} (hd : Describes n nodes edges) :
    edges.pairs.length < 2 ^ 32 :=
  hd.edgesN_lt.trans (by decide)

/-- **A graph is allocated**, and held from then on. -/
theorem Session.malloc (hs : Session h m es w) {n e : ℕ} (hn : n < 2 ^ 32) (he : e < 2 ^ 32)
    (hok : Bindings.mallocGraphLogged h w (.int n) (.int e) = .ok (w', graph)) :
    Session h m (es ++ [(.mallocGraph (.int n) (.int e), .handle graph)]) w'
      ∧ heldAfter (es ++ [(.mallocGraph (.int n) (.int e), .handle graph)])
        = Function.update (heldAfter es) graph (some (n, e)) := by
  have hcall : w.call h (.mallocGraph (.int n) (.int e)) = .ok (w', .handle graph) := by
    refine World.call_of_ok ?_
    change (Bindings.mallocGraphLogged h w _ _ >>= _) = _
    rw [hok]
    rfl
  refine ⟨hs.snoc (show (heldAfter es).Allows (.mallocGraph _ _) from trivial) hcall, ?_⟩
  rw [heldAfter_snoc]
  change Function.update (heldAfter es) graph (some (typeWord (n : ℤ), typeWord (e : ℤ))) = _
  rw [typeWord_natCast hn, typeWord_natCast he]

/-- **`create_graph` keeps to the protocol.** -/
theorem Session.create (hs : Session h m es w) {n : ℕ} (hd : Describes n nodes edges)
    (hok : createGraphLogged h w nodes (intEdges edges) = .ok (w', graph)) :
    Session h m (es ++ createEvents nodes edges graph) w'
      ∧ heldAfter (es ++ createEvents nodes edges graph)
        = Function.update (heldAfter es) graph (some (n, edges.pairs.length)) := by
  obtain rfl := length_of_keys hd.keys
  obtain ⟨w₀, mem, hmalloc, hrun, rfl⟩ := createGraphLogged_ok hok
  obtain ⟨hfirst, hheld⟩ := hs.malloc hd.nodesN_lt hd.edgesN_lt' hmalloc
  have hcounts := congrFun hheld graph
  rw [Function.update_self] at hcounts
  obtain ⟨hsession, hsame⟩ := hfirst.runCalls hcounts hd.nodesN_lt hd.edgesN_lt'
    (fillCalls_inRange hd.keys hd.values hd.ids) hrun
  rw [List.append_assoc] at hsession hsame
  exact ⟨hsession, hsame.trans hheld⟩

end Create

/-! ### What is created

On the side of the store, where a call changes the value at one handle. -/

section Created

variable {h : Host} {s s' : Store} {p : ℕ}

/-- Calls on a graph leave the other graphs alone. -/
theorem changes_of_mem_apiEvents {calls : List GraphCall} {e : ApiCall × ApiResult} {q : ℕ}
    (he : e ∈ apiEvents p calls) (hq : e.1.Changes q) : p = q := by
  obtain ⟨c, -, rfl⟩ := List.mem_map.mp he
  cases c with
  | addEdge i a => exact hq
  | addNode j a => exact hq

/-- A run leaves a graph alone that none of its calls is about. -/
theorem graphs_eq_of_run {es : List (ApiCall × ApiResult)} {q : ℕ} {v : GraphVal}
    (hrun : Run (Store.Step h) s es s') (hes : ∀ e ∈ es, ¬ e.1.Changes q)
    (hv : s.graphs q = some v) : s'.graphs q = some v := by
  induction hrun with
  | nil => exact hv
  | snoc _ he ih =>
    rw [List.forall_mem_append, List.forall_mem_singleton] at hes
    exact Store.Step.graphs_eq he (ih hes.1) hes.2

/-- Calls on a graph allocate and free nothing. -/
theorem held_of_run {calls : List GraphCall} (hrun : Run (Store.Step h) s (apiEvents p calls) s') :
    s'.held = s.held := by
  induction calls using List.reverseRecOn generalizing s' with
  | nil => rw [hrun.eq_of_nil]
  | append_singleton calls c ih =>
    rw [apiEvents_append] at hrun
    obtain ⟨s₁, hfirst, hlast⟩ := hrun.unsnoc
    rw [hlast.held_eq, Held.next_api, ih hfirst]

theorem GraphVal.pairs_setEdge (v : GraphVal) (i : ℕ) (e : EdgeWords) :
    (v.setEdge i e).pairs = v.pairs.set i (e.source, e.target) := by
  unfold pairs
  cases hslots : v.edges with
  | none => simp [setEdge, hslots]
  | some slots => simp [setEdge, hslots, List.map_set]

theorem GraphVal.length_pairs_of_edges {v : GraphVal} (hedges : v.edges ≠ none) :
    v.pairs.length = v.edgesN := by
  obtain ⟨slots, hslots⟩ := Option.ne_none_iff_exists'.mp hedges
  unfold pairs
  rw [hslots, Option.getD_some, List.length_map]
  exact v.edges_length slots hslots

/-- **The calls for the edges** write them into the first slots, in order. -/
theorem edges_of_run {pairs : List (ℕ × ℕ)} {v : GraphVal} (hlen : pairs.length < 2 ^ 32)
    (hids : ∀ source target, (source, target) ∈ pairs → source < 2 ^ 32 ∧ target < 2 ^ 32)
    (hv : s.graphs p = some v) (hrun : Run (Store.Step h) s (apiEvents p (edgeCalls 0 pairs)) s') :
    ∃ v', s'.graphs p = some v' ∧ pairs <+: v'.pairs := by
  induction pairs using List.reverseRecOn generalizing s' with
  | nil =>
    rw [hrun.eq_of_nil]
    exact ⟨v, hv, List.nil_prefix⟩
  | append_singleton pairs e ih =>
    rw [List.length_append, List.length_singleton] at hlen
    rw [edgeCalls_append, apiEvents_append, Nat.zero_add] at hrun
    obtain ⟨s₁, hfirst, hlast⟩ := hrun.unsnoc
    obtain ⟨v₁, hv₁, tail, htail⟩ := ih (by omega)
      (fun source target hmem => hids source target (List.mem_append_left _ hmem)) hfirst
    have hstep : Store.Step h s₁ (.addEdge p (.int pairs.length) (.int e.1) (.int e.2)
        (.int ATTR_UNSIGNED) (.int e.2), .none) s' := hlast
    obtain ⟨hsource, htarget⟩ := hids e.1 e.2 (by simp)
    cases hstep with
    | addEdge hu hi hedges =>
      obtain rfl := Option.some.inj (hv₁.symm.trans hu)
      rw [typeWord_natCast (Nat.lt_of_succ_lt hlen)] at hi ⊢
      refine ⟨_, Function.update_self _ _ _, ?_⟩
      rw [GraphVal.pairs_setEdge, typeWord_natCast hsource, typeWord_natCast htarget, ← htail]
      -- the slot is the first one after the pairs
      cases tail with
      | nil =>
        rw [← GraphVal.length_pairs_of_edges hedges, ← htail, List.append_nil] at hi
        exact absurd hi (lt_irrefl _)
      | cons x tail =>
        rw [List.set_append_right _ _ (le_refl _), Nat.sub_self]
        exact ⟨tail, by simp⟩

/-- **What `create_graph` makes.** A new graph whose edges are the pairs of the
dictionary; the other graphs are left alone. -/
theorem created_of_run {n : ℕ} {nodes : OrderedDict ℕ (ℕ × ℕ)} {edges : OrderedDict ℕ (List ℕ)}
    (hd : Describes n nodes edges)
    (hrun : Run (Store.Step h) s (createEvents nodes edges p) s') :
    s.graphs p = none
      ∧ (∃ v, s'.graphs p = some v ∧ v.edgesN = edges.pairs.length ∧ v.pairs = edges.pairs
        ∧ v.Printable)
      ∧ ∀ q v, s.graphs q = some v → s'.graphs q = some v := by
  obtain ⟨s₁, hmalloc, hcalls⟩ := hrun.uncons
  obtain ⟨s₂, hnodes, hedges⟩ : ∃ s₂, Run (Store.Step h) s₁ (apiEvents p (nodeCalls nodes)) s₂
      ∧ Run (Store.Step h) s₂ (apiEvents p (edgeCalls 0 edges.pairs)) s' := by
    rw [fillCalls, apiEvents_append] at hcalls
    exact hcalls.split
  cases hmalloc with
  | @mallocGraph _ _ _ v hp hfresh hn he =>
    refine ⟨hfresh, ?_, fun q u hu => ?_⟩
    · -- the counts are those of the allocation to the end
      have hheld := held_of_run hcalls
      have hcounts : s'.held p = some (v.nodesN, v.edgesN) := by
        rw [hheld]
        exact Store.held_eq (Function.update_self _ _ _)
      rw [typeWord_natCast hd.edgesN_lt'] at he
      have hmiddle : s₂.held p = some (v.nodesN, v.edgesN) := by
        rw [held_of_run hnodes]
        exact Store.held_eq (Function.update_self _ _ _)
      obtain ⟨u, hu, -⟩ := Store.held_eq_some hmiddle
      obtain ⟨v', hv', hprefix⟩ := edges_of_run hd.edgesN_lt' hd.ids hu hedges
      have hedgesN : v'.edgesN = edges.pairs.length := by
        rw [Store.held_eq hv', Option.some.injEq, Prod.mk.injEq] at hcounts
        exact hcounts.2.trans he
      have hle : v'.pairs.length ≤ v'.edgesN := by
        by_cases hnone : v'.edges = none
        · simp [GraphVal.pairs, hnone]
        · exact (GraphVal.length_pairs_of_edges hnone).le
      have hpairs : edges.pairs = v'.pairs := hprefix.eq_of_length_le (hedgesN ▸ hle)
      refine ⟨v', hv', hedgesN, hpairs.symm, hedgesN ▸ hd.edgesN_lt, fun hnone => ?_⟩
      rw [hedgesN, hpairs]
      simp [GraphVal.pairs, hnone]
    · -- the handle is not that of another graph
      have hne : p ≠ q := by
        rintro rfl
        rw [hfresh] at hu
        cases hu
      refine graphs_eq_of_run hcalls (fun e he hq => hne (changes_of_mem_apiEvents he hq)) ?_
      exact (Function.update_of_ne hne.symm _ _).trans hu

end Created

/-! ### The program of `test.py` -/

/-- The only graph of a store. -/
theorem Shows.eq_singleton {f : ℕ → Option GraphVal} {graphs : List LiveGraph}
    (hf : Shows f graphs) (hnodup : (graphs.map LiveGraph.addr).Nodup) {p : ℕ} {v : GraphVal}
    (hp : f p = some v) (hother : ∀ q, q ≠ p → f q = none) :
    ∃ g, graphs = [g] ∧ g.addr = p ∧ g.val = v := by
  have haddr : ∀ g ∈ graphs, g.addr = p := by
    intro g hg
    by_contra hne
    have hsome := (hf g.addr g.val).mpr ⟨g, hg, rfl, rfl⟩
    rw [hother _ hne] at hsome
    cases hsome
  obtain ⟨g, hg, hgp, hgv⟩ := (hf p v).mp hp
  match graphs, hnodup, haddr, hg with
  | [g'], _, _, hg =>
    obtain rfl := List.mem_singleton.mp hg
    exact ⟨g, rfl, hgp, hgv⟩
  | g₁ :: g₂ :: rest, hnodup, haddr, _ =>
    have hsame : g₁.addr = g₂.addr :=
      (haddr g₁ (by simp)).trans (haddr g₂ (by simp)).symm
    simp [hsame] at hnodup

/-- **Two graphs are created, matched, and the first is freed.** If the memory for them
is there, `match` returns 42 and prints the pairs of both dictionaries; and then, as the
pattern is never freed, its blocks are all that is left in memory. -/
theorem Session.create_match_free {h : Host} {m : Memory} {es : List (ApiCall × ApiResult)}
    {w w₁ w₂ : World} (hs : Session h m es w) (hnone : ∀ p, heldAfter es p = none)
    {nodes nodes' : OrderedDict ℕ (ℕ × ℕ)} {edges edges' : OrderedDict ℕ (List ℕ)} {n n' : ℕ}
    (hd : Describes n nodes edges) (hd' : Describes n' nodes' edges') {graph pattern : ℕ}
    (hgraph : createGraphLogged h w nodes (intEdges edges) = .ok (w₁, graph))
    (hpattern : createGraphLogged h w₁ nodes' (intEdges edges') = .ok (w₂, pattern)) :
    ∃ w₃ w₄ lines edgesPtr nodesPtr,
      w₂.call h (.matchGraphs graph pattern) = .ok (w₃, .status 42)
        ∧ w₃.written = w₂.written ++ lines
        ∧ readTrees (textOf lines) = ([edges.pairs, edges'.pairs], [])
        ∧ w₃.call h (.freeGraph graph) = .ok (w₄, .none)
        ∧ w₄.mem.blocks.Perm (m.blocks ++ (pattern, 24) ::
          (arrayBlock edgesPtr (16 * edges'.pairs.length) ++ arrayBlock nodesPtr (8 * n'))) := by
  obtain ⟨hs₁, hheld₁⟩ := hs.create hd hgraph
  obtain ⟨hs₂, hheld₂⟩ := hs₁.create hd' hpattern
  rw [hheld₁] at hheld₂
  -- the store that the world represents, and the graphs that it holds
  obtain ⟨s₂, graphs, hrun, hr, hheld⟩ := hs₂.represents
  obtain ⟨s₁, hbefore, hsecond⟩ := hrun.split
  obtain ⟨s₀, -, hfirst⟩ := hbefore.split
  obtain ⟨-, ⟨v, hv₁, hvN, hvpairs, hvprint⟩, -⟩ := created_of_run hd hfirst
  obtain ⟨hfresh, ⟨u, hu, huN, hupairs, huprint⟩, hkeep⟩ := created_of_run hd' hsecond
  have hv : s₂.graphs graph = some v := hkeep _ _ hv₁
  have hne : pattern ≠ graph := by
    rintro rfl
    rw [hfresh] at hv₁
    cases hv₁
  have hunodes : u.nodesN = n' := by
    have hcounts := congrFun hheld pattern
    rw [hheld₂, Function.update_self, Store.held_eq hu, Option.some.injEq, Prod.mk.injEq] at hcounts
    exact hcounts.1
  -- both graphs can be printed, so `match` is defined
  have hlacks : ∀ {p : ℕ} {v : GraphVal}, s₂.graphs p = some v → v.Printable →
      ¬ LacksEdges w₂.mem p := by
    intro p v hv hprint hlacks
    obtain ⟨hedges, hpos⟩ := (hr.header hv).2.2.mp hlacks
    exact absurd (hprint.2 hedges) hpos.ne'
  rcases call_matchGraphs hr hv hu hvprint.1 huprint.1 with
    ⟨hstarves, -⟩ | ⟨-, w₃, res, s₃, graphs₃, hmatch, hstep, hr₃⟩
  · rcases hstarves with hstarves | hstarves
    · exact absurd hstarves (hlacks hv hvprint)
    · exact absurd hstarves (hlacks hu huprint)
  · cases hstep with
    | argumentError hbad =>
      obtain ⟨elems, helems⟩ := hbad
      exact absurd helems List.not_mem_nil
    | @matchGraphs _ _ v' u' hv' hu' _ _ =>
      obtain rfl := Option.some.inj (hv.symm.trans hv')
      obtain rfl := Option.some.inj (hu.symm.trans hu')
      obtain ⟨w₄, res, s₄, graphs₄, hfree, hstep, hr₄⟩ := call_freeGraph hr₃ hv
      cases hstep with
      | argumentError hbad =>
        obtain ⟨elems, helems⟩ := hbad
        exact absurd helems List.not_mem_nil
      | freeGraph hv'' =>
        -- of the two graphs the pattern is left
        have hleft : Function.update s₂.graphs graph none pattern = some u :=
          (Function.update_of_ne hne _ _).trans hu
        have hothers : ∀ q, q ≠ pattern → Function.update s₂.graphs graph none q = none := by
          intro q hq
          by_cases hqg : q = graph
          · rw [hqg, Function.update_self]
          · rw [Function.update_of_ne hqg]
            have hnot : s₂.held q = none := by
              rw [hheld, hheld₂, Function.update_of_ne hq, Function.update_of_ne hqg]
              exact hnone q
            exact Option.map_eq_none_iff.mp hnot
        obtain ⟨g, rfl, rfl, rfl⟩ :=
          Shows.eq_singleton hr₄.graphs_eq hr₄.nodup_addr hleft hothers
        refine ⟨w₃, w₄, printedLines h v ++ printedLines h g.val, g.edgesPtr, g.nodesPtr, hmatch,
          ?_, ?_, hfree, ?_⟩
        · rw [hr₃.written_eq, hr.written_eq]
          rfl
        · rw [readTrees_printed, hvpairs, hupairs]
        · rw [← huN, ← hunodes, ← List.append_nil (arrayBlock _ _ ++ _), ← List.cons_append]
          exact hr₄.blocks_perm hs.loadable

/-- The graph and the pattern of `test.py`. -/
theorem Session.create_match_free_three_two :
    let nodes : OrderedDict ℕ (ℕ × ℕ) := ⟨[(0, 0, 0), (1, 0, 1), (2, 0, 2)], by decide⟩
    let edges : OrderedDict ℕ (List ℕ) := ⟨[(0, [1]), (1, [2])], by decide⟩
    let nodes' : OrderedDict ℕ (ℕ × ℕ) := ⟨[(0, 0, 0), (1, 0, 1)], by decide⟩
    let edges' : OrderedDict ℕ (List ℕ) := ⟨[(0, [1])], by decide⟩
    ∃ w w₁ w₂ w₃ w₄ lines, Session .bump freshProcess [(.setLogLevel (.int 1), .none)] w
      ∧ createGraphLogged .bump w nodes (intEdges edges) = .ok (w₁, 4129)
      ∧ createGraphLogged .bump w₁ nodes' (intEdges edges') = .ok (w₂, 4212)
      ∧ w₂.call .bump (.matchGraphs 4129 4212) = .ok (w₃, .status 42)
      ∧ w₃.written = w₂.written ++ lines
      ∧ readTrees (textOf lines) = ([[(0, 1), (1, 2)], [(0, 1)]], [])
      ∧ w₃.call .bump (.freeGraph 4129) = .ok (w₄, .none) := by
  intro nodes edges nodes' edges'
  have hdescribes : Describes 3 nodes edges := by
    refine ⟨by decide, by decide, by decide, fun i ty v hi => ?_, fun source target hpair => ?_⟩
    · have hitem : ∀ item ∈ nodes.items, item.2.2 < 2 ^ 32 := by decide
      exact hitem _ (get?_eq_some_iff.mp hi)
    · have hall : ∀ pair ∈ edges.pairs, pair.1 < 2 ^ 32 ∧ pair.2 < 2 ^ 32 := by decide
      exact hall _ hpair
  have hdescribes' : Describes 2 nodes' edges' := by
    refine ⟨by decide, by decide, by decide, fun i ty v hi => ?_, fun source target hpair => ?_⟩
    · have hitem : ∀ item ∈ nodes'.items, item.2.2 < 2 ^ 32 := by decide
      exact hitem _ (get?_eq_some_iff.mp hi)
    · have hall : ∀ pair ∈ edges'.pairs, pair.1 < 2 ^ 32 ∧ pair.2 < 2 ^ 32 := by decide
      exact hall _ hpair
  have hhandles : (do
      let w₀ ← importArboql .bump freshProcess
      let level ← w₀.call .bump (.setLogLevel (.int 1))
      let graph ← createGraphLogged .bump level.1 nodes (intEdges edges)
      let pattern ← createGraphLogged .bump graph.1 nodes' (intEdges edges')
      return (level.2, graph.2, pattern.2)) = .ok (.none, 4129, 4212) := by decide +kernel
  obtain ⟨w₀, himport, hrest⟩ := bind_eq_ok_iff.mp hhandles
  obtain ⟨⟨w, res⟩, hlevel, hrest⟩ := bind_eq_ok_iff.mp hrest
  obtain ⟨⟨w₁, graph⟩, hgraph, hrest⟩ := bind_eq_ok_iff.mp hrest
  obtain ⟨⟨w₂, pattern⟩, hpattern, hrest⟩ := bind_eq_ok_iff.mp hrest
  obtain ⟨rfl, hhandles⟩ := Prod.mk.inj (Except.ok.inj hrest)
  obtain ⟨rfl, rfl⟩ := Prod.mk.inj hhandles
  have hs : Session .bump freshProcess [(.setLogLevel (.int 1), .none)] w :=
    ⟨loadable_freshProcess, by decide +kernel, w₀, himport, Run.nil.snoc hlevel⟩
  obtain ⟨w₃, w₄, lines, -, -, hmatch, hwritten, hread, hfree, -⟩ :=
    Session.create_match_free hs (fun p => rfl) hdescribes hdescribes' hgraph hpattern
  exact ⟨w, w₁, w₂, w₃, w₄, lines, hs, hgraph, hpattern, hmatch, hwritten, hread, hfree⟩

end Arboql
