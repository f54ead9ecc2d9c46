import Arboql.Graph.Client

/-!
# When `create_graph` raises an exception

`create_graph` allocates its graph before it looks at the targets. A target that `ctypes`
refuses raises `ArgumentError` from one of the last loops, and the handle is lost: nothing
frees the graph, and the caller of `create_graph` does not get it. `createGraphTry` is
`create_graph` in a program that handles the exception and goes on, with the world as the
exception leaves it (`createGraphLogged_eq_try`).

So a program that creates any number of graphs and frees each that it gets ends with the
memory that it had and the graphs of the calls that were refused
(`Session.create_all_free_all`). The edges that `ast_dict_to_incidence_list_and_attributes`
returns are always refused, so with the graphs of ASTs every one of them is lost
(`Session.create_asts`).
-/

namespace Arboql

open CLayout OrderedDict Simulation Loops
open Bindings (PyArg PyError typeWord)

/-! ### Exceptions -/

/-- How far calls in a row get: up to the first that raises an exception, which leaves the
world as it is. -/
def World.attempt (h : Host) (w : World) :
    List ApiCall → Except Abort (World × List (ApiCall × ApiResult))
  | [] => return (w, [])
  | c :: cs => do
    let (w, res) ← w.call h c
    if res = .argumentError then return (w, [(c, res)])
    else
      let (w, es) ← w.attempt h cs
      return (w, (c, res) :: es)

/-- An exception was raised. -/
def Raised (es : List (ApiCall × ApiResult)) : Bool := es.any fun e => e.2 = .argumentError

/-- Without the handling of exceptions the first one ends the program. -/
def unhandled (r : World × List (ApiCall × ApiResult)) : Except Abort World :=
  if Raised r.2 then .error (.py .argumentError) else .ok r.1

section Attempt

variable {h : Host} {w w' : World}

/-- A call that is not handled does not return an exception. -/
theorem World.perform_ne_argumentError {c : ApiCall} {res : ApiResult}
    (hc : w.perform h c = .ok (w', res)) : res ≠ .argumentError := by
  have hreturn : ∀ {β : Type} {r : Except Abort β} {f : β → World × ApiResult},
      (∀ x, (f x).2 ≠ .argumentError) → (r >>= fun x => Except.ok (f x)) = .ok (w', res) →
      res ≠ .argumentError := by
    intro β r f hf hok
    obtain ⟨x, -, hx⟩ := bind_eq_ok_iff.mp hok
    rw [show res = (f x).2 from (congrArg Prod.snd (Except.ok.inj hx)).symm]
    exact hf x
  cases c with
  | mallocGraph nodesN edgesN =>
    exact hreturn (f := fun r : World × ℕ => (r.1, .handle r.2)) (fun x heq => by cases heq) hc
  | freeGraph graph => exact hreturn (f := fun w => (w, .none)) (fun x heq => by cases heq) hc
  | addEdge graph edgeId source target ty value =>
    exact hreturn (f := fun w => (w, .none)) (fun x heq => by cases heq) hc
  | addNode graph nodeId ty value =>
    exact hreturn (f := fun w => (w, .none)) (fun x heq => by cases heq) hc
  | printGraph graph current indent =>
    exact hreturn (f := fun w => (w, .none)) (fun x heq => by cases heq) hc
  | matchGraphs graph pattern =>
    exact hreturn (f := fun r : World × ℕ => (r.1, .status r.2)) (fun x heq => by cases heq) hc
  | setLogLevel level => exact hreturn (f := fun w => (w, .none)) (fun x heq => by cases heq) hc

/-- **Calls in a row, without the handling of exceptions**, are made one after the other. -/
theorem World.attempt_cons (c : ApiCall) (cs : List ApiCall) :
    (w.attempt h (c :: cs) >>= unhandled)
      = w.perform h c >>= fun r => r.1.attempt h cs >>= unhandled := by
  rw [attempt]
  cases hperform : w.perform h c with
  | error e =>
    by_cases he : e = .py .argumentError
    · -- the exception is the last result
      subst he
      have hcall : w.call h c = .ok (w, .argumentError) := by rw [call, hperform]
      rw [hcall]
      rfl
    · have hcall : w.call h c = .error e := by
        unfold call
        rw [hperform]
        split
        · next heq => exact absurd (Except.error.inj heq) he
        · rfl
      rw [hcall]
      rfl
  | ok r =>
    obtain ⟨w₁, res⟩ := r
    -- no exception, so the calls go on
    have hres := perform_ne_argumentError hperform
    rw [call_of_ok hperform]
    change ((if res = .argumentError then _ else _) >>= unhandled) = _
    rw [if_neg hres]
    change (w₁.attempt h cs >>= _) >>= unhandled = w₁.attempt h cs >>= unhandled
    cases w₁.attempt h cs with
    | error e => rfl
    | ok r =>
      change unhandled (r.1, (c, res) :: r.2) = unhandled r
      unfold unhandled Raised
      rw [List.any_cons, decide_eq_false hres, Bool.false_or]

theorem World.attempt_append (cs cs' : List ApiCall) :
    (w.attempt h (cs ++ cs') >>= unhandled)
      = (w.attempt h cs >>= unhandled) >>= fun w => w.attempt h cs' >>= unhandled := by
  induction cs generalizing w with
  | nil => rfl
  | cons c cs ih =>
    rw [List.cons_append, attempt_cons, attempt_cons]
    cases w.perform h c with
    | error e => rfl
    | ok r => exact ih

end Attempt

/-! ### `create_graph` -/

/-- What `create_graph` is given. -/
structure GraphDicts where
  nodes : OrderedDict ℕ (ℕ × ℕ)
  edges : OrderedDict ℕ (List PyArg)

/-- The calls for the nodes. -/
def nodeApiCalls (graph : ℕ) (items : List (ℕ × ℕ × ℕ)) : List ApiCall :=
  items.map fun item => .addNode graph (.int item.1) (.int item.2.1) (.int item.2.2)

/-- The calls for pairs of source and target, from slot `j` on. -/
def edgeApiCalls (graph j : ℕ) (pairs : List (ℕ × PyArg)) : List ApiCall :=
  (pairs.zipIdx j).map fun p =>
    .addEdge graph (.int p.2) (.int p.1.1) p.1.2 (.int ATTR_UNSIGNED) p.1.2

/-- The calls that `create_graph` makes on its graph. -/
def GraphDicts.calls (d : GraphDicts) (graph : ℕ) : List ApiCall :=
  nodeApiCalls graph d.nodes.items
    ++ edgeApiCalls graph 0 (targetPairs d.edges d.edges.keys)

/-- `create_graph` in a program that handles the exception. There is a handle if no
exception was raised. -/
def createGraphTry (h : Host) (w : World) (d : GraphDicts) :
    Except Abort (World × Option ℕ) := do
  let (w, graph) ← Bindings.mallocGraphLogged h w (.int d.nodes.length)
    (.int (countTargets d.edges))
  let (w, es) ← w.attempt h (d.calls graph)
  return (w, if Raised es then none else some graph)

section Loop

variable {h : Host} {w : World}

/-- The loop over the nodes, with the world. -/
theorem fillNodes_attempt (graph : ℕ) (items : List (ℕ × ℕ × ℕ)) :
    Bindings.onMemory w (fillNodes w.mem graph items)
      = (w.attempt h (nodeApiCalls graph items) >>= unhandled) := by
  induction items generalizing w with
  | nil => rfl
  | cons item items ih =>
    have hperform : w.perform h (.addNode graph (.int item.1) (.int item.2.1) (.int item.2.2))
        = Bindings.onMemory w (Bindings.addNode w.mem graph (.int item.1) (.int item.2.1)
            (.int item.2.2)) >>= fun w => return (w, .none) := rfl
    unfold fillNodes nodeApiCalls at ih ⊢
    rw [List.map_cons, World.attempt_cons, hperform, List.foldlM_cons]
    cases Bindings.addNode w.mem graph (.int item.1) (.int item.2.1) (.int item.2.2) with
    | error e => rfl
    | ok m => exact ih (w := { w with mem := m })

/-- The loops over the edges, with the world. -/
theorem addTargets_attempt (graph j : ℕ) (pairs : List (ℕ × PyArg)) :
    Bindings.onMemory w (addTargets w.mem graph j pairs)
      = (w.attempt h (edgeApiCalls graph j pairs) >>= unhandled) := by
  induction pairs generalizing w j with
  | nil => rfl
  | cons pair pairs ih =>
    have hperform : w.perform h (.addEdge graph (.int j) (.int pair.1) pair.2
          (.int ATTR_UNSIGNED) pair.2)
        = Bindings.onMemory w (Bindings.addEdge w.mem graph (.int j) (.int pair.1) pair.2
            (.int ATTR_UNSIGNED) pair.2) >>= fun w => return (w, .none) := rfl
    unfold addTargets edgeApiCalls at ih ⊢
    rw [List.zipIdx_cons, List.map_cons, World.attempt_cons, hperform, List.foldlM_cons]
    change Bindings.onMemory w (Bindings.addEdge w.mem graph (.int j) (.int pair.1) pair.2
      (.int ATTR_UNSIGNED) pair.2 >>= _) = _
    cases Bindings.addEdge w.mem graph (.int j) (.int pair.1) pair.2 (.int ATTR_UNSIGNED)
        pair.2 with
    | error e => rfl
    | ok m => exact ih (w := { w with mem := m }) (j + 1)

/-- **`create_graph` with and without the handling of exceptions.** Where the exception is
handled there is no handle; otherwise both do the same. -/
theorem createGraphLogged_eq_try (h : Host) (w : World) (d : GraphDicts) :
    createGraphLogged h w d.nodes d.edges = createGraphTry h w d >>= fun r =>
      match r.2 with
      | some graph => .ok (r.1, graph)
      | none => .error (.py .argumentError) := by
  unfold createGraphLogged createGraphTry
  cases Bindings.mallocGraphLogged h w (.int d.nodes.length) (.int (countTargets d.edges)) with
  | error e => rfl
  | ok r =>
    obtain ⟨w₁, graph⟩ := r
    -- the two loops are the calls in a row
    have hedges : ∀ w : World, Bindings.onMemory w
        ((fillEdges graph d.edges d.edges.keys (w.mem, 0)).map Prod.fst)
        = (w.attempt h (edgeApiCalls graph 0 (targetPairs d.edges d.edges.keys))
          >>= unhandled) := by
      intro w
      rw [← addTargets_attempt, fillEdges_eq]
      cases addTargets w.mem graph 0 (targetPairs d.edges d.edges.keys) <;> rfl
    have hcalls : (Bindings.onMemory w₁ (fillNodes w₁.mem graph d.nodes.items) >>= fun w =>
        Bindings.onMemory w ((fillEdges graph d.edges d.edges.keys (w.mem, 0)).map Prod.fst))
        = (w₁.attempt h (d.calls graph) >>= unhandled) := by
      rw [fillNodes_attempt, GraphDicts.calls, World.attempt_append]
      exact bind_congr hedges
    change (Bindings.onMemory w₁ (fillNodes w₁.mem graph d.nodes.items) >>= fun w =>
      Bindings.onMemory w ((fillEdges graph d.edges d.edges.keys (w.mem, 0)).map Prod.fst)
        >>= fun w => Except.ok (w, graph)) = _
    rw [← bind_assoc, hcalls]
    change _ = (w₁.attempt h (d.calls graph) >>= _) >>= _
    cases w₁.attempt h (d.calls graph) with
    | error e => rfl
    | ok r =>
      change (unhandled r >>= fun w => Except.ok (w, graph))
        = match (if Raised r.2 then none else some graph : Option ℕ) with
          | some graph => .ok (r.1, graph)
          | none => .error (.py .argumentError)
      unfold unhandled
      cases Raised r.2 <;> rfl

end Loop

/-! ### In a session -/

namespace GraphDicts

/-- The counts of the graph. -/
def counts (d : GraphDicts) : ℕ × ℕ := (d.nodes.length, countTargets d.edges)

/-- Some target is not an `int`. -/
def refused (d : GraphDicts) : Bool :=
  (targetPairs d.edges d.edges.keys).any fun pair =>
    match pair.2 with
    | .int _ => false
    | .tuple _ => true

/-- The nodes are numbered from `0` on, and the counts can be passed. -/
structure Numbered (d : GraphDicts) : Prop where
  keys : d.nodes.keys.Perm (List.range d.nodes.length)
  nodesN_lt : d.nodes.length < 2 ^ 32
  edgesN_lt : countTargets d.edges < 2 ^ 32

/-- A call on the graph is refused if and only if a target is. -/
theorem exists_badArgument_iff (d : GraphDicts) (graph : ℕ) :
    (∃ c ∈ d.calls graph, c.BadArgument) ↔ d.refused = true := by
  unfold refused
  rw [List.any_eq_true]
  constructor
  · rintro ⟨c, hc, elems, helems⟩
    rcases List.mem_append.mp hc with hc | hc
    · -- the arguments for a node are numbers
      obtain ⟨item, -, rfl⟩ := List.mem_map.mp hc
      simp [ApiCall.args] at helems
    · obtain ⟨p, hp, rfl⟩ := List.mem_map.mp hc
      have htarget : p.1.2 = .tuple elems := by
        have hargs : PyArg.tuple elems = p.1.2 := by simpa [ApiCall.args] using helems
        exact hargs.symm
      have hmem : p.1 ∈ targetPairs d.edges d.edges.keys := by
        have hfst := List.mem_map_of_mem (f := Prod.fst) hp
        rwa [List.zipIdx_map_fst] at hfst
      exact ⟨p.1, hmem, by rw [htarget]⟩
  · rintro ⟨pair, hpair, htuple⟩
    cases htarget : pair.2 with
    | int z =>
      rw [htarget] at htuple
      cases htuple
    | tuple elems =>
      rw [← List.zipIdx_map_fst 0 (targetPairs d.edges d.edges.keys)] at hpair
      obtain ⟨p, hp, rfl⟩ := List.mem_map.mp hpair
      refine ⟨_, List.mem_append_right _ (List.mem_map_of_mem hp), elems, ?_⟩
      rw [htarget]
      simp [ApiCall.args]

/-- The calls are about slots of the graph. -/
theorem Numbered.allows {d : GraphDicts} (hd : d.Numbered) {graph : ℕ} {held : Held}
    (hheld : held graph = some d.counts) {c : ApiCall} (hc : c ∈ d.calls graph) :
    held.Allows c := by
  rcases List.mem_append.mp hc with hc | hc
  · obtain ⟨item, hitem, rfl⟩ := List.mem_map.mp hc
    have hlt : item.1 < d.nodes.length :=
      List.mem_range.mp (hd.keys.mem_iff.mp (List.mem_map_of_mem hitem))
    refine ⟨_, hheld, fun z hz => ?_⟩
    obtain rfl := PyArg.int.inj hz
    rw [typeWord_natCast (hlt.trans hd.nodesN_lt)]
    exact hlt
  · obtain ⟨p, hp, rfl⟩ := List.mem_map.mp hc
    have hlt : p.2 < countTargets d.edges := by
      rw [countTargets_eq]
      exact List.snd_lt_of_mem_zipIdx hp
    refine ⟨_, hheld, fun z hz => ?_⟩
    obtain rfl := PyArg.int.inj hz
    rw [typeWord_natCast (hlt.trans hd.edgesN_lt)]
    exact hlt

/-- Nothing that is held is changed by them. -/
theorem next_of_mem_calls {d : GraphDicts} {graph : ℕ} {c : ApiCall} (hc : c ∈ d.calls graph)
    (held : Held) (res : ApiResult) : held.next (c, res) = held := by
  rcases List.mem_append.mp hc with hc | hc
  · obtain ⟨item, -, rfl⟩ := List.mem_map.mp hc
    rfl
  · obtain ⟨p, -, rfl⟩ := List.mem_map.mp hc
    rfl

end GraphDicts

section Sessions

variable {h : Host} {m : Memory} {es : List (ApiCall × ApiResult)} {w w' : World}

/-- A call raises an exception if and only if an argument is refused. -/
theorem Session.call_raises_iff (hs : Session h m es w) {c : ApiCall}
    (hc : (heldAfter es).Allows c) {res : ApiResult} (hcall : w.call h c = .ok (w', res)) :
    res = .argumentError ↔ c.BadArgument := by
  constructor
  · rintro rfl
    obtain ⟨s, graphs, -, hr, hheld⟩ := hs.represents
    rw [← hheld] at hc
    obtain ⟨s', graphs', hstep, -⟩ := hr.step_of_call hc hcall
    cases hstep with
    | argumentError hbad => exact hbad
  · intro hbad
    rw [World.call_badArgument hbad] at hcall
    exact (congrArg Prod.snd (Except.ok.inj hcall)).symm

/-- **Calls up to the first exception** keep to the protocol, and an exception is raised if
and only if an argument is refused. -/
theorem Session.attempt (hs : Session h m es w) {cs : List ApiCall}
    (hcs : ∀ c ∈ cs, (heldAfter es).Allows c)
    (hnext : ∀ c ∈ cs, ∀ (held : Held) res, held.next (c, res) = held)
    {es' : List (ApiCall × ApiResult)} (hok : w.attempt h cs = .ok (w', es')) :
    Session h m (es ++ es') w' ∧ heldAfter (es ++ es') = heldAfter es
      ∧ (Raised es' = true ↔ ∃ c ∈ cs, c.BadArgument) := by
  -- on the calls, the first of which makes the session longer by one
  induction cs generalizing es w es' with
  | nil =>
    obtain ⟨rfl, rfl⟩ := Prod.mk.inj (Except.ok.inj hok)
    rw [List.append_nil]
    exact ⟨hs, rfl, by simp [Raised]⟩
  | cons c cs ih =>
    rw [World.attempt] at hok
    obtain ⟨⟨w₁, res⟩, hcall, hok⟩ := bind_eq_ok_iff.mp hok
    have hallowed := hcs c List.mem_cons_self
    have hraises := hs.call_raises_iff hallowed hcall
    have hfirst := hs.snoc hallowed hcall
    have hsame : heldAfter (es ++ [(c, res)]) = heldAfter es := by
      rw [heldAfter_snoc, hnext c List.mem_cons_self]
    rw [List.exists_mem_cons_iff, ← hraises]
    by_cases hres : res = .argumentError
    · -- the other calls are not made
      subst hres
      obtain ⟨rfl, rfl⟩ := Prod.mk.inj (Except.ok.inj hok)
      exact ⟨hfirst, hsame, iff_of_true rfl (Or.inl rfl)⟩
    · change (if res = .argumentError then _ else _) = _ at hok
      rw [if_neg hres] at hok
      obtain ⟨⟨w₂, es₂⟩, hrest, hok⟩ := bind_eq_ok_iff.mp hok
      obtain ⟨rfl, rfl⟩ := Prod.mk.inj (Except.ok.inj hok)
      obtain ⟨hsession, hheld, hraised⟩ := ih hfirst
        (fun c hc => hsame ▸ hcs c (List.mem_cons_of_mem _ hc))
        (fun c hc => hnext c (List.mem_cons_of_mem _ hc)) hrest
      rw [List.append_assoc] at hsession hheld
      refine ⟨hsession, hheld.trans hsame, ?_⟩
      rw [← hraised, Raised, List.any_cons, decide_eq_false hres, Bool.false_or]
      exact (or_iff_right hres).symm

/-- The handle of a new graph is none of those held. -/
theorem Session.malloc_fresh (hs : Session h m es w) {n e : ℤ} {graph : ℕ}
    (hok : Bindings.mallocGraphLogged h w (.int n) (.int e) = .ok (w', graph)) :
    heldAfter es graph = none := by
  have hcall : w.call h (.mallocGraph (.int n) (.int e)) = .ok (w', .handle graph) := by
    refine World.call_of_ok ?_
    change (Bindings.mallocGraphLogged h w _ _ >>= _) = _
    rw [hok]
    rfl
  obtain ⟨s, graphs, -, hr, hheld⟩ := hs.represents
  have hc : s.held.Allows (.mallocGraph (.int n) (.int e)) := trivial
  obtain ⟨s', graphs', hstep, -⟩ := hr.step_of_call hc hcall
  cases hstep with
  | mallocGraph hp hfresh hn he =>
    rw [← hheld]
    exact Option.map_eq_none_iff.mpr hfresh

/-- **`create_graph` allocates a graph in any case.** If no exception is raised its handle
is returned. -/
theorem Session.createTry (hs : Session h m es w) {d : GraphDicts} (hd : d.Numbered)
    {r : Option ℕ} (hok : createGraphTry h w d = .ok (w', r)) :
    ∃ es' graph, Session h m (es ++ es') w' ∧ heldAfter es graph = none
      ∧ heldAfter (es ++ es') = Function.update (heldAfter es) graph (some d.counts)
      ∧ r = if d.refused then none else some graph := by
  obtain ⟨⟨w₁, graph⟩, hmalloc, hok⟩ := bind_eq_ok_iff.mp hok
  obtain ⟨⟨w₂, es₂⟩, hcalls, hok⟩ := bind_eq_ok_iff.mp hok
  obtain ⟨rfl, rfl⟩ := Prod.mk.inj (Except.ok.inj hok)
  obtain ⟨hfirst, hheld⟩ := hs.malloc hd.nodesN_lt hd.edgesN_lt hmalloc
  have hcounts := congrFun hheld graph
  rw [Function.update_self] at hcounts
  obtain ⟨hsession, hsame, hraised⟩ := hfirst.attempt (fun c hc => hd.allows hcounts hc)
    (fun c hc => GraphDicts.next_of_mem_calls hc) hcalls
  rw [List.append_assoc] at hsession hsame
  refine ⟨_, graph, hsession, hs.malloc_fresh hmalloc, hsame.trans hheld, ?_⟩
  rw [d.exists_badArgument_iff] at hraised
  rw [Bool.eq_iff_iff.mpr hraised]

/-- What a client holds, as a dictionary, is what there is in memory besides the blocks
from before. -/
theorem Session.blocks_of_held (hs : Session h m es w) {d : OrderedDict ℕ (ℕ × ℕ)}
    (hd : heldAfter es = d.get?) :
    ∃ live : List LiveGraph, w.mem.blocks.Perm (m.blocks ++ live.flatMap LiveGraph.blocks)
      ∧ (live.map fun g => (g.addr, g.val.nodesN, g.val.edgesN)).Perm d.items := by
  obtain ⟨s, graphs, -, hr, hheld⟩ := hs.represents
  refine ⟨graphs, hr.blocks_perm hs.loadable, ?_⟩
  have hnodup : (graphs.map fun g => (g.addr, g.val.nodesN, g.val.edgesN)).Nodup := by
    refine .of_map Prod.fst ?_
    rw [List.map_map]
    exact hr.nodup_addr
  refine (List.perm_ext_iff_of_nodup hnodup d.nodup.of_map).mpr ?_
  rintro ⟨p, counts⟩
  rw [← get?_eq_some_iff, ← hd, ← hheld, hr.held_iff, List.mem_map]
  refine exists_congr fun g => and_congr_right fun _ => ?_
  exact Prod.mk.injEq .. ▸ Iff.rfl

/-! ### Programs that create graphs -/

/-- Creates graphs one after the other, with what each call returned. -/
def createAll (h : Host) (w : World) : List GraphDicts → Except Abort (World × List (Option ℕ))
  | [] => return (w, [])
  | d :: ds => do
    let (w, r) ← createGraphTry h w d
    let (w, rs) ← createAll h w ds
    return (w, r :: rs)

/-- What is returned for the graphs that were made. -/
def returned (made : List (ℕ × GraphDicts)) : List (Option ℕ) :=
  made.map fun x => if x.2.refused then none else some x.1

/-- **Every call makes a graph**, with a handle that is not in use. -/
theorem Session.createAll (hs : Session h m es w) {made : OrderedDict ℕ GraphDicts}
    (hmade : heldAfter es = (made.mapValues GraphDicts.counts).get?) {ds : List GraphDicts}
    (hds : ∀ d ∈ ds, d.Numbered) {handles : List (Option ℕ)}
    (hok : Arboql.createAll h w ds = .ok (w', handles)) :
    ∃ (es' : List (ApiCall × ApiResult)) (made' : OrderedDict ℕ GraphDicts)
      (new : List (ℕ × GraphDicts)), Session h m (es ++ es') w'
      ∧ heldAfter (es ++ es') = (made'.mapValues GraphDicts.counts).get?
      ∧ made'.items = made.items ++ new ∧ new.map Prod.snd = ds ∧ handles = returned new := by
  -- on the graphs still to be made
  induction ds generalizing es w made handles with
  | nil =>
    obtain ⟨rfl, rfl⟩ := Prod.mk.inj (Except.ok.inj hok)
    refine ⟨[], made, [], ?_, ?_, (List.append_nil _).symm, rfl, rfl⟩
    · rwa [List.append_nil]
    · rwa [List.append_nil]
  | cons d ds ih =>
    obtain ⟨⟨w₁, r⟩, hfirst, hok⟩ := bind_eq_ok_iff.mp hok
    obtain ⟨⟨w₂, rs⟩, hrest, hok⟩ := bind_eq_ok_iff.mp hok
    obtain ⟨rfl, rfl⟩ := Prod.mk.inj (Except.ok.inj hok)
    obtain ⟨es₁, graph, hs₁, hfresh, hheld, rfl⟩ := hs.createTry (hds d List.mem_cons_self) hfirst
    have hnew : graph ∉ made.keys := by
      rw [hmade, get?_eq_none_iff, keys_mapValues] at hfresh
      exact hfresh
    have hset : heldAfter (es ++ es₁) = ((made.set graph d).mapValues GraphDicts.counts).get? := by
      rw [hheld, hmade]
      funext q
      rw [get?_mapValues, get?_set]
      by_cases hq : q = graph
      · rw [hq, Function.update_self, if_pos rfl, Option.map_some]
      · rw [Function.update_of_ne hq, if_neg hq, get?_mapValues]
    obtain ⟨es₂, made', new, hs₂, hheld₂, hitems, hsnd, hreturned⟩ :=
      ih hs₁ hset (fun d hd => hds d (List.mem_cons_of_mem _ hd)) hrest
    rw [List.append_assoc] at hs₂ hheld₂
    refine ⟨_, made', (graph, d) :: new, hs₂, hheld₂, ?_, ?_, ?_⟩
    · rw [hitems, items_set_of_notMem hnew, List.append_assoc, List.singleton_append]
    · rw [List.map_cons, hsnd]
    · rw [hreturned]
      rfl

end Sessions

/-! ### The graphs of ASTs -/

section Asts

variable {α : Type} [ToString α]

/-- What is returned for an AST, as `create_graph` gets it. -/
def astDicts (t : Ast α) : GraphDicts where
  nodes := (astDictToIncidenceListAndAttributes (astToDict t)).nodes
  edges := tupleEdges (astDictToIncidenceListAndAttributes (astToDict t)).edges

/-- The targets are tuples, one for each edge of the tree. -/
theorem targetPairs_astDicts (t : Ast α) :
    targetPairs (astDicts t).edges (astDicts t).edges.keys
      = (PreorderTree.edgeList (parents (astToDict t))).map fun e =>
        (e.1, .tuple [(ATTR_UNSIGNED : ℤ), (e.2 : ℤ)]) := by
  have hkeys : (astDicts t).edges.keys = PreorderTree.sources (parents (astToDict t)) := by
    rw [astDicts, tupleEdges, keys_mapValues, edges_eq, PreorderTree.keys_childDict]
  unfold targetPairs PreorderTree.edgeList
  rw [hkeys, List.map_flatMap]
  refine List.flatMap_congr fun source _ => ?_
  rw [astDicts, targetsOf_tupleEdges, List.map_map, List.map_map]
  rfl

theorem counts_astDicts (t : Ast α) :
    (astDicts t).counts = (size (astToDict t) + 1, size (astToDict t)) := by
  have hedges : countTargets (astDicts t).edges = size (astToDict t) := by
    rw [countTargets_eq, targetPairs_astDicts, List.length_map,
      (preorder_parents _).length_edgeList, length_parents]
  unfold GraphDicts.counts
  rw [hedges, astDicts, length_nodes]

/-- An AST has a node besides the root, and its edge is refused. -/
theorem refused_astDicts (t : Ast α) : (astDicts t).refused = true := by
  have hpos : 0 < (PreorderTree.edgeList (parents (astToDict t))).length := by
    rw [(preorder_parents _).length_edgeList, length_parents]
    exact size_astToDict_pos t
  unfold GraphDicts.refused
  rw [targetPairs_astDicts, List.any_map, List.any_eq_true]
  exact ⟨_, List.getElem_mem hpos, rfl⟩

theorem numbered_astDicts {t : Ast α} (ht : size (astToDict t) + 1 < 2 ^ 32) :
    (astDicts t).Numbered := by
  have hcounts := counts_astDicts t
  obtain ⟨hnodes, hedges⟩ := Prod.mk.inj hcounts
  constructor
  case keys =>
    rw [hnodes, astDicts, keys_nodes]
  case nodesN_lt => rwa [hnodes]
  case edgesN_lt =>
    rw [hedges]
    exact (Nat.lt_succ_self _).trans ht

/-- **With ASTs every graph is lost.** When `create_graph` is called for any number of ASTs
by a program that goes on after the exceptions, it returns no handle, and for each AST
there is in the end one graph more in memory, with a node for each of the AST's and an edge
less. -/
theorem Session.create_asts {h : Host} {m : Memory} {es : List (ApiCall × ApiResult)}
    {w w' : World} (hs : Session h m es w) (hnone : ∀ p, heldAfter es p = none)
    {ts : List (Ast α)} (hts : ∀ t ∈ ts, size (astToDict t) + 1 < 2 ^ 32)
    {handles : List (Option ℕ)}
    (hcreate : Arboql.createAll h w (ts.map astDicts) = .ok (w', handles)) :
    handles = List.replicate ts.length none
      ∧ ∃ lost : List LiveGraph, w'.mem.blocks.Perm (m.blocks ++ lost.flatMap LiveGraph.blocks)
        ∧ (lost.map fun g => (g.val.nodesN, g.val.edgesN)).Perm
          (ts.map fun t => (size (astToDict t) + 1, size (astToDict t))) := by
  have hempty : heldAfter es = ((empty : OrderedDict ℕ GraphDicts).mapValues
      GraphDicts.counts).get? := funext hnone
  have hds : ∀ d ∈ ts.map astDicts, d.Numbered := by
    rintro d hd
    obtain ⟨t, ht, rfl⟩ := List.mem_map.mp hd
    exact numbered_astDicts (hts t ht)
  obtain ⟨es', made, new, hs', hheld, hitems, hnew, rfl⟩ := hs.createAll hempty hds hcreate
  obtain rfl : made.items = new := hitems
  have hrefused : ∀ x ∈ made.items, x.2.refused = true := by
    intro x hx
    have hmem := List.mem_map_of_mem (f := Prod.snd) hx
    rw [hnew] at hmem
    obtain ⟨t, -, ht⟩ := List.mem_map.mp hmem
    rw [← ht]
    exact refused_astDicts t
  constructor
  · have hlen := congrArg List.length hnew
    rw [List.length_map, List.length_map] at hlen
    rw [← hlen, returned]
    refine List.eq_replicate_iff.mpr ⟨List.length_map _, fun r hr => ?_⟩
    obtain ⟨x, hx, rfl⟩ := List.mem_map.mp hr
    exact if_pos (hrefused x hx)
  · obtain ⟨lost, hblocks, hlost⟩ := hs'.blocks_of_held hheld
    refine ⟨lost, hblocks, ?_⟩
    have hcounts := hlost.map Prod.snd
    have hitems : (made.mapValues GraphDicts.counts).items.map Prod.snd
        = ts.map fun t => (size (astToDict t) + 1, size (astToDict t)) := by
      change (made.items.map fun x => (x.1, x.2.counts)).map Prod.snd = _
      rw [List.map_map]
      have hsnd := congrArg (List.map GraphDicts.counts) hnew
      rw [List.map_map, List.map_map] at hsnd
      refine hsnd.trans (List.map_congr_left fun t _ => ?_)
      exact counts_astDicts t
    rw [hitems, List.map_map] at hcounts
    exact hcounts

/-- The graph of an empty module is lost. -/
theorem Session.create_asts_module :
    let t : Ast Unit := .node "Module" [("body", .list []), ("type_ignores", .list [])]
    ∃ w w', Session .bump freshProcess [] w
      ∧ Arboql.createAll .bump w [astDicts t] = .ok (w', [none])
      ∧ ∃ lost : List LiveGraph,
        w'.mem.blocks.Perm (freshProcess.blocks ++ lost.flatMap LiveGraph.blocks)
          ∧ (lost.map fun g => (g.val.nodesN, g.val.edgesN)).Perm
            [(size (astToDict t) + 1, size (astToDict t))] := by
  intro t
  have hts : ∀ x ∈ [t], size (astToDict x) + 1 < 2 ^ 32 := by decide
  have hhandles : (importArboql .bump freshProcess >>= fun w =>
      Arboql.createAll .bump w [astDicts t] >>= fun r => return r.2) = .ok [none] := by
    decide +kernel
  obtain ⟨w, himport, hrest⟩ := bind_eq_ok_iff.mp hhandles
  obtain ⟨⟨w', handles⟩, hcreate, hrest⟩ := bind_eq_ok_iff.mp hrest
  obtain rfl := Except.ok.inj hrest
  have hs : Session .bump freshProcess [] w :=
    ⟨loadable_freshProcess, by decide, w, himport, .nil⟩
  exact ⟨w, w', hs, hcreate, (Session.create_asts hs (fun _ => rfl) hts hcreate).2⟩

end Asts

end Arboql
