import Arboql.Graph.Output

/-!
# What a client has written

A client can keep a record of what it has put into the slots of its graphs, from the calls
that it made alone (`recordAfter`). However the calls on several graphs are mixed with
allocations, frees, printing, refused calls and changes of the log level, a slot of a live
graph that is in the record reads as the record has it, up to the sign with which Python
reads a word (`Session.reads_record`), and a graph all of whose edges are in the record is
printed as the record has it (`Session.prints_record`).

The argument is about the store: each step of it keeps to the record
(`Store.Step.has`).
-/

namespace Arboql

open CLayout Simulation
open Bindings (typeWord)

/-! ### The record -/

/-- What a client has written, by handle and slot. -/
structure Record where
  edges : ℕ → ℕ → Option EdgeWords
  nodes : ℕ → ℕ → Option NodeWords

/-- The record after a call. A graph that is allocated is not written yet. -/
def Record.next (r : Record) : ApiCall × ApiResult → Record
  | (.mallocGraph _ _, .handle p) =>
    ⟨Function.update r.edges p fun _ => none, Function.update r.nodes p fun _ => none⟩
  | (.addEdge p i source target ty value, .none) =>
    { r with
      edges := Function.update r.edges p (Function.update (r.edges p) (wordOf i)
        (some ⟨wordOf source, wordOf target, wordOf ty, wordOf value⟩)) }
  | (.addNode p j ty value, .none) =>
    { r with
      nodes := Function.update r.nodes p (Function.update (r.nodes p) (wordOf j)
        (some ⟨wordOf ty, wordOf value⟩)) }
  | _ => r

/-- The record after some calls. -/
def recordAfter (es : List (ApiCall × ApiResult)) : Record :=
  es.foldl Record.next ⟨fun _ _ => none, fun _ _ => none⟩

theorem recordAfter_snoc (es : List (ApiCall × ApiResult)) (e : ApiCall × ApiResult) :
    recordAfter (es ++ [e]) = (recordAfter es).next e := by
  unfold recordAfter
  rw [List.foldl_append]
  rfl

/-! ### The store keeps to the record -/

/-- The slots of a graph that are in a record hold what is recorded. -/
structure GraphVal.Has (v : GraphVal) (edges : ℕ → Option EdgeWords)
    (nodes : ℕ → Option NodeWords) : Prop where
  edges : ∀ i e, edges i = some e → ∃ slots, v.edges = some slots ∧ slots[i]? = some e
  nodes : ∀ j a, nodes j = some a → ∃ slots, v.nodes = some slots ∧ slots[j]? = some a

namespace GraphVal.Has

variable {v : GraphVal} {edges : ℕ → Option EdgeWords} {nodes : ℕ → Option NodeWords}

/-- Nothing is recorded. -/
theorem empty (v : GraphVal) : v.Has (fun _ => none) (fun _ => none) := by
  constructor
  · intro i e he
    cases he
  · intro j a ha
    cases ha

/-- A slot that is set is the one that was written, or it is as before. -/
theorem getElem?_set {α : Type} {slots : List α} {f : ℕ → Option α} {i k : ℕ} {x y : α}
    (hi : i < slots.length) (hslots : ∀ y, f k = some y → slots[k]? = some y)
    (hy : Function.update f i (some x) k = some y) : (slots.set i x)[k]? = some y := by
  by_cases hk : k = i
  · subst hk
    rw [Function.update_self] at hy
    rw [List.getElem?_set_self hi, hy]
  · rw [Function.update_of_ne hk] at hy
    rw [List.getElem?_set_ne (Ne.symm hk), hslots y hy]

/-- An edge is written. -/
theorem setEdge (hv : v.Has edges nodes) {i : ℕ} (hi : i < v.edgesN) (hedges : v.edges ≠ none)
    (x : EdgeWords) : (v.setEdge i x).Has (Function.update edges i (some x)) nodes := by
  obtain ⟨slots, hslots⟩ := Option.ne_none_iff_exists'.mp hedges
  constructor
  · intro k y hy
    refine ⟨slots.set i x, congrArg (Option.map _) hslots, ?_⟩
    refine getElem?_set (by rwa [v.edges_length slots hslots]) (fun y hk => ?_) hy
    obtain ⟨slots', hslots', hget⟩ := hv.edges k y hk
    obtain rfl := Option.some.inj (hslots.symm.trans hslots')
    exact hget
  · exact hv.nodes

/-- A node is written. -/
theorem setNode (hv : v.Has edges nodes) {j : ℕ} (hj : j < v.nodesN) (hnodes : v.nodes ≠ none)
    (x : NodeWords) : (v.setNode j x).Has edges (Function.update nodes j (some x)) := by
  obtain ⟨slots, hslots⟩ := Option.ne_none_iff_exists'.mp hnodes
  constructor
  · exact hv.edges
  · intro k y hy
    refine ⟨slots.set j x, congrArg (Option.map _) hslots, ?_⟩
    refine getElem?_set (by rwa [v.nodes_length slots hslots]) (fun y hk => ?_) hy
    obtain ⟨slots', hslots', hget⟩ := hv.nodes k y hk
    obtain rfl := Option.some.inj (hslots.symm.trans hslots')
    exact hget

end GraphVal.Has

/-- Every graph of the store has what is recorded of it. -/
def Store.Has (s : Store) (r : Record) : Prop :=
  ∀ p v, s.graphs p = some v → v.Has (r.edges p) (r.nodes p)

/-- **A step keeps to the record.** -/
theorem Store.Step.has {h : Host} {s s' : Store} {e : ApiCall × ApiResult} {r : Record}
    (hstep : Store.Step h s e s') (hs : s.Has r) : s'.Has (r.next e) := by
  cases hstep with
  | argumentError hc =>
    -- an exception is not recorded
    cases ‹ApiCall› <;> exact hs
  | @mallocGraph _ _ p v hp hfresh hn he =>
    intro q u hu
    have hu : Function.update s.graphs p (some v) q = some u := hu
    change u.Has (Function.update r.edges p (fun _ => none) q)
      (Function.update r.nodes p (fun _ => none) q)
    by_cases hq : q = p
    · -- a new graph starts with nothing recorded
      subst hq
      rw [Function.update_self, Function.update_self]
      exact .empty u
    · rw [Function.update_of_ne hq, Function.update_of_ne hq]
      rw [Function.update_of_ne hq] at hu
      exact hs q u hu
  | @freeGraph p v hv =>
    -- what is recorded of the graph stays, but the graph is gone
    intro q u hu
    have hu : Function.update s.graphs p none q = some u := hu
    by_cases hq : q = p
    · rw [hq, Function.update_self] at hu
      cases hu
    · rw [Function.update_of_ne hq] at hu
      exact hs q u hu
  | @addEdge p v i source target ty value hv hi hedges =>
    intro q u hu
    have hu : Function.update s.graphs p (some _) q = some u := hu
    change u.Has (Function.update r.edges p (Function.update (r.edges p) (typeWord i)
      (some ⟨typeWord source, typeWord target, typeWord ty, typeWord value⟩)) q) (r.nodes q)
    by_cases hq : q = p
    · subst hq
      rw [Function.update_self] at hu ⊢
      obtain rfl := Option.some.inj hu
      exact (hs q v hv).setEdge hi hedges _
    · rw [Function.update_of_ne hq] at hu ⊢
      exact hs q u hu
  | @addNode p v j ty value hv hj hnodes =>
    intro q u hu
    have hu : Function.update s.graphs p (some _) q = some u := hu
    change u.Has (r.edges q) (Function.update r.nodes p (Function.update (r.nodes p) (typeWord j)
      (some ⟨typeWord ty, typeWord value⟩)) q)
    by_cases hq : q = p
    · subst hq
      rw [Function.update_self] at hu ⊢
      obtain rfl := Option.some.inj hu
      exact (hs q v hv).setNode hj hnodes _
    · rw [Function.update_of_ne hq] at hu ⊢
      exact hs q u hu
  | printGraph hv hprint => exact hs
  | matchGraphs hv hu hprint hprint' => exact hs
  | setLogLevel => exact hs

/-- **Every run of the store keeps to the record.** -/
theorem Store.has_of_run {h : Host} {s : Store} {es : List (ApiCall × ApiResult)}
    (hrun : Run (Store.Step h) (Store.init h) es s) : s.Has (recordAfter es) := by
  refine hrun.invariant (P := fun es s => s.Has (recordAfter es)) ?_ ?_
  · intro es e s₁ s₂ hs hstep
    rw [recordAfter_snoc]
    exact hstep.has hs
  · intro p v hv
    cases hv

/-! ### In a session -/

section Session

variable {h : Host} {m : Memory} {es : List (ApiCall × ApiResult)} {w : World}

/-- **The last write is what is read.** At the end of every session, each slot of a live
graph into which the client has written since the graph was allocated is one of its slots,
and reads as the signed view of the words last written. These are the numbers last written
exactly if the source, the target and the type of an edge, and the type of a node, are below
`2 ^ 31`. -/
theorem Session.reads_record (hs : Session h m es w) {p : ℕ} {counts : ℕ × ℕ}
    (hp : heldAfter es p = some counts) :
    (∀ i e, (recordAfter es).edges p i = some e → i < counts.2
      ∧ edgeView w.mem p i = [.ok (decode 4 true e.source), .ok (decode 4 true e.target),
        .ok (decode 4 true e.attributeType), .ok (e.attributeValue : ℤ)]
      ∧ (edgeView w.mem p i = [.ok (e.source : ℤ), .ok (e.target : ℤ),
          .ok (e.attributeType : ℤ), .ok (e.attributeValue : ℤ)]
        ↔ e.source < 2 ^ 31 ∧ e.target < 2 ^ 31 ∧ e.attributeType < 2 ^ 31))
    ∧ ∀ j a, (recordAfter es).nodes p j = some a → j < counts.1
      ∧ nodeView w.mem p j = [.ok (decode 4 true a.attributeType), .ok (a.attributeValue : ℤ)]
      ∧ (nodeView w.mem p j = [.ok (a.attributeType : ℤ), .ok (a.attributeValue : ℤ)]
        ↔ a.attributeType < 2 ^ 31) := by
  obtain ⟨s, graphs, hrun, hr, hheld⟩ := hs.represents
  rw [← hheld] at hp
  obtain ⟨v, hv, rfl⟩ := Store.held_eq_some hp
  have hhas := Store.has_of_run hrun p v hv
  have hreads := hr.reads hv
  constructor
  · intro i e he
    obtain ⟨slots, hslots, hget⟩ := hhas.edges i e he
    have hview := hreads.edge slots i e hslots hget
    refine ⟨?_, hview, ?_⟩
    · rw [← v.edges_length slots hslots]
      exact (List.getElem?_eq_some_iff.mp hget).1
    · rw [hview]
      simp only [List.cons.injEq, Except.ok.injEq, decode_word_eq_iff, and_true]
  · intro j a ha
    obtain ⟨slots, hslots, hget⟩ := hhas.nodes j a ha
    have hview := hreads.node slots j a hslots hget
    refine ⟨?_, hview, ?_⟩
    · rw [← v.nodes_length slots hslots]
      exact (List.getElem?_eq_some_iff.mp hget).1
    · rw [hview]
      simp only [List.cons.injEq, Except.ok.injEq, decode_word_eq_iff, and_true]

/-- The calls of a client that writes one slot twice, and in between allocates another graph
and has a call refused. -/
def writtenTwice : List (ApiCall × ApiResult) :=
  oneEdge ++ [(.mallocGraph (.int 1) (.int 0), .handle 4188),
    (.addNode 4129 (.int 1) (.tuple [0]) (.int 3), .argumentError),
    (.addEdge 4129 (.int 0) (.int 1) (.int 0) (.int 0) (.int 6), .none)]

theorem session_writtenTwice : ∃ w, Session .bump freshProcess writtenTwice w :=
  @Session.of_callAll _ _ (writtenTwice.map Prod.fst) _ loadable_freshProcess (by decide +kernel)
    (by decide +kernel)

/-- The second write is read, and the node that was written before. -/
theorem Session.reads_record_writtenTwice :
    ∃ w, Session .bump freshProcess writtenTwice w
      ∧ edgeView w.mem 4129 0 = [.ok 1, .ok 0, .ok 0, .ok 6]
      ∧ nodeView w.mem 4129 1 = [.ok 0, .ok 8] := by
  obtain ⟨w, hs⟩ := session_writtenTwice
  have hheld : heldAfter writtenTwice 4129 = some (2, 1) := rfl
  obtain ⟨hedges, hnodes⟩ := Session.reads_record hs hheld
  exact ⟨w, hs, (hedges 0 ⟨1, 0, 0, 6⟩ rfl).2.2.mpr (by decide),
    (hnodes 1 ⟨0, 8⟩ rfl).2.2.mpr (by decide)⟩

/-! ### On paper -/

/-- Pairs of which each is recorded are the pairs of the graph. -/
theorem GraphVal.Has.pairs_eq {v : GraphVal} {edges : ℕ → Option EdgeWords}
    {nodes : ℕ → Option NodeWords} (hv : v.Has edges nodes) {i : ℕ} {e : EdgeWords}
    (he : edges i = some e) : v.pairs[i]? = some (e.source, e.target) := by
  obtain ⟨slots, hslots, hget⟩ := hv.edges i e he
  unfold GraphVal.pairs
  rw [hslots, Option.getD_some, List.getElem?_map, hget, Option.map_some]

/-- **The last write is what is printed.** In every session, when the client has written
all edges of a graph, a call of `print_graph` that is defined writes a text to `stdout` from
which exactly the last written sources and targets are read back, in the order of the
slots. -/
theorem Session.prints_record (hs : Session h m es w) {p : ℕ} {counts : ℕ × ℕ}
    (hp : heldAfter es p = some counts) {e : ℕ → EdgeWords}
    (he : ∀ i < counts.2, (recordAfter es).edges p i = some (e i)) {current indent : ℤ}
    {w' : World} {res : ApiResult}
    (hcall : w.call h (.printGraph p (.int current) (.int indent)) = .ok (w', res)) :
    ∃ lines, w'.written = w.written ++ lines ∧ (∀ line ∈ lines, line.1 = h.stdout)
      ∧ readTrees (textOf lines)
        = ([(List.range counts.2).map fun i => ((e i).source, (e i).target)], []) := by
  obtain ⟨s, graphs, hrun, hr, hheld⟩ := hs.represents
  rw [← hheld] at hp
  obtain ⟨u, hu, rfl⟩ := Store.held_eq_some hp
  -- the call is defined, so there are edges for it to print and an `int` counts them
  have hprintable := (hr.print_defined_iff hu current indent).mp ⟨_, hcall⟩
  have hc : s.held.Allows (.printGraph p (.int current) (.int indent)) :=
    ⟨_, hp, hprintable.1⟩
  obtain ⟨s', graphs', hstep, hr'⟩ := hr.step_of_call hc hcall
  cases hstep with
  | argumentError hbad =>
    obtain ⟨elems, helems⟩ := hbad
    simp [ApiCall.args] at helems
  | @printGraph _ v _ _ hv hprint =>
    obtain rfl := Option.some.inj (hv.symm.trans hu)
    refine ⟨printedLines h v, ?_, fun line hline => printedLines_stdout hline, ?_⟩
    · rw [hr'.written_eq, hr.written_eq]
      rfl
    · have hhas := Store.has_of_run hrun p v hv
      have hpairs : v.pairs
          = (List.range v.edgesN).map fun i => ((e i).source, (e i).target) := by
        refine List.ext_getElem? fun i => ?_
        by_cases hi : i < v.edgesN
        · rw [hhas.pairs_eq (he i hi), List.getElem?_map, List.getElem?_range hi, Option.map_some]
        · -- there are as many pairs as edges
          rw [List.getElem?_eq_none, List.getElem?_eq_none]
          · rw [List.length_map, List.length_range]
            exact Nat.le_of_not_lt hi
          · rw [GraphVal.length_pairs hprint]
            exact Nat.le_of_not_lt hi
      have htrees := readTrees_eq [v.pairs]
      rw [List.flatMap_singleton] at htrees
      rw [textOf_printedLines, htrees, hpairs]

/-- The graph is printed after the second write. -/
theorem Session.prints_record_writtenTwice :
    ∃ w w' lines, Session .bump freshProcess writtenTwice w
      ∧ w.call .bump (.printGraph 4129 (.int 0) (.int 0)) = .ok (w', .none)
      ∧ w'.written = w.written ++ lines ∧ readTrees (textOf lines) = ([[(1, 0)]], []) := by
  obtain ⟨w', hs'⟩ := @Session.of_callAll _ _
    (writtenTwice.map Prod.fst ++ [.printGraph 4129 (.int 0) (.int 0)])
    (writtenTwice ++ [(.printGraph 4129 (.int 0) (.int 0), .none)]) loadable_freshProcess
    (by decide +kernel) (by decide +kernel)
  obtain ⟨w, hs, -, hcall⟩ := hs'.unsnoc
  have hheld : heldAfter writtenTwice 4129 = some (2, 1) := rfl
  have hrecord : ∀ i < 1, (recordAfter writtenTwice).edges 4129 i = some ⟨1, 0, 0, 6⟩ := by
    intro i hi
    obtain rfl := Nat.lt_one_iff.mp hi
    rfl
  obtain ⟨lines, hwritten, -, hread⟩ := Session.prints_record hs hheld hrecord hcall
  exact ⟨w, w', lines, hs, hcall, hwritten, hread⟩

end Session

end Arboql
