import Arboql.Graph.Dangling
import Arboql.Lib.Reading

/-!
# What `match` prints can be read back

`match` and `print_graph` write the edges of a graph as text, a line for each edge after
the header `Tree`. A reader of this text gets back the edges of every graph printed
(`readTrees_eq`): a number ends at the space or the end of the line, a line begins
with a digit, and the header of the next graph does not. So in every session the text
that a call of `match` writes determines the edges of both graphs in memory
(`Session.match_text`).
-/

namespace Arboql

open CLayout Simulation Reading Loops

/-! ### The text -/

/-- The text of a line. -/
def lineText (e : ℕ × ℕ) : List Char :=
  (toString e.1).toList ++ ' ' :: ((toString e.2).toList ++ ['\n'])

/-- The text of a graph. -/
def treeText (edges : List (ℕ × ℕ)) : List Char :=
  "\nTree\n".toList ++ edges.flatMap lineText

/-- The edges as they are printed. -/
def GraphVal.pairs (v : GraphVal) : List (ℕ × ℕ) :=
  (v.edges.getD []).map fun e => (e.source, e.target)

/-- The characters of what is written. -/
def textOf (lines : List (ℕ × String)) : List Char := lines.flatMap fun line => line.2.toList

theorem toList_edgeLine (e : EdgeWords) : (edgeLine e).toList = lineText (e.source, e.target) := by
  unfold edgeLine lineText formatU
  rw [String.toList_append, String.toList_append, String.toList_append, List.append_assoc,
    List.append_assoc]
  rfl

/-- The text of a printed graph. -/
theorem textOf_printedLines (h : Host) (v : GraphVal) :
    textOf (printedLines h v) = treeText v.pairs := by
  unfold textOf printedLines treeText GraphVal.pairs
  rw [List.flatMap_cons, List.flatMap_map, List.flatMap_map]
  refine congrArg _ (List.flatMap_congr fun e he => ?_)
  exact toList_edgeLine e

theorem printedLines_stdout {h : Host} {v : GraphVal} {line : ℕ × String}
    (hline : line ∈ printedLines h v) : line.1 = h.stdout := by
  rcases List.mem_cons.mp hline with rfl | hline
  · rfl
  · obtain ⟨e, -, rfl⟩ := List.mem_map.mp hline
    rfl

/-! ### Reading -/

/-- Reads a line. -/
def readEdge : Reader (ℕ × ℕ) := fun cs => do
  let (source, cs) ← readNat cs
  let cs ← expect [' '] cs
  let (target, cs) ← readNat cs
  let cs ← expect ['\n'] cs
  return ((source, target), cs)

/-- Reads a graph. -/
def readTree : Reader (List (ℕ × ℕ)) := fun cs => do
  let cs ← expect "\nTree\n".toList cs
  return many readEdge (cs.length + 1) cs

/-- Reads graphs up to the end of the text. -/
def readTrees (cs : List Char) : List (List (ℕ × ℕ)) × List Char :=
  many readTree (cs.length + 1) cs

/-- A line is read back, whatever follows it. -/
theorem readEdge_lineText (e : ℕ × ℕ) (rest : List Char) :
    readEdge (lineText e ++ rest) = some (e, rest) := by
  -- a number ends where a space or the end of the line comes
  have hspace : ∀ cs c, (' ' :: cs : List Char).head? = some c → c.isDigit = false := by
    intro cs c hc
    obtain rfl := Option.some.inj hc
    rfl
  have hnewline : ∀ cs c, ('\n' :: cs : List Char).head? = some c → c.isDigit = false := by
    intro cs c hc
    obtain rfl := Option.some.inj hc
    rfl
  unfold lineText readEdge
  simp only [List.append_assoc, List.cons_append, List.nil_append, readNat_append _ (hspace _),
    readNat_append _ (hnewline _), expect_singleton, bind, Option.bind]
  rfl

/-- At a text that does not begin with a digit there is no line. -/
theorem readEdge_eq_none {cs : List Char} (hcs : ∀ c, cs.head? = some c → c.isDigit = false) :
    readEdge cs = none := by
  have hnone : readNat cs = none := by
    cases cs with
    | nil => rfl
    | cons c cs =>
      have hc := hcs c rfl
      rw [readNat, List.takeWhile_cons, hc]
      rfl
  unfold readEdge
  rw [hnone]
  rfl

theorem lineText_ne_nil (e : ℕ × ℕ) : lineText e ≠ [] := by
  unfold lineText
  simp

/-- Lines are read back up to a text that does not begin with a digit. -/
theorem many_readEdge (edges : List (ℕ × ℕ)) {stop : List Char}
    (hstop : ∀ c, stop.head? = some c → c.isDigit = false) {fuel : ℕ}
    (hf : edges.length < fuel) :
    many readEdge fuel (edges.flatMap lineText ++ stop) = (edges, stop) :=
  many_flatMap (fun e _ => readEdge_lineText e _) (readEdge_eq_none hstop) edges hf

/-- **A graph is read back** before a text that does not begin with a digit. -/
theorem readTree_treeText (edges : List (ℕ × ℕ)) {stop : List Char}
    (hstop : ∀ c, stop.head? = some c → c.isDigit = false) :
    readTree (treeText edges ++ stop) = some (edges, stop) := by
  have hlen : edges.length < (edges.flatMap lineText ++ stop).length + 1 := by
    have hle := length_le_flatMap lineText_ne_nil edges
    rw [List.length_append]
    omega
  unfold readTree treeText
  rw [List.append_assoc, expect_append]
  exact congrArg some (many_readEdge edges hstop hlen)

/-- What follows a graph does not begin with a digit: it is another graph, or nothing. -/
theorem head_trees (trees : List (List (ℕ × ℕ))) {c : Char}
    (hc : (trees.flatMap treeText ++ []).head? = some c) : c.isDigit = false := by
  cases trees with
  | nil => cases hc
  | cons tree trees =>
    obtain rfl : '\n' = c := Option.some.inj hc
    rfl

/-- **The text of any number of graphs is read back.** -/
theorem readTrees_eq (trees : List (List (ℕ × ℕ))) :
    readTrees (trees.flatMap treeText) = (trees, []) := by
  have hne : ∀ tree, treeText tree ≠ [] := by
    intro tree
    unfold treeText
    simp
  have hlen := length_le_flatMap hne trees
  -- there is more fuel than there are graphs, as no text is empty
  have hread := many_flatMap
    (fun tree trees => readTree_treeText tree fun c hc => head_trees trees hc) rfl trees
    (Nat.lt_succ_of_le hlen)
  rw [List.append_nil] at hread
  exact hread

/-- The text of two graphs that are printed one after the other. -/
theorem readTrees_printed (h : Host) (v u : GraphVal) :
    readTrees (textOf (printedLines h v ++ printedLines h u)) = ([v.pairs, u.pairs], []) := by
  have htext : textOf (printedLines h v ++ printedLines h u)
      = [v.pairs, u.pairs].flatMap treeText := by
    unfold textOf
    rw [List.flatMap_append]
    change textOf _ ++ textOf _ = treeText _ ++ (treeText _ ++ [])
    rw [textOf_printedLines, textOf_printedLines, List.append_nil]
  rw [htext]
  exact readTrees_eq _

/-! ### In memory -/

section Memory

variable {h : Host} {m : Memory} {w : World}

/-- C reads the edges in memory as they are printed. -/
theorem pairs_in_memory {g : LiveGraph} {loose : List (ℕ × ℕ)} {objs : List Owned}
    (hl : Ledger (owned h) m loose objs) (hg : Owned.graph g ∈ objs) {i source target : ℕ}
    (hi : g.val.pairs[i]? = some (source, target)) :
    edgeMember m g.addr i ["source"] = .ok (source : ℤ)
      ∧ edgeMember m g.addr i ["target"] = .ok (target : ℤ) := by
  unfold GraphVal.pairs at hi
  cases hslots : g.val.edges with
  | none =>
    rw [hslots] at hi
    cases hi
  | some slots =>
    rw [hslots, Option.getD_some, List.getElem?_map] at hi
    obtain ⟨e, he, hpair⟩ := Option.map_eq_some_iff.mp hi
    obtain ⟨rfl, rfl⟩ := Prod.mk.inj hpair
    obtain ⟨hsource, htarget⟩ := load_edgeSlot hl hg hslots he
    have hedges := (graphAt_of_ledger hl hg).load_edges
    constructor
    · unfold edgeMember
      rw [hedges]
      exact hsource
    · unfold edgeMember
      rw [hedges]
      exact htarget

/-- A graph that can be printed has all its edges printed. -/
theorem GraphVal.length_pairs {v : GraphVal} (hv : v.Printable) : v.pairs.length = v.edgesN := by
  unfold pairs
  rw [List.length_map]
  cases hslots : v.edges with
  | none => exact (hv.2 hslots).symm
  | some slots => exact v.edges_length slots hslots

/-- **The edges of a graph in memory**, in the order of their slots. -/
def EdgesAt (m : Memory) (p edgesN : ℕ) (pairs : List (ℕ × ℕ)) : Prop :=
  pairs.length = edgesN ∧ ∀ (i source target : ℕ), pairs[i]? = some (source, target) →
    edgeMember m p i ["source"] = .ok (source : ℤ) ∧ edgeMember m p i ["target"] = .ok (target : ℤ)

theorem Represents.edgesAt {rest : Memory} {s : Store} {graphs : List LiveGraph}
    (hr : Represents h rest w s graphs) {p : ℕ} {v : GraphVal} (hv : s.graphs p = some v)
    (hprint : v.Printable) : EdgesAt w.mem p v.edgesN v.pairs := by
  obtain ⟨g, others, rfl, rfl, hl, -⟩ := hr.focus hv
  exact ⟨GraphVal.length_pairs hprint, fun i source target hi =>
    pairs_in_memory hl List.mem_cons_self hi⟩

/-- **What `match` writes.** In every session a call of `match` that is defined gives the
status 42, changes no memory, and writes to `stdout` a text from which the edges of both
graphs, as they are in memory, can be read back. -/
theorem Session.match_text {es : List (ApiCall × ApiResult)} (hs : Session h m es w) {p q : ℕ}
    (hc : (heldAfter es).Allows (.matchGraphs p q)) {w' : World} {res : ApiResult}
    (hcall : w.call h (.matchGraphs p q) = .ok (w', res)) :
    res = .status 42 ∧ w'.mem = w.mem ∧ ∃ lines, w'.written = w.written ++ lines
      ∧ (∀ line ∈ lines, line.1 = h.stdout)
      ∧ ∃ counts counts' pairs pairs', heldAfter es p = some counts
        ∧ heldAfter es q = some counts' ∧ EdgesAt w.mem p counts.2 pairs
        ∧ EdgesAt w.mem q counts'.2 pairs' ∧ readTrees (textOf lines) = ([pairs, pairs'], []) := by
  obtain ⟨s, graphs, -, hr, hheld⟩ := hs.represents
  rw [← hheld] at hc ⊢
  obtain ⟨s', graphs', hstep, hr'⟩ := hr.step_of_call hc hcall
  cases hstep with
  | argumentError hbad =>
    obtain ⟨elems, helems⟩ := hbad
    exact absurd helems List.not_mem_nil
  | @matchGraphs _ _ v u hv hu hprint hprint' =>
    refine ⟨rfl, World.call_match_mem hcall, printedLines h v ++ printedLines h u, ?_, ?_, _, _,
      v.pairs, u.pairs, Store.held_eq hv, Store.held_eq hu, hr.edgesAt hv hprint,
      hr.edgesAt hu hprint', ?_⟩
    · rw [hr'.written_eq, hr.written_eq]
      rfl
    · -- everything is printed with `printf`
      intro line hline
      rcases List.mem_append.mp hline with hline | hline
      · exact printedLines_stdout hline
      · exact printedLines_stdout hline
    · exact readTrees_printed h v u

/-- A graph is matched with itself. -/
theorem Session.match_text_oneEdge :
    ∃ w w', Session .bump freshProcess oneEdge w
      ∧ w.call .bump (.matchGraphs 4129 4129) = .ok (w', .status 42)
      ∧ ∃ lines, w'.written = w.written ++ lines
        ∧ ∃ pairs, EdgesAt w.mem 4129 1 pairs
          ∧ (readTrees (textOf lines)).1.head? = some pairs := by
  obtain ⟨w', hs'⟩ := @Session.of_callAll _ _
    (oneEdge.map Prod.fst ++ [.matchGraphs 4129 4129])
    (oneEdge ++ [(.matchGraphs 4129 4129, .status 42)]) loadable_freshProcess
    (by decide +kernel) (by decide +kernel)
  obtain ⟨w, hs, hc, hcall⟩ := hs'.unsnoc
  obtain ⟨-, -, lines, hlines, -, counts, counts', pairs, pairs', hheld, -, hedges, -, hread⟩ :=
    Session.match_text hs hc hcall
  obtain rfl : (2, 1) = counts := Option.some.inj hheld
  refine ⟨w, w', hs, hcall, lines, hlines, pairs, hedges, ?_⟩
  rw [hread]
  rfl

/-! ### When there is a text -/

/-- The `int` counter of `print_graph` reaches every edge, and there is an array for
them. -/
def PrintableAt (m : Memory) (p edgesN : ℕ) : Prop := edgesN < 2 ^ 31 ∧ ¬ LacksEdges m p

theorem Represents.printable_iff {rest : Memory} {s : Store} {graphs : List LiveGraph}
    (hr : Represents h rest w s graphs) {p : ℕ} {v : GraphVal} (hv : s.graphs p = some v) :
    v.Printable ↔ PrintableAt w.mem p v.edgesN := by
  obtain ⟨-, -, hlacks⟩ := hr.header hv
  unfold GraphVal.Printable PrintableAt
  rw [hlacks, not_and, Nat.not_lt, Nat.le_zero]

/-- `print_graph` is defined exactly on such graphs. -/
theorem Represents.printGraph_defined_iff {rest : Memory} {s : Store} {graphs : List LiveGraph}
    (hr : Represents h rest w s graphs) {p : ℕ} {v : GraphVal} (hv : s.graphs p = some v) :
    Defined (Arboql.printGraph h w p) ↔ PrintableAt w.mem p v.edgesN := by
  rw [← hr.printable_iff hv]
  obtain ⟨g, others, rfl, rfl, hl, -⟩ := hr.focus hv
  exact Arboql.printGraph_defined_iff hl List.mem_cons_self

/-- A call that raises no exception is defined if its C function is. -/
theorem World.call_defined_iff {c : ApiCall} (hc : NotRaised (w.perform h c)) :
    Defined (w.call h c) ↔ Defined (w.perform h c) := by
  constructor
  · rintro ⟨r, hr⟩
    unfold World.call at hr
    split at hr
    · next hraised => exact absurd hraised hc
    · exact ⟨r, hr⟩
  · rintro ⟨r, hr⟩
    exact ⟨r, World.call_of_ok hr⟩

/-- The call from Python is defined on the same graphs. -/
theorem Represents.print_defined_iff {rest : Memory} {s : Store} {graphs : List LiveGraph}
    (hr : Represents h rest w s graphs) {p : ℕ} {v : GraphVal} (hv : s.graphs p = some v)
    (current indent : ℤ) :
    Defined (w.call h (.printGraph p (.int current) (.int indent)))
      ↔ PrintableAt w.mem p v.edgesN := by
  have hperform : w.perform h (.printGraph p (.int current) (.int indent))
      = (Arboql.printGraph h w p >>= fun w => return (w, .none)) := rfl
  have hraised : NotRaised (w.perform h (.printGraph p (.int current) (.int indent))) := by
    rw [hperform]
    exact .bind (.printGraph h w p) fun w₁ => .ok _
  rw [World.call_defined_iff hraised, hperform, ← hr.printGraph_defined_iff hv]
  constructor
  · rintro ⟨r, hok⟩
    obtain ⟨w₁, hok, -⟩ := bind_eq_ok_iff.mp hok
    exact ⟨w₁, hok⟩
  · rintro ⟨w₁, hok⟩
    exact ⟨(w₁, .none), bind_eq_ok_iff.mpr ⟨w₁, hok, rfl⟩⟩

end Memory

end Arboql
