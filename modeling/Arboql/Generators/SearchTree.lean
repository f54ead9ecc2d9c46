import Arboql.Generators.InjEnumeration
import Arboql.Lib.Arrangements
import Arboql.Lib.Simulation
import Mathlib.Data.List.ReduceOption

/-!
# The whole search of the injection generator

One call of `inj_next` may take `2 k` iterations. Over all calls until the end the search
passes once through every node of the tree of injective tuples: a choice goes down to a
node, and each node is left once, by a backtrack or a yield (`SearchState.step`). The
tuples that the choices make are the nodes in preorder, which is the lexicographic order,
and the iterations number twice the nodes and one (`injNext_search_tree`). There are
fewer than three nodes for each tuple yielded, so on average a yield takes fewer than six
iterations.

The nodes still to come are listed as the tuples still to come are in
`Arboql.Generators.InjEnumeration`: those below the current node, and then, level by level,
those after it.
-/

namespace Arboql

open Loops LexTuples Simulation

/-! ### The nodes still to come -/

/-- The nodes below `p` whose next entry is at least `c`. -/
def nodesBelow (n k : ℕ) (p : List ℕ) (c : ℕ) : List (List ℕ) :=
  if p.length = k then []
  else (List.range' c (n - c)).flatMap fun v =>
    if v ∈ p then [] else (p ++ [v]) :: prefixes (List.range n) (k - p.length - 1) (p ++ [v])

/-- The nodes after `p`, on the levels above it, the last one first. The argument is the
tuple in reverse. -/
def nodesAfter (n k : ℕ) : List ℕ → List (List ℕ)
  | [] => []
  | x :: rev => nodesBelow n k rev.reverse (x + 1) ++ nodesAfter n k rev

/-- All the nodes still to come. -/
def nodesToCome (n k : ℕ) (p : List ℕ) (c : ℕ) : List (List ℕ) :=
  nodesBelow n k p c ++ nodesAfter n k p.reverse

variable {n k : ℕ}

theorem nodesAfter_concat (q : List ℕ) (x : ℕ) :
    nodesAfter n k (q ++ [x]).reverse
      = nodesBelow n k q (x + 1) ++ nodesAfter n k q.reverse := by
  rw [List.reverse_append, List.reverse_singleton, List.singleton_append, nodesAfter,
    List.reverse_reverse]

/-- From candidate `0` on, they are all the nodes below. -/
theorem nodesBelow_zero (p : List ℕ) (hp : p.length ≤ k) :
    nodesBelow n k p 0 = prefixes (List.range n) (k - p.length) p := by
  unfold nodesBelow
  by_cases hpk : p.length = k
  · rw [if_pos hpk, hpk, Nat.sub_self, prefixes_zero]
  · obtain ⟨d, hd⟩ : ∃ d, k - p.length = d + 1 := ⟨k - p.length - 1, by omega⟩
    rw [if_neg hpk, hd, prefixes_succ, Nat.add_sub_cancel, Nat.sub_zero, List.range_eq_range']

/-- Values in use contribute nothing. -/
theorem nodesBelow_skip (p : List ℕ) {c v : ℕ} (hcv : c ≤ v) (hvn : v ≤ n)
    (hskip : ∀ x, c ≤ x → x < v → x ∈ p) : nodesBelow n k p c = nodesBelow n k p v := by
  have hsplit : List.range' c (n - c) = List.range' c (v - c) ++ List.range' v (n - v) := by
    have happ : _ = List.range' c (v - c + (n - v)) := List.range'_append
    rw [Nat.one_mul, show c + (v - c) = v by omega, show v - c + (n - v) = n - c by omega] at happ
    exact happ.symm
  unfold nodesBelow
  by_cases hp : p.length = k
  · rw [if_pos hp, if_pos hp]
  · -- the candidates before `v` are in use
    rw [if_neg hp, if_neg hp, hsplit, List.flatMap_append]
    refine (congrArg (· ++ _) (List.flatMap_eq_nil_iff.mpr fun x hx => ?_)).trans
      (List.nil_append _)
    rw [List.mem_range'_1] at hx
    rw [if_pos (hskip x hx.1 (by omega))]

/-- Without a candidate left there is no node below. -/
theorem nodesBelow_end (p : List ℕ) {c : ℕ} (hcn : c ≤ n)
    (hall : ∀ x, c ≤ x → x < n → x ∈ p) : nodesBelow n k p c = [] := by
  rw [nodesBelow_skip p hcn le_rfl hall]
  unfold nodesBelow
  rw [Nat.sub_self]
  by_cases hp : p.length = k
  · rw [if_pos hp]
  · rw [if_neg hp]
    rfl

/-- **Choosing** the first unused candidate goes to the first node to come. -/
theorem nodesToCome_choose {p : List ℕ} (hp : p.length < k) {c v : ℕ} (hcv : c ≤ v) (hv : v < n)
    (hvp : v ∉ p) (hskip : ∀ x, c ≤ x → x < v → x ∈ p) :
    nodesToCome n k p c = (p ++ [v]) :: nodesToCome n k (p ++ [v]) 0 := by
  have hlen : (p ++ [v]).length = p.length + 1 := by simp
  have hfirst : nodesBelow n k p v
      = (p ++ [v]) :: (nodesBelow n k (p ++ [v]) 0 ++ nodesBelow n k p (v + 1)) := by
    rw [nodesBelow_zero (p ++ [v]) (by omega), hlen]
    unfold nodesBelow
    rw [if_neg (by omega), if_neg (by omega), show n - v = n - (v + 1) + 1 by omega,
      List.range'_succ, List.flatMap_cons, if_neg hvp, Nat.sub_sub, List.cons_append]
  unfold nodesToCome
  rw [nodesBelow_skip p hcv hv.le hskip, hfirst, nodesAfter_concat, List.cons_append,
    List.append_assoc]

/-- **Stepping back** from a node without nodes below it keeps the nodes to come. -/
theorem nodesToCome_back {q : List ℕ} {x c : ℕ} (hnone : nodesBelow n k (q ++ [x]) c = []) :
    nodesToCome n k (q ++ [x]) c = nodesToCome n k q (x + 1) := by
  unfold nodesToCome
  rw [hnone, List.nil_append, nodesAfter_concat]

/-- Before the first choice, all the nodes are to come. -/
theorem nodesToCome_root : nodesToCome n k [] 0 = prefixes (List.range n) k [] := by
  unfold nodesToCome
  rw [nodesBelow_zero [] (Nat.zero_le k), List.length_nil, Nat.sub_zero, List.reverse_nil,
    nodesAfter, List.append_nil]

/-! ### One iteration -/

/-- A state of the search with the nodes `ts` still to come. -/
structure SearchState (n k : ℕ) (g : InjCoroutine) (ts : List (List ℕ)) : Prop where
  inv : SearchInv n k g
  toCome : ∀ c, (g.pos < k → g.nextc.cells[g.pos]? = some c) → nodesToCome n k g.chosen c = ts

/-- The node that an iteration goes down to. -/
def chosenNode (g : InjCoroutine) :
    Flow InjCoroutine (ℤ × Option InjCoroutine × Ptr ℤ) → Option (List ℕ)
  | .again g' => if g.pos < g'.pos then some g'.chosen else none
  | .leave _ => none

/-- One level up, at the candidate after the released value. -/
theorem SearchState.back {g g' : InjCoroutine} {ts : List (List ℕ)} {x c : ℕ}
    (hS : SearchState n k g ts) (hc : g.pos < k → g.nextc.cells[g.pos]? = some c)
    (hI : SearchInv n k g') (hpos : g'.pos < k) (hsplit : g.chosen = g'.chosen ++ [x])
    (hnext : g'.nextc.cells[g'.pos]? = some (x + 1))
    (hnone : nodesBelow n k (g'.chosen ++ [x]) c = []) : SearchState n k g' ts := by
  refine ⟨hI, fun c' hc' => ?_⟩
  obtain rfl : x + 1 = c' := Option.some.inj (hnext.symm.trans (hc' hpos))
  rw [← nodesToCome_back hnone, ← hsplit]
  exact hS.toCome c hc

/-- What an iteration of the search does: it goes down to the first node to come, goes up,
yields and goes up, or ends the search, with no node to come. -/
inductive SearchStep (n k : ℕ) (out : Ptr ℤ) (g : InjCoroutine) : List (List ℕ) → Prop
  | choose {g' : InjCoroutine} {t : List ℕ} {ts : List (List ℕ)}
      (h : Step (injBody out) g g') (hmark : chosenNode g (.again g') = some t)
      (hpos : g'.pos = g.pos + 1) (hS : SearchState n k g' ts) : SearchStep n k out g (t :: ts)
  | backtrack {g' : InjCoroutine} {ts : List (List ℕ)}
      (h : Step (injBody out) g g') (hmark : chosenNode g (.again g') = none)
      (hpos : g'.pos + 1 = g.pos) (hS : SearchState n k g' ts) : SearchStep n k out g ts
  | yield {g' : InjCoroutine} {out' : Ptr ℤ} {ts : List (List ℕ)}
      (h : injBody out g = .ok (.leave (1, some g', out'))) (hpos : g'.pos + 1 = g.pos)
      (hS : SearchState n k g' ts) : SearchStep n k out g ts
  | finish {g' : InjCoroutine} (h : injBody out g = .ok (.leave (0, some g', out)))
      (hpos : g.pos = 0) (hE : Exhausted n k g') : SearchStep n k out g []

/-- **Step lemma.** -/
theorem SearchState.step {g : InjCoroutine} {ts : List (List ℕ)} {out : Ptr ℤ}
    (hS : SearchState n k g ts) (hk : 0 < k) (hout : out.cells.length = k) :
    SearchStep n k out g ts := by
  have hlen := hS.inv.length_chosen
  rcases Nat.lt_or_ge g.pos k with hpos | hpos
  · obtain ⟨c, hc, hcn⟩ := hS.inv.nextc_le hpos
    have hts := hS.toCome c fun _ => hc
    rcases injBody_search hS.inv hpos hc with
      ⟨v, g', hcv, hv, hvnot, hskip, hb, hI', hpos', hchosen, h0⟩ | ⟨hall, hback | hfin⟩
    · -- down to the first node to come
      rw [nodesToCome_choose (by omega) hcv hv hvnot hskip] at hts
      rw [← hts]
      refine .choose (hb out) (by rw [chosenNode, if_pos (by omega), hchosen]) hpos' ⟨hI', ?_⟩
      intro c' hc'
      rw [hchosen]
      by_cases hlast : g'.pos < k
      · obtain rfl : 0 = c' := Option.some.inj ((h0 hlast).symm.trans (hc' hlast))
        rfl
      · -- a complete tuple has no node below it, whatever the candidate
        have hfull : (g.chosen ++ [v]).length = k := by
          rw [← hchosen, hI'.length_chosen]
          exact Nat.le_antisymm hI'.pos_le (Nat.le_of_not_lt hlast)
        unfold nodesToCome nodesBelow
        rw [if_pos hfull, if_pos hfull]
    · -- up from a node whose candidates are used up
      obtain ⟨g', x, hb, hI', hpos', hsplit, hnext⟩ := hback
      rw [hsplit] at hall
      exact .backtrack (hb out) (by rw [chosenNode, if_neg (by omega)]) hpos'
        (hS.back (fun _ => hc) hI' (by omega) hsplit hnext (nodesBelow_end _ hcn hall))
    · -- at the root there is nothing to go up to
      obtain ⟨h0, g', hb, hE⟩ := hfin
      have hnil : g.chosen = [] := List.eq_nil_of_length_eq_zero (by omega)
      rw [hnil] at hall hts
      have hnone : ts = [] := by
        rw [← hts]
        unfold nodesToCome
        rw [nodesBelow_end _ hcn hall, List.reverse_nil, nodesAfter, List.append_nil]
      rw [hnone]
      exact .finish (hb out) h0 hE
  · -- a complete tuple
    have hfull : g.pos = k := Nat.le_antisymm hS.inv.pos_le hpos
    obtain ⟨g', x, hb, hI', hpos', -, hsplit, hnext⟩ := injBody_yield hS.inv hk hfull
    have hnone : nodesBelow n k (g'.chosen ++ [x]) 0 = [] := by
      unfold nodesBelow
      rw [← hsplit, if_pos (hlen.trans hfull)]
    exact .yield (hb out hout) (by omega)
      (hS.back (fun h => absurd h (by omega)) hI' (by omega) hsplit hnext hnone)

/-! ### One call -/

/-- What a call leaves behind: the nodes it went down to are the first ones that were to
come, and its iterations are paid for by these nodes and the levels. -/
def Advances (n k : ℕ) (pos : ℕ) (ts : List (List ℕ)) (marks : List (Option (List ℕ)))
    (r : ℤ × Option InjCoroutine × Ptr ℤ) : Prop :=
  (∃ g' out' ts', r = (1, some g', out') ∧ SearchState n k g' ts' ∧ g'.pos < k
      ∧ ts = marks.reduceOption ++ ts' ∧ marks.length + 2 * ts'.length + g'.pos
        = 2 * ts.length + pos)
    ∨ ∃ g' out', r = (0, some g', out') ∧ Exhausted n k g' ∧ ts = marks.reduceOption
      ∧ marks.length = 2 * ts.length + pos + 1

/-- One iteration down before the others. -/
theorem Advances.choose {pos : ℕ} {t : List ℕ} {ts : List (List ℕ)}
    {marks : List (Option (List ℕ))} {r : ℤ × Option InjCoroutine × Ptr ℤ}
    (h : Advances n k (pos + 1) ts marks r) : Advances n k pos (t :: ts) (some t :: marks) r := by
  rcases h with ⟨g', out', ts', hr, hS, hpos, rfl, hcount⟩ | ⟨g', out', hr, hE, rfl, hcount⟩
  · refine Or.inl ⟨g', out', ts', hr, hS, hpos, rfl, ?_⟩
    rw [List.length_cons, List.length_cons]
    omega
  · refine Or.inr ⟨g', out', hr, hE, rfl, ?_⟩
    rw [List.length_cons, List.length_cons]
    omega

/-- One iteration up before the others. -/
theorem Advances.backtrack {pos : ℕ} {ts : List (List ℕ)} {marks : List (Option (List ℕ))}
    {r : ℤ × Option InjCoroutine × Ptr ℤ} (h : Advances n k pos ts marks r) :
    Advances n k (pos + 1) ts (none :: marks) r := by
  rcases h with ⟨g', out', ts', hr, hS, hpos, rfl, hcount⟩ | ⟨g', out', hr, hE, rfl, hcount⟩
  · refine Or.inl ⟨g', out', ts', hr, hS, hpos, rfl, ?_⟩
    rw [List.length_cons]
    omega
  · refine Or.inr ⟨g', out', hr, hE, rfl, ?_⟩
    rw [List.length_cons]
    omega

/-- **Every call advances the search.** -/
theorem SearchState.advances {g : InjCoroutine} {ts : List (List ℕ)} {out : Ptr ℤ}
    {marks : List (Option (List ℕ))} {r : ℤ × Option InjCoroutine × Ptr ℤ}
    (ht : Trace (injBody out) chosenNode g marks r) (hS : SearchState n k g ts) (hk : 0 < k)
    (hout : out.cells.length = k) : Advances n k g.pos ts marks r := by
  -- the nodes to come and the depth say what the iteration does
  induction ht generalizing ts with
  | leave h =>
    cases hS.step hk hout with
    | choose h' => rw [show _ = _ from h'] at h; cases h
    | backtrack h' => rw [show _ = _ from h'] at h; cases h
    | @yield g' out' ts h' hpos hS' =>
      rw [h'] at h
      cases h
      have hle := hS.inv.pos_le
      exact Or.inl ⟨g', out', ts, rfl, hS', by omega, rfl, by
        rw [List.length_singleton]
        omega⟩
    | finish h' hpos hE =>
      rw [h'] at h
      cases h
      exact Or.inr ⟨_, _, rfl, hE, rfl, by rw [List.length_singleton, hpos]; rfl⟩
  | again h _ ih =>
    have h : injBody out _ = _ := h
    cases hS.step hk hout with
    | choose h' hmark hpos hS' =>
      rw [show _ = _ from h'] at h
      cases h
      rw [hmark]
      exact (hpos ▸ ih hS').choose
    | backtrack h' hmark hpos hS' =>
      rw [show _ = _ from h'] at h
      cases h
      rw [hmark, ← hpos]
      exact (ih hS').backtrack
    | yield h' => rw [h'] at h; cases h
    | finish h' => rw [h'] at h; cases h

/-- **Every call returns.** -/
theorem SearchState.exists_trace {N : ℕ} {g : InjCoroutine} {ts : List (List ℕ)} {out : Ptr ℤ}
    (hN : 2 * ts.length + g.pos = N) (hS : SearchState n k g ts) (hk : 0 < k)
    (hout : out.cells.length = k) : ∃ marks r, Trace (injBody out) chosenNode g marks r := by
  -- on what is left to pay for iterations
  induction N using Nat.strong_induction_on generalizing g ts with
  | _ N ih =>
    cases hS.step hk hout with
    | @choose g' t ts h hmark hpos hS' =>
      rw [List.length_cons] at hN
      obtain ⟨marks, r, ht⟩ := ih (2 * ts.length + g'.pos) (by omega) rfl hS'
      exact ⟨_, r, .again h ht⟩
    | @backtrack g' _ h hmark hpos hS' =>
      obtain ⟨marks, r, ht⟩ := ih (2 * ts.length + g'.pos) (by omega) rfl hS'
      exact ⟨_, r, .again h ht⟩
    | yield h => exact ⟨_, _, .leave h⟩
    | finish h => exact ⟨_, _, .leave h⟩

/-! ### All calls -/

/-- **A call of `inj_next`** with its result and the marks of its iterations. Without
`out_images`, or once the generator is done, there are none. -/
def NextCall (k : ℕ) (g : InjCoroutine) (e : List (Option (List ℕ)) × ℤ) (g' : InjCoroutine) :
    Prop :=
  ∃ (fuel : ℕ) (out out' : Ptr ℤ), (out.addr ≠ 0 → out.cells.length = k)
    ∧ injNext fuel (some g) out = .ok (e.2, some g', out')
    ∧ if out.addr ≠ 0 ∧ g.done = 0 then
        Trace (injBody out) chosenNode g e.1 (e.2, some g', out')
      else e.1 = []

/-- The marks of all the iterations of some calls. -/
def allMarks (es : List (List (Option (List ℕ)) × ℤ)) : List (Option (List ℕ)) :=
  es.flatMap Prod.fst

/-- The nodes that some calls go down to. -/
def visitedNodes (es : List (List (Option (List ℕ)) × ℤ)) : List (List ℕ) :=
  (allMarks es).reduceOption

/-- Where the search stands after some calls: suspended, or done. -/
def SearchedSoFar (n k : ℕ) (nodes : List (List ℕ)) (es : List (List (Option (List ℕ)) × ℤ))
    (g : InjCoroutine) : Prop :=
  (∃ ts, SearchState n k g ts ∧ g.pos < k ∧ nodes = visitedNodes es ++ ts
      ∧ (allMarks es).length + 2 * ts.length + g.pos = 2 * nodes.length)
    ∨ Exhausted n k g ∧ nodes = visitedNodes es
      ∧ (allMarks es).length = 2 * nodes.length + 1

theorem allMarks_snoc (es : List (List (Option (List ℕ)) × ℤ))
    (e : List (Option (List ℕ)) × ℤ) : allMarks (es ++ [e]) = allMarks es ++ e.1 := by
  unfold allMarks
  rw [List.flatMap_append, List.flatMap_singleton]

theorem visitedNodes_snoc (es : List (List (Option (List ℕ)) × ℤ))
    (e : List (Option (List ℕ)) × ℤ) :
    visitedNodes (es ++ [e]) = visitedNodes es ++ e.1.reduceOption := by
  unfold visitedNodes
  rw [allMarks_snoc, List.reduceOption_append]

/-- A call without iterations. -/
theorem SearchedSoFar.idle {nodes : List (List ℕ)} {es : List (List (Option (List ℕ)) × ℤ)}
    {e : List (Option (List ℕ)) × ℤ} {g : InjCoroutine} (h : SearchedSoFar n k nodes es g)
    (he : e.1 = []) : SearchedSoFar n k nodes (es ++ [e]) g := by
  unfold SearchedSoFar
  rw [visitedNodes_snoc, allMarks_snoc, he, List.append_nil]
  exact (List.append_nil (visitedNodes es)).symm ▸ h

/-- **Every call keeps the account.** -/
theorem SearchedSoFar.next {nodes : List (List ℕ)} {es : List (List (Option (List ℕ)) × ℤ)}
    {e : List (Option (List ℕ)) × ℤ} {g g' : InjCoroutine} (hk : 0 < k)
    (h : SearchedSoFar n k nodes es g) (hcall : NextCall k g e g') :
    SearchedSoFar n k nodes (es ++ [e]) g' := by
  obtain ⟨marks, res⟩ := e
  obtain ⟨fuel, out, out', hout, hres, hmarks⟩ := hcall
  rcases h with ⟨ts, hS, hpos, hnodes, hcount⟩ | ⟨hE, hnodes, hcount⟩
  · by_cases hnull : out.addr = 0
    · -- the call returns before the loop
      rw [if_neg (fun hguard => hguard.1 hnull)] at hmarks
      rw [injNext_null fuel (by rw [hS.inv.k_eq]; omega) hnull] at hres
      cases hres
      exact SearchedSoFar.idle (Or.inl ⟨ts, hS, hpos, hnodes, hcount⟩) hmarks
    · rw [if_pos ⟨hnull, hS.inv.not_done⟩] at hmarks
      unfold SearchedSoFar
      rw [visitedNodes_snoc, allMarks_snoc, List.length_append]
      rcases hS.advances hmarks hk (hout hnull) with
        ⟨g₁, out₁, ts', hr, hS', hpos', rfl, hcall⟩ | ⟨g₁, out₁, hr, hE, rfl, hcall⟩
      · cases hr
        exact Or.inl ⟨ts', hS', hpos', by rw [hnodes, List.append_assoc], by omega⟩
      · cases hr
        exact Or.inr ⟨hE, hnodes, by omega⟩
  · -- a generator that is done does nothing
    have hdone : g.done ≠ 0 := by rw [hE.done_eq]; decide
    rw [if_neg (fun hguard => hdone hguard.2)] at hmarks
    rw [injNext_done fuel out hdone] at hres
    cases hres
    exact SearchedSoFar.idle (Or.inr ⟨hE, hnodes, hcount⟩) hmarks

/-- A suspended search can be called until it is done. -/
theorem SearchState.exists_run {N : ℕ} {g : InjCoroutine} {ts : List (List ℕ)} (hk : 0 < k)
    (hN : 2 * ts.length + g.pos = N) (hS : SearchState n k g ts) :
    ∃ es g', Run (NextCall k) g es g' ∧ g'.done ≠ 0 := by
  -- each call takes an iteration at least
  induction N using Nat.strong_induction_on generalizing g ts with
  | _ N ih =>
    let out : Ptr ℤ := ⟨1, List.replicate k 0⟩
    have hout : out.cells.length = k := List.length_replicate
    obtain ⟨marks, r, ht⟩ := hS.exists_trace rfl hk hout
    have hadvances := hS.advances ht hk hout
    have hcall : ∀ res g' out', r = (res, some g', out') → NextCall k g (marks, res) g' := by
      rintro res g' out' rfl
      -- as much fuel as there are iterations is enough
      refine ⟨marks.length, out, out', fun _ => hout, ?_, ?_⟩
      · rw [injNext_loop _ (by rw [hS.inv.k_eq]; omega) Nat.one_ne_zero hS.inv.not_done]
        exact ht.forever le_rfl
      · rw [if_pos ⟨Nat.one_ne_zero, hS.inv.not_done⟩]
        exact ht
    rcases hadvances with ⟨g', out', ts', rfl, hS', -, -, hcount⟩ | ⟨g', out', rfl, hE, -, -⟩
    · have hmarks : marks ≠ [] := by
        rintro rfl
        cases ht
      have hpos := List.length_pos_iff.mpr hmarks
      obtain ⟨es, g'', hrun, hdone⟩ := ih (2 * ts'.length + g'.pos) (by omega) rfl hS'
      exact ⟨_, g'', (Run.nil.snoc (hcall 1 g' out' rfl)).trans hrun, hdone⟩
    · exact ⟨_, g', Run.nil.snoc (hcall 0 g' out' rfl), by rw [hE.done_eq]; decide⟩

/-- A successful `inj_init` suspends the search at its root, with all nodes to come. -/
theorem injInit_searchState {g g₀ : InjCoroutine} {a nextc used : Ptr ℕ} {heap : InjHeap}
    (hn : n < 2 ^ 64) (hk : 1 ≤ k) (hkn : k ≤ n) (hst : InjStorage n k a nextc used)
    (hinit : injInit (some g) n k a nextc used heap = .ok (1, some g₀)) :
    SearchState n k g₀ (prefixes (List.range n) k []) ∧ g₀.pos = 0 := by
  obtain ⟨hI, hpos, hzero⟩ := injInit_spec hn hk hkn hst hinit
  refine ⟨⟨hI, fun c hc => ?_⟩, hpos⟩
  have hnil : g₀.chosen = [] := List.eq_nil_of_length_eq_zero (hI.length_chosen.trans hpos)
  have hc' := hc (by omega)
  rw [hpos, hzero] at hc'
  obtain rfl : 0 = c := Option.some.inj hc'
  rw [hnil, nodesToCome_root]

/-- **The cost of the whole enumeration.** The nodes of the search are the nonempty tuples
of at most `k` distinct values below `n`. After a successful `inj_init`, any calls go down
to the first of them in lexicographic order, each once; until the generator is done they
have gone down to all of them, in twice as many iterations and one, which is fewer than six
for each of the `n (n-1) ⋯ (n-k+1)` tuples yielded. And calls do come to that point. -/
theorem injNext_search_tree {g g₀ : InjCoroutine} {a nextc used : Ptr ℕ} {heap : InjHeap}
    (hn : n < 2 ^ 64) (hk : 1 ≤ k) (hkn : k ≤ n) (hst : InjStorage n k a nextc used)
    (hinit : injInit (some g) n k a nextc used heap = .ok (1, some g₀)) :
    ∃ nodes : List (List ℕ),
      (∀ t, t ∈ nodes ↔ t ≠ [] ∧ t.length ≤ k ∧ t.Nodup ∧ ∀ v ∈ t, v < n) ∧
      nodes.Pairwise (· < ·) ∧
      nodes.length = ∑ i ∈ Finset.range k, n.descFactorial (i + 1) ∧
      (∀ es g', Run (NextCall k) g₀ es g' → visitedNodes es <+: nodes ∧
        (g'.done ≠ 0 → visitedNodes es = nodes ∧ (allMarks es).length = 2 * nodes.length + 1
          ∧ (allMarks es).length < 6 * n.descFactorial k)) ∧
      ∃ es g', Run (NextCall k) g₀ es g' ∧ g'.done ≠ 0 := by
  obtain ⟨hS, hpos⟩ := injInit_searchState hn hk hkn hst hinit
  let nodes := prefixes (List.range n) k []
  have hlen : nodes.length = ∑ i ∈ Finset.range k, n.descFactorial (i + 1) := by
    have hcount := length_prefixes List.nodup_range k List.nodup_nil
      (List.nil_subset (List.range n))
    rwa [List.length_range, List.length_nil, Nat.sub_zero] at hcount
  refine ⟨nodes, fun t => ?_, prefixes_sorted List.pairwise_lt_range k [], hlen, ?_,
    hS.exists_run hk rfl⟩
  · rw [mem_prefixes List.nodup_nil]
    constructor
    · rintro ⟨s, hs, hslen, hsl, rfl, hnodup⟩
      exact ⟨hs, hslen, hnodup, fun v hv => List.mem_range.mp (hsl hv)⟩
    · rintro ⟨ht, htlen, hnodup, hlt⟩
      exact ⟨t, ht, htlen, fun v hv => List.mem_range.mpr (hlt v hv), rfl, hnodup⟩
  · intro es g' hrun
    -- at the root nothing has been visited, and all the nodes are to come
    have hfirst : SearchedSoFar n k nodes [] g₀ :=
      Or.inl ⟨nodes, hS, by omega, rfl, by rw [hpos]; exact Nat.zero_add _⟩
    rcases hrun.invariant (fun es e s₁ s₂ h hcall => h.next hk hcall) hfirst with
      ⟨ts, hS', -, hnodes, -⟩ | ⟨-, hnodes, hcount⟩
    · exact ⟨⟨ts, hnodes.symm⟩, fun hdone => absurd hS'.inv.not_done hdone⟩
    · -- the tuples yielded are the leaves, more than a third of the nodes
      have hleaves := sum_descFactorial_lt hk hkn
      exact ⟨⟨[], by rw [List.append_nil, hnodes]⟩, fun _ => ⟨hnodes.symm, hcount, by omega⟩⟩

/-- The search for `n = 3` and `k = 2` passes through nine nodes in nineteen iterations. -/
theorem injNext_search_tree_three_two :
    let g : InjCoroutine := ⟨9, 9, .null, .null, .null, 9, 9, 9, 9⟩
    let g₀ : InjCoroutine := ⟨3, 2, ⟨1, [0, 0]⟩, ⟨2, [0, 0]⟩, ⟨3, [0, 0, 0]⟩, 0, 0, 0, 0⟩
    injInit (some g) 3 2 ⟨1, [5, 6]⟩ ⟨2, [7, 8]⟩ ⟨3, [1, 1, 1]⟩ ⟨.failed, .failed, .failed⟩
        = .ok (1, some g₀) ∧
      ∃ es g', Run (NextCall 2) g₀ es g' ∧ g'.done ≠ 0 ∧ (allMarks es).length = 19 := by
  intro g g₀
  have hinit : injInit (some g) 3 2 ⟨1, [5, 6]⟩ ⟨2, [7, 8]⟩ ⟨3, [1, 1, 1]⟩
      ⟨.failed, .failed, .failed⟩ = .ok (1, some g₀) := rfl
  obtain ⟨nodes, -, -, hlen, hruns, es, g', hrun, hdone⟩ :=
    injNext_search_tree (n := 3) (k := 2) (by decide) (by decide) (by decide)
      (fun _ => ⟨rfl, rfl, rfl⟩) hinit
  have hnine : nodes.length = 9 := hlen.trans (by decide)
  obtain ⟨-, hcount, -⟩ := (hruns es g' hrun).2 hdone
  exact ⟨hinit, es, g', hrun, hdone, by rw [hcount, hnine]⟩

end Arboql
