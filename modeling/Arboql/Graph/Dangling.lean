import Arboql.Graph.Sessions

/-!
# Handles of graphs that were freed

After `free_graph(p)` no block overlaps the header that was at `p`, and calls other than
`malloc_graph` allocate nothing. So until memory is allocated again every use of `p` is an
invalid access: to read or print the graph, to write to it and to free it once more. What
a machine does then C leaves open; it may well return.
-/

namespace Arboql

open CLayout Simulation Loops
open Bindings (PyArg)

/-! ### Calls that allocate nothing -/

section Blocks

variable {h : Host} {m m' : Memory} {w w' : World}

theorem store_blocks {t : CType} {addr v : ℕ} {path : List String}
    (hs : m.store t addr path v = .ok m') : m'.blocks = m.blocks := by
  obtain ⟨r, -, hr⟩ := bind_eq_ok_iff.mp hs
  obtain rfl := Except.ok.inj hr
  rfl

theorem access_eq_ok_iff {β : Type} {r : Except MemFault β} {x : β} :
    access r = .ok x ↔ r = .ok x := by
  cases r with
  | error f => exact iff_of_false (by intro h; cases h) (by intro h; cases h)
  | ok y => exact ⟨fun h => congrArg _ (Except.ok.inj h), fun h => congrArg _ (Except.ok.inj h)⟩

theorem free_subset {p : ℕ} (hf : m.free p = .ok m') : m'.blocks ⊆ m.blocks := by
  unfold Memory.free at hf
  split at hf
  · obtain rfl := Except.ok.inj hf
    exact List.Subset.refl _
  · split at hf
    · obtain rfl := Except.ok.inj hf
      exact List.eraseP_subset
    · cases hf

/-- Writing a text changes no memory. -/
theorem put_mem {stream : ℕ} {text : String} (hp : w.put stream text = .ok w') :
    w'.mem = w.mem := by
  unfold World.put at hp
  split at hp
  · cases hp
  · obtain rfl := Except.ok.inj hp
    rfl

theorem vlogImpl_mem {pre message : String} {out : ℕ} (hv : vlogImpl pre w out message = .ok w') :
    w'.mem = w.mem := by
  obtain ⟨w₁, h₁, hv⟩ := bind_eq_ok_iff.mp hv
  obtain ⟨w₂, h₂, h₃⟩ := bind_eq_ok_iff.mp hv
  exact (put_mem h₃).trans ((put_mem h₂).trans (put_mem h₁))

theorem logAt_mem {severity line logger : ℕ} {member pre file message : String}
    (hl : logAt severity member (vlogImpl pre) w logger file line message = .ok w') :
    w'.mem = w.mem := by
  obtain ⟨level, -, hl⟩ := bind_eq_ok_iff.mp hl
  split at hl
  · obtain ⟨location, -, hl⟩ := bind_eq_ok_iff.mp hl
    obtain ⟨out, -, hl⟩ := bind_eq_ok_iff.mp hl
    split at hl
    · exact vlogImpl_mem hl
    · exact vlogImpl_mem hl
  · obtain rfl := Except.ok.inj hl
    rfl

/-- One iteration of the loop of `print_graph` changes no memory. -/
theorem printBody_mem {graph i : ℕ} :
    (∀ s, printBody h graph (w, i) = .ok (.again s) → s.1.mem = w.mem)
      ∧ ∀ r, printBody h graph (w, i) = .ok (.leave r) → r.mem = w.mem := by
  constructor
  · intro s hs
    obtain ⟨edgesN, -, hs⟩ := bind_eq_ok_iff.mp hs
    split at hs
    · obtain ⟨edges, -, hs⟩ := bind_eq_ok_iff.mp hs
      obtain ⟨source, -, hs⟩ := bind_eq_ok_iff.mp hs
      obtain ⟨target, -, hs⟩ := bind_eq_ok_iff.mp hs
      obtain ⟨w₁, hput, hs⟩ := bind_eq_ok_iff.mp hs
      split at hs
      · cases hs
      · obtain rfl := Flow.again.inj (Except.ok.inj hs)
        exact put_mem hput
    · cases hs
  · intro r hr
    obtain ⟨edgesN, -, hr⟩ := bind_eq_ok_iff.mp hr
    split at hr
    · obtain ⟨edges, -, hr⟩ := bind_eq_ok_iff.mp hr
      obtain ⟨source, -, hr⟩ := bind_eq_ok_iff.mp hr
      obtain ⟨target, -, hr⟩ := bind_eq_ok_iff.mp hr
      obtain ⟨w₁, hput, hr⟩ := bind_eq_ok_iff.mp hr
      split at hr
      · cases hr
      · cases hr
    · obtain rfl := Flow.leave.inj (Except.ok.inj hr)
      rfl

/-- **`print_graph` changes no memory.** -/
theorem printGraph_mem {graph : ℕ} (hp : printGraph h w graph = .ok w') : w'.mem = w.mem := by
  obtain ⟨w₁, hput, hloop⟩ := bind_eq_ok_iff.mp hp
  obtain ⟨t, hreach, hleave⟩ := forever_ok hloop
  -- the memory is the same at every head of the loop
  have hinv : t.1.mem = w₁.mem :=
    invariant_of_step (fun s s' hs hstep => (printBody_mem.1 s' hstep).trans hs) rfl hreach
  exact (printBody_mem.2 _ hleave).trans (hinv.trans (put_mem hput))

theorem setEdgeMember_blocks {graph i v : ℕ} {path : List String}
    (hs : setEdgeMember m graph i path v = .ok m') : m'.blocks = m.blocks := by
  obtain ⟨edges, -, hs⟩ := bind_eq_ok_iff.mp hs
  exact store_blocks hs

theorem setNodeMember_blocks {graph j v : ℕ} {path : List String}
    (hs : setNodeMember m graph j path v = .ok m') : m'.blocks = m.blocks := by
  obtain ⟨nodes, -, hs⟩ := bind_eq_ok_iff.mp hs
  exact store_blocks hs

theorem addEdge_blocks {graph i s t ty v : ℕ} (ha : addEdge m graph i s t ty v = .ok m') :
    m'.blocks = m.blocks := by
  obtain ⟨m₁, h₁, ha⟩ := bind_eq_ok_iff.mp ha
  obtain ⟨m₂, h₂, ha⟩ := bind_eq_ok_iff.mp ha
  obtain ⟨m₃, h₃, h₄⟩ := bind_eq_ok_iff.mp ha
  rw [setEdgeMember_blocks h₄, setEdgeMember_blocks h₃, setEdgeMember_blocks h₂,
    setEdgeMember_blocks h₁]

theorem addNode_blocks {graph j ty v : ℕ} (ha : addNode m graph j ty v = .ok m') :
    m'.blocks = m.blocks := by
  obtain ⟨m₁, h₁, h₂⟩ := bind_eq_ok_iff.mp ha
  rw [setNodeMember_blocks h₂, setNodeMember_blocks h₁]

/-- `free_graph` frees blocks and does nothing else to memory. -/
theorem freeGraph_subset {graph : ℕ} (hf : freeGraph h w graph = .ok w') :
    w'.mem.blocks ⊆ w.mem.blocks := by
  obtain ⟨edgesN, -, hf⟩ := bind_eq_ok_iff.mp hf
  obtain ⟨nodesN, -, hf⟩ := bind_eq_ok_iff.mp hf
  obtain ⟨edges, -, hf⟩ := bind_eq_ok_iff.mp hf
  obtain ⟨m₁, h₁, hf⟩ := bind_eq_ok_iff.mp hf
  obtain ⟨nodes, -, hf⟩ := bind_eq_ok_iff.mp hf
  obtain ⟨m₂, h₂, hf⟩ := bind_eq_ok_iff.mp hf
  obtain ⟨m₃, h₃, hf⟩ := bind_eq_ok_iff.mp hf
  have hsub₁ := free_subset (access_eq_ok_iff.mp h₁)
  have hsub₂ := free_subset (access_eq_ok_iff.mp h₂)
  have hsub₃ := free_subset (access_eq_ok_iff.mp h₃)
  rw [show w'.mem = m₃ from logAt_mem hf]
  exact List.Subset.trans hsub₃ (List.Subset.trans hsub₂ hsub₁)

/-- An assignment from Python. -/
theorem onMemory_ok_iff {r : Except Bindings.PyError Memory} :
    Bindings.onMemory w r = .ok w' ↔ ∃ mem, r = .ok mem ∧ w' = { w with mem } := by
  unfold Bindings.onMemory
  cases r with
  | error e =>
    refine iff_of_false (by intro h; cases h) ?_
    rintro ⟨mem, hr, -⟩
    cases hr
  | ok mem =>
    constructor
    · intro hr
      exact ⟨mem, rfl, (Except.ok.inj hr).symm⟩
    · rintro ⟨mem', hr, rfl⟩
      obtain rfl := Except.ok.inj hr
      rfl

theorem Bindings.addEdge_blocks {graph : ℕ} {edgeId source target ty value : PyArg}
    (ha : Bindings.addEdge m graph edgeId source target ty value = .ok m') :
    m'.blocks = m.blocks := by
  obtain ⟨i, -, ha⟩ := bind_eq_ok_iff.mp ha
  obtain ⟨s, -, ha⟩ := bind_eq_ok_iff.mp ha
  obtain ⟨t, -, ha⟩ := bind_eq_ok_iff.mp ha
  obtain ⟨ty, -, ha⟩ := bind_eq_ok_iff.mp ha
  obtain ⟨v, -, ha⟩ := bind_eq_ok_iff.mp ha
  exact Arboql.addEdge_blocks (Bindings.call_eq_ok_iff.mp ha)

theorem Bindings.addNode_blocks {graph : ℕ} {nodeId ty value : PyArg}
    (ha : Bindings.addNode m graph nodeId ty value = .ok m') : m'.blocks = m.blocks := by
  obtain ⟨j, -, ha⟩ := bind_eq_ok_iff.mp ha
  obtain ⟨ty, -, ha⟩ := bind_eq_ok_iff.mp ha
  obtain ⟨v, -, ha⟩ := bind_eq_ok_iff.mp ha
  exact Arboql.addNode_blocks (Bindings.call_eq_ok_iff.mp ha)

/-- **`match` changes no memory.** -/
theorem perform_match_mem {p q : ℕ} {res : ApiResult}
    (hcall : w.perform h (.matchGraphs p q) = .ok (w', res)) : w'.mem = w.mem := by
  obtain ⟨⟨w₁, n⟩, hp, hr⟩ := bind_eq_ok_iff.mp hcall
  obtain ⟨rfl, -⟩ := Prod.mk.inj (Except.ok.inj hr)
  obtain ⟨w₂, hfirst, hp⟩ := bind_eq_ok_iff.mp hp
  obtain ⟨w₃, hsecond, hp⟩ := bind_eq_ok_iff.mp hp
  obtain ⟨rfl, -⟩ := Prod.mk.inj (Except.ok.inj hp)
  rw [printGraph_mem hsecond, printGraph_mem hfirst]

theorem World.call_match_mem {p q : ℕ} {res : ApiResult}
    (hcall : w.call h (.matchGraphs p q) = .ok (w', res)) : w'.mem = w.mem := by
  unfold World.call at hcall
  split at hcall
  · obtain ⟨rfl, -⟩ := Prod.mk.inj (Except.ok.inj hcall)
    rfl
  · exact perform_match_mem hcall

/-- The call allocates memory. -/
def ApiCall.Allocates : ApiCall → Prop
  | .mallocGraph _ _ => True
  | _ => False

/-- **Only `malloc_graph` allocates.** -/
theorem World.call_subset {c : ApiCall} {res : ApiResult} (hc : ¬ c.Allocates)
    (hcall : w.call h c = .ok (w', res)) : w'.mem.blocks ⊆ w.mem.blocks := by
  unfold World.call at hcall
  split at hcall
  · obtain ⟨rfl, -⟩ := Prod.mk.inj (Except.ok.inj hcall)
    exact List.Subset.refl _
  · cases c with
    | mallocGraph nodesN edgesN => exact absurd trivial hc
    | freeGraph p =>
      obtain ⟨w₁, hf, hr⟩ := bind_eq_ok_iff.mp hcall
      obtain ⟨rfl, -⟩ := Prod.mk.inj (Except.ok.inj hr)
      exact freeGraph_subset hf
    | addEdge p edgeId source target ty value =>
      obtain ⟨w₁, ha, hr⟩ := bind_eq_ok_iff.mp hcall
      obtain ⟨rfl, -⟩ := Prod.mk.inj (Except.ok.inj hr)
      obtain ⟨mem, hmem, rfl⟩ := onMemory_ok_iff.mp ha
      rw [Bindings.addEdge_blocks hmem]
      exact List.Subset.refl _
    | addNode p nodeId ty value =>
      obtain ⟨w₁, ha, hr⟩ := bind_eq_ok_iff.mp hcall
      obtain ⟨rfl, -⟩ := Prod.mk.inj (Except.ok.inj hr)
      obtain ⟨mem, hmem, rfl⟩ := onMemory_ok_iff.mp ha
      rw [Bindings.addNode_blocks hmem]
      exact List.Subset.refl _
    | printGraph p current indent =>
      obtain ⟨w₁, hp, hr⟩ := bind_eq_ok_iff.mp hcall
      obtain ⟨rfl, -⟩ := Prod.mk.inj (Except.ok.inj hr)
      obtain ⟨-, -, hp⟩ := bind_eq_ok_iff.mp hp
      obtain ⟨-, -, hp⟩ := bind_eq_ok_iff.mp hp
      rw [printGraph_mem hp]
      exact List.Subset.refl _
    | matchGraphs p q =>
      rw [perform_match_mem hcall]
      exact List.Subset.refl _
    | setLogLevel level =>
      obtain ⟨w₁, hp, hr⟩ := bind_eq_ok_iff.mp hcall
      obtain ⟨rfl, -⟩ := Prod.mk.inj (Except.ok.inj hr)
      obtain ⟨n, -, hp⟩ := bind_eq_ok_iff.mp hp
      obtain ⟨mem, hstore, hp⟩ := bind_eq_ok_iff.mp hp
      obtain rfl := Except.ok.inj hp
      rw [store_blocks (access_eq_ok_iff.mp hstore)]
      exact List.Subset.refl _

end Blocks

/-! ### Addresses that no block overlaps -/

/-- No block overlaps the header that was at `p`. -/
def Dangling (m : Memory) (p : ℕ) : Prop := ∀ b ∈ m.blocks, Separate (p, 24) b

section Dangling

variable {h : Host} {m : Memory} {w w' : World} {p : ℕ}

theorem Dangling.mono {m' : Memory} (hd : Dangling m p) (hsub : m'.blocks ⊆ m.blocks) :
    Dangling m' p := fun b hb => hd b (hsub hb)

/-- Nothing is read there. -/
theorem Dangling.load (hd : Dangling m p) {path : List String} {off width : ℕ} {signed : Bool}
    (hloc : GraphH.Graph.locate path = some (off, .int width signed)) (hpos : 0 < width)
    (hoff : off + width ≤ 24) : ∃ f, m.load GraphH.Graph p path = .error f := by
  unfold Memory.load Memory.resolve
  by_cases h0 : p = 0
  · rw [if_pos h0]
    exact ⟨_, rfl⟩
  · -- a block with the member would overlap the header
    have hout : ¬ m.InBlock (p + off) width := by
      rintro ⟨b, hb, hlo, hhi⟩
      have hsep := (hd b hb).2
      change p + 24 ≤ b.1 ∨ b.1 + b.2 ≤ p at hsep
      omega
    simp only [if_neg h0, hloc, if_neg hout]
    exact ⟨_, rfl⟩

/-- Nothing is printed of it. -/
theorem Dangling.printGraph (hd : Dangling w.mem p) :
    ∃ f, printGraph h w p = .error (.py (.fault f)) := by
  obtain ⟨-, hloc, -⟩ := locate_graph
  obtain ⟨f, hf⟩ := hd.load hloc (by omega) (by omega)
  -- the first iteration reads the number of edges
  have hbody : ∀ written, printBody h p (⟨w.mem, written⟩, 0) = .error (.py (.fault f)) := by
    intro written
    unfold printBody
    simp only [hf]
    rfl
  refine ⟨f, ?_⟩
  unfold Arboql.printGraph
  rw [put_eq h.stdout_ne]
  change forever _ _ _ _ = _
  rw [two_pow_31, forever, hbody]

/-- The exceptions of Python do not come from C. -/
def NotRaised {β : Type} (r : Except Abort β) : Prop := r ≠ .error (.py .argumentError)

theorem NotRaised.bind {β γ : Type} {r : Except Abort β} {f : β → Except Abort γ}
    (hr : NotRaised r) (hf : ∀ x, NotRaised (f x)) : NotRaised (r >>= f) := by
  cases r with
  | error e =>
    intro h
    exact hr (congrArg Except.error (Except.error.inj h))
  | ok x => exact hf x

theorem NotRaised.ok {β : Type} (x : β) : NotRaised (.ok x) := by
  intro h
  cases h

theorem NotRaised.access {β : Type} (r : Except MemFault β) : NotRaised (access r) := by
  cases r <;> intro h <;> cases h

theorem NotRaised.put (w : World) (stream : ℕ) (text : String) :
    NotRaised (w.put stream text) := by
  unfold World.put
  split <;> intro h <;> cases h

theorem NotRaised.printBody (h : Host) (graph : ℕ) (s : World × ℕ) :
    NotRaised (printBody h graph s) := by
  refine .bind (.access _) fun edgesN => ?_
  split
  · refine .bind (.access _) fun edges => .bind (.access _) fun source => ?_
    refine .bind (.access _) fun target => .bind (.put _ _ _) fun w => ?_
    split
    · intro h
      cases h
    · exact .ok _
  · exact .ok _

theorem NotRaised.printGraph (h : Host) (w : World) (graph : ℕ) :
    NotRaised (Arboql.printGraph h w graph) := by
  refine .bind (.put _ _ _) fun w => ?_
  -- every iteration that ends the loop abnormally does so with an error of C
  have hloop : ∀ fuel s, NotRaised (forever .signedOverflow (Arboql.printBody h graph) fuel s) := by
    intro fuel
    induction fuel with
    | zero =>
      intro s h
      cases h
    | succ fuel ih =>
      intro s
      have hbody := NotRaised.printBody h graph s
      rw [forever]
      split
      · next e he =>
        intro h
        exact hbody (he.trans (congrArg _ (Except.error.inj h)))
      · exact .ok _
      · exact ih _
  exact hloop _ _

/-- The call uses the graph at `p`. -/
def ApiCall.Uses (p : ℕ) : ApiCall → Prop
  | .mallocGraph _ _ => False
  | .freeGraph q => q = p
  | .addEdge q _ _ _ _ _ => q = p
  | .addNode q _ _ _ => q = p
  | .printGraph q _ _ => q = p
  | .matchGraphs q r => q = p ∨ r = p
  | .setLogLevel _ => False

/-- The call makes an invalid access. -/
def Faults (h : Host) (w : World) (c : ApiCall) : Prop :=
  ∃ f, w.call h c = .error (.py (.fault f))

/-- An `int` overflows in the call. -/
def Overflows (h : Host) (w : World) (c : ApiCall) : Prop :=
  w.call h c = .error .signedOverflow

theorem faults_of_perform {c : ApiCall} {f : MemFault}
    (hc : w.perform h c = .error (.py (.fault f))) : Faults h w c :=
  ⟨f, World.call_of_fault hc⟩

/-- **No use of a dangling handle is defined.** The call makes an invalid access, if it is
not a `match` in which the counter overflows while the other graph is printed. -/
theorem Dangling.call (hd : Dangling w.mem p) {c : ApiCall} (hc : c.Uses p)
    (hargs : ¬ c.BadArgument) :
    Faults h w c ∨ ∃ q, c = .matchGraphs q p ∧ Overflows h w c := by
  obtain ⟨-, hedgesN, hedges, hnodes, -⟩ := locate_graph
  have hint : ∀ a ∈ c.args, ∃ z, a = .int z := fun a ha => ApiCall.int_of_not_badArgument hargs ha
  cases c with
  | mallocGraph nodesN edgesN => exact absurd hc id
  | freeGraph q =>
    obtain rfl := hc
    obtain ⟨f, hf⟩ := hd.load hedgesN (by omega) (by omega)
    refine Or.inl (faults_of_perform (f := f) ?_)
    change (freeGraph h w q >>= _) = _
    unfold freeGraph
    rw [hf]
    rfl
  | addEdge q edgeId source target ty value =>
    obtain rfl := hc
    obtain ⟨i, rfl⟩ := hint edgeId (by simp [ApiCall.args])
    obtain ⟨source, rfl⟩ := hint source (by simp [ApiCall.args])
    obtain ⟨target, rfl⟩ := hint target (by simp [ApiCall.args])
    obtain ⟨ty, rfl⟩ := hint ty (by simp [ApiCall.args])
    obtain ⟨value, rfl⟩ := hint value (by simp [ApiCall.args])
    obtain ⟨f, hf⟩ := hd.load hedges (by omega) (by omega)
    refine Or.inl (faults_of_perform (f := f) ?_)
    change (Bindings.onMemory w (Bindings.call (addEdge w.mem q _ _ _ _ _)) >>= _) = _
    unfold addEdge setEdgeMember
    rw [hf]
    rfl
  | addNode q nodeId ty value =>
    obtain rfl := hc
    obtain ⟨j, rfl⟩ := hint nodeId (by simp [ApiCall.args])
    obtain ⟨ty, rfl⟩ := hint ty (by simp [ApiCall.args])
    obtain ⟨value, rfl⟩ := hint value (by simp [ApiCall.args])
    obtain ⟨f, hf⟩ := hd.load hnodes (by omega) (by omega)
    refine Or.inl (faults_of_perform (f := f) ?_)
    change (Bindings.onMemory w (Bindings.call (addNode w.mem q _ _ _)) >>= _) = _
    unfold addNode setNodeMember
    rw [hf]
    rfl
  | printGraph q current indent =>
    obtain rfl := hc
    obtain ⟨current, rfl⟩ := hint current (by simp [ApiCall.args])
    obtain ⟨indent, rfl⟩ := hint indent (by simp [ApiCall.args])
    obtain ⟨f, hf⟩ := hd.printGraph (h := h)
    refine Or.inl (faults_of_perform (f := f) ?_)
    change (Arboql.printGraph h w q >>= _) = _
    rw [hf]
    rfl
  | matchGraphs q q' =>
    have hfirst : w.perform h (.matchGraphs q q') = (Arboql.printGraph h w q >>= fun w =>
        Arboql.printGraph h w q' >>= fun w => return (w, .status 42)) :=
      World.perform_matchGraphs q q'
    cases hq : Arboql.printGraph h w q with
    | error e =>
      -- the run is undefined before the second graph is reached
      rw [hq] at hfirst
      cases e with
      | signedOverflow =>
        have hp : q' = p := by
          refine hc.resolve_left fun heq => ?_
          obtain ⟨f, hf⟩ := hd.printGraph (h := h)
          rw [← heq, hq] at hf
          cases hf
        exact Or.inr ⟨q, by rw [hp], World.call_of_overflow hfirst⟩
      | py e =>
        cases e with
        | argumentError => exact absurd hq (NotRaised.printGraph h w q)
        | fault f => exact Or.inl (faults_of_perform hfirst)
    | ok w₁ =>
      have hmem := printGraph_mem hq
      have hq' : q' = p := by
        refine hc.resolve_left fun heq => ?_
        obtain ⟨f, hf⟩ := hd.printGraph (h := h)
        rw [← heq, hq] at hf
        cases hf
      subst hq'
      rw [← hmem] at hd
      obtain ⟨f, hf⟩ := hd.printGraph (h := h)
      refine Or.inl (faults_of_perform (f := f) ?_)
      rw [hfirst, hq]
      change (Arboql.printGraph h w₁ q' >>= _) = _
      rw [hf]
      rfl
  | setLogLevel level => exact absurd hc id

/-- After `free_graph` the handle is dangling. -/
theorem Represents.dangling_of_free {rest : Memory} {s : Store} {graphs : List LiveGraph}
    {v : GraphVal} {res : ApiResult} (hr : Represents h rest w s graphs)
    (hv : s.graphs p = some v) (hcall : w.call h (.freeGraph p) = .ok (w', res)) :
    Dangling w'.mem p := by
  obtain ⟨g, others, rfl, rfl, hl, -⟩ := hr.focus hv
  obtain ⟨mem, hok, hl'⟩ := freeGraph_eq hl List.mem_cons_self
  have hperform : w.perform h (.freeGraph g.addr)
      = freeGraph h w g.addr >>= fun w => .ok (w, .none) := rfl
  rw [hok] at hperform
  obtain ⟨rfl, -⟩ := Prod.mk.inj (Except.ok.inj (hcall.symm.trans (World.call_of_ok hperform)))
  -- what is left are the blocks of the other objects, which were apart from the header
  intro b hb
  refine hl.unpack.accounted.of_append (List.mem_append_left _ List.mem_cons_self) ?_
  exact hl'.blocks.mem_iff.mp hb

/-- What is kept after a graph at `p` was freed: while nothing is allocated, the handle is
dangling. -/
def StaysDangling (p : ℕ) (es : List (ApiCall × ApiResult)) (w : World) : Prop :=
  (∀ e ∈ es, ¬ e.1.Allocates) → Dangling w.mem p

theorem StaysDangling.step {es : List (ApiCall × ApiResult)} {e : ApiCall × ApiResult}
    (hd : StaysDangling p es w) (hcall : World.Calls h w e w') :
    StaysDangling p (es ++ [e]) w' := by
  intro hes
  rw [List.forall_mem_append, List.forall_mem_singleton] at hes
  exact (hd hes.1).mono (World.call_subset hes.2 hcall)

/-- **Use after free.** In every session, from the moment a graph is freed until memory
is allocated again, no call that uses its handle is defined: to read the graph, to print
it, to write to it and to free it a second time are invalid accesses. -/
theorem Session.dangling {m : Memory} {es later : List (ApiCall × ApiResult)}
    (hs : Session h m (es ++ (.freeGraph p, .none) :: later) w)
    (hlater : ∀ e ∈ later, ¬ e.1.Allocates) {c : ApiCall} (hc : c.Uses p)
    (hargs : ¬ c.BadArgument) :
    Faults h w c ∨ ∃ q, c = .matchGraphs q p ∧ Overflows h w c := by
  obtain ⟨w₀, himport, hrun⟩ := hs.run
  obtain ⟨w₁, hfirst, hrest⟩ := hrun.split
  -- the session up to the moment before the graph is freed
  have hbefore : Session h m es w₁ := ⟨hs.loadable, hs.protocol.of_append, w₀, himport, hfirst⟩
  obtain ⟨s, graphs, -, hr, hheld⟩ := hbefore.represents
  obtain ⟨counts, hp⟩ := hs.protocol es _ later rfl
  rw [← hheld] at hp
  obtain ⟨v, hv, -⟩ := Store.held_eq_some hp
  obtain ⟨w₂, hfree, hafter⟩ := hrest.uncons
  have hdangling : Dangling w₂.mem p := hr.dangling_of_free hv hfree
  have hkeep : StaysDangling p later w :=
    hafter.invariant (fun _ _ _ _ hd => hd.step) fun _ => hdangling
  exact (hkeep hlater).call hc hargs

/-- A graph is freed, the log level is set, and to free the graph again is an invalid
access. -/
theorem Session.dangling_oneEdge :
    ∃ w, Session .bump freshProcess
        (oneEdge ++ (.freeGraph 4129, .none) :: [(.setLogLevel (.int 2), .none)]) w
      ∧ Faults .bump w (.freeGraph 4129) := by
  obtain ⟨w, hs⟩ := @Session.of_callAll _ _
    (oneEdge.map Prod.fst ++ [.freeGraph 4129, .setLogLevel (.int 2)])
    (oneEdge ++ (.freeGraph 4129, .none) :: [(.setLogLevel (.int 2), .none)])
    loadable_freshProcess (by decide +kernel) (by decide +kernel)
  have hargs : ¬ (ApiCall.freeGraph 4129).BadArgument := by
    rintro ⟨elems, helems⟩
    exact absurd helems List.not_mem_nil
  have huses : (ApiCall.freeGraph 4129).Uses 4129 := rfl
  have hundefined := Session.dangling hs (List.forall_mem_singleton.mpr id) huses hargs
  refine ⟨w, hs, hundefined.resolve_right ?_⟩
  rintro ⟨q, hq, -⟩
  cases hq

end Dangling

end Arboql
