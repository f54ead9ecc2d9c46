import Arboql.Generators.FailedInit
import Arboql.Lib.Simulation

/-!
# What a generator frees over its life

A generator works on the arrays of its caller or on arrays that its `init` allocates,
and only the second are its to free. After a successful `init` the calls of `next` and
`destroy` may come in any order. What all of them free together is what `init`
allocated, once, if there is a `destroy` among them, and nothing otherwise
(`generators_free_once`). So a second `destroy` frees nothing again, and the arrays of
the caller are never freed. After a `destroy` no array is reached: a `next` that is to
write a tuple makes an invalid access, through a null pointer.

For the argument a generator is live, with arrays that it owes, or destroyed
(`Generator.Life`, `Generator.freed_of_run`).
-/

namespace Arboql

open Loops Simulation

/-! ### Lives of a generator -/

namespace Generator

variable {σ : Type} (M : Generator σ)

/-- **A call that is defined**, with the addresses that it frees. -/
inductive Calls (s : σ) : GenCall × List ℕ → σ → Prop
  | next {fuel : ℕ} {out out' : Ptr ℤ} {res : ℤ} {s' : σ}
      (h : M.next fuel s out = .ok (res, s', out')) : Calls s (.next out, []) s'
  | destroy : Calls s (.destroy, (M.destroy s).1) (M.destroy s).2

/-- All that some calls free. -/
def freed (es : List (GenCall × List ℕ)) : List ℕ := es.flatMap Prod.snd

/-- There is a `destroy` among the calls. -/
def Destroyed (es : List (GenCall × List ℕ)) : Prop := ∃ e ∈ es, e.1 = .destroy

theorem freed_snoc (es : List (GenCall × List ℕ)) (e : GenCall × List ℕ) :
    freed (es ++ [e]) = freed es ++ e.2 := by
  unfold freed
  rw [List.flatMap_append, List.flatMap_singleton]

theorem destroyed_snoc (es : List (GenCall × List ℕ)) (e : GenCall × List ℕ) :
    Destroyed (es ++ [e]) ↔ Destroyed es ∨ e.1 = .destroy := by
  unfold Destroyed
  constructor
  · rintro ⟨e', he', hdestroy⟩
    rcases List.mem_append.mp he' with he' | he'
    · exact Or.inl ⟨e', he', hdestroy⟩
    · obtain rfl := List.mem_singleton.mp he'
      exact Or.inr hdestroy
  · rintro (⟨e', he', hdestroy⟩ | hdestroy)
    · exact ⟨e', List.mem_append_left _ he', hdestroy⟩
    · exact ⟨e, List.mem_append_right _ (List.mem_singleton_self e), hdestroy⟩

/-- **The life of a generator.** A live one stays live under `next`, and a `destroy` frees
what it owes and leaves it gone. A generator that is gone stays so and frees nothing. -/
structure Life (live gone : σ → Prop) (owed : List ℕ) : Prop where
  next : ∀ s fuel out res s' out', live s → M.next fuel s out = .ok (res, s', out') → live s'
  destroy : ∀ s, live s → (M.destroy s).1 = owed ∧ gone (M.destroy s).2
  next_gone : ∀ s fuel out res s' out',
    gone s → M.next fuel s out = .ok (res, s', out') → gone s'
  destroy_gone : ∀ s, gone s → (M.destroy s).1 = [] ∧ gone (M.destroy s).2

/-- What calls of a generator keep: without a `destroy` it is live and has freed nothing,
and with one it is gone and has freed what it owed. -/
def HasFreed (live gone : σ → Prop) (owed : List ℕ) (es : List (GenCall × List ℕ)) (s : σ) :
    Prop :=
  (¬ Destroyed es ∧ freed es = [] ∧ live s) ∨ (Destroyed es ∧ freed es = owed ∧ gone s)

variable {M}

theorem HasFreed.step {live gone : σ → Prop} {owed : List ℕ} (hM : M.Life live gone owed)
    {es : List (GenCall × List ℕ)} {e : GenCall × List ℕ} {s s' : σ}
    (hs : HasFreed live gone owed es s) (hcall : M.Calls s e s') :
    HasFreed live gone owed (es ++ [e]) s' := by
  unfold HasFreed
  rw [freed_snoc, destroyed_snoc]
  cases hcall with
  | next hcall =>
    -- frees nothing, and is no `destroy`
    rw [List.append_nil]
    have hnot : ∀ out, GenCall.next out ≠ .destroy := by
      intro out heq
      cases heq
    rcases hs with ⟨hes, hfreed, hlive⟩ | ⟨hes, hfreed, hgone⟩
    · exact Or.inl ⟨fun h => h.elim hes (hnot _), hfreed, hM.next _ _ _ _ _ _ hlive hcall⟩
    · exact Or.inr ⟨Or.inl hes, hfreed, hM.next_gone _ _ _ _ _ _ hgone hcall⟩
  | destroy =>
    -- only the first one frees
    rcases hs with ⟨hes, hfreed, hlive⟩ | ⟨hes, hfreed, hgone⟩
    · obtain ⟨howed, hgone⟩ := hM.destroy _ hlive
      exact Or.inr ⟨Or.inr rfl, by rw [hfreed, howed, List.nil_append], hgone⟩
    · obtain ⟨hnone, hgone⟩ := hM.destroy_gone _ hgone
      exact Or.inr ⟨Or.inl hes, by rw [hfreed, hnone, List.append_nil], hgone⟩

/-- **The rule for what is freed.** -/
theorem freed_of_run {live gone : σ → Prop} {owed : List ℕ} (hM : M.Life live gone owed)
    {s s' : σ} {es : List (GenCall × List ℕ)} (h : Run M.Calls s es s') (hs : live s) :
    HasFreed live gone owed es s' := by
  refine h.invariant (fun _ _ _ _ hs => hs.step hM) (Or.inl ⟨?_, rfl, hs⟩)
  rintro ⟨e, he, -⟩
  cases he

end Generator

/-! ### The injection generator -/

theorem Ptr.addr_of_write {α : Type} {p p' : Ptr α} {i : ℕ} {x : α}
    (h : p.write i x = .ok p') : p'.addr = p.addr := by
  unfold Ptr.write at h
  split at h
  · obtain rfl := Except.ok.inj h
    rfl
  · cases h

theorem Ptr.addr_of_memset {α : Type} {p p' : Ptr α} {x : α} {n : ℕ}
    (h : p.memset x n = .ok p') : p'.addr = p.addr := by
  unfold Ptr.memset at h
  split at h
  · obtain rfl := Except.ok.inj h
    rfl
  · cases h

/-- The arrays are those of `g`, with whatever contents, and as much is owed. -/
structure InjCoroutine.SameArrays (g g' : InjCoroutine) : Prop where
  a : g'.a.addr = g.a.addr
  nextc : g'.nextc.addr = g.nextc.addr
  used : g'.used.addr = g.used.addr
  ownsMem : g'.ownsMem = g.ownsMem

theorem InjCoroutine.SameArrays.trans {g g' g'' : InjCoroutine} (h : g.SameArrays g')
    (h' : g'.SameArrays g'') : g.SameArrays g'' :=
  ⟨h'.a.trans h.a, h'.nextc.trans h.nextc, h'.used.trans h.used, h'.ownsMem.trans h.ownsMem⟩

/-- The struct that an iteration of `inj_next` leaves. -/
def flowStruct : Flow InjCoroutine (ℤ × Option InjCoroutine × Ptr ℤ) → Option InjCoroutine
  | .again g => some g
  | .leave r => r.2.1

/-- An iteration keeps the arrays. -/
theorem injBody_sameArrays {g : InjCoroutine} {out : Ptr ℤ}
    {r : Flow InjCoroutine (ℤ × Option InjCoroutine × Ptr ℤ)} (h : injBody out g = .ok r) :
    ∃ g', flowStruct r = some g' ∧ g.SameArrays g' := by
  unfold injBody at h
  split at h
  · -- a yield
    obtain ⟨out', -, h⟩ := bind_eq_ok_iff.mp h
    obtain ⟨v, -, h⟩ := bind_eq_ok_iff.mp h
    obtain ⟨used, hused, h⟩ := bind_eq_ok_iff.mp h
    obtain rfl := Except.ok.inj h
    exact ⟨_, rfl, rfl, rfl, Ptr.addr_of_write hused, rfl⟩
  · obtain ⟨c, -, h⟩ := bind_eq_ok_iff.mp h
    obtain ⟨v, -, h⟩ := bind_eq_ok_iff.mp h
    split at h
    · -- a choice
      obtain ⟨a, ha, h⟩ := bind_eq_ok_iff.mp h
      obtain ⟨used, hused, h⟩ := bind_eq_ok_iff.mp h
      obtain ⟨nextc, hnextc, h⟩ := bind_eq_ok_iff.mp h
      have hfirst := Ptr.addr_of_write hnextc
      dsimp only at h
      split at h
      · -- a level further down starts over
        obtain ⟨nextc', hnextc', h⟩ := bind_eq_ok_iff.mp h
        obtain rfl := Except.ok.inj h
        exact ⟨_, rfl, Ptr.addr_of_write ha, (Ptr.addr_of_write hnextc').trans hfirst,
          Ptr.addr_of_write hused, rfl⟩
      · obtain rfl := Except.ok.inj h
        exact ⟨_, rfl, Ptr.addr_of_write ha, hfirst, Ptr.addr_of_write hused, rfl⟩
    · obtain ⟨nextc, hnextc, h⟩ := bind_eq_ok_iff.mp h
      split at h
      · -- the end
        obtain rfl := Except.ok.inj h
        exact ⟨_, rfl, rfl, Ptr.addr_of_write hnextc, rfl, rfl⟩
      · -- a backtrack
        obtain ⟨v, -, h⟩ := bind_eq_ok_iff.mp h
        obtain ⟨used, hused, h⟩ := bind_eq_ok_iff.mp h
        obtain rfl := Except.ok.inj h
        exact ⟨_, rfl, rfl, Ptr.addr_of_write hnextc, Ptr.addr_of_write hused, rfl⟩

/-- **A call of `inj_next` keeps the arrays.** -/
theorem injNext_sameArrays {g : InjCoroutine} {fuel : ℕ} {out out' : Ptr ℤ} {res : ℤ}
    {s' : Option InjCoroutine} (h : injNext fuel (some g) out = .ok (res, s', out')) :
    ∃ g', s' = some g' ∧ g.SameArrays g' := by
  have hrefl : g.SameArrays g := ⟨rfl, rfl, rfl, rfl⟩
  simp only [injNext] at h
  -- the early returns, in the order of the source, and the loop
  split_ifs at h
  · cases h
    exact ⟨g, rfl, hrefl⟩
  · cases h
    exact ⟨g, rfl, hrefl⟩
  · cases h
    exact ⟨g, rfl, hrefl⟩
  · cases h
    exact ⟨_, rfl, rfl, rfl, rfl, rfl⟩
  · obtain ⟨t, hsteps, hleave⟩ := forever_ok h
    have hstep : ∀ g₁ g₂, g.SameArrays g₁ → Step (injBody out) g₁ g₂ → g.SameArrays g₂ := by
      intro g₁ g₂ h₁ hbody
      obtain ⟨g', hg', hsame⟩ := injBody_sameArrays hbody
      obtain rfl := Option.some.inj hg'
      exact h₁.trans hsame
    have ht := invariant_of_step hstep hrefl hsteps
    obtain ⟨g', hg', hsame⟩ := injBody_sameArrays hleave
    exact ⟨g', hg', ht.trans hsame⟩

/-- The struct after `inj_destroy`. -/
structure InjCoroutine.Gone (g : InjCoroutine) : Prop where
  a : g.a = .null
  nextc : g.nextc = .null
  used : g.used = .null

/-- Nothing is read through a null pointer. -/
theorem Ptr.read_null {α : Type} (i : ℕ) (x : α) : (Ptr.null : Ptr α).read i ≠ .ok x := by
  intro h
  cases h

/-- An iteration reads an array at once. -/
theorem InjCoroutine.Gone.body_faults {g : InjCoroutine} (hg : g.Gone) {out : Ptr ℤ}
    {r : Flow InjCoroutine (ℤ × Option InjCoroutine × Ptr ℤ)} : injBody out g ≠ .ok r := by
  intro h
  unfold injBody at h
  split at h
  · -- a yield copies out of the tuple first
    obtain ⟨out', -, h⟩ := bind_eq_ok_iff.mp h
    obtain ⟨v, hv, -⟩ := bind_eq_ok_iff.mp h
    rw [hg.a] at hv
    exact Ptr.read_null _ _ hv
  · -- and every other iteration reads the candidate
    obtain ⟨c, hc, -⟩ := bind_eq_ok_iff.mp h
    rw [hg.nextc] at hc
    exact Ptr.read_null _ _ hc

/-- **After `inj_destroy`** a call of `inj_next` is defined only if it has nothing to write,
and leaves the struct without arrays. -/
theorem InjCoroutine.Gone.next {g : InjCoroutine} (hg : g.Gone) {fuel : ℕ} {out out' : Ptr ℤ}
    {res : ℤ} {s' : Option InjCoroutine} (h : injNext fuel (some g) out = .ok (res, s', out')) :
    (∃ g', s' = some g' ∧ g'.Gone) ∧ (g.k = 0 ∨ out.addr = 0 ∨ g.done ≠ 0) := by
  simp only [injNext] at h
  split_ifs at h with hnull hdone hk hstarted
  · cases h
    exact ⟨⟨g, rfl, hg⟩, Or.inr (Or.inl hnull.2)⟩
  · cases h
    exact ⟨⟨g, rfl, hg⟩, Or.inr (Or.inr hdone)⟩
  · cases h
    exact ⟨⟨g, rfl, hg⟩, Or.inl hk⟩
  · cases h
    exact ⟨⟨_, rfl, hg.a, hg.nextc, hg.used⟩, Or.inl hk⟩
  · obtain ⟨t, hsteps, hleave⟩ := forever_ok h
    -- the first iteration does not get to its end
    rcases Relation.ReflTransGen.cases_head hsteps with rfl | ⟨t', hfirst, -⟩
    · exact absurd hleave hg.body_faults
    · exact absurd hfirst hg.body_faults

/-- What `inj_init` allocates: nothing when it needs no arrays or is given all three. -/
def injAllocated (n k : ℕ) (aStorage nextcStorage usedStorage : Ptr ℕ) (heap : InjHeap) :
    List ℕ :=
  if k = 0 ∨ k > n ∨ aStorage.addr ≠ 0 ∧ nextcStorage.addr ≠ 0 ∧ usedStorage.addr ≠ 0 then []
  else [(malloc heap.a (sizeMul k sizeofSize) sizeofSize).addr,
    (malloc heap.nextc (sizeMul k sizeofSize) sizeofSize).addr,
    (malloc heap.used (sizeMul n 1) 1).addr]

theorem injClear_sameArrays {g g₀ : InjCoroutine} (h : injClear g = .ok (1, some g₀)) :
    g.SameArrays g₀ := by
  unfold injClear at h
  obtain ⟨used, hused, h⟩ := bind_eq_ok_iff.mp h
  obtain ⟨s, hloop, h⟩ := bind_eq_ok_iff.mp h
  cases h
  have hstart : g.SameArrays { g with used } := ⟨rfl, rfl, Ptr.addr_of_memset hused, rfl⟩
  -- the loop writes zeros to the two other arrays
  refine forRange_invariant (P := g.SameArrays) ?_ hstart hloop
  intro i s s' hs hbody
  obtain ⟨a, ha, hbody⟩ := bind_eq_ok_iff.mp hbody
  obtain ⟨nextc, hnextc, hbody⟩ := bind_eq_ok_iff.mp hbody
  obtain rfl := Except.ok.inj hbody
  exact hs.trans ⟨Ptr.addr_of_write ha, Ptr.addr_of_write hnextc, rfl, rfl⟩

/-- What a struct owes: the arrays that it owns. -/
def InjCoroutine.owed (g : InjCoroutine) : List ℕ :=
  if g.ownsMem ≠ 0 then [g.a.addr, g.nextc.addr, g.used.addr].filter (· ≠ 0) else []

theorem InjCoroutine.SameArrays.owed {g g' : InjCoroutine} (h : g.SameArrays g') :
    g'.owed = g.owed := by
  unfold InjCoroutine.owed
  rw [h.a, h.nextc, h.used, h.ownsMem]

/-- A struct without arrays owes nothing. -/
theorem InjCoroutine.Gone.owed {g : InjCoroutine} (hg : g.Gone) : g.owed = [] := by
  unfold InjCoroutine.owed
  rw [hg.a, hg.nextc, hg.used]
  split
  · rfl
  · rfl

/-- **After a successful `inj_init`** the struct owes what was allocated. -/
theorem injInit_owed {g g₀ : InjCoroutine} {n k : ℕ} {a nextc used : Ptr ℕ} {heap : InjHeap}
    (h : injInit (some g) n k a nextc used heap = .ok (1, some g₀)) :
    g₀.owed = injAllocated n k a nextc used heap := by
  unfold injAllocated
  simp only [injInit] at h
  split_ifs at h with hk hkn hcaller hnull
  · cases h
    rw [if_pos (Or.inl hk)]
    exact if_neg (fun hne => hne rfl)
  · cases h
    rw [if_pos (Or.inr (Or.inl hkn))]
    exact if_neg (fun hne => hne rfl)
  · -- on the caller's arrays
    rw [(injClear_sameArrays h).owed, if_pos (Or.inr (Or.inr hcaller))]
    exact if_neg (fun hne => hne rfl)
  · cases h
  · -- on arrays of its own, none of which was refused
    rw [(injClear_sameArrays h).owed, if_neg (by tauto)]
    unfold InjCoroutine.owed
    rw [if_pos Int.one_ne_zero, List.filter_eq_self.mpr]
    push Not at hnull
    intro addr haddr
    simp only [List.mem_cons, List.not_mem_nil, or_false] at haddr
    rcases haddr with rfl | rfl | rfl
    · simpa using hnull.1
    · simpa using hnull.2.1
    · simpa using hnull.2.2

/-- The struct owes these arrays. -/
def InjCoroutine.Owes (owed : List ℕ) (g : InjCoroutine) : Prop := g.owed = owed

/-- **The life of an injection generator**, which is live as long as it owes its arrays. -/
theorem inj_life (owed : List ℕ) :
    injGenerator.Life (Pointee (InjCoroutine.Owes owed)) (Pointee InjCoroutine.Gone) owed where
  next := by
    rintro s fuel out res s' out' ⟨g, rfl, howed⟩ hcall
    obtain ⟨g', rfl, hsame⟩ := injNext_sameArrays hcall
    exact ⟨g', rfl, hsame.owed.trans howed⟩
  destroy := by
    rintro s ⟨g, rfl, howed⟩
    exact ⟨howed, _, rfl, rfl, rfl, rfl⟩
  next_gone := by
    rintro s fuel out res s' out' ⟨g, rfl, hg⟩ hcall
    exact (hg.next hcall).1
  destroy_gone := by
    rintro s ⟨g, rfl, hg⟩
    exact ⟨hg.owed, _, rfl, rfl, rfl, rfl⟩

/-! ### The product generator -/

/-- The carry loop keeps the address of the counter. -/
theorem cpCarry_addr {sizes : Ptr ℕ} {k : ℕ} {idx idx' : Ptr ℕ} {overflow : Bool}
    (h : cpCarry sizes k idx = .ok (overflow, idx')) : idx'.addr = idx.addr := by
  induction k generalizing idx with
  | zero =>
    cases h
    rfl
  | succ k ih =>
    rw [cpCarry] at h
    obtain ⟨d, -, h⟩ := bind_eq_ok_iff.mp h
    obtain ⟨idx₁, hmore, h⟩ := bind_eq_ok_iff.mp h
    obtain ⟨size, -, h⟩ := bind_eq_ok_iff.mp h
    have haddr := Ptr.addr_of_write hmore
    split at h
    · -- the digit has room
      cases h
      exact haddr
    · -- it starts over, and the carry goes on unless it was the first
      obtain ⟨idx₂, hzero, h⟩ := bind_eq_ok_iff.mp h
      have haddr' := (Ptr.addr_of_write hzero).trans haddr
      split at h
      · cases h
        exact haddr'
      · exact (ih h).trans haddr'

/-- **A call of `cp_next` keeps the counter**, and the number of sets. -/
theorem cpNext_sameCounter {cp : CpCoroutine} {out out' : Ptr ℤ} {res : ℤ}
    {s' : Option CpCoroutine} (h : cpNext (some cp) out = .ok (res, s', out')) :
    ∃ cp', s' = some cp' ∧ cp'.idx.addr = cp.idx.addr ∧ cp'.numSets = cp.numSets := by
  simp only [cpNext] at h
  split_ifs at h
  · cases h
    exact ⟨cp, rfl, rfl, rfl⟩
  · cases h
    exact ⟨cp, rfl, rfl, rfl⟩
  · obtain ⟨out₁, -, h⟩ := bind_eq_ok_iff.mp h
    cases h
    exact ⟨_, rfl, rfl, rfl⟩
  · obtain ⟨⟨overflow, idx⟩, hcarry, h⟩ := bind_eq_ok_iff.mp h
    have haddr := cpCarry_addr hcarry
    dsimp only at h
    split at h
    · cases h
      exact ⟨_, rfl, haddr, rfl⟩
    · obtain ⟨out₁, -, h⟩ := bind_eq_ok_iff.mp h
      cases h
      exact ⟨_, rfl, haddr, rfl⟩

/-- The struct after `cp_destroy`, of a generator with sets. -/
structure CpCoroutine.Gone (cp : CpCoroutine) : Prop where
  idx : cp.idx = .null
  numSets_ne : cp.numSets ≠ 0

/-- **After `cp_destroy`** a call of `cp_next` is defined only if it has nothing to write,
and then it does nothing. -/
theorem CpCoroutine.Gone.next {cp : CpCoroutine} (hcp : cp.Gone) {out out' : Ptr ℤ} {res : ℤ}
    {s' : Option CpCoroutine} (h : cpNext (some cp) out = .ok (res, s', out')) :
    s' = some cp ∧ (out.addr = 0 ∨ cp.done ≠ 0) := by
  obtain ⟨j, hj⟩ := Nat.exists_eq_succ_of_ne_zero hcp.numSets_ne
  simp only [cpNext] at h
  split_ifs at h with hnull hdone hstarted
  · cases h
    exact ⟨rfl, Or.inl hnull⟩
  · cases h
    exact ⟨rfl, Or.inr hdone⟩
  · -- the last set is indexed by the counter
    obtain ⟨out₁, hmat, -⟩ := bind_eq_ok_iff.mp h
    unfold cpMaterialize at hmat
    rw [hj, Nat.succ_eq_add_one, forRange_succ] at hmat
    obtain ⟨out₂, -, hlast⟩ := bind_eq_ok_iff.mp hmat
    obtain ⟨set, -, hlast⟩ := bind_eq_ok_iff.mp hlast
    obtain ⟨d, hd, -⟩ := bind_eq_ok_iff.mp hlast
    rw [hcp.idx] at hd
    exact absurd hd (Ptr.read_null _ _)
  · -- the carry starts at the last digit
    obtain ⟨r, hcarry, -⟩ := bind_eq_ok_iff.mp h
    rw [hj, Nat.succ_eq_add_one, cpCarry, hcp.idx] at hcarry
    obtain ⟨d, hd, -⟩ := bind_eq_ok_iff.mp hcarry
    exact absurd hd (Ptr.read_null _ _)

/-- What `cp_init` allocates: nothing when a set is empty or the counter is the caller's. -/
def cpAllocated (sizes : Ptr ℕ) (numSets : ℕ) (idxStorage : Ptr ℕ) (heap : Allocation ℕ) :
    List ℕ :=
  match cpAnyEmpty sizes numSets with
  | .ok false => if idxStorage.addr ≠ 0 then [] else [(calloc heap numSets sizeofSize).addr]
  | _ => []

/-- What a struct owes: its counter, unless that is the one passed to `cp_destroy`. -/
def CpCoroutine.owed (idxStorage : Ptr ℕ) (cp : CpCoroutine) : List ℕ :=
  if cp.idx.addr ≠ 0 ∧ cp.idx.addr ≠ idxStorage.addr then [cp.idx.addr] else []

theorem cpClear_sameCounter {cp cp₀ : CpCoroutine} (h : cpClear cp = .ok (1, some cp₀)) :
    cp₀.idx.addr = cp.idx.addr ∧ cp₀.numSets = cp.numSets := by
  unfold cpClear at h
  obtain ⟨idx, hidx, h⟩ := bind_eq_ok_iff.mp h
  cases h
  exact ⟨Ptr.addr_of_memset hidx, rfl⟩

/-- **After a successful `cp_init`** the struct owes what was allocated. -/
theorem cpInit_owed {cp cp₀ : CpCoroutine} {sets : Ptr (Ptr ℤ)} {sizes : Ptr ℕ} {numSets : ℕ}
    {idxStorage : Ptr ℕ} {heap : Allocation ℕ}
    (h : cpInit (some cp) sets sizes numSets idxStorage heap = .ok (1, some cp₀)) :
    cp₀.owed idxStorage = cpAllocated sizes numSets idxStorage heap ∧ cp₀.numSets ≠ 0 := by
  simp only [cpInit] at h
  split at h
  · cases h
  · next hargs =>
    push Not at hargs
    obtain ⟨anyEmpty, hscan, h⟩ := bind_eq_ok_iff.mp h
    unfold cpAllocated
    rw [hscan]
    cases anyEmpty with
    | true =>
      -- done at once, with no counter
      cases h
      exact ⟨if_neg fun hne => hne.2 rfl, hargs.2.2⟩
    | false =>
      rw [if_neg Bool.false_ne_true] at h
      split at h
      · next hcaller =>
        -- the counter is the one that `cp_destroy` is given, which it leaves alone
        obtain ⟨haddr, hnum⟩ := cpClear_sameCounter h
        dsimp only
        rw [if_pos hcaller]
        refine ⟨if_neg ?_, hnum ▸ hargs.2.2⟩
        rw [haddr]
        exact fun hne => hne.2 rfl
      · next hcaller =>
        push Not at hcaller
        split at h
        · cases h
        · next hroom =>
          obtain ⟨haddr, hnum⟩ := cpClear_sameCounter h
          dsimp only
          rw [if_neg (fun hne => hne hcaller)]
          refine ⟨?_, hnum ▸ hargs.2.2⟩
          unfold CpCoroutine.owed
          rw [haddr, hcaller]
          exact if_pos ⟨hroom, hroom⟩

/-- The struct has sets, and owes its counter or not. -/
structure CpCoroutine.Owes (idxStorage : Ptr ℕ) (owed : List ℕ) (cp : CpCoroutine) : Prop where
  owed_eq : cp.owed idxStorage = owed
  numSets_ne : cp.numSets ≠ 0

/-- **The life of a product generator.** -/
theorem cp_life (idxStorage : Ptr ℕ) (owed : List ℕ) :
    (cpGenerator idxStorage).Life (Pointee (CpCoroutine.Owes idxStorage owed))
      (Pointee CpCoroutine.Gone) owed where
  next := by
    rintro s fuel out res s' out' ⟨cp, rfl, howed, hnum⟩ hcall
    obtain ⟨cp', rfl, haddr, hsets⟩ := cpNext_sameCounter hcall
    refine ⟨cp', rfl, ?_, hsets ▸ hnum⟩
    -- what is owed depends on the address of the counter
    unfold CpCoroutine.owed at howed ⊢
    rwa [haddr]
  destroy := by
    rintro s ⟨cp, rfl, howed, hnum⟩
    exact ⟨howed, _, rfl, rfl, hnum⟩
  next_gone := by
    rintro s fuel out res s' out' ⟨cp, rfl, hcp⟩ hcall
    obtain ⟨rfl, -⟩ := hcp.next hcall
    exact ⟨cp, rfl, hcp⟩
  destroy_gone := by
    rintro s ⟨cp, rfl, hcp⟩
    refine ⟨?_, _, rfl, rfl, hcp.numSets_ne⟩
    change cp.owed idxStorage = []
    unfold CpCoroutine.owed
    rw [hcp.idx]
    exact if_neg fun hne => hne.1 rfl

/-! ### Both -/

/-- **A generator frees once what it allocated.** After a successful `inj_init`, or
`cp_init`, and for calls of `next` and `destroy` in any order, `cp_destroy` being given the
pointer that `cp_init` got: without a `destroy` nothing is freed; with one or more of them
what was allocated is freed once, and after that a `next` that is given an array is defined
only on a generator that is done, or has no position to fill. -/
theorem generators_free_once :
    (∀ g n k a nextc used heap g₀,
      injInit (some g) n k a nextc used heap = .ok (1, some g₀) →
      ∀ es s, Run injGenerator.Calls (some g₀) es s →
        (¬ Generator.Destroyed es → Generator.freed es = []) ∧
        (Generator.Destroyed es → Generator.freed es = injAllocated n k a nextc used heap ∧
          ∃ g', s = some g' ∧ ∀ (fuel : ℕ) (out : Ptr ℤ) r, out.addr ≠ 0 →
            injNext fuel (some g') out = .ok r → g'.k = 0 ∨ g'.done ≠ 0)) ∧
    (∀ cp sets sizes numSets idxStorage heap cp₀,
      cpInit (some cp) sets sizes numSets idxStorage heap = .ok (1, some cp₀) →
      ∀ es s, Run (cpGenerator idxStorage).Calls (some cp₀) es s →
        (¬ Generator.Destroyed es → Generator.freed es = []) ∧
        (Generator.Destroyed es →
          Generator.freed es = cpAllocated sizes numSets idxStorage heap ∧
          ∃ cp', s = some cp' ∧ ∀ (out : Ptr ℤ) r, out.addr ≠ 0 →
            cpNext (some cp') out = .ok r → cp'.done ≠ 0)) := by
  constructor
  · intro g n k a nextc used heap g₀ hinit es s hrun
    have howes : g₀.Owes g₀.owed := rfl
    rcases Generator.freed_of_run (inj_life _) hrun ⟨g₀, rfl, howes⟩ with
      ⟨hes, hfreed, -⟩ | ⟨hes, hfreed, g', rfl, hgone⟩
    · exact ⟨fun _ => hfreed, fun h => absurd h hes⟩
    · refine ⟨fun h => absurd hes h, fun _ => ⟨hfreed.trans (injInit_owed hinit), g', rfl, ?_⟩⟩
      rintro fuel out ⟨res, s', out'⟩ hout hcall
      rcases (hgone.next hcall).2 with hk | hnull | hdone
      · exact Or.inl hk
      · exact absurd hnull hout
      · exact Or.inr hdone
  · intro cp sets sizes numSets idxStorage heap cp₀ hinit es s hrun
    obtain ⟨howed, hnum⟩ := cpInit_owed hinit
    rcases Generator.freed_of_run (cp_life _ _) hrun ⟨cp₀, rfl, howed, hnum⟩ with
      ⟨hes, hfreed, -⟩ | ⟨hes, hfreed, cp', rfl, hgone⟩
    · exact ⟨fun _ => hfreed, fun h => absurd h hes⟩
    · refine ⟨fun h => absurd hes h, fun _ => ⟨hfreed, cp', rfl, ?_⟩⟩
      rintro out ⟨res, s', out'⟩ hout hcall
      exact (hgone.next hcall).2.resolve_left hout

/-- Two lives: an injection generator on three allocated arrays, which yields once and is
destroyed twice, and a product generator with an allocated counter, which is destroyed. -/
theorem generators_free_once_examples :
    let heap : InjHeap := ⟨.block 16 (by decide) id, .block 32 (by decide) id,
      .block 48 (by decide) (fun _ => 7)⟩
    (∃ g₀ s es,
      injInit (some ⟨9, 9, .null, .null, .null, 9, 9, 9, 9⟩) 2 1 .null .null .null heap
          = .ok (1, some g₀) ∧
        Run injGenerator.Calls (some g₀) es s ∧
        es.map Prod.fst = [.next ⟨5, [8]⟩, .destroy, .destroy] ∧
        Generator.freed es = [16, 32, 48]) ∧
      ∃ cp₀ s es,
        cpInit (some ⟨.null, .null, 9, .null, 9, 9⟩) ⟨1, [⟨2, [7]⟩]⟩ ⟨3, [1]⟩ 1 .null
            (.block 64 (by decide) id) = .ok (1, some cp₀) ∧
          Run (cpGenerator .null).Calls (some cp₀) es s ∧
          es.map Prod.fst = [.destroy] ∧ Generator.freed es = [64] := by
  intro heap
  have hinj : injInit (some ⟨9, 9, .null, .null, .null, 9, 9, 9, 9⟩) 2 1 .null .null .null heap
      = .ok (1, some ⟨2, 1, ⟨16, [0]⟩, ⟨32, [0]⟩, ⟨48, [0, 0]⟩, 0, 0, 0, 1⟩) := rfl
  have hnext : injGenerator.next 2
      (some ⟨2, 1, ⟨16, [0]⟩, ⟨32, [0]⟩, ⟨48, [0, 0]⟩, 0, 0, 0, 1⟩) ⟨5, [8]⟩
      = .ok (1, some ⟨2, 1, ⟨16, [0]⟩, ⟨32, [1]⟩, ⟨48, [0, 0]⟩, 0, 0, 0, 1⟩, ⟨5, [0]⟩) := rfl
  have hcp : cpInit (some ⟨.null, .null, 9, .null, 9, 9⟩) ⟨1, [⟨2, [7]⟩]⟩ ⟨3, [1]⟩ 1 .null
      (.block 64 (by decide) id)
      = .ok (1, some ⟨⟨1, [⟨2, [7]⟩]⟩, ⟨3, [1]⟩, 1, ⟨64, [0]⟩, 0, 0⟩) := rfl
  have hrun := ((Run.nil.snoc (Generator.Calls.next hnext)).snoc .destroy).snoc .destroy
  have hrun' := Run.nil.snoc (Generator.Calls.destroy (M := cpGenerator .null)
    (s := some ⟨⟨1, [⟨2, [7]⟩]⟩, ⟨3, [1]⟩, 1, ⟨64, [0]⟩, 0, 0⟩))
  refine ⟨⟨_, _, _, hinj, hrun, rfl, ?_⟩, _, _, _, hcp, hrun', rfl, ?_⟩
  · have honce := (generators_free_once.1 _ _ _ _ _ _ _ _ hinj _ _ hrun).2
    exact (honce ⟨(.destroy, _), List.mem_append_right _ List.mem_cons_self, rfl⟩).1
  · have honce := (generators_free_once.2 _ _ _ _ _ _ _ hcp _ _ hrun').2
    exact (honce ⟨(.destroy, _), List.mem_append_right _ List.mem_cons_self, rfl⟩).1

end Arboql
