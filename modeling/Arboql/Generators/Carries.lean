import Arboql.Generators.CpEnumeration
import Arboql.Lib.Odometer
import Arboql.Lib.Simulation

/-!
# The whole run of the product generator

A call of `cp_next` may carry through all the sets. Over all the calls until the end,
the digit of a set is incremented once for each tuple of members of the sets up to it,
because a carry gets that far only when the digits behind it all start over
(`cpNext_carries`). When every set has two members at least, this is fewer than two
increments for each tuple of the product.

`cpCarryLogged` is the carry loop of `cp_next` with a log of the positions that it
increments. Without the log it is that loop (`cpCarryLogged_fst`).
-/

namespace Arboql

open Loops LexTuples Simulation

/-! ### The carry loop with a log -/

/-- `cpCarry` with the positions that it increments. -/
def cpCarryLogged (sizes : Ptr ℕ) : ℕ → Ptr ℕ → Except Fault ((Bool × Ptr ℕ) × List ℕ)
  | 0, idx => .ok ((false, idx), [])
  | k + 1, idx => do
    let d ← idx.read k
    let idx ← idx.write k (d + 1)
    let size ← sizes.read k
    if d + 1 < size then
      return ((false, idx), [k])
    else
      let idx ← idx.write k 0
      if k = 0 then return ((true, idx), [k])
      else
        let (r, log) ← cpCarryLogged sizes k idx
        return (r, k :: log)

/-- **Without its log** it is the carry loop of `cp_next`. -/
theorem cpCarryLogged_fst (sizes : Ptr ℕ) (k : ℕ) (idx : Ptr ℕ) :
    (cpCarryLogged sizes k idx).map Prod.fst = cpCarry sizes k idx := by
  induction k generalizing idx with
  | zero => rfl
  | succ k ih =>
    -- the same accesses fail on both sides, and the same branch is taken
    rw [cpCarryLogged, cpCarry]
    cases hd : idx.read k with
    | error e => rfl
    | ok d =>
      simp only [bind, Except.bind]
      cases hidx : idx.write k (d + 1) with
      | error e => rfl
      | ok idx₁ =>
        cases hsize : sizes.read k with
        | error e => rfl
        | ok size =>
          by_cases hroom : d + 1 < size
          · simp only [if_pos hroom]
            rfl
          · simp only [if_neg hroom]
            cases hzero : idx₁.write k 0 with
            | error e => rfl
            | ok idx₂ =>
              by_cases hk : k = 0
              · simp only [if_pos hk]
                rfl
              · simp only [if_neg hk, ← ih idx₂]
                cases cpCarryLogged sizes k idx₂ <;> rfl

/-- **The carry loop increments the digits that move** when the counter goes on from `m`. -/
theorem cpCarryLogged_spec {sizes : Ptr ℕ} {bs bs' zs : List ℕ} {addr : ℕ}
    (hsizes : sizes.cells = bs ++ bs') (hbs : ∀ b ∈ bs, 0 < b) (hne : bs ≠ []) (m : ℕ) :
    ∃ r, cpCarryLogged sizes bs.length ⟨addr, digits bs m ++ zs⟩
      = .ok (r, movedAt bs m) := by
  -- on the radices from the right: the loop starts at the last digit
  induction bs using List.reverseRecOn generalizing bs' zs m with
  | nil => exact absurd rfl hne
  | append_singleton bs b ih =>
    have hb : 0 < b := hbs b (by simp)
    have hlen : (digits bs (m / b)).length = bs.length := length_digits bs _
    -- the last digit lies behind those of `bs`
    have hread : (⟨addr, digits bs (m / b) ++ m % b :: zs⟩ : Ptr ℕ).read bs.length
        = .ok (m % b) := by
      rw [Ptr.read_eq_ok, List.getElem?_append_right (by omega), hlen, Nat.sub_self]
      rfl
    have hwrite : ∀ x y : ℕ,
        (⟨addr, digits bs (m / b) ++ x :: zs⟩ : Ptr ℕ).write bs.length y
          = .ok ⟨addr, digits bs (m / b) ++ y :: zs⟩ := by
      intro x y
      rw [Ptr.write_of_lt _ (by rw [List.length_append, List.length_cons]; omega),
        List.set_append_right _ _ (by omega), hlen, Nat.sub_self, List.set_cons_zero]
    have hsize : sizes.read bs.length = .ok b := by
      rw [Ptr.read_eq_ok, hsizes, List.append_assoc, List.getElem?_append_right le_rfl,
        Nat.sub_self]
      rfl
    rw [digits_concat, movedAt_concat, List.length_append, List.length_singleton, cpCarryLogged]
    simp only [List.append_assoc, List.singleton_append, bind, Except.bind, hread, hwrite, hsize]
    rcases succ_mod_cases hb m with ⟨hroom, -, hdvd⟩ | ⟨hroom, hdvd⟩
    · -- the last digit has room
      rw [if_pos hroom, if_neg hdvd]
      exact ⟨_, rfl⟩
    · rw [if_neg hroom, if_pos hdvd]
      by_cases hnil : bs = []
      · -- there was one digit only
        subst hnil
        exact ⟨_, rfl⟩
      · -- the carry goes on to the digits before it
        have hk : bs.length ≠ 0 := fun h => hnil (List.eq_nil_of_length_eq_zero h)
        have hsizes' : sizes.cells = bs ++ ([b] ++ bs') := by rw [hsizes, List.append_assoc]
        have hbs' : ∀ b' ∈ bs, 0 < b' := fun b' hb' => hbs b' (List.mem_append_left _ hb')
        have hbefore : ∃ r, cpCarryLogged sizes bs.length ⟨addr, digits bs (m / b) ++ 0 :: zs⟩
            = .ok (r, movedAt bs (m / b)) := ih hsizes' hbs' hnil (m / b)
        obtain ⟨r, hr⟩ := hbefore
        rw [if_neg hk, hr]
        exact ⟨r, rfl⟩

/-! ### Calls -/

/-- **A call of `cp_next`** with the positions that it increments and its result. Without
`out_values`, before the first yield, and once the generator is done there are none. -/
def CpCall (numSets : ℕ) (cp : CpCoroutine) (e : List ℕ × ℤ) (cp' : CpCoroutine) : Prop :=
  ∃ out out' : Ptr ℤ, (out.addr ≠ 0 → out.cells.length = numSets)
    ∧ cpNext (some cp) out = .ok (e.2, some cp', out')
    ∧ if out.addr ≠ 0 ∧ cp.done = 0 ∧ cp.started ≠ 0 then
        ∃ r, cpCarryLogged cp.sizes cp.numSets cp.idx = .ok (r, e.1)
      else e.1 = []

/-- All the increments of some calls. -/
def increments (es : List (List ℕ × ℤ)) : List ℕ := es.flatMap Prod.fst

theorem increments_snoc (es : List (List ℕ × ℤ)) (e : List ℕ × ℤ) :
    increments (es ++ [e]) = increments es ++ e.1 := by
  unfold increments
  rw [List.flatMap_append, List.flatMap_singleton]

variable {sets : Ptr (Ptr ℤ)} {sizes : Ptr ℕ} {numSets : ℕ}

/-- Where a generator stands that has counted on from `0` to `m`: before its first yield, at
the tuple number `m`, or at the end. -/
inductive CountedTo (sets : Ptr (Ptr ℤ)) (sizes : Ptr ℕ) (numSets : ℕ) (cp : CpCoroutine) :
    ℕ → Prop
  | fresh (hS : CpState sets sizes numSets cp) (hstart : cp.started = 0)
      (hidx : cp.idx.cells = List.replicate numSets 0) (hpos : 0 < sizes.cells.prod) :
      CountedTo sets sizes numSets cp 0
  | at {m : ℕ} (hS : CpState sets sizes numSets cp) (hstart : cp.started ≠ 0)
      (hidx : cp.idx.cells = digits sizes.cells m) (hm : m < sizes.cells.prod) :
      CountedTo sets sizes numSets cp m
  | done (h : cp.done ≠ 0) : CountedTo sets sizes numSets cp sizes.cells.prod

/-- Without `out_values` nothing happens. -/
theorem cpNext_null (cp : CpCoroutine) {out : Ptr ℤ} (hnull : out.addr = 0) :
    cpNext (some cp) out = .ok (0, some cp, out) := by
  rw [cpNext, if_pos hnull]

/-- Nor once the generator is done. -/
theorem cpNext_done {cp : CpCoroutine} {out : Ptr ℤ} (hnull : out.addr ≠ 0)
    (hdone : cp.done ≠ 0) : cpNext (some cp) out = .ok (0, some cp, out) := by
  rw [cpNext, if_neg hnull, if_pos hdone]

theorem pos_of_prod_pos {bs : List ℕ} (h : 0 < bs.prod) : ∀ b ∈ bs, 0 < b := by
  intro b hb
  refine Nat.pos_of_ne_zero ?_
  rintro rfl
  rw [List.prod_eq_zero hb] at h
  exact absurd h (Nat.lt_irrefl 0)

/-- The first call with `out_values` yields the tuple number `0`. -/
theorem cpNext_first {cp : CpCoroutine} {out : Ptr ℤ} (hF : CpFamily sets sizes numSets)
    (hS : CpState sets sizes numSets cp) (hstart : cp.started = 0)
    (hidx : cp.idx.cells = List.replicate numSets 0) (hpos : ∀ b ∈ sizes.cells, 0 < b)
    (hnull : out.addr ≠ 0) (hout : out.cells.length = numSets) :
    cpNext (some cp) out = .ok (1, some { cp with started := 1 },
        ⟨out.addr, cpTuple sets.cells (digits sizes.cells 0)⟩)
      ∧ cp.idx.cells = digits sizes.cells 0 := by
  have hidx0 : cp.idx.cells = digits sizes.cells 0 := by
    rw [hidx, digits_zero, List.map_const', hF.sizes_eq, List.length_map, hF.sets_len]
  have hS' : CpState sets sizes numSets { cp with started := 1 } :=
    ⟨hS.sets_eq, hS.sizes_eq, hS.numSets_eq, hS.not_done⟩
  have hdone : ¬ cp.done ≠ 0 := fun h => h hS.not_done
  refine ⟨?_, hidx0⟩
  simp only [cpNext, if_neg hnull, if_neg hdone, if_pos hstart,
    cpMaterialize_digits hF hS' hpos hidx0 (hout.trans hF.sets_len.symm)]
  rfl

/-- A call at the tuple number `m` counts on to `m + 1`, and the carry loop increments the
digits that move. -/
theorem cpNext_at {cp : CpCoroutine} {out : Ptr ℤ} {m : ℕ} (hF : CpFamily sets sizes numSets)
    (hne : sizes.cells ≠ []) (hS : CpState sets sizes numSets cp) (hstart : cp.started ≠ 0)
    (hidx : cp.idx.cells = digits sizes.cells m) (hm : m < sizes.cells.prod)
    (hnull : out.addr ≠ 0) (hout : out.cells.length = numSets) :
    (∃ res cp' out', cpNext (some cp) out = .ok (res, some cp', out')
        ∧ CountedTo sets sizes numSets cp' (m + 1))
      ∧ ∃ r, cpCarryLogged cp.sizes cp.numSets cp.idx = .ok (r, movedAt sizes.cells m) := by
  have hpos := pos_of_prod_pos (Nat.zero_lt_of_lt hm)
  have hlen : sizes.cells.length = numSets := by rw [hF.sizes_eq, List.length_map, hF.sets_len]
  constructor
  · rw [cpNext_advance hF hS hne hpos hstart hidx hnull]
    by_cases hdvd : sizes.cells.prod ∣ m + 1
    · -- the most significant digit starts over
      have hlast : m + 1 = sizes.cells.prod := by
        have hle := Nat.le_of_dvd (Nat.succ_pos m) hdvd
        omega
      rw [if_pos hdvd, hlast]
      exact ⟨_, _, _, rfl, .done Int.one_ne_zero⟩
    · have hS' : CpState sets sizes numSets
          { cp with idx := ⟨cp.idx.addr, digits sizes.cells (m + 1)⟩ } :=
        ⟨hS.sets_eq, hS.sizes_eq, hS.numSets_eq, hS.not_done⟩
      have hnext : m + 1 < sizes.cells.prod := by
        refine Nat.lt_of_le_of_ne hm fun hlast => hdvd ?_
        rw [← hlast]
      simp only [if_neg hdvd, cpMaterialize_digits hF hS' hpos rfl
        (hout.trans hF.sets_len.symm)]
      exact ⟨_, _, _, rfl, .at hS' hstart rfl hnext⟩
  · -- the log of the carry loop, which starts at the last of all the digits
    have hspec : ∃ r, cpCarryLogged sizes sizes.cells.length
        ⟨cp.idx.addr, digits sizes.cells m ++ []⟩ = .ok (r, movedAt sizes.cells m) :=
      cpCarryLogged_spec (List.append_nil sizes.cells).symm hpos hne m
    rw [List.append_nil, ← hidx, hlen] at hspec
    rw [hS.sizes_eq, hS.numSets_eq]
    exact hspec

/-- **Every call counts on**, and increments the digits that move. -/
theorem CountedTo.next {cp cp' : CpCoroutine} {e : List ℕ × ℤ} {m : ℕ}
    (hF : CpFamily sets sizes numSets) (hne : sizes.cells ≠ [])
    (h : CountedTo sets sizes numSets cp m) (hcall : CpCall numSets cp e cp') :
    (CountedTo sets sizes numSets cp' m ∧ e.1 = [])
      ∨ (m < sizes.cells.prod ∧ CountedTo sets sizes numSets cp' (m + 1)
        ∧ e.1 = movedAt sizes.cells m) := by
  obtain ⟨log, res⟩ := e
  obtain ⟨out, out', hout, hres, hlog⟩ := hcall
  by_cases hnull : out.addr = 0
  · -- nothing happens without an array for the tuple
    rw [if_neg (fun hguard => hguard.1 hnull)] at hlog
    rw [cpNext_null cp hnull] at hres
    cases hres
    exact Or.inl ⟨h, hlog⟩
  cases h with
  | fresh hS hstart hidx hpos =>
    -- the first yield does not move the counter
    rw [if_neg (fun hguard => hguard.2.2 hstart)] at hlog
    obtain ⟨hfirst, hidx0⟩ :=
      cpNext_first hF hS hstart hidx (pos_of_prod_pos hpos) hnull (hout hnull)
    rw [hfirst] at hres
    cases hres
    exact Or.inl ⟨.at ⟨hS.sets_eq, hS.sizes_eq, hS.numSets_eq, hS.not_done⟩ Int.one_ne_zero
      hidx0 hpos, hlog⟩
  | «at» hS hstart hidx hm =>
    rw [if_pos ⟨hnull, hS.not_done, hstart⟩] at hlog
    obtain ⟨⟨res', cp₁, out₁, hcall, hat⟩, r, hr⟩ :=
      cpNext_at hF hne hS hstart hidx hm hnull (hout hnull)
    rw [hcall] at hres
    cases hres
    obtain ⟨r', hr'⟩ := hlog
    exact Or.inr ⟨hm, hat, (Prod.mk.inj (Except.ok.inj (hr'.symm.trans hr))).2⟩
  | done hdone =>
    rw [if_neg (fun hguard => hdone hguard.2.1)] at hlog
    rw [cpNext_done hnull hdone] at hres
    cases hres
    exact Or.inl ⟨.done hdone, hlog⟩

/-- From the tuple number `m` on, a generator can be called until it is done. -/
theorem exists_run_at {d : ℕ} {cp : CpCoroutine} {m : ℕ} (hF : CpFamily sets sizes numSets)
    (hne : sizes.cells ≠ []) (hS : CpState sets sizes numSets cp) (hstart : cp.started ≠ 0)
    (hidx : cp.idx.cells = digits sizes.cells m) (hm : m < sizes.cells.prod)
    (hd : sizes.cells.prod - m = d) :
    ∃ es cp', Run (CpCall numSets) cp es cp' ∧ cp'.done ≠ 0 := by
  -- on the tuples that are still to come
  induction d generalizing cp m with
  | zero => exact absurd hd (by omega)
  | succ d ih =>
    let out : Ptr ℤ := ⟨1, List.replicate numSets 0⟩
    have hnull : out.addr ≠ 0 := Nat.one_ne_zero
    have hout : out.cells.length = numSets := List.length_replicate
    obtain ⟨⟨res, cp₁, out₁, hres, hat⟩, r, hlog⟩ :=
      cpNext_at hF hne hS hstart hidx hm hnull hout
    have hcall : CpCall numSets cp (movedAt sizes.cells m, res) cp₁ := by
      refine ⟨out, out₁, fun _ => hout, hres, ?_⟩
      rw [if_pos ⟨hnull, hS.not_done, hstart⟩]
      exact ⟨r, hlog⟩
    generalize hm₁ : m + 1 = m₁ at hat
    cases hat with
    | fresh => exact absurd hm₁ (Nat.succ_ne_zero m)
    | «at» hS₁ hstart₁ hidx₁ hlt =>
      obtain ⟨es, cp', hrun, hdone⟩ := ih hS₁ hstart₁ hidx₁ hlt (by omega)
      exact ⟨_, cp', (Run.nil.snoc hcall).trans hrun, hdone⟩
    | done hdone => exact ⟨_, cp₁, Run.nil.snoc hcall, hdone⟩

/-- **The calls come to an end.** -/
theorem CountedTo.exists_run {cp : CpCoroutine} {m : ℕ} (hF : CpFamily sets sizes numSets)
    (hne : sizes.cells ≠ []) (h : CountedTo sets sizes numSets cp m) :
    ∃ es cp', Run (CpCall numSets) cp es cp' ∧ cp'.done ≠ 0 := by
  cases h with
  | fresh hS hstart hidx hpos =>
    let out : Ptr ℤ := ⟨1, List.replicate numSets 0⟩
    have hnull : out.addr ≠ 0 := Nat.one_ne_zero
    have hout : out.cells.length = numSets := List.length_replicate
    obtain ⟨hfirst, hidx0⟩ := cpNext_first hF hS hstart hidx (pos_of_prod_pos hpos) hnull hout
    have hcall : CpCall numSets cp ([], 1) { cp with started := 1 } := by
      refine ⟨out, _, fun _ => hout, hfirst, ?_⟩
      rw [if_neg (fun hguard => hguard.2.2 hstart)]
    have hS' : CpState sets sizes numSets { cp with started := 1 } :=
      ⟨hS.sets_eq, hS.sizes_eq, hS.numSets_eq, hS.not_done⟩
    obtain ⟨es, cp', hrun, hdone⟩ := exists_run_at hF hne hS' Int.one_ne_zero hidx0 hpos rfl
    exact ⟨_, cp', (Run.nil.snoc hcall).trans hrun, hdone⟩
  | «at» hS hstart hidx hm => exact exists_run_at hF hne hS hstart hidx hm rfl
  | done hdone => exact ⟨[], cp, .nil, hdone⟩

/-- What some calls have incremented so far. -/
def CountedSoFar (sets : Ptr (Ptr ℤ)) (sizes : Ptr ℕ) (numSets : ℕ) (es : List (List ℕ × ℤ))
    (cp : CpCoroutine) : Prop :=
  ∃ m ≤ sizes.cells.prod, CountedTo sets sizes numSets cp m
    ∧ increments es = movesUpTo sizes.cells m

/-- **Every call keeps the account.** -/
theorem CountedSoFar.next {cp cp' : CpCoroutine} {es : List (List ℕ × ℤ)} {e : List ℕ × ℤ}
    (hF : CpFamily sets sizes numSets) (hne : sizes.cells ≠ [])
    (h : CountedSoFar sets sizes numSets es cp) (hcall : CpCall numSets cp e cp') :
    CountedSoFar sets sizes numSets (es ++ [e]) cp' := by
  obtain ⟨m, hm, hat, hes⟩ := h
  -- the call moves no digit, or those that move from `m` to `m + 1`
  rcases hat.next hF hne hcall with ⟨hat', hlog⟩ | ⟨hlt, hat', hlog⟩
  · refine ⟨m, hm, hat', ?_⟩
    rw [increments_snoc, hlog, List.append_nil, hes]
  · refine ⟨m + 1, hlt, hat', ?_⟩
    rw [increments_snoc, hlog, hes, movesUpTo_succ]

/-! ### The whole run -/

/-- A successful `cp_init` stands at the start, or at the end of an empty product. -/
theorem cpInit_countedTo {cp cp₀ : CpCoroutine} {idxStorage : Ptr ℕ} {heap : Allocation ℕ}
    (hF : CpFamily sets sizes numSets)
    (hidx : idxStorage.addr ≠ 0 → idxStorage.cells.length = numSets)
    (hinit : cpInit (some cp) sets sizes numSets idxStorage heap = .ok (1, some cp₀)) :
    sizes.cells ≠ [] ∧ CountedTo sets sizes numSets cp₀ 0 := by
  obtain ⟨hnum, hstart⟩ := cpInit_spec hF hidx hinit
  refine ⟨?_, ?_⟩
  · rintro hnil
    rw [hF.sizes_eq, List.map_eq_nil_iff] at hnil
    rw [← hF.sets_len, hnil] at hnum
    exact hnum rfl
  · rcases hstart with ⟨hzero, hdone⟩ | ⟨hzero, hS, hstarted, hcells⟩
    · rw [← List.prod_eq_zero hzero]
      exact .done hdone
    · refine .fresh hS hstarted hcells (List.prod_pos fun b hb => Nat.pos_of_ne_zero ?_)
      rintro rfl
      exact hzero hb

/-- **The cost of the whole enumeration.** After a successful `cp_init`, any calls of
`cp_next` increment the digits that move when a mixed-radix counter counts from `0` up to
some `m`; until the generator is done they have counted once through the product. In that,
unless a set is empty, the digit of the set `i` is incremented once for each tuple of
members of the sets up to it, and all digits together fewer than two times for each tuple
of the product when every set has two members or more. And calls do come to that point. -/
theorem cpNext_carries {cp cp₀ : CpCoroutine} {idxStorage : Ptr ℕ} {heap : Allocation ℕ}
    (hF : CpFamily sets sizes numSets)
    (hidx : idxStorage.addr ≠ 0 → idxStorage.cells.length = numSets)
    (hinit : cpInit (some cp) sets sizes numSets idxStorage heap = .ok (1, some cp₀)) :
    (∀ es cp', Run (CpCall numSets) cp₀ es cp' → ∃ m ≤ sizes.cells.prod,
        increments es = movesUpTo sizes.cells m ∧ (cp'.done ≠ 0 → m = sizes.cells.prod
          ∧ (0 ∉ sizes.cells → ∀ i < numSets,
            (increments es).count i = (sizes.cells.take (i + 1)).prod)
          ∧ ((∀ b ∈ sizes.cells, 2 ≤ b) →
            (increments es).length < 2 * sizes.cells.prod)))
      ∧ ∃ es cp', Run (CpCall numSets) cp₀ es cp' ∧ cp'.done ≠ 0 := by
  obtain ⟨hne, hat⟩ := cpInit_countedTo hF hidx hinit
  refine ⟨fun es cp' hrun => ?_, hat.exists_run hF hne⟩
  have hfirst : CountedSoFar sets sizes numSets [] cp₀ := ⟨0, Nat.zero_le _, hat, rfl⟩
  obtain ⟨m, hm, hat', hes⟩ :=
    hrun.invariant (fun es e s₁ s₂ h hcall => h.next hF hne hcall) hfirst
  refine ⟨m, hm, hes, fun hdone => ?_⟩
  have hlast : m = sizes.cells.prod := by
    cases hat' with
    | fresh hS => exact absurd hS.not_done hdone
    | «at» hS => exact absurd hS.not_done hdone
    | done => rfl
  have hlen : sizes.cells.length = numSets := by rw [hF.sizes_eq, List.length_map, hF.sets_len]
  rw [hlast] at hes
  refine ⟨hlast, fun hzero i hi => ?_, fun htwo => ?_⟩
  · have hpos : ∀ b ∈ sizes.cells, 0 < b := by
      intro b hb
      refine Nat.pos_of_ne_zero ?_
      rintro rfl
      exact hzero hb
    rw [hes, count_round hpos (by omega)]
  · rw [hes]
    exact length_round_lt htwo

/-- For sets of three and two members the first digit is incremented three times and the
second one six times. -/
theorem cpNext_carries_three_two :
    let sets : Ptr (Ptr ℤ) := ⟨1, [⟨2, [10, 20, 30]⟩, ⟨3, [7, 8]⟩]⟩
    let sizes : Ptr ℕ := ⟨4, [3, 2]⟩
    let cp₀ : CpCoroutine := ⟨sets, sizes, 2, ⟨5, [0, 0]⟩, 0, 0⟩
    cpInit (some ⟨.null, .null, 9, .null, 9, 9⟩) sets sizes 2 ⟨5, [8, 8]⟩ .failed
        = .ok (1, some cp₀) ∧
      ∃ es cp', Run (CpCall 2) cp₀ es cp' ∧ cp'.done ≠ 0
        ∧ (increments es).count 0 = 3 ∧ (increments es).count 1 = 6
        ∧ (increments es).length < 12 := by
  intro sets sizes cp₀
  have hinit : cpInit (some ⟨.null, .null, 9, .null, 9, 9⟩) sets sizes 2 ⟨5, [8, 8]⟩ .failed
      = .ok (1, some cp₀) := by decide +kernel
  have hF : CpFamily sets sizes 2 := ⟨rfl, rfl⟩
  obtain ⟨hruns, es, cp', hrun, hdone⟩ := cpNext_carries hF (fun _ => rfl) hinit
  obtain ⟨m, -, -, hround⟩ := hruns es cp' hrun
  obtain ⟨-, hcount, hlt⟩ := hround hdone
  have hzero : 0 ∉ sizes.cells := by decide
  exact ⟨hinit, es, cp', hrun, hdone, hcount hzero 0 (by decide), hcount hzero 1 (by decide),
    hlt (by decide)⟩

end Arboql
