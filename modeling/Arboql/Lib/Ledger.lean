import Arboql.Lib.CLayout
import Mathlib.Data.List.Pairwise

/-!
# Objects that own blocks of memory

`free` next to `malloc`, and what a program with several objects in memory relies
on. An `Ownership` says, for objects of some type, which blocks an object owns and
when the bytes of these blocks represent it; nothing else matters to an object
(`locality`). A `Ledger` accounts for every allocated block once: it is one of the
loose blocks, or it is owned by one of the objects.

The ledger is the invariant of a heap. A request adds a loose block
(`Ledger.malloc`), `free` takes one away (`Ledger.free`), loose blocks are packed
into an object and an object is unpacked into its blocks, and writing to loose
blocks changes no object (`Ledger.write`). So an operation on one object leaves
all others alone (`Ledger.update`), and a block that nothing in the ledger owns
has been freed.
-/

namespace CLayout

/-! ### Blocks -/

/-- Two blocks with addresses of their own that do not overlap. -/
def Separate (b c : ℕ × ℕ) : Prop :=
  b.1 ≠ c.1 ∧ (b.1 + b.2 ≤ c.1 ∨ c.1 + c.2 ≤ b.1)

instance : Std.Symm Separate := ⟨fun _ _ h => ⟨h.1.symm, h.2.symm⟩⟩

/-- **Well-formed blocks**: none at the null pointer, and any two of them separate. -/
structure WellFormed (blocks : List (ℕ × ℕ)) : Prop where
  ne_zero : ∀ b ∈ blocks, b.1 ≠ 0
  separate : blocks.Pairwise Separate

namespace WellFormed

variable {blocks blocks' : List (ℕ × ℕ)} {b c : ℕ × ℕ}

theorem perm (h : WellFormed blocks) (hp : blocks.Perm blocks') : WellFormed blocks' where
  ne_zero b hb := h.ne_zero b (hp.mem_iff.mpr hb)
  separate := (hp.pairwise_iff fun hbc => symm hbc).mp h.separate

/-- The blocks of the parts of a heap are separate across the parts. -/
theorem of_append (h : WellFormed (blocks ++ blocks')) (hb : b ∈ blocks) (hc : c ∈ blocks') :
    Separate b c :=
  (List.pairwise_append.mp h.separate).2.2 b hb c hc

/-- An address belongs to one block. -/
theorem eq_of_addr (h : WellFormed blocks) (hb : b ∈ blocks) (hc : c ∈ blocks)
    (haddr : b.1 = c.1) : b = c := by
  by_contra hne
  exact (h.separate.forall hb hc hne).1 haddr

end WellFormed

/-! ### `malloc` and `free` -/

/-- An allocator that gives every block an address of its own, a block of size `0`
included. -/
structure HeapAllocator extends Allocator where
  distinct : ∀ n blocks size base, place n blocks size = some base → ∀ b ∈ blocks, base ≠ b.1

/-- The allocator that leaves a byte free after each block. -/
def HeapAllocator.bump : HeapAllocator where
  place _ blocks size :=
    if topOfBlocks blocks + 1 + size < 2 ^ 64 then some (topOfBlocks blocks + 1) else none
  fresh n blocks size base h := by
    by_cases hlt : topOfBlocks blocks + 1 + size < 2 ^ 64
    · rw [if_pos hlt] at h
      obtain rfl := Option.some.inj h
      exact ⟨Nat.succ_pos _, hlt, fun b hb => Or.inr ((le_topOfBlocks hb).trans (Nat.le_succ _))⟩
    · rw [if_neg hlt] at h
      cases h
  distinct n blocks size base h b hb := by
    by_cases hlt : topOfBlocks blocks + 1 + size < 2 ^ 64
    · rw [if_pos hlt] at h
      obtain rfl := Option.some.inj h
      have hle := le_topOfBlocks hb
      omega
    · rw [if_neg hlt] at h
      cases h

/-- A block can be placed at `base` next to the others. -/
def Fits (blocks : List (ℕ × ℕ)) (size base : ℕ) : Prop :=
  0 < base ∧ base + size < 2 ^ 64 ∧ ∀ b ∈ blocks, Separate (base, size) b

instance decidableFits (blocks : List (ℕ × ℕ)) (size : ℕ) : DecidablePred (Fits blocks size) :=
  fun base => inferInstanceAs (Decidable (0 < base ∧ base + size < 2 ^ 64
    ∧ ∀ b ∈ blocks, (base ≠ b.1 ∧ (base + size ≤ b.1 ∨ b.1 + b.2 ≤ base))))

/-- The allocator that replays some answers in order, where they fit. Whatever an allocator
has answered in a run, and whatever it keeps of blocks that were freed, is replayed. -/
def HeapAllocator.replay (answers : List (Option ℕ)) : HeapAllocator where
  place n blocks size := answers[n]?.join.filter fun base => Fits blocks size base
  fresh n blocks size base h := by
    obtain ⟨hpos, hlt, hsep⟩ := of_decide_eq_true (Option.filter_eq_some_iff.mp h).2
    exact ⟨hpos, hlt, fun b hb => (hsep b hb).2⟩
  distinct n blocks size base h b hb := by
    obtain ⟨-, -, hsep⟩ := of_decide_eq_true (Option.filter_eq_some_iff.mp h).2
    exact (hsep b hb).1

/-- `free(p)`. The null pointer is ignored, and an address at which no block begins
is an invalid access. -/
def Memory.free (m : Memory) (p : ℕ) : Except MemFault Memory :=
  if p = 0 then .ok m
  else if p ∈ m.blocks.map Prod.fst then
    .ok { m with blocks := m.blocks.eraseP fun b => b.1 = p }
  else .error .outOfBounds

theorem eraseP_congr {α : Type} {f g : α → Bool} {l : List α} (h : ∀ x ∈ l, f x = g x) :
    l.eraseP f = l.eraseP g := by
  induction l with
  | nil => rfl
  | cons x l ih =>
    rw [List.eraseP_cons, List.eraseP_cons, h x List.mem_cons_self,
      ih fun y hy => h y (List.mem_cons_of_mem _ hy)]

/-- A block that begins at `p` is what `free(p)` takes away. -/
theorem Memory.free_eq {m : Memory} (h : WellFormed m.blocks) {p size : ℕ}
    (hmem : (p, size) ∈ m.blocks) :
    m.free p = .ok { m with blocks := m.blocks.erase (p, size) } := by
  have hp : p ≠ 0 := h.ne_zero _ hmem
  have hbase : p ∈ m.blocks.map Prod.fst := List.mem_map.mpr ⟨_, hmem, rfl⟩
  -- no other block begins at `p`
  have hiff : ∀ b ∈ m.blocks, decide (b.1 = p) = ((p, size) == b) := by
    intro b hb
    by_cases hbp : b.1 = p
    · obtain rfl := h.eq_of_addr hb hmem hbp
      simp
    · have hne : (p, size) ≠ b := fun heq => hbp (congrArg Prod.fst heq).symm
      simp [hbp, hne]
  rw [free, if_neg hp, if_pos hbase, List.erase_eq_eraseP, eraseP_congr hiff]

/-- **What a request does** to well-formed blocks. -/
theorem Memory.malloc_cases {m m' : Memory} {alloc : HeapAllocator} {size p : ℕ}
    (hm : WellFormed m.blocks) (h : m.malloc alloc.toAllocator size = (m', p)) :
    (p = 0 ∧ m' = { m with requests := m.requests + 1 })
      ∨ (p ≠ 0
        ∧ m' = { m with blocks := (p, size) :: m.blocks, requests := m.requests + 1 }
        ∧ WellFormed ((p, size) :: m.blocks)) := by
  unfold malloc at h
  cases hplace : alloc.place m.requests m.blocks size with
  | none =>
    rw [hplace] at h
    obtain ⟨rfl, rfl⟩ := Prod.mk.inj h
    exact Or.inl ⟨rfl, rfl⟩
  | some base =>
    rw [hplace] at h
    obtain ⟨rfl, rfl⟩ := Prod.mk.inj h
    obtain ⟨hpos, -, hapart⟩ := alloc.fresh _ _ _ _ hplace
    have hdist := alloc.distinct _ _ _ _ hplace
    refine Or.inr ⟨Nat.ne_of_gt hpos, rfl, ?_, ?_⟩
    · exact List.forall_mem_cons.mpr ⟨Nat.ne_of_gt hpos, hm.ne_zero⟩
    · exact List.pairwise_cons.mpr ⟨fun b hb => ⟨hdist b hb, hapart b hb⟩, hm.separate⟩

/-! ### Ownership -/

/-- **What objects own.** The blocks of an object, and the bytes that represent it,
of which only those in its blocks matter. -/
structure Ownership (ι : Type) where
  blocks : ι → List (ℕ × ℕ)
  Holds : ι → (ℕ → UInt8) → Prop
  locality : ∀ o bytes bytes',
    (∀ b ∈ blocks o, ∀ a, b.1 ≤ a → a < b.1 + b.2 → bytes' a = bytes a) →
      Holds o bytes → Holds o bytes'

variable {ι : Type} {O : Ownership ι}

/-- **The ledger of a heap**: every allocated block is loose or is owned by one of
the objects, which are represented. -/
structure Ledger (O : Ownership ι) (m : Memory) (loose : List (ℕ × ℕ)) (objs : List ι) :
    Prop where
  wellFormed : WellFormed m.blocks
  blocks : m.blocks.Perm (loose ++ objs.flatMap O.blocks)
  holds : ∀ o ∈ objs, O.Holds o m.bytes

namespace Ledger

variable {m m' : Memory} {loose loose' : List (ℕ × ℕ)} {objs objs' : List ι} {o o' : ι}

theorem perm (h : Ledger O m loose objs) (hl : loose.Perm loose') (ho : objs.Perm objs') :
    Ledger O m loose' objs' where
  wellFormed := h.wellFormed
  blocks := h.blocks.trans (hl.append (ho.flatMap_right _))
  holds o hmem := h.holds o (ho.mem_iff.mpr hmem)

/-- The accounted blocks, which are as well-formed as the allocated ones. -/
theorem accounted (h : Ledger O m loose objs) : WellFormed (loose ++ objs.flatMap O.blocks) :=
  h.wellFormed.perm h.blocks

theorem mem_blocks (h : Ledger O m loose objs) {b : ℕ × ℕ} (hb : b ∈ loose) : b ∈ m.blocks :=
  h.blocks.mem_iff.mpr (List.mem_append_left _ hb)

theorem mem_blocks_of_obj (h : Ledger O m loose objs) (ho : o ∈ objs) {b : ℕ × ℕ}
    (hb : b ∈ O.blocks o) : b ∈ m.blocks :=
  h.blocks.mem_iff.mpr (List.mem_append_right _ (List.mem_flatMap.mpr ⟨o, ho, hb⟩))

/-- The blocks of one object are separate from each other. -/
theorem wellFormed_of_obj (h : Ledger O m loose objs) (ho : o ∈ objs) :
    WellFormed (O.blocks o) where
  ne_zero _ hb := h.wellFormed.ne_zero _ (h.mem_blocks_of_obj ho hb)
  separate := by
    obtain ⟨before, after, rfl⟩ := List.append_of_mem ho
    have hall := h.accounted.separate
    rw [List.flatMap_append, List.flatMap_cons] at hall
    refine hall.sublist (List.Sublist.trans ?_ (List.sublist_append_right _ _))
    exact (List.sublist_append_left _ _).trans (List.sublist_append_right _ _)

/-- An object becomes loose blocks. -/
theorem unpack (h : Ledger O m loose (o :: objs)) : Ledger O m (O.blocks o ++ loose) objs where
  wellFormed := h.wellFormed
  blocks := by
    have hb := h.blocks
    rw [List.flatMap_cons, ← List.append_assoc] at hb
    exact hb.trans (List.perm_append_comm.append_right _)
  holds o' ho' := h.holds o' (List.mem_cons_of_mem _ ho')

/-- Loose blocks that represent an object become the object. -/
theorem pack (h : Ledger O m (O.blocks o ++ loose) objs) (ho : O.Holds o m.bytes) :
    Ledger O m loose (o :: objs) where
  wellFormed := h.wellFormed
  blocks := by
    rw [List.flatMap_cons, ← List.append_assoc]
    exact h.blocks.trans (List.perm_append_comm.append_right _)
  holds := List.forall_mem_cons.mpr ⟨ho, h.holds⟩

/-- **A request** is refused, or adds a loose block. -/
theorem malloc (h : Ledger O m loose objs) {alloc : HeapAllocator} {size p : ℕ}
    (hp : m.malloc alloc.toAllocator size = (m', p)) :
    m'.bytes = m.bytes ∧ (p = 0 ∧ Ledger O m' loose objs
      ∨ p ≠ 0 ∧ Ledger O m' ((p, size) :: loose) objs) := by
  rcases Memory.malloc_cases h.wellFormed hp with ⟨h0, rfl⟩ | ⟨hne, rfl, hwf⟩
  · exact ⟨rfl, Or.inl ⟨h0, h.wellFormed, h.blocks, h.holds⟩⟩
  · exact ⟨rfl, Or.inr ⟨hne, hwf, h.blocks.cons _, h.holds⟩⟩

/-- **`free`** takes a loose block away. -/
theorem free {p size : ℕ} (h : Ledger O m ((p, size) :: loose) objs) :
    ∃ m', m.free p = .ok m' ∧ m'.bytes = m.bytes ∧ Ledger O m' loose objs := by
  have hmem : (p, size) ∈ m.blocks := h.mem_blocks List.mem_cons_self
  have herase : (m.blocks.erase (p, size)).Perm (loose ++ objs.flatMap O.blocks) :=
    ((List.perm_cons_erase hmem).symm.trans h.blocks).cons_inv
  refine ⟨_, Memory.free_eq h.wellFormed hmem, rfl, ⟨?_, ?_⟩, herase, h.holds⟩
  · exact fun b hb => h.wellFormed.ne_zero b (List.mem_of_mem_erase hb)
  · exact h.wellFormed.separate.sublist List.erase_sublist

/-- **Writing to loose blocks** changes no object. -/
theorem write (h : Ledger O m loose objs) {bytes : ℕ → UInt8}
    (hbytes : ∀ a, (∀ b ∈ loose, a < b.1 ∨ b.1 + b.2 ≤ a) → bytes a = m.bytes a) :
    Ledger O { m with bytes } loose objs where
  wellFormed := h.wellFormed
  blocks := h.blocks
  holds o ho := by
    refine O.locality o m.bytes bytes (fun b hb a hlo hhi => hbytes a fun c hc => ?_) (h.holds o ho)
    -- the byte is in a block of the object, which is apart from the loose ones
    have hsep := (h.accounted.of_append hc (List.mem_flatMap.mpr ⟨o, ho, hb⟩)).2
    omega

/-- **An operation on one object** leaves all others alone. -/
theorem update (h : Ledger O m loose (o :: objs)) {bytes : ℕ → UInt8}
    (hblocks : O.blocks o' = O.blocks o)
    (hbytes : ∀ a, (∀ b ∈ O.blocks o, a < b.1 ∨ b.1 + b.2 ≤ a) → bytes a = m.bytes a)
    (ho' : O.Holds o' bytes) : Ledger O { m with bytes } loose (o' :: objs) := by
  have hout : ∀ a, (∀ b ∈ O.blocks o ++ loose, a < b.1 ∨ b.1 + b.2 ≤ a) → bytes a = m.bytes a :=
    fun a ha => hbytes a fun b hb => ha b (List.mem_append_left _ hb)
  have hwritten := h.unpack.write hout
  rw [← hblocks] at hwritten
  exact hwritten.pack ho'

end Ledger

end CLayout
