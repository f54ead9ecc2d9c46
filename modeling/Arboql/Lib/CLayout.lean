import Mathlib.Data.Nat.Basic
import Mathlib.Algebra.Order.Ring.Nat
import Mathlib.Data.Int.Init

/-!
# C data in byte-addressed memory

The layout of C structures and unions in memory, and loads and stores of their
scalar members. A type is described by its members in order (`CType`); offsets,
sizes and alignments follow from the description by the rule of the usual C
ABIs, each member at the next multiple of its own alignment. Two programs that
describe one structure independently agree on a member when their descriptions
give it the same offset, width and signedness, and nothing else matters.

Memory is a function from addresses to bytes together with the blocks that are
allocated in it. An access outside the blocks, or through the null pointer, is a
`MemFault`: C does not define it. Integers are little-endian and signed ones are two's
complement.

An `Allocator` gives the answers of `malloc`. Memory counts the requests, and the answer
may be another one each time, so no order is assumed in which freed memory is used again,
and a request may be refused at one time and granted at another.

A store changes what is loaded from its own bytes and from no others
(`readLE_writeLE_self`, `readLE_writeLE_of_disjoint`).
-/

namespace CLayout

/-! ### Types and offsets -/

/-- **A C type**: an integer of some bytes, a structure or a union. A pointer is an
unsigned integer of eight bytes. -/
inductive CType where
  | int (width : ℕ) (signed : Bool)
  | struct (members : List (String × CType))
  | union (members : List (String × CType))

/-- The next multiple of `align`. -/
def roundUp (n align : ℕ) : ℕ := (n + (align - 1)) / align * align

mutual

/-- `_Alignof`. -/
def CType.align : CType → ℕ
  | .int width _ => width
  | .struct members => alignMembers members
  | .union members => alignMembers members

def alignMembers : List (String × CType) → ℕ
  | [] => 1
  | (_, t) :: members => max t.align (alignMembers members)

end

mutual

/-- `sizeof`. -/
def CType.size : CType → ℕ
  | .int width _ => width
  | .struct members => roundUp (endOfMembers 0 members) (alignMembers members)
  | .union members => roundUp (widestMember members) (alignMembers members)

/-- The end of the last member of a structure, the first being placed from `off`
on. -/
def endOfMembers (off : ℕ) : List (String × CType) → ℕ
  | [] => off
  | (_, t) :: members => endOfMembers (roundUp off t.align + t.size) members

def widestMember : List (String × CType) → ℕ
  | [] => 0
  | (_, t) :: members => max t.size (widestMember members)

end

/-- The offset and the type of a member of a structure placed from `off` on. -/
def memberFrom (off : ℕ) (name : String) : List (String × CType) → Option (ℕ × CType)
  | [] => none
  | (name', t) :: members =>
    if name' = name then some (roundUp off t.align, t)
    else memberFrom (roundUp off t.align + t.size) name members

/-- `offsetof` for one member, with the member's type. -/
def CType.member (name : String) : CType → Option (ℕ × CType)
  | .int _ _ => none
  | .struct members => memberFrom 0 name members
  | .union members => (members.find? fun m => m.1 = name).map fun m => (0, m.2)

/-- The offset and the type of a member of a member. -/
def CType.locate (t : CType) : List String → Option (ℕ × CType)
  | [] => some (0, t)
  | name :: path =>
    match t.member name with
    | none => none
    | some (off, t') => (t'.locate path).map fun p => (off + p.1, p.2)

/-! ### Integers in bytes -/

/-- The `width` bytes from `addr` on as an unsigned integer. -/
def readLE (bytes : ℕ → UInt8) (addr : ℕ) : ℕ → ℕ
  | 0 => 0
  | width + 1 => (bytes addr).toNat + 256 * readLE bytes (addr + 1) width

/-- The bytes after writing `v` to the `width` bytes from `addr` on. -/
def writeLE (bytes : ℕ → UInt8) (addr : ℕ) : ℕ → ℕ → ℕ → UInt8
  | 0, _ => bytes
  | width + 1, v => fun a =>
    if a = addr then UInt8.ofNat v else writeLE bytes (addr + 1) width (v / 256) a

variable {bytes : ℕ → UInt8} {addr width v : ℕ}

theorem writeLE_of_disjoint {a : ℕ} (h : a < addr ∨ addr + width ≤ a) :
    writeLE bytes addr width v a = bytes a := by
  induction width generalizing addr v with
  | zero => rfl
  | succ width ih =>
    have hne : a ≠ addr := by omega
    rw [writeLE]
    exact (if_neg hne).trans (ih (by omega))

theorem readLE_congr {bytes' : ℕ → UInt8}
    (h : ∀ a, addr ≤ a → a < addr + width → bytes' a = bytes a) :
    readLE bytes' addr width = readLE bytes addr width := by
  induction width generalizing addr with
  | zero => rfl
  | succ width ih =>
    rw [readLE, readLE, h addr le_rfl (by omega), ih fun a ha hlt => h a (by omega) (by omega)]

/-- **A store changes no other bytes.** -/
theorem readLE_writeLE_of_disjoint {a width' : ℕ}
    (h : a + width' ≤ addr ∨ addr + width ≤ a) :
    readLE (writeLE bytes addr width v) a width' = readLE bytes a width' :=
  readLE_congr fun b hb hlt => writeLE_of_disjoint (by omega)

/-- **A load gives back what was stored**, modulo the width. -/
theorem readLE_writeLE_self :
    readLE (writeLE bytes addr width v) addr width = v % 256 ^ width := by
  induction width generalizing addr v with
  | zero => rw [readLE, pow_zero, Nat.mod_one]
  | succ width ih =>
    -- the first byte holds `v % 256`, and the others `v / 256`
    have hhead : writeLE bytes addr (width + 1) v addr = UInt8.ofNat v := if_pos rfl
    have htail : readLE (writeLE bytes addr (width + 1) v) (addr + 1) width
        = readLE (writeLE bytes (addr + 1) width (v / 256)) (addr + 1) width :=
      readLE_congr fun a ha _ => if_neg (by omega)
    have hbyte : (UInt8.ofNat v).toNat = v % 256 := UInt8.toNat_ofNat'
    rw [readLE, hhead, hbyte, htail, ih, pow_succ', Nat.mod_mul]

/-- What `width` bytes that hold `v` mean. -/
def decode (width : ℕ) (signed : Bool) (v : ℕ) : ℤ :=
  if signed ∧ 256 ^ width ≤ 2 * v then (v : ℤ) - (256 ^ width : ℕ) else v

@[simp] theorem decode_unsigned (width v : ℕ) : decode width false v = v := by simp [decode]

/-- **Signedness.** A signed member gives back the values of the lower half only. -/
theorem decode_signed_eq_iff {width v : ℕ} : decode width true v = v ↔ 2 * v < 256 ^ width := by
  have hpos : 0 < 256 ^ width := Nat.pow_pos (by decide)
  unfold decode
  by_cases hv : 256 ^ width ≤ 2 * v
  · -- the upper half is read as negative
    rw [if_pos ⟨rfl, hv⟩]
    omega
  · rw [if_neg fun hc => hv hc.2]
    omega

/-! ### Memory -/

/-- **The invalid accesses.** C does not define them: what a machine does there is
left open. -/
inductive MemFault
  | nullDeref
  | outOfBounds
  | noSuchMember
  deriving DecidableEq, Repr

/-- The bytes, the allocated blocks as base and size, and the number of requests for
memory so far. -/
structure Memory where
  bytes : ℕ → UInt8
  blocks : List (ℕ × ℕ)
  requests : ℕ

namespace Memory

/-- Zeroed memory with nothing allocated in it. -/
def empty : Memory := ⟨fun _ => 0, [], 0⟩

/-- `width` bytes from `addr` on lie in one block. -/
def InBlock (m : Memory) (addr width : ℕ) : Prop :=
  ∃ b ∈ m.blocks, b.1 ≤ addr ∧ addr + width ≤ b.1 + b.2

instance (m : Memory) (addr width : ℕ) : Decidable (m.InBlock addr width) :=
  inferInstanceAs (Decidable (∃ b ∈ m.blocks, b.1 ≤ addr ∧ addr + width ≤ b.1 + b.2))

theorem InBlock.sub {m : Memory} {addr width a w : ℕ} (h : m.InBlock addr width)
    (ha : addr ≤ a) (hw : a + w ≤ addr + width) : m.InBlock a w := by
  obtain ⟨b, hb, hlo, hhi⟩ := h
  exact ⟨b, hb, by omega, by omega⟩

/-- The address of a scalar member of the object at `addr`, with its width and
signedness. -/
def resolve (m : Memory) (t : CType) (addr : ℕ) (path : List String) :
    Except MemFault (ℕ × ℕ × Bool) :=
  if addr = 0 then .error .nullDeref
  else
    match t.locate path with
    | some (off, .int width signed) =>
      if m.InBlock (addr + off) width then .ok (addr + off, width, signed)
      else .error .outOfBounds
    | _ => .error .noSuchMember

/-- Reads a member. -/
def load (m : Memory) (t : CType) (addr : ℕ) (path : List String) : Except MemFault ℤ := do
  let (a, width, signed) ← m.resolve t addr path
  return decode width signed (readLE m.bytes a width)

/-- Assigns a member. -/
def store (m : Memory) (t : CType) (addr : ℕ) (path : List String) (v : ℕ) :
    Except MemFault Memory := do
  let (a, width, _) ← m.resolve t addr path
  return { m with bytes := writeLE m.bytes a width v }

variable {m : Memory} {t : CType} {path : List String} {off : ℕ} {signed : Bool}

/-- A member inside an allocated object is found. -/
theorem resolve_eq (hloc : t.locate path = some (off, .int width signed)) (h0 : addr ≠ 0)
    (hin : m.InBlock (addr + off) width) :
    m.resolve t addr path = .ok (addr + off, width, signed) := by
  unfold resolve
  rw [if_neg h0, hloc]
  exact if_pos hin

theorem load_eq (hloc : t.locate path = some (off, .int width signed)) (h0 : addr ≠ 0)
    (hin : m.InBlock (addr + off) width) :
    m.load t addr path = .ok (decode width signed (readLE m.bytes (addr + off) width)) := by
  unfold load
  rw [resolve_eq hloc h0 hin]
  rfl

theorem store_eq (hloc : t.locate path = some (off, .int width signed)) (h0 : addr ≠ 0)
    (hin : m.InBlock (addr + off) width) :
    m.store t addr path v = .ok { m with bytes := writeLE m.bytes (addr + off) width v } := by
  unfold store
  rw [resolve_eq hloc h0 hin]
  rfl

theorem load_null (m : Memory) (t : CType) (path : List String) :
    m.load t 0 path = .error .nullDeref := rfl

theorem store_null (m : Memory) (t : CType) (path : List String) (v : ℕ) :
    m.store t 0 path v = .error .nullDeref := rfl

end Memory

/-! ### Allocation -/

/-- **`malloc`.** It refuses a request, or places a block that overlaps no other
one, away from the null pointer and inside a 64-bit address space. Nothing relates the
answers to different requests to each other. -/
structure Allocator where
  /-- The answer to request number `n`, for memory of some size next to some blocks. -/
  place (n : ℕ) (blocks : List (ℕ × ℕ)) (size : ℕ) : Option ℕ
  /-- What a placed block is. -/
  fresh : ∀ n blocks size base, place n blocks size = some base →
    0 < base ∧ base + size < 2 ^ 64
      ∧ ∀ b ∈ blocks, base + size ≤ b.1 ∨ b.1 + b.2 ≤ base

/-- The end of the last of some blocks. -/
def topOfBlocks (blocks : List (ℕ × ℕ)) : ℕ := blocks.foldr (fun b top => max (b.1 + b.2) top) 1

theorem le_topOfBlocks {blocks : List (ℕ × ℕ)} {b : ℕ × ℕ} (h : b ∈ blocks) :
    b.1 + b.2 ≤ topOfBlocks blocks := by
  induction blocks with
  | nil => exact absurd h List.not_mem_nil
  | cons c blocks ih =>
    unfold topOfBlocks at ih ⊢
    rw [List.foldr_cons]
    rcases List.mem_cons.mp h with rfl | hmem
    · exact le_max_left _ _
    · exact (ih hmem).trans (le_max_right _ _)

theorem topOfBlocks_pos (blocks : List (ℕ × ℕ)) : 0 < topOfBlocks blocks := by
  induction blocks with
  | nil => exact Nat.one_pos
  | cons c blocks ih =>
    unfold topOfBlocks at ih ⊢
    rw [List.foldr_cons]
    exact ih.trans_le (le_max_right _ _)

/-- The allocator that places each block after all others, as long as the address
space lasts. -/
def Allocator.bump : Allocator where
  place _ blocks size :=
    if topOfBlocks blocks + size < 2 ^ 64 then some (topOfBlocks blocks) else none
  fresh n blocks size base h := by
    by_cases hlt : topOfBlocks blocks + size < 2 ^ 64
    · rw [if_pos hlt] at h
      obtain rfl := Option.some.inj h
      exact ⟨topOfBlocks_pos blocks, hlt, fun b hb => Or.inr (le_topOfBlocks hb)⟩
    · rw [if_neg hlt] at h
      exact absurd h (by simp)

/-- `malloc(size)`: the address, `0` when the request is refused. -/
def Memory.malloc (m : Memory) (alloc : Allocator) (size : ℕ) : Memory × ℕ :=
  match alloc.place m.requests m.blocks size with
  | none => ({ m with requests := m.requests + 1 }, 0)
  | some base =>
    ({ m with blocks := (base, size) :: m.blocks, requests := m.requests + 1 }, base)

/-- **What a request does**: it touches no byte and no block, and unless it is
refused it adds a block apart from all others. -/
theorem Memory.malloc_spec {m m' : Memory} {alloc : Allocator} {size p : ℕ}
    (h : m.malloc alloc size = (m', p)) :
    m'.bytes = m.bytes ∧ p < 2 ^ 64 ∧ (∀ b ∈ m.blocks, b ∈ m'.blocks)
      ∧ (p ≠ 0 → (p, size) ∈ m'.blocks
        ∧ ∀ b ∈ m.blocks, p + size ≤ b.1 ∨ b.1 + b.2 ≤ p) := by
  unfold malloc at h
  cases hplace : alloc.place m.requests m.blocks size with
  | none =>
    rw [hplace] at h
    obtain ⟨rfl, rfl⟩ := Prod.mk.inj h
    exact ⟨rfl, by omega, fun b hb => hb, fun hne => absurd rfl hne⟩
  | some base =>
    rw [hplace] at h
    obtain ⟨rfl, rfl⟩ := Prod.mk.inj h
    obtain ⟨hpos, hlt, hapart⟩ := alloc.fresh _ _ _ _ hplace
    exact ⟨rfl, by omega, fun b hb => List.mem_cons_of_mem _ hb,
      fun _ => ⟨List.mem_cons_self, hapart⟩⟩

/-- The answer to a request does not depend on what memory holds. -/
theorem Memory.malloc_bytes (m : Memory) (bytes : ℕ → UInt8) (alloc : Allocator) (size : ℕ) :
    (Memory.malloc { m with bytes } alloc size).2 = (m.malloc alloc size).2 := by
  unfold malloc
  cases alloc.place m.requests m.blocks size <;> rfl

theorem Memory.inBlock_of_mem {m : Memory} {p size : ℕ} (h : (p, size) ∈ m.blocks) :
    m.InBlock p size := ⟨(p, size), h, le_rfl, le_rfl⟩

end CLayout
