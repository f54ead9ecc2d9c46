import Mathlib.Algebra.Order.Ring.Nat
import Mathlib.Data.List.Nodup
import Mathlib.Data.Int.Init
import Arboql.Lib.Loops

/-!
# C objects as the generators use them

The two generators of `src/algorithms/` work on a few arrays through pointers. A
pointer is modelled together with what it reaches: `Ptr α` holds an address,
which is what the code compares and frees, and the cells of the array object
that starts there. A pointer to nothing, be it `NULL`, indeterminate or freed,
reaches no cell, and every access goes through `Ptr.read` and `Ptr.write`, which
report `Fault.outOfBounds` outside the cells. The arrays of one generator are
distinct objects and nobody else writes to them while it runs.

A `size_t` is a natural number. Neither generator lets one pass its maximum:
each increment is guarded by a comparison with a `size_t` (`v < n`, `pos < k`,
`idx[k] < sizes[k]`). The one computation that can wrap is the byte count handed
to `malloc`, and `sizeMul` wraps it; those handed to `memset` are the sizes of
arrays that exist.
-/

namespace Arboql

/-- The abnormal ends of a call. -/
inductive Fault
  /-- An array access outside the object the pointer reaches. -/
  | outOfBounds
  /-- The iteration bound of the model was too small. -/
  | outOfFuel
  deriving DecidableEq, Repr

/-- A pointer: its address, `0` for `NULL`, and the cells it reaches. -/
structure Ptr (α : Type) where
  addr : ℕ
  cells : List α
  deriving DecidableEq, Repr

namespace Ptr

variable {α : Type}

/-- The null pointer. -/
def null : Ptr α := ⟨0, []⟩

/-- `p[i]` read. -/
def read (p : Ptr α) (i : ℕ) : Except Fault α :=
  match p.cells[i]? with
  | some x => .ok x
  | none => .error .outOfBounds

/-- `p[i] = x`. -/
def write (p : Ptr α) (i : ℕ) (x : α) : Except Fault (Ptr α) :=
  if i < p.cells.length then .ok { p with cells := p.cells.set i x }
  else .error .outOfBounds

/-- `memset` of the first `n` cells to the value `x`. -/
def memset (p : Ptr α) (x : α) (n : ℕ) : Except Fault (Ptr α) :=
  if n ≤ p.cells.length then
    .ok { p with cells := List.replicate n x ++ p.cells.drop n }
  else .error .outOfBounds

/-- What is left of a pointer after `free`: the address, and nothing behind it. -/
def free (p : Ptr α) : Ptr α := { p with cells := [] }

theorem read_eq_ok {p : Ptr α} {i : ℕ} {x : α} : p.read i = .ok x ↔ p.cells[i]? = some x := by
  unfold read
  cases p.cells[i]? <;> simp

theorem write_of_lt {p : Ptr α} {i : ℕ} (x : α) (h : i < p.cells.length) :
    p.write i x = .ok { p with cells := p.cells.set i x } := if_pos h

theorem memset_of_le {p : Ptr α} {n : ℕ} (x : α) (h : n ≤ p.cells.length) :
    p.memset x n = .ok { p with cells := List.replicate n x ++ p.cells.drop n } := if_pos h

/-- `out` with the first `i` members of `t` in its first `i` cells. -/
def filled (out : Ptr α) (t : List α) (i : ℕ) : Ptr α :=
  ⟨out.addr, t.take i ++ out.cells.drop i⟩

theorem write_filled {t : List α} {out : Ptr α} {i : ℕ} (hi : i < t.length)
    (hout : out.cells.length = t.length) :
    (out.filled t i).write i t[i] = .ok (out.filled t (i + 1)) := by
  have htake : (t.take i).length = i := List.length_take_of_le (Nat.le_of_lt hi)
  unfold filled
  rw [write_of_lt _ (by simp; omega), List.set_append_right _ _ (Nat.le_of_eq htake), htake,
    Nat.sub_self, List.drop_eq_getElem_cons (show i < out.cells.length by omega),
    List.set_cons_zero, List.take_add_one, List.getElem?_eq_getElem hi, Option.toList_some,
    List.append_assoc, List.singleton_append]

/-- A loop that writes the `i`-th member of `t` to the `i`-th cell writes all
of `t`. -/
theorem fill_spec {t : List α} {out : Ptr α} {f : ℕ → Ptr α → Except Fault (Ptr α)}
    (hf : ∀ i s (hi : i < t.length), f i s = s.write i t[i])
    (hout : out.cells.length = t.length) :
    Loops.forRange t.length f out = .ok ⟨out.addr, t⟩ := by
  have hstep : ∀ i s, i < t.length → s = out.filled t i →
      ∃ s', f i s = .ok s' ∧ s' = out.filled t (i + 1) := by
    rintro i s hi rfl
    exact ⟨_, (hf i _ hi).trans (write_filled hi hout), rfl⟩
  -- after `i` iterations the first `i` cells hold the first `i` members
  obtain ⟨s, hs, rfl⟩ := Loops.forRange_spec (fun i s => s = out.filled t i)
    (show out = out.filled t 0 from rfl) hstep
  rw [hs, filled, List.take_length, List.drop_eq_nil_of_le (Nat.le_of_eq hout), List.append_nil]

end Ptr

/-! ### Allocation -/

/-- What the allocator does with one request: it returns `NULL`, or a block at a
non-null address whose memory holds arbitrary values. -/
inductive Allocation (α : Type)
  | failed
  | block (addr : ℕ) (ne : addr ≠ 0) (content : ℕ → α)

/-- `sizeof(size_t)`. -/
def sizeofSize : ℕ := 8

/-- The product of two `size_t` values. -/
def sizeMul (a b : ℕ) : ℕ := a * b % 2 ^ 64

/-- No object is larger than the address space, of which a 64-bit machine uses at
most 57 bits. -/
def addressSpace : ℕ := 2 ^ 57

/-- `malloc(bytes)`, the block read as an array of values of `width` bytes. -/
def malloc {α : Type} (o : Allocation α) (bytes width : ℕ) : Ptr α :=
  match o with
  | .failed => .null
  | .block addr _ content =>
    if bytes < addressSpace then ⟨addr, (List.range (bytes / width)).map content⟩ else .null

/-- `calloc(count, width)`, which also fails when the byte count overflows. -/
def calloc (o : Allocation ℕ) (count width : ℕ) : Ptr ℕ :=
  match o with
  | .failed => .null
  | .block addr _ _ =>
    if count * width < addressSpace then ⟨addr, List.replicate count 0⟩ else .null

/-- A successful `malloc` returns a block of the size asked for. -/
theorem malloc_spec {α : Type} {o : Allocation α} {bytes width : ℕ}
    (h : (malloc o bytes width).addr ≠ 0) :
    bytes < addressSpace ∧ (malloc o bytes width).cells.length = bytes / width := by
  cases o with
  | failed => exact absurd rfl h
  | block addr ne content =>
    by_cases hb : bytes < addressSpace
    · simp [malloc, hb]
    · exact absurd h (by simp [malloc, hb, Ptr.null])

theorem calloc_spec {o : Allocation ℕ} {count width : ℕ} (h : (calloc o count width).addr ≠ 0) :
    (calloc o count width).cells.length = count := by
  cases o with
  | failed => exact absurd rfl h
  | block addr ne content =>
    by_cases hb : count * width < addressSpace
    · simp [calloc, hb]
    · exact absurd h (by simp [calloc, hb, Ptr.null])

/-- The conversion of a `size_t` to a 32-bit `int`, modulo `2^32` into the signed
range. -/
def castInt (v : ℕ) : ℤ := (v : ℤ).bmod (2 ^ 32)

/-- A value of the `int` range is converted to itself. -/
theorem castInt_of_lt {v : ℕ} (h : v < 2 ^ 31) : castInt v = v := by
  unfold castInt
  rw [Int.bmod_def]
  omega

/-- Up to `2^31` values the conversion is the inclusion. -/
theorem map_castInt {n : ℕ} (hn : n ≤ 2 ^ 31) {t : List ℕ} (ht : ∀ v ∈ t, v < n) :
    t.map castInt = t.map fun v : ℕ => (v : ℤ) :=
  List.map_congr_left fun v hv => castInt_of_lt ((ht v hv).trans_le hn)

/-- So it keeps distinct entries distinct. -/
theorem nodup_map_castInt {n : ℕ} (hn : n ≤ 2 ^ 31) {t : List ℕ} (ht : ∀ v ∈ t, v < n) :
    (t.map castInt).Nodup ↔ t.Nodup := by
  rw [map_castInt hn ht]
  exact List.nodup_map_iff fun v w h => Int.ofNat_inj.mp h

end Arboql
