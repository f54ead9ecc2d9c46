import Arboql.Generators.CMem

/-!
# The cartesian product generator

The model of `src/algorithms/cartesian_product.c`: `cp_init`, `cp_next` and
`cp_destroy` of the generator of all tuples with one member from each of several
`int` arrays, with the struct `cp_coroutine` of `src/algorithms.h` as its state.
The conventions are those of `Arboql.Generators.InjectiveMappings`.
-/

namespace Arboql

open Loops

/-- The struct `cp_coroutine`. -/
structure CpCoroutine where
  /-- `sets[i]` points to an array of `int`s. -/
  sets : Ptr (Ptr ℤ)
  /-- `sizes[i]` is the length of `sets[i]`. -/
  sizes : Ptr ℕ
  numSets : ℕ
  /-- The mixed-radix counter, of length `numSets`. -/
  idx : Ptr ℕ
  /-- `0` before the first yield, `1` after. -/
  started : ℤ
  /-- `1` when finished. -/
  done : ℤ
  deriving DecidableEq, Repr

/-- The loop of `cp_init` that looks for an empty set; it stops at the first. -/
def cpAnyEmpty (sizes : Ptr ℕ) (numSets : ℕ) : Except Fault Bool :=
  (List.range numSets).anyM fun i => do return (← sizes.read i) == 0

/-- The last statements of `cp_init`, once the counter is in place: it is cleared
and the call succeeds. -/
def cpClear (cp : CpCoroutine) : Except Fault (ℤ × Option CpCoroutine) := do
  let idx ← cp.idx.memset 0 cp.numSets
  return (1, some { cp with idx })

/-- `cp_init`: the struct is prepared for the product of the sets, on the caller's
counter or on an allocated one. With an empty set the generator is done at
once, and no counter is needed. -/
def cpInit (cp : Option CpCoroutine) (sets : Ptr (Ptr ℤ)) (sizes : Ptr ℕ) (numSets : ℕ)
    (idxStorage : Ptr ℕ) (heap : Allocation ℕ) : Except Fault (ℤ × Option CpCoroutine) :=
  match cp with
  | none => .ok (0, none)
  | some cp =>
    if sets.addr = 0 ∨ sizes.addr = 0 ∨ numSets = 0 then .ok (0, some cp)
    else do
      if ← cpAnyEmpty sizes numSets then
        return (1, some { cp with
          done := 1, started := 0, sets := sets, sizes := sizes, numSets := numSets,
          idx := idxStorage })
      else
        let cp := { cp with
          sets := sets, sizes := sizes, numSets := numSets, started := 0, done := 0 }
        if idxStorage.addr ≠ 0 then
          cpClear { cp with idx := idxStorage }
        else
          let cp := { cp with idx := calloc heap numSets sizeofSize }
          if cp.idx.addr = 0 then return (0, some cp) else cpClear cp

/-- The loop of `cp_next` that advances the counter, at the digits below the one
of the argument: `true` when the most significant digit overflows. -/
def cpCarry (sizes : Ptr ℕ) : ℕ → Ptr ℕ → Except Fault (Bool × Ptr ℕ)
  | 0, idx => .ok (false, idx)
  | k + 1, idx => do
    let d ← idx.read k
    let idx ← idx.write k (d + 1)
    let size ← sizes.read k
    if d + 1 < size then
      -- carry resolved
      return (false, idx)
    else
      let idx ← idx.write k 0
      if k = 0 then return (true, idx) else cpCarry sizes k idx

/-- The last loop of `cp_next`: the current tuple is written to `out`. -/
def cpMaterialize (cp : CpCoroutine) (out : Ptr ℤ) : Except Fault (Ptr ℤ) :=
  forRange cp.numSets (fun i out => do
    let set ← cp.sets.read i
    let d ← cp.idx.read i
    let v ← set.read d
    out.write i v) out

/-- `cp_next`: the next tuple is written to `out`, with the result `1`, or the
result is `0`. -/
def cpNext (cp : Option CpCoroutine) (out : Ptr ℤ) :
    Except Fault (ℤ × Option CpCoroutine × Ptr ℤ) :=
  match cp with
  | none => .ok (0, none, out)
  | some cp =>
    if out.addr = 0 then .ok (0, some cp, out)
    else if cp.done ≠ 0 then .ok (0, some cp, out)
    else if cp.started = 0 then do
      -- the first resume yields the initial tuple, all indices being `0`
      let cp := { cp with started := 1 }
      let out ← cpMaterialize cp out
      return (1, some cp, out)
    else do
      let (overflow, idx) ← cpCarry cp.sizes cp.numSets cp.idx
      let cp := { cp with idx }
      if overflow then return (0, some { cp with done := 1 }, out)
      let out ← cpMaterialize cp out
      return (1, some cp, out)

/-- `cp_destroy`: the addresses it frees, and what it leaves of the struct. The
counter is freed unless it is the caller's, the one passed to `cp_init`. -/
def cpDestroy (cp : Option CpCoroutine) (idxStorage : Ptr ℕ) : List ℕ × Option CpCoroutine :=
  match cp with
  | none => ([], none)
  | some cp =>
    (if cp.idx.addr ≠ 0 ∧ cp.idx.addr ≠ idxStorage.addr then [cp.idx.addr] else [],
      some { cp with idx := .null })

end Arboql
