import Arboql.Generators.CMem

/-!
# The injection generator

The model of `src/algorithms/injective_mappings.c`: `inj_init`, `inj_next` and
`inj_destroy` of the generator that lists all injections `[0..k-1] → [0..n-1]`,
with the struct `inj_coroutine` of `src/algorithms.h` as its state.

A `inj_coroutine *` is an `Option InjCoroutine`, `none` being `NULL`. A call
returns its `int` result together with what it leaves in the struct and in the
caller's `out_images` array. The endless loop of `inj_next` is `Loops.forever`
over `injBody`; a call takes the bound on its iterations as an argument, and
every result about a call says which bound is enough.
-/

namespace Arboql

open Loops

/-- The struct `inj_coroutine`. -/
structure InjCoroutine where
  n : ℕ
  k : ℕ
  /-- The current partial assignment `a[0..pos-1]`, of length `k`. -/
  a : Ptr ℕ
  /-- The next candidate to try at each position, of length `k`. -/
  nextc : Ptr ℕ
  /-- `used[v] = 1` if `v` is in the current partial assignment, of length `n`. -/
  used : Ptr ℕ
  /-- The current depth, in `0..k`. -/
  pos : ℕ
  started : ℤ
  done : ℤ
  ownsMem : ℤ
  deriving DecidableEq, Repr

/-- What the allocator does with the three requests of `inj_init`. -/
structure InjHeap where
  a : Allocation ℕ
  nextc : Allocation ℕ
  used : Allocation ℕ

/-- The last statements of `inj_init`, once the three arrays are in place: the
scratch is cleared and the call succeeds. -/
def injClear (g : InjCoroutine) : Except Fault (ℤ × Option InjCoroutine) := do
  let used ← g.used.memset 0 g.n
  let g ← forRange g.k (fun i g => do
    let a ← g.a.write i 0
    let nextc ← g.nextc.write i 0
    return { g with a, nextc }) { g with used }
  return (1, some g)

/-- `inj_init`: the struct is prepared for the injections of `k` positions into
`n` values, on the caller's arrays when all three are given and on allocated
ones otherwise. -/
def injInit (g : Option InjCoroutine) (n k : ℕ) (aStorage nextcStorage usedStorage : Ptr ℕ)
    (heap : InjHeap) : Except Fault (ℤ × Option InjCoroutine) :=
  match g with
  | none => .ok (0, none)
  | some g =>
    let g := { g with n := n, k := k, pos := 0, started := 0, done := 0, ownsMem := 0 }
    -- empty domain: exactly one mapping, the empty tuple
    if k = 0 then .ok (1, some g)
    else if k > n then .ok (1, some { g with done := 1 })
    else if aStorage.addr ≠ 0 ∧ nextcStorage.addr ≠ 0 ∧ usedStorage.addr ≠ 0 then
      injClear { g with a := aStorage, nextc := nextcStorage, used := usedStorage }
    else
      let g := { g with
        a := malloc heap.a (sizeMul k sizeofSize) sizeofSize
        nextc := malloc heap.nextc (sizeMul k sizeofSize) sizeofSize
        used := malloc heap.used (sizeMul n 1) 1 }
      if g.a.addr = 0 ∨ g.nextc.addr = 0 ∨ g.used.addr = 0 then
        .ok (0, some { g with a := g.a.free, nextc := g.nextc.free, used := g.used.free })
      else injClear { g with ownsMem := 1 }

/-- `while (v < n && used[v]) v++`, where the first argument is the number
`n - v` of values left to look at. -/
def skipUsed (used : Ptr ℕ) : ℕ → ℕ → Except Fault ℕ
  | 0, v => .ok v
  | left + 1, v => do
    let u ← used.read v
    if u ≠ 0 then skipUsed used left (v + 1) else return v

/-- One iteration of the `for (;;)` loop of `inj_next`. -/
def injBody (out : Ptr ℤ) (g : InjCoroutine) :
    Except Fault (Flow InjCoroutine (ℤ × Option InjCoroutine × Ptr ℤ)) :=
  if g.pos = g.k then do
    -- a complete injection: write it out, then step back one level to resume from
    let out ← forRange g.k (fun i out => do
      let v ← g.a.read i
      out.write i (castInt v)) out
    let pos := g.k - 1
    let v ← g.a.read pos
    let used ← g.used.write v 0
    return .leave (1, some { g with pos, used }, out)
  else do
    let c ← g.nextc.read g.pos
    let v ← skipUsed g.used (g.n - c) c
    if v < g.n then
      -- choose `v` at this position
      let a ← g.a.write g.pos v
      let used ← g.used.write v 1
      let nextc ← g.nextc.write g.pos (v + 1)
      let pos := g.pos + 1
      let nextc ← if pos < g.k then nextc.write pos 0 else pure nextc
      return .again { g with a, used, nextc, pos }
    else
      -- no candidate left at this position: reset it and backtrack
      let nextc ← g.nextc.write g.pos 0
      if g.pos = 0 then
        return .leave (0, some { g with nextc, done := 1 }, out)
      else
        let pos := g.pos - 1
        let v ← g.a.read pos
        let used ← g.used.write v 0
        return .again { g with nextc, pos, used }

/-- `inj_next`: the next injection is written to `out`, with the result `1`, or
the result is `0`. -/
def injNext (fuel : ℕ) (g : Option InjCoroutine) (out : Ptr ℤ) :
    Except Fault (ℤ × Option InjCoroutine × Ptr ℤ) :=
  match g with
  | none => .ok (0, none, out)
  | some g =>
    if g.k ≠ 0 ∧ out.addr = 0 then .ok (0, some g, out)
    else if g.done ≠ 0 then .ok (0, some g, out)
    else if g.k = 0 then
      -- `k == 0`: yield once
      if g.started ≠ 0 then .ok (0, some g, out)
      else .ok (1, some { g with started := 1 }, out)
    else forever .outOfFuel (injBody out) fuel g

/-- `inj_destroy`: the addresses it frees, and what it leaves of the struct. The
arrays are freed if the generator allocated them, and `free(NULL)` frees nothing. -/
def injDestroy (g : Option InjCoroutine) : List ℕ × Option InjCoroutine :=
  match g with
  | none => ([], none)
  | some g =>
    (if g.ownsMem ≠ 0 then [g.a.addr, g.nextc.addr, g.used.addr].filter (· ≠ 0) else [],
      some { g with a := .null, nextc := .null, used := .null })

end Arboql
