import Mathlib.Data.List.TakeWhile

/-!
# Reading text back

A reader takes a value off the front of a text, or fails. `many` takes values for as
long as its reader succeeds, so a sequence of values, written one after the other, is
read back whole if each is read back before the rest (`many_flatMap`). A decimal number
is read up to the first character that is not a digit (`readNat_append`), with or without
a sign (`readInt_append`).
-/

namespace Reading

/-- **A reader**: a value, and the text after it. -/
def Reader (α : Type) := List Char → Option (α × List Char)

/-- Takes the given text off. -/
def expect : List Char → List Char → Option (List Char)
  | [], cs => some cs
  | _ :: _, [] => none
  | p :: ps, c :: cs => if p = c then expect ps cs else none

theorem expect_append (ps cs : List Char) : expect ps (ps ++ cs) = some cs := by
  induction ps with
  | nil => rfl
  | cons p ps ih =>
    rw [List.cons_append, expect, if_pos rfl]
    exact ih

theorem expect_singleton (c : Char) (cs : List Char) : expect [c] (c :: cs) = some cs :=
  expect_append [c] cs

/-- Takes a decimal number off. -/
def readNat : Reader ℕ := fun cs =>
  if cs.takeWhile Char.isDigit = [] then none
  else some (Nat.ofDigitChars 10 (cs.takeWhile Char.isDigit) 0, cs.dropWhile Char.isDigit)

/-- **A number is read back** when no digit follows it. -/
theorem readNat_append (n : ℕ) {rest : List Char}
    (hrest : ∀ c, rest.head? = some c → c.isDigit = false) :
    readNat ((toString n).toList ++ rest) = some (n, rest) := by
  have hdigits : (toString n).toList = Nat.toDigits 10 n := Nat.toList_repr
  have hall : ∀ c ∈ Nat.toDigits 10 n, c.isDigit = true := fun c hc =>
    Nat.isDigit_of_mem_toDigits (by decide) (by decide) hc
  have hnil : rest.takeWhile Char.isDigit = [] ∧ rest.dropWhile Char.isDigit = rest := by
    cases rest with
    | nil => exact ⟨rfl, rfl⟩
    | cons c rest =>
      have hc := hrest c rfl
      rw [List.takeWhile_cons, List.dropWhile_cons, hc]
      exact ⟨rfl, rfl⟩
  have htake : (Nat.toDigits 10 n ++ rest).takeWhile Char.isDigit = Nat.toDigits 10 n := by
    rw [List.takeWhile_append_of_pos hall, hnil.1, List.append_nil]
  have hdrop : (Nat.toDigits 10 n ++ rest).dropWhile Char.isDigit = rest := by
    rw [List.dropWhile_append_of_pos hall, hnil.2]
  rw [readNat, hdigits, htake, hdrop, if_neg Nat.toDigits_ne_nil, Nat.ofDigitChars_ten_toDigits]

/-- Takes a decimal number off that may have a sign. -/
def readInt : Reader ℤ := fun cs =>
  if cs.head? = some '-' then (readNat cs.tail).map fun r => (-(r.1 : ℤ), r.2)
  else (readNat cs).map fun r => ((r.1 : ℤ), r.2)

/-- A number does not begin with the sign. -/
theorem head_toString_ne (n : ℕ) (rest : List Char) :
    ((toString n).toList ++ rest).head? ≠ some '-' := by
  have hdigits : (toString n).toList = Nat.toDigits 10 n := Nat.toList_repr
  rw [hdigits]
  cases hcs : Nat.toDigits 10 n with
  | nil => exact absurd hcs Nat.toDigits_ne_nil
  | cons c cs =>
    have hc : c ∈ Nat.toDigits 10 n := hcs ▸ List.mem_cons_self
    intro hhead
    obtain rfl := Option.some.inj hhead
    cases Nat.isDigit_of_mem_toDigits (by decide) (by decide) hc

/-- **A number with a sign is read back** when no digit follows it. -/
theorem readInt_append (z : ℤ) {rest : List Char}
    (hrest : ∀ c, rest.head? = some c → c.isDigit = false) :
    readInt ((toString z).toList ++ rest) = some (z, rest) := by
  cases z with
  | ofNat n =>
    change readInt ((toString n).toList ++ rest) = _
    rw [readInt, if_neg (head_toString_ne n rest), readNat_append n hrest]
    rfl
  | negSucc n =>
    -- the sign comes before the absolute value
    have htext : (toString (Int.negSucc n)).toList = '-' :: (toString (n + 1)).toList :=
      String.toList_append
    rw [htext, List.cons_append, readInt, List.head?_cons, if_pos rfl, List.tail_cons,
      readNat_append (n + 1) hrest]
    rfl

variable {α : Type}

/-- Takes values off for as long as the reader succeeds. -/
def many (r : Reader α) : ℕ → List Char → List α × List Char
  | 0, cs => ([], cs)
  | fuel + 1, cs =>
    match r cs with
    | none => ([], cs)
    | some (a, cs') => ((a :: (many r fuel cs').1), (many r fuel cs').2)

/-- There are no more values than characters. -/
theorem length_le_flatMap {encode : α → List Char} (hne : ∀ a, encode a ≠ []) (as : List α) :
    as.length ≤ (as.flatMap encode).length := by
  induction as with
  | nil => exact le_rfl
  | cons a as ih =>
    have hpos := List.length_pos_iff.mpr (hne a)
    rw [List.length_cons, List.flatMap_cons, List.length_append]
    omega

/-- **A sequence is read back** if each value is, before those that follow it. -/
theorem many_flatMap {r : Reader α} {encode : α → List Char} {stop : List Char}
    (hread : ∀ (a : α) (as : List α), r (encode a ++ (as.flatMap encode ++ stop))
      = some (a, as.flatMap encode ++ stop))
    (hstop : r stop = none) (as : List α) {fuel : ℕ} (hf : as.length < fuel) :
    many r fuel (as.flatMap encode ++ stop) = (as, stop) := by
  induction as generalizing fuel with
  | nil =>
    cases fuel with
    | zero => cases hf
    | succ fuel =>
      rw [List.flatMap_nil, List.nil_append, many, hstop]
  | cons a as ih =>
    cases fuel with
    | zero => cases hf
    | succ fuel =>
      have hrest := ih (Nat.lt_of_succ_lt_succ hf)
      rw [List.flatMap_cons, List.append_assoc, many, hread a as]
      change (a :: (many r fuel _).1, (many r fuel _).2) = _
      rw [hrest]

end Reading
