import Mathlib.Data.Int.Log
import Mathlib.Data.Rat.Floor
import Mathlib.Tactic.GCongr
import Mathlib.Tactic.Linarith
import Mathlib.Tactic.Ring

namespace PdoDuckdb.Library.Binary64

inductive Number
  | nan
  | infinite (negative : Bool)
  | finite (value : ℚ)

def decode (bits : UInt64) : Number :=
  let negative := 2 ^ 63 ≤ bits.toNat
  let exponent : ℕ := bits.toNat / 2 ^ 52 % 2 ^ 11
  let fraction : ℕ := bits.toNat % 2 ^ 52
  if exponent = 2047 then if fraction = 0 then .infinite negative else .nan
  else
    let magnitude : ℚ := ((if exponent = 0 then fraction else 2 ^ 52 + fraction) * 2 ^ max exponent 1 : ℕ) / 2 ^ 1075
    .finite (if negative then -magnitude else magnitude)

/-- The comparison of C, which a NaN always fails. -/
def Number.le : Number → Number → Bool
  | .nan, _ | _, .nan => false
  | .infinite true, _ | _, .infinite false => true
  | .finite a, .finite b => a ≤ b
  | _, _ => false

def Number.between (a b : ℚ) (x : Number) : Bool := (Number.finite a).le x && x.le (.finite b)

/-- The nearest integer, of two the even one. -/
def halfEven (x : ℚ) : ℤ :=
  let n := ⌊x⌋
  if x - n < 1 / 2 then n else if 1 / 2 < x - n then n + 1 else if n % 2 = 0 then n else n + 1

def ulp (x : ℚ) : ℚ := 2 ^ (max (Int.log 2 |x|) (-1022) - 52)

/-- The double that an operation with this exact result comes to, where it does not overflow. -/
def nearest (x : ℚ) : ℚ := halfEven (x / ulp x) * ulp x

example : nearest (1 / 10) = 3602879701896397 / 36028797018963968 := by decide +kernel

end PdoDuckdb.Library.Binary64
