/-
# Exact floats

Arithmetic of floats whose finite values are exact: the infinities and NaN come out as in
IEEE 754, nothing is rounded.  `double` and `roundDouble` are the rounding of a natural and of
an exact number to a double, for the places where it decides something.
-/
import Mathlib.Data.Int.Log
import Mathlib.Data.Rat.Floor
import HpcPerfStats.PyText

namespace FloatArith

open PyText

/-- `x + y`. -/
def add : PyFloat → PyFloat → PyFloat
  | .fin x, .fin y => .fin (x + y)
  | .fin _, .inf negative => .inf negative
  | .inf negative, .fin _ => .inf negative
  | .inf negative, .inf negative' => if negative = negative' then .inf negative else .nan
  | .nan, _ => .nan
  | .fin _, .nan => .nan
  | .inf _, .nan => .nan

/-- `x - y`. -/
def sub : PyFloat → PyFloat → PyFloat
  | .fin x, .fin y => .fin (x - y)
  | .fin _, .inf negative => .inf (!negative)
  | .inf negative, .fin _ => .inf negative
  | .inf negative, .inf negative' => if negative = negative' then .nan else .inf negative
  | .nan, _ => .nan
  | .fin _, .nan => .nan
  | .inf _, .nan => .nan

/-- `x < 0`. -/
def isNeg : PyFloat → Bool
  | .fin x => decide (x < 0)
  | .inf negative => negative
  | .nan => false

/-- `np.isfinite`. -/
def isFinite : PyFloat → Bool
  | .fin _ => true
  | _ => false

/-- `2.0 ** wid + x`. -/
def addPow (wid : ℤ) : PyFloat → PyFloat
  | .fin x => .fin (2 ^ wid + x)
  | x => x

/-- The double next to a natural number, ties to even. -/
def double (n : ℕ) : ℕ :=
  if n < 2 ^ 53 then n
  else
    let unit := 2 ^ (n.log2 - 52)
    let q := n / unit
    let r := n % unit
    if unit < 2 * r ∨ (2 * r = unit ∧ q % 2 = 1) then (q + 1) * unit else q * unit

/-- `np.prod(sizes, dtype=np.float64)`. -/
def doubleProd (sizes : List ℕ) : ℕ :=
  sizes.foldl (fun acc s => double (acc * double s)) 1

/-- The whole number next to an exact number, ties to even. -/
def nearestEven (x : ℚ) : ℤ :=
  let q := ⌊x⌋
  if 1 / 2 < x - q ∨ (x - q = 1 / 2 ∧ q % 2 = 1) then q + 1 else q

/-- The distance of the doubles around an exact number. -/
def ulp (x : ℚ) : ℚ :=
  2 ^ max (Int.log 2 |x| - 52) (-1074)

/-- The double next to an exact number, ties to even; infinite from halfway between the largest double and
`2 ^ 1024` on. -/
def roundDouble (x : ℚ) : PyFloat :=
  if 2 ^ 1024 - 2 ^ 970 ≤ |x| then .inf (decide (x < 0)) else .fin (nearestEven (x / ulp x) * ulp x)

/-- The double that an exact number becomes. -/
def toDouble : PyFloat → PyFloat
  | .fin x => roundDouble x
  | x => x

example : roundDouble (9007199254740993 / 10) = .fin (7205759403792794 / 8) := by decide +kernel

/-- `x / n` for a positive number `n`. -/
def divNat (x : PyFloat) (n : ℕ) : PyFloat :=
  match x with
  | .fin x => .fin (x / n)
  | x => x

/-- `np.isnan`. -/
def isNan : PyFloat → Bool
  | .nan => true
  | _ => false

/-- The larger of two numbers that are not NaN. -/
def larger : PyFloat → PyFloat → PyFloat
  | .inf true, y => y
  | x, .inf true => x
  | .fin x, .fin y => .fin (max x y)
  | _, _ => .inf false

end FloatArith
