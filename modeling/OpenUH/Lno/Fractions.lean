import OpenUH.Lno.SystemRows

/-!
# Fractions

`FRAC` of `frac.h` and `frac.cxx`: fractions with 32-bit components, reduced
after each operation.  A component that is too large is clamped, and the flag
`FRAC::Exception` is set and stays set.
-/

namespace OpenUH.Lno.Fractions

open Lno.SystemOfEquations

/-- `FRAC_MAX`. -/
def fracMax : Int := int32Max

/-- What is left of a value in a `FRAC_ITY`. -/
def fracIty (value : Int) : Int := Int.bmod value (2 ^ 64)

/-- The components `_n` and `_d` of a `FRAC`. -/
structure Frac where
  n : Int
  d : Int
  deriving DecidableEq

/-- A result with `FRAC::Exception` behind it, from the flag before it. -/
abbrev Checked (Result : Type) := Bool → Result × Bool

/-! ## Sizes -/

/-- `_sz_ok`. -/
def szOk (x : Int) : Bool :=
  x ≤ fracMax && -fracMax ≤ x

/-- `_checksz` of a component. -/
def checksz (x : Int) : Checked Int := fun exception =>
  if szOk x then (x, exception)
  else (max (min x fracMax) (-fracMax), true)

/-- `_checksz` of both components. -/
def checkszPair (n d : Int) : Checked Frac := fun exception =>
  if szOk n && szOk d then (⟨n, d⟩, exception)
  else (⟨if d = 0 then 1 else int32 (n.tdiv d), 1⟩, true)

/-! ## Reduction -/

/-- `_reduce2`. -/
def reduce2 (f : Frac) : Checked Frac := fun exception =>
  let exception := exception || f.d == 0
  let d := if f.d = 0 then 1 else f.d
  let neg := if f.n < 0 then decide (0 < d) else decide (d < 0)
  let i1 := if f.n < 0 then int32 (-f.n) else f.n
  let i2 := if d < 0 then int32 (-d) else d
  let g := SystemOfEquations.gcd i1 i2
  checkszPair
    (if neg then int32 ((int32 (-i1)).tdiv g) else int32 (i1.tdiv g))
    (int32 (i2.tdiv g)) exception

/-- `_reduce`. -/
def reduce (f : Frac) : Checked Frac := fun exception =>
  if f.d = 1 then
    let (n, exception) := checksz f.n exception
    (⟨n, f.d⟩, exception)
  else if f.n = 0 then
    (⟨f.n, 1⟩, exception)
  else if f.n = 1 ∨ f.n = -1 then
    let (d, exception) := checksz (if f.d < 0 then int32 (-f.d) else f.d) exception
    (⟨if f.d < 0 then -f.n else f.n, d⟩, exception)
  else if f.d = -1 then
    let (n, exception) := checksz (int32 (-f.n)) exception
    (⟨n, -f.d⟩, exception)
  else
    reduce2 f exception

/-! ## Constructors -/

/-- `FRAC()`. -/
def Frac.zero : Frac := ⟨0, 1⟩

/-- `FRAC(n)`. -/
def ofInt (n : Int) : Checked Frac := fun exception =>
  let (n, exception) := checksz n exception
  (⟨n, 1⟩, exception)

/-- `FRAC(n, d)`. -/
def ofPair (n d : Int) : Checked Frac := reduce ⟨n, d⟩

/-! ## Arithmetic -/

/-- The fraction of two intermediate results, each of them checked. -/
def ofIty (n d : Int) : Checked Frac := fun exception =>
  let (n, exception) := checksz (fracIty n) exception
  let (d, exception) := checksz (fracIty d) exception
  ofPair n d exception

/-- `operator +`. -/
def add (a f : Frac) : Checked Frac := ofIty (a.n * f.d + f.n * a.d) (a.d * f.d)

/-- `operator -`. -/
def sub (a f : Frac) : Checked Frac := ofIty (a.n * f.d - f.n * a.d) (a.d * f.d)

/-- `operator *`. -/
def mul (a f : Frac) : Checked Frac := ofIty (a.n * f.n) (a.d * f.d)

/-- `operator /`. -/
def div (a f : Frac) : Checked Frac := ofIty (a.n * f.d) (a.d * f.n)

/-- The unary `operator -`. -/
def neg (a : Frac) : Frac := ⟨int32 (-a.n), a.d⟩

/-- `Abs`. -/
def abs (a : Frac) : Frac := ⟨if a.n < 0 then int32 (-a.n) else a.n, a.d⟩

/-! ## Comparisons and conversion -/

/-- `operator ==`. -/
def eq (a f : Frac) : Bool := a.n == f.n && a.d == f.d

/-- `operator <`. -/
def lt (a f : Frac) : Bool := fracIty (a.n * f.d) < fracIty (f.n * a.d)

/-- `operator <=`. -/
def le (a f : Frac) : Bool := fracIty (a.n * f.d) ≤ fracIty (f.n * a.d)

/-- `Integer`, which fails on a fraction that is not an integer. -/
def integer (a : Frac) : Option Int := if a.d = 1 then some a.n else none

/-! ## Sequences of operations -/

/-- A construction or an operation on results computed before. -/
inductive Operation where
  | ofInt (n : Int)
  | ofPair (n d : Int)
  | add (left right : Nat)
  | sub (left right : Nat)
  | mul (left right : Nat)
  | div (left right : Nat)
  | neg (operand : Nat)
  | abs (operand : Nat)
  deriving DecidableEq

/-- The results of a sequence, and the flag. -/
structure State where
  results : List Frac
  exception : Bool
  deriving DecidableEq

/-- Nothing is computed, and the flag is clear. -/
def State.start : State := ⟨[], false⟩

/-- A result, `FRAC()` where there is none. -/
def State.result (state : State) (index : Nat) : Frac :=
  state.results.getD index .zero

/-- The fraction that an operation computes. -/
def State.compute (state : State) : Operation → Checked Frac
  | .ofInt n => Fractions.ofInt n
  | .ofPair n d => Fractions.ofPair n d
  | .add left right => Fractions.add (state.result left) (state.result right)
  | .sub left right => Fractions.sub (state.result left) (state.result right)
  | .mul left right => Fractions.mul (state.result left) (state.result right)
  | .div left right => Fractions.div (state.result left) (state.result right)
  | .neg operand => fun exception =>
      (Fractions.neg (state.result operand), exception)
  | .abs operand => fun exception =>
      (Fractions.abs (state.result operand), exception)

/-- One operation. -/
def State.perform (state : State) (operation : Operation) : State :=
  let (result, exception) := state.compute operation state.exception
  ⟨state.results ++ [result], exception⟩

end OpenUH.Lno.Fractions
