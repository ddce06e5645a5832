import LogBarrier.DenseMatrix.Basic

/-!
# Sums of terms

Functions of several variables that are sums of monomials and of multiples of a logarithm, an
exponential or a square root of one variable, with their first and second derivatives.

A sum is taken from its first term to its last, starting at zero. A monomial whose derivative
vanishes identically adds nothing to the sum of the derivatives, not even a zero.

The derivatives are taken by all the entries of the point. A monomial has to have an exponent for
each of them.
-/

namespace LogBarrier

/-- A function of one variable. -/
inductive Elementary where
  /-- The natural logarithm. -/
  | ln
  /-- The exponential function. -/
  | exp
  /-- The square root. -/
  | sqrt
  deriving DecidableEq

namespace Elementary

variable {α : Type} [Scalar α]

/-- The value of the function. -/
def value : Elementary → α → α
  | ln, x => Scalar.ln x
  | exp, x => Scalar.exp x
  | sqrt, x => Scalar.sqrt x

/-- The derivative of the function. -/
def slope : Elementary → α → α
  | ln, x => 1 / x
  | exp, x => Scalar.exp x
  | sqrt, x => 0.5 / Scalar.sqrt x

/-- The second derivative of the function. -/
def curvature : Elementary → α → α
  | ln, x => -1 / (x * x)
  | exp, x => Scalar.exp x
  | sqrt, x => -0.25 / (x * Scalar.sqrt x)

end Elementary

/-- A term of a sum. -/
inductive Term (α : Type) where
  /-- A multiple of a product of powers of the variables. -/
  | monomial (coefficient : α) (exponents : List Nat)
  /-- A multiple of a function of the variable with the given index. -/
  | elementary (coefficient : α) (function : Elementary) (index : Nat)

namespace Term

variable {α : Type} [Scalar α]

/-- A scalar multiplied `k` times by another one. -/
def multiply (p x : α) : Nat → α
  | 0 => p
  | k + 1 => multiply (p * x) x k

/-- A coefficient multiplied by powers of the entries of a vector. -/
def monomialValue (p : α) : List Nat → Vec α → Except Fault α
  | [], _ => .ok p
  | 0 :: exponents, x => monomialValue p exponents x.tail
  | (_ + 1) :: _, [] => .error .shape
  | (k + 1) :: exponents, a :: x => monomialValue (multiply p a (k + 1)) exponents x

/-- The coefficient and the exponents of the derivative of a monomial by a variable, unless the
derivative vanishes identically. -/
def lower (coefficient : α) (exponents : List Nat) (i : Nat) :
    Except Fault (Option (α × List Nat)) :=
  match exponents[i]? with
  | none => .error .shape
  | some 0 => .ok none
  | some (k + 1) => .ok (some (coefficient * ((k + 1 : Nat) : α), exponents.set i k))

/-- The value of a term. -/
def value (x : Vec α) : Term α → Except Fault α
  | monomial c exponents => monomialValue c exponents x
  | elementary c f i => return c * f.value (← Vec.entry x i)

/-- The derivative of a term by the variable with index `i`, unless it vanishes identically. -/
def slope (x : Vec α) (i : Nat) : Term α → Except Fault (Option α)
  | monomial c exponents => do
    match ← lower c exponents i with
    | none => return none
    | some (c, exponents) => some <$> monomialValue c exponents x
  | elementary c f k =>
    if k = i then return some (c * f.slope (← Vec.entry x k)) else .ok none

/-- The derivative of a term by the variables with indices `i` and `j`, unless it vanishes
identically. -/
def curvature (x : Vec α) (i j : Nat) : Term α → Except Fault (Option α)
  | monomial c exponents => do
    match ← lower c exponents i with
    | none => return none
    | some (c, exponents) =>
      match ← lower c exponents j with
      | none => return none
      | some (c, exponents) => some <$> monomialValue c exponents x
  | elementary c f k =>
    if k = i ∧ k = j then return some (c * f.curvature (← Vec.entry x k)) else .ok none

end Term

/-- A sum of terms. -/
abbrev TermSum (α : Type) := List (Term α)

namespace TermSum

variable {α : Type} [Scalar α]

/-- Adds up those of the terms that are there. -/
def sumTerms (part : Term α → Except Fault (Option α)) (terms : TermSum α) : Except Fault α :=
  terms.foldlM (fun acc term ↦ do
    match ← part term with
    | some a => return acc + a
    | none => return acc) 0

/-- The value of a sum. -/
def value (terms : TermSum α) (x : Vec α) : Except Fault α :=
  terms.sumTerms fun term ↦ some <$> term.value x

/-- The gradient of a sum. -/
def gradient (terms : TermSum α) (x : Vec α) : Except Fault (Vec α) :=
  (List.range x.length).mapM fun i ↦ terms.sumTerms fun term ↦ term.slope x i

/-- The matrix of second derivatives of a sum. -/
def hessian (terms : TermSum α) (x : Vec α) : Except Fault (DenseMatrix α) := do
  let columns ← (List.range x.length).mapM fun j ↦
    (List.range x.length).mapM fun i ↦ terms.sumTerms fun term ↦ term.curvature x i j
  return DenseMatrix.ofColumns x.length columns

end TermSum

end LogBarrier
