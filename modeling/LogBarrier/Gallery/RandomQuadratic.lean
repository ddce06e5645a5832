import LogBarrier.Gallery.Known

/-!
# Random convex quadratic programs

```text
minimize    ½ x · q x + c · x
subject to  a x + b ≤ 0
            ‖x‖² ≤ r²
            -5 ≤ x ≤ 5
```

The matrix `q` is the sum of the identity and of a product of a matrix with its transpose, so the
problem is strictly convex. All entries of `b` are negative, so the origin satisfies every
constraint strictly.

The numbers come from a source of draws between zero and one, in a fixed order: first the factor of
`q`, column by column, then `c`, then `a`, column by column, then `b`.
-/

namespace LogBarrier

/-- A convex quadratic program with linear inequalities in a ball and in a cube. -/
structure RandomQuadratic (α : Type) where
  /-- The matrix of the quadratic part. -/
  quadratic : DenseMatrix α
  /-- The coefficients of the linear part. -/
  linear : Vec α
  /-- The matrix of the linear inequalities. -/
  matrix : DenseMatrix α
  /-- The offset of the linear inequalities. -/
  offset : Vec α
  /-- The radius of the ball. -/
  radius : α
  /-- There is at least one variable. -/
  nonempty : 0 < quadratic.rows

namespace RandomQuadratic

variable {α σ : Type} [Scalar α]

/-! ## Generation -/

/-- A draw stretched to the interval from `-width` to `width`. -/
def stretch (width u : α) : α := (u * 2.0 - 1) * width

/-- The results of successive draws. -/
def draws (draw : σ → α × σ) : Nat → σ → Vec α × σ
  | 0, source => ([], source)
  | count + 1, source =>
    let (u, source) := draw source
    let (rest, source) := draws draw count source
    (u :: rest, source)

/-- The columns of a matrix of successive draws. -/
def drawColumns (draw : σ → α × σ) (rows : Nat) : Nat → σ → List (Vec α) × σ
  | 0, source => ([], source)
  | count + 1, source =>
    let (column, source) := draws draw rows source
    let (rest, source) := drawColumns draw rows count source
    (column :: rest, source)

/-- A matrix of draws stretched to the interval from `-width` to `width`. -/
def drawMatrix (draw : σ → α × σ) (width : α) (rows cols : Nat) (source : σ) : DenseMatrix α × σ :=
  let (columns, source) := drawColumns draw rows cols source
  (DenseMatrix.ofColumns rows (columns.map (·.map (stretch width))), source)

/-- The matrix of the quadratic part with the given factor. -/
def quadraticOf (n : Nat) (factor : DenseMatrix α) : DenseMatrix α :=
  (DenseMatrix.identity n).zipWith (fun d g ↦ g + d) factor.gram

/-- A program with a positive number of variables and the given number of inequalities. -/
def generateFrom (draw : σ → α × σ) (n m : Nat) (h : 0 < n) (source : σ) : RandomQuadratic α × σ :=
  let (factor, source) := drawMatrix draw 1 n n source
  let (linear, source) := draws draw n source
  let (matrix, source) := drawMatrix draw 2.0 m n source
  let (offset, source) := draws draw m source
  ({ quadratic := quadraticOf n factor
     linear := linear.map (stretch 3.0)
     matrix := matrix
     offset := offset.map fun u ↦ -(1.5 + stretch 0.5 u)
     radius := 4.0
     nonempty := h }, source)

/-- A program with `n` variables and `m` linear inequalities, drawn from a source. -/
def generate (draw : σ → α × σ) (n m : Nat) (source : σ) :
    Except Fault (RandomQuadratic α × σ) :=
  if h : 0 < n then .ok (generateFrom draw n m h source) else .error .noVariables

/-! ## The problem -/

/-- The number of variables. -/
def variableCount (p : RandomQuadratic α) : Nat := p.quadratic.rows

/-- The number of multipliers of the problem with all its constraints. -/
def multiplierCount (p : RandomQuadratic α) : Nat := 1 + p.matrix.rows + 2 * p.variableCount

/-- The Hessian of the Lagrangian. The only multiplier that matters is that of the ball, and it
counts as zero if it is missing. -/
def hessian (p : RandomQuadratic α) (v : Vec α) : DenseMatrix α :=
  p.quadratic.zipWith (· + ·) ((DenseMatrix.identity p.variableCount).scale (2.0 * v.headD 0))

/-- The objective on the cube. -/
def objective (p : RandomQuadratic α) : Objective α where
  domain := Box.cube p.variableCount p.nonempty (-5.0) 5.0
  value x := do
    let image ← p.quadratic.mulVec x
    return 0.5 * (← Vec.dot x image) + (← Vec.dot p.linear x)
  gradient x := do Vec.add (← p.quadratic.mulVec x) p.linear
  hessian _ _ v := .ok (.dense (p.hessian v))

/-- The constraint that a point lies in the ball of the given radius around the origin. -/
def ballConstraint (radius : α) : Constraints α where
  count := 1
  value x := .ok [Vec.normSq x - radius * radius]
  jacobian x := .ok (.dense (DenseMatrix.ofRows x.length [x.map (2.0 * ·)]))

/-- The ball constraint of the problem. -/
def ball (p : RandomQuadratic α) : Constraints α := ballConstraint p.radius

/-- The problem with the origin as its initial point. -/
def known (p : RandomQuadratic α) : KnownProblem α where
  objective := p.objective
  starts := [Vec.zeros p.variableCount]
  solutions := []

end RandomQuadratic

end LogBarrier
