import LogBarrier.Vec

/-!
# Dense matrices

A dense matrix is stored by columns. The number of rows is kept beside the columns, so a matrix
without columns still has a height and one without rows a width.

A product with a vector is the combination of the columns, taken from the first column to the last;
a product with the transpose is the list of inner products with the columns. Both fault when the
lengths disagree.
-/

namespace LogBarrier

/-- A dense matrix, stored by columns. -/
structure DenseMatrix (α : Type) where
  /-- The number of rows. -/
  rows : Nat
  /-- The number of columns. -/
  cols : Nat
  /-- The columns from left to right. -/
  columns : List (Vec α)
  /-- There are as many columns as the width says. -/
  length_columns : columns.length = cols
  /-- Every column is as long as the height says. -/
  length_of_mem_columns : ∀ c ∈ columns, c.length = rows

namespace DenseMatrix

variable {α : Type}

/-- The matrix with the given entries. The entries are evaluated column by column. -/
def ofFn (rows cols : Nat) (f : Nat → Nat → α) : DenseMatrix α where
  rows := rows
  cols := cols
  columns := (List.range cols).map fun j ↦ (List.range rows).map fun i ↦ f i j
  length_columns := by simp
  length_of_mem_columns := by
    intro c hc
    obtain ⟨j, -, rfl⟩ := List.mem_map.mp hc
    simp

/-- The matrix with the given columns, each cut or filled up with zeros to the given height. -/
def ofColumns [Scalar α] (rows : Nat) (columns : List (Vec α)) : DenseMatrix α where
  rows := rows
  cols := columns.length
  columns := columns.map (Vec.resize rows)
  length_columns := by simp
  length_of_mem_columns := by
    intro c hc
    obtain ⟨x, -, rfl⟩ := List.mem_map.mp hc
    exact Vec.length_resize rows x

variable [Scalar α]

/-- The entry in row `i` and column `j`, zero outside the matrix. -/
def entry (m : DenseMatrix α) (i j : Nat) : α := (m.columns.getD j []).getD i 0

/-- The entries of row `i` from left to right. -/
def row (m : DenseMatrix α) (i : Nat) : Vec α := m.columns.map (·.getD i 0)

/-- The entries of the diagonal from the top left corner on. -/
def diagonalEntries (m : DenseMatrix α) : Vec α :=
  (List.range (min m.rows m.cols)).map fun i ↦ m.entry i i

/-- The matrix with the given rows, each cut or filled up with zeros to the given width. -/
def ofRows (cols : Nat) (rows : List (Vec α)) : DenseMatrix α :=
  ofFn rows.length cols fun i j ↦ (rows.getD i []).getD j 0

/-- The zero matrix. -/
def zeros (rows cols : Nat) : DenseMatrix α := ofFn rows cols fun _ _ ↦ 0

/-- The square matrix with the given diagonal and zeros elsewhere. -/
def diagonal (d : Vec α) : DenseMatrix α :=
  ofFn d.length d.length fun i j ↦ if i = j then d.getD i 0 else 0

/-- The identity matrix. -/
def identity (n : Nat) : DenseMatrix α := ofFn n n fun i j ↦ if i = j then 1 else 0

/-- The transposed matrix. -/
def transpose (m : DenseMatrix α) : DenseMatrix α := ofFn m.cols m.rows fun i j ↦ m.entry j i

/-- The matrix cut or filled up with zeros to the given shape. -/
def resize (rows cols : Nat) (m : DenseMatrix α) : DenseMatrix α := ofFn rows cols m.entry

/-- The matrix with the cells from row `top` and column `left` on overwritten by `block`. -/
def setBlock (m : DenseMatrix α) (top left : Nat) (block : DenseMatrix α) : DenseMatrix α :=
  ofFn m.rows m.cols fun i j ↦
    if top ≤ i ∧ i < top + block.rows ∧ left ≤ j ∧ j < left + block.cols then
      block.entry (i - top) (j - left)
    else m.entry i j

/-- Combines two matrices entry by entry in the shape of the first. -/
def zipWith (f : α → α → α) (m k : DenseMatrix α) : DenseMatrix α :=
  ofFn m.rows m.cols fun i j ↦ f (m.entry i j) (k.entry i j)

/-- The matrix with every entry multiplied by `a`. -/
def scale (m : DenseMatrix α) (a : α) : DenseMatrix α :=
  ofFn m.rows m.cols fun i j ↦ m.entry i j * a

/-- The matrix with every row multiplied by the entry of a vector that belongs to it. -/
def scaleRows (m : DenseMatrix α) (d : Vec α) : Except Fault (DenseMatrix α) :=
  if d.length = m.rows then .ok (ofFn m.rows m.cols fun i j ↦ d.getD i 0 * m.entry i j)
  else .error .shape

/-- The matrix with every column multiplied by the entry of a vector that belongs to it. -/
def scaleColumns (m : DenseMatrix α) (d : Vec α) : Except Fault (DenseMatrix α) :=
  if d.length = m.cols then .ok (ofFn m.rows m.cols fun i j ↦ m.entry i j * d.getD j 0)
  else .error .shape

/-- The product of the transpose with the matrix itself. -/
def gram (m : DenseMatrix α) : DenseMatrix α :=
  ofColumns m.cols (m.columns.map fun c ↦ m.columns.map (Vec.dotSum · c))

/-- The combination of vectors of one length with the given coefficients. It starts with the first
of the vectors and is zero only if there is none. -/
def combination (rows : Nat) : List (Vec α) → Vec α → Vec α
  | c :: columns, a :: coefficients =>
    (List.zip columns coefficients).foldl
      (fun acc (c, a) ↦ List.zipWith (fun s b ↦ s + b * a) acc c) (Vec.scale c a)
  | _, _ => Vec.zeros rows

/-- The product with a vector. -/
def mulVec (m : DenseMatrix α) (x : Vec α) : Except Fault (Vec α) :=
  if x.length = m.cols then .ok (combination m.rows m.columns x) else .error .shape

/-- The product of the transpose with a vector. -/
def trMulVec (m : DenseMatrix α) (y : Vec α) : Except Fault (Vec α) :=
  if y.length = m.rows then .ok (m.columns.map (Vec.dotSum · y)) else .error .shape

end DenseMatrix

end LogBarrier
