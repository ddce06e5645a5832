import LogBarrier.Operator.Grid
import LogBarrier.Proofs.Exact.DenseMatrix

/-!
# Operators of real numbers

An operator all of whose entries are real numbers maps vectors of real numbers to vectors of real
numbers, and its dense matrix consists of real numbers. The proofs follow the nesting of the blocks.
-/

namespace LogBarrier

open Extended

namespace Operator

/-- All entries of the operator are real numbers. -/
inductive IsReal : Operator Extended → Prop
  | dense {m : DenseMatrix Extended} (hm : m.IsReal) : IsReal (dense m)
  | diagonal {d : Vec Extended} (hd : Vec.IsReal d) : IsReal (diagonal d)
  | selection {indices : List ℕ} {width : ℕ} {sign : Extended} (hsign : sign.IsReal) :
    IsReal (selection indices width sign)
  | block {heights widths : List ℕ} {blocks : List (Placed (Operator Extended))}
    (hblocks : ∀ b ∈ blocks, IsReal b.content) : IsReal (block heights widths blocks)

variable {op : Operator Extended} {x y : Vec Extended}

theorem yields_gather {sign : Extended} (hsign : sign.IsReal) (hx : Vec.IsReal x)
    (indices : List ℕ) (hy : Vec.IsReal y) : Yields Vec.IsReal (gather sign x indices y) := by
  induction indices generalizing y with
  | nil => exact Ensures.ok hy
  | cons i indices ih =>
    cases y with
    | nil => exact Ensures.error (by decide)
    | cons b y =>
      exact (Vec.yields_entry hx i).bind fun a ha ↦
        (ih (Vec.isReal_cons.mp hy).2).bind fun z hz ↦
          Ensures.pure (Vec.isReal_cons.mpr ⟨hsign.mul ha, hz⟩)

theorem yields_addBlocks {heights widths : List ℕ} {blocks : List (Placed (Operator Extended))}
    (hblocks : ∀ b ∈ blocks, ∀ x y, Vec.IsReal x → Vec.IsReal y →
      Yields Vec.IsReal (b.content.applyOver x y))
    (hx : Vec.IsReal x) (hy : Vec.IsReal y) :
    Yields Vec.IsReal (addBlocks heights widths blocks x y) := by
  induction blocks generalizing y with
  | nil =>
    rw [addBlocks]
    exact Ensures.ok hy
  | cons b blocks ih =>
    rw [addBlocks, addBlock.eq_def]
    refine Ensures.bind ?_ fun z hz ↦ ih (fun c hc ↦ hblocks c (List.mem_cons_of_mem b hc)) hz
    exact (Vec.yields_slice hx _ _).bind fun part hpart ↦
      (hblocks b List.mem_cons_self _ _ hpart (Vec.IsReal.zeros _)).bind fun image himage ↦
        Vec.yields_addAt himage hy _

theorem yields_applyOver (h : op.IsReal) (hx : Vec.IsReal x) (hy : Vec.IsReal y) :
    Yields Vec.IsReal (op.applyOver x y) := by
  induction h generalizing x y with
  | dense hm =>
    rw [applyOver]
    split
    · exact DenseMatrix.yields_mulVec hm hx
    · exact Ensures.error (by decide)
  | diagonal hd =>
    rw [applyOver]
    split
    · exact Vec.yields_mul hx hd
    · exact Ensures.error (by decide)
  | selection hsign =>
    rw [applyOver]
    exact yields_gather hsign hx _ hy
  | @block heights widths blocks _ ih =>
    rw [applyOver]
    exact yields_addBlocks (fun b hb _ _ ↦ ih b hb) hx (Vec.IsReal.zeros _)

theorem yields_apply (h : op.IsReal) (hx : Vec.IsReal x) : Yields Vec.IsReal (op.apply x) :=
  yields_applyOver h hx (Vec.IsReal.zeros _)

/-! ## The dense view -/

theorem isReal_selectionMatrix {sign : Extended} (hsign : sign.IsReal) (indices : List ℕ)
    (width : ℕ) : (selectionMatrix indices width sign).IsReal :=
  DenseMatrix.isReal_ofFn fun k j ↦ hsign.mul (by
    split
    · exact isReal_one
    · exact isReal_zero)

theorem isReal_writeBlocks {heights widths : List ℕ} {blocks : List (Placed (Operator Extended))}
    (hblocks : ∀ b ∈ blocks, b.content.toMatrix.IsReal) {m : DenseMatrix Extended}
    (hm : m.IsReal) : (writeBlocks heights widths blocks m).IsReal := by
  induction blocks generalizing m with
  | nil =>
    rw [writeBlocks]
    exact hm
  | cons b blocks ih =>
    rw [writeBlocks, writeBlock.eq_def]
    exact ih (fun c hc ↦ hblocks c (List.mem_cons_of_mem b hc))
      (hm.setBlock (hblocks b List.mem_cons_self) _ _)

theorem IsReal.toMatrix (h : op.IsReal) : op.toMatrix.IsReal := by
  induction h with
  | dense hm =>
    rw [Operator.toMatrix]
    exact hm
  | diagonal hd =>
    rw [Operator.toMatrix]
    exact DenseMatrix.isReal_diagonal hd
  | selection hsign =>
    rw [Operator.toMatrix]
    exact isReal_selectionMatrix hsign _ _
  | block _ ih =>
    rw [Operator.toMatrix]
    exact isReal_writeBlocks ih (DenseMatrix.isReal_zeros _ _)

theorem yields_select {sign : Extended} (hsign : sign.IsReal) (indices : List ℕ) (width : ℕ) :
    Yields IsReal (select indices width sign) :=
  yields_require (by decide) fun _ ↦ Ensures.pure (.selection hsign)

end Operator

namespace Grid

/-- All operators in the grid consist of real numbers. -/
def IsReal (grid : Grid Extended) : Prop := ∀ b ∈ grid.blocks, b.content.IsReal

variable {grid : Grid Extended} {op : Operator Extended}

theorem isReal_zeros (heights widths : List ℕ) : (zeros heights widths).IsReal :=
  fun _ hb ↦ (List.not_mem_nil hb).elim

theorem IsReal.toOperator (h : grid.IsReal) : grid.toOperator.IsReal := .block h

theorem yields_place (h : grid.IsReal) (hop : op.IsReal) (i j : ℕ) :
    Yields IsReal (grid.place i j op) := by
  refine yields_require (by decide) fun _ ↦ yields_require (by decide) fun _ ↦
    Ensures.pure fun b hb ↦ ?_
  rcases List.mem_append.mp hb with hb | hb
  · exact h b (List.mem_of_mem_filter hb)
  · rw [List.mem_singleton.mp hb]
    exact hop

theorem yields_stack {ops : List (Operator Extended)} (hops : ∀ op ∈ ops, op.IsReal) (width : ℕ) :
    Yields IsReal (stack width ops) :=
  Ensures.foldlM (isReal_zeros _ _) fun _ hgrid _ hp ↦
    yields_place hgrid (hops _ (List.fst_mem_of_mem_zipIdx hp)) _ _

theorem yields_blockDiagonal {ops : List (Operator Extended)} (hops : ∀ op ∈ ops, op.IsReal) :
    Yields IsReal (blockDiagonal ops) :=
  Ensures.foldlM (isReal_zeros _ _) fun _ hgrid _ hp ↦
    yields_place hgrid (hops _ (List.fst_mem_of_mem_zipIdx hp)) _ _

end Grid

end LogBarrier
