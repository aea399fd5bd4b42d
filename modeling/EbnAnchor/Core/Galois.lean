import EbnAnchor.Core.Mem
import EbnAnchor.Lib.BinaryField
import EbnAnchor.Lib.Loop

/-!
`galois.c` at `w = 32`, the width the node configures (`W` is `8 * RS_W`).

An `int` array is a function of the index. `exit` is an endless loop in this firmware
(`mem.h`), so a function that may reach it returns an `Option`.

`GaloisField` gives the operations their meaning as residues of polynomials over
GF(2), `GaloisInverse` shows that the division returns.
-/

namespace EbnAnchor.Core

open BinaryField Loop

/-! ### Tables -/

/-- `prim_poly[32]`; the high order bit is omitted. -/
def primPoly : Word := 0o00020000007

/-- `nwm1[32]`. -/
def nwm1 : Word := 0xffffffff

/-- `nw[31]`, the mask `galois_shift_inverse` tests before shifting. -/
def nw31 : Word := 1#32 <<< 31

/-! ### Multiplication -/

/-- The update of `y` between two entries of `scratch`. -/
def scratchStep (y : Word) : Word :=
  if y &&& (1#32 <<< 31) ≠ 0 then
    let y := y <<< 1
    (y ^^^ primPoly) &&& nwm1
  else y <<< 1

/-- `scratch[i]`. -/
def scratch (y : Word) (i : Nat) : Word := scratchStep^[i] y

/-- The loop over `k`: `prod ^ (j & scratch[i])` with `j` walking the bits. -/
def addScratch (prod scratchI : Word) : Word :=
  (forUp 0 32 (fun _ (p : Word × Word) => (p.1 ^^^ (p.2 &&& scratchI), p.2 <<< 1))
    (prod, 1#32)).1

/-- `galois_shift_multiply(x, y, 32)`. -/
def galoisShiftMultiply (x y : Word) : Word :=
  forUp 0 32 (fun i prod =>
    let ind := 1#32 <<< i
    if ind &&& x ≠ 0 then addScratch prod (scratch y i) else prod) 0#32

def galoisSplitW8Long (i j : Nat) (p1 p2 : Word) : Word :=
  let ishift := i * 8
  let jshift := j * 8
  let p1elt := p1 <<< ishift
  let p2elt := p2 <<< jshift
  galoisShiftMultiply p1elt p2elt

/-- The table lookup, computed: table `a` holds the products for one pair
`(i, j)` with `i + j = a`. -/
def galoisSplitW8 (a : Nat) (b : Word) : Word :=
  let p1 := (b.sshiftRight 8) &&& 0xFF
  let p2 := b &&& 0xFF
  let i := if a < 4 then 0 else 3
  let j := if a < 4 then a else a - 3
  galoisSplitW8Long i j p1 p2

def galoisSplitW8Multiply (x y : Word) : Word :=
  forUp 0 4 (fun i accumulator =>
    let a := ((x.sshiftRight (8 * i)) &&& 255) <<< 8
    forUp 0 4 (fun j accumulator =>
      let b := (y.sshiftRight (8 * j)) &&& 255
      accumulator ^^^ galoisSplitW8 (i + j) (a ||| b)) accumulator) 0#32

/-- `galois_single_multiply(x, y, 32)`; `mult_type[32]` is `SPLITW8`. -/
def galoisSingleMultiply (x y : Word) : Word :=
  if x = 0 ∨ y = 0 then 0 else galoisSplitW8Multiply x y

/-! ### Regions

A region is a word address; its memory keeps a record of the addresses used. -/

structure Memory where
  cells : Nat → Word
  touched : List Nat

/-- Read the word at `a`. -/
def Memory.touch (m : Memory) (a : Nat) : Memory := { m with touched := a :: m.touched }

/-- Write the word at `a`. -/
def Memory.store (m : Memory) (a : Nat) (v : Word) : Memory :=
  ⟨Function.update m.cells a v, a :: m.touched⟩

/-- What `galois_w32_region_multiply` accumulates for one word of the region. -/
def regionProduct (multby word : Word) : Word :=
  let acache := fun i : Nat => ((multby.sshiftRight (8 * i)) &&& 255) <<< 8
  forUp 0 4 (fun i accumulator =>
    forUp 0 4 (fun j accumulator =>
      let b := (word >>> (8 * j)) &&& 255
      accumulator ^^^ galoisSplitW8 (i + j) (acache i ||| b)) accumulator) 0#32

/-- `galois_w32_region_multiply`; `r2 = none` is the null pointer (in place). -/
def galoisW32RegionMultiply (region : Nat) (multby : Word) (nbytes : Nat) (r2 : Option Nat)
    (add : Bool) (m : Memory) : Memory :=
  let ur1 := region
  let ur2 := r2.getD ur1
  if !add then
    forUp 0 (nbytes / 4) (fun k m =>
      (m.touch (ur1 + k)).store (ur2 + k) (regionProduct multby (m.cells (ur1 + k)))) m
  else
    forUp 0 (nbytes / 4) (fun k m =>
      (m.touch (ur1 + k)).store (ur2 + k)
        (m.cells (ur2 + k) ^^^ regionProduct multby (m.cells (ur1 + k)))) m

/-- `galois_region_xor`, `sizeof(long)` being 4: `r3 = r1 ^ r2`. -/
def galoisRegionXor (r1 r2 r3 nbytes : Nat) (m : Memory) : Memory :=
  forUp 0 ((nbytes + 3) / 4) (fun k m =>
    ((m.touch (r1 + k)).touch (r2 + k)).store (r3 + k)
      (m.cells (r1 + k) ^^^ m.cells (r2 + k))) m

/-! ### Inversion -/

/-- The two arrays of `galois_invert_binary_matrix`, one word a row. -/
structure BinaryMatrix where
  mat : Nat → Word
  inv : Nat → Word

def BinaryMatrix.swapRows (m : BinaryMatrix) (i j : Nat) : BinaryMatrix where
  mat := Function.update (Function.update m.mat i (m.mat j)) j (m.mat i)
  inv := Function.update (Function.update m.inv i (m.inv j)) j (m.inv i)

/-- Add row `i` to row `j`. -/
def BinaryMatrix.addRow (m : BinaryMatrix) (i j : Nat) : BinaryMatrix where
  mat := Function.update m.mat j (m.mat j ^^^ m.mat i)
  inv := Function.update m.inv j (m.inv j ^^^ m.inv i)

/-- The pivot search of column `i` and its swap; `none` is the `exit`. -/
def BinaryMatrix.pivot (m : BinaryMatrix) (rows i : Nat) : Option BinaryMatrix :=
  if m.mat i &&& (1#32 <<< i) = 0 then
    match (List.range' (i + 1) (rows - (i + 1))).find?
        fun j => m.mat j &&& (1#32 <<< i) ≠ 0 with
    | none => none
    | some j => some (m.swapRows i j)
  else some m

/-- One column of the elimination to upper triangular form. -/
def BinaryMatrix.eliminate (m : BinaryMatrix) (rows i : Nat) : Option BinaryMatrix :=
  (m.pivot rows i).map fun m =>
    forUp (i + 1) (rows - (i + 1)) (fun j m =>
      if m.mat j &&& (1#32 <<< i) ≠ 0 then m.addRow i j else m) m

/-- One row of the way back: `mat` is left alone, only `inv` is updated. -/
def BinaryMatrix.backSubstitute (m : BinaryMatrix) (i : Nat) : BinaryMatrix :=
  forUp 0 i (fun j m =>
    if m.mat j &&& (1#32 <<< i) ≠ 0 then
      { m with inv := Function.update m.inv j (m.inv j ^^^ m.inv i) }
    else m) m

/-- `galois_invert_binary_matrix(mat, inv, rows)`, the contents of `inv`. -/
def galoisInvertBinaryMatrix (mat : Nat → Word) (rows : Nat) : Option (Nat → Word) :=
  let start : BinaryMatrix := ⟨mat, fun i => 1#32 <<< i⟩
  (forUpM 0 rows (fun i m => m.eliminate rows i) start).map fun m =>
    (forDown rows (fun i m => m.backSubstitute i) m).inv

/-- The update of `y` between two rows of `mat2`. -/
def inverseStep (y : Word) : Word :=
  if y &&& nw31 ≠ 0 then
    let y := y <<< 1
    (y ^^^ primPoly) &&& nwm1
  else y <<< 1

/-- `galois_shift_inverse(y, 32)`. -/
def galoisShiftInverse (y : Word) : Option Word :=
  let mat2 := fun i => inverseStep^[i] y
  (galoisInvertBinaryMatrix mat2 32).map fun inv2 => inv2 0

/-- `galois_inverse(y, 32)`. -/
def galoisInverse (y : Word) : Option Word :=
  if y = 0 then some (-1) else galoisShiftInverse y

/-- `galois_single_divide(a, b, 32)`. -/
def galoisSingleDivide (a b : Word) : Option Word :=
  if b = 0 then some (-1)
  else if a = 0 then some 0
  else (galoisInverse b).map fun inverse => galoisSingleMultiply a inverse

end EbnAnchor.Core
