import ShaderIL.Kernel.Vocabulary

/-!
# Matrix multiplication

`MatMul.body` multiplies the transpose of one matrix by another. Both are stored row by row as
images of four-component texels, the left one in input 0 and the right one in input 1; the product
goes to the global buffer. The first element of constant buffer 0 holds the width of the product in
texels and the shared dimension.

A work item computes one tile of the product, one accumulator per texel. Every round of the loop
takes two rows of both matrices: it loads a tile of each (`MatMul.load`) and adds their products
(`MatMul.accumulate`). A second break, never taken, stands between the two halves of the products so
that fewer registers are alive at once. After the loop the accumulators are stored row by row.
-/

namespace ShaderIL.MatMul

/-- The size of a tile in groups of four numbers: texels across, and rows of texels down. -/
structure Tile where
  across : Nat
  down : Nat
  deriving DecidableEq, Repr

/-- The tile of the given numbers; both must be positive multiples of four. -/
def Tile.ofSize? (x y : Int) : Option Tile :=
  if x ≤ 0 || y ≤ 0 || x % 4 != 0 || y % 4 != 0 then none
  else some ⟨(x / 4).toNat, (y / 4).toNat⟩

/-- The texels of one row of both matrices. -/
structure Row where
  left : List Variable
  right : List Variable

/-- The variables of a work item. Accumulators are listed row by row. -/
structure Variables where
  tile : Tile
  accumulators : List Variable
  first : Row
  second : Row
  pos : Variable

/-- A variable of a list by its number. -/
def nth (vs : List Variable) (i : Nat) : Variable := vs.getD i ⟨.invalid, none⟩

/-- The accumulator of a row and a texel of the tile. -/
def Variables.acc (v : Variables) (i j : Nat) : Variable :=
  nth v.accumulators (i * v.tile.across + j)

/-- The left matrix. -/
def leftInput : Input := ⟨0, .float4⟩

/-- The right matrix. -/
def rightInput : Input := ⟨1, .float4⟩

/-- The width of the product in texels. -/
def width : Expr := .field ⟨0, 1, 0, .float1, some "x"⟩

/-- The shared dimension. -/
def depth : Expr := .field ⟨0, 1, 0, .float1, some "y"⟩

/-- An expression moved by a distance. -/
def moved (e : Expr) (n : Nat) : Expr := if n = 0 then e else .withInt .add e n

/-- Declare the texels of one row. -/
def declareRow (t : Tile) : Build Row := do
  let left ← Build.declareMany .float4 t.down
  let right ← Build.declareMany .float4 t.across
  return ⟨left, right⟩

/-- Declare the variables of a work item. -/
def declareVariables (t : Tile) : Build Variables := do
  let accumulators ← Build.declareMany .float4 (4 * t.down * t.across)
  let first ← declareRow t
  let second ← declareRow t
  let pos ← Build.declare .float4
  return ⟨t, accumulators, first, second, pos⟩

/-- Set up the position, whose first two components are the origin of the tile in texels and whose
third is the shared index, and clear the accumulators. -/
def setUp (v : Variables) : List Statement :=
  [.assign (some (.view v.pos "xy"))
      (.binary .mul (.position .float2) (.ofInts .float2 [v.tile.across, v.tile.down])),
    .assign (some (.view v.pos "zw")) (.ofInts .float2 [-2, 0])] ++
  v.accumulators.map fun r => .set r (.ofInt .float4 0)

/-- Load the texels of a row of both matrices. -/
def load (v : Variables) (row : Row) (z : Expr) : List Statement :=
  (List.range v.tile.down).map (fun i =>
    .set (nth row.left i) (.texel leftInput (moved (.component v.pos .y) i) z)) ++
  (List.range v.tile.across).map (fun j =>
    .set (nth row.right j) (.texel rightInput (moved (.component v.pos .x) j) z))

/-- Add the product of a component of the left row and a texel of the right row. -/
def multiplyAdd (v : Variables) (row : Row) (i j : Nat) (k : Lane) : Statement :=
  let r := v.acc (4 * i + k.val) j
  .set r (.ternary .mad (.spread (nth row.left i) k) (.var (nth row.right j)) (.var r))

/-- Add the products of a row of both matrices. -/
def accumulate (v : Variables) (row : Row) : List Statement :=
  (List.range v.tile.down).flatMap fun i =>
    (List.range v.tile.across).flatMap fun j =>
      (List.finRange 4).map fun k => multiplyAdd v row i j k

/-- The loop over the shared dimension. -/
def loop (v : Variables) : List Statement :=
  let z := Expr.component v.pos .z
  [.whileLoop,
    .set v.pos (.binary .add (.var v.pos) (.ofInts .float4 [0, 0, 2, 0])),
    .breakIf (.binary .ge z depth)] ++
  load v v.first z ++ load v v.second (moved z 1) ++
  accumulate v v.first ++
  [.breakIf (.withInt .lt width 0)] ++
  accumulate v v.second ++
  [.endLoop]

/-- Store a row of the tile and go to the next row of the product. -/
def storeRow (v : Variables) (index step : Variable) (i : Nat) : List Statement :=
  (List.range v.tile.across).map (fun j =>
    .assign (some (.element .float4 ((Address.ofExpr (.var index)).add (Int64.ofNat j))))
      (.var (v.acc i j))) ++
  [.set index (.binary .add (.var index) (.var step))]

/-- Store the tile. -/
def store (v : Variables) (index step : Variable) : List Statement :=
  [.set index (.convert .cast .uint1
      (.ternary .mad (.withInt .mul (.component v.pos .y) 4) width (.component v.pos .x))),
    .set step (.convert .cast .uint1 width)] ++
  (List.range (4 * v.tile.down)).flatMap (storeRow v index step)

/-- The kernel for a tile of the given size. -/
def body (x y : Int) : Body :=
  match Tile.ofSize? x y with
  | none => return some (.tile x y)
  | some t => do
    let v ← declareVariables t
    Build.perform (setUp v ++ loop v)
    let index ← Build.declare .uint1
    let step ← Build.declare .uint1
    Build.perform (store v index step)
    Build.verdict

end ShaderIL.MatMul
