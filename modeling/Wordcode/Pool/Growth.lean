/-
# Growing the pools of a code unit

While a unit is assembled its pools grow. Free variables come after the cells,
so their indices shift when a cell is added: a cell operand is therefore held
as a reference to one of the two lists, and its index is read off when all
operands are in.

The index of a free variable counts the cells before it. So it is cells and free
variables together that are meant to be fewer than 2 ^ 32, and each of the other
pools by itself, for an index to fit into 32 bits (`Pools.Indexable`).

Key definitions: `CellRef`, `PoolGrowth`, `PoolGrowth.internCell`,
`PoolGrowth.cellIndex`.
-/
import Wordcode.Pool

namespace Wordcode

/-- A place in the cell variables or in the free variables. -/
inductive CellRef where
  | cell (index : Nat)
  | free (index : Nat)
deriving DecidableEq, Inhabited

/-- Pools that grow. `seedCells` is the number of cells before the first was
added; hints for cell operands count from the pools as they were then. -/
structure PoolGrowth where
  pools : Pools
  seedCells : Nat
deriving Inhabited

namespace PoolGrowth

/-- Pools about to grow. -/
def ofPools (pools : Pools) : PoolGrowth := ⟨pools, pools.cells.size⟩

def internConstant (g : PoolGrowth) (c : Constant) (hint : Option Nat) : Nat × PoolGrowth :=
  let (i, constants) := Pool.internHinted g.pools.constants c hint
  (i, { g with pools := { g.pools with constants } })

def internName (g : PoolGrowth) (name : String) (hint : Option Nat) : Nat × PoolGrowth :=
  let (i, names) := Pool.internHinted g.pools.names name hint
  (i, { g with pools := { g.pools with names } })

def internLocal (g : PoolGrowth) (name : String) (hint : Option Nat) : Nat × PoolGrowth :=
  let (i, locals) := Pool.internHinted g.pools.locals name hint
  (i, { g with pools := { g.pools with locals } })

/-- The place a hint means, if the name there is the one wanted. -/
def hintedCell? (g : PoolGrowth) (name : String) (hint : Nat) : Option CellRef :=
  if hint < g.seedCells then
    if g.pools.cells[hint]? = some name then some (.cell hint) else none
  else if g.pools.free[hint - g.seedCells]? = some name then some (.free (hint - g.seedCells))
  else none

/-- The place of a name without a hint: among the cells, else among the free
variables, else as a new cell. -/
def placeCell (g : PoolGrowth) (name : String) : CellRef × PoolGrowth :=
  match Pool.find? g.pools.cells name with
  | some i => (.cell i, g)
  | none => match Pool.find? g.pools.free name with
    | some i => (.free i, g)
    | none =>
      (.cell g.pools.cells.size, { g with pools := { g.pools with cells := g.pools.cells.push name } })

/-- The place of a cell operand, hinted or not. -/
def internCell (g : PoolGrowth) (name : String) (hint : Option Nat) : CellRef × PoolGrowth :=
  match hint.bind (g.hintedCell? name) with
  | some place => (place, g)
  | none => g.placeCell name

/-- The index of a place, good once nothing more is added. -/
def cellIndex (g : PoolGrowth) : CellRef → Nat
  | .cell i => i
  | .free i => g.pools.cells.size + i

end PoolGrowth

end Wordcode
