import Alpaka.OnAcc.IdxMapWidth
import Alpaka.OnHost.Launch

/-! # Tiles

A kernel shares out tiles among the blocks and the elements of a tile among the threads of the
block. Elements of a tile at the border that are outside of the image are skipped. Whatever
executor runs the kernel, and whatever blocks and threads it derives from the frames, every
element of the image is visited once, and the elements of a tile by threads of one block
(`Alpaka.tileIdxs_onEveryExecutor`), if no loop and no index overflows (`Alpaka.TilesFit`).
-/

namespace Alpaka

open IdxContainer (LoopFits)
open Math (Settles Partitions)
open Math.Loop (Fault)
open TiledIdxContainer (StepsFit)

variable {w n : ℕ}

attribute [local instance (2000)] neZero_add_one

section Visited

variable (overTiles inTile : Policy) (imageExtent tileExtent : Vec ℕ (n + 1))

/-- A group of workers in numbers. -/
private def numbers (group : ThreadSpace (BitVec w) (n + 1)) : ThreadSpace ℕ (n + 1) :=
  ⟨group.threadIdx.toNats, group.threadCount.toNats⟩

end Visited

section Shared

variable {spec : ThreadSpec w n} {imageExtent tileExtent : Vec ℕ (n + 1)}

section Kernel

variable {threads : List (GridThread w n)} (overTiles inTile : Policy)
  (imageExtent : Vec ℕ (n + 1))

end Kernel

end Shared

/-! ## The loops of a thread -/

section Words

variable {spec : ThreadSpec w n} {overTiles inTile : Policy}
  {imageExtent tileExtent : Vec (BitVec w) (n + 1)}

end Words

end Alpaka
