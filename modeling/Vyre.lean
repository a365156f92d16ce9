import Vyre.Canonical.Identity
import Vyre.Graph.UnionFind
import Vyre.Hash.ModArith
import Vyre.Lower.EmitOrder
import Vyre.Matching.DfaWire
import Vyre.Matching.Region
import Vyre.Math.BellmanShortestPath
import Vyre.Math.BigIntAddCarry
import Vyre.Megakernel.BarrierOrder
import Vyre.Megakernel.CrossPipeline
import Vyre.Megakernel.PackedSlot
import Vyre.Optimizer.DeadStoreElim
import Vyre.Optimizer.Extraction
import Vyre.Optimizer.ModLookbehind
import Vyre.Optimizer.Scheduler
import Vyre.Optimizer.StoreToLoadForward
import Vyre.Optimizer.StrengthReduceExact
import Vyre.Soundness.Types
import Vyre.Transform.Closure
import Vyre.Wire.Acceptance
import Vyre.Wire.CanonicalProgram
import Vyre.Wire.Depth
import Vyre.Wire.Panics
