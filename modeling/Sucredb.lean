import Sucredb.Bytes
import Sucredb.Codec
import Sucredb.Engine
import Sucredb.Storage
import Sucredb.Refinement
import Sucredb.Iteration
import Sucredb.Exhaustion
import Sucredb.Clear
import Sucredb.World
import Sucredb.Spec
import Sucredb.Simulation
import Sucredb.FabricMsg
