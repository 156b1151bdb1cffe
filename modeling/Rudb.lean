import Rudb.Storage.HandoffProofs
import Rudb.Storage.WaitDieProofs
import Rudb.Storage.ThawProofs
import Rudb.Storage.DeletesBytes
import Rudb.Txn.AckProofs
import Rudb.Storage.ZoneKept
import Rudb.Opt.NullsProofs
import Rudb.Opt.Dependent
import Rudb.Graph.KeyMapStored
import Rudb.Graph.AdjacencyPush
import Rudb.Kernels.PatternProofs
import Rudb.Pgtypes.NumericGcd
import Rudb.Csv.RecordsProofs
import Rudb.Csv.SplitProofs
import Rudb.Exec.KeyedProofs
import Rudb.Catalog.KeysProofs
import Rudb.Txn.SeedProofs
import Rudb.Catalog.PointsProofs
