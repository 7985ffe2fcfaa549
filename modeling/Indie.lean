import Indie.Library.Run
import Indie.Library.Vec
import Indie.Library.SwapList
import Indie.SparseSet
import Indie.SparseSetWF
import Indie.Erase
import Indie.SetRefine
import Indie.RangeFor
import Indie.Pool
import Indie.PoolMap
import Indie.PoolThrow
import Indie.Library.Keyed
import Indie.Pools
import Indie.PoolsSpec
import Indie.EntityManager
import Indie.Destroy
import Indie.Invariant
import Indie.Ownership
import Indie.Recycle
import Indie.Managers
import Indie.EntityThrow
import Indie.PoolNear
import Indie.Redundant
import Indie.SystemManager
import Indie.SystemRegistry
import Indie.PoolIds
import Indie.Counting
import Indie.ReplaceUnowned
import Indie.Callback
import Indie.IndexSafety
import Indie.PoolRange
import Indie.SystemAdd
import Indie.Library.Search
import Indie.Logger
import Indie.Message
import Indie.ArgumentText
import Indie.TypeList
import Indie.Concatenation
import Indie.TupleElements
import Indie.Stuck
import Indie.SetOrder
import Indie.World
import Indie.WorldRefine
import Indie.Commute
import Indie.Library.Reorder
import Indie.Reordering
import Indie.InPlace
import Indie.Spawn
import Indie.Server
import Indie.SystemOrder
import Indie.Waiting
import Indie.Realm
import Indie.Rename
import Indie.Alone
import Indie.Filter
import Indie.Reentrant
import Indie.Tally
import Indie.Mentions
import Indie.Storage
