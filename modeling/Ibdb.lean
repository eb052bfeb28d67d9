import Ibdb.Cluster.Answered
import Ibdb.Cluster.Isolation
import Ibdb.Cluster.ConcurrentCreate
import Ibdb.Client.Discipline
import Ibdb.Storage.SkipSegmentMap
import Ibdb.Storage.FreshLog
import Ibdb.Storage.LostUpdate
import Ibdb.Storage.Recovery
import Ibdb.Storage.BatchRead
import Ibdb.Storage.LogFiles
import Ibdb.Storage.AnyContent
import Ibdb.Storage.ShortWrites
import Ibdb.Storage.Unparsed
import Ibdb.Log.Seek
import Ibdb.Log.AnyBytes
import Ibdb.Log.SilentSeek
import Ibdb.Base.SkipListLevels
import Ibdb.Base.Arena
import Ibdb.Base.Crc32cErrors
import Ibdb.Base.Logging
import Ibdb.Base.Random
import Ibdb.Base.SkipListConcurrent
import Ibdb.Base.SkipListRemoved
import Ibdb.Base.SkipListScans
import Ibdb.Base.Splitting
import Ibdb.Base.StatusObject
import Ibdb.Client.ConcurrentNodes
import Ibdb.Client.DeleteNodes
import Ibdb.Cluster.Database
import Ibdb.Cluster.Rows
import Ibdb.Log.Limiter
import Ibdb.Log.SlightDamage
import Ibdb.Storage.Durability
