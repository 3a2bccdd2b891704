import Gofusion.Mq.Message
import Gofusion.Db.Ctx
import Gofusion.Lock.RedisNX
import Gofusion.Lock.Exclusion
import Gofusion.Lock.Mysql
import Gofusion.Lock.Within
import Gofusion.Db.Softdelete.Guard
import Gofusion.Db.Softdelete.Hidden
import Gofusion.Cipher.Splices
import Gofusion.Cipher.Reuse
import Gofusion.Routine.Registration
import Gofusion.Routine.WhenAll
import Gofusion.Routine.WhenAny
import Gofusion.Routine.Slots
import Gofusion.Config.Registry
import Gofusion.Db.Sharding.Suffixes
import Gofusion.Async.Queues
import Gofusion.Context.Deadline
import Gofusion.Cache.Keeping
import Gofusion.Async.Delivery
import Gofusion.Db.AutoIncr
import Gofusion.Db.Scan.Limit
import Gofusion.Db.Scan.Reuse
import Gofusion.Db.Dal
import Gofusion.Db.Sharding.RawSuffixes
import Gofusion.Db.Sharding.InsertIds
import Gofusion.Db.Sharding.Creation
import Gofusion.Db.Sharding.References
import Gofusion.Kv.Got
import Gofusion.Kv.Consul
import Gofusion.Kv.Etcd
import Gofusion.Cache.Clearing
import Gofusion.Cache.Redis
import Gofusion.Cache.Keys
import Gofusion.Utils.Marshal
