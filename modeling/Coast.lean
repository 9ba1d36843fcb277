import Coast.Actions.Scripts
import Coast.Anything.AnyCompare
import Coast.Anything.ArrayAsserts
import Coast.Anything.ArrayPositions
import Coast.Anything.CloneWhole
import Coast.Anything.HashOverflow
import Coast.Anything.MergeTwice
import Coast.Anything.ROAnything
import Coast.Anything.SlotPutter
import Coast.Base.MmapFile
import Coast.Base.NormalPath
import Coast.Base.StringStreamBuf
import Coast.Base.StringTokenizer
import Coast.Config.CacheHandler
import Coast.Config.HierarchyInstaller
import Coast.Graph.RoundTrip
import Coast.Http.ChunkedOStream
import Coast.Http.DocumentRoot
import Coast.Http.ExhaustiveDecoding
import Coast.Http.FileUpload
import Coast.Http.HTTPRequestReader
import Coast.Http.QueryFields
import Coast.Http.TrimChars
import Coast.Ldap.ConnectionManager
import Coast.Logging.AppLogChannel
import Coast.Memory.ExcessTrackers
import Coast.Memory.PoolSafety
import Coast.Oracle.ConnectionPool
import Coast.Oracle.OpenFor
import Coast.Queueing.Delivery
import Coast.Queueing.WakeUp
import Coast.Regex.BackReferences
import Coast.Regex.CaseVariants
import Coast.Regex.CharClass
import Coast.Regex.FragmentReading
import Coast.Regex.Jumps
import Coast.Regex.Messages
import Coast.Regex.SimplePattern
import Coast.Regex.Splitting
import Coast.Registry.AliasTerminator
import Coast.Renderer.CopiedHtml
import Coast.Security.Base64
import Coast.Security.NTLMRoundTrip
import Coast.Security.SecurityModule
import Coast.Security.ShortKeys
import Coast.Security.TableCoverage
import Coast.Session.FindNextPage
import Coast.Session.SessionIds
import Coast.Session.SessionLimit
import Coast.Session.SessionListInfo
import Coast.Session.SessionSafety
import Coast.Session.StoreSearch
import Coast.Text.Compact
import Coast.Text.Inclusion
import Coast.Text.Paths
import Coast.Text.Reference
import Coast.Threading.LeaderFollowerPool
import Coast.Threading.Mutex
import Coast.Threading.RWLock
import Coast.Threading.ThreadPoolManager
import Coast.Threading.TimedWait
import Coast.Threading.WorkerPoolManager
import Coast.Time.RoundTrip
import Coast.Time.TableBounds
import Coast.Xml.Cdata
import Coast.Xml.Progress
