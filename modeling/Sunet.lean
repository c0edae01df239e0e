import Sunet.Util.Bytes
import Sunet.Util.StringUtil
import Sunet.Util.Split
import Sunet.Util.Characters
import Sunet.Seg.Shared
import Sunet.Seg.WordSeg
import Sunet.Dat.Code
import Sunet.Dat.Corpus
import Sunet.Dat.Double
import Sunet.Dat.Memory
import Sunet.Dat.Siblings
import Sunet.Dat.Insert
import Sunet.Dat.Search
import Sunet.Dat.Total
import Sunet.Dat.Exact
import Sunet.Dat.Unicode
import Sunet.Dat.Reversed
import Sunet.Dat.Unsorted
import Sunet.Dat.Inside
import Sunet.Dat.Unchecked
import Sunet.Dat.Partition
import Sunet.Dat.FirstFit
import Sunet.Dat.Growth
import Sunet.Dat.Trie
import Sunet.Dat.Suggest
import Sunet.Lib.Critical
import Sunet.Lib.Cut
import Sunet.Http.Escape
import Sunet.Http.Query
import Sunet.Http.Bounds
import Sunet.Http.Fields
import Sunet.Http.Accept
import Sunet.Http.HeaderBlock
import Sunet.Http.WellFormed
import Sunet.Io.Buffer
import Sunet.Io.Sending
import Sunet.Io.Segments
import Sunet.Io.CrossClient
import Sunet.Io.LostResponse
import Sunet.Io.Once
import Sunet.Io.Ledger
import Sunet.Io.SelectInvariant
import Sunet.Io.Answers
import Sunet.Task.Queue
import Sunet.Task.Stopping
import Sunet.Thread.Pool
import Sunet.Log.SubLog
import Sunet.Log.Shared
import Sunet.Index.Load
import Sunet.Index.Count
import Sunet.Index.Malformed
import Sunet.Config.Strategy
import Sunet.Config.SubConf
import Sunet.Config.Sections
import Sunet.Plugin.Dispatch
import Sunet.Plugin.Search
import Sunet.Plugin.Frame
import Sunet.Plugin.Defined
import Sunet.Plugin.Failed
import Sunet.Plugin.Strategies
import Sunet.Plugin.Retrieval
import Sunet.Plugin.Found
import Sunet.Http.Message
import Sunet.Io.Framing
import Sunet.Task.ReqTask
import Sunet.Task.Server
