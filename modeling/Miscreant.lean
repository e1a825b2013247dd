import Miscreant.Lib.Prog
import Miscreant.Lib.Pktline
import Miscreant.Lib.Packets
import Miscreant.Lib.Pool
import Miscreant.Lib.Atomic
import Miscreant.Lib.Resolve
import Miscreant.Lib.SortedMap
import Miscreant.Lib.Txn
import Miscreant.Lib.MaxHeap
import Miscreant.Lib.Utf8
import Miscreant.Lib.GitDelta
import Miscreant.Lib.Canonical
import Miscreant.Lib.CommonPrefix
import Miscreant.Lib.RollingHash
import Miscreant.Lib.Slice
import Miscreant.Lib.SwapRemove
import Miscreant.Lib.Upholds
import Miscreant.Lib.Ends
import Miscreant.Lib.SuffixWindow
import Miscreant.Values
import Miscreant.ValuesFacts
import Miscreant.Wire
import Miscreant.Keys
import Miscreant.Codec
import Miscreant.CodecFacts
import Miscreant.Store
import Miscreant.Crash
import Miscreant.ObjectDb
import Miscreant.Slate
import Miscreant.Walk
import Miscreant.Promote
import Miscreant.PackOut
import Miscreant.UploadPack
import Miscreant.Advertise
import Miscreant.Negotiate
import Miscreant.Repo
import Miscreant.SelectFacts
import Miscreant.CollectFacts
import Miscreant.PlanFacts
import Miscreant.PromoteFacts
import Miscreant.GraphFacts
import Miscreant.PushFacts
import Miscreant.PushRuns
import Miscreant.CrashFacts
import Miscreant.BackfillFacts
import Miscreant.FetchFacts
import Miscreant.NegotiateFacts
import Miscreant.BoundFacts
import Miscreant.AdvertiseFacts
import Miscreant.PeelFacts
import Miscreant.UpdateRefsFacts
import Miscreant.RegistryFacts
import Miscreant.SharedFacts
import Miscreant.IsolationFacts
import Miscreant.ReceivePack
import Miscreant.ReceivePackFacts
import Miscreant.Requests
import Miscreant.RequestFacts
import Miscreant.Stream
import Miscreant.RequestRuns
import Miscreant.LsRefsFacts
import Miscreant.LimitFacts
import Miscreant.LookupFacts
import Miscreant.ScheduleFacts
import Miscreant.FetchResponse
import Miscreant.FilterFacts
import Miscreant.ScanFacts
import Miscreant.IndexFacts
import Miscreant.DeltaFacts
import Miscreant.ProbeFacts
import Miscreant.PackOutFacts
import Miscreant.WindowFacts
import Miscreant.SingleFlight
import Miscreant.SingleFlightFacts
import Miscreant.PartCache
import Miscreant.PartRangeFacts
import Miscreant.PartPathFacts
import Miscreant.PartCacheRuns
import Miscreant.PartCacheFacts
import Miscreant.Evictor
import Miscreant.EvictorFacts
import Miscreant.Lib.SideBand
import Miscreant.Lib.Refine
import Miscreant.PackStreamFacts
import Miscreant.FetchResponseFacts
import Miscreant.CloneFacts
import Miscreant.ReadOnlyFacts
import Miscreant.OnSlate
import Miscreant.OnSlateFacts
import Miscreant.OnSlateRuns
