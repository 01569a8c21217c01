import Airdcpp.Queue.CreateBundle
import Airdcpp.Util.PathStability
import Airdcpp.Transfer.Verification
import Airdcpp.Queue.PrioritySearchQueue
import Airdcpp.Xml.XmlRoundTrip
import Airdcpp.Search.SearchQueue
import Airdcpp.Transfer.SlotAccounting
import Airdcpp.Hash.MaintenanceRuns
import Airdcpp.Share.RefreshQueue
import Airdcpp.Hash.HasherAccounting
import Airdcpp.Transfer.RunningConnections
import Airdcpp.Connection.UniqueTokens
import Airdcpp.Hub.OnlineUsers
import Airdcpp.Queue.RecheckFile
import Airdcpp.Queue.SegmentChoice
import Airdcpp.Queue.PartialFileSharing
import Airdcpp.Queue.BalancedPriorities
import Airdcpp.Hub.NmdcSafety
import Airdcpp.Util.NoCaseKeys
import Airdcpp.Util.NaturalOrder
import Airdcpp.Util.PathSuffix
import Airdcpp.Hash.CheckedStream
import Airdcpp.Transfer.TreeDownload
import Airdcpp.Search.GroupedSearchResult
import Airdcpp.Search.Extensions
import Airdcpp.Search.NameReads
import Airdcpp.Connection.McnLimits
import Airdcpp.Core.FloodCounter
import Airdcpp.Connection.ChunkSize
import Airdcpp.Transfer.UploadFileParser
import Airdcpp.FileList.LoaderNesting
import Airdcpp.Connection.SendFile
import Airdcpp.Core.Buffering
import Airdcpp.Connection.ChunkedResponses
import Airdcpp.FileList.ADLDestinations
import Airdcpp.Search.AutoSearch
import Airdcpp.WebApi.ViewRange
import Airdcpp.WebApi.PartialRange
import Airdcpp.Util.UrlEscapes
import Airdcpp.Util.UrlParts
import Airdcpp.Search.ResultRoundTrip
import Airdcpp.Util.ParentPaths
import Airdcpp.Util.DupeUtil
import Airdcpp.Core.SortedVector
import Airdcpp.Hub.MessageEscapes
import Airdcpp.Core.CryptoManager
import Airdcpp.Util.CryptoUtil
import Airdcpp.Core.DelayedEvents
import Airdcpp.Transfer.BundleTicks
import Airdcpp.WebApi.ViewContents
import Airdcpp.Transfer.UploadsTracked
import Airdcpp.Queue.NextDownload
import Airdcpp.Share.TreeIndexes
