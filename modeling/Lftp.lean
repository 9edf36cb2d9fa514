import Lftp.Ports.Aliases
import Lftp.Ports.Base32
import Lftp.Ports.Base64
import Lftp.Ports.Bencode
import Lftp.Ports.BencodePrefix
import Lftp.Ports.BitField
import Lftp.Ports.ByteBuffer
import Lftp.Ports.CmdExec
import Lftp.Ports.DHTFind
import Lftp.Ports.DHTMessages
import Lftp.Ports.DHTNodeId
import Lftp.Ports.DHTRuns
import Lftp.Ports.DHTSearch
import Lftp.Ports.DHTState
import Lftp.Ports.DHTSweep
import Lftp.Ports.DHTTokens
import Lftp.Ports.FDCache
import Lftp.Ports.FileCopy
import Lftp.Ports.FileMerge
import Lftp.Ports.FindCalls
import Lftp.Ports.FindJob
import Lftp.Ports.FindJobDu
import Lftp.Ports.FtpControl
import Lftp.Ports.FtpFraming
import Lftp.Ports.FtpMoves
import Lftp.Ports.FtpPairing
import Lftp.Ports.FtpReplies
import Lftp.Ports.HttpChunked
import Lftp.Ports.HttpDirXML
import Lftp.Ports.JobRuns
import Lftp.Ports.LsCache
import Lftp.Ports.LsCacheExpiry
import Lftp.Ports.Magnet
import Lftp.Ports.MirrorSets
import Lftp.Ports.ParseCmd
import Lftp.Ports.PatternSet
import Lftp.Ports.Numbers
import Lftp.Ports.RateLimit
import Lftp.Ports.RateTree
import Lftp.Ports.AsciiMode
import Lftp.Ports.Cookies
import Lftp.Ports.PgetChunks
import Lftp.Ports.PgetStatus
import Lftp.Ports.QueueFeeder
import Lftp.Ports.SFtpFrame
import Lftp.Ports.SFtpPacket
import Lftp.Ports.SFtpRetrieval
import Lftp.Ports.SFtpRoundTrip
import Lftp.Ports.SFtpWrite
import Lftp.Ports.SMTask
import Lftp.Ports.ShellQuote
import Lftp.Ports.Timers
import Lftp.Ports.TorrentAccounting
import Lftp.Ports.TorrentBits
import Lftp.Ports.TorrentCounters
import Lftp.Ports.TorrentDownloaders
import Lftp.Ports.TorrentLayout
import Lftp.Ports.TorrentLink
import Lftp.Ports.TorrentMetadata
import Lftp.Ports.TorrentPacket
import Lftp.Ports.TorrentPath
import Lftp.Ports.TorrentPeers
import Lftp.Ports.TorrentPex
import Lftp.Ports.TorrentPieces
import Lftp.Ports.TorrentSizes
import Lftp.Ports.TorrentStorage
import Lftp.Ports.Url
import Lftp.Ports.UrlPassword
import Lftp.Ports.XMap
import Lftp.Ports.XQueue
import Lftp.Ports.FlatSort
import Lftp.Ports.SortedSets
import Lftp.Ports.SrvRecords
import Lftp.Ports.PathOptimize
import Lftp.Ports.SetFormat
import Lftp.Ports.FtpListInfo
import Lftp.Ports.DosListing
import Lftp.Ports.LsLine
import Lftp.Ports.MlsdFacts
import Lftp.Ports.LongList
import Lftp.Ports.MlsdListing
import Lftp.Ports.ListDetection
import Lftp.Ports.QueueLinks
import Lftp.Ports.QueueRuns
import Lftp.Verified.Linked
import Lftp.Verified.Nesting
import Lftp.Verified.Progress
import Lftp.Verified.Shell
import Lftp.Verified.Sorting
import Lftp.Verified.Relative
import Lftp.Verified.Calendar
import Lftp.Verified.CString
import Lftp.Verified.Escapes
import Lftp.Ports.Telnet
import Lftp.Ports.OptsMlst
import Lftp.Ports.OutputJob
import Lftp.Ports.PwdReply
import Lftp.Ports.ProxyReply
import Lftp.Ports.AuthChallenge
import Lftp.Ports.ColumnOutput
import Lftp.Verified.Entities
import Lftp.Ports.HtmlText
import Lftp.Ports.KeyValue
import Lftp.Ports.FishRead
import Lftp.Verified.Formats
import Lftp.Ports.HtmlInfo
import Lftp.Ports.HtmlListing
import Lftp.Ports.HtmlWindows
