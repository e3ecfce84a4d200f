import TorrentPeer.Core.Bitfield
import TorrentPeer.Core.PieceSets
import TorrentPeer.Core.Types
import TorrentPeer.Lib.BigEndian
import TorrentPeer.Lib.Decimal
import TorrentPeer.Lib.Framing
import TorrentPeer.Lib.Outcome
import TorrentPeer.Lib.Splice
import TorrentPeer.Lib.Table
import TorrentPeer.Lib.Transition
import TorrentPeer.Lib.Window
import TorrentPeer.Metainfo.Bencode
import TorrentPeer.Metainfo.Geometry
import TorrentPeer.Metainfo.InfoSpan
import TorrentPeer.Metainfo.Parser
import TorrentPeer.Metainfo.ParserFuel
import TorrentPeer.Metainfo.ParserGrammar
import TorrentPeer.Metainfo.ParserSafety
import TorrentPeer.Metainfo.ParserSteps
import TorrentPeer.Metainfo.ParserTokens
import TorrentPeer.Metainfo.RoundTrip
import TorrentPeer.Metainfo.SingleFile
import TorrentPeer.Metainfo.Torrent
import TorrentPeer.Runtime.Accounting
import TorrentPeer.Runtime.Addresses
import TorrentPeer.Runtime.Allowance
import TorrentPeer.Runtime.AnnounceLaw
import TorrentPeer.Runtime.Announces
import TorrentPeer.Runtime.Answers
import TorrentPeer.Runtime.Arrivals
import TorrentPeer.Runtime.Asking
import TorrentPeer.Runtime.Assembly
import TorrentPeer.Runtime.Attempts
import TorrentPeer.Runtime.Availability
import TorrentPeer.Runtime.BackOff
import TorrentPeer.Runtime.Backlog
import TorrentPeer.Runtime.Bans
import TorrentPeer.Runtime.Beliefs
import TorrentPeer.Runtime.Calls
import TorrentPeer.Runtime.Cancels
import TorrentPeer.Runtime.Client
import TorrentPeer.Runtime.Completion
import TorrentPeer.Runtime.Connection
import TorrentPeer.Runtime.Construction
import TorrentPeer.Runtime.Convictions
import TorrentPeer.Runtime.Custody
import TorrentPeer.Runtime.Descent
import TorrentPeer.Runtime.Disk
import TorrentPeer.Runtime.DiskAccess
import TorrentPeer.Runtime.DiskArray
import TorrentPeer.Runtime.DiskLayout
import TorrentPeer.Runtime.DiskRefinement
import TorrentPeer.Runtime.Filling
import TorrentPeer.Runtime.Forfeits
import TorrentPeer.Runtime.Greetings
import TorrentPeer.Runtime.Handshakes
import TorrentPeer.Runtime.Honesty
import TorrentPeer.Runtime.Identity
import TorrentPeer.Runtime.Limits
import TorrentPeer.Runtime.Moves
import TorrentPeer.Runtime.Notices
import TorrentPeer.Runtime.Outstanding
import TorrentPeer.Runtime.PeerActs
import TorrentPeer.Runtime.PeerCalls
import TorrentPeer.Runtime.Peering
import TorrentPeer.Runtime.Peers
import TorrentPeer.Runtime.PieceCounters
import TorrentPeer.Runtime.PieceLedger
import TorrentPeer.Runtime.PieceStates
import TorrentPeer.Runtime.Pieces
import TorrentPeer.Runtime.QueueActs
import TorrentPeer.Runtime.Replies
import TorrentPeer.Runtime.Reports
import TorrentPeer.Runtime.Restart
import TorrentPeer.Runtime.Retries
import TorrentPeer.Runtime.Routing
import TorrentPeer.Runtime.Runs
import TorrentPeer.Runtime.Selection
import TorrentPeer.Runtime.Session
import TorrentPeer.Runtime.Shutdown
import TorrentPeer.Runtime.Sleep
import TorrentPeer.Runtime.Speech
import TorrentPeer.Runtime.Staleness
import TorrentPeer.Runtime.Streams
import TorrentPeer.Runtime.Tracker
import TorrentPeer.Runtime.TrackerIds
import TorrentPeer.Runtime.TrackerRuns
import TorrentPeer.Runtime.Turns
import TorrentPeer.Runtime.Uploads
import TorrentPeer.Runtime.Utterances
import TorrentPeer.Runtime.Verdicts
import TorrentPeer.Runtime.Wire
import TorrentPeer.Runtime.Workload
import TorrentPeer.Runtime.WriteQueue
