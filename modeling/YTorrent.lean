import YTorrent.Common.Runs
import YTorrent.Common.Slice
import YTorrent.Torrent.Integrity
import YTorrent.Torrent.Blocks
import YTorrent.Torrent.Upload
import YTorrent.Torrent.Idle
import YTorrent.Torrent.Announce
import YTorrent.Torrent.Transfer
import YTorrent.Torrent.Wire
import YTorrent.Torrent.Remote
import YTorrent.Torrent.Delivery
import YTorrent.Torrent.Swarm
import YTorrent.Torrent.Sending
import YTorrent.Torrent.Rules
import YTorrent.Torrent.Addresses
import YTorrent.Torrent.Dropped
import YTorrent.Common.Segments
import YTorrent.Utils.Bencoding
import YTorrent.Torrent.Tracker
import YTorrent.Torrent.Response
import YTorrent.Torrent.Replies
import YTorrent.Torrent.Request
import YTorrent.Torrent.ParseFile
import YTorrent.Torrent.Session
import YTorrent.Torrent.Ports
import YTorrent.Torrent.Interval
import YTorrent.Torrent.Events
import YTorrent.Torrent.Membership
import YTorrent.Torrent.Selection
import YTorrent.Torrent.Statistics
import YTorrent.Torrent.Arrival
import YTorrent.Common.Paths
import YTorrent.Torrent.Directory
import YTorrent.Common.KeyMap
import YTorrent.Utils.Encoding
import YTorrent.Torrent.InfoHash
import YTorrent.Common.Firsts
import YTorrent.Torrent.Dialling
import YTorrent.Net.Fields
import YTorrent.Torrent.PeerLists
import YTorrent.Net.Acceptor
import YTorrent.Common.Patterns
import YTorrent.Utils.TrackerUrl
import YTorrent.Common.Ostream
import YTorrent.Utils.Escape
import YTorrent.Common.Streambuf
import YTorrent.Net.Receiver
import YTorrent.Torrent.Reception
import YTorrent.Common.Progress
import YTorrent.Common.Simulation
import YTorrent.Torrent.FileBytes
import YTorrent.Torrent.Uploads
import YTorrent.Torrent.Seeding
import YTorrent.Torrent.Fetching
import YTorrent.Torrent.Pairing
import YTorrent.Torrent.Conformance
import YTorrent.Torrent.Greeting
import YTorrent.Torrent.Channel
import YTorrent.Torrent.Assignments
import YTorrent.Common.Totals
import YTorrent.Torrent.Limits
import YTorrent.Torrent.Isolation
import YTorrent.Torrent.Requested
import YTorrent.Torrent.Outcome
import YTorrent.Torrent.Contents
import YTorrent.Torrent.Complete
import YTorrent.Torrent.Rescue
import YTorrent.Torrent.Late
