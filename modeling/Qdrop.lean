import Qdrop.Lib.Run
import Qdrop.Lib.FileSys
import Qdrop.Lib.Table
import Qdrop.Lib.LoadSave
import Qdrop.Proto
import Qdrop.Peers
import Qdrop.FileXfer.Receive
import Qdrop.FileXfer.Paths
import Qdrop.FileXfer.Integrity
import Qdrop.FileXfer.Confined
import Qdrop.FileXfer.Temps
import Qdrop.FileXfer.Verdict
import Qdrop.FileXfer.Faults
import Qdrop.Auth
import Qdrop.Revocation
import Qdrop.Registry
import Qdrop.Router
import Qdrop.Roster
import Qdrop.Connection.Handshake
import Qdrop.Transport.Manager
import Qdrop.Transport.Live
import Qdrop.Transport.Unpair
import Qdrop.Transport.Identity
import Qdrop.Transport.Online
import Qdrop.Connection.Duplex
import Qdrop.FileXfer.Send
import Qdrop.FileXfer.Slots
import Qdrop.Pairing.Exchange
import Qdrop.Pairing.Trust
import Qdrop.FileXfer.Acks
import Qdrop.FileXfer.Duo
import Qdrop.FileXfer.Agree
import Qdrop.FileXfer.Delivery
import Qdrop.Clipboard.Thread
import Qdrop.Clipboard.Sync
import Qdrop.Clipboard.Net
import Qdrop.Clipboard.Echo
import Qdrop.Clipboard.Follow
import Qdrop.Clipboard.Converge
import Qdrop.Clipboard.Switches
import Qdrop.Clipboard.Copies
import Qdrop.Pipeline
import Qdrop.Lib.Msgpack
import Qdrop.Connection.Frame
import Qdrop.Connection.Loop
import Qdrop.Connection.Stream
import Qdrop.Connection.Relay
import Qdrop.Connection.Idle
import Qdrop.Connection.Pack
import Qdrop.Connection.Unknown
import Qdrop.Control
import Qdrop.Outbound
import Qdrop.Clipboard.Seq
import Qdrop.Clipboard.History
import Qdrop.FileXfer.Jobs
import Qdrop.Transport.Pinned
import Qdrop.Transport.Entries
import Qdrop.Transport.Rekey
import Qdrop.Transport.Book
import Qdrop.Lib.Poll
import Qdrop.Reload
import Qdrop.Pairing.Honest
import Qdrop.Lib.Keyed
import Qdrop.Registry.Edits
import Qdrop.Registry.Resolve
import Qdrop.Registry.Indexes
import Qdrop.Weblink
import Qdrop.Exchanges
import Qdrop.Clipboard.Images
import Qdrop.Clipboard.CopyCommand
import Qdrop.Lib.IpAddr
import Qdrop.Pairing.Address
import Qdrop.BlobName
import Qdrop.Notify
import Qdrop.Lib.ShellWords
import Qdrop.Cli.PairHint
import Qdrop.Lib.SortDedup
import Qdrop.Pairing.Dialable
import Qdrop.Clipboard.Repeats
import Qdrop.Clipboard.Leftover
import Qdrop.Lib.Json
import Qdrop.Cli.Waybar
import Qdrop.Transport.Throttle
import Qdrop.Lib.Durable
import Qdrop.WriteAtomic
import Qdrop.Registry.Saves
import Qdrop.Lib.MsgpackValue
import Qdrop.Connection.Unpack
import Qdrop.Connection.Link
import Qdrop.Lib.JsonPrint
import Qdrop.Control.Requests
import Qdrop.Cli.Commands
import Qdrop.Lib.Base64
import Qdrop.Pairing.Connect
import Qdrop.Lib.Rejection
import Qdrop.Pairing.Pin
import Qdrop.Pairing.Guess
import Qdrop.Lib.Journal
import Qdrop.Lib.JsonPretty
import Qdrop.DaemonState
import Qdrop.Lib.Spool
import Qdrop.Cli.Recv
import Qdrop.Lib.Pacing
import Qdrop.Clipboard.Rate
import Qdrop.Mutual
