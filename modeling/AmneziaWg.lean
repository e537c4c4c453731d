import AmneziaWg.Lib.Machine
import AmneziaWg.Lib.RingBitmap
import AmneziaWg.Lib.Linux
import AmneziaWg.Lib.Segments
import AmneziaWg.Messages
import AmneziaWg.Counter
import AmneziaWg.Junk.Tags
import AmneziaWg.Junk.Spec
import AmneziaWg.Imitate.Writers
import AmneziaWg.Imitate.Seed
import AmneziaWg.Send
import AmneziaWg.Device
import AmneziaWg.Netlink
import AmneziaWg.JunkLoop
import AmneziaWg.Receive
import AmneziaWg.HandshakeQueue
import AmneziaWg.Noise.Handshake
import AmneziaWg.Noise.Agreement
import AmneziaWg.Noise.Race
import AmneziaWg.Lib.PrefixTree
import AmneziaWg.Lib.PrefixTreeUpdate
import AmneziaWg.Dispatch
import AmneziaWg.Noise.Keypairs
import AmneziaWg.Noise.Replay
import AmneziaWg.Transport
import AmneziaWg.Lib.TokenBucket
import AmneziaWg.Ratelimiter
import AmneziaWg.Imitate.Frame
import AmneziaWg.Lib.Threads
import AmneziaWg.StagedQueue
import AmneziaWg.Cookie
import AmneziaWg.Lib.LinkedChain
import AmneziaWg.PrevQueue
import AmneziaWg.Lib.Gcm
import AmneziaWg.Qinit.Seal
import AmneziaWg.Qinit.ClientHello
import AmneziaWg.Qinit.Datagram
import AmneziaWg.AllowedIps.Bits
import AmneziaWg.Lib.TreeHeap
import AmneziaWg.AllowedIps.Trie
import AmneziaWg.AllowedIps.Shape
import AmneziaWg.AllowedIps.Insert
import AmneziaWg.AllowedIps.Remove
import AmneziaWg.AllowedIps.Free
import AmneziaWg.AllowedIps.Refinement
import AmneziaWg.Lib.Text
import AmneziaWg.MagicHeader
import AmneziaWg.Junk.Descriptor
import AmneziaWg.Timers
import AmneziaWg.Dump.Config
import AmneziaWg.Lib.Sections
import AmneziaWg.Noise.Reject
import AmneziaWg.Dump.Bogus
import AmneziaWg.Dump.Paging
import AmneziaWg.IndexTable
import AmneziaWg.Lib.SkBuff
import AmneziaWg.SkbHeader
import AmneziaWg.Lib.Stun
import AmneziaWg.Imitate.Dns
import AmneziaWg.Imitate.Stun
import AmneziaWg.Imitate.Sip
import AmneziaWg.AllowedIps.ReadNode
import AmneziaWg.AllowedIps.Bounds
import AmneziaWg.Lib.Blockwise
import AmneziaWg.Qinit.Streaming
import AmneziaWg.Lib.GcmField
import AmneziaWg.Qinit.Field
import AmneziaWg.Backlog
import AmneziaWg.Dump.BogusPrefix
import AmneziaWg.Pipeline.Model
import AmneziaWg.Pipeline.Accounting
import AmneziaWg.Pipeline.Wakeup
import AmneziaWg.Pipeline.Delivery
import AmneziaWg.Pipeline.Drain
import AmneziaWg.Pipeline.Receive
import AmneziaWg.Timers.Machine
import AmneziaWg.Timers.Invariants
import AmneziaWg.Config.Model
import AmneziaWg.Config.Spec
import AmneziaWg.Config.Refinement
import AmneziaWg.Config.Requests
import AmneziaWg.Config.Results
import AmneziaWg.Config.RoundTrip
import AmneziaWg.Lib.Words
import AmneziaWg.Zinc.Poly1305
import AmneziaWg.Zinc.Donna64
