import LibTorrent.Data.ChunkBuffer
import LibTorrent.Data.ChunkUse
import LibTorrent.Data.CreateChunk
import LibTorrent.Data.FindAddress
import LibTorrent.Data.HashQueue
import LibTorrent.Dht.Tally
import LibTorrent.Dht.Transactions
import LibTorrent.Download.CompletedBytes
import LibTorrent.Download.PexList
import LibTorrent.Download.Rarity
import LibTorrent.Download.ResourceManager
import LibTorrent.Download.Selection
import LibTorrent.Extension.Metadata
import LibTorrent.Handshake.Watched
import LibTorrent.Net.Throttling
import LibTorrent.Object.Stream
import LibTorrent.Object.LargeBuffer
import LibTorrent.Peer.Snubbing
import LibTorrent.Peer.HaveQueue
import LibTorrent.Peer.PeerList
import LibTorrent.Peer.Wakeup
import LibTorrent.Protocol.UploadStream
import LibTorrent.Resume.Load
import LibTorrent.StaticMap.Raw
import LibTorrent.Tracker.TrackerUdp
import LibTorrent.Tracker.UdpRouter
import LibTorrent.Transfer.Blame
import LibTorrent.Transfer.Release
import LibTorrent.Utils.Extents
import LibTorrent.Utils.UriParser
