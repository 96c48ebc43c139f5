import Stor.Bencode.Grammar
import Stor.Torrent.InfoHash
import Stor.Magnet.InfoHash
import Stor.Tracker.Records
import Stor.Dht.Pending
import Stor.Dht.Persist
import Stor.Dht.Lookup
import Stor.Utp.Close
import Stor.Utp.Listener
import Stor.Mse.Handshake
import Stor.Peer.Pex
import Stor.Magnet.Metadata
import Stor.Storage.VerifyTruth
import Stor.Storage.Segments
import Stor.Download.WakeUp
import Stor.Download.SkipMask
import Stor.Download.Stop
import Stor.Download.Availability
import Stor.Download.Introduce
import Stor.Download.RarestFirst
import Stor.Download.PipelineDepth
import Stor.Download.Honest
import Stor.Download.Bounded
import Stor.Download.WebSeed
import Stor.Download.Progress
import Stor.Download.Choking
import Stor.Engine.Advertise
import Stor.Engine.PauseResume
import Stor.Engine.Remove
import Stor.Engine.SavePath
import Stor.Engine.PauseFinal
import Stor.Engine.StateEvents
import Stor.Engine.Incoming
import Stor.Engine.Restore
import Stor.Engine.SaveOrder
import Stor.Engine.Persist
import Stor.Engine.QueueOrder
import Stor.Engine.AnnounceInterval
import Stor.Engine.StallDetector
import Stor.Engine.FileEvents
import Stor.Engine.SkippedPieces
import Stor.Daemon.HostChecks
import Stor.Daemon.RuntimeConfig
import Stor.Daemon.SavedConfig
import Stor.Events.Bus
