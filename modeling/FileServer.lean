import FileServer.QueueOrder
import FileServer.QueueConservation
import FileServer.QueueDrain
import FileServer.Freshness
import FileServer.Authentication
import FileServer.Responses
import FileServer.ItemTypes
import FileServer.LineIndependence
import FileServer.LineFraming
import FileServer.Grammar
import FileServer.UserSerial
import FileServer.WakeUp
import FileServer.Mutexes
import FileServer.CommandRoundTrip
import FileServer.DownloadProtocol
import FileServer.UploadSafety
import FileServer.UploadLimit
import FileServer.UploadFaults
import FileServer.UploadDurability
import FileServer.LinkFreeWorkers
import FileServer.FsDownload
import FileServer.CodecRoundTrip
import FileServer.FileStore
import FileServer.FsPaths
import FileServer.Listing
import FileServer.InteractiveMode
import FileServer.QueueFifo
import FileServer.QueueRefinement
import FileServer.ConfigurationReading
import FileServer.FileFrameRound
import FileServer.ResponseFraming
import FileServer.Shutdown
import FileServer.Connections
import FileServer.Punctual
import FileServer.ListedVault
import FileServer.Accounts
import FileServer.ClientSession
import FileServer.ClientCalls
import FileServer.ConcurrentVault
