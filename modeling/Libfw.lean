import Libfw.SegmentPaths
import Libfw.PrefixTables
import Libfw.VirtualPaths
import Libfw.PathCodecs
import Libfw.ZstdFormat
import Libfw.ZstdFrames
import Libfw.HalfOpenRanges
import Libfw.PosixStore
import Libfw.SteppedPrograms
import Libfw.StoragePaths
import Libfw.ReceivedRanges
import Libfw.UploadStore
import Libfw.ServerErrors
import Libfw.FsStorage
import Libfw.UploadHandlers
import Libfw.UploadSystem
import Libfw.SessionCommits
import Libfw.SessionRanges
import Libfw.AtomicPublish
import Libfw.GuardedRuns
import Libfw.TuneParams
import Libfw.TuningEngine
import Libfw.TuneRuns
import Libfw.TuneLimits
import Libfw.TuneDegraded
import Libfw.TuneCacheAge
import Libfw.TuneScopes
import Libfw.PermitPool
import Libfw.SoloPrograms
import Libfw.TransferPlans
import Libfw.NativeDownload
import Libfw.NativeResume
import Libfw.BrowserDownload
import Libfw.DownloadTermination
import Libfw.DownloadCompleteness
import Libfw.SdkDownload
import Libfw.ResumeHonesty
import Libfw.AtomicRequests
import Libfw.NativeUpload
import Libfw.UploadConvergence
import Libfw.FramedStreams
import Libfw.ZstdStreams
import Libfw.TuneCeilings
import Libfw.PathResolution
import Libfw.Base64Url
import Libfw.EncryptedPaths
import Libfw.RangeNegotiation
import Libfw.BinaryRecords
import Libfw.CyclicChecksums
import Libfw.ZipArchives
import Libfw.ZipWriter
import Libfw.SessionFiles
import Libfw.RequestFootprints
import Libfw.StaleSessions
import Libfw.PrivateViews
import Libfw.RemoteFolders
import Libfw.LocalFolders
import Libfw.FolderDownload
import Libfw.RequestStages
import Libfw.CreateRuns
import Libfw.CreateRaces
import Libfw.ExclusiveCreates
import Libfw.StorageConfinement
import Libfw.RangeBookkeeping
import Libfw.ChunkPlans
import Libfw.MissingRanges
import Libfw.PermitWakeups
import Libfw.LockRegistry
import Libfw.TuneRampEnds
import Libfw.NativeBatches
import Libfw.BrowserRedelivery
import Libfw.BlockProgress
import Libfw.SweepRaces
import Libfw.FailedUploads
import Libfw.MetaHeaders
import Libfw.RangeGrammar
import Libfw.TransferIsolation
import Libfw.CompressedStreams
import Libfw.CompressionLevels
import Libfw.CheckedCode
import Libfw.DecompressorSafety
import Libfw.RemoteWalks
import Libfw.FolderConfinement
import Libfw.UploadBounds
import Libfw.ServerRequests
import Libfw.SubjectIsolation
import Libfw.SessionLooks
import Libfw.SessionModes
import Libfw.SignedWords
import Libfw.ZipChecksums
import Libfw.PercentEncoding
import Libfw.UrlPaths
import Libfw.FolderUpload
import Libfw.DecidedPrograms
import Libfw.DownloadIsolation
import Libfw.UploadedDownloads
import Libfw.BrowserRounds
import Libfw.CompleteMediation
import Libfw.ClientRequests
import Libfw.CompressedBodies
import Libfw.HttpUploads
import Libfw.FrontedSystems
import Libfw.HttpRoundTrips
