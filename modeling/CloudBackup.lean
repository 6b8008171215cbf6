import CloudBackup.VersionServing
import CloudBackup.MetadataCrash
import CloudBackup.NameRelease
import CloudBackup.UploadRoundTrip
import CloudBackup.OutstandingTask
import CloudBackup.PipelinedStream
import CloudBackup.ResponseDelivery
import CloudBackup.ResponseFraming
import CloudBackup.NameLifecycle
import CloudBackup.TaskRing
import CloudBackup.PipeDeadlock
import CloudBackup.NotificationDelivery
import CloudBackup.CleanFlag
import CloudBackup.ListPointers
import CloudBackup.UploadIsolation
import CloudBackup.CleanRestart
import CloudBackup.RangeRequests
import CloudBackup.Routing
import CloudBackup.RejectedParts
import CloudBackup.UploadAnswer
import CloudBackup.DownloadProgress
import CloudBackup.StartupAgreement
import CloudBackup.FailedOperations
import CloudBackup.ResponseHeads
import CloudBackup.EntityTags
import CloudBackup.MediaTypes
import CloudBackup.BoundaryParameter
import CloudBackup.LinkNames
import CloudBackup.DirectChildren
import CloudBackup.UploadTermination
import CloudBackup.BackupService
import CloudBackup.ReadyInput
import CloudBackup.StoreAtomicity
import CloudBackup.ResponseStream
import CloudBackup.RingProgress
import CloudBackup.Confinement
import CloudBackup.StorageThread
