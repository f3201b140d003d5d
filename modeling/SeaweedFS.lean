import SeaweedFS.Util.Proof.LogOffsets
import SeaweedFS.Util.Proof.LogReader
import SeaweedFS.Storage.Proof.VolumeWorker
import SeaweedFS.Storage.Proof.Commit
import SeaweedFS.Storage.ErasureCoding.Proof.EcVolume
import SeaweedFS.Storage.ErasureCoding.Proof.ToVolume
import SeaweedFS.Storage.ErasureCoding.Proof.ShardsInfo
import SeaweedFS.Filer.Proof.Ties
import SeaweedFS.Filer.Proof.ReadDataAt
import SeaweedFS.Filer.Proof.ChunkManifest
import SeaweedFS.Mount.PageWriter.Proof.UploadPipeline
import SeaweedFS.TagIndex.Proof.AllTagged
import SeaweedFS.TagIndex.Proof.Query
import SeaweedFS.Filer.Proof.Stream
import SeaweedFS.S3.Proof.Multipart
import SeaweedFS.Filer.Proof.DeleteEntry
import SeaweedFS.S3.PolicyEngine.Proof.Variables
import SeaweedFS.S3.PolicyEngine.Proof.Conditions
import SeaweedFS.Iam.Proof.Policy
import SeaweedFS.S3.Proof.ChunkedReader
import SeaweedFS.Filer.Redis3.Proof.ItemList
import SeaweedFS.Shell.Proof.VolumeMerge
import SeaweedFS.Mount.Proof.InodeToPath
import SeaweedFS.Mq.Proof.Offset
import SeaweedFS.Mq.Kafka.Proof.FlexibleVersions
import SeaweedFS.Mq.PubBalancer.Proof.Repair
import SeaweedFS.Filer.Proof.Listing
