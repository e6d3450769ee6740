import MountRs.Verification.Delegation.Identity
import MountRs.Verification.Delegation.Fencing
import MountRs.Verification.Delegation.Orphans
import MountRs.Verification.Versioned.Publications
import MountRs.Verification.View.Safety
import MountRs.Verification.FoundationDb.Leases
import MountRs.Verification.Reclamation.Safety
import MountRs.Verification.Locking.Progress
import MountRs.Verification.Guarded.Atomicity
import MountRs.Verification.Nfs.Shares
import MountRs.Verification.Nfs.AtMostOnce
import MountRs.Verification.S3.Put
import MountRs.Verification.S3.Multipart
import MountRs.Verification.WebDav.Unmapped
import MountRs.Verification.S3.Streaming
import MountRs.Verification.Persist
import MountRs.Verification.KeyValue
import MountRs.Verification.Chunked.Truncation
import MountRs.Verification.Versioned.Historical
import MountRs.Verification.P9.Table
import MountRs.Verification.FoundationDb.Keys
import MountRs.Verification.BlobCache
import MountRs.Verification.MemFs
import MountRs.Verification.Remote
import MountRs.Verification.S3.Registry
