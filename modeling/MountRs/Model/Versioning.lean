import MountRs.Model.Storage

/-! # Versions, publications and read leases

The records of `src/versioning.rs`. -/

namespace MountRs

open Except (failIf)

abbrev VolumeId := String

abbrev BlockStoreId := String

/-- The retry identity of a publication. -/
abbrev PublicationId := String

/-- Identity of a committed version in one volume. -/
structure VersionId where
  volume : VolumeId
  sequence : ℕ

instance : LinearOrder VersionId :=
  LinearOrder.lift' (fun id => toLex (id.volume, id.sequence)) fun a b h => by
    cases a
    cases b
    simpa using h

def VersionId.new (volume : VolumeId) (sequence : ℕ) : Result VersionId := do
  failIf (sequence = 0)
    ((FsError.new .einval).withMessage "version sequence must be positive")
  return { volume, sequence }

inductive VersionKind
  | initial
  | snapshot
  /-- A namespace that the caller supplied. -/
  | namespacePublication
  | restore
  | fork
deriving DecidableEq

/-! ## Committed versions -/

/-- A committed namespace with its place in the timeline. -/
structure VersionInfo where
  id : VersionId
  parent : Option VersionId
  restoredFrom : Option VersionId
  forkedFrom : Option VersionId
  kind : VersionKind
  ns : Namespace
  blockStoreId : BlockStoreId
  createdAtMs : ℕ
  durable : Bool
deriving DecidableEq

namespace VersionInfo

def validate (info : VersionInfo) : Result Unit := do
  failIf (info.id.sequence = 0)
    ((FsError.new .einval).withMessage "version sequence must be positive")
  failIf (info.parent.any fun parent => decide (parent.volume ≠ info.id.volume))
    ((FsError.new .einval).withMessage "version parent belongs to another volume")
  failIf (info.parent.any fun parent => decide (info.id.sequence ≤ parent.sequence))
    ((FsError.new .einval).withMessage "version parent must precede its child")
  failIf (info.restoredFrom.any fun source =>
      decide (source.volume = info.id.volume ∧ info.id.sequence ≤ source.sequence))
    ((FsError.new .einval).withMessage "restore source must precede the restored version")
  info.ns.validate

def validateForVolume (info : VersionInfo) (volume : VolumeId) : Result Unit := do
  failIf (info.id.volume ≠ volume)
    ((FsError.new .eio).withMessage "version belongs to another provider volume")
  info.validate
  forM (info.parent.toList ++ info.restoredFrom.toList) fun reference =>
    failIf (reference.volume ≠ volume)
      ((FsError.new .eio).withMessage "version ancestry crosses provider volumes")

end VersionInfo

structure VersionHead where
  version : VersionId
  revision : ℕ
deriving DecidableEq

/-! ## Publications -/

structure VersionPublication where
  expectedRevision : ℕ
  expectedParent : Option VersionId
  operationId : PublicationId
  ns : Namespace
  blockStoreId : BlockStoreId
  kind : VersionKind
  restoredFrom : Option VersionId
  forkedFrom : Option VersionId
  durable : Bool
deriving DecidableEq

namespace VersionPublication

def validate (publication : VersionPublication) (volume : VolumeId) : Result Unit := do
  failIf (publication.operationId = "" ∨ '\x00' ∈ publication.operationId.toList)
    ((FsError.new .einval).withMessage "publication id must be non-empty")
  failIf (publication.blockStoreId = "" ∨ '\x00' ∈ publication.blockStoreId.toList)
    ((FsError.new .einval).withMessage "publication block store id must be non-empty")
  publication.ns.validate
  failIf (publication.expectedParent.any fun parent => decide (parent.volume ≠ volume))
    ((FsError.new .einval).withMessage "expected version parent belongs to another volume")
  failIf (publication.restoredFrom.any fun source => decide (source.volume ≠ volume))
    ((FsError.new .einval).withMessage "restore source belongs to another volume")

/-- The payload of a retry is the committed one. The expected revision is not
compared, since the volume may have advanced. The source compares the encoded
namespaces, and equal namespaces are those with equal encodings. -/
def matchesCommitted (publication : VersionPublication) (committed : VersionInfo) : Bool :=
  publication.expectedParent = committed.parent ∧
    publication.restoredFrom = committed.restoredFrom ∧
    publication.forkedFrom = committed.forkedFrom ∧
    publication.blockStoreId = committed.blockStoreId ∧
    publication.kind = committed.kind ∧ publication.durable = committed.durable ∧
    publication.ns = committed.ns

end VersionPublication

/-! ## Read leases -/

/-- A pin that keeps a version while a view reads it. -/
structure ReadLease where
  volume : VolumeId
  version : VersionId
  viewId : String
  owner : String
  fence : ℕ
  expiresAtMs : ℕ
deriving DecidableEq

/-- The time to live in whole milliseconds. -/
structure ReadLeaseRequest where
  owner : String
  ttlMs : ℕ
deriving DecidableEq

def ReadLeaseRequest.validate (request : ReadLeaseRequest) : Result ℕ := do
  failIf (request.owner = "")
    ((FsError.new .einval).withMessage "read lease owner must not be empty")
  failIf (U64_MAX < request.ttlMs)
    ((FsError.new .eoverflow).withMessage "read lease TTL overflow")
  failIf (request.ttlMs = 0)
    ((FsError.new .einval).withMessage "read lease TTL must be positive")
  return request.ttlMs

end MountRs
