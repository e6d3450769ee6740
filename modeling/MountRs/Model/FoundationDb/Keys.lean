import MountRs.Model.Storage

/-! # Keys of a FoundationDB volume

Every key of a volume starts with the volume's prefix and a NUL. Ranges end where `range_end` of
their start says. -/

namespace MountRs.FoundationDb

open Except

def FOUNDATIONDB_MAX_KEY_BYTES : ℕ := 10000

def KEY_SEPARATOR : List UInt8 := [0]

def asBytes (text : String) : List UInt8 := text.toUTF8.data.toList

def BLOCK_SUFFIX : List UInt8 := asBytes "block/"

/-- "sha256:" plus the hex digest. -/
def BLOCK_ID_TEXT_BYTES : ℕ := 7 + 64

def validatePrefix (volumePrefix : List UInt8) : Result Unit := do
  failIf (volumePrefix = []) ((FsError.new .einval).withMessage
    "FoundationDB volume prefix must not be empty")
  failIf (0 ∈ volumePrefix) ((FsError.new .einval).withMessage
    "FoundationDB volume prefix must not contain NUL")
  let blockKeyBytes := KEY_SEPARATOR.length + BLOCK_SUFFIX.length + BLOCK_ID_TEXT_BYTES
  failIf (FOUNDATIONDB_MAX_KEY_BYTES < volumePrefix.length + blockKeyBytes)
    ((FsError.new .enametoolong).withMessage "FoundationDB volume prefix is too long")

structure Keyspace where
  volumePrefix : List UInt8

/-- `to_be_bytes` of a number of `width` bytes. -/
def toBeBytes (width n : ℕ) : List UInt8 :=
  (List.range width).reverse.map fun k => UInt8.ofNat (n / 256 ^ k)

def metadataChunkKey (chunkPrefix : List UInt8) (index : UInt32) : List UInt8 :=
  chunkPrefix ++ toBeBytes 4 index.toNat

namespace Keyspace

variable (keys : Keyspace)

def key (suffix : List UInt8) : List UInt8 := keys.volumePrefix ++ KEY_SEPARATOR ++ suffix

def manifest : List UInt8 := keys.key (asBytes "meta/manifest")

def chunks : List UInt8 := keys.key (asBytes "meta/chunk/")

def lease : List UInt8 := keys.key (asBytes "meta/lease")

def fence : List UInt8 := keys.key (asBytes "meta/fence")

def writeMode : List UInt8 := keys.key (asBytes "meta/write-mode")

def metadataBacking : List UInt8 := keys.key (asBytes "meta/backing-id")

def leaseOracle : List UInt8 := keys.key (asBytes "meta/lease-oracle")

def flush : List UInt8 := keys.key (asBytes "flush")

def block (id : BlockId) : List UInt8 := keys.key BLOCK_SUFFIX ++ asBytes id

def blockAuthority : List UInt8 := keys.key (asBytes "block-authority")

def inodes : List UInt8 := keys.key (asBytes "meta/inode/")

def inodeKey (inode : InodeId) : List UInt8 := keys.inodes ++ toBeBytes 8 inode

def inodeTokens : List UInt8 := keys.key (asBytes "meta/inode-version/")

def inodeTokenKey (inode : InodeId) : List UInt8 := keys.inodeTokens ++ toBeBytes 8 inode

def delegation : List UInt8 := keys.key (asBytes "meta/delegation")

/-- The keys that the provider forms from a keyspace, the starts of its ranges among them. -/
inductive Produces : List UInt8 → Prop
  | manifest : Produces keys.manifest
  | chunks : Produces keys.chunks
  | chunk (index : UInt32) : Produces (metadataChunkKey keys.chunks index)
  | lease : Produces keys.lease
  | fence : Produces keys.fence
  | writeMode : Produces keys.writeMode
  | metadataBacking : Produces keys.metadataBacking
  | leaseOracle : Produces keys.leaseOracle
  | flush : Produces keys.flush
  | block (id : BlockId) : Produces (keys.block id)
  | blockAuthority : Produces keys.blockAuthority
  | inodes : Produces keys.inodes
  | inode (inode : InodeId) : Produces (keys.inodeKey inode)
  | inodeTokens : Produces keys.inodeTokens
  | inodeToken (inode : InodeId) : Produces (keys.inodeTokenKey inode)
  | delegation : Produces keys.delegation

end Keyspace

/-- The loop of `range_end` over the bytes before `index`, from the last one down. -/
def rangeEndLoop (bytes : List UInt8) : ℕ → Result (List UInt8)
  | 0 => .error ((FsError.new .eoverflow).withMessage "FoundationDB key prefix has no range end")
  | index + 1 =>
    if bytes.getD index 255 ≠ 255 then .ok (bytes.take index ++ [bytes.getD index 255 + 1])
    else rangeEndLoop bytes index

def rangeEnd (bytes : List UInt8) : Result (List UInt8) := rangeEndLoop bytes bytes.length

end MountRs.FoundationDb
