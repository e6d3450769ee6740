import MountRs.Model.Storage
import Mathlib.Data.Prod.Lex

/-! # Directory delegation

`src/delegation.rs`: the transaction-local authority of the persisted MRC3
protocol. A method that takes `&mut self` returns the new state; on an error the
state is left as it was. -/

namespace MountRs

open Except (failIf okOr)

/-- The identity of a physical block authority. The tuple field is private, so
`fromBytes` makes every identity that was not deserialized. -/
structure ConcurrentBackingId where
  bytes : Vector UInt8 16
deriving DecidableEq

def ConcurrentBackingId.fromBytes (bytes : Vector UInt8 16) : Result ConcurrentBackingId := do
  failIf (bytes = Vector.replicate 16 0) (FsError.new .einval)
  return ⟨bytes⟩

structure GrantToken where
  root : InodeId
  owner : String
  fence : ℕ
deriving DecidableEq

namespace GrantToken

/-- The derived ordering compares the fields in declaration order. -/
def sortKey (token : GrantToken) : ℕ ×ₗ String ×ₗ ℕ :=
  toLex (token.root, toLex (token.owner, token.fence))

theorem sortKey_injective : Function.Injective sortKey := by
  intro s t h
  cases s
  cases t
  simp only [sortKey, EmbeddingLike.apply_eq_iff_eq, Prod.mk.injEq] at h
  simp [h]

instance : LinearOrder GrantToken := LinearOrder.lift' sortKey sortKey_injective

/-- What a session may never reuse. -/
def identity (token : GrantToken) : ℕ ×ₗ String := toLex (token.root, token.owner)

end GrantToken

structure DirectoryGrant where
  token : GrantToken
  orphanInodes : BTreeSet InodeId
deriving DecidableEq

structure DelegationState where
  backing : ConcurrentBackingId
  nextFence : ℕ
  grants : BTreeMap InodeId DirectoryGrant
  retired : BTreeSet GrantToken
deriving DecidableEq

def MAX_DELEGATION_IDENTITIES : ℕ := 4096

def denied (message : String) : FsError := (FsError.new .estale).withMessage message

variable (ns : Namespace)

/-- Every pop takes one of the root and the pushed entries, and a directory is
pushed out once. -/
def subtreeFuel : ℕ :=
  1 + (ns.nodes.keys.map fun inode => (ns.childrenAt inode).length).sum

def isDirectoryAt (inode : InodeId) : Bool :=
  (ns.nodes.get? inode).any fun node => node.data.isDirectory

/-- The inodes linked below a directory, unless an entry outside of it names one. -/
def subtree (ns : Namespace) (root : InodeId) : Result (BTreeSet InodeId) := do
  failIf (isDirectoryAt ns root = false) (denied "grant root is not a directory")
  let found := Worklist.explore ns.childrenAt (subtreeFuel ns) [root] ∅
  forM ns.nodes.entries fun binding =>
    failIf (binding.1 ∉ found ∧
        ∃ entry ∈ binding.2.data.entries, entry.inode ≠ root ∧ entry.inode ∈ found)
      (denied "subtree has an external hardlink")
  return found

namespace DelegationState

def new (backing : ConcurrentBackingId) : DelegationState :=
  { backing, nextFence := 1, grants := ∅, retired := ∅ }

variable (state : DelegationState)

/-- The retired tokens followed by those of the active grants. -/
def tokens : List GrantToken :=
  state.retired.keys ++ state.grants.values.map DirectoryGrant.token

/-- One iteration of the identity loop; the state is `(fences, identities)`. -/
def validateToken (nextFence : ℕ) (seen : BTreeSet ℕ × BTreeSet (ℕ ×ₗ String))
    (token : GrantToken) : Result (BTreeSet ℕ × BTreeSet (ℕ ×ₗ String)) := do
  failIf (token.owner = "" ∨ token.root = 0 ∨ token.fence = 0 ∨ nextFence ≤ token.fence ∨
      token.fence ∈ seen.1 ∨ token.identity ∈ seen.2)
    (denied "invalid or reused delegation identity")
  return (seen.1.add token.fence, seen.2.add token.identity)

def isUnlinkedOrphan (inode : InodeId) : Bool :=
  (ns.nodes.get? inode).any fun node => node.stats.nlink == 0 && !node.data.isDirectory

def claimInode (owned : BTreeSet InodeId) (inode : InodeId) : Result (BTreeSet InodeId) := do
  failIf (inode ∈ owned) (denied "overlapping directory grants")
  return owned.add inode

/-- One iteration of the grant loop; the state is `owned`. -/
def validateGrant (owned : BTreeSet InodeId)
    (binding : InodeId × DirectoryGrant) : Result (BTreeSet InodeId) := do
  failIf (binding.1 ≠ binding.2.token.root) (denied "grant key differs from root")
  let linked ← subtree ns binding.1
  forM binding.2.orphanInodes.keys fun inode =>
    failIf (isUnlinkedOrphan ns inode = false) (denied "invalid orphan ownership provenance")
  (linked.keys ++ binding.2.orphanInodes.keys).foldlM claimInode owned

/-- Validate hostile persisted authority before executing a transaction. -/
def validate : Result Unit := do
  ns.validate
  let _ ← ConcurrentBackingId.fromBytes state.backing.bytes
  failIf (state.nextFence = 0 ∨
      MAX_DELEGATION_IDENTITIES < state.grants.size + state.retired.size)
    (denied "invalid delegation fence or receipt capacity")
  let _ ← state.tokens.foldlM (validateToken state.nextFence) (∅, ∅)
  let _ ← state.grants.entries.foldlM (validateGrant ns) ∅

def checkout (root : InodeId) (owner : String) : Result (DirectoryGrant × DelegationState) := do
  state.validate ns
  failIf (owner = "") (FsError.new .einval)
  match state.grants.get? root with
  | some grant => do
    failIf (grant.token.owner ≠ owner) (denied "directory already owned")
    return (grant, state)
  | none => do
    failIf (∃ token ∈ state.retired.keys, token.root = root ∧ token.owner = owner)
      (denied "session identity already retired")
    failIf (MAX_DELEGATION_IDENTITIES ≤ state.grants.size + state.retired.size)
      (FsError.new .eoverflow)
    let next ← okOr (checkedAdd state.nextFence 1) (FsError.new .eoverflow)
    let claimed ← subtree ns root
    forM state.grants.values fun grant => do
      let linked ← subtree ns grant.token.root
      failIf (∃ inode ∈ claimed.keys, inode ∈ linked)
        (denied "ancestor or descendant already owned")
    let grant : DirectoryGrant :=
      { token := { root, owner, fence := state.nextFence }, orphanInodes := ∅ }
    return (grant, { state with grants := state.grants.insert root grant, nextFence := next })

/-- What two namespaces must share besides their nodes and allocator. -/
def headerChanged (old new : Namespace) : Bool :=
  old.formatVersion != new.formatVersion || old.root != new.root ||
    old.defaultUid != new.defaultUid || old.defaultGid != new.defaultGid ||
    old.umask != new.umask || old.defaultChunker != new.defaultChunker ||
    decide (new.nextInode < old.nextInode)

def identityChanged (old new : NodeMetadata) : Bool :=
  (old.stats.mode &&& S_IFMT) != (new.stats.mode &&& S_IFMT) || old.stats.dev != new.stats.dev ||
    old.stats.birthtimeMs != new.stats.birthtimeMs

/-- One iteration of the node-by-node comparison. -/
def authorizeInode (old new : Namespace) (authority after : BTreeSet InodeId) (inode : InodeId) :
    Result Unit :=
  if old.nodes.get? inode = new.nodes.get? inode then pure ()
  else match old.nodes.get? inode with
    | some oldNode => do
      failIf ((new.nodes.get? inode).any (identityChanged oldNode))
        (denied "existing inode identity mutation")
      failIf (inode ∉ authority) (denied "outside inode mutation")
      failIf ((new.nodes.get? inode).any (fun node => node.stats.nlink != 0) ∧ inode ∉ after)
        (denied "inode escaped owned subtree")
    | none =>
      failIf (inode < old.nextInode ∨ inode ∉ after)
        (denied "inode reuse or anonymous allocation")

/-- The inodes of `new` that `old` does not have, in increasing order. -/
def allocated (old new : Namespace) : List InodeId :=
  new.nodes.keys.filter fun inode => !old.nodes.contains inode

/-- Each newly allocated ID must continue the authoritative allocator's sequence. -/
def authorizeAllocation (old new : Namespace) : Result Unit := do
  let fresh := allocated old new
  let expectedNext ← okOr (checkedAdd old.nextInode fresh.length) (FsError.new .eoverflow)
  forM fresh.zipIdx fun indexed => do
    let expected ← okOr (checkedAdd old.nextInode indexed.2) (FsError.new .eoverflow)
    failIf (indexed.1 ≠ expected) (denied "sparse global inode allocation")
  failIf (new.nextInode ≠ expectedNext) (denied "unauthorized global allocator mutation")

/-- Complete comparison of the authoritative old and a hostile proposed namespace. -/
def authorizePublish (old new : Namespace) (token : GrantToken) : Result DelegationState := do
  state.validate old
  new.validate
  let grant ← okOr ((state.grants.get? token.root).filter fun grant => grant.token = token)
    (denied "stale directory token")
  failIf (headerChanged old new) (denied "namespace header mutation")
  let before ← subtree old token.root
  let after ← subtree new token.root
  let authority := before.addAll grant.orphanInodes.keys
  forM after.keys fun inode =>
    failIf (old.nodes.contains inode ∧ inode ∉ before)
      (denied "cross-boundary link or orphan resurrection")
  forM (old.nodes.keys ++ new.nodes.keys) (authorizeInode old new authority after)
  authorizeAllocation old new
  let orphans := authority.filter fun inode =>
    (new.nodes.get? inode).any fun node => node.stats.nlink == 0
  let candidate := { state with
    grants := state.grants.modify token.root fun grant => { grant with orphanInodes := orphans } }
  candidate.validate new
  return candidate

def checkin (state : DelegationState) (token : GrantToken) (ns : Namespace) :
    Result DelegationState := do
  state.validate ns
  if token ∈ state.retired then return state
  let grant ← okOr ((state.grants.get? token.root).filter fun grant => grant.token = token)
    (denied "stale checkin token")
  failIf (grant.orphanInodes ≠ ∅) (denied "open-unlinked provenance prevents checkin")
  return { state with
    grants := state.grants.erase token.root
    retired := state.retired.add token }

/-- Drop the nodes of a set of inodes. -/
def removeNodes (inodes : List InodeId) : Namespace :=
  { ns with nodes := inodes.foldl (fun nodes inode => nodes.erase inode) ns.nodes }

/-- Explicit crashed-owner recovery. -/
def recover (root : InodeId) (expectedFence : ℕ) (ns : Namespace) :
    Result (DelegationState × Namespace) := do
  state.validate ns
  failIf ((state.grants.get? root).any fun grant => grant.token.fence != expectedFence)
    (denied "recovery fence changed")
  if ∃ token ∈ state.retired.keys, token.root = root ∧ token.fence = expectedFence then
    return (state, ns)
  let grant ← okOr
    ((state.grants.get? root).filter fun grant => grant.token.fence = expectedFence)
    (denied "recovery fence changed")
  let candidate := removeNodes ns grant.orphanInodes.keys
  candidate.validate
  return ({ state with
    grants := state.grants.erase root
    retired := state.retired.add grant.token }, candidate)

end DelegationState

end MountRs
