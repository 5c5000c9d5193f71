import Kallisto.Library.Program

/-! # The versioned key-value engine

The engine keeps a metadata record and one payload record per version for each path,
in a cache over RocksDB. Each call on the cache, on RocksDB, on the write queue, on the
clock and on the sync mode is one atomic step; the public operations are programs over
these calls. -/

namespace Kallisto.Engine

open Program

/-! ## Data -/

inductive EngineError where
  | notFound
  | softDeleted
  | destroyed
  | storageError (message : String)
  | invalidVersion (version : UInt32)
  | casMismatch (expected actual : UInt32)
  | queueFull
  deriving DecidableEq, Repr

structure VersionState where
  createdTimeMs : UInt64
  deletionTimeMs : UInt64
  versionId : UInt32
  destroyed : Bool
  deriving DecidableEq, Repr

structure KeyMetadata where
  currentVersion : UInt32
  maxVersions : UInt32
  casRequired : Bool
  deleteVersionAfterMs : UInt64
  customMetadata : List (String × String)
  versions : List VersionState
  deriving DecidableEq, Repr

/-- `KeyMetadata::default()`. -/
def KeyMetadata.default : KeyMetadata :=
  ⟨0, 0, false, 0, [], []⟩

structure SecretPayload where
  value : String
  ttl : UInt64
  deriving DecidableEq, Repr

/-- The serialisation crate. `archivedMetadata` and `archivedPayload` read the records
in place, without validation. -/
structure Rkyv (B : Type) where
  metadataToBytes : KeyMetadata → Except String B
  payloadToBytes : SecretPayload → Except String B
  archivedMetadata : B → KeyMetadata
  archivedPayload : B → SecretPayload

inductive SyncMode where
  | immediate
  | batch
  deriving DecidableEq, Repr

inductive QueueError where
  | full
  | empty
  deriving DecidableEq, Repr

/-- A raw write. The worker moves it into its batch unchanged. -/
inductive AsyncOp (B : Type) where
  | put (key : String) (value : B)
  | delete (key : String)
  deriving DecidableEq, Repr

/-! ## Atomic calls -/

inductive Effect (B : Type) where
  | cacheLookup (key : String)
  | cacheInsert (key : String) (payload : B)
  | cacheRemove (key : String)
  | getRaw (key : String)
  | putRaw (key : String) (value : B)
  | delRaw (key : String)
  | enqueue (op : AsyncOp B)
  | getSyncMode
  | nowMs
  | insertPathIfAbsent (path : String)

/-- What a call returns. The results of `CuckooTable::insert`, `remove` and
`insert_path_if_absent` are ignored by the engine. -/
def Effect.Ret {B : Type} : Effect B → Type
  | .cacheLookup _ => Option B
  | .cacheInsert _ _ => Unit
  | .cacheRemove _ => Unit
  | .getRaw _ => Except String (Option B)
  | .putRaw _ _ => Except String Unit
  | .delRaw _ => Except String Unit
  | .enqueue _ => Except QueueError Unit
  | .getSyncMode => SyncMode
  | .nowMs => UInt64
  | .insertPathIfAbsent _ => Unit

abbrev EngineM (B α : Type) : Type :=
  Prog (Effect.Ret (B := B)) EngineError α

section Calls

variable {B : Type}

def cacheLookup (key : String) : EngineM B (Option B) :=
  Prog.perform (Effect.cacheLookup key)

def cacheInsert (key : String) (payload : B) : EngineM B Unit :=
  Prog.perform (Effect.cacheInsert key payload)

def cacheRemove (key : String) : EngineM B Unit :=
  Prog.perform (Effect.cacheRemove key)

def getRaw (key : String) : EngineM B (Except String (Option B)) :=
  Prog.perform (Effect.getRaw key)

def putRaw (key : String) (value : B) : EngineM B (Except String Unit) :=
  Prog.perform (Effect.putRaw key value)

def delRaw (key : String) : EngineM B (Except String Unit) :=
  Prog.perform (Effect.delRaw key)

def enqueue (op : AsyncOp B) : EngineM B (Except QueueError Unit) :=
  Prog.perform (Effect.enqueue op)

def getSyncMode : EngineM B SyncMode :=
  Prog.perform Effect.getSyncMode

def nowMs : EngineM B UInt64 :=
  Prog.perform Effect.nowMs

def insertPathIfAbsent (path : String) : EngineM B Unit :=
  Prog.perform (Effect.insertPathIfAbsent path)

end Calls

/-! ## Keys -/

def buildMetaKey (path : String) : String :=
  "m:" ++ path

def buildVersionKey (path : String) (version : UInt32) : String :=
  "v:" ++ path ++ ":" ++ toString version.toNat

/-! ## Raw reads and writes -/

section Operations

variable {B : Type}

/-- A miss is filled from RocksDB in a later step. -/
def readRawOptimistic {R : Type} (key : String) (f : B → R) : EngineM B (Option R) := do
  match ← cacheLookup key with
  | some payload => return some (f payload)
  | none =>
    match ← getRaw key with
    | .error e => Prog.fail (.storageError ("RocksDB get error: " ++ e))
    | .ok (some disk) =>
      cacheInsert key disk
      return some (f disk)
    | .ok none => return none

def enqueueOrExecute (op : AsyncOp B) : EngineM B Unit := do
  match ← getSyncMode with
  | .immediate =>
    match op with
    | .put key value =>
      match ← putRaw key value with
      | .error e => Prog.fail (.storageError ("Immediate write failed: " ++ e))
      | .ok () => return ()
    | .delete key =>
      match ← delRaw key with
      | .error e => Prog.fail (.storageError ("Immediate delete failed: " ++ e))
      | .ok () => return ()
  | .batch =>
    match ← enqueue op with
    | .error .full => Prog.fail .queueFull
    | _ => return ()

variable (rkyv : Rkyv B)

def serializePayload (payload : SecretPayload) : EngineM B B :=
  match rkyv.payloadToBytes payload with
  | .error e => Prog.fail (.storageError ("Payload serialization failed: " ++ e))
  | .ok bytes => return bytes

def serializeMetadata (metadata : KeyMetadata) : EngineM B B :=
  match rkyv.metadataToBytes metadata with
  | .error e => Prog.fail (.storageError ("Metadata serialization failed: " ++ e))
  | .ok bytes => return bytes

/-- The custom metadata is not copied. -/
def deserializeMetadata (data : B) : KeyMetadata :=
  { rkyv.archivedMetadata data with customMetadata := [] }

/-- The common end of all mutations: the metadata is written, then cached. -/
def storeMetadata (path : String) (metadata : KeyMetadata) : EngineM B Unit := do
  let serialized ← serializeMetadata rkyv metadata
  enqueueOrExecute (.put (buildMetaKey path) serialized)
  cacheInsert (buildMetaKey path) serialized

/-! ## Public operations -/

def readMetadata (path : String) : EngineM B KeyMetadata := do
  match ← readRawOptimistic (buildMetaKey path) (deserializeMetadata rkyv) with
  | some metadata => return metadata
  | none => Prog.fail .notFound

/-- The version a read is about and its state in the archived metadata. -/
def locate (version : UInt32) (metadata : KeyMetadata) : UInt32 × Option VersionState :=
  let target := if version = 0 then metadata.currentVersion else version
  (target, metadata.versions.find? fun v => v.versionId = target)

def readVersion (path : String) (version : UInt32) :
    EngineM B (SecretPayload × VersionState) := do
  let found ← readRawOptimistic (buildMetaKey path)
    fun bytes => locate version (rkyv.archivedMetadata bytes)
  match found with
  | none => Prog.fail .notFound
  | some (_, none) => Prog.fail (.invalidVersion version)
  | some (target, some v) =>
    if target = 0 then Prog.fail (.invalidVersion version)
    else if v.destroyed then Prog.fail .destroyed
    else if v.deletionTimeMs > 0 then Prog.fail .softDeleted
    else
      match ← readRawOptimistic (buildVersionKey path target) rkyv.archivedPayload with
      | some payload => return (payload, { v with versionId := target })
      | none => Prog.fail (.storageError "Missing version payload")

/-- A path without metadata starts from the default record. -/
def readMetadataOrDefault (path : String) : EngineM B KeyMetadata := do
  match ← (readMetadata rkyv path).attempt with
  | .ok m => return m
  | .error .notFound => return .default
  | .error e => Prog.fail e

def checkCas (cas : Option UInt32) (metadata : KeyMetadata) : EngineM B Unit :=
  match cas with
  | some expected =>
    if metadata.currentVersion ≠ expected then
      Prog.fail (.casMismatch expected metadata.currentVersion)
    else return ()
  | none => return ()

/-- The payload is written and cached before the metadata that names it. -/
def appendVersion (path : String) (payload : SecretPayload) (metadata : KeyMetadata) :
    EngineM B Unit := do
  let current := metadata.currentVersion + 1
  let created ← nowMs
  let serializedPayload ← serializePayload rkyv payload
  enqueueOrExecute (.put (buildVersionKey path current) serializedPayload)
  cacheInsert (buildVersionKey path current) serializedPayload
  storeMetadata rkyv path { metadata with
    currentVersion := current
    versions := metadata.versions ++ [⟨created, 0, current, false⟩] }
  insertPathIfAbsent path

def putVersion (path : String) (payload : SecretPayload) (cas : Option UInt32) :
    EngineM B Unit := do
  let metadata ← readMetadataOrDefault rkyv path
  checkCas cas metadata
  appendVersion rkyv path payload metadata

/-- The loop over the versions: the first one with the given number is changed. -/
def updateVersion (version : UInt32) (f : VersionState → VersionState) :
    List VersionState → List VersionState
  | [] => []
  | v :: rest => if v.versionId = version then f v :: rest else v :: updateVersion version f rest

def findVersion (version : UInt32) (metadata : KeyMetadata) : Option VersionState :=
  metadata.versions.find? fun v => v.versionId = version

def softDelete (path : String) (version : UInt32) : EngineM B Unit := do
  let metadata ← readMetadata rkyv path
  match findVersion version metadata with
  | none => Prog.fail (.invalidVersion version)
  | some _ =>
    let now ← nowMs
    storeMetadata rkyv path { metadata with
      versions := updateVersion version (fun v => { v with deletionTimeMs := now })
        metadata.versions }

def undelete (path : String) (version : UInt32) : EngineM B Unit := do
  let metadata ← readMetadata rkyv path
  match findVersion version metadata with
  | none => Prog.fail (.invalidVersion version)
  | some v =>
    if v.destroyed then Prog.fail .destroyed
    else
      storeMetadata rkyv path { metadata with
        versions := updateVersion version (fun v => { v with deletionTimeMs := 0 })
          metadata.versions }

def destroyVersion (path : String) (version : UInt32) : EngineM B Unit := do
  let metadata ← readMetadata rkyv path
  match findVersion version metadata with
  | none => Prog.fail (.invalidVersion version)
  | some _ =>
    enqueueOrExecute (.delete (buildVersionKey path version))
    cacheRemove (buildVersionKey path version)
    storeMetadata rkyv path { metadata with
      versions := updateVersion version (fun v => { v with destroyed := true })
        metadata.versions }

end Operations

end Kallisto.Engine
