import Kallisto.Library.Json.Value
import Kallisto.Model.EngineSystem
import Kallisto.Model.TimeFormat

/-! # The HTTP handlers

A handler is a program over the calls of the engine that its mount resolves to. -/

namespace Kallisto.Http

open Program Engine Json

/-! ## The JSON library -/

/-- `sonic_rs`. A number is of the library's own type. -/
structure Sonic (N : Type) where
  fromStr : String → Option (Value N)
  fromSlice : ByteArray → Option (Value N)
  toString : Value N → String
  /-- The raw text of a member of the top-level object. -/
  get : ByteArray → String → Option String
  asU64 : N → Option UInt64

variable {N : Type}

/-- `as_u64` of a value. -/
def Sonic.valueAsU64 (sonic : Sonic N) : Value N → Option UInt64
  | .number n => sonic.asU64 n
  | _ => none

/-! ## Requests and responses -/

structure Uri where
  path : String
  query : Option String

structure Response where
  status : ℕ
  contentType : Option String
  body : String
  deriving DecidableEq

/-- `StatusCode::OK` with a JSON body. -/
def Response.json (body : String) : Response :=
  ⟨200, some "application/json", body⟩

def Response.noContent : Response :=
  ⟨204, none, ""⟩

inductive AppError where
  | mountNotFound
  | engine (e : EngineError)
  deriving DecidableEq

/-- How a handler ends without a response of its own: with an error, or in a panic. -/
inductive Failure where
  | error (e : AppError)
  | unwrapNone
  deriving DecidableEq

/-! ## Calls of the engine -/

abbrev CallResult : Call → Type
  | .readMetadata _ => KeyMetadata
  | .readVersion _ _ => SecretPayload × VersionState
  | .putVersion _ _ _ => Unit
  | .softDelete _ _ => Unit
  | .undelete _ _ => Unit
  | .destroyVersion _ _ => Unit

abbrev CallRet (c : Call) : Type :=
  Except EngineError (CallResult c)

abbrev HttpM (α : Type) : Type :=
  Prog CallRet Failure α

def fail {α : Type} (e : AppError) : HttpM α :=
  Prog.fail (.error e)

/-- A call whose error the handler passes on. -/
def ask (c : Call) : HttpM (CallResult c) := do
  match ← (Prog.perform c : HttpM (CallRet c)) with
  | .ok x => return x
  | .error e => fail (.engine e)

def unwrap {α : Type} : Option α → HttpM α
  | some x => return x
  | none => Prog.fail .unwrapNone

/-! ## Addresses -/

/-- `splitn`: at most `n` parts. -/
def splitn (c : Char) : ℕ → List Char → List (List Char)
  | 0, _ => []
  | 1, cs => [cs]
  | n + 2, cs =>
    let first := cs.takeWhile (· ≠ c)
    match cs.dropWhile (· ≠ c) with
    | [] => [first]
    | _ :: rest => first :: splitn c (n + 1) rest

def stripLeading : List Char → List Char → Option (List Char)
  | [], cs => some cs
  | _ :: _, [] => none
  | p :: ps, c :: cs => if p = c then stripLeading ps cs else none

def extractMountAndPath (uriPath : String) (expectedAction : String) :
    Option (String × String) := do
  let pathWithoutVersion ← stripLeading "/v1/".toList uriPath.toList
  match splitn '/' 3 pathWithoutVersion with
  | mount :: action :: rest =>
    if String.ofList action ≠ expectedAction then none
    else
      match rest with
      | secretPath :: _ => some (String.ofList mount, String.ofList secretPath)
      | [] => none
  | _ => none

/-- What follows the first occurrence of a word. -/
def afterFirst (word : List Char) : List Char → Option (List Char)
  | [] => if word = [] then some [] else none
  | c :: cs =>
    match stripLeading word (c :: cs) with
    | some rest => some rest
    | none => afterFirst word cs

/-- `parse::<u32>`: digits, after a plus sign or not, of a number that fits. -/
def parseU32 (cs : List Char) : Option UInt32 :=
  let digits := if cs.head? = some '+' then cs.tail else cs
  if digits ≠ [] ∧ digits.all Char.isDigit = true ∧ Nat.ofDigitChars 10 digits 0 < 2 ^ 32 then
    some (.ofNat (Nat.ofDigitChars 10 digits 0))
  else none

def extractParam (name : String) (uri : Uri) : UInt32 :=
  ((uri.query.bind fun q => afterFirst name.toList q.toList).bind fun s =>
    parseU32 (s.takeWhile (· ≠ '&'))).getD 0

def extractVersionParam (uri : Uri) : UInt32 :=
  extractParam "version=" uri

def extractDepthParam (uri : Uri) : UInt32 :=
  extractParam "depth=" uri

def extractListParam (uri : Uri) : Bool :=
  (uri.query.map fun q => (afterFirst "list=true".toList q.toList).isSome).getD false

/-- The secret path of a request, if its mount is registered. -/
def resolve (mounted : String → Bool) (uri : Uri) (action : String) : HttpM String :=
  match extractMountAndPath uri.path action with
  | some (mount, path) => if mounted mount then return path else fail .mountNotFound
  | none => fail .mountNotFound

/-! ## Reading and writing -/

/-- The response is put together around the stored text. -/
def secretBody (payload : SecretPayload) (state : VersionState) : String :=
  let deletionTime :=
    if state.deletionTimeMs > 0 then "\"" ++ epochMsToRfc3339 state.deletionTimeMs ++ "\""
    else "\"\""
  let destroyed := if state.destroyed then "true" else "false"
  "\x7b\"data\":\x7b\"data\":" ++ payload.value ++ ",\"metadata\":\x7b\"version\":" ++
    toString state.versionId.toNat ++ ",\"created_time\":\"" ++
    epochMsToRfc3339 state.createdTimeMs ++ "\",\"deletion_time\":" ++ deletionTime ++
    ",\"destroyed\":" ++ destroyed ++ "\x7d\x7d\x7d"

/-- The items of a loop that pushes a comma before each one but the first. -/
def pushItems {α : Type} (item : α → String) (response : String) : ℕ → List α → String
  | _, [] => response
  | i, x :: xs =>
    let response := if i > 0 then response ++ "," else response
    pushItems item (response ++ item x) (i + 1) xs

/-- The response with the keys of a listing. -/
def listBody (keys : List String) : String :=
  pushItems (fun key => "\"" ++ key ++ "\"") "\x7b\"data\":\x7b\"keys\":[" 0 keys ++ "]\x7d\x7d"

/-- What the loop over the versions of a key pushes for one of them. -/
def versionBody (v : VersionState) : String :=
  "\"" ++ toString v.versionId.toNat ++ "\":\x7b" ++ "\"created_time\":\"" ++
    epochMsToRfc3339 v.createdTimeMs ++ "\",\"deletion_time\":" ++
    (if v.deletionTimeMs > 0 then epochMsToRfc3339 v.deletionTimeMs else "") ++
    "\",\"destroyed\":" ++ (if v.destroyed then "true" else "false") ++ "\x7d"

/-- The custom metadata as it is given to the library. -/
def customJson (customMetadata : List (String × String)) : Value N :=
  .object (customMetadata.map fun member => (member.1, .string member.2))

/-- The response with the metadata of a key. -/
def metadataBody (sonic : Sonic N) (metadata : KeyMetadata) : String :=
  let response := "\x7b\"data\":\x7b\"cas_required\":" ++
    (if metadata.casRequired then "true" else "false") ++ ",\"current_version\":" ++
    toString metadata.currentVersion.toNat ++ ",\"max_versions\":" ++
    toString metadata.maxVersions.toNat ++ ",\"delete_version_after\":\"" ++
    msToVaultDuration metadata.deleteVersionAfterMs ++ "\",\"custom_metadata\":" ++
    sonic.toString (customJson metadata.customMetadata) ++ ",\"versions\":\x7b"
  pushItems versionBody response 0 metadata.versions ++ "\x7d\x7d\x7d"

section Handlers

variable (sonic : Sonic N) (mounted : String → Bool)

def readSecret (uri : Uri) : HttpM Response := do
  let path ← resolve mounted uri "data"
  let (payload, state) ← ask (.readVersion path (extractVersionParam uri))
  return .json (secretBody payload state)

/-- The raw text of the member `data`, or else the whole body. -/
def secretValue (fromUtf8Lossy : ByteArray → String) (body : ByteArray) : String :=
  let value := (sonic.get body "data").getD ""
  if value = "" then fromUtf8Lossy body else value

def writeSecret (fromUtf8Lossy : ByteArray → String) (uri : Uri) (body : ByteArray) :
    HttpM Response := do
  let path ← resolve mounted uri "data"
  ask (.putVersion path ⟨secretValue sonic fromUtf8Lossy body, 0⟩ none)
  return .noContent

/-! ## Patching -/

/-- `as_object_mut`, after a value that is not an object was replaced by an empty one. -/
def objectMembers : Value N → List (String × Value N)
  | .object members => members
  | _ => []

/-- `get_mut(key).unwrap()`: the first member of the key is changed in place. -/
def updateMember (key : String) (f : Value N → Option (Value N)) :
    List (String × Value N) → Option (List (String × Value N))
  | [] => none
  | (key', v) :: members =>
    if key' = key then (f v).map fun v' => (key', v') :: members
    else (updateMember key f members).map ((key', v) :: ·)

def containsKey (key : String) (members : List (String × Value N)) : Bool :=
  members.any fun m => m.1 = key

mutual

/-- The value left in the target; no value stands for a panic. -/
def jsonMergePatch (target : Value N) : Value N → Option (Value N)
  | .object patch => (mergeLoop (objectMembers target) patch).map .object
  | .null => some .null
  | .bool b => some (.bool b)
  | .number n => some (.number n)
  | .string s => some (.string s)
  | .array items => some (.array items)
termination_by structural patch => patch

def mergeLoop (target : List (String × Value N)) :
    List (String × Value N) → Option (List (String × Value N))
  | [] => some target
  | (key, value) :: rest =>
    if value.isNull then mergeLoop (eraseMember key target) rest
    else
      let target := if containsKey key target then target else target ++ [(key, .object [])]
      (updateMember key (fun t => jsonMergePatch t value) target).bind fun target =>
        mergeLoop target rest
termination_by structural patch => patch

end

/-- `options.cas`, cut to 32 bits. -/
def optionsCas (body : Value N) : Option UInt32 :=
  (((body.pointer ["options"]).bind fun opts => opts.pointer ["cas"]).bind
    sonic.valueAsU64).map UInt64.toUInt32

/-- The patch of a body: its member `data`, or else the whole. -/
def patchData (body : Value N) : Value N :=
  (body.pointer ["data"]).getD body

/-- The value of a stored text; a text that is not JSON counts as an empty object. -/
def currentValue (text : String) : Value N :=
  (sonic.fromStr text).getD (.object [])

def patchBody (state : VersionState) : String :=
  "\x7b\"data\":\x7b\"version\":" ++ toString state.versionId.toNat ++ ",\"created_time\":\"" ++
    epochMsToRfc3339 state.createdTimeMs ++
    "\",\"deletion_time\":\"\",\"destroyed\":false\x7d\x7d"

def patchSecret (uri : Uri) (body : ByteArray) : HttpM Response := do
  let path ← resolve mounted uri "data"
  let (currentPayload, _) ← ask (.readVersion path 0)
  match sonic.fromSlice body with
  | none => fail (.engine (.storageError "Invalid patch JSON"))
  | some patch =>
    let merged ← unwrap (jsonMergePatch (currentValue sonic currentPayload.value) (patchData patch))
    ask (.putVersion path ⟨sonic.toString merged, currentPayload.ttl⟩ (optionsCas sonic patch))
    let metaAfter ← ask (.readMetadata path)
    let latest ← unwrap metaAfter.versions.getLast?
    return .json (patchBody latest)

/-! ## Subkeys -/

mutual

/-- The depth is counted in 32 bits. -/
def stripToSubkeys (currentDepth maxDepth : UInt32) (value : Value N) : Value N :=
  if maxDepth > 0 ∧ currentDepth ≥ maxDepth then .null
  else
    match value with
    | .object members => .object (stripMembers (currentDepth + 1) maxDepth members)
    | _ => .null
termination_by structural value

def stripMembers (depth maxDepth : UInt32) : List (String × Value N) → List (String × Value N)
  | [] => []
  | (key, value) :: rest =>
    (key, if value.isObject then stripToSubkeys depth maxDepth value else .null) ::
      stripMembers depth maxDepth rest
termination_by structural members => members

end

def readSubkeys (uri : Uri) : HttpM Response := do
  let path ← resolve mounted uri "subkeys"
  let (payload, _) ← ask (.readVersion path (extractVersionParam uri))
  let value := stripToSubkeys 0 (extractDepthParam uri) (currentValue sonic payload.value)
  return .json ("\x7b\"data\":\x7b\"subkeys\":" ++ sonic.toString value ++ "\x7d\x7d")

/-! ## Deleting -/

/-- The numbers of the member `versions`, cut to 32 bits. -/
def parseVersionsList (body : ByteArray) : List UInt32 :=
  match ((sonic.fromSlice body).bind fun root => root.pointer ["versions"]).bind Value.asArray with
  | some items => items.filterMap fun item => (sonic.valueAsU64 item).map UInt64.toUInt32
  | none => []

def deleteLatest (uri : Uri) : HttpM Response := do
  let path ← resolve mounted uri "data"
  ask (.softDelete path 0)
  return .noContent

/-- The calls for the listed versions, up to the first error. -/
def forVersions (call : UInt32 → HttpM Unit) : List UInt32 → HttpM Unit
  | [] => return ()
  | version :: versions => do
    call version
    forVersions call versions

def versionsHandler (action : String) (call : String → UInt32 → HttpM Unit) (uri : Uri)
    (body : ByteArray) : HttpM Response := do
  let path ← resolve mounted uri action
  forVersions (call path) (parseVersionsList sonic body)
  return .noContent

def softDeleteVersions (uri : Uri) (body : ByteArray) : HttpM Response :=
  versionsHandler sonic mounted "delete" (fun path version => ask (.softDelete path version)) uri
    body

def undeleteVersions (uri : Uri) (body : ByteArray) : HttpM Response :=
  versionsHandler sonic mounted "undelete" (fun path version => ask (.undelete path version)) uri
    body

def destroyVersions (uri : Uri) (body : ByteArray) : HttpM Response :=
  versionsHandler sonic mounted "destroy" (fun path version => ask (.destroyVersion path version))
    uri body

/-! ## Metadata -/

/-- The listing of a path is the engine's at the time of the request. -/
def readMetadata (listKeys : String → List String) (uri : Uri) : HttpM Response := do
  let path ← resolve mounted uri "metadata"
  if extractListParam uri then
    return .json (listBody (listKeys path))
  else
    let metadata ← ask (.readMetadata path)
    return .json (metadataBody sonic metadata)

end Handlers

/-! ## Errors -/

def AppError.statusAndMessage : AppError → ℕ × String
  | .mountNotFound => (404, "Mount path not found")
  | .engine e =>
    match e with
    | .notFound => (404, "Secret not found")
    | .softDeleted => (404, "Secret soft-deleted")
    | .destroyed => (404, "Key destroyed")
    | .invalidVersion v => (404, "Invalid version: " ++ toString v.toNat)
    | .casMismatch _ _ => (409, "CAS mismatch")
    | .storageError msg => (500, msg)
    | .queueFull => (503, "Write queue full")

def AppError.intoResponse (e : AppError) : Response :=
  let (status, errMsg) := e.statusAndMessage
  ⟨status, some "application/json", "\x7b\"errors\":[\"" ++ errMsg ++ "]\x7d"⟩

end Kallisto.Http
