import Kallisto.Library.Layers
import Kallisto.Model.HttpHandler

/-! # The server

A handler runs against the engine; every call of the engine is one step of it. -/

namespace Kallisto.Http

open Program Engine

variable {B : Type}

/-- The operation of the engine that a call stands for. -/
def operation (rkyv : Rkyv B) : (c : Call) → EngineM B (CallResult c)
  | .readMetadata path => Engine.readMetadata rkyv path
  | .readVersion path version => Engine.readVersion rkyv path version
  | .putVersion path payload cas => Engine.putVersion rkyv path payload cas
  | .softDelete path version => Engine.softDelete rkyv path version
  | .undelete path version => Engine.undelete rkyv path version
  | .destroyVersion path version => Engine.destroyVersion rkyv path version

/-- The choices of a call are those of its atomic calls, in turn; a healthy storage at time
one when none is left. -/
abbrev server (rkyv : Rkyv B) : System CallRet where
  State := KvEngine B
  Choice := List Choice
  Env := EnvStep
  exec s c choices := (system B).fed (inTurn (.at 1)) (operation rkyv c) s choices
  env := KvEngine.env

/-- A request handled alone. Its calls of the engine take the lists of choices in turn. -/
def handle {α : Type} (rkyv : Rkyv B) (s : KvEngine B) (handler : HttpM α)
    (choices : List (List Choice)) : Except Failure α × KvEngine B :=
  (server rkyv).fed (inTurn []) handler s choices

/-! ## Requests of many clients -/

/-- A request, under the name of the handler that its route leads to. The path index is
listed as it is when the request is served. -/
inductive Request where
  | readSecret (uri : Uri)
  | writeSecret (uri : Uri) (body : ByteArray)
  | patchSecret (uri : Uri) (body : ByteArray)
  | readSubkeys (uri : Uri)
  | deleteLatest (uri : Uri)
  | softDeleteVersions (uri : Uri) (body : ByteArray)
  | undeleteVersions (uri : Uri) (body : ByteArray)
  | destroyVersions (uri : Uri) (body : ByteArray)
  | readMetadata (listKeys : String → List String) (uri : Uri)

section Requests

variable {N : Type} (sonic : Sonic N) (mounted : String → Bool) (fromUtf8Lossy : ByteArray → String)

def handler : Request → HttpM Response
  | .readSecret uri => readSecret mounted uri
  | .writeSecret uri body => writeSecret sonic mounted fromUtf8Lossy uri body
  | .patchSecret uri body => patchSecret sonic mounted uri body
  | .readSubkeys uri => readSubkeys sonic mounted uri
  | .deleteLatest uri => deleteLatest mounted uri
  | .softDeleteVersions uri body => softDeleteVersions sonic mounted uri body
  | .undeleteVersions uri body => undeleteVersions sonic mounted uri body
  | .destroyVersions uri body => destroyVersions sonic mounted uri body
  | .readMetadata listKeys uri => readMetadata sonic mounted listKeys uri

/-- A request as a program over the atomic calls of the engine. -/
def serve (rkyv : Rkyv B) (req : Request) : Prog (Effect.Ret (B := B)) Failure Response :=
  (handler sonic mounted fromUtf8Lossy req).expand (operation rkyv)

end Requests

end Kallisto.Http
