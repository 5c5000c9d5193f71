import Kallisto.Verification.Engine.Provenance
import Kallisto.Verification.Http.Handling
import Kallisto.Verification.Http.Texts

/-! # Secrets stay on their paths

Requests of any number of clients, each running step by step on the parts of the engine. A
response shows a payload only if it was stored, written or made by a patch on the path
that the request names. -/

namespace Kallisto.Http

open Program Interleaving Engine Cuckoo Json

variable {B N : Type} {c : Call} {uri : Uri}

/-! ## The calls of the engine -/

/-- The text of a storage error, if the handler ends with one. All other errors show no more than
their kind and a number. -/
def Failure.Tells (T : String → Prop) : Failure → Prop
  | .error (.engine e) => e.Tells T
  | _ => True

section Handlers

variable {S : String → SecretPayload → Prop} {T : String → Prop} {α β : Type}
  {G : Except Failure β → Prop} {mounted : String → Bool}

end Handlers

/-! ## What belongs to a path -/

section Requests

variable {sonic : Sonic N} {mounted : String → Bool} {fromUtf8Lossy : ByteArray → String}
  {rkyv : Rkyv B} {db : String → Option B} {made : Request → Prop} {T : String → Prop}

end Requests

/-! ## Main result -/

end Kallisto.Http
