import Kallisto.Library.Json.Printing
import Kallisto.Model.HttpHandler

/-! # Texts in the place of the JSON library

The decoder and the printer of JSON texts, as an instance of what the handlers use. -/

namespace Kallisto.Http

open Json

/-- A number without sign, fraction and exponent that fits 64 bits. -/
def numeralAsU64 (n : Numeral) : Option UInt64 :=
  if n.text.all Char.isDigit = true ∧ Nat.ofDigitChars 10 n.text 0 < 2 ^ 64 then
    some (.ofNat (Nat.ofDigitChars 10 n.text 0))
  else none

def texts : Sonic Numeral where
  fromStr := decode
  fromSlice body := (String.fromUTF8? body).bind decode
  toString := print
  get body key :=
    ((String.fromUTF8? body).bind decode).bind fun v => (v.pointer [key]).map print
  asU64 := numeralAsU64

example : parseVersionsList texts "\x7b\"versions\":[1, 99]\x7d".toUTF8 = [1, 99] := by
  decide +kernel

end Kallisto.Http
