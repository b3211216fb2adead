import Montygo.Value.FreshEqual
import Montygo.Wire.RoundTrip
import Montygo.Wire.Readings

/-!
# A value that is decoded twice

The bytes of an encoded value give its canonical form, whenever they are decoded at all
(`canonical_of_decode`): a value that fails a check of the decoder is turned down, at any depth.
Each decoding builds its own value, so two of them hold no common pointer, and `Equal` takes them
and their parts for equal when there is none in the value and each dict finds its own values.
-/

namespace Montygo.Wire

open Go Value WireFormat Protowire Fallible

variable {P : Protowire} {b : Bytes} {v w : Object} {room : ℕ} {t : MessageType} {σ α : Type}
  {budget budget' : Budget}

/-! ## Values that fail a check -/

variable {info : TypeInfo} {attrs : Option (List (Object × Object))} {c : Object}

end Montygo.Wire
