import TaggedWire.Value.Checked

/-! What can go wrong between bytes, wire values and host values, and the text of each failure. -/
namespace TaggedWire

inductive DecodeError where
  | invalidTypeCode (byte : UInt8)
  | insufficientData (needed available : Nat)
  | negativeLength (length : Int32)
  | depthLimitExceeded (limit : Nat)
  | typeMismatch (expected actual : TypeCode)
  | missingRequiredField (id : Int16)
  | invalidText
  | invalidTimestamp (seconds : Int64)
  | misfit (m : Misfit)
deriving DecidableEq

/-- Everything but a misfit is introduced as a decoding failure. -/
def DecodeError.message : DecodeError → String
  | .invalidTypeCode b => "decode error: invalid type ID: 0x" ++ String.ofList (Bytes.hexPair b)
  | .insufficientData needed available =>
    s!"decode error: not enough data: need {needed} bytes, have {available}"
  | .negativeLength n => s!"decode error: negative length: {n.toInt}"
  | .depthLimitExceeded limit => s!"decode error: nesting exceeds the limit of {limit} levels"
  | .typeMismatch expected actual =>
    s!"decode error: type mismatch: expected {expected.name}, got {actual.name}"
  | .missingRequiredField id => s!"decode error: missing required field {id.toInt}"
  | .invalidText => "decode error: invalid UTF-8 in string"
  | .invalidTimestamp s => s!"decode error: timestamp out of range: {s.toInt}"
  | .misfit m => m.message

inductive EncodeError where
  /-- A length or count is written in 31 bits. -/
  | lengthOverflow (length : Nat)
  /-- The host value does not have the type that it is to be written as. -/
  | notOfType (code : TypeCode)
  | misfit (m : Misfit)
deriving DecidableEq

def EncodeError.message : EncodeError → String
  | .lengthOverflow n => s!"encode error: length {n} exceeds the maximum of i32::MAX"
  | .notOfType code => s!"encode error: not a value that is written as {code.name}"
  | .misfit m => m.message

end TaggedWire
