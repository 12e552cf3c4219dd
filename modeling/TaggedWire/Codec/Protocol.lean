import TaggedWire.Codec.Encode
import TaggedWire.Codec.Decode
import TaggedWire.Log

/-! The binary protocol: encoding as it stands, decoding under a limit on the nesting of structs and containers. -/
namespace TaggedWire

structure Protocol where
  maxDepth : Nat := 64
deriving DecidableEq

namespace Protocol

/-- The value of that code at the front of the bytes, and the bytes after it. -/
def decodePrefix (p : Protocol) (code : TypeCode) (bs : Bytes) : Except DecodeError (Value × Bytes) :=
  (Reader.value p.maxDepth p.maxDepth code).run bs

/-- Bytes after the value are ignored. -/
def decode (p : Protocol) (code : TypeCode) (bs : Bytes) : Except DecodeError Value :=
  (p.decodePrefix code bs).map Prod.fst

def failure (code : TypeCode) (bs : Bytes) (e : DecodeError) : Record :=
  ⟨.trace, "failed to decode value",
    [("error", e.message), ("ttype", code.name), ("len", toString bs.length)]⟩

/-- Decoding logs a failure and is silent otherwise. -/
def decodeTraced (p : Protocol) (code : TypeCode) (bs : Bytes) : Traced Record DecodeError Value :=
  match p.decode code bs with
  | .ok v => ⟨[], .ok v⟩
  | .error e => ⟨[failure code bs e], .error e⟩

end Protocol
end TaggedWire
