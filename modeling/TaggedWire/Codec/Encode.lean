import TaggedWire.Codec.Error

/-! The binary form of a value. Numbers are big-endian and of fixed width; a length or count takes four bytes
with the sign bit clear; a container starts with the codes of its entries and their count; a struct is a
sequence of fields, each behind its code and id, up to a stop byte. The value's own code is not written. -/
namespace TaggedWire

/-- Lengths and counts take 31 bits. -/
def lengthLimit : Nat := 0x80000000

def encodeLength (n : Nat) : Except EncodeError Bytes :=
  if n < lengthLimit then .ok (Bytes.ofNat 4 n) else .error (.lengthOverflow n)

def FieldKey.encode (k : FieldKey) : Bytes := k.code.toByte :: Bytes.ofNat 2 k.id.toUInt16.toNat

namespace Value

mutual
def encode : Value → Except EncodeError Bytes
  | .bool b => .ok [if b then 1 else 0]
  | .byte n => .ok (Bytes.ofNat 1 n.toUInt8.toNat)
  | .double bits => .ok (Bytes.ofNat 8 bits.toNat)
  | .i16 n => .ok (Bytes.ofNat 2 n.toUInt16.toNat)
  | .i32 n => .ok (Bytes.ofNat 4 n.toUInt32.toNat)
  | .i64 n => .ok (Bytes.ofNat 8 n.toUInt64.toNat)
  | .binary bs => return (← encodeLength bs.length) ++ bs
  | .struct fs => return (← encodeFields fs) ++ [TypeCode.stop]
  | .map k c xs => return k.toByte :: c.toByte :: ((← encodeLength xs.length) ++ (← encodeItems xs))
  | .set c vs => return c.toByte :: ((← encodeLength vs.length) ++ (← encodeAll vs))
  | .list c vs => return c.toByte :: ((← encodeLength vs.length) ++ (← encodeAll vs))

def encodeFields : List Field → Except EncodeError Bytes
  | [] => .ok []
  | (k, v) :: fs => return k.encode ++ (← encode v) ++ (← encodeFields fs)

def encodeItems : List (Value × Value) → Except EncodeError Bytes
  | [] => .ok []
  | (k, v) :: xs => return (← encode k) ++ (← encode v) ++ (← encodeItems xs)

def encodeAll : List Value → Except EncodeError Bytes
  | [] => .ok []
  | v :: vs => return (← encode v) ++ (← encodeAll vs)
end

end Value
end TaggedWire
