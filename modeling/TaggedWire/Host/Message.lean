import TaggedWire.Host.Wire
import TaggedWire.Codec.Protocol
import TaggedWire.Value.Order

/-! Messages: a record as the bytes of its struct. -/
namespace TaggedWire

def HostValue.encodeRecord (catalog : Catalog) (name : String) (x : HostValue) : Except EncodeError Bytes := do
  (← toWire catalog x (.record name)).encode

def Protocol.decodeRecord (p : Protocol) (catalog : Catalog) (name : String) (bs : Bytes) :
    Except DecodeError HostValue := do
  fromWire catalog (← p.decode .struct bs) (.record name)

namespace HostValue

/-- The wire form with sets and maps in the fixed order. -/
def sortedWire (catalog : Catalog) (t : HostType) (x : HostValue) : Except EncodeError Value :=
  return (← toWire catalog x t).sorted

def encodeSorted (catalog : Catalog) (name : String) (x : HostValue) : Except EncodeError Bytes := do
  (← sortedWire catalog (.record name) x).encode

/-- The same host value, its sets and maps listed in the order of the wire form. A value that is not of the
type stays as it is. -/
def sorted (catalog : Catalog) (t : HostType) (x : HostValue) : HostValue :=
  match sortedWire catalog t x with
  | .ok v => (fromWire catalog v t).toOption.getD x
  | .error _ => x

end HostValue
end TaggedWire
