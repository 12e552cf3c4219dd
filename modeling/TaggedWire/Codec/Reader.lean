import TaggedWire.Codec.Error

/-! Reading from the front of a byte string. A read takes exactly the bytes that it needs, and where there are
fewer it fails and says how many it wanted and how many were left. -/
namespace TaggedWire

/-- A reader consumes a prefix of the bytes and hands on the rest. -/
abbrev Reader := StateT Bytes (Except DecodeError)

namespace Reader

/-- Fails unless `n` bytes are left; takes none of them. -/
def demand (n : Nat) : Reader Unit := fun bs =>
  if bs.holds n then .ok ((), bs) else .error (.insufficientData n bs.length)

def take (n : Nat) : Reader Bytes := fun bs =>
  if bs.holds n then .ok (bs.take n, bs.drop n) else .error (.insufficientData n bs.length)

theorem take_short {n : Nat} {bs : Bytes} (h : bs.length < n) :
    take n bs = .error (.insufficientData n bs.length) :=
  if_neg (by simpa using h)

/-- The unsigned number in the next `width` bytes. -/
def nat (width : Nat) : Reader Nat := return (← take width).toNat

def uint8 : Reader UInt8 := return UInt8.ofNat (← nat 1)

def uint64 : Reader UInt64 := return UInt64.ofNat (← nat 8)

def int8 : Reader Int8 := return (UInt8.ofNat (← nat 1)).toInt8

def int16 : Reader Int16 := return (UInt16.ofNat (← nat 2)).toInt16

def int32 : Reader Int32 := return (UInt32.ofNat (← nat 4)).toInt32

def int64 : Reader Int64 := return (UInt64.ofNat (← nat 8)).toInt64

/-- What `read` gives, `n` times over. -/
def times {α : Type} (read : Reader α) : Nat → Reader (List α)
  | 0 => return []
  | n + 1 => return (← read) :: (← times read n)

end Reader
end TaggedWire
