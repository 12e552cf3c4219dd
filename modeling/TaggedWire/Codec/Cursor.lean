import TaggedWire.Codec.Reader

/-! A cursor: one read after the other from the front of the same bytes, also after reads that have failed. A reader has
nothing to hand on when it fails; a cursor then stands where the failure has left it. -/
namespace TaggedWire

abbrev Cursor := EStateM DecodeError Bytes

namespace Cursor

def take (n : Nat) : Cursor Bytes := do
  let left ← get
  if left.length < n then throw (.insufficientData n left.length)
  set (left.drop n)
  return left.take n

/-- What can be read in one go. -/
inductive Read where
  /-- That many bytes as they are, lent or shared with what is read from. -/
  | bytes (n : Nat)
  | uint8 | int8 | int16 | int32 | int64
  /-- A double is read as its bits. -/
  | double
deriving DecidableEq

namespace Read

def width : Read → Nat
  | .bytes n => n
  | .uint8 | .int8 => 1
  | .int16 => 2
  | .int32 => 4
  | .int64 | .double => 8

def Result : Read → Type
  | .bytes _ => Bytes
  | .uint8 => UInt8
  | .int8 => Int8
  | .int16 => Int16
  | .int32 => Int32
  | .int64 => Int64
  | .double => UInt64

/-- What a slice stands for, its first byte being the highest. -/
def ofSlice : (r : Read) → Bytes → r.Result
  | .bytes _, slice => slice
  | .uint8, slice => UInt8.ofNat slice.toNat
  | .int8, slice => (UInt8.ofNat slice.toNat).toInt8
  | .int16, slice => (UInt16.ofNat slice.toNat).toInt16
  | .int32, slice => (UInt32.ofNat slice.toNat).toInt32
  | .int64, slice => (UInt64.ofNat slice.toNat).toInt64
  | .double, slice => UInt64.ofNat slice.toNat

def perform (r : Read) : Cursor r.Result := return r.ofSlice (← take r.width)

/-- The same read as part of a reader. -/
def reader : (r : Read) → Reader r.Result
  | .bytes n => Reader.take n
  | .uint8 => Reader.uint8
  | .int8 => Reader.int8
  | .int16 => Reader.int16
  | .int32 => Reader.int32
  | .int64 => Reader.int64
  | .double => Reader.uint64

end Read

/-- A read that was made, with what was left before it. -/
structure Step where
  read : Read
  before : Bytes
  result : EStateM.Result DecodeError Bytes read.Result

namespace Step

def make (r : Read) (left : Bytes) : Step := ⟨r, left, r.perform left⟩

def succeeded (s : Step) : Bool :=
  match s.result with
  | .ok .. => true
  | .error .. => false

/-- What was left after it. -/
def after (s : Step) : Bytes :=
  match s.result with
  | .ok _ left | .error _ left => left

/-- What the cursor has moved over. -/
def slice (s : Step) : Bytes := s.before.take (s.before.length - s.after.length)

end Step

/-- The reads one after the other, and what is left in the end. -/
def session : List Read → Bytes → List Step × Bytes
  | [], left => ([], left)
  | r :: rs, left =>
    let step := Step.make r left
    let (steps, rest) := session rs step.after
    (step :: steps, rest)

/-- The slices of the reads that succeeded, put together. -/
def consumed (steps : List Step) : Bytes := (steps.filter Step.succeeded).flatMap Step.slice

end Cursor
end TaggedWire
