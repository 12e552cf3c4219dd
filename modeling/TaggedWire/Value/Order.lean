import TaggedWire.Codec.Encode

/-! A fixed order for what has none: the elements of a set, and the items of a map by their keys, in ascending
order of their encodings, from the inside out. Lists and structs stay as they are. -/
namespace TaggedWire
namespace Value

def sortKey (v : Value) : Bytes := v.encode.toOption.getD []

def inOrder (vs : List Value) : List Value := vs.mergeSort fun v w => v.sortKey.le w.sortKey

def inKeyOrder (xs : List (Value × Value)) : List (Value × Value) :=
  xs.mergeSort fun x y => x.1.sortKey.le y.1.sortKey

mutual
def sorted : Value → Value
  | .struct fs => .struct (sortedFields fs)
  | .map k c xs => .map k c (inKeyOrder (sortedItems xs))
  | .set c vs => .set c (inOrder (sortedAll vs))
  | .list c vs => .list c (sortedAll vs)
  | .bool b => .bool b
  | .byte n => .byte n
  | .double bits => .double bits
  | .i16 n => .i16 n
  | .i32 n => .i32 n
  | .i64 n => .i64 n
  | .binary bs => .binary bs

def sortedFields : List Field → List Field
  | [] => []
  | (k, v) :: fs => (k, sorted v) :: sortedFields fs

def sortedItems : List (Value × Value) → List (Value × Value)
  | [] => []
  | (k, v) :: xs => (sorted k, sorted v) :: sortedItems xs

def sortedAll : List Value → List Value
  | [] => []
  | v :: vs => sorted v :: sortedAll vs
end

end Value
end TaggedWire
