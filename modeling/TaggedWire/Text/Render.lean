import TaggedWire.Value
import TaggedWire.Decimal.Double
import TaggedWire.Text.Literal

/-! The readable form of a value. Numbers carry their width; a struct or container is a header and a block with
one entry a line, two spaces deeper, each followed by a comma; an empty block has nothing between its braces. -/
namespace TaggedWire
namespace Text

def padding (indent : Nat) : List Char := List.replicate (2 * indent) ' '

theorem padding_succ (indent : Nat) : padding (indent + 1) = padding indent ++ [' ', ' '] := by
  rw [padding, padding, Nat.mul_succ, ← List.replicate_append_replicate]
  rfl

/-- Every entry on a line of its own, one level deeper than `indent`. -/
def lines (indent : Nat) (entries : List (List Char)) : List Char :=
  entries.flatMap fun e => padding (indent + 1) ++ e ++ [',', '\n']

def block (indent : Nat) (entries : List (List Char)) : List Char :=
  if entries.isEmpty then ['{', '}']
  else '{' :: '\n' :: (lines indent entries ++ padding indent ++ ['}'])

def suffixed (n : Int) (suffix : String) : List Char := wholeNumber n ++ suffix.toList

/-- A container's kind and the codes declared for its entries. -/
def header (kind : String) (codes : List TypeCode) : List Char :=
  kind.toList ++ '<' :: ([',', ' '].intercalate (codes.map fun c => c.name.toList) ++ ['>', ' '])

mutual
/-- How a double is written is left open. -/
def render (double : UInt64 → List Char) (indent : Nat) : Value → List Char
  | .bool b => (if b then "true" else "false").toList
  | .byte n => suffixed n.toInt "i8"
  | .double bits => double bits ++ "f64".toList
  | .i16 n => suffixed n.toInt "i16"
  | .i32 n => suffixed n.toInt "i32"
  | .i64 n => suffixed n.toInt "i64"
  | .binary bs => Literal.ofBytes bs
  | .struct fs => "struct ".toList ++ block indent (renderFields double (indent + 1) fs)
  | .map k c xs => header "map" [k, c] ++ block indent (renderItems double (indent + 1) xs)
  | .set c vs => header "set" [c] ++ block indent (renderAll double (indent + 1) vs)
  | .list c vs => header "list" [c] ++ block indent (renderAll double (indent + 1) vs)

/-- A field is led by its id. -/
def renderFields (double : UInt64 → List Char) (indent : Nat) : List Field → List (List Char)
  | [] => []
  | (k, v) :: fs =>
    (wholeNumber k.id.toInt ++ ':' :: ' ' :: render double indent v) :: renderFields double indent fs

def renderItems (double : UInt64 → List Char) (indent : Nat) : List (Value × Value) → List (List Char)
  | [] => []
  | (k, v) :: xs =>
    (render double indent k ++ ':' :: ' ' :: render double indent v) :: renderItems double indent xs

def renderAll (double : UInt64 → List Char) (indent : Nat) : List Value → List (List Char)
  | [] => []
  | v :: vs => render double indent v :: renderAll double indent vs
end

section
variable (double : UInt64 → List Char) (indent : Nat)

theorem render_struct (fs : List Field) : render double indent (.struct fs) =
    "struct ".toList ++ block indent (renderFields double (indent + 1) fs) := rfl

theorem render_map (k c : TypeCode) (xs : List (Value × Value)) : render double indent (.map k c xs) =
    header "map" [k, c] ++ block indent (renderItems double (indent + 1) xs) := rfl

theorem render_set (c : TypeCode) (vs : List Value) : render double indent (.set c vs) =
    header "set" [c] ++ block indent (renderAll double (indent + 1) vs) := rfl

theorem render_list (c : TypeCode) (vs : List Value) : render double indent (.list c vs) =
    header "list" [c] ++ block indent (renderAll double (indent + 1) vs) := rfl

theorem renderFields_eq_map (fs : List Field) : renderFields double indent fs =
    fs.map fun f => wholeNumber f.1.id.toInt ++ ':' :: ' ' :: render double indent f.2 := by
  induction fs with
  | nil => rfl
  | cons f fs ih => rw [renderFields, ih, List.map_cons]

theorem renderItems_eq_map (xs : List (Value × Value)) : renderItems double indent xs =
    xs.map fun x => render double indent x.1 ++ ':' :: ' ' :: render double indent x.2 := by
  induction xs with
  | nil => rfl
  | cons x xs ih => rw [renderItems, ih, List.map_cons]

theorem renderAll_eq_map (vs : List Value) : renderAll double indent vs = vs.map (render double indent) := by
  induction vs with
  | nil => rfl
  | cons v vs ih => rw [renderAll, ih, List.map_cons]

end

end Text

def Value.toText (v : Value) : String := String.ofList (Text.render Double.text 0 v)

theorem Value.toList_toText (v : Value) : v.toText.toList = Text.render Double.text 0 v := String.toList_ofList

end TaggedWire
