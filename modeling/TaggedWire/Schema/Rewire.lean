import TaggedWire.Schema.Descriptor

/-! Rewiring: the children of a descriptor replaced, in order, and all else kept. -/
namespace TaggedWire
namespace Schema

def retype : List FieldDescriptor → List Handle → List FieldDescriptor
  | f :: fs, h :: hs => { f with type := h } :: retype fs hs
  | fs, _ => fs

/-- The children replaced from the first on; with fewer handles than children the last children stay. -/
def Descriptor.withChildren : Descriptor → List Handle → Descriptor
  | .list elem, hs => .list (hs.headD elem)
  | .set elem, hs => .set (hs.headD elem)
  | .map key value, hs => .map (hs.headD key) (hs.tail.headD value)
  | .struct kind name fields, hs => .struct kind name (retype fields hs)
  | .typedef name target line, hs => .typedef name (hs.headD target) line
  | d, _ => d

/-- What came of a rewiring: the descriptor as it then is, the children that were asked about, and the error that
ended it early, if one did. -/
structure Rewiring (ε : Type) where
  descriptor : Descriptor
  asked : List Handle
  error : Option ε

/-- The results of `f` up to its first failure. -/
def mapUntil {ε : Type} (f : Handle → Except ε Handle) : List Handle → List Handle × Option ε
  | [] => ([], none)
  | h :: hs =>
    match f h with
    | .error e => ([], some e)
    | .ok g => let (gs, e) := mapUntil f hs; (g :: gs, e)

/-- Puts `f` of each child in its place. Where `f` fails the rewiring ends: the children before are replaced, that
child and those after it are not. -/
def Descriptor.rewire {ε : Type} (f : Handle → Except ε Handle) (d : Descriptor) : Rewiring ε :=
  let (replaced, error) := mapUntil f d.children
  { descriptor := d.withChildren replaced
    asked := d.children.take (replaced.length + if error.isSome then 1 else 0)
    error := error }

end Schema
end TaggedWire
