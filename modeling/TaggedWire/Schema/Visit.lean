import TaggedWire.Schema.Rewire

/-! Visits to the children of a descriptor, for where they are to be overwritten in place. A function is asked about one
child after the other, and what it answers is put where the child was. It may keep a state of its own from one question
to the next. Where it fails the visit ends: what was put in before stays in, and nothing more is asked. -/
namespace TaggedWire
namespace Schema

/-- What a visit leaves of the part that it went through: the part as it then is, the handles that were asked about, the
state that is kept, and the error that ended the visit early, if one did. -/
structure Visit (σ ε α : Type) where
  part : α
  asked : List Handle
  state : σ
  error : Option ε

namespace Visit
variable {σ ε α β : Type}

/-- A visit to one handle. Without an answer it stays where it is. -/
def place (f : Handle → EStateM ε σ Handle) (h : Handle) (s : σ) : Visit σ ε Handle :=
  match f h s with
  | .ok r s => ⟨r, [h], s, none⟩
  | .error e s => ⟨h, [h], s, some e⟩

def map (g : α → β) (v : Visit σ ε α) : Visit σ ε β := ⟨g v.part, v.asked, v.state, v.error⟩

/-- On to the next part; if the visit has ended, that part is left as it is. -/
def andThen (v : Visit σ ε α) (next : β) (visit : σ → Visit σ ε β) : Visit σ ε (α × β) :=
  match v.error with
  | some e => ⟨(v.part, next), v.asked, v.state, some e⟩
  | none =>
    let w := visit v.state
    ⟨(v.part, w.part), v.asked ++ w.asked, w.state, w.error⟩

def row (visit : α → σ → Visit σ ε α) : List α → σ → Visit σ ε (List α)
  | [], s => ⟨[], [], s, none⟩
  | a :: as, s => ((visit a s).andThen as fun s => row visit as s).map fun x => x.1 :: x.2

end Visit

variable {σ ε : Type}

def FieldDescriptor.visit (f : Handle → EStateM ε σ Handle) (fd : FieldDescriptor) (s : σ) :
    Visit σ ε FieldDescriptor :=
  (Visit.place f fd.type s).map fun h => { fd with type := h }

def Descriptor.visit (f : Handle → EStateM ε σ Handle) (d : Descriptor) (s : σ) : Visit σ ε Descriptor :=
  match d with
  | .list elem => (Visit.place f elem s).map .list
  | .set elem => (Visit.place f elem s).map .set
  | .map key value =>
    ((Visit.place f key s).andThen value fun s => Visit.place f value s).map fun x => .map x.1 x.2
  | .struct kind name fields => (Visit.row (FieldDescriptor.visit f) fields s).map (.struct kind name)
  | .typedef name target line => (Visit.place f target s).map fun h => .typedef name h line
  | .primitive _ | .enum .. | .reference .. => ⟨d, [], s, none⟩

end Schema
end TaggedWire
