import TaggedWire.Proofs.Codec.Spelling

/-! Encoding and spelling: the encoder succeeds on every value whose lengths can be written and gives a spelling of
it, and all other spellings become that one when the payload of every true bool is set to one. -/
namespace TaggedWire
namespace Value

theorem encodeLength_eq_ok_iff {n : Nat} {out : Bytes} :
    encodeLength n = .ok out ↔ n < lengthLimit ∧ out = Bytes.ofNat 4 n := ite_eq_ok_iff

def EncodesField (f : Field) (out : Bytes) : Prop := ∃ payload, out = f.1.encode ++ payload ∧ f.2.encode = .ok payload

def EncodesItem (x : Value × Value) (out : Bytes) : Prop :=
  ∃ key payload, out = key ++ payload ∧ x.1.encode = .ok key ∧ x.2.encode = .ok payload

theorem encodeAll_eq_ok_iff {vs : List Value} {out : Bytes} :
    encodeAll vs = .ok out ↔ InRow (fun v r => v.encode = .ok r) vs out := by
  induction vs generalizing out with
  | nil => simp [encodeAll, InRow, eq_comm]
  | cons v vs ih =>
    simp only [encodeAll, bind_eq_ok_iff, pure_eq_ok_iff, InRow, ih]
    constructor
    · rintro ⟨first, hv, rest, hvs, rfl⟩
      exact ⟨first, rest, rfl, hv, hvs⟩
    · rintro ⟨first, rest, rfl, hv, hvs⟩
      exact ⟨first, hv, rest, hvs, rfl⟩

theorem encodeFields_eq_ok_iff {fs : List Field} {out : Bytes} :
    encodeFields fs = .ok out ↔ InRow EncodesField fs out := by
  induction fs generalizing out with
  | nil => simp [encodeFields, InRow, eq_comm]
  | cons f fs ih =>
    simp only [encodeFields, bind_eq_ok_iff, pure_eq_ok_iff, InRow, EncodesField, ih]
    constructor
    · rintro ⟨payload, hv, rest, hfs, rfl⟩
      exact ⟨_, rest, rfl, ⟨payload, rfl, hv⟩, hfs⟩
    · rintro ⟨_, rest, rfl, ⟨payload, rfl, hv⟩, hfs⟩
      exact ⟨payload, hv, rest, hfs, rfl⟩

theorem encodeItems_eq_ok_iff {xs : List (Value × Value)} {out : Bytes} :
    encodeItems xs = .ok out ↔ InRow EncodesItem xs out := by
  induction xs generalizing out with
  | nil => simp [encodeItems, InRow, eq_comm]
  | cons x xs ih =>
    simp only [encodeItems, bind_eq_ok_iff, pure_eq_ok_iff, InRow, EncodesItem, ih]
    constructor
    · rintro ⟨key, hk, payload, hv, rest, hxs, rfl⟩
      exact ⟨_, rest, rfl, ⟨key, payload, rfl, hk, hv⟩, hxs⟩
    · rintro ⟨_, rest, rfl, ⟨key, payload, rfl, hk, hv⟩, hxs⟩
      exact ⟨key, hk, payload, hv, rest, hxs, rfl⟩

theorem encode_struct_eq_ok_iff {fs : List Field} {out : Bytes} :
    (Value.struct fs).encode = .ok out ↔ ∃ body, out = body ++ [TypeCode.stop] ∧ InRow EncodesField fs body := by
  simp only [encode, bind_eq_ok_iff, pure_eq_ok_iff, encodeFields_eq_ok_iff, and_comm]

theorem encode_map_eq_ok_iff {k c : TypeCode} {xs : List (Value × Value)} {out : Bytes} :
    (Value.map k c xs).encode = .ok out ↔ xs.length < lengthLimit ∧
      ∃ body, out = k.toByte :: c.toByte :: (Bytes.ofNat 4 xs.length ++ body) ∧ InRow EncodesItem xs body := by
  simp only [encode, bind_eq_ok_iff, pure_eq_ok_iff, encodeItems_eq_ok_iff, encodeLength_eq_ok_iff]
  constructor
  · rintro ⟨_, ⟨hn, rfl⟩, body, hxs, rfl⟩
    exact ⟨hn, body, rfl, hxs⟩
  · rintro ⟨hn, body, rfl, hxs⟩
    exact ⟨_, ⟨hn, rfl⟩, body, hxs, rfl⟩

theorem encode_set_eq_ok_iff {c : TypeCode} {vs : List Value} {out : Bytes} :
    (Value.set c vs).encode = .ok out ↔ vs.length < lengthLimit ∧
      ∃ body, out = c.toByte :: (Bytes.ofNat 4 vs.length ++ body) ∧ InRow (fun v r => v.encode = .ok r) vs body := by
  simp only [encode, bind_eq_ok_iff, pure_eq_ok_iff, encodeAll_eq_ok_iff, encodeLength_eq_ok_iff]
  constructor
  · rintro ⟨_, ⟨hn, rfl⟩, body, hvs, rfl⟩
    exact ⟨hn, body, rfl, hvs⟩
  · rintro ⟨hn, body, rfl, hvs⟩
    exact ⟨_, ⟨hn, rfl⟩, body, hvs, rfl⟩

/-- A list is written as a set with the same elements is. -/
theorem encode_list_eq (c : TypeCode) (vs : List Value) : (Value.list c vs).encode = (Value.set c vs).encode := by
  simp only [encode]

theorem encode_binary_eq_ok_iff {bs out : Bytes} :
    (Value.binary bs).encode = .ok out ↔ bs.length < lengthLimit ∧ out = Bytes.ofNat 4 bs.length ++ bs := by
  simp only [encode, bind_eq_ok_iff, pure_eq_ok_iff, encodeLength_eq_ok_iff]
  constructor
  · rintro ⟨_, ⟨hn, rfl⟩, rfl⟩
    exact ⟨hn, rfl⟩
  · rintro ⟨hn, rfl⟩
    exact ⟨_, ⟨hn, rfl⟩, rfl⟩

/-- The encoding of a value stands for it. -/
theorem spells_of_encode {v : Value} {out : Bytes} (h : v.encode = .ok out) : v.Spells out := by
  induction v generalizing out with
  | bool b =>
    refine ⟨if b then 1 else 0, ?_, by cases b <;> rfl⟩
    simpa [encode, eq_comm] using h
  | binary bs => exact encode_binary_eq_ok_iff.mp h
  | struct fs ih =>
    obtain ⟨body, rfl, hfs⟩ := encode_struct_eq_ok_iff.mp h
    refine ⟨body, rfl, spellsFields_iff.mpr (hfs.imp ?_)⟩
    rintro f hf _ ⟨payload, rfl, hv⟩
    exact ⟨payload, rfl, ih f hf hv⟩
  | map k c xs ih =>
    obtain ⟨hn, body, rfl, hxs⟩ := encode_map_eq_ok_iff.mp h
    refine ⟨hn, body, rfl, spellsItems_iff.mpr (hxs.imp ?_)⟩
    rintro x hx _ ⟨key, payload, rfl, hk, hv⟩
    exact ⟨key, payload, rfl, (ih x hx).1 hk, (ih x hx).2 hv⟩
  | set c vs ih =>
    obtain ⟨hn, body, rfl, hvs⟩ := encode_set_eq_ok_iff.mp h
    exact ⟨hn, body, rfl, spellsAll_iff.mpr (hvs.imp fun v hv _ => ih v hv)⟩
  | list c vs ih =>
    rw [encode_list_eq] at h
    obtain ⟨hn, body, rfl, hvs⟩ := encode_set_eq_ok_iff.mp h
    exact ⟨hn, body, rfl, spellsAll_iff.mpr (hvs.imp fun v hv _ => ih v hv)⟩
  | _ => simpa [encode, Spells, eq_comm] using h

theorem exists_encode {v : Value} (h : v.LengthsFit) : ∃ out, v.encode = .ok out := by
  induction v with
  | binary bs =>
    have hn : bs.length < lengthLimit := h (.binary bs) (by simp [nodes])
    exact ⟨_, encode_binary_eq_ok_iff.mpr ⟨hn, rfl⟩⟩
  | struct fs ih =>
    have hfs := lengthsFit_struct_iff.mp h
    obtain ⟨body, hbody⟩ : ∃ body, InRow EncodesField fs body := by
      apply InRow.exists_of_forall
      intro f hf
      obtain ⟨payload, hv⟩ := ih f hf (hfs f hf)
      exact ⟨_, payload, rfl, hv⟩
    exact ⟨_, encode_struct_eq_ok_iff.mpr ⟨body, rfl, hbody⟩⟩
  | map k c xs ih =>
    obtain ⟨hn, hxs⟩ := lengthsFit_map_iff.mp h
    obtain ⟨body, hbody⟩ : ∃ body, InRow EncodesItem xs body := by
      apply InRow.exists_of_forall
      intro x hx
      obtain ⟨key, hk⟩ := (ih x hx).1 (hxs x hx).1
      obtain ⟨payload, hv⟩ := (ih x hx).2 (hxs x hx).2
      exact ⟨_, key, payload, rfl, hk, hv⟩
    exact ⟨_, encode_map_eq_ok_iff.mpr ⟨hn, body, rfl, hbody⟩⟩
  | set c vs ih =>
    obtain ⟨hn, hvs⟩ := lengthsFit_set_iff.mp h
    obtain ⟨body, hbody⟩ := InRow.exists_of_forall fun v hv => ih v hv (hvs v hv)
    exact ⟨_, encode_set_eq_ok_iff.mpr ⟨hn, body, rfl, hbody⟩⟩
  | list c vs ih =>
    obtain ⟨hn, hvs⟩ := lengthsFit_list_iff.mp h
    obtain ⟨body, hbody⟩ := InRow.exists_of_forall fun v hv => ih v hv (hvs v hv)
    rw [encode_list_eq]
    exact ⟨_, encode_set_eq_ok_iff.mpr ⟨hn, body, rfl, hbody⟩⟩
  | _ => exact ⟨_, rfl⟩

mutual
/-- For each byte of the encoding, whether it is the payload of a bool. -/
def boolSpots : Value → List Bool
  | .bool _ => [true]
  | .byte _ => List.replicate 1 false
  | .double _ => List.replicate 8 false
  | .i16 _ => List.replicate 2 false
  | .i32 _ => List.replicate 4 false
  | .i64 _ => List.replicate 8 false
  | .binary bs => List.replicate (4 + bs.length) false
  | .struct fs => boolSpotsFields fs ++ [false]
  | .map _ _ xs => List.replicate 6 false ++ boolSpotsItems xs
  | .set _ vs => List.replicate 5 false ++ boolSpotsAll vs
  | .list _ vs => List.replicate 5 false ++ boolSpotsAll vs

def boolSpotsFields : List Field → List Bool
  | [] => []
  | (_, v) :: fs => List.replicate 3 false ++ boolSpots v ++ boolSpotsFields fs

def boolSpotsItems : List (Value × Value) → List Bool
  | [] => []
  | (k, v) :: xs => boolSpots k ++ boolSpots v ++ boolSpotsItems xs

def boolSpotsAll : List Value → List Bool
  | [] => []
  | v :: vs => boolSpots v ++ boolSpotsAll vs
end

theorem boolSpotsFields_eq (fs : List Field) :
    boolSpotsFields fs = fs.flatMap fun f => List.replicate 3 false ++ f.2.boolSpots := by
  induction fs with
  | nil => rfl
  | cons f fs ih => simp [boolSpotsFields, ih]

theorem boolSpotsItems_eq (xs : List (Value × Value)) :
    boolSpotsItems xs = xs.flatMap fun x => x.1.boolSpots ++ x.2.boolSpots := by
  induction xs with
  | nil => rfl
  | cons x xs ih => simp [boolSpotsItems, ih]

theorem boolSpotsAll_eq (vs : List Value) : boolSpotsAll vs = vs.flatMap boolSpots := by
  induction vs with
  | nil => rfl
  | cons v vs ih => simp [boolSpotsAll, ih]

end Value

/-- A byte as the encoder writes it: the payload of a true bool is one. -/
def normalByte (spot : Bool) (b : UInt8) : UInt8 := if spot && b != 0 then 1 else b

/-- The bytes with the payload of every true bool set to one. -/
def Normalises (spots : List Bool) (raw out : Bytes) : Prop :=
  spots.length = raw.length ∧ out = List.zipWith normalByte spots raw

namespace Normalises
variable {spots spots' : List Bool} {raw raw' out out' : Bytes}

theorem append (h : Normalises spots raw out) (h' : Normalises spots' raw' out') :
    Normalises (spots ++ spots') (raw ++ raw') (out ++ out') := by
  obtain ⟨hl, rfl⟩ := h
  obtain ⟨hl', rfl⟩ := h'
  exact ⟨by simp [hl, hl'], (List.zipWith_append hl).symm⟩

/-- Where there is no bool, no byte changes. -/
theorem replicate (raw : Bytes) {n : Nat} (h : raw.length = n) :
    Normalises (List.replicate n false) raw raw := by
  refine ⟨by simp [h], ?_⟩
  subst h
  induction raw with
  | nil => rfl
  | cons b raw ih => simpa [List.replicate_succ, normalByte] using ih

theorem length_eq (h : Normalises spots raw out) : out.length = raw.length := by
  obtain ⟨hl, rfl⟩ := h
  simp [hl]

/-- Only the payload of a bool changes, and only from a byte other than zero and one to one. -/
theorem of_getElem?_ne (h : Normalises spots raw out) {i : Nat} {b : UInt8} (hi : raw[i]? = some b)
    (hne : out[i]? ≠ some b) : spots[i]? = some true ∧ b ≠ 0 ∧ b ≠ 1 ∧ out[i]? = some 1 := by
  obtain ⟨hl, rfl⟩ := h
  have hi' : i < spots.length := by
    rw [hl]
    exact (List.getElem?_eq_some_iff.mp hi).1
  obtain ⟨s, hs⟩ : ∃ s, spots[i]? = some s := ⟨_, List.getElem?_eq_getElem hi'⟩
  simp only [List.getElem?_zipWith, hs, hi, normalByte] at hne ⊢
  cases s <;> by_cases hb : b = 0 <;> simp_all
  exact fun h₁ => hne h₁.symm

end Normalises

theorem InRow.exists_normalises {α : Type} {R S : α → Bytes → Prop} {spots : α → List Bool} {as : List α}
    {raw : Bytes} (h : InRow R as raw)
    (hRS : ∀ a ∈ as, ∀ r, R a r → ∃ out, S a out ∧ Normalises (spots a) r out) :
    ∃ out, InRow S as out ∧ Normalises (as.flatMap spots) raw out := by
  induction as generalizing raw with
  | nil =>
    obtain rfl : raw = [] := h
    exact ⟨[], rfl, rfl, rfl⟩
  | cons a as ih =>
    obtain ⟨first, rest, rfl, hr, hrest⟩ := h
    obtain ⟨o, ho, hn⟩ := hRS a (by simp) first hr
    obtain ⟨os, hos, hns⟩ := ih hrest fun b hb => hRS b (by simp [hb])
    exact ⟨o ++ os, ⟨o, os, rfl, ho, hos⟩, hn.append hns⟩

namespace Value

/-- Every spelling becomes the encoding. -/
theorem Spells.normalises {v : Value} {raw : Bytes} (h : v.Spells raw) :
    ∃ out, v.encode = .ok out ∧ Normalises v.boolSpots raw out := by
  induction v generalizing raw with
  | bool b =>
    obtain ⟨x, rfl, rfl⟩ := h
    refine ⟨_, rfl, rfl, ?_⟩
    by_cases hx : x = 0 <;> simp [boolSpots, normalByte, hx]
  | binary bs =>
    obtain ⟨hn, rfl⟩ := h
    exact ⟨_, encode_binary_eq_ok_iff.mpr ⟨hn, rfl⟩, .replicate _ (by simp)⟩
  | struct fs ih =>
    obtain ⟨body, rfl, hfs⟩ := h
    obtain ⟨out, hout, hn⟩ := (spellsFields_iff.mp hfs).exists_normalises (S := EncodesField) (by
      rintro f hf _ ⟨payload, rfl, hv⟩
      obtain ⟨o, ho, hn⟩ := ih f hf hv
      exact ⟨_, ⟨o, rfl, ho⟩, (Normalises.replicate f.1.encode (FieldKey.length_encode f.1)).append hn⟩)
    refine ⟨_, encode_struct_eq_ok_iff.mpr ⟨out, rfl, hout⟩, ?_⟩
    rw [boolSpots, boolSpotsFields_eq]
    exact hn.append (.replicate [TypeCode.stop] rfl)
  | map k c xs ih =>
    obtain ⟨hl, body, rfl, hxs⟩ := h
    obtain ⟨out, hout, hn⟩ := (spellsItems_iff.mp hxs).exists_normalises (S := EncodesItem) (by
      rintro x hx _ ⟨key, payload, rfl, hk, hv⟩
      obtain ⟨o, ho, hn⟩ := (ih x hx).1 hk
      obtain ⟨o', ho', hn'⟩ := (ih x hx).2 hv
      exact ⟨_, ⟨o, o', rfl, ho, ho'⟩, hn.append hn'⟩)
    refine ⟨_, encode_map_eq_ok_iff.mpr ⟨hl, out, rfl, hout⟩, ?_⟩
    rw [boolSpots, boolSpotsItems_eq]
    exact (Normalises.replicate (k.toByte :: c.toByte :: Bytes.ofNat 4 xs.length) (by simp)).append hn
  | set c vs ih =>
    obtain ⟨hl, body, rfl, hvs⟩ := h
    obtain ⟨out, hout, hn⟩ := (spellsAll_iff.mp hvs).exists_normalises fun v hv _ hr => ih v hv hr
    refine ⟨_, encode_set_eq_ok_iff.mpr ⟨hl, out, rfl, hout⟩, ?_⟩
    rw [boolSpots, boolSpotsAll_eq]
    exact (Normalises.replicate (c.toByte :: Bytes.ofNat 4 vs.length) (by simp)).append hn
  | list c vs ih =>
    obtain ⟨hl, body, rfl, hvs⟩ := h
    obtain ⟨out, hout, hn⟩ := (spellsAll_iff.mp hvs).exists_normalises fun v hv _ hr => ih v hv hr
    rw [encode_list_eq]
    refine ⟨_, encode_set_eq_ok_iff.mpr ⟨hl, out, rfl, hout⟩, ?_⟩
    rw [boolSpots, boolSpotsAll_eq]
    exact (Normalises.replicate (c.toByte :: Bytes.ofNat 4 vs.length) (by simp)).append hn
  | _ =>
    obtain rfl := h
    exact ⟨_, rfl, .replicate _ (by simp)⟩

end Value
end TaggedWire
