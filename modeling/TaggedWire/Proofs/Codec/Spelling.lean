import TaggedWire.Proofs.Outcome
import TaggedWire.Proofs.Value.Shape

/-! Spellings: the byte strings that stand for a value, read off the format and not off the encoder or decoder.
The encoding is one of them. The others differ from it only in the payloads of bools, where every byte but zero
stands for true. -/
namespace TaggedWire

/-- The bytes are those of the items, one after the other. -/
def InRow {α : Type} (R : α → Bytes → Prop) : List α → Bytes → Prop
  | [], raw => raw = []
  | a :: as, raw => ∃ first rest, raw = first ++ rest ∧ R a first ∧ InRow R as rest

theorem InRow.forall_and_iff {α : Type} {P : α → Prop} {R : α → Bytes → Prop} {as : List α} {raw : Bytes} :
    InRow (fun a r => P a ∧ R a r) as raw ↔ (∀ a ∈ as, P a) ∧ InRow R as raw := by
  induction as generalizing raw with
  | nil => simp [InRow]
  | cons a as ih =>
    simp only [InRow, ih, List.forall_mem_cons]
    constructor
    · rintro ⟨first, rest, rfl, ⟨ha, hr⟩, has, hrest⟩
      exact ⟨⟨ha, has⟩, first, rest, rfl, hr, hrest⟩
    · rintro ⟨⟨ha, has⟩, first, rest, rfl, hr, hrest⟩
      exact ⟨first, rest, rfl, ⟨ha, hr⟩, has, hrest⟩

theorem InRow.imp {α : Type} {R S : α → Bytes → Prop} {as : List α} {raw : Bytes} (h : InRow R as raw)
    (hRS : ∀ a ∈ as, ∀ r, R a r → S a r) : InRow S as raw := by
  induction as generalizing raw with
  | nil => exact h
  | cons a as ih =>
    obtain ⟨first, rest, rfl, hr, hrest⟩ := h
    exact ⟨first, rest, rfl, hRS a (by simp) first hr, ih hrest fun b hb => hRS b (by simp [hb])⟩

theorem InRow.exists_of_mem {α : Type} {R : α → Bytes → Prop} {as : List α} {raw : Bytes} (h : InRow R as raw) {a : α}
    (ha : a ∈ as) : ∃ r, R a r := by
  induction as generalizing raw with
  | nil => cases ha
  | cons b as ih =>
    obtain ⟨first, rest, -, hr, hrest⟩ := h
    rcases List.mem_cons.mp ha with rfl | ha
    · exact ⟨first, hr⟩
    · exact ih hrest ha

theorem InRow.exists_of_forall {α : Type} {R : α → Bytes → Prop} {as : List α} (h : ∀ a ∈ as, ∃ r, R a r) :
    ∃ raw, InRow R as raw := by
  induction as with
  | nil => exact ⟨[], rfl⟩
  | cons a as ih =>
    obtain ⟨first, hr⟩ := h a (by simp)
    obtain ⟨rest, hrest⟩ := ih fun b hb => h b (by simp [hb])
    exact ⟨first ++ rest, first, rest, rfl, hr, hrest⟩

/-- Items of at least `n` bytes each take at least `n` bytes times their number. -/
theorem InRow.length_le {α : Type} {R : α → Bytes → Prop} {as : List α} {raw : Bytes} {n : Nat}
    (h : InRow R as raw) (hn : ∀ a ∈ as, ∀ r, R a r → n ≤ r.length) : as.length * n ≤ raw.length := by
  induction as generalizing raw with
  | nil => simp
  | cons a as ih =>
    obtain ⟨first, rest, rfl, hr, hrest⟩ := h
    have h₁ := hn a (by simp) first hr
    have h₂ := ih hrest fun b hb => hn b (by simp [hb])
    simp only [List.length_cons, Nat.succ_mul, List.length_append]
    omega

theorem FieldKey.length_encode (k : FieldKey) : k.encode.length = 3 := by simp [FieldKey.encode]

namespace Value

mutual
def Spells : Value → Bytes → Prop
  | .bool b, raw => ∃ x : UInt8, raw = [x] ∧ b = (x != 0)
  | .byte n, raw => raw = Bytes.ofNat 1 n.toUInt8.toNat
  | .double bits, raw => raw = Bytes.ofNat 8 bits.toNat
  | .i16 n, raw => raw = Bytes.ofNat 2 n.toUInt16.toNat
  | .i32 n, raw => raw = Bytes.ofNat 4 n.toUInt32.toNat
  | .i64 n, raw => raw = Bytes.ofNat 8 n.toUInt64.toNat
  | .binary bs, raw => bs.length < lengthLimit ∧ raw = Bytes.ofNat 4 bs.length ++ bs
  | .struct fs, raw => ∃ body, raw = body ++ [TypeCode.stop] ∧ SpellsFields fs body
  | .map k c xs, raw => xs.length < lengthLimit ∧
      ∃ body, raw = k.toByte :: c.toByte :: (Bytes.ofNat 4 xs.length ++ body) ∧ SpellsItems xs body
  | .set c vs, raw => vs.length < lengthLimit ∧
      ∃ body, raw = c.toByte :: (Bytes.ofNat 4 vs.length ++ body) ∧ SpellsAll vs body
  | .list c vs, raw => vs.length < lengthLimit ∧
      ∃ body, raw = c.toByte :: (Bytes.ofNat 4 vs.length ++ body) ∧ SpellsAll vs body

def SpellsFields : List Field → Bytes → Prop
  | [], raw => raw = []
  | (k, v) :: fs, raw =>
    ∃ payload rest, raw = k.encode ++ payload ++ rest ∧ Spells v payload ∧ SpellsFields fs rest

def SpellsItems : List (Value × Value) → Bytes → Prop
  | [], raw => raw = []
  | (k, v) :: xs, raw =>
    ∃ key payload rest, raw = key ++ payload ++ rest ∧ Spells k key ∧ Spells v payload ∧ SpellsItems xs rest

def SpellsAll : List Value → Bytes → Prop
  | [], raw => raw = []
  | v :: vs, raw => ∃ first rest, raw = first ++ rest ∧ Spells v first ∧ SpellsAll vs rest
end

/-- A field: its key, then a spelling of what it holds. -/
def SpellsField (f : Field) (raw : Bytes) : Prop := ∃ payload, raw = f.1.encode ++ payload ∧ f.2.Spells payload

/-- A map item: a spelling of its key, then one of its value. -/
def SpellsItem (x : Value × Value) (raw : Bytes) : Prop :=
  ∃ key payload, raw = key ++ payload ∧ x.1.Spells key ∧ x.2.Spells payload

theorem spellsAll_iff {vs : List Value} {raw : Bytes} : SpellsAll vs raw ↔ InRow Spells vs raw := by
  induction vs generalizing raw with
  | nil => simp [SpellsAll, InRow]
  | cons v vs ih => simp only [SpellsAll, InRow, ih]

theorem spellsFields_iff {fs : List Field} {raw : Bytes} : SpellsFields fs raw ↔ InRow SpellsField fs raw := by
  induction fs generalizing raw with
  | nil => simp [SpellsFields, InRow]
  | cons f fs ih =>
    simp only [SpellsFields, InRow, SpellsField, ih]
    constructor
    · rintro ⟨payload, rest, rfl, hv, hfs⟩
      exact ⟨_, rest, rfl, ⟨payload, rfl, hv⟩, hfs⟩
    · rintro ⟨_, rest, rfl, ⟨payload, rfl, hv⟩, hfs⟩
      exact ⟨payload, rest, rfl, hv, hfs⟩

theorem spellsItems_iff {xs : List (Value × Value)} {raw : Bytes} :
    SpellsItems xs raw ↔ InRow SpellsItem xs raw := by
  induction xs generalizing raw with
  | nil => simp [SpellsItems, InRow]
  | cons x xs ih =>
    simp only [SpellsItems, InRow, SpellsItem, ih]
    constructor
    · rintro ⟨key, payload, rest, rfl, hk, hv, hxs⟩
      exact ⟨_, rest, rfl, ⟨key, payload, rfl, hk, hv⟩, hxs⟩
    · rintro ⟨_, rest, rfl, ⟨key, payload, rfl, hk, hv⟩, hxs⟩
      exact ⟨key, payload, rest, rfl, hk, hv, hxs⟩

/-- No spelling is shorter than the least length of its type code. -/
theorem Spells.minLength_le {v : Value} {raw : Bytes} (h : v.Spells raw) :
    v.typeCode.minLength ≤ raw.length := by
  cases v with
  | bool b =>
    obtain ⟨x, rfl, -⟩ := h
    simp [typeCode, TypeCode.minLength]
  | struct fs =>
    obtain ⟨body, rfl, -⟩ := h
    simp [typeCode, TypeCode.minLength]
  | map k c xs =>
    obtain ⟨-, body, rfl, -⟩ := h
    simp [typeCode, TypeCode.minLength]
  | set c vs =>
    obtain ⟨-, body, rfl, -⟩ := h
    simp [typeCode, TypeCode.minLength]
  | list c vs =>
    obtain ⟨-, body, rfl, -⟩ := h
    simp [typeCode, TypeCode.minLength]
  | _ => simp_all [Spells, typeCode, TypeCode.minLength]

end Value
end TaggedWire
