import TaggedWire.Proofs.Codec.Decoding
import TaggedWire.Proofs.Codec.Encoding

/-! Spellings that nest deeper than the free levels are refused, and always for that reason: what stands before the
first part that nests too deep is read, and there the reading ends. So a spelling of a well-typed value has one of two
outcomes, which the depth of the value decides. -/
namespace TaggedWire
namespace Reader

variable {α β : Type} {x : Reader α} {f : α → Reader β} {bs mid : Bytes} {a : α} {e : DecodeError}

theorem bind_of_ok (hx : x bs = .ok (a, mid)) : (x >>= f) bs = f a mid := by
  change (x bs >>= fun p => f p.1 p.2) = _
  rw [hx]
  rfl

theorem bind_of_error (hx : x bs = .error e) : (x >>= f) bs = .error e := by
  change (x bs >>= fun p => f p.1 p.2) = _
  rw [hx]
  rfl

/-- The reader fails with the error on each string of `R`, whatever follows. -/
def Refuses (x : Reader α) (R : α → Bytes → Prop) (e : DecodeError) : Prop :=
  ∀ a raw rest, R a raw → x (raw ++ rest) = .error e

variable {P : α → Prop} {R : α → Bytes → Prop}

theorem times_error (hx : x.Accepts fun a raw => P a ∧ R a raw) (hr : x.Refuses (fun a raw => ¬ P a ∧ R a raw) e)
    {as : List α} {raw : Bytes} (hrow : InRow R as raw) (hbad : ∃ a ∈ as, ¬ P a) (rest : Bytes) :
    times x as.length (raw ++ rest) = .error e := by
  induction as generalizing raw with
  | nil =>
    obtain ⟨a, ha, -⟩ := hbad
    cases ha
  | cons a as ih =>
    obtain ⟨first, row, rfl, ha, hrow⟩ := hrow
    rw [List.append_assoc, List.length_cons, times]
    by_cases hp : P a
    · have hfirst : x (first ++ (row ++ rest)) = .ok (a, row ++ rest) := (hx _ _ _).mpr ⟨first, rfl, hp, ha⟩
      have hlater : ∃ b ∈ as, ¬ P b := by
        obtain ⟨b, hb, hnp⟩ := hbad
        obtain rfl | hb := List.mem_cons.mp hb
        · exact absurd hp hnp
        · exact ⟨b, hb, hnp⟩
      rw [bind_of_ok hfirst]
      exact bind_of_error (ih hrow hlater)
    · exact bind_of_error (hr a first _ ⟨hp, ha⟩)

end Reader

namespace Value

def SpellsAs (c : TypeCode) (v : Value) (raw : Bytes) : Prop := v.typeCode = c ∧ v.WellTyped ∧ v.Spells raw

/-- A map item: a spelling of its key as one of the key code, then one of its value. -/
def SpellsItemAs (k c : TypeCode) (x : Value × Value) (raw : Bytes) : Prop :=
  ∃ key payload, raw = key ++ payload ∧ x.1.SpellsAs k key ∧ x.2.SpellsAs c payload

theorem inRow_spellsAs {c : TypeCode} {vs : List Value} {raw : Bytes} (hc : ∀ v ∈ vs, v.typeCode = c ∧ v.WellTyped)
    (hs : SpellsAll vs raw) : InRow (SpellsAs c) vs raw :=
  (spellsAll_iff.mp hs).imp fun v hv _ hr => ⟨(hc v hv).1, (hc v hv).2, hr⟩

theorem inRow_spellsItemAs {k c : TypeCode} {xs : List (Value × Value)} {raw : Bytes}
    (hc : ∀ x ∈ xs, (x.1.typeCode = k ∧ x.1.WellTyped) ∧ x.2.typeCode = c ∧ x.2.WellTyped)
    (hs : SpellsItems xs raw) : InRow (SpellsItemAs k c) xs raw := by
  refine (spellsItems_iff.mp hs).imp fun x hx r hr => ?_
  obtain ⟨key, payload, rfl, hk, hp⟩ := hr
  obtain ⟨⟨hkey, hkw⟩, hvalue, hvw⟩ := hc x hx
  exact ⟨key, payload, rfl, ⟨hkey, hkw, hk⟩, hvalue, hvw, hp⟩

end Value

namespace Reader

/-- A reader of elements that refuses, with the error, the spellings of the values beyond some levels. -/
def RefusesBeyond (levels : Nat) (e : DecodeError) (element : TypeCode → Reader Value) : Prop :=
  ∀ c, (element c).Refuses (fun v raw => ¬ v.depth ≤ levels ∧ v.SpellsAs c raw) e

variable {levels : Nat} {element : TypeCode → Reader Value} {e : DecodeError}

theorem ReadsWithin.accepts (he : ReadsWithin levels element) (c : TypeCode) :
    (element c).Accepts fun v raw => v.depth ≤ levels ∧ v.SpellsAs c raw :=
  (he c).congr fun v raw => by simp only [Value.Within, Value.SpellsAs, and_assoc, and_left_comm]

theorem ReadsWithin.accepts_item (he : ReadsWithin levels element) (k c : TypeCode) :
    (do return (← element k, ← element c) : Reader (Value × Value)).Accepts fun x raw =>
      (x.1.depth ≤ levels ∧ x.2.depth ≤ levels) ∧ Value.SpellsItemAs k c x raw := by
  refine (he.item k c).congr fun x raw => ?_
  constructor
  · intro h
    obtain ⟨⟨hk, hc⟩, key, payload, rfl, hkey, hpayload⟩ := h
    exact ⟨⟨hk.2.2, hc.2.2⟩, key, payload, rfl, ⟨hk.1, hk.2.1, hkey⟩, hc.1, hc.2.1, hpayload⟩
  · intro h
    obtain ⟨⟨hdk, hdc⟩, key, payload, rfl, hk, hc⟩ := h
    exact ⟨⟨⟨hk.1, hk.2.1, hdk⟩, hc.1, hc.2.1, hdc⟩, key, payload, rfl, hk.2.2, hc.2.2⟩

theorem RefusesBeyond.item (he : ReadsWithin levels element) (hr : RefusesBeyond levels e element) (k c : TypeCode) :
    (do return (← element k, ← element c) : Reader (Value × Value)).Refuses
      (fun x raw => ¬ (x.1.depth ≤ levels ∧ x.2.depth ≤ levels) ∧ Value.SpellsItemAs k c x raw) e := by
  intro x raw rest h
  obtain ⟨hbad, key, payload, rfl, hk, hp⟩ := h
  rw [List.append_assoc]
  by_cases hd : x.1.depth ≤ levels
  · have hkey : element k (key ++ (payload ++ rest)) = .ok (x.1, payload ++ rest) :=
      (he.accepts k _ _ _).mpr ⟨key, rfl, hd, hk⟩
    have hvalue : ¬ x.2.depth ≤ levels := fun h => hbad ⟨hd, h⟩
    rw [bind_of_ok hkey]
    exact bind_of_error (hr c x.2 payload rest ⟨hvalue, hp⟩)
  · exact bind_of_error (hr k x.1 key _ ⟨hd, hk⟩)

theorem typeCode_cons (c : TypeCode) (bs : Bytes) : typeCode (c.toByte :: bs) = .ok (c, bs) :=
  (typeCode_accepts _ _ _).mpr ⟨[c.toByte], rfl, rfl⟩

/-- A row of entries is behind its count, and they are no shorter than the count is checked for. -/
theorem count_of_inRow {α : Type} {R : α → Bytes → Prop} {as : List α} {body : Bytes} {m : Nat}
    (hlt : as.length < lengthLimit) (hrow : InRow R as body) (hm : ∀ a ∈ as, ∀ r, R a r → m ≤ r.length) (rest : Bytes) :
    count m (Bytes.ofNat 4 as.length ++ (body ++ rest)) = .ok (as.length, body ++ rest) := by
  have hroom : as.length * m ≤ body.length := hrow.length_le hm
  refine count_eq_ok_iff.mpr ⟨hlt, rfl, ?_⟩
  rw [List.length_append]
  omega

theorem RefusesBeyond.sequence (he : ReadsWithin levels element) (hr : RefusesBeyond levels e element)
    {build : TypeCode → List Value → Except Misfit Value} {c : TypeCode} {vs : List Value} {body : Bytes}
    (hc : ∀ v ∈ vs, v.typeCode = c ∧ v.WellTyped) (hlt : vs.length < lengthLimit) (hs : Value.SpellsAll vs body)
    (hbad : ¬ ∀ v ∈ vs, v.depth ≤ levels) (rest : Bytes) :
    Reader.sequence build element (c.toByte :: (Bytes.ofNat 4 vs.length ++ (body ++ rest))) = .error e := by
  have hrow := Value.inRow_spellsAs hc hs
  have hleast : ∀ v ∈ vs, ∀ r, v.SpellsAs c r → c.minLength ≤ r.length := by
    intro v _ r h
    rw [← h.1]
    exact h.2.2.minLength_le
  rw [Reader.sequence, bind_of_ok (typeCode_cons c _), bind_of_ok (count_of_inRow hlt hrow hleast rest)]
  exact bind_of_error (times_error (he.accepts c) (hr c) hrow (by simpa using hbad) rest)

theorem RefusesBeyond.map (he : ReadsWithin levels element) (hr : RefusesBeyond levels e element) {k c : TypeCode}
    {xs : List (Value × Value)} {body : Bytes}
    (hc : ∀ x ∈ xs, (x.1.typeCode = k ∧ x.1.WellTyped) ∧ x.2.typeCode = c ∧ x.2.WellTyped)
    (hlt : xs.length < lengthLimit) (hs : Value.SpellsItems xs body)
    (hbad : ¬ ∀ x ∈ xs, x.1.depth ≤ levels ∧ x.2.depth ≤ levels) (rest : Bytes) :
    Reader.map element (k.toByte :: c.toByte :: (Bytes.ofNat 4 xs.length ++ (body ++ rest))) = .error e := by
  have hrow := Value.inRow_spellsItemAs hc hs
  have hleast : ∀ x ∈ xs, ∀ r, Value.SpellsItemAs k c x r → k.minLength + c.minLength ≤ r.length := by
    intro x _ r h
    obtain ⟨key, payload, rfl, hk, hp⟩ := h
    rw [← hk.1, ← hp.1, List.length_append]
    exact Nat.add_le_add hk.2.2.minLength_le hp.2.2.minLength_le
  have hfirst : ∃ x ∈ xs, ¬ (x.1.depth ≤ levels ∧ x.2.depth ≤ levels) := by
    by_contra h
    exact hbad fun x hx => by_contra fun hx' => h ⟨x, hx, hx'⟩
  rw [Reader.map, bind_of_ok (typeCode_cons k _), bind_of_ok (typeCode_cons c _),
    bind_of_ok (count_of_inRow hlt hrow hleast rest)]
  exact bind_of_error (times_error (he.accepts_item k c) (hr.item he k c) hrow hfirst rest)

theorem RefusesBeyond.field (hr : RefusesBeyond levels e element) {f : Field} {payload : Bytes}
    (hbad : ¬ f.2.depth ≤ levels) (hs : f.2.SpellsAs f.1.code payload) (rest : Bytes) :
    Reader.field element f.1.code.toByte (Bytes.ofNat 2 f.1.id.toUInt16.toNat ++ (payload ++ rest)) = .error e := by
  have hcode (bs : Bytes) : codeOf f.1.code.toByte bs = .ok (f.1.code, bs) :=
    (codeOf_accepts _ _ _ _).mpr ⟨[], rfl, rfl, rfl⟩
  have hid (bs : Bytes) : int16 (Bytes.ofNat 2 f.1.id.toUInt16.toNat ++ bs) = .ok (f.1.id, bs) :=
    (int16_accepts _ _ _).mpr ⟨_, rfl, rfl⟩
  rw [Reader.field, bind_of_ok (hcode _), bind_of_ok (hid _)]
  exact bind_of_error (hr f.1.code f.2 payload rest ⟨hbad, hs⟩)

/-- The loop over the fields ends at the first that is refused: by induction on the fields before it. -/
theorem RefusesBeyond.fields (he : ReadsWithin levels element) (hr : RefusesBeyond levels e element)
    {fs : List Field} {bound body : Bytes} (hc : ∀ f ∈ fs, f.2.typeCode = f.1.code ∧ f.2.WellTyped)
    (hs : InRow Value.SpellsField fs body) (hbad : ¬ ∀ f ∈ fs, f.2.depth ≤ levels) {rest : Bytes}
    (hb : (body ++ rest).length ≤ bound.length) : Reader.fields element bound (body ++ rest) = .error e := by
  induction fs generalizing bound body with
  | nil => exact absurd nofun hbad
  | cons f fs ih =>
    obtain ⟨_, row, rfl, ⟨payload, rfl, hf⟩, hrow⟩ := hs
    obtain ⟨hcf, hcfs⟩ := List.forall_mem_cons.mp hc
    cases bound with
    | nil => simp [FieldKey.encode] at hb
    | cons b bound =>
      let raw := Bytes.ofNat 2 f.1.id.toUInt16.toNat ++ (payload ++ (row ++ rest))
      have hraw : f.1.encode ++ payload ++ row ++ rest = f.1.code.toByte :: raw := by
        simp [FieldKey.encode, raw]
      have htag : uint8 (f.1.code.toByte :: raw) = .ok (f.1.code.toByte, raw) :=
        (uint8_accepts _ _ _).mpr ⟨[f.1.code.toByte], rfl, rfl⟩
      rw [hraw, fields_cons, bind_of_ok htag, if_neg f.1.code.toByte_ne_stop]
      by_cases hd : f.2.depth ≤ levels
      · have hfield : Reader.field element f.1.code.toByte raw = .ok (f, row ++ rest) := by
          refine (he.field _ _ _ _).mpr ⟨Bytes.ofNat 2 f.1.id.toUInt16.toNat ++ payload, by simp [raw], ?_⟩
          exact ⟨⟨hcf.1, hcf.2, hd⟩, payload, rfl, hf⟩
        have hlater : ¬ ∀ g ∈ fs, g.2.depth ≤ levels := fun h => hbad (List.forall_mem_cons.mpr ⟨hd, h⟩)
        have hbound : (row ++ rest).length ≤ bound.length := by
          simp [FieldKey.encode] at hb ⊢
          omega
        rw [bind_of_ok hfield]
        exact bind_of_error (ih hcfs hrow hlater hbound)
      · exact bind_of_error (hr.field hd ⟨hcf.1, hcf.2, hf⟩ _)

theorem RefusesBeyond.struct (he : ReadsWithin levels element) (hr : RefusesBeyond levels e element)
    {fs : List Field} {body : Bytes} (hc : ∀ f ∈ fs, f.2.typeCode = f.1.code ∧ f.2.WellTyped)
    (hs : Value.SpellsFields fs body) (hbad : ¬ ∀ f ∈ fs, f.2.depth ≤ levels) (rest : Bytes) :
    Reader.struct element (body ++ rest) = .error e := by
  have hrun : Reader.struct element (body ++ rest) =
      (do return Value.struct (← Reader.fields element (body ++ rest))) (body ++ rest) := rfl
  rw [hrun]
  exact bind_of_error (hr.fields he hc (Value.spellsFields_iff.mp hs) hbad (Nat.le_refl _))

/-- The decoder refuses the spellings that nest deeper than the free levels, as ones beyond the limit: by induction on the
levels, each kind of container from its parts. -/
theorem value_refuses (limit levels : Nat) : RefusesBeyond levels (.depthLimitExceeded limit) (value limit levels) := by
  induction levels with
  | zero =>
    intro c v raw rest h
    obtain ⟨hd, rfl, -, -⟩ := h
    have hn : v.typeCode.nests = true := Value.depth_pos_iff.mp (by omega)
    cases hc : v.typeCode with
    | struct | map | set | list => rfl
    | _ => simp [hc, TypeCode.nests] at hn
  | succ levels ih =>
    have he : ReadsWithin levels (value limit levels) := value_accepts limit levels
    intro c v raw rest h
    obtain ⟨hd, rfl, hw, hs⟩ := h
    cases v with
    | struct fs =>
      rw [Value.depth, Nat.add_le_add_iff_right, Value.depthFields_le_iff] at hd
      obtain ⟨body, rfl, hs⟩ := hs
      rw [List.append_assoc]
      exact ih.struct he (Value.wellTyped_struct_iff.mp hw) hs hd _
    | map k c xs =>
      rw [Value.depth, Nat.add_le_add_iff_right, Value.depthItems_le_iff] at hd
      obtain ⟨hlt, body, rfl, hs⟩ := hs
      rw [List.cons_append, List.cons_append, List.append_assoc]
      exact ih.map he (Value.wellTyped_map_iff.mp hw) hlt hs hd rest
    | set c vs =>
      rw [Value.depth, Nat.add_le_add_iff_right, Value.depthAll_le_iff] at hd
      obtain ⟨hlt, body, rfl, hs⟩ := hs
      rw [List.cons_append, List.append_assoc]
      exact ih.sequence he (Value.wellTyped_set_iff.mp hw) hlt hs hd rest
    | list c vs =>
      rw [Value.depth, Nat.add_le_add_iff_right, Value.depthAll_le_iff] at hd
      obtain ⟨hlt, body, rfl, hs⟩ := hs
      rw [List.cons_append, List.append_assoc]
      exact ih.sequence he (Value.wellTyped_list_iff.mp hw) hlt hs hd rest
    | _ => simp [Value.depth] at hd

end Reader

namespace Protocol

theorem decodePrefix_of_spells (p : Protocol) {v : Value} (hw : v.WellTyped) {raw : Bytes} (hs : v.Spells raw)
    (rest : Bytes) : p.decodePrefix v.typeCode (raw ++ rest) =
      if v.depth ≤ p.maxDepth then .ok (v, rest) else .error (.depthLimitExceeded p.maxDepth) := by
  by_cases hd : v.depth ≤ p.maxDepth
  · rw [if_pos hd]
    exact (Reader.value_accepts p.maxDepth p.maxDepth _ _ v rest).mpr ⟨raw, rfl, ⟨rfl, hw, hd⟩, hs⟩
  · rw [if_neg hd]
    exact Reader.value_refuses p.maxDepth p.maxDepth _ v raw rest ⟨hd, rfl, hw, hs⟩

theorem decode_of_encode (p : Protocol) {v : Value} (hw : v.WellTyped) {out : Bytes} (hout : v.encode = .ok out)
    (rest : Bytes) : p.decode v.typeCode (out ++ rest) =
      if v.depth ≤ p.maxDepth then .ok v else .error (.depthLimitExceeded p.maxDepth) := by
  rw [decode, decodePrefix_of_spells p hw (Value.spells_of_encode hout) rest]
  by_cases hd : v.depth ≤ p.maxDepth
  · rw [if_pos hd, if_pos hd]
    rfl
  · rw [if_neg hd, if_neg hd]
    rfl

end Protocol
end TaggedWire
