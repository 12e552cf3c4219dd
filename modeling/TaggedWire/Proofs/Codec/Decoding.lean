import TaggedWire.Codec.Protocol
import TaggedWire.Proofs.Codec.Acceptance

/-! Decoding: what the decoder accepts is exactly the spellings of well-typed values of the code asked for that
nest no deeper than the limit allows. The check of a count against the bytes that are left never stands in the
way, since no spelling is shorter than the least length of its code. -/
namespace TaggedWire
namespace Reader

variable {α β : Type}

theorem fit_accepts (e : Except Misfit α) : (fit e).Accepts fun a raw => e = .ok a ∧ raw = [] := by
  cases e with
  | error m => exact (Accepts.throw _).congr (by simp)
  | ok a => exact (Accepts.pure a).congr (by simp [eq_comm])

theorem codeOf_accepts (b : UInt8) : (codeOf b).Accepts fun c raw => c.toByte = b ∧ raw = [] := by
  unfold codeOf
  cases hb : TypeCode.ofByte? b with
  | none =>
    refine (Accepts.throw _).congr fun c raw => ?_
    simp [← TypeCode.ofByte?_eq_some_iff, hb]
  | some c =>
    refine (Accepts.pure c).congr fun d raw => ?_
    rw [← TypeCode.ofByte?_eq_some_iff, hb, Option.some.injEq, eq_comm]

theorem typeCode_accepts : typeCode.Accepts fun c raw => raw = [c.toByte] := by
  refine (uint8_accepts.bind codeOf_accepts).congr ?_
  intro c raw
  constructor
  · rintro ⟨_, _, _, rfl, rfl, rfl, rfl⟩
    rfl
  · rintro rfl
    exact ⟨_, _, [], rfl, rfl, rfl, rfl⟩

theorem demand_eq_ok_iff {n : Nat} {bs rest : Bytes} :
    demand n bs = .ok ((), rest) ↔ n ≤ bs.length ∧ rest = bs := by
  by_cases h : n ≤ bs.length
  · have hd : demand n bs = .ok ((), bs) := if_pos (Bytes.holds_iff.mpr h)
    simp [hd, h, eq_comm]
  · have hd : demand n bs = .error (.insufficientData n bs.length) := if_neg (by simpa using h)
    simp [hd, h]

/-- A number of four bytes is a count just if its sign bit is clear. -/
theorem toUInt32_toNat_of_nonneg {i : Int32} (h : ¬ i < 0) :
    i.toUInt32.toNat = i.toInt.toNat ∧ i.toInt.toNat < lengthLimit := by
  have hi : 0 ≤ i := Int32.not_lt.mp h
  exact ⟨Int32.toNat_toUInt32_of_le hi, i.toNatClampNeg_lt⟩

theorem exists_int32_of_lt {n : Nat} (h : n < lengthLimit) :
    ∃ i : Int32, ¬ i < 0 ∧ i.toInt.toNat = n ∧ i.toUInt32.toNat = n := by
  have hi : (Int32.ofNat n).toInt = n := Int32.toInt_ofNat_of_lt h
  have hn : ¬ Int32.ofNat n < 0 := by
    rw [Int32.lt_iff_toInt_lt, hi]
    simp
  have hc : (Int32.ofNat n).toInt.toNat = n := by simp [hi]
  exact ⟨Int32.ofNat n, hn, hc, (toUInt32_toNat_of_nonneg hn).1.trans hc⟩

theorem count_eq_ok_iff {m n : Nat} {bs rest : Bytes} :
    count m bs = .ok (n, rest) ↔ n < lengthLimit ∧ bs = Bytes.ofNat 4 n ++ rest ∧ n * m ≤ rest.length := by
  rw [count, bind_eq_ok_iff]
  constructor
  · rintro ⟨i, mid, hi, h⟩
    obtain ⟨_, rfl, rfl⟩ := (int32_accepts bs i mid).mp hi
    by_cases hneg : i < 0
    · rw [if_pos hneg, bind_eq_ok_iff] at h
      obtain ⟨_, _, h, -⟩ := h
      cases h
    · rw [if_neg hneg, bind_eq_ok_iff] at h
      obtain ⟨_, _, hd, h⟩ := h
      obtain ⟨hle, rfl⟩ := demand_eq_ok_iff.mp hd
      obtain ⟨rfl, rfl⟩ := pure_eq_ok_iff.mp h
      obtain ⟨hcode, hlt⟩ := toUInt32_toNat_of_nonneg hneg
      exact ⟨hlt, by rw [hcode], hle⟩
  · rintro ⟨hlt, rfl, hle⟩
    obtain ⟨i, hneg, hn, hcode⟩ := exists_int32_of_lt hlt
    refine ⟨i, rest, (int32_accepts _ i rest).mpr ⟨_, by rw [hcode], rfl⟩, ?_⟩
    rw [if_neg hneg, bind_eq_ok_iff, hn]
    exact ⟨(), rest, demand_eq_ok_iff.mpr ⟨hle, rfl⟩, rfl⟩

/-- The check of a count against the bytes left rejects nothing that the entries would accept, where those take the
bytes that the check asks for. -/
theorem Accepts.count_bind {m : Nat} {f : Nat → Reader β} {R : Nat → β → Bytes → Prop}
    (hf : ∀ n, (f n).Accepts (R n)) (hR : ∀ n b raw, R n b raw → n * m ≤ raw.length) :
    (count m >>= f).Accepts fun b raw =>
      ∃ n body, n < lengthLimit ∧ raw = Bytes.ofNat 4 n ++ body ∧ R n b body := by
  intro bs b rest
  rw [bind_eq_ok_iff]
  constructor
  · rintro ⟨n, mid, hn, hb⟩
    obtain ⟨hlt, rfl, -⟩ := count_eq_ok_iff.mp hn
    obtain ⟨body, rfl, hr⟩ := (hf n mid b rest).mp hb
    exact ⟨Bytes.ofNat 4 n ++ body, by simp, n, body, hlt, rfl, hr⟩
  · rintro ⟨_, rfl, n, body, hlt, rfl, hr⟩
    have hle : n * m ≤ (body ++ rest).length := by
      have := hR n b body hr
      rw [List.length_append]
      omega
    exact ⟨n, body ++ rest, count_eq_ok_iff.mpr ⟨hlt, by simp, hle⟩, (hf n _ b rest).mpr ⟨body, rfl, hr⟩⟩

end Reader

namespace Value

/-- What a reader of the code may give with so many levels of the limit free. -/
def Within (levels : Nat) (c : TypeCode) (v : Value) : Prop :=
  v.typeCode = c ∧ v.WellTyped ∧ v.depth ≤ levels

theorem within_struct_iff {levels : Nat} {fs : List Field} :
    (Value.struct fs).Within (levels + 1) .struct ↔ ∀ f ∈ fs, f.2.Within levels f.1.code := by
  unfold Within
  rw [wellTyped_struct_iff, depth, Nat.add_le_add_iff_right, depthFields_le_iff]
  constructor
  · rintro ⟨-, hw, hd⟩ f hf
    exact ⟨(hw f hf).1, (hw f hf).2, hd f hf⟩
  · intro h
    exact ⟨rfl, fun f hf => ⟨(h f hf).1, (h f hf).2.1⟩, fun f hf => (h f hf).2.2⟩

theorem within_map_iff {levels : Nat} {k c : TypeCode} {xs : List (Value × Value)} :
    (Value.map k c xs).Within (levels + 1) .map ↔ ∀ x ∈ xs, x.1.Within levels k ∧ x.2.Within levels c := by
  unfold Within
  rw [wellTyped_map_iff, depth, Nat.add_le_add_iff_right, depthItems_le_iff]
  constructor
  · rintro ⟨-, hw, hd⟩ x hx
    obtain ⟨⟨hk, hwk⟩, hc, hwc⟩ := hw x hx
    exact ⟨⟨hk, hwk, (hd x hx).1⟩, hc, hwc, (hd x hx).2⟩
  · intro h
    refine ⟨rfl, fun x hx => ?_, fun x hx => ⟨(h x hx).1.2.2, (h x hx).2.2.2⟩⟩
    obtain ⟨⟨hk, hwk, -⟩, hc, hwc, -⟩ := h x hx
    exact ⟨⟨hk, hwk⟩, hc, hwc⟩

theorem within_set_iff {levels : Nat} {c : TypeCode} {vs : List Value} :
    (Value.set c vs).Within (levels + 1) .set ↔ ∀ v ∈ vs, v.Within levels c := by
  unfold Within
  rw [wellTyped_set_iff, depth, Nat.add_le_add_iff_right, depthAll_le_iff]
  constructor
  · rintro ⟨-, hw, hd⟩ v hv
    exact ⟨(hw v hv).1, (hw v hv).2, hd v hv⟩
  · intro h
    exact ⟨rfl, fun v hv => ⟨(h v hv).1, (h v hv).2.1⟩, fun v hv => (h v hv).2.2⟩

/-- A list is within the levels that a set with the same elements is within. -/
theorem within_list_iff {levels : Nat} {c : TypeCode} {vs : List Value} :
    (Value.list c vs).Within (levels + 1) .list ↔ ∀ v ∈ vs, v.Within levels c := by
  rw [← within_set_iff]
  unfold Within
  rw [wellTyped_list_iff, wellTyped_set_iff, depth, depth]
  exact ⟨fun h => ⟨rfl, h.2⟩, fun h => ⟨rfl, h.2⟩⟩

theorem checkedMap_eq_ok_iff {k c : TypeCode} {xs : List (Value × Value)} {v : Value} :
    checkedMap k c xs = .ok v ↔ (∀ x ∈ xs, x.1.typeCode = k ∧ x.2.typeCode = c) ∧ v = .map k c xs :=
  ite_eq_ok_iff

theorem checkedSet_eq_ok_iff {c : TypeCode} {vs : List Value} {v : Value} :
    checkedSet c vs = .ok v ↔ (∀ w ∈ vs, w.typeCode = c) ∧ v = .set c vs := ite_eq_ok_iff

theorem checkedList_eq_ok_iff {c : TypeCode} {vs : List Value} {v : Value} :
    checkedList c vs = .ok v ↔ (∀ w ∈ vs, w.typeCode = c) ∧ v = .list c vs := ite_eq_ok_iff

theorem checkedField_eq_ok_iff {key : FieldKey} {v : Value} {f : Field} :
    checkedField key v = .ok f ↔ v.typeCode = key.code ∧ f = (key, v) := ite_eq_ok_iff

end Value

namespace Reader

/-- A reader of elements that accepts the spellings of the values within some levels. -/
def ReadsWithin (levels : Nat) (element : TypeCode → Reader Value) : Prop :=
  ∀ c, (element c).Accepts fun v raw => v.Within levels c ∧ v.Spells raw

variable {levels : Nat} {element : TypeCode → Reader Value}

theorem ReadsWithin.times (he : ReadsWithin levels element) (c : TypeCode) (n : Nat) :
    (Reader.times (element c) n).Accepts fun vs raw =>
      vs.length = n ∧ (∀ v ∈ vs, v.Within levels c) ∧ Value.SpellsAll vs raw := by
  refine ((he c).times n).congr fun vs raw => ?_
  rw [InRow.forall_and_iff, Value.spellsAll_iff]

theorem ReadsWithin.item (he : ReadsWithin levels element) (k c : TypeCode) :
    (do return (← element k, ← element c) : Reader (Value × Value)).Accepts fun x raw =>
      (x.1.Within levels k ∧ x.2.Within levels c) ∧ Value.SpellsItem x raw := by
  refine ((he k).bind fun a => (he c).map fun b => (a, b)).congr ?_
  intro x raw
  constructor
  · rintro ⟨a, key, payload, rfl, ⟨ha, hk⟩, b, rfl, hb, hp⟩
    exact ⟨⟨ha, hb⟩, key, payload, rfl, hk, hp⟩
  · rintro ⟨⟨ha, hb⟩, key, payload, rfl, hk, hp⟩
    exact ⟨x.1, key, payload, rfl, ⟨ha, hk⟩, x.2, rfl, hb, hp⟩

theorem ReadsWithin.items (he : ReadsWithin levels element) (k c : TypeCode) (n : Nat) :
    (Reader.times (return (← element k, ← element c)) n).Accepts fun xs raw =>
      xs.length = n ∧ (∀ x ∈ xs, x.1.Within levels k ∧ x.2.Within levels c) ∧ Value.SpellsItems xs raw := by
  refine ((he.item k c).times n).congr fun xs raw => ?_
  rw [InRow.forall_and_iff, Value.spellsItems_iff]

/-- The field behind a tag that is not the stop byte. -/
def field (element : TypeCode → Reader Value) (tag : UInt8) : Reader Field := do
  let code ← codeOf tag
  let id ← int16
  let v ← element code
  fit (Value.checkedField ⟨id, code⟩ v)

theorem fields_cons (element : TypeCode → Reader Value) (b : UInt8) (bound : Bytes) :
    fields element (b :: bound) = do
      let tag ← uint8
      if tag = TypeCode.stop then return [] else return (← field element tag) :: (← fields element bound) := by
  simp only [fields, field, bind_assoc]

theorem ReadsWithin.field (he : ReadsWithin levels element) (tag : UInt8) :
    (Reader.field element tag).Accepts fun f raw =>
      f.2.Within levels f.1.code ∧ Value.SpellsField f (tag :: raw) := by
  have hfit (code : TypeCode) (id : Int16) := (he code).bind fun v =>
    fit_accepts (Value.checkedField ⟨id, code⟩ v)
  refine ((codeOf_accepts tag).bind fun code => int16_accepts.bind (hfit code)).congr ?_
  rintro ⟨⟨id, code⟩, v⟩ raw
  constructor
  · rintro ⟨_, _, _, rfl, ⟨rfl, rfl⟩, _, _, _, rfl, rfl, _, payload, _, rfl, ⟨hw, hs⟩, hf, rfl⟩
    obtain ⟨-, hf⟩ := Value.checkedField_eq_ok_iff.mp hf
    cases hf
    exact ⟨hw, payload, by simp [FieldKey.encode], hs⟩
  · rintro ⟨hw, payload, hraw, hs⟩
    simp only [FieldKey.encode, List.cons_append, List.cons.injEq] at hraw
    obtain ⟨rfl, rfl⟩ := hraw
    refine ⟨code, [], _, rfl, ⟨rfl, rfl⟩, id, _, payload, rfl, rfl, v, payload, [], ?_, ⟨hw, hs⟩, ?_, rfl⟩
    · simp
    · exact Value.checkedField_eq_ok_iff.mpr ⟨hw.1, rfl⟩

/-- One turn of the loop over the fields: it ends at the stop byte or takes one field more. -/
theorem ReadsWithin.fields_step (he : ReadsWithin levels element) {b : UInt8} {bound bs rest : Bytes}
    {fs : List Field} :
    Reader.fields element (b :: bound) bs = .ok (fs, rest) ↔
      (fs = [] ∧ bs = TypeCode.stop :: rest) ∨
        ∃ f gs raw tail, fs = f :: gs ∧ bs = raw ++ tail ∧ f.2.Within levels f.1.code ∧
          Value.SpellsField f raw ∧ Reader.fields element bound tail = .ok (gs, rest) := by
  rw [fields_cons, bind_eq_ok_iff]
  constructor
  · rintro ⟨tag, mid, htag, h⟩
    obtain ⟨_, rfl, rfl⟩ := (uint8_accepts bs tag mid).mp htag
    by_cases hstop : tag = TypeCode.stop
    · rw [if_pos hstop] at h
      obtain ⟨rfl, rfl⟩ := pure_eq_ok_iff.mp h
      exact .inl ⟨rfl, by rw [hstop]; rfl⟩
    · rw [if_neg hstop, bind_eq_ok_iff] at h
      obtain ⟨f, tail, hf, h⟩ := h
      obtain ⟨gs, _, hgs, h⟩ := bind_eq_ok_iff.mp h
      obtain ⟨rfl, rfl⟩ := pure_eq_ok_iff.mp h
      obtain ⟨raw, rfl, hw, hs⟩ := (he.field tag mid f tail).mp hf
      exact .inr ⟨f, gs, tag :: raw, tail, rfl, rfl, hw, hs, hgs⟩
  · rintro (⟨rfl, rfl⟩ | ⟨f, gs, raw, tail, rfl, rfl, hw, ⟨payload, rfl, hs⟩, hgs⟩)
    · exact ⟨TypeCode.stop, rest, (uint8_accepts _ _ _).mpr ⟨[TypeCode.stop], rfl, rfl⟩, rfl⟩
    · let raw := Bytes.ofNat 2 f.1.id.toUInt16.toNat ++ payload
      have hf : Reader.field element f.1.code.toByte (raw ++ tail) = .ok (f, tail) :=
        (he.field _ _ f tail).mpr ⟨raw, rfl, hw, payload, rfl, hs⟩
      refine ⟨f.1.code.toByte, raw ++ tail, (uint8_accepts _ _ _).mpr ⟨[f.1.code.toByte], ?_, rfl⟩, ?_⟩
      · simp [FieldKey.encode, raw]
      · rw [if_neg f.1.code.toByte_ne_stop, bind_eq_ok_iff]
        exact ⟨f, tail, hf, bind_eq_ok_iff.mpr ⟨gs, rest, hgs, rfl⟩⟩

/-- The loop over the fields, where the bound is no shorter than what is left to read. -/
theorem ReadsWithin.fields (he : ReadsWithin levels element) {bound bs rest : Bytes} {fs : List Field}
    (hb : bs.length ≤ bound.length) :
    Reader.fields element bound bs = .ok (fs, rest) ↔
      ∃ body, bs = body ++ TypeCode.stop :: rest ∧ (∀ f ∈ fs, f.2.Within levels f.1.code) ∧
        InRow Value.SpellsField fs body := by
  induction bound generalizing bs fs with
  | nil =>
    obtain rfl : bs = [] := List.length_eq_zero_iff.mp (by simpa using hb)
    have hno : Reader.fields element [] [] = .error (.insufficientData 1 0) := rfl
    simp [hno]
  | cons b bound ih =>
    -- a field takes at least three bytes, so the rest of the bound is enough for what follows it
    have hlt {f : Field} {raw tail : Bytes} (hs : Value.SpellsField f raw) (hb : (raw ++ tail).length ≤ bound.length + 1) :
        tail.length ≤ bound.length := by
      obtain ⟨payload, rfl, -⟩ := hs
      simp only [List.length_append, FieldKey.length_encode] at hb
      omega
    rw [he.fields_step]
    constructor
    · rintro (⟨rfl, rfl⟩ | ⟨f, gs, raw, tail, rfl, rfl, hw, hs, hgs⟩)
      · exact ⟨[], rfl, by simp, rfl⟩
      · obtain ⟨body, rfl, hws, hss⟩ := (ih (hlt hs hb)).mp hgs
        exact ⟨raw ++ body, by simp, List.forall_mem_cons.mpr ⟨hw, hws⟩, raw, body, rfl, hs, hss⟩
    · rintro ⟨body, rfl, hws, hss⟩
      cases fs with
      | nil =>
        obtain rfl : body = [] := hss
        exact .inl ⟨rfl, rfl⟩
      | cons f gs =>
        obtain ⟨raw, body, rfl, hs, hss⟩ := hss
        obtain ⟨hw, hws⟩ := List.forall_mem_cons.mp hws
        rw [List.append_assoc] at hb ⊢
        exact .inr ⟨f, gs, raw, _, rfl, rfl, hw, hs, (ih (hlt hs hb)).mpr ⟨body, rfl, hws, hss⟩⟩

theorem ReadsWithin.struct (he : ReadsWithin levels element) :
    (Reader.struct element).Accepts fun v raw => v.Within (levels + 1) .struct ∧ v.Spells raw := by
  intro bs v rest
  have hrun : Reader.struct element bs = (do return Value.struct (← Reader.fields element bs)) bs := rfl
  rw [hrun, bind_eq_ok_iff]
  constructor
  · rintro ⟨fs, _, hfs, h⟩
    obtain ⟨rfl, rfl⟩ := pure_eq_ok_iff.mp h
    obtain ⟨body, hbs, hws, hss⟩ := (he.fields (Nat.le_refl _)).mp hfs
    exact ⟨body ++ [TypeCode.stop], by simpa using hbs, Value.within_struct_iff.mpr hws, body, rfl,
      Value.spellsFields_iff.mpr hss⟩
  · rintro ⟨raw, hbs, hw, hs⟩
    cases v with
    | struct fs =>
      obtain ⟨body, rfl, hss⟩ := hs
      refine ⟨fs, rest, (he.fields (Nat.le_refl _)).mpr ⟨body, by simpa using hbs, ?_, ?_⟩, rfl⟩
      · exact Value.within_struct_iff.mp hw
      · exact Value.spellsFields_iff.mp hss
    | _ => cases hw.1

/-- A set or list: its code and count, then so many elements. -/
theorem ReadsWithin.sequence (he : ReadsWithin levels element)
    {build : TypeCode → List Value → Except Misfit Value} {mk : TypeCode → List Value → Value}
    (hbuild : ∀ c vs v, build c vs = .ok v ↔ (∀ w ∈ vs, w.typeCode = c) ∧ v = mk c vs) :
    (Reader.sequence build element).Accepts fun v raw => ∃ c vs body, v = mk c vs ∧ vs.length < lengthLimit ∧
      raw = c.toByte :: (Bytes.ofNat 4 vs.length ++ body) ∧ (∀ w ∈ vs, w.Within levels c) ∧
        Value.SpellsAll vs body := by
  have hvalues (c : TypeCode) (n : Nat) :
      (Reader.times (element c) n >>= fun vs => fit (build c vs)).Accepts fun v raw =>
        ∃ vs, v = mk c vs ∧ vs.length = n ∧ (∀ w ∈ vs, w.Within levels c) ∧ Value.SpellsAll vs raw := by
    refine ((he.times c n).bind fun vs => fit_accepts (build c vs)).congr ?_
    intro v raw
    constructor
    · rintro ⟨vs, first, _, rfl, ⟨hn, hw, hs⟩, hv, rfl⟩
      exact ⟨vs, ((hbuild c vs v).mp hv).2, hn, hw, by simpa using hs⟩
    · rintro ⟨vs, rfl, hn, hw, hs⟩
      exact ⟨vs, raw, [], by simp, ⟨hn, hw, hs⟩, (hbuild c vs _).mpr ⟨fun w h => (hw w h).1, rfl⟩, rfl⟩
  have hcount (c : TypeCode) := Accepts.count_bind (m := c.minLength) (hvalues c) (by
    rintro n v raw ⟨vs, -, rfl, hw, hs⟩
    refine (Value.spellsAll_iff.mp hs).length_le fun w hmem r hr => ?_
    rw [← (hw w hmem).1]
    exact hr.minLength_le)
  refine (typeCode_accepts.bind hcount).congr ?_
  intro v raw
  constructor
  · rintro ⟨c, _, _, rfl, rfl, _, body, hlt, rfl, vs, rfl, rfl, hw, hs⟩
    exact ⟨c, vs, body, rfl, hlt, rfl, hw, hs⟩
  · rintro ⟨c, vs, body, rfl, hlt, rfl, hw, hs⟩
    exact ⟨c, [c.toByte], _, rfl, rfl, vs.length, body, hlt, rfl, vs, rfl, rfl, hw, hs⟩

theorem ReadsWithin.set (he : ReadsWithin levels element) :
    (Reader.sequence Value.checkedSet element).Accepts fun v raw =>
      v.Within (levels + 1) .set ∧ v.Spells raw := by
  refine (he.sequence fun _ _ _ => Value.checkedSet_eq_ok_iff).congr ?_
  intro v raw
  constructor
  · rintro ⟨c, vs, body, rfl, hlt, rfl, hw, hs⟩
    exact ⟨Value.within_set_iff.mpr hw, hlt, body, rfl, hs⟩
  · rintro ⟨hw, hs⟩
    cases v with
    | set c vs =>
      obtain ⟨hlt, body, rfl, hs⟩ := hs
      exact ⟨c, vs, body, rfl, hlt, rfl, Value.within_set_iff.mp hw, hs⟩
    | _ => cases hw.1

theorem ReadsWithin.list (he : ReadsWithin levels element) :
    (Reader.sequence Value.checkedList element).Accepts fun v raw =>
      v.Within (levels + 1) .list ∧ v.Spells raw := by
  refine (he.sequence fun _ _ _ => Value.checkedList_eq_ok_iff).congr ?_
  intro v raw
  constructor
  · rintro ⟨c, vs, body, rfl, hlt, rfl, hw, hs⟩
    exact ⟨Value.within_list_iff.mpr hw, hlt, body, rfl, hs⟩
  · rintro ⟨hw, hs⟩
    cases v with
    | list c vs =>
      obtain ⟨hlt, body, rfl, hs⟩ := hs
      exact ⟨c, vs, body, rfl, hlt, rfl, Value.within_list_iff.mp hw, hs⟩
    | _ => cases hw.1

theorem ReadsWithin.map (he : ReadsWithin levels element) :
    (Reader.map element).Accepts fun v raw => v.Within (levels + 1) .map ∧ v.Spells raw := by
  have hitems (k c : TypeCode) (n : Nat) :
      (Reader.times (return (← element k, ← element c)) n >>= fun xs => fit (Value.checkedMap k c xs)).Accepts
        fun v raw => ∃ xs, v = .map k c xs ∧ xs.length = n ∧
          (∀ x ∈ xs, x.1.Within levels k ∧ x.2.Within levels c) ∧ Value.SpellsItems xs raw := by
    refine ((he.items k c n).bind fun xs => fit_accepts (Value.checkedMap k c xs)).congr ?_
    intro v raw
    constructor
    · rintro ⟨xs, first, _, rfl, ⟨hn, hw, hs⟩, hv, rfl⟩
      exact ⟨xs, (Value.checkedMap_eq_ok_iff.mp hv).2, hn, hw, by simpa using hs⟩
    · rintro ⟨xs, rfl, hn, hw, hs⟩
      have hfit : ∀ x ∈ xs, x.1.typeCode = k ∧ x.2.typeCode = c := fun x hx => ⟨(hw x hx).1.1, (hw x hx).2.1⟩
      exact ⟨xs, raw, [], by simp, ⟨hn, hw, hs⟩, Value.checkedMap_eq_ok_iff.mpr ⟨hfit, rfl⟩, rfl⟩
  have hcount (k c : TypeCode) := Accepts.count_bind (m := k.minLength + c.minLength) (hitems k c) (by
    rintro n v raw ⟨xs, -, rfl, hw, hs⟩
    refine (Value.spellsItems_iff.mp hs).length_le ?_
    rintro x hx _ ⟨key, payload, rfl, hk, hp⟩
    rw [← (hw x hx).1.1, ← (hw x hx).2.1, List.length_append]
    exact Nat.add_le_add hk.minLength_le hp.minLength_le)
  refine (typeCode_accepts.bind fun k => typeCode_accepts.bind fun c => hcount k c).congr ?_
  intro v raw
  constructor
  · rintro ⟨k, _, _, rfl, rfl, c, _, _, rfl, rfl, _, body, hlt, rfl, xs, rfl, rfl, hw, hs⟩
    exact ⟨Value.within_map_iff.mpr hw, hlt, body, rfl, hs⟩
  · rintro ⟨hw, hs⟩
    cases v with
    | map k c xs =>
      obtain ⟨hlt, body, rfl, hs⟩ := hs
      exact ⟨k, [k.toByte], _, rfl, rfl, c, [c.toByte], _, rfl, rfl, xs.length, body, hlt, rfl, xs, rfl, rfl,
        Value.within_map_iff.mp hw, hs⟩
    | _ => cases hw.1

/-- A value that holds no others is read without regard to the levels. -/
theorem flat_accepts {x : Reader α} {R : α → Bytes → Prop} (hx : x.Accepts R) {mk : α → Value} {c : TypeCode}
    (hc : c.nests = false) (hmk : ∀ v raw, (∃ a, v = mk a ∧ R a raw) ↔ v.typeCode = c ∧ v.Spells raw)
    (levels : Nat) :
    (do return mk (← x) : Reader Value).Accepts fun v raw => v.Within levels c ∧ v.Spells raw := by
  refine (hx.map mk).congr fun v raw => ?_
  rw [hmk v raw]
  refine and_congr_left fun _ => ⟨?_, fun h => h.1⟩
  rintro rfl
  have hd : ¬ 0 < v.depth := by simp [Value.depth_pos_iff, hc]
  exact ⟨rfl, Value.wellTyped_of_not_nests hc, by omega⟩

theorem binary_accepts : (count 1 >>= take).Accepts fun bs raw =>
    bs.length < lengthLimit ∧ raw = Bytes.ofNat 4 bs.length ++ bs := by
  refine (Accepts.count_bind take_accepts ?_).congr ?_
  · rintro n bs raw ⟨rfl, rfl⟩
    simp
  · intro bs raw
    constructor
    · rintro ⟨_, _, hlt, rfl, rfl, rfl⟩
      exact ⟨hlt, rfl⟩
    · rintro ⟨hlt, rfl⟩
      exact ⟨bs.length, bs, hlt, rfl, rfl, rfl⟩

theorem value_accepts_of_not_nests (limit levels : Nat) {c : TypeCode} (hc : c.nests = false) :
    (value limit levels c).Accepts fun v raw => v.Within levels c ∧ v.Spells raw := by
  cases c with
  | bool =>
    rw [value]
    refine flat_accepts uint8_accepts hc (fun v raw => ?_) levels
    cases v <;> simp [Value.typeCode, Value.Spells, and_comm]
  | byte =>
    rw [value]
    refine flat_accepts int8_accepts hc (fun v raw => ?_) levels
    cases v <;> simp [Value.typeCode, Value.Spells]
  | double =>
    rw [value]
    refine flat_accepts uint64_accepts hc (fun v raw => ?_) levels
    cases v <;> simp [Value.typeCode, Value.Spells]
  | i16 =>
    rw [value]
    refine flat_accepts int16_accepts hc (fun v raw => ?_) levels
    cases v <;> simp [Value.typeCode, Value.Spells]
  | i32 =>
    rw [value]
    refine flat_accepts int32_accepts hc (fun v raw => ?_) levels
    cases v <;> simp [Value.typeCode, Value.Spells]
  | i64 =>
    rw [value]
    refine flat_accepts int64_accepts hc (fun v raw => ?_) levels
    cases v <;> simp [Value.typeCode, Value.Spells]
  | binary =>
    rw [value, ← bind_assoc]
    refine flat_accepts binary_accepts hc (fun v raw => ?_) levels
    cases v <;> simp [Value.typeCode, Value.Spells]
  | _ => cases hc

/-- Without a free level no struct or container is read, and none fits. -/
theorem value_zero_accepts_of_nests (limit : Nat) {c : TypeCode} (hc : c.nests = true) :
    (value limit 0 c).Accepts fun v raw => v.Within 0 c ∧ v.Spells raw := by
  have hthrow : value limit 0 c = throw (.depthLimitExceeded limit) := by
    cases c <;> first | rfl | cases hc
  rw [hthrow]
  refine (Accepts.throw _).congr fun v raw => ?_
  simp only [false_iff, not_and]
  rintro ⟨rfl, -, hd⟩
  exact absurd (Value.depth_pos_iff.mpr hc) (by omega)

/-- The decoder accepts the spellings of the well-typed values of its code that nest within the free levels. -/
theorem value_accepts (limit levels : Nat) (c : TypeCode) :
    (value limit levels c).Accepts fun v raw => v.Within levels c ∧ v.Spells raw := by
  induction levels generalizing c with
  | zero =>
    by_cases hc : c.nests = true
    · exact value_zero_accepts_of_nests limit hc
    · exact value_accepts_of_not_nests limit 0 (by simpa using hc)
  | succ levels ih =>
    have he : ReadsWithin levels fun c => value limit levels c := ih
    cases c with
    | struct => exact he.struct
    | map => exact he.map
    | set => exact he.set
    | list => exact he.list
    | _ => exact value_accepts_of_not_nests limit _ rfl

end Reader
end TaggedWire
