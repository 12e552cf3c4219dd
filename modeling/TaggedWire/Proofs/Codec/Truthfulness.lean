import TaggedWire.Proofs.Codec.Continuation

/-! What a failure to decode says of the bytes. Whatever they are and whatever the limit is, a decoder ends, and if it
fails then for one of four reasons that can be found in the bytes: too few are left, a byte is no type code, four bytes
are a negative length, or the limit is reached. What is read always fits where it is put. -/
namespace TaggedWire

/-- What a failure says of the bytes. The other failures say nothing of any bytes. -/
def DecodeError.TrueOf (limit : Nat) (whole : Bytes) : DecodeError → Prop
  | .insufficientData needed available => available < needed ∧ available ≤ whole.length
  | .invalidTypeCode b => b ∈ whole ∧ TypeCode.ofByte? b = none
  | .negativeLength n => n < 0 ∧ Bytes.ofNat 4 n.toUInt32.toNat <:+: whole
  | .depthLimitExceeded n => n = limit
  | .typeMismatch .. | .missingRequiredField _ | .invalidText | .invalidTimestamp _ | .misfit _ => False

namespace Reader

variable {α β : Type} {limit levels : Nat} {whole : Bytes} {x : Reader α} {f : α → Reader β} {P Q : α → Prop}
  {S : β → Prop}

/-- Where a rest of the whole is left to read, the reader gives what is of the kind and leaves a rest of the whole, or it
fails with an error that is true of the whole. -/
def Ends (limit : Nat) (whole : Bytes) (x : Reader α) (P : α → Prop) : Prop :=
  ∀ bs, bs <:+ whole → match x bs with
    | .ok (a, rest) => P a ∧ rest <:+ whole
    | .error e => e.TrueOf limit whole

namespace Ends

theorem pure {a : α} (ha : P a) : Ends limit whole (Pure.pure a) P := fun _ hbs => ⟨ha, hbs⟩

theorem throw {e : DecodeError} (he : e.TrueOf limit whole) :
    Ends limit whole (MonadExcept.throw e : Reader α) P := fun _ _ => he

theorem bind (hx : Ends limit whole x P) (hf : ∀ a, P a → Ends limit whole (f a) S) :
    Ends limit whole (x >>= f) S := by
  intro bs hbs
  have hfirst := hx bs hbs
  cases hr : x bs with
  | error e =>
    rw [hr] at hfirst
    rw [bind_of_error hr]
    exact hfirst
  | ok r =>
    rw [hr] at hfirst
    rw [bind_of_ok hr]
    exact hf r.1 hfirst.1 r.2 hfirst.2

theorem imp (hx : Ends limit whole x P) (hPQ : ∀ a, P a → Q a) : Ends limit whole x Q := by
  intro bs hbs
  have hend := hx bs hbs
  cases hr : x bs with
  | error e =>
    rw [hr] at hend
    exact hend
  | ok r =>
    rw [hr] at hend
    exact ⟨hPQ r.1 hend.1, hend.2⟩

theorem map (hx : Ends limit whole x P) {f : α → β} (hf : ∀ a, P a → S (f a)) :
    Ends limit whole (do return f (← x)) S := hx.bind fun a ha => .pure (hf a ha)

theorem times (hx : Ends limit whole x P) (n : Nat) : Ends limit whole (Reader.times x n) fun as => ∀ a ∈ as, P a := by
  induction n with
  | zero => exact .pure (List.forall_mem_nil P)
  | succ n ih => exact hx.bind fun a ha => ih.map fun as has => List.forall_mem_cons.mpr ⟨ha, has⟩

/-- What is accepted stands somewhere in the whole. -/
theorem of_accepts (hx : Ends limit whole x P) {R : α → Bytes → Prop} (hR : x.Accepts R) :
    Ends limit whole x fun a => ∃ raw, R a raw ∧ raw <:+: whole := by
  intro bs hbs
  have hend := hx bs hbs
  cases hr : x bs with
  | error e =>
    rw [hr] at hend
    exact hend
  | ok r =>
    rw [hr] at hend
    rcases (hR bs r.1 r.2).mp hr with ⟨raw, hraw, ha⟩
    have hfront : raw <+: bs := ⟨r.2, hraw.symm⟩
    exact ⟨⟨raw, ha, hfront.isInfix.trans hbs.isInfix⟩, hend.2⟩

end Ends

theorem take_ends (n : Nat) : Ends limit whole (take n) fun _ => True := by
  intro bs hbs
  by_cases hn : n ≤ bs.length
  · have hr : take n bs = .ok (bs.take n, bs.drop n) := if_pos (Bytes.holds_iff.mpr hn)
    rw [hr]
    exact ⟨trivial, (List.drop_suffix n bs).trans hbs⟩
  · rw [take_short (Nat.lt_of_not_le hn)]
    exact ⟨Nat.lt_of_not_le hn, hbs.length_le⟩

theorem demand_ends (n : Nat) : Ends limit whole (demand n) fun _ => True := by
  intro bs hbs
  by_cases hn : n ≤ bs.length
  · rw [demand_eq_ok_iff.mpr ⟨hn, rfl⟩]
    exact ⟨trivial, hbs⟩
  · have hr : demand n bs = .error (.insufficientData n bs.length) := if_neg (by simpa using hn)
    rw [hr]
    exact ⟨Nat.lt_of_not_le hn, hbs.length_le⟩

theorem number_ends (width : Nat) (ofNat : Nat → α) : Ends limit whole (do return ofNat (← nat width)) fun _ => True := by
  have hnat : Ends limit whole (nat width) fun _ => True := (take_ends width).map fun _ h => h
  exact hnat.map fun _ h => h

theorem uint8_ends : Ends limit whole uint8 (· ∈ whole) := by
  apply ((number_ends 1 _).of_accepts uint8_accepts).imp
  rintro b ⟨_, rfl, hb⟩
  exact hb.subset List.mem_cons_self

theorem int32_ends : Ends limit whole int32 fun n => Bytes.ofNat 4 n.toUInt32.toNat <:+: whole := by
  apply ((number_ends 4 _).of_accepts int32_accepts).imp
  rintro n ⟨_, rfl, hn⟩
  exact hn

theorem codeOf_ends {b : UInt8} (hb : b ∈ whole) : Ends limit whole (codeOf b) fun _ => True := by
  unfold codeOf
  cases hc : TypeCode.ofByte? b with
  | none => exact .throw ⟨hb, hc⟩
  | some c => exact .pure trivial

theorem typeCode_ends : Ends limit whole typeCode fun _ => True := uint8_ends.bind fun _ hb => codeOf_ends hb

theorem count_ends (m : Nat) : Ends limit whole (count m) fun _ => True := by
  apply int32_ends.bind
  intro n hn
  by_cases hneg : n < 0
  · have hthrow : Ends limit whole (throw (.negativeLength n) : Reader Unit) fun _ => True := .throw ⟨hneg, hn⟩
    simp only [if_pos hneg]
    exact hthrow.bind fun _ _ => (demand_ends _).map fun _ h => h
  · simp only [if_neg hneg]
    exact (demand_ends _).map fun _ h => h

theorem fit_ends {r : Except Misfit α} {a : α} (hr : r = .ok a) (ha : P a) : Ends limit whole (fit r) P := by
  rw [hr]
  exact .pure ha

section Loop
variable {element : TypeCode → Reader Value} (hw : ReadsWithin levels element)
include hw

theorem fields_of_length_le {bound bs : Bytes} (hb : bs.length ≤ bound.length) :
    fields element bound bs = fields element bs bs := by
  have hsame (c : TypeCode) : Continues (fun _ => False) [] (element c) (element c) := by
    intro rest
    right
    rw [List.append_nil]
    cases element c rest with
    | error e => rfl
    | ok r => exact congrArg Except.ok (Prod.ext rfl (List.append_nil r.2).symm)
  have hrun : ContinuesOn (fun _ => False) [] (fields element bs) (fields element bound) bs :=
    fields_continuesOn (absurd rfl) hsame hw (Nat.le_refl _) (by rwa [List.append_nil])
  rcases hrun with ⟨_, -, hno⟩ | hrun
  · exact hno.elim
  · rw [List.append_nil] at hrun
    rw [hrun]
    cases fields element bs bs with
    | error e => rfl
    | ok r => exact congrArg Except.ok (Prod.ext rfl (List.append_nil r.2))

/-- The loop over the fields is bounded only to be seen to end. Bounded by what it reads from it does what it would do
without a bound: a tag and its field, and then all of it again. -/
theorem fields_unbounded (bs : Bytes) :
    fields element bs bs = (do
      let tag ← uint8
      if tag = TypeCode.stop then return []
      else return (← field element tag) :: (← fun rest => fields element rest rest)) bs := by
  cases bs with
  | nil => rfl
  | cons b bs =>
    have htag : uint8 (b :: bs) = .ok (b, bs) := (uint8_accepts _ _ _).mpr ⟨[b], rfl, rfl⟩
    rw [fields_cons, bind_of_ok htag, bind_of_ok htag]
    by_cases hstop : b = TypeCode.stop
    · rw [if_pos hstop, if_pos hstop]
    · rw [if_neg hstop, if_neg hstop]
      cases hfield : field element b bs with
      | error e => rw [bind_of_error hfield, bind_of_error hfield]
      | ok r =>
        have hshorter : r.2.length ≤ bs.length := by
          rcases (hw.field b bs r.1 r.2).mp hfield with ⟨raw, hraw, -⟩
          rw [hraw, List.length_append]
          omega
        have hloop : fields element bs r.2 = fields element r.2 r.2 := fields_of_length_le hw hshorter
        rw [bind_of_ok hfield, bind_of_ok hfield]
        change (fields element bs r.2 >>= _) = (fields element r.2 r.2 >>= _)
        rw [hloop]

end Loop

section Elements
variable {element : TypeCode → Reader Value} (he : ∀ c, Ends limit whole (element c) fun v => v.typeCode = c)
include he

theorem sequence_ends {build : TypeCode → List Value → Except Misfit Value} {mk : TypeCode → List Value → Value}
    (hbuild : ∀ c vs v, build c vs = .ok v ↔ (∀ w ∈ vs, w.typeCode = c) ∧ v = mk c vs) :
    Ends limit whole (sequence build element) fun v => ∃ c vs, v = mk c vs := by
  refine typeCode_ends.bind fun c _ => (count_ends _).bind fun n _ => ((he c).times n).bind fun vs hvs => ?_
  exact fit_ends ((hbuild c vs (mk c vs)).mpr ⟨hvs, rfl⟩) ⟨c, vs, rfl⟩

theorem map_ends : Ends limit whole (map element) fun v => v.typeCode = .map := by
  have hitem (k c : TypeCode) : Ends limit whole (do return (← element k, ← element c)) fun x : Value × Value =>
      x.1.typeCode = k ∧ x.2.typeCode = c := (he k).bind fun a ha => (he c).map fun b hb => ⟨ha, hb⟩
  refine typeCode_ends.bind fun k _ => typeCode_ends.bind fun c _ => (count_ends _).bind fun n _ => ?_
  apply ((hitem k c).times n).bind
  intro xs hxs
  exact fit_ends (Value.checkedMap_eq_ok_iff.mpr ⟨hxs, rfl⟩) rfl

theorem field_ends {tag : UInt8} (htag : tag ∈ whole) : Ends limit whole (field element tag) fun _ => True := by
  refine (codeOf_ends htag).bind fun c _ => (number_ends 2 _).bind fun id _ => (he c).bind fun v hv => ?_
  exact fit_ends (Value.checkedField_eq_ok_iff.mpr ⟨hv, rfl⟩) trivial

theorem fields_ends (bound : Bytes) : Ends limit whole (fields element bound) fun _ => True := by
  induction bound with
  | nil => exact .throw ⟨Nat.zero_lt_one, Nat.zero_le _⟩
  | cons b bound ih =>
    rw [fields_cons]
    apply uint8_ends.bind
    intro tag htag
    by_cases hstop : tag = TypeCode.stop
    · simp only [if_pos hstop]
      exact .pure trivial
    · simp only [if_neg hstop]
      exact (field_ends he htag).bind fun fd _ => ih.map fun _ h => h

theorem struct_ends : Ends limit whole (struct element) fun v => v.typeCode = .struct := by
  intro bs
  have hrun : Ends limit whole (do return Value.struct (← fields element bs)) fun v => v.typeCode = .struct :=
    (fields_ends he bs).map fun _ _ => rfl
  exact hrun bs

end Elements

theorem value_ends_of_not_nests {c : TypeCode} (hc : c.nests = false) :
    Ends limit whole (value limit levels c) fun v => v.typeCode = c := by
  cases c with
  | bool | byte => rw [value]; exact (number_ends 1 _).map fun _ _ => rfl
  | double | i64 => rw [value]; exact (number_ends 8 _).map fun _ _ => rfl
  | i16 => rw [value]; exact (number_ends 2 _).map fun _ _ => rfl
  | i32 => rw [value]; exact (number_ends 4 _).map fun _ _ => rfl
  | binary =>
    rw [value]
    exact (count_ends 1).bind fun n _ => (take_ends n).map fun _ _ => rfl
  | struct | map | set | list => cases hc

/-- By induction on the levels: what holds values is read from parts that end so, and have the codes they are read for. -/
theorem value_ends (c : TypeCode) : Ends limit whole (value limit levels c) fun v => v.typeCode = c := by
  induction levels generalizing c with
  | zero =>
    cases c with
    | struct | map | set | list => exact .throw rfl
    | _ => exact value_ends_of_not_nests rfl
  | succ levels ih =>
    cases c with
    | struct => exact struct_ends ih
    | map => exact map_ends ih
    | set =>
      apply (sequence_ends ih fun _ _ _ => Value.checkedSet_eq_ok_iff).imp
      rintro _ ⟨c, vs, rfl⟩
      rfl
    | list =>
      apply (sequence_ends ih fun _ _ _ => Value.checkedList_eq_ok_iff).imp
      rintro _ ⟨c, vs, rfl⟩
      rfl
    | _ => exact value_ends_of_not_nests rfl

end Reader

namespace Protocol

theorem decode_ends (p : Protocol) (c : TypeCode) (bs : Bytes) :
    (∃ v, p.decode c bs = .ok v ∧ v.typeCode = c) ∨ ∃ e, p.decode c bs = .error e ∧ e.TrueOf p.maxDepth bs := by
  have hends : Reader.Ends p.maxDepth bs (Reader.value p.maxDepth p.maxDepth c) fun v => v.typeCode = c :=
    Reader.value_ends c
  have hend := hends bs (List.suffix_refl bs)
  cases hr : Reader.value p.maxDepth p.maxDepth c bs with
  | ok r =>
    rw [hr] at hend
    exact Or.inl ⟨r.1, map_eq_ok_iff.mpr ⟨r, hr, rfl⟩, hend.1⟩
  | error e =>
    rw [hr] at hend
    exact Or.inr ⟨e, map_eq_error_iff.mpr hr, hend⟩

/-- Every decoding ends, whatever the bytes and the limit are. It gives a value of the code asked for, or one of four
failures, each of which is true of the bytes; no constructor refuses what was read for it. What makes the loop over the
fields of a struct end does not cut it short: it reads a tag, stops at the stop byte, and otherwise reads a field and goes
on with all that is left. -/
theorem decode_truthful (p : Protocol) (c : TypeCode) (bs : Bytes) :
    ((∃ v, p.decode c bs = .ok v ∧ v.typeCode = c) ∨ ∃ e, p.decode c bs = .error e ∧ e.TrueOf p.maxDepth bs) ∧
      ∀ levels, ∃ loop : Reader (List Field),
        Reader.value p.maxDepth (levels + 1) .struct = (do return .struct (← loop)) ∧
          loop = do
            let tag ← Reader.uint8
            if tag = TypeCode.stop then return []
            else return (← Reader.field (Reader.value p.maxDepth levels) tag) :: (← loop) := by
  refine ⟨p.decode_ends c bs, fun levels => ⟨fun rest => Reader.fields _ rest rest, rfl, ?_⟩⟩
  exact funext (Reader.fields_unbounded (Reader.value_accepts p.maxDepth levels))

/-- The count of an inner list, read from the last four bytes. -/
example : Protocol.decode ⟨2⟩ .list [0x0F, 0, 0, 0, 1, 0x0B, 0xFF, 0xFF, 0xFF, 0xFE] = .error (.negativeLength (-2)) := rfl

end Protocol
end TaggedWire
