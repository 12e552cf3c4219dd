import TaggedWire.Proofs.Codec.DepthLimit
import TaggedWire.Proofs.Codec.RoundTrip

/-! More room and more bytes. A decoder with more levels free, and with other bytes behind the same ones, does what the
first one did, unless that one gave up for want of levels or of bytes. So a larger limit changes no other outcome, and
what is decoded or refused does not depend on the bytes that come later. -/
namespace TaggedWire
namespace Reader

variable {α β : Type} {gaveUp : DecodeError → Prop} {more : Bytes} {x y : Reader α} {f g : α → Reader β} {bs : Bytes}

/-- With more bytes behind these the second reader ends as the first one does, unless that one gives up. -/
def ContinuesOn (gaveUp : DecodeError → Prop) (more : Bytes) (x y : Reader α) (bs : Bytes) : Prop :=
  (∃ e, x bs = .error e ∧ gaveUp e) ∨ y (bs ++ more) = (x bs).map fun r => (r.1, r.2 ++ more)

def Continues (gaveUp : DecodeError → Prop) (more : Bytes) (x y : Reader α) : Prop :=
  ∀ bs, ContinuesOn gaveUp more x y bs

theorem Continues.pure (a : α) : Continues gaveUp more (Pure.pure a) (Pure.pure a) := fun _ => Or.inr rfl

theorem Continues.throw (e : DecodeError) :
    Continues gaveUp more (MonadExcept.throw e : Reader α) (MonadExcept.throw e) := fun _ => Or.inr rfl

theorem ContinuesOn.bind (hx : ContinuesOn gaveUp more x y bs)
    (hf : ∀ a rest, x bs = .ok (a, rest) → ContinuesOn gaveUp more (f a) (g a) rest) :
    ContinuesOn gaveUp more (x >>= f) (y >>= g) bs := by
  rcases hx with ⟨e, he, hgave⟩ | hy
  · exact Or.inl ⟨e, bind_of_error he, hgave⟩
  · cases hr : x bs with
    | error e =>
      rw [hr] at hy
      exact Or.inr (by rw [bind_of_error hr, bind_of_error hy]; rfl)
    | ok r =>
      rw [hr] at hy
      have h := hf r.1 r.2 hr
      rw [ContinuesOn, bind_of_ok hr, bind_of_ok hy]
      exact h

theorem Continues.bind (hx : Continues gaveUp more x y) (hf : ∀ a, Continues gaveUp more (f a) (g a)) :
    Continues gaveUp more (x >>= f) (y >>= g) := fun bs => (hx bs).bind fun a rest _ => hf a rest

theorem Continues.map (hx : Continues gaveUp more x y) (f : α → β) :
    Continues gaveUp more (do return f (← x)) (do return f (← y)) := hx.bind fun a => .pure (f a)

theorem Continues.times (hx : Continues gaveUp more x y) (n : Nat) :
    Continues gaveUp more (Reader.times x n) (Reader.times y n) := by
  induction n with
  | zero => exact .pure []
  | succ n ih => exact hx.bind fun a => ih.map (a :: ·)

theorem fit_continues (r : Except Misfit α) : Continues gaveUp more (Reader.fit r) (Reader.fit r) := by
  cases r with
  | ok a => exact .pure a
  | error m => exact .throw _

theorem codeOf_continues (b : UInt8) : Continues gaveUp more (Reader.codeOf b) (Reader.codeOf b) := by
  unfold Reader.codeOf
  cases TypeCode.ofByte? b with
  | none => exact .throw _
  | some c => exact .pure c

theorem item_continues {element element' : TypeCode → Reader Value}
    (he : ∀ c, Continues gaveUp more (element c) (element' c)) (k c : TypeCode) :
    Continues gaveUp more (do return (← element k, ← element c)) (do return (← element' k, ← element' c)) :=
  (he k).bind fun a => (he c).map fun b => (a, b)

/-- Without a byte there is no field and no stop byte, whatever the bound. -/
theorem fields_of_nil (element : TypeCode → Reader Value) (bound : Bytes) :
    fields element bound [] = .error (.insufficientData 1 0) := by
  cases bound with
  | nil => rfl
  | cons b bound =>
    rw [fields_cons]
    rfl

/-! A read that finds too few bytes may find enough once more come, so if more may come it has to count as giving up. -/
section Bytes
variable (hmore : more ≠ [] → ∀ needed available, gaveUp (.insufficientData needed available))
include hmore

theorem continuesOn_of_short {needed available : Nat} (hx : x bs = .error (.insufficientData needed available))
    (hy : y bs = .error (.insufficientData needed available)) : ContinuesOn gaveUp more x y bs := by
  by_cases hm : more = []
  · right
    rw [hm, hx, List.append_nil, hy]
    rfl
  · exact Or.inl ⟨_, hx, hmore hm needed available⟩

theorem take_continues (n : Nat) : Continues gaveUp more (Reader.take n) (Reader.take n) := by
  intro bs
  by_cases hn : n ≤ bs.length
  · have hx : Reader.take n bs = .ok (bs.take n, bs.drop n) := if_pos (Bytes.holds_iff.mpr hn)
    have hy : Reader.take n (bs ++ more) = .ok ((bs ++ more).take n, (bs ++ more).drop n) :=
      if_pos (Bytes.holds_iff.mpr (by rw [List.length_append]; omega))
    right
    rw [hx, hy, List.take_append_of_le_length hn, List.drop_append_of_le_length hn]
    rfl
  · have hx := take_short (Nat.lt_of_not_le hn)
    exact continuesOn_of_short hmore hx hx

theorem demand_continues (n : Nat) : Continues gaveUp more (Reader.demand n) (Reader.demand n) := by
  intro bs
  by_cases hn : n ≤ bs.length
  · have hx : Reader.demand n bs = .ok ((), bs) := demand_eq_ok_iff.mpr ⟨hn, rfl⟩
    have hy : Reader.demand n (bs ++ more) = .ok ((), bs ++ more) :=
      demand_eq_ok_iff.mpr ⟨by rw [List.length_append]; omega, rfl⟩
    right
    rw [hx, hy]
    rfl
  · have hx : Reader.demand n bs = .error (.insufficientData n bs.length) := if_neg (by simpa using hn)
    exact continuesOn_of_short hmore hx hx

theorem nat_continues (width : Nat) : Continues gaveUp more (Reader.nat width) (Reader.nat width) :=
  (take_continues hmore width).map _

theorem uint8_continues : Continues gaveUp more uint8 uint8 := (nat_continues hmore 1).map _

theorem int16_continues : Continues gaveUp more int16 int16 := (nat_continues hmore 2).map _

theorem typeCode_continues : Continues gaveUp more typeCode typeCode := (uint8_continues hmore).bind codeOf_continues

theorem count_continues (m : Nat) : Continues gaveUp more (Reader.count m) (Reader.count m) := by
  refine ((nat_continues hmore 4).map _).bind fun n => ?_
  by_cases hn : n < 0
  · simp only [if_pos hn]
    exact (Continues.throw _).bind fun _ => (demand_continues hmore _).bind fun _ => .pure _
  · simp only [if_neg hn]
    exact (demand_continues hmore _).bind fun _ => .pure _

theorem value_continues_of_not_nests {limit limit' levels levels' : Nat} {c : TypeCode} (hc : c.nests = false) :
    Continues gaveUp more (value limit levels c) (value limit' levels' c) := by
  cases c with
  | bool => rw [value, value]; exact (uint8_continues hmore).map _
  | byte => rw [value, value]; exact ((nat_continues hmore 1).map _).map _
  | double => rw [value, value]; exact ((nat_continues hmore 8).map _).map _
  | i16 => rw [value, value]; exact (int16_continues hmore).map _
  | i32 => rw [value, value]; exact ((nat_continues hmore 4).map _).map _
  | i64 => rw [value, value]; exact ((nat_continues hmore 8).map _).map _
  | binary =>
    rw [value, value]
    exact (count_continues hmore 1).bind fun n => (take_continues hmore n).map _
  | struct | map | set | list => cases hc

section Elements
variable {levels : Nat} {element element' : TypeCode → Reader Value}
  (he : ∀ c, Continues gaveUp more (element c) (element' c))
include he

theorem sequence_continues (build : TypeCode → List Value → Except Misfit Value) :
    Continues gaveUp more (Reader.sequence build element) (Reader.sequence build element') :=
  (typeCode_continues hmore).bind fun c => (count_continues hmore _).bind fun n =>
    ((he c).times n).bind fun _ => fit_continues _

theorem map_continues : Continues gaveUp more (Reader.map element) (Reader.map element') :=
  (typeCode_continues hmore).bind fun k => (typeCode_continues hmore).bind fun c =>
    (count_continues hmore _).bind fun n => ((item_continues he k c).times n).bind fun _ => fit_continues _

theorem field_continues (tag : UInt8) : Continues gaveUp more (Reader.field element tag) (Reader.field element' tag) :=
  (codeOf_continues tag).bind fun c => (int16_continues hmore).bind fun _ => (he c).bind fun _ => fit_continues _

/-- The loop over the fields: by induction on its bound, which a field never outruns, since it takes bytes. The two loops
are bounded by what each of them has to read, so their bounds differ. -/
theorem fields_continuesOn (hw : ReadsWithin levels element) {bound bound' : Bytes} (hb : bs.length ≤ bound.length)
    (hb' : (bs ++ more).length ≤ bound'.length) :
    ContinuesOn gaveUp more (Reader.fields element bound) (Reader.fields element' bound') bs := by
  have hend (bound bound' : Bytes) :
      ContinuesOn gaveUp more (Reader.fields element bound) (Reader.fields element' bound') [] :=
    continuesOn_of_short hmore (fields_of_nil element bound) (fields_of_nil element' bound')
  induction bound generalizing bs bound' with
  | nil =>
    have hnil : bs = [] := List.length_eq_zero_iff.mp (Nat.le_zero.mp hb)
    rw [hnil]
    exact hend [] bound'
  | cons b bound ih =>
    cases bound' with
    | nil =>
      have hnil : bs ++ more = [] := List.length_eq_zero_iff.mp (Nat.le_zero.mp hb')
      rw [(List.append_eq_nil_iff.mp hnil).1]
      exact hend (b :: bound) []
    | cons b' bound' =>
      rw [fields_cons, fields_cons]
      refine (uint8_continues hmore bs).bind fun tag mid htag => ?_
      by_cases hstop : tag = TypeCode.stop
      · simp only [if_pos hstop]
        exact Continues.pure [] mid
      · simp only [if_neg hstop]
        refine (field_continues hmore he tag mid).bind fun fd tail hfd => ?_
        have hbs : bs.length = mid.length + 1 := by
          rcases (uint8_accepts bs tag mid).mp htag with ⟨raw, rfl, rfl⟩
          rfl
        have htail : tail.length ≤ mid.length := by
          rcases (hw.field tag mid fd tail).mp hfd with ⟨raw, rfl, -⟩
          rw [List.length_append]
          omega
        simp only [List.length_append, List.length_cons] at hb hb'
        have hrest : ContinuesOn gaveUp more (Reader.fields element bound) (Reader.fields element' bound') tail :=
          ih (by omega) (by rw [List.length_append]; omega)
        exact hrest.bind fun fs rest _ => Continues.pure (fd :: fs) rest

theorem struct_continues (hw : ReadsWithin levels element) :
    Continues gaveUp more (Reader.struct element) (Reader.struct element') := by
  intro bs
  have hfields : ContinuesOn gaveUp more (Reader.fields element bs) (Reader.fields element' (bs ++ more)) bs :=
    fields_continuesOn hmore he hw (Nat.le_refl _) (Nat.le_refl _)
  exact hfields.bind fun fs rest _ => Continues.pure (Value.struct fs) rest

end Elements

/-- The decoder with more levels free, or under the same limit and with as many: by induction on the levels of the first
run, each kind of container from its parts. -/
theorem value_continues {limit limit' levels levels' : Nat} (hle : levels ≤ levels')
    (hlimit : gaveUp (.depthLimitExceeded limit) ∨ limit = limit' ∧ levels = levels') (c : TypeCode) :
    Continues gaveUp more (value limit levels c) (value limit' levels' c) := by
  induction levels generalizing levels' c with
  | zero =>
    cases hc : c.nests with
    | false => exact value_continues_of_not_nests hmore hc
    | true =>
      have hzero (limit : Nat) : value limit 0 c = throw (.depthLimitExceeded limit) := by
        cases c with
        | struct | map | set | list => rfl
        | _ => cases hc
      rw [hzero]
      rcases hlimit with hgave | ⟨rfl, rfl⟩
      · exact fun bs => Or.inl ⟨_, rfl, hgave⟩
      · rw [hzero]
        exact .throw _
  | succ levels ih =>
    obtain ⟨levels', rfl⟩ : ∃ n, levels' = n + 1 := ⟨levels' - 1, by omega⟩
    have he (c : TypeCode) : Continues gaveUp more (value limit levels c) (value limit' levels' c) :=
      ih (Nat.le_of_succ_le_succ hle) (hlimit.imp_right fun h => ⟨h.1, Nat.succ.inj h.2⟩) c
    cases c with
    | struct => exact struct_continues hmore he (value_accepts limit levels)
    | map => exact map_continues hmore he
    | set | list => exact sequence_continues hmore he _
    | _ => exact value_continues_of_not_nests hmore rfl

end Bytes

end Reader

namespace Protocol

/-- Under a larger limit every outcome stays as it is, apart from the refusals for the limit. What is decoded under the
larger limit is decoded under the smaller one if it nests within that, and otherwise refused for that alone. The levels
are counted on each way down by itself, so siblings do not use up one another's. -/
theorem decode_of_maxDepth_le {p q : Protocol} (hpq : p.maxDepth ≤ q.maxDepth) (c : TypeCode) (bs : Bytes) :
    ((∀ n, p.decode c bs ≠ .error (.depthLimitExceeded n)) →
      q.decodePrefix c bs = p.decodePrefix c bs ∧ q.decode c bs = p.decode c bs) ∧
    ∀ v, q.decode c bs = .ok v →
      (p.decode c bs = if v.depth ≤ p.maxDepth then .ok v else .error (.depthLimitExceeded p.maxDepth)) ∧
      (v.depth ≤ p.maxDepth ↔ ∀ n w, v.Way n w → w.typeCode.nests = true → n < p.maxDepth) := by
  constructor
  · intro hp
    have hrun : Reader.ContinuesOn (· = .depthLimitExceeded p.maxDepth) [] (Reader.value p.maxDepth p.maxDepth c)
        (Reader.value q.maxDepth q.maxDepth c) bs := by
      apply Reader.value_continues (absurd rfl) hpq
      exact Or.inl rfl
    rcases hrun with ⟨e, he, rfl⟩ | hsame
    · exact absurd (map_eq_error_iff.mpr he) (hp p.maxDepth)
    · have hfront : q.decodePrefix c bs = p.decodePrefix c bs := by
        change q.decodePrefix c (bs ++ []) = (p.decodePrefix c bs).map fun r => (r.1, r.2 ++ []) at hsame
        simp only [List.append_nil] at hsame
        rw [hsame]
        cases p.decodePrefix c bs with
        | error e => rfl
        | ok r => rfl
      exact ⟨hfront, by rw [decode, hfront, decode]⟩
  · intro v hv
    rcases decode_eq_ok_iff.mp hv with ⟨rest, hrest⟩
    rcases decodePrefix_eq_ok_iff.mp hrest with ⟨raw, rfl, ⟨rfl, hw, -⟩, hs⟩
    refine ⟨?_, Value.depth_le_iff_way⟩
    rw [decode, decodePrefix_of_spells p hw hs rest]
    by_cases hd : v.depth ≤ p.maxDepth
    · rw [if_pos hd, if_pos hd]
      rfl
    · rw [if_neg hd, if_neg hd]
      rfl

/-- Two empty lists in a list need two levels and not three; the unknown code of an element is found under each limit. -/
theorem decode_of_maxDepth_le_siblings :
    let v : Value := .list .list [.list .i32 [], .list .i32 []]
    let bs : Bytes := [0x0F, 0, 0, 0, 2, 0x08, 0, 0, 0, 0, 0x08, 0, 0, 0, 0]
    let bad : Bytes := [0x0F, 0, 0, 0, 1, 0x10, 0, 0, 0, 0]
    Protocol.decode ⟨2⟩ .list bs = .ok v ∧ Protocol.decode ⟨1⟩ .list bs = .error (.depthLimitExceeded 1) ∧
      Protocol.decode ⟨64⟩ .list bs = .ok v ∧ Protocol.decode ⟨2⟩ .list bad = .error (.invalidTypeCode 0x10) ∧
      Protocol.decode ⟨64⟩ .list bad = .error (.invalidTypeCode 0x10) := by
  intro v bs bad
  have hv : Protocol.decode ⟨2⟩ .list bs = .ok v := rfl
  have hbad : Protocol.decode ⟨2⟩ .list bad = .error (.invalidTypeCode 0x10) := rfl
  have hless := decode_of_maxDepth_le (p := ⟨1⟩) (q := ⟨2⟩) (by decide) .list bs
  have hmore := decode_of_maxDepth_le (p := ⟨2⟩) (q := ⟨64⟩) (by decide) .list bs
  have hmore' := decode_of_maxDepth_le (p := ⟨2⟩) (q := ⟨64⟩) (by decide) .list bad
  refine ⟨hv, ?_, ?_, hbad, ?_⟩
  · exact (hless.2 v hv).1
  · exact (hmore.1 (by simp [hv])).2.trans hv
  · exact (hmore'.1 (by simp [hbad])).2.trans hbad

/-- Once the bytes that are there decide the outcome, no bytes behind them change it. So a value that is decoded from
some bytes is not to be had from fewer of them: there the decoder asks for more, and takes them for no other value. -/
theorem decode_append (p : Protocol) (c : TypeCode) (bs : Bytes) :
    ((∀ needed available, p.decode c bs ≠ .error (.insufficientData needed available)) → ∀ more,
      (∀ v rest, p.decodePrefix c bs = .ok (v, rest) → p.decodePrefix c (bs ++ more) = .ok (v, rest ++ more)) ∧
      p.decode c (bs ++ more) = p.decode c bs) ∧
    ∀ v rest, p.decodePrefix c bs = .ok (v, rest) → ∀ front later : Bytes, bs = front ++ later →
      rest.length < later.length →
        ∃ needed available, p.decode c front = .error (.insufficientData needed available) := by
  have hrun (front more : Bytes) :
      (∃ needed available, p.decode c front = .error (.insufficientData needed available)) ∨
        p.decodePrefix c (front ++ more) = (p.decodePrefix c front).map fun r => (r.1, r.2 ++ more) := by
    have hcontinues : Reader.ContinuesOn (fun e => ∃ needed available, e = .insufficientData needed available) more
        (Reader.value p.maxDepth p.maxDepth c) (Reader.value p.maxDepth p.maxDepth c) front :=
      Reader.value_continues (fun _ needed available => ⟨needed, available, rfl⟩) (Nat.le_refl _) (Or.inr ⟨rfl, rfl⟩)
        c front
    rcases hcontinues with ⟨e, he, needed, available, rfl⟩ | hsame
    · exact Or.inl ⟨needed, available, map_eq_error_iff.mpr he⟩
    · exact Or.inr hsame
  constructor
  · intro hbs more
    rcases hrun bs more with ⟨needed, available, he⟩ | hsame
    · exact absurd he (hbs needed available)
    · constructor
      · intro v rest hv
        rw [hsame, hv]
        rfl
      · rw [decode, hsame, decode]
        cases p.decodePrefix c bs with
        | error e => rfl
        | ok r => rfl
  · intro v rest hv front later hbs hlt
    rcases hrun front later with hshort | hsame
    · exact hshort
    · -- the value would be read off the front, and then all that comes later would be left
      rw [← hbs, hv] at hsame
      rcases map_eq_ok_iff.mp hsame.symm with ⟨r, -, hr⟩
      have hrest : rest = r.2 ++ later := congrArg Prod.snd hr
      rw [hrest, List.length_append] at hlt
      omega

/-- A map of one item with one byte behind it, and the same bytes without the last of the item. -/
theorem decode_append_truncated :
    let bs : Bytes := [0x06, 0x02, 0, 0, 0, 1, 0, 7, 1]
    Protocol.decodePrefix ⟨1⟩ .map (bs ++ [0xEE]) = .ok (.map .i16 .bool [(.i16 7, .bool true)], [0xEE]) ∧
      ∃ needed available, Protocol.decode ⟨1⟩ .map (bs.take 8) = .error (.insufficientData needed available) := by
  intro bs
  have hv : Protocol.decodePrefix ⟨1⟩ .map bs = .ok (.map .i16 .bool [(.i16 7, .bool true)], []) := rfl
  have hd : Protocol.decode ⟨1⟩ .map bs = .ok (.map .i16 .bool [(.i16 7, .bool true)]) := rfl
  have h := decode_append ⟨1⟩ .map bs
  constructor
  · exact (h.1 (by simp [hd]) [0xEE]).1 _ [] hv
  · exact h.2 _ [] hv (bs.take 8) (bs.drop 8) (List.take_append_drop 8 bs).symm (by decide)

end Protocol
end TaggedWire
