import TaggedWire.Proofs.Codec.RoundTrip
import TaggedWire.Proofs.Host.Relisting
import TaggedWire.Proofs.Host.RoundTrip
import TaggedWire.Proofs.Value.Size

/-! Reading a message and writing it again. What is read is a value of its type, whatever else the message holds:
unknown and repeated fields, foreign codes of empty containers, repeated elements and keys. What is written for it, in
any order of its sets and maps, is drawn from what was read, so it is no larger and reads as the same value. -/
namespace TaggedWire

variable {catalog : Catalog} {t : HostType} {v w : Value} {x y : HostValue} {slots slots' : List (Option HostValue)}
  {ms : List Member} {fs gs : List Field} {m : Member} {name : String}

theorem distinct_sublist {α : Type} [DecidableEq α] (xs : List α) : (distinct xs).Sublist xs := by
  induction xs with
  | nil => exact .slnil
  | cons x xs ih =>
    by_cases hx : x ∈ xs
    · rw [distinct, if_pos hx]
      exact ih.cons x
    · rw [distinct, if_neg hx]
      exact ih.cons_cons x

theorem distinct_nodup {α : Type} [DecidableEq α] (xs : List α) : (distinct xs).Nodup := by
  induction xs with
  | nil => exact List.nodup_nil
  | cons x xs ih =>
    by_cases hx : x ∈ xs
    · rw [distinct, if_pos hx]
      exact ih
    · rw [distinct, if_neg hx]
      exact List.nodup_cons.mpr ⟨fun hmem => hx ((distinct_sublist xs).subset hmem), ih⟩

theorem lastEntries_sublist {κ α : Type} [DecidableEq κ] (xs : List (κ × α)) : (lastEntries xs).Sublist xs := by
  induction xs with
  | nil => exact .slnil
  | cons x xs ih =>
    by_cases hx : ∃ y ∈ xs, y.1 = x.1
    · rw [lastEntries, if_pos hx]
      exact ih.cons x
    · rw [lastEntries, if_neg hx]
      exact ih.cons_cons x

theorem lastEntries_nodup {κ α : Type} [DecidableEq κ] (xs : List (κ × α)) : ((lastEntries xs).map Prod.fst).Nodup := by
  induction xs with
  | nil => exact List.nodup_nil
  | cons x xs ih =>
    by_cases hx : ∃ y ∈ xs, y.1 = x.1
    · rw [lastEntries, if_pos hx]
      exact ih
    · rw [lastEntries, if_neg hx]
      refine List.nodup_cons.mpr ⟨fun hmem => ?_, ih⟩
      obtain ⟨y, hy, hkey⟩ := List.mem_map.mp hmem
      exact hx ⟨y, (lastEntries_sublist xs).subset hy, hkey⟩

theorem fills_of_readMember (h : List.Forall₂ (fun m slot => readMember catalog fs m = .ok slot) ms slots)
    (hfs : ∀ f ∈ fs, ∀ t x, fromWire catalog f.2 t = .ok x → x.HasType catalog t) :
    HostValue.Fills catalog slots ms := by
  induction h with
  | nil => exact .nil
  | @cons m slot _ _ hm _ ih =>
    cases slot with
    | none => exact .empty (readMember_eq_ok_none_iff.mp hm).2 ih
    | some x =>
      obtain ⟨v, hv, hx⟩ := readMember_eq_ok_some_iff.mp hm
      exact .filled (hfs _ (mem_of_fieldAt hv) m.type x hx) ih

theorem hasType_and_toWire_of_not_nests (hn : v.typeCode.nests = false) (hx : fromWire catalog v t = .ok x) :
    x.HasType catalog t ∧ toWire catalog x t = .ok v := by
  cases v with
  | struct | map | set | list => cases hn
  | binary bs =>
    cases t with
    | bytes =>
      cases hx
      exact ⟨.bytes bs, rfl⟩
    | text =>
      cases hs : bs.text? with
      | none =>
        rw [fromWire, hs] at hx
        cases hx
      | some s =>
        rw [fromWire, hs] at hx
        cases hx
        rw [toWire, Bytes.text?_eq_some_iff.mp hs]
        exact ⟨.text s, rfl⟩
    | _ => cases hx
  | i64 n =>
    cases t with
    | int64 =>
      cases hx
      exact ⟨.int64 n, rfl⟩
    | time =>
      obtain ⟨hrange, rfl⟩ := ite_eq_ok_iff.mp hx
      exact ⟨.time hrange, rfl⟩
    | _ => cases hx
  | _ =>
    cases t <;> cases hx
    exact ⟨by constructor, rfl⟩

theorem eq_of_relisted_of_not_nests (hy : x.Relisted y) (hv : toWire catalog x t = .ok v)
    (hn : v.typeCode.nests = false) : y = x := by
  cases hy with
  | same => rfl
  | _ =>
    rw [typeCode_of_toWire hv] at hn
    cases t <;> first | cases hv | cases hn

theorem hasType_of_fromWire (hx : fromWire catalog v t = .ok x) : x.HasType catalog t := by
  induction v generalizing t x with
  | struct fs ih =>
    cases t with
    | record name =>
      obtain ⟨slots, hslots, rfl⟩ := fromWire_struct_eq_ok_iff.mp hx
      exact .record (fills_of_readMember hslots fun f hf t x => ih f hf)
    | _ => cases hx
  | map k c xs ih =>
    cases t with
    | map key value =>
      obtain ⟨-, ys, hys, rfl⟩ := fromWire_map_eq_ok_iff.mp hx
      have hitems : ∀ y ∈ ys, y.1.HasType catalog key ∧ y.2.HasType catalog value :=
        forall_mem_of_forall₂ hys fun x hx y hxy => ⟨(ih x hx).1 hxy.1, (ih x hx).2 hxy.2⟩
      have hsub := (lastEntries_sublist ys).subset
      exact .map (lastEntries_nodup ys) (fun y hy => (hitems y (hsub hy)).1) fun y hy => (hitems y (hsub hy)).2
    | _ => cases hx
  | set c vs ih =>
    cases t with
    | set elem =>
      obtain ⟨-, ys, hys, rfl⟩ := fromWire_set_eq_ok_iff.mp hx
      have hall := forall_mem_of_forall₂ hys fun v hv y hvy => ih v hv hvy
      exact .set (distinct_nodup ys) fun y hy => hall y ((distinct_sublist ys).subset hy)
    | _ => cases hx
  | list c vs ih =>
    cases t with
    | list elem =>
      obtain ⟨-, ys, hys, rfl⟩ := fromWire_list_eq_ok_iff.mp hx
      exact .list (forall_mem_of_forall₂ hys fun v hv y hvy => ih v hv hvy)
    | _ => cases hx
  | _ => exact (hasType_and_toWire_of_not_nests rfl hx).1

/-- What is written for the one is no larger than the other. -/
def WritesWithin (catalog : Catalog) (t : HostType) (y : HostValue) (v : Value) : Prop :=
  ∀ w, toWire catalog y t = .ok w → w.NoLarger v

theorem WritesSlots.exists_source (hw : WritesSlots catalog slots' ms gs)
    (hread : List.Forall₂ (fun m slot => readMember catalog fs m = .ok slot) ms slots)
    (hslots : List.Forall₂ (Option.Rel HostValue.Relisted) slots slots')
    (hfs : ∀ f ∈ fs, ∀ t x y, fromWire catalog f.2 t = .ok x → x.Relisted y → WritesWithin catalog t y f.2) :
    ∀ g ∈ gs, ∃ f, f ∈ fs ∧ g.1 = f.1 ∧ Value.NoLarger g.2 f.2 := by
  induction hw generalizing slots with
  | nil => exact List.forall_mem_nil _
  | empty _ _ ih =>
    cases hread with
    | cons _ hread =>
      cases hslots with
      | cons _ hslots => exact ih hread hslots
  | @filled m y w _ _ _ hv _ ih =>
    cases hread with
    | cons hm hread =>
      cases hslots with
      | cons hslot hslots =>
        refine List.forall_mem_cons.mpr ⟨?_, ih hread hslots⟩
        cases hslot with
        | some hxy =>
          obtain ⟨v, hfield, hx⟩ := readMember_eq_ok_some_iff.mp hm
          have hmem := mem_of_fieldAt hfield
          exact ⟨(m.key, v), hmem, rfl, hfs _ hmem m.type _ _ hx hxy w hv⟩

/-- The members have keys of their own, so the fields that they were read from are as many. -/
theorem WritesSlots.drawn (hw : WritesSlots catalog slots' ms gs) (hk : (ms.map Member.key).Nodup)
    (hsource : ∀ g ∈ gs, ∃ f, f ∈ fs ∧ g.1 = f.1 ∧ Value.NoLarger g.2 f.2) :
    Drawn (fun g f => Value.NoLarger g.2 f.2) gs fs := by
  obtain ⟨us, hus⟩ := exists_forall₂ hsource
  have hkeys : gs.map Prod.fst = us.map Prod.fst := by
    rw [← List.forall₂_eq_eq_eq, List.forall₂_map_left_iff, List.forall₂_map_right_iff]
    exact hus.imp fun _ _ h => h.2.1
  have hnodup : us.Nodup := by
    apply List.Nodup.of_map Prod.fst
    rw [← hkeys]
    exact hk.sublist hw.keys_sublist
  have hsubset : us ⊆ fs := forall_mem_of_forall₂ hus fun _ _ _ h => h.1
  exact ⟨us, hus.imp fun _ _ h => h.2.2, hnodup.subperm hsubset⟩

/-- What is written for a value that was read is no larger than what it was read from: by induction on that, where the
parts that are written are drawn from the parts that were read. -/
theorem writesWithin_of_fromWire (hc : catalog.DistinctIds) (hx : fromWire catalog v t = .ok x) (hy : x.Relisted y) :
    WritesWithin catalog t y v := by
  intro w hw
  induction v generalizing t x y w with
  | struct fs ih =>
    cases t with
    | record name =>
      obtain ⟨slots, hread, rfl⟩ := fromWire_struct_eq_ok_iff.mp hx
      obtain ⟨slots', hslots, rfl⟩ := HostValue.relisted_record_iff.mp hy
      obtain ⟨gs, hgs, rfl⟩ := toWire_record_eq_ok_iff.mp hw
      have hsource := hgs.exists_source hread hslots fun f hf t x y hx hy w hw => ih f hf hx hy w hw
      exact .struct (hgs.drawn (hc.nodup_keys name) hsource)
    | _ => cases hx
  | map k c xs ih =>
    cases t with
    | map key value =>
      obtain ⟨-, is, his, rfl⟩ := fromWire_map_eq_ok_iff.mp hx
      obtain ⟨ys, zs, hys, hperm, rfl⟩ := HostValue.relisted_map_iff.mp hy
      obtain ⟨ws, hws, rfl⟩ := toWire_map_eq_ok_iff.mp hw
      have hread := Drawn.of_forall₂ ((List.forall₂_and_left _ _).mpr ⟨ih, his⟩).flip
      have hlisted :
          Drawn (fun y x => WritesWithin catalog key y.1 x.1 ∧ WritesWithin catalog value y.2 x.2) ys xs := by
        refine Drawn.comp ?_ hys.flip (hread.subperm (lastEntries_sublist is).subperm)
        exact fun y i x hiy hx => ⟨hx.1.1 hx.2.1 (hiy.1 ▸ .same i.1), hx.1.2 hx.2.2 hiy.2⟩
      refine .map (Drawn.comp ?_ hws.flip (hlisted.subperm hperm.symm.subperm))
      exact fun w z x hw hz => ⟨hz.1 w.1 hw.1, hz.2 w.2 hw.2⟩
    | _ => cases hx
  | set c vs ih =>
    cases t with
    | set elem =>
      obtain ⟨-, xs, hxs, rfl⟩ := fromWire_set_eq_ok_iff.mp hx
      obtain ⟨ys, hperm, rfl⟩ := HostValue.relisted_set_iff.mp hy
      obtain ⟨ws, hws, rfl⟩ := toWire_set_eq_ok_iff.mp hw
      have hread := Drawn.of_forall₂ ((List.forall₂_and_left _ _).mpr ⟨ih, hxs⟩).flip
      have hlisted := hread.subperm (hperm.symm.subperm.trans (distinct_sublist xs).subperm)
      refine .set (Drawn.comp ?_ hws.flip hlisted)
      exact fun w y v hw hv => hv.1 hv.2 (.same y) w hw
    | _ => cases hx
  | list c vs ih =>
    cases t with
    | list elem =>
      obtain ⟨-, xs, hxs, rfl⟩ := fromWire_list_eq_ok_iff.mp hx
      obtain ⟨ys, hys, rfl⟩ := HostValue.relisted_list_iff.mp hy
      obtain ⟨ws, hws, rfl⟩ := toWire_list_eq_ok_iff.mp hw
      have hread := Drawn.of_forall₂ ((List.forall₂_and_left _ _).mpr ⟨ih, hxs⟩).flip
      have hlisted : Drawn (WritesWithin catalog elem) ys vs := by
        refine Drawn.comp ?_ hys.flip hread
        exact fun y x v hxy hv => hv.1 hv.2 hxy
      refine .list (Drawn.comp ?_ hws.flip hlisted)
      exact fun w y v hw hv => hv w hw
    | _ => cases hx
  | _ =>
    have hflat := (hasType_and_toWire_of_not_nests rfl hx).2
    obtain rfl := eq_of_relisted_of_not_nests hy hflat rfl
    obtain rfl := Except.ok.inj (hflat.symm.trans hw)
    exact .refl _

theorem exists_of_decodeRecord {p : Protocol} {bs : Bytes} (h : p.decodeRecord catalog name bs = .ok x) :
    ∃ v rest raw, p.decodePrefix .struct bs = .ok (v, rest) ∧ fromWire catalog v (.record name) = .ok x ∧
      bs = raw ++ rest ∧ v.depth ≤ p.maxDepth ∧ v.Spells raw := by
  obtain ⟨v, hdecode, hx⟩ := bind_eq_ok_iff.mp h
  obtain ⟨rest, hv⟩ := Protocol.decode_eq_ok_iff.mp hdecode
  obtain ⟨raw, hraw, ⟨-, -, hd⟩, hs⟩ := Protocol.decodePrefix_eq_ok_iff.mp hv
  exact ⟨v, rest, raw, hv, hx, hraw, hd, hs⟩

/-- A message that is read is written again in no more bytes than were taken, in whatever order its sets and maps are
listed, and in a form that nests no deeper than what was decoded. Under the same limit the same record is read from
it. -/
theorem decodeRecord_stable {p : Protocol} (hc : catalog.DistinctIds) {bs : Bytes}
    (h : p.decodeRecord catalog name bs = .ok x) :
    ∃ v rest, p.decodePrefix .struct bs = .ok (v, rest) ∧ fromWire catalog v (.record name) = .ok x ∧
      ∀ y, x.Relisted y → ∃ w out, toWire catalog y (.record name) = .ok w ∧ w.depth ≤ v.depth ∧
        y.encodeRecord catalog name = .ok out ∧ out.length + rest.length ≤ bs.length ∧
        p.decodeRecord catalog name out = .ok y := by
  obtain ⟨v, rest, raw, hv, hx, rfl, hd, hs⟩ := exists_of_decodeRecord h
  refine ⟨v, rest, hv, hx, fun y hy => ?_⟩
  have hty : y.HasType catalog (.record name) := (hasType_of_fromWire hx).relisted hy
  obtain ⟨w, hw⟩ := exists_toWire hty
  have hsmall : w.NoLarger v := writesWithin_of_fromWire hc hx hy w hw
  obtain ⟨out, hout⟩ := Value.exists_encode (hsmall.lengthsFit hs.lengthsFit)
  have hdepth : w.depth ≤ p.maxDepth := Nat.le_trans hsmall.depth_le hd
  have hlength : out.length ≤ raw.length := by
    rw [(Value.spells_of_encode hout).length_eq_size, hs.length_eq_size]
    exact hsmall.size_le
  refine ⟨w, out, hw, hsmall.depth_le, bind_eq_ok_iff.mpr ⟨w, hw, hout⟩, ?_, ?_⟩
  · rw [List.length_append]
    omega
  · have hdecode := p.decode_of_encode (wellTyped_of_toWire hw) hout []
    rw [if_pos hdepth, List.append_nil, typeCode_of_toWire hw] at hdecode
    exact bind_eq_ok_iff.mpr ⟨w, hdecode, fromWire_of_toWire hc hw hty⟩

/-- A person with a repeated name, a nickname that is a number, scores with a repeated key, and a byte behind. The
scores may be written in the other order. -/
theorem decodeRecord_stable_person :
    let bs : Bytes := [0x0B, 0, 1, 0, 0, 0, 1, 0x41, 0x0B, 0, 1, 0, 0, 0, 1, 0x42, 0x08, 0, 2, 0, 0, 0, 7,
      0x06, 0, 3, 0, 5, 0x0D, 0, 4, 0x0B, 0x06, 0, 0, 0, 3, 0, 0, 0, 1, 0x61, 0, 1, 0, 0, 0, 1, 0x62, 0, 2,
      0, 0, 0, 1, 0x61, 0, 3, 0, 0xEE]
    let person (scores : List (HostValue × HostValue)) : HostValue :=
      .record [some (.text "A"), some (.int32 7), none, some (.map scores)]
    let x := person [(.text "b", .int16 2), (.text "a", .int16 3)]
    let y := person [(.text "a", .int16 3), (.text "b", .int16 2)]
    Protocol.decodeRecord ⟨2⟩ Samples.catalog "Person" bs = .ok x ∧
      ∃ out, y.encodeRecord Samples.catalog "Person" = .ok out ∧ out.length + 1 ≤ bs.length ∧
        Protocol.decodeRecord ⟨2⟩ Samples.catalog "Person" out = .ok y := by
  intro bs person x y
  have hx : Protocol.decodeRecord ⟨2⟩ Samples.catalog "Person" bs = .ok x := by decide +kernel
  have hrest : (Protocol.decodePrefix ⟨2⟩ .struct bs).map Prod.snd = .ok [0xEE] := by decide +kernel
  have hy : x.Relisted y := by
    refine .record (.cons (.some (.same _)) (.cons (.some (.same _)) (.cons .none (.cons (.some ?_) .nil))))
    exact .map rfl (.cons (.same _) (.cons (.same _) .nil)) (.swap _ _ [])
  obtain ⟨v, rest, hv, -, hall⟩ := decodeRecord_stable Samples.distinctIds hx
  obtain ⟨w, out, -, -, hout, hlength, hdecode⟩ := hall y hy
  rw [hv] at hrest
  have hone : rest = [0xEE] := Except.ok.inj hrest
  rw [hone] at hlength
  exact ⟨hx, out, hout, hlength, hdecode⟩

end TaggedWire
