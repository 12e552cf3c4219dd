import TaggedWire.Host.Message
import TaggedWire.Host.Samples
import TaggedWire.Proofs.Codec.DepthLimit
import TaggedWire.Proofs.Host.Reading
import TaggedWire.Proofs.Host.Writing

/-! A host value comes back from what is written for it, whatever order its sets and maps are listed in. As a message it
comes back under every limit that its wire form stays within, and is refused under every other. -/
namespace TaggedWire

variable {catalog : Catalog} {t : HostType} {v : Value} {x : HostValue} {slots : List (Option HostValue)}
  {ms : List Member} {fs gs : List Field} {m : Member} {name : String}

theorem distinct_of_nodup {α : Type} [DecidableEq α] {xs : List α} (h : xs.Nodup) : distinct xs = xs := by
  induction xs with
  | nil => rfl
  | cons x xs ih =>
    obtain ⟨hx, hxs⟩ := List.nodup_cons.mp h
    rw [distinct, if_neg hx, ih hxs]

theorem lastEntries_of_nodup {κ α : Type} [DecidableEq κ] {xs : List (κ × α)} (h : (xs.map Prod.fst).Nodup) :
    lastEntries xs = xs := by
  induction xs with
  | nil => rfl
  | cons x xs ih =>
    obtain ⟨hx, hxs⟩ := List.nodup_cons.mp h
    have hkey : ¬ ∃ y ∈ xs, y.1 = x.1 := fun hy => hx (List.mem_map.mpr hy)
    rw [lastEntries, if_neg hkey, ih hxs]

/-- Each member reads its slot back, from these fields or from any that agree with them on the members: by induction on
the slots, where a field that is written for one member stands in the way of no other. -/
theorem WritesSlots.forall_readMember (hw : WritesSlots catalog slots ms fs) (hk : (ms.map Member.key).Nodup)
    (hf : HostValue.Fills catalog slots ms)
    (hslots : ∀ x, some x ∈ slots → ∀ t v, toWire catalog x t = .ok v → x.HasType catalog t → fromWire catalog v t = .ok x)
    (hgs : ∀ m ∈ ms, fieldAt gs m.key = fieldAt fs m.key) :
    List.Forall₂ (fun m slot => readMember catalog gs m = .ok slot) ms slots := by
  induction hw with
  | nil => exact .nil
  | @empty m slots ms fs ho hw ih =>
    obtain ⟨hm, hms⟩ := List.nodup_cons.mp hk
    have habsent : fieldAt fs m.key = none := fieldAt_eq_none_iff.mpr fun f hf he => by
      obtain ⟨m', x, hm', -, hkey, -⟩ := hw.exists_slot hf
      exact hm (List.mem_map.mpr ⟨m', hm', hkey.symm.trans he⟩)
    have hhead : readMember catalog gs m = .ok none := by
      rw [readMember_of_absent ((hgs m List.mem_cons_self).trans habsent), if_pos ho]
    cases hf with
    | empty _ hf =>
      refine .cons hhead (ih hms hf (fun x hx => hslots x (List.mem_cons_of_mem _ hx)) ?_)
      exact fun m hm => hgs m (List.mem_cons_of_mem _ hm)
  | @filled m x v slots ms fs hv hw ih =>
    obtain ⟨hm, hms⟩ := List.nodup_cons.mp hk
    have hpresent : fieldAt gs m.key = some v := (hgs m List.mem_cons_self).trans List.lookup_cons_self
    cases hf with
    | filled hx hf =>
      have hhead : readMember catalog gs m = .ok (some x) := by
        rw [readMember_of_fieldAt hpresent, hslots x List.mem_cons_self m.type v hv hx]
        rfl
      refine .cons hhead (ih hms hf (fun x hx => hslots x (List.mem_cons_of_mem _ hx)) fun m' hm' => ?_)
      have hne : m.key ≠ m'.key := fun he => hm (List.mem_map.mpr ⟨m', hm', he.symm⟩)
      rw [hgs m' (List.mem_cons_of_mem _ hm'), fieldAt_cons_of_ne hne]

theorem fromWire_of_not_nests (hv : toWire catalog x t = .ok v) (hn : v.typeCode.nests = false)
    (hx : x.HasType catalog t) : fromWire catalog v t = .ok x := by
  cases hx with
  | list _ | set _ _ | map _ _ _ | record _ =>
    rw [typeCode_of_toWire hv] at hn
    cases hn
  | text s =>
    cases hv
    simp [fromWire]
  | time hrange =>
    cases hv
    rw [fromWire, if_pos hrange]
  | _ =>
    cases hv
    rfl

theorem mapM_fromWire {xs : List HostValue} {vs : List Value} (hxs : ∀ x ∈ xs, x.HasType catalog t)
    (hvs : List.Forall₂ (fun x v => toWire catalog x t = .ok v ∧ (x.HasType catalog t → fromWire catalog v t = .ok x))
      xs vs) : (vs.mapM fun v => fromWire catalog v t) = .ok xs := by
  have hboth := (List.forall₂_and_left _ _).mpr ⟨hxs, hvs⟩
  exact mapM_eq_ok_iff.mpr (hboth.flip.imp fun v x h => h.2.2 h.1)

theorem fromWire_of_toWire (hc : catalog.DistinctIds) (hv : toWire catalog x t = .ok v) :
    x.HasType catalog t → fromWire catalog v t = .ok x := by
  refine toWire_induction (motive := fun x t v => x.HasType catalog t → fromWire catalog v t = .ok x)
    ?flat ?list ?set ?map ?record hv
  case flat =>
    intro x t v hv hn
    exact fromWire_of_not_nests hv hn
  case list =>
    intro xs elem vs hvs hx
    cases hx with
    | list hxs =>
      rw [fromWire_list_of_code fun _ => rfl, mapM_fromWire hxs hvs]
      rfl
  case set =>
    intro xs elem vs hvs hx
    cases hx with
    | set hnodup hxs =>
      rw [fromWire_set_of_code fun _ => rfl, mapM_fromWire hxs hvs]
      change Except.ok (HostValue.setOf xs) = _
      rw [HostValue.setOf, distinct_of_nodup hnodup]
  case map =>
    intro items key value ys hys hx
    cases hx with
    | map hnodup hkeys hvalues =>
      have hitems : ∀ i ∈ items, i.1.HasType catalog key ∧ i.2.HasType catalog value := fun i hi =>
        ⟨hkeys i hi, hvalues i hi⟩
      have hread := ((List.forall₂_and_left _ _).mpr ⟨hitems, hys⟩).flip.imp fun y i h =>
        fromWireItem_eq_ok_iff.mpr ⟨h.2.1.2 h.1.1, h.2.2.2 h.1.2⟩
      rw [fromWire_map_of_code fun _ => ⟨rfl, rfl⟩, mapM_eq_ok_iff.mpr hread]
      change Except.ok (HostValue.mapOf items) = _
      rw [HostValue.mapOf, lastEntries_of_nodup hnodup]
  case record =>
    intro slots name fs hfs hslots hx
    cases hx with
    | record hf =>
      have hread := hfs.forall_readMember (hc.nodup_keys name) hf hslots fun m _ => rfl
      exact fromWire_struct_eq_ok_iff.mpr ⟨slots, hread, rfl⟩

theorem depthAll_eq_two_mul_heightAll {xs : List HostValue} {vs : List Value}
    (h : List.Forall₂ (fun x v => v.depth = 2 * x.height) xs vs) : Value.depthAll vs = 2 * HostValue.heightAll xs := by
  induction h with
  | nil => rfl
  | cons hd _ ih =>
    rw [Value.depthAll, HostValue.heightAll, hd, ih]
    omega

theorem writesSlots_tree (hw : WritesSlots catalog slots Samples.tree fs) :
    ∃ n y w, slots = [some (.int32 n), some y] ∧ fs = [(⟨1, .i32⟩, .i32 n), (⟨2, .list⟩, w)] ∧
      toWire catalog y (.list (.record "Tree")) = .ok w := by
  cases hw with
  | empty ho _ => cases ho
  | @filled _ x v _ _ _ hx hw =>
    cases hw with
    | empty ho _ => cases ho
    | @filled _ y w _ _ _ hy hw =>
      cases hw
      cases x <;> cases hx
      exact ⟨_, y, w, rfl, rfl, hy⟩

/-- A tree takes two levels of the limit for each record on the way down: the record's own and that of the list of its
children, which is written also where it is empty. -/
theorem depth_eq_two_mul_height (hc : catalog "Tree" = Samples.tree) (hv : toWire catalog x (.record "Tree") = .ok v) :
    v.depth = 2 * x.height := by
  suffices h : (HostType.record "Tree" = .record "Tree" → v.depth = 2 * x.height) ∧
      (HostType.record "Tree" = .list (.record "Tree") → v.depth = 2 * x.height + 1) from h.1 rfl
  refine toWire_induction (motive := fun x t v => (t = .record "Tree" → v.depth = 2 * x.height) ∧
    (t = .list (.record "Tree") → v.depth = 2 * x.height + 1)) ?flat ?list ?set ?map ?record hv
  case flat =>
    intro x t v hv hn
    rw [typeCode_of_toWire hv] at hn
    constructor <;> intro he <;> rw [he] at hn <;> cases hn
  case list =>
    intro xs elem vs hvs
    constructor
    · intro he
      cases he
    · intro he
      obtain rfl := HostType.list.inj he
      rw [Value.depth, HostValue.height, depthAll_eq_two_mul_heightAll (hvs.imp fun x v h => h.2.1 rfl)]
  case set =>
    intro xs elem vs _
    constructor <;> intro he <;> cases he
  case map =>
    intro items key value ys _
    constructor <;> intro he <;> cases he
  case record =>
    intro slots name fs hfs hslots
    constructor
    · intro he
      obtain rfl := HostType.record.inj he
      obtain ⟨n, y, w, rfl, rfl, hw⟩ := writesSlots_tree (hc ▸ hfs)
      have hd : w.depth = 2 * y.height + 1 := (hslots y (by simp) _ _ hw).2 rfl
      simp only [Value.depth, Value.depthFields, HostValue.height, HostValue.heightSlots, hd]
      omega
    · intro he
      cases he

/-- The height counts from one, at a leaf. -/
example (n : Int32) : (HostValue.record [some (.int32 n), some (.list [])]).height = 1 := rfl

theorem Samples.distinctIds : Samples.catalog.DistinctIds := by
  intro name
  refine Samples.forall_catalog (P := fun ms => (ms.map (·.id)).Nodup) ?_ ?_ name
  · exact List.nodup_nil
  · decide

/-- A message whose record is a value of its type is always written, as a struct. Read under a limit it gives the same
record if the wire form stays within the limit, and otherwise fails for the limit alone. A tree needs two levels for each
record on its longest way down. -/
theorem decodeRecord_encodeRecord (hc : catalog.DistinctIds) (hx : x.HasType catalog (.record name))
    (hl : x.LengthsFit) :
    ∃ v bs, toWire catalog x (.record name) = .ok v ∧ v.typeCode = .struct ∧ x.encodeRecord catalog name = .ok bs ∧
      (∀ p : Protocol, p.decodeRecord catalog name bs =
        if v.depth ≤ p.maxDepth then .ok x else .error (.depthLimitExceeded p.maxDepth)) ∧
      (name = "Tree" → catalog name = Samples.tree → v.depth = 2 * x.height) := by
  obtain ⟨v, hv⟩ := exists_toWire hx
  obtain ⟨bs, hbs⟩ := Value.exists_encode (lengthsFit_of_toWire hv hl)
  have hcode : v.typeCode = .struct := typeCode_of_toWire hv
  have hencode : x.encodeRecord catalog name = .ok bs := bind_eq_ok_iff.mpr ⟨v, hv, hbs⟩
  refine ⟨v, bs, hv, hcode, hencode, fun p => ?_, fun hname htree => ?_⟩
  · have hdecode := p.decode_of_encode (wellTyped_of_toWire hv) hbs []
    rw [hcode, List.append_nil] at hdecode
    rw [Protocol.decodeRecord, hdecode]
    by_cases hd : v.depth ≤ p.maxDepth
    · rw [if_pos hd, if_pos hd]
      exact fromWire_of_toWire hc hv hx
    · rw [if_neg hd, if_neg hd]
      rfl
  · subst hname
    exact depth_eq_two_mul_height htree hv

/-- A tree of height three under limits of six and five, and a record with a set, a map, a time and a record in it. -/
theorem decodeRecord_encodeRecord_samples :
    let leaf (n : Int32) : HostValue := .record [some (.int32 n), some (.list [])]
    let tree : HostValue := .record [some (.int32 1), some (.list
      [.record [some (.int32 2), some (.list [leaf 3])], leaf 4])]
    let user : HostValue := .record [some (.int64 9), some (.text "carol"), none, some (.list [.text "admin"])]
    let all : HostValue := .record [some (.bool true), some (.int8 (-1)), some (.int16 2), some (.int32 3),
      some (.int64 4), some (.double 0x7FF8000000000000), some (.bytes [0xFF]), some (.text "é"), none,
      some (.set [.int32 2, .int32 1]), some (.map [(.text "a", .int64 1), (.text "", .int64 1)]), some (.time 0),
      some user]
    (∃ bs, tree.encodeRecord Samples.catalog "Tree" = .ok bs ∧
      Protocol.decodeRecord ⟨6⟩ Samples.catalog "Tree" bs = .ok tree ∧
      Protocol.decodeRecord ⟨5⟩ Samples.catalog "Tree" bs = .error (.depthLimitExceeded 5)) ∧
    ∃ v bs, toWire Samples.catalog all (.record "Everything") = .ok v ∧
      all.encodeRecord Samples.catalog "Everything" = .ok bs ∧
      Protocol.decodeRecord ⟨v.depth⟩ Samples.catalog "Everything" bs = .ok all := by
  intro leaf tree user all
  have hleaf (n : Int32) : (leaf n).HasType Samples.catalog (.record "Tree") :=
    .record (.filled (.int32 n) (.filled (.list (List.forall_mem_nil _)) .nil))
  have htree : tree.HasType Samples.catalog (.record "Tree") := by
    refine .record (.filled (.int32 1) (.filled (.list ?_) .nil))
    refine List.forall_mem_cons.mpr ⟨?_, List.forall_mem_singleton.mpr (hleaf 4)⟩
    exact .record (.filled (.int32 2) (.filled (.list (List.forall_mem_singleton.mpr (hleaf 3))) .nil))
  have huser : user.HasType Samples.catalog (.record "User") := by
    refine .record (.filled (.int64 9) (.filled (.text _) (.empty rfl (.filled (.list ?_) .nil))))
    exact List.forall_mem_singleton.mpr (.text _)
  have hset : (HostValue.set [.int32 2, .int32 1]).HasType Samples.catalog (.set .int32) :=
    .set (by decide) (List.forall_mem_cons.mpr ⟨.int32 2, List.forall_mem_singleton.mpr (.int32 1)⟩)
  have hmap : (HostValue.map [(.text "a", .int64 1), (.text "", .int64 1)]).HasType Samples.catalog
      (.map .text .int64) := by
    refine .map (by decide) ?_ ?_
    · exact List.forall_mem_cons.mpr ⟨.text "a", List.forall_mem_singleton.mpr (.text "")⟩
    · exact List.forall_mem_cons.mpr ⟨.int64 1, List.forall_mem_singleton.mpr (.int64 1)⟩
  have hall : all.HasType Samples.catalog (.record "Everything") := by
    refine .record (.filled (.bool _) (.filled (.int8 _) (.filled (.int16 _) (.filled (.int32 _) (.filled (.int64 _) ?_)))))
    refine .filled (.double _) (.filled (.bytes _) (.filled (.text _) (.empty rfl (.filled hset (.filled hmap ?_)))))
    exact .filled (.time (by decide)) (.filled huser .nil)
  obtain ⟨v, bs, -, -, hbs, hdecode, hdepth⟩ := decodeRecord_encodeRecord Samples.distinctIds htree (by decide)
  have hd : v.depth = 6 := hdepth rfl rfl
  obtain ⟨w, cs, hw, -, hcs, hdecode', -⟩ := decodeRecord_encodeRecord Samples.distinctIds hall (by decide)
  refine ⟨⟨bs, hbs, ?_, ?_⟩, w, cs, hw, hcs, ?_⟩
  · rw [hdecode, hd]
    rfl
  · rw [hdecode, hd]
    rfl
  · rw [hdecode', if_pos (Nat.le_refl _)]

end TaggedWire
