import TaggedWire.Proofs.Host.RoundTrip

/-! Structs that are built member by member, where ids may come again and members may be absent. A struct has a field for
each entry that holds something. A member reads the first of them with its id and code, whatever type it was written as;
where no two entries have both in common, each reads back what it was given. -/
namespace TaggedWire

variable {catalog : Catalog} {entries : List (Member × Option HostValue)} {ps before after : List (Member × HostValue)}
  {e : Member × HostValue} {fs : List Field} {m : Member} {x : HostValue} {v : Value}

/-- The entries that hold something, in their order. -/
def present (entries : List (Member × Option HostValue)) : List (Member × HostValue) :=
  entries.filterMap fun e => e.2.map fun x => (e.1, x)

theorem mem_present_iff : (m, x) ∈ present entries ↔ (m, some x) ∈ entries := by
  simp [present, List.mem_filterMap]

/-- The fields that are written for what the entries hold, in that order. -/
def WritesAll (catalog : Catalog) (ps : List (Member × HostValue)) (fs : List Field) : Prop :=
  List.Forall₂ (fun e f => f.1 = e.1.key ∧ toWire catalog e.2 e.1.type = .ok f.2) ps fs

theorem WritesSlots.writesAll_present (hw : WritesSlots catalog (entries.map Prod.snd) (entries.map Prod.fst) fs) :
    WritesAll catalog (present entries) fs := by
  induction entries generalizing fs with
  | nil =>
    cases hw
    exact .nil
  | cons e entries ih =>
    rcases e with ⟨m, slot⟩
    cases hw with
    | empty ho hw => exact ih hw
    | filled hv hw => exact .cons ⟨rfl, hv⟩ (ih hw)

theorem hasType_of_fills (hf : HostValue.Fills catalog (entries.map Prod.snd) (entries.map Prod.fst))
    (he : (m, some x) ∈ entries) : x.HasType catalog m.type := by
  induction entries with
  | nil => cases he
  | cons e entries ih =>
    rcases e with ⟨m', slot⟩
    cases hf with
    | empty _ hf =>
      rcases List.mem_cons.mp he with heq | he
      · cases heq
      · exact ih hf he
    | filled hx hf =>
      rcases List.mem_cons.mp he with heq | he
      · cases heq
        exact hx
      · exact ih hf he

namespace WritesAll

theorem fieldAt_eq_none (hw : WritesAll catalog ps fs) {key : FieldKey} (hno : ∀ e ∈ ps, e.1.key ≠ key) :
    fieldAt fs key = none := by
  apply fieldAt_eq_none_iff.mpr
  intro f hf hkey
  rcases exists_of_forall₂_of_mem hw.flip hf with ⟨e, he, hk, -⟩
  exact hno e he (hk.symm.trans hkey)

theorem fieldAt_eq_some (hw : WritesAll catalog (before ++ e :: after) fs) (hfirst : ∀ d ∈ before, d.1.key ≠ e.1.key) :
    ∃ v, toWire catalog e.2 e.1.type = .ok v ∧ fieldAt fs e.1.key = some v := by
  induction before generalizing fs with
  | nil =>
    rcases List.forall₂_cons_left_iff.mp hw with ⟨⟨k, v⟩, gs, ⟨rfl, hv⟩, -, rfl⟩
    exact ⟨v, hv, List.lookup_cons_self⟩
  | cons d before ih =>
    rcases List.forall₂_cons_left_iff.mp hw with ⟨g, gs, ⟨hk, -⟩, hgs, rfl⟩
    rcases List.forall_mem_cons.mp hfirst with ⟨hd, hbefore⟩
    rw [fieldAt_cons_of_ne (hk ▸ hd)]
    exact ih hgs hbefore

theorem readMember_of_absent (hw : WritesAll catalog ps fs) (hno : ∀ e ∈ ps, e.1.key ≠ m.key) :
    readMember catalog fs m = if m.optional then .ok none else .error (.missingRequiredField m.id) :=
  TaggedWire.readMember_of_absent (hw.fieldAt_eq_none hno)

theorem readMember_of_first (hw : WritesAll catalog (before ++ e :: after) fs) (hfirst : ∀ d ∈ before, d.1.key ≠ m.key)
    (hkey : e.1.key = m.key) :
    ∃ v, toWire catalog e.2 e.1.type = .ok v ∧ readMember catalog fs m = (fromWire catalog v m.type).map some := by
  rcases hw.fieldAt_eq_some (hkey ▸ hfirst) with ⟨v, hv, hf⟩
  exact ⟨v, hv, readMember_of_fieldAt (hkey ▸ hf)⟩

end WritesAll

theorem readMember_of_mem (hc : catalog.DistinctIds) (hw : WritesAll catalog (present entries) fs)
    (hf : HostValue.Fills catalog (entries.map Prod.snd) (entries.map Prod.fst)) (hkeys : (entries.map (·.1.key)).Nodup)
    {slot : Option HostValue} (he : (m, slot) ∈ entries) {o : Bool} (ho : slot = none → o = true) :
    readMember catalog fs { m with optional := o } = .ok slot := by
  have hown : ∀ m' x, (m', x) ∈ present entries → m'.key = m.key → (m', some x) = (m, slot) := fun m' x hx hkey =>
    List.inj_on_of_nodup_map hkeys (mem_present_iff.mp hx) he hkey
  cases slot with
  | none =>
    have hno : ∀ e ∈ present entries, e.1.key ≠ m.key := fun e hmem hkey => by cases hown e.1 e.2 hmem hkey
    rw [hw.readMember_of_absent (m := { m with optional := o }) hno, if_pos (ho rfl)]
  | some x =>
    rcases List.eq_append_cons_of_mem (mem_present_iff.mpr he) with ⟨before, after, hsplit, hnew⟩
    have hfirst : ∀ d ∈ before, d.1.key ≠ m.key := by
      intro d hd hkey
      cases hown d.1 d.2 (hsplit ▸ List.mem_append_left _ hd) hkey
      exact hnew hd
    rw [hsplit] at hw
    rcases hw.readMember_of_first (m := { m with optional := o }) hfirst rfl with ⟨v, hv, hread⟩
    rw [hread, fromWire_of_toWire hc hv (hasType_of_fills hf he)]
    rfl

/-- A struct is always built from entries that hold values of their types, or nothing where they are optional: it has the
fields of those that hold something. On it a member that no such entry has the id and code of is missing, and any other
reads what was written for the first of them, failing where that cannot be converted. Where no two entries agree in both,
each is read back, as optional or, unless it is absent, as required. -/
theorem structOf_reads_back (catalog : Catalog) (entries : List (Member × Option HostValue))
    (hf : HostValue.Fills catalog (entries.map Prod.snd) (entries.map Prod.fst)) :
    ∃ fs, structOf catalog entries = .ok (.struct fs) ∧
      List.Forall₂ (fun e f => f.1 = e.1.key ∧ toWire catalog e.2 e.1.type = .ok f.2) (present entries) fs ∧
      (∀ m, (∀ e ∈ present entries, e.1.key ≠ m.key) →
        readMember catalog fs m = if m.optional then .ok none else .error (.missingRequiredField m.id)) ∧
      (∀ m before e after, present entries = before ++ e :: after → (∀ d ∈ before, d.1.key ≠ m.key) → e.1.key = m.key →
        ∃ v, toWire catalog e.2 e.1.type = .ok v ∧ readMember catalog fs m = (fromWire catalog v m.type).map some) ∧
      (catalog.DistinctIds → (entries.map (·.1.key)).Nodup → ∀ m slot, (m, slot) ∈ entries →
        ∀ o, (slot = none → o = true) → readMember catalog fs { m with optional := o } = .ok slot) := by
  rcases exists_writesSlots (fun x _ t hx => exists_toWire hx) hf with ⟨fs, hfs⟩
  have hw : WritesAll catalog (present entries) fs := hfs.writesAll_present
  have hbuilt : structOf catalog entries = .ok (.struct fs) := by
    rw [structOf, toWireSlots_eq_ok_iff.mpr hfs]
    rfl
  refine ⟨fs, hbuilt, hw, fun m hno => hw.readMember_of_absent hno, ?_, ?_⟩
  · intro m before e after hsplit hfirst hkey
    rw [hsplit] at hw
    exact hw.readMember_of_first hfirst hkey
  · intro hc hkeys m slot hmem o ho
    exact readMember_of_mem hc hw hf hkeys hmem ho

/-- A text is read as the bytes that are written for it, before the bytes that have the same key; a number that shares its
key with an absent time is read as a time, and is none; and of entries with keys of their own each comes back. -/
theorem structOf_reads_back_shadowed :
    let entry (id : Int16) (type : HostType) (slot : Option HostValue) : Member × Option HostValue :=
      ({ id := id, name := "", type := type, optional := slot.isNone }, slot)
    let entries := [entry 1 .text (some (.text "é")), entry 1 .bytes (some (.bytes [0xFF])), entry 2 .time none,
      entry 2 .int64 (some (.int64 9223372036854775807))]
    let own := [entry 1 (.record "Tree") (some (.record [some (.int32 7), some (.list [])])), entry 2 .time none,
      entry 2 .text (some (.text "é"))]
    (∃ fs, structOf Samples.catalog entries = .ok (.struct fs) ∧
      readMember Samples.catalog fs (entry 1 .bytes none).1 = .ok (some (.bytes [0xC3, 0xA9])) ∧
      readMember Samples.catalog fs (entry 2 .time none).1 = .error (.invalidTimestamp 9223372036854775807) ∧
      readMember Samples.catalog fs { (entry 3 .bool none).1 with optional := false } = .error (.missingRequiredField 3)) ∧
    ∃ fs, structOf Samples.catalog own = .ok (.struct fs) ∧ ∀ e ∈ own, readMember Samples.catalog fs e.1 = .ok e.2 := by
  intro entry entries own
  have hleaf : (HostValue.record [some (.int32 7), some (.list [])]).HasType Samples.catalog (.record "Tree") :=
    .record (.filled (.int32 7) (.filled (.list (List.forall_mem_nil _)) .nil))
  have hentries : HostValue.Fills Samples.catalog (entries.map Prod.snd) (entries.map Prod.fst) :=
    .filled (.text _) (.filled (.bytes _) (.empty rfl (.filled (.int64 _) .nil)))
  have hown : HostValue.Fills Samples.catalog (own.map Prod.snd) (own.map Prod.fst) :=
    .filled hleaf (.empty rfl (.filled (.text _) .nil))
  rcases structOf_reads_back Samples.catalog entries hentries with ⟨fs, hfs, -, habsent, hfirst, -⟩
  rcases structOf_reads_back Samples.catalog own hown with ⟨gs, hgs, -, -, -, hback⟩
  refine ⟨⟨fs, hfs, ?_, ?_, ?_⟩, gs, hgs, ?_⟩
  · rcases hfirst (entry 1 .bytes none).1 [] _ _ rfl (List.forall_mem_nil _) rfl with ⟨v, hv, hread⟩
    cases hv
    rw [hread]
    rfl
  · rcases hfirst (entry 2 .time none).1 [_, _] _ _ rfl (by decide) rfl with ⟨v, hv, hread⟩
    cases hv
    rw [hread]
    rfl
  · exact habsent _ (by decide)
  · intro e he
    have hoptional : ∀ e ∈ own, e.2 = none → e.1.optional = true := by decide
    exact hback Samples.distinctIds (by decide) e.1 e.2 he e.1.optional (hoptional e he)

end TaggedWire
