import TaggedWire.Proofs.Host.Normalising

/-! Gathering the items of a container into a map or a set. Equal keys may look different on the wire, so which items count
is seen only after the reading: every item has to be readable, and then the last of those with one key gives its value.
What is gathered has no key and no element twice, and nor has what is written for it. -/
namespace TaggedWire

variable {catalog : Catalog} {t key value elem : HostType} {k c : TypeCode} {vs : List Value}
  {items : List (Value × Value)} {x y : HostValue} {xs : List HostValue} {e : DecodeError}

theorem mem_distinct_iff {α : Type} [DecidableEq α] {xs : List α} {a : α} : a ∈ distinct xs ↔ a ∈ xs := by
  induction xs with
  | nil => exact Iff.rfl
  | cons x xs ih =>
    by_cases hx : x ∈ xs
    · rw [distinct, if_pos hx, ih, List.mem_cons]
      exact ⟨Or.inr, fun h => h.elim (fun he => he ▸ hx) id⟩
    · rw [distinct, if_neg hx, List.mem_cons, List.mem_cons, ih]

section Entries

variable {κ α : Type} [DecidableEq κ]

theorem mem_lastEntries_cons_iff {p : κ × α} {xs : List (κ × α)} {a : κ} {b : α} :
    (a, b) ∈ lastEntries (p :: xs) ↔ (p = (a, b) ∧ ∀ q ∈ xs, q.1 ≠ a) ∨ (a, b) ∈ lastEntries xs := by
  by_cases hp : ∃ q ∈ xs, q.1 = p.1
  · rw [lastEntries, if_pos hp]
    refine (or_iff_right fun h => ?_).symm
    rcases hp with ⟨q, hq, hkey⟩
    exact h.2 q hq (hkey.trans (congrArg Prod.fst h.1))
  · rw [lastEntries, if_neg hp, List.mem_cons, eq_comm]
    refine or_congr_left (and_iff_left_of_imp fun h q hq hkey => ?_).symm
    exact hp ⟨q, hq, hkey.trans (congrArg Prod.fst h).symm⟩

theorem mem_keys_lastEntries_iff {xs : List (κ × α)} {a : κ} :
    a ∈ (lastEntries xs).map Prod.fst ↔ a ∈ xs.map Prod.fst := by
  induction xs with
  | nil => exact Iff.rfl
  | cons p xs ih =>
    by_cases hp : ∃ q ∈ xs, q.1 = p.1
    · rw [lastEntries, if_pos hp, ih, List.map_cons, List.mem_cons]
      refine ⟨Or.inr, fun h => h.elim (fun he => ?_) id⟩
      rw [he]
      exact List.mem_map.mpr hp
    · rw [lastEntries, if_neg hp, List.map_cons, List.map_cons, List.mem_cons, List.mem_cons, ih]

end Entries

/-- An item of a list, with those after it: the first, or one of the others. -/
theorem exists_split_cons_iff {α : Type} {P : α → List α → Prop} {x : α} {xs : List α} :
    (∃ before i after, x :: xs = before ++ i :: after ∧ P i after) ↔
      P x xs ∨ ∃ before i after, xs = before ++ i :: after ∧ P i after := by
  constructor
  · rintro ⟨before, i, after, hsplit, hP⟩
    cases before with
    | nil =>
      cases hsplit
      exact .inl hP
    | cons _ before =>
      cases hsplit
      exact .inr ⟨before, i, after, rfl, hP⟩
  · rintro (hP | ⟨before, i, after, rfl, hP⟩)
    · exact ⟨[], x, xs, rfl, hP⟩
    · exact ⟨x :: before, i, after, rfl, hP⟩

/-- Of the items with a key, the last one gives what is under it: by induction on the items. -/
theorem mem_lastEntries_iff_of_forall₂ {ι κ α ε : Type} [DecidableEq κ] {f : ι → Except ε κ} {g : ι → Except ε α}
    {items : List ι} {xs : List (κ × α)} (h : List.Forall₂ (fun i p => f i = .ok p.1 ∧ g i = .ok p.2) items xs) {a : κ}
    {b : α} : (a, b) ∈ lastEntries xs ↔ ∃ before i after, items = before ++ i :: after ∧
      f i = .ok a ∧ g i = .ok b ∧ ∀ j ∈ after, f j ≠ .ok a := by
  induction h with
  | nil => simp [lastEntries]
  | @cons i p items xs hi hrest ih =>
    have hkeys : (∀ q ∈ xs, q.1 ≠ a) ↔ ∀ j ∈ items, f j ≠ .ok a := by
      have hmem := mem_iff_of_forall₂ (List.forall₂_map_right_iff.mpr (hrest.imp fun _ _ h => h.1)) (b := a)
      rw [List.mem_map] at hmem
      simpa only [not_exists, not_and] using not_congr hmem
    rw [mem_lastEntries_cons_iff, exists_split_cons_iff, ih, hi.1, hi.2, hkeys, Except.ok.injEq, Except.ok.injEq,
      Prod.ext_iff, and_assoc]

/-- What is written for values that differ differs, since it is read back as those values. -/
theorem nodup_of_toWire (hc : catalog.DistinctIds) {ws : List Value}
    (hws : List.Forall₂ (fun x w => toWire catalog x t = .ok w) xs ws) (hxs : ∀ x ∈ xs, x.HasType catalog t)
    (hnodup : xs.Nodup) : ws.Nodup := by
  have hread : ws.map (fun w => fromWire catalog w t) = xs.map .ok := by
    rw [← List.forall₂_eq_eq_eq, List.forall₂_map_left_iff, List.forall₂_map_right_iff]
    exact ((List.forall₂_and_left _ _).mpr ⟨hxs, hws⟩).flip.imp fun w x h => fromWire_of_toWire hc h.2 h.1
  apply List.Nodup.of_map fun w => fromWire catalog w t
  rw [hread]
  exact hnodup.map fun _ _ he => Except.ok.inj he

theorem toWire_map_nodup (hc : catalog.DistinctIds) (hx : fromWire catalog (.map k c items) (.map key value) = .ok x)
    (hy : x.Relisted y) : ∃ out : List (Value × Value),
      toWire catalog y (.map key value) = .ok (.map key.code value.code out) ∧ (out.map Prod.fst).Nodup ∧
      fromWire catalog (.map key.code value.code out) (.map key value) = .ok y := by
  have hty := (hasType_of_fromWire hx).relisted hy
  rcases exists_toWire hty with ⟨w, hw⟩
  cases hty with
  | @map ys _ _ hnodup hkeys hvalues =>
    rcases toWire_map_eq_ok_iff.mp hw with ⟨out, hout, rfl⟩
    refine ⟨out, hw, ?_, fromWire_of_toWire hc hw (.map hnodup hkeys hvalues)⟩
    have hwrites : List.Forall₂ (fun x w => toWire catalog x key = .ok w) (ys.map Prod.fst) (out.map Prod.fst) := by
      rw [List.forall₂_map_left_iff, List.forall₂_map_right_iff]
      exact hout.imp fun _ _ h => h.1
    exact nodup_of_toWire hc hwrites (List.forall_mem_map.mpr hkeys) hnodup

theorem toWire_set_nodup (hc : catalog.DistinctIds) (hx : fromWire catalog (.set c vs) (.set elem) = .ok x)
    (hy : x.Relisted y) : ∃ out : List Value,
      toWire catalog y (.set elem) = .ok (.set elem.code out) ∧ out.Nodup ∧
      fromWire catalog (.set elem.code out) (.set elem) = .ok y := by
  have hty := (hasType_of_fromWire hx).relisted hy
  rcases exists_toWire hty with ⟨w, hw⟩
  cases hty with
  | set hnodup hxs =>
    rcases toWire_set_eq_ok_iff.mp hw with ⟨out, hout, rfl⟩
    exact ⟨out, hw, nodup_of_toWire hc hout hxs hnodup, fromWire_of_toWire hc hw (.set hnodup hxs)⟩

/-- Both halves of the item can be read. -/
def ReadsItem (catalog : Catalog) (key value : HostType) (i : Value × Value) : Prop :=
  (∃ a, fromWire catalog i.1 key = .ok a) ∧ ∃ b, fromWire catalog i.2 value = .ok b

/-- The entries of a map that the items are read as: one for each key that an item has, and under it the value of the last
item that has it. -/
structure Gathers (catalog : Catalog) (key value : HostType) (items : List (Value × Value))
    (entries : List (HostValue × HostValue)) : Prop where
  nodup : (entries.map Prod.fst).Nodup
  keys : ∀ a, a ∈ entries.map Prod.fst ↔ ∃ i ∈ items, fromWire catalog i.1 key = .ok a
  last : ∀ a b, (a, b) ∈ entries ↔ ∃ before i after, items = before ++ i :: after ∧
    fromWire catalog i.1 key = .ok a ∧ fromWire catalog i.2 value = .ok b ∧ ∀ j ∈ after, fromWire catalog j.1 key ≠ .ok a

theorem exists_fromWire_map_iff : (∃ x, fromWire catalog (.map k c items) (.map key value) = .ok x) ↔
    items = [] ∨ k = key.code ∧ c = value.code ∧ ∀ i ∈ items, ReadsItem catalog key value i := by
  constructor
  · rintro ⟨x, hx⟩
    rcases fromWire_map_eq_ok_iff.mp hx with ⟨hcodes, ys, hys, -⟩
    by_cases hempty : items = []
    · exact .inl hempty
    · refine .inr ⟨(hcodes hempty).1, (hcodes hempty).2, fun i hi => ?_⟩
      rcases exists_of_forall₂_of_mem hys hi with ⟨y, -, hkey, hvalue⟩
      exact ⟨⟨y.1, hkey⟩, ⟨y.2, hvalue⟩⟩
  · rintro (rfl | ⟨hk, hc, hall⟩)
    · exact ⟨.mapOf [], rfl⟩
    · have hread : ∀ i ∈ items, ∃ y : HostValue × HostValue,
          fromWire catalog i.1 key = .ok y.1 ∧ fromWire catalog i.2 value = .ok y.2 := by
        intro i hi
        rcases hall i hi with ⟨⟨a, ha⟩, ⟨b, hb⟩⟩
        exact ⟨(a, b), ha, hb⟩
      rcases exists_forall₂ hread with ⟨ys, hys⟩
      exact ⟨.mapOf ys, fromWire_map_eq_ok_iff.mpr ⟨fun _ => ⟨hk, hc⟩, ys, hys, rfl⟩⟩

theorem gathers_of_fromWire_map (hx : fromWire catalog (.map k c items) (.map key value) = .ok x) :
    ∃ entries, x = .map entries ∧ Gathers catalog key value items entries := by
  rcases fromWire_map_eq_ok_iff.mp hx with ⟨-, ys, hys, rfl⟩
  refine ⟨lastEntries ys, rfl, lastEntries_nodup ys, fun a => ?_, fun a b => mem_lastEntries_iff_of_forall₂ hys⟩
  rw [mem_keys_lastEntries_iff]
  exact mem_iff_of_forall₂ (List.forall₂_map_right_iff.mpr (hys.imp fun _ _ h => h.1))

theorem fromWire_map_eq_error_iff : fromWire catalog (.map k c items) (.map key value) = .error e ↔
    items ≠ [] ∧ (k ≠ key.code ∧ e = .typeMismatch key.code k ∨
      k = key.code ∧ c ≠ value.code ∧ e = .typeMismatch value.code c ∨
      k = key.code ∧ c = value.code ∧ ∃ before i after, items = before ++ i :: after ∧
        (∀ j ∈ before, ReadsItem catalog key value j) ∧ (fromWire catalog i.1 key = .error e ∨
          (∃ a, fromWire catalog i.1 key = .ok a) ∧ fromWire catalog i.2 value = .error e)) := by
  have hreads : ∀ j : Value × Value, (∃ y, fromWireItem catalog key value j = .ok y) ↔ ReadsItem catalog key value j := by
    intro j
    simp only [fromWireItem_eq_ok_iff, Prod.exists, exists_and_left, exists_and_right, ReadsItem]
  rw [fromWire_map_eq, checkFilled_bind_eq_error_iff, check_bind_eq_error_iff, check_bind_eq_ok_iff,
    expectCode_eq_error_iff, expectCode_eq_error_iff, expectCode_eq_ok_iff, expectCode_eq_ok_iff, or_assoc, and_assoc]
  simp only [fromWireItem_eq_error_iff, hreads]

theorem exists_fromWire_set_iff : (∃ x, fromWire catalog (.set c vs) (.set elem) = .ok x) ↔
    vs = [] ∨ c = elem.code ∧ ∀ v ∈ vs, ∃ a, fromWire catalog v elem = .ok a := by
  constructor
  · rintro ⟨x, hx⟩
    rcases fromWire_set_eq_ok_iff.mp hx with ⟨hcode, ys, hys, -⟩
    by_cases hempty : vs = []
    · exact .inl hempty
    · refine .inr ⟨hcode hempty, fun v hv => ?_⟩
      rcases exists_of_forall₂_of_mem hys hv with ⟨y, -, hy⟩
      exact ⟨y, hy⟩
  · rintro (rfl | ⟨hc, hall⟩)
    · exact ⟨.setOf [], rfl⟩
    · rcases exists_forall₂ hall with ⟨ys, hys⟩
      exact ⟨.setOf ys, fromWire_set_eq_ok_iff.mpr ⟨fun _ => hc, ys, hys, rfl⟩⟩

theorem gathers_of_fromWire_set (hx : fromWire catalog (.set c vs) (.set elem) = .ok x) :
    ∃ xs, x = .set xs ∧ xs.Nodup ∧ ∀ a, a ∈ xs ↔ ∃ v ∈ vs, fromWire catalog v elem = .ok a := by
  rcases fromWire_set_eq_ok_iff.mp hx with ⟨-, ys, hys, rfl⟩
  refine ⟨distinct ys, rfl, distinct_nodup ys, fun a => ?_⟩
  rw [mem_distinct_iff]
  exact mem_iff_of_forall₂ hys

theorem fromWire_set_eq_error_iff : fromWire catalog (.set c vs) (.set elem) = .error e ↔
    vs ≠ [] ∧ (c ≠ elem.code ∧ e = .typeMismatch elem.code c ∨
      c = elem.code ∧ ∃ before v after, vs = before ++ v :: after ∧
        (∀ u ∈ before, ∃ a, fromWire catalog u elem = .ok a) ∧ fromWire catalog v elem = .error e) := by
  rw [fromWire_set_eq, checkFilled_bind_eq_error_iff, expectCode_eq_error_iff, expectCode_eq_ok_iff]

/-- Reading a map takes every item into account and keeps the last of each key; reading a set keeps each element once. A
failure is that of the codes, or else of the first entry that fails. Whatever order the result is listed in, no key and no
element is written twice, and the same value is read back. -/
theorem fromWire_gathers (catalog : Catalog) (key value elem : HostType) (k c : TypeCode) :
    (∀ items : List (Value × Value),
      ((∃ x, fromWire catalog (.map k c items) (.map key value) = .ok x) ↔
        items = [] ∨ k = key.code ∧ c = value.code ∧ ∀ i ∈ items, ReadsItem catalog key value i) ∧
      (∀ x, fromWire catalog (.map k c items) (.map key value) = .ok x →
        ∃ entries, x = .map entries ∧ Gathers catalog key value items entries) ∧
      (∀ e, fromWire catalog (.map k c items) (.map key value) = .error e ↔
        items ≠ [] ∧ (k ≠ key.code ∧ e = .typeMismatch key.code k ∨
          k = key.code ∧ c ≠ value.code ∧ e = .typeMismatch value.code c ∨
          k = key.code ∧ c = value.code ∧ ∃ before i after, items = before ++ i :: after ∧
            (∀ j ∈ before, ReadsItem catalog key value j) ∧ (fromWire catalog i.1 key = .error e ∨
              (∃ a, fromWire catalog i.1 key = .ok a) ∧ fromWire catalog i.2 value = .error e))) ∧
      (catalog.DistinctIds → ∀ x y, fromWire catalog (.map k c items) (.map key value) = .ok x → x.Relisted y →
        ∃ out : List (Value × Value), toWire catalog y (.map key value) = .ok (.map key.code value.code out) ∧
          (out.map Prod.fst).Nodup ∧ fromWire catalog (.map key.code value.code out) (.map key value) = .ok y)) ∧
    (∀ vs : List Value,
      ((∃ x, fromWire catalog (.set c vs) (.set elem) = .ok x) ↔
        vs = [] ∨ c = elem.code ∧ ∀ v ∈ vs, ∃ a, fromWire catalog v elem = .ok a) ∧
      (∀ x, fromWire catalog (.set c vs) (.set elem) = .ok x →
        ∃ xs, x = .set xs ∧ xs.Nodup ∧ ∀ a, a ∈ xs ↔ ∃ v ∈ vs, fromWire catalog v elem = .ok a) ∧
      (∀ e, fromWire catalog (.set c vs) (.set elem) = .error e ↔
        vs ≠ [] ∧ (c ≠ elem.code ∧ e = .typeMismatch elem.code c ∨
          c = elem.code ∧ ∃ before v after, vs = before ++ v :: after ∧
            (∀ u ∈ before, ∃ a, fromWire catalog u elem = .ok a) ∧ fromWire catalog v elem = .error e)) ∧
      (catalog.DistinctIds → ∀ x y, fromWire catalog (.set c vs) (.set elem) = .ok x → x.Relisted y →
        ∃ out : List Value, toWire catalog y (.set elem) = .ok (.set elem.code out) ∧ out.Nodup ∧
          fromWire catalog (.set elem.code out) (.set elem) = .ok y)) := by
  constructor
  · intro items
    exact ⟨exists_fromWire_map_iff, fun x => gathers_of_fromWire_map, fun e => fromWire_map_eq_error_iff,
      fun hc x y => toWire_map_nodup hc⟩
  · intro vs
    exact ⟨exists_fromWire_set_iff, fun x => gathers_of_fromWire_set, fun e => fromWire_set_eq_error_iff,
      fun hc x y => toWire_set_nodup hc⟩

/-- Two empty vectors of other codes are one key, and the item that counts is the last; the one before it has to be
readable all the same. -/
theorem fromWire_gathers_shadowed :
    let items : List (Value × Value) :=
      [(.list .bool [], .i32 1), (.list .i16 [.i16 5], .i32 2), (.list .i16 [], .i32 3)]
    let x : HostValue := .map [(.list [.int16 5], .int32 2), (.list [], .int32 3)]
    let y : HostValue := .map [(.list [], .int32 3), (.list [.int16 5], .int32 2)]
    let read (items : List (Value × Value)) := fromWire Samples.catalog (.map .list .i32 items) (.map (.list .int16) .int32)
    read items = .ok x ∧
      (∃ out, toWire Samples.catalog y (.map (.list .int16) .int32) = .ok (.map .list .i32 out) ∧
        (out.map Prod.fst).Nodup ∧ read out = .ok y) ∧
      read ((.list .bool [], .bool true) :: items) = .error (.typeMismatch .i32 .bool) := by
  intro items x y read
  rcases fromWire_gathers Samples.catalog (.list .int16) .int32 .bool .list .i32 with ⟨hmap, -⟩
  have hx : read items = .ok x := rfl
  have hy : x.Relisted y := .map rfl (.cons (.same _) (.cons (.same _) .nil)) (.swap _ _ [])
  refine ⟨hx, (hmap items).2.2.2 Samples.distinctIds x y hx hy, ((hmap _).2.2.1 _).mpr ⟨by simp, .inr (.inr ?_)⟩⟩
  exact ⟨rfl, rfl, [], _, items, rfl, List.forall_mem_nil _, .inr ⟨⟨.list [], rfl⟩, rfl⟩⟩

end TaggedWire
