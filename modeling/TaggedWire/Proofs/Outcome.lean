import Mathlib.Data.List.Forall2
import TaggedWire.Log

/-! Success in steps: a computation of two steps succeeds exactly if both do, whether it only fails or also logs or keeps
a state. What is logged is what the steps log. -/
namespace TaggedWire

variable {ω ε α β : Type}

theorem bind_eq_ok_iff {x : Except ε α} {f : α → Except ε β} {b : β} :
    x >>= f = .ok b ↔ ∃ a, x = .ok a ∧ f a = .ok b := by
  cases x with
  | error e => simp [bind, Except.bind]
  | ok a => simp [bind, Except.bind]

theorem bind_eq_error_iff {x : Except ε α} {f : α → Except ε β} {e : ε} :
    x >>= f = .error e ↔ x = .error e ∨ ∃ a, x = .ok a ∧ f a = .error e := by
  cases x with
  | error e => simp [bind, Except.bind]
  | ok a => simp [bind, Except.bind]

theorem exists_eq_ok_iff {x : Except ε Unit} : (∃ u, x = .ok u) ↔ x = .ok () :=
  ⟨fun ⟨_, hu⟩ => hu, fun hu => ⟨(), hu⟩⟩

theorem pure_eq_ok_iff {a b : α} : (pure a : Except ε α) = .ok b ↔ b = a := by
  simp [pure, Except.pure, eq_comm]

theorem pair_eq_ok_iff {x : Except ε α} {y : Except ε β} {p : α × β} :
    (do return (← x, ← y) : Except ε (α × β)) = .ok p ↔ x = .ok p.1 ∧ y = .ok p.2 := by
  obtain ⟨a, b⟩ := p
  simp only [bind_eq_ok_iff, pure_eq_ok_iff, Prod.mk.injEq]
  constructor
  · intro hpair
    obtain ⟨a', ha, b', hb, rfl, rfl⟩ := hpair
    exact ⟨ha, hb⟩
  · intro hpair
    exact ⟨a, hpair.1, b, hpair.2, rfl, rfl⟩

theorem pair_eq_error_iff {x : Except ε α} {y : Except ε β} {e : ε} :
    (do return (← x, ← y) : Except ε (α × β)) = .error e ↔ x = .error e ∨ (∃ a, x = .ok a) ∧ y = .error e := by
  cases x with
  | error e => simp [bind, Except.bind]
  | ok a => cases y <;> simp [bind, Except.bind, pure, Except.pure]

theorem ite_eq_ok_iff {p : Prop} [Decidable p] {e : ε} {a b : α} :
    (if p then .ok a else .error e) = Except.ok b ↔ p ∧ b = a := by
  by_cases h : p <;> simp [h, eq_comm]

theorem check_bind_eq_ok_iff {x : Except ε Unit} {y : Except ε β} {b : β} :
    (x >>= fun _ => y) = .ok b ↔ x = .ok () ∧ y = .ok b := by
  cases x with
  | error e => simp [bind, Except.bind]
  | ok a => simp [bind, Except.bind]

theorem check_bind_eq_error_iff {x : Except ε Unit} {y : Except ε β} {e : ε} :
    (x >>= fun _ => y) = .error e ↔ x = .error e ∨ x = .ok () ∧ y = .error e := by
  cases x with
  | error e => simp [bind, Except.bind]
  | ok u => simp [bind, Except.bind]

/-- What comes after a check counts only if the check succeeds. -/
theorem check_bind_congr {x : Except ε Unit} {y z : Except ε β} (hyz : x = .ok () → y = z) :
    (x >>= fun _ => y) = x >>= fun _ => z := by
  cases x with
  | error e => rfl
  | ok u => rw [hyz rfl]

theorem map_eq_ok_iff {x : Except ε α} {f : α → β} {b : β} : x.map f = .ok b ↔ ∃ a, x = .ok a ∧ b = f a := by
  cases x with
  | error e => simp [Except.map]
  | ok a => simp [Except.map, eq_comm]

theorem map_eq_error_iff {x : Except ε α} {f : α → β} {e : ε} : x.map f = .error e ↔ x = .error e := by
  cases x with
  | error e => simp [Except.map]
  | ok a => simp [Except.map]

theorem exists_of_forall₂_of_mem {R : α → β → Prop} {as : List α} {bs : List β} (h : List.Forall₂ R as bs) {a : α}
    (ha : a ∈ as) : ∃ b ∈ bs, R a b := by
  induction h with
  | nil => cases ha
  | cons hR _ ih =>
    obtain rfl | ha := List.mem_cons.mp ha
    · exact ⟨_, List.mem_cons_self, hR⟩
    · obtain ⟨b, hb, hR⟩ := ih ha
      exact ⟨b, List.mem_cons_of_mem _ hb, hR⟩

/-- The results are those of the entries. -/
theorem mem_iff_of_forall₂ {f : α → Except ε β} {as : List α} {bs : List β}
    (h : List.Forall₂ (fun a b => f a = .ok b) as bs) {b : β} : b ∈ bs ↔ ∃ a ∈ as, f a = .ok b := by
  constructor
  · intro hb
    exact exists_of_forall₂_of_mem h.flip hb
  · rintro ⟨a, ha, hab⟩
    obtain ⟨b', hb', hab'⟩ := exists_of_forall₂_of_mem h ha
    rw [hab] at hab'
    rwa [Except.ok.inj hab']

theorem forall_mem_of_forall₂ {R : α → β → Prop} {P : β → Prop} {as : List α} {bs : List β} (h : List.Forall₂ R as bs)
    (hP : ∀ a ∈ as, ∀ b, R a b → P b) : ∀ b ∈ bs, P b := by
  intro b hb
  obtain ⟨a, ha, hR⟩ := exists_of_forall₂_of_mem h.flip hb
  exact hP a ha b hR

theorem exists_forall₂_of_sublist {R : α → β → Prop} {as as' : List α} {bs : List β} (h : List.Forall₂ R as bs)
    (hs : as'.Sublist as) : ∃ bs', List.Forall₂ R as' bs' ∧ bs'.Sublist bs := by
  induction hs generalizing bs with
  | slnil => exact ⟨[], .nil, List.nil_sublist bs⟩
  | cons a _ ih =>
    cases h with
    | cons _ h =>
      obtain ⟨bs', hR, hsub⟩ := ih h
      exact ⟨bs', hR, hsub.cons _⟩
  | cons_cons a _ ih =>
    cases h with
    | cons hab h =>
      obtain ⟨bs', hR, hsub⟩ := ih h
      exact ⟨_, .cons hab hR, hsub.cons_cons _⟩

theorem forall₂_trans {γ : Type} {R : α → β → Prop} {S : β → γ → Prop} {T : α → γ → Prop}
    (hT : ∀ a b c, R a b → S b c → T a c) {as : List α} {bs : List β} {cs : List γ} (h : List.Forall₂ R as bs)
    (h' : List.Forall₂ S bs cs) : List.Forall₂ T as cs := by
  induction h generalizing cs with
  | nil =>
    cases h'
    exact .nil
  | cons hab _ ih =>
    cases h' with
    | cons hbc h' => exact .cons (hT _ _ _ hab hbc) (ih h')

/-- Related pairs are pairs of related parts. -/
theorem forall₂_and_iff {R : α → α → Prop} {S : β → β → Prop} {xs ys : List (α × β)} :
    List.Forall₂ (fun x y => R x.1 y.1 ∧ S x.2 y.2) xs ys ↔
      List.Forall₂ R (xs.map Prod.fst) (ys.map Prod.fst) ∧ List.Forall₂ S (xs.map Prod.snd) (ys.map Prod.snd) := by
  simp only [List.forall₂_map_left_iff, List.forall₂_map_right_iff]
  constructor
  · intro h
    exact ⟨h.imp fun _ _ => And.left, h.imp fun _ _ => And.right⟩
  · rintro ⟨hR, hS⟩
    induction hR with
    | nil => exact .nil
    | cons hxy _ ih =>
      cases hS with
      | cons hxy' hS => exact .cons ⟨hxy, hxy'⟩ (ih hS)

theorem map_eq_map_of_forall₂ {R : α → α → Prop} {f : α → β} {as bs : List α} (h : List.Forall₂ R as bs)
    (hf : ∀ a ∈ as, ∀ b, R a b → f a = f b) : as.map f = bs.map f := by
  induction h with
  | nil => rfl
  | cons hab _ ih =>
    rw [List.map_cons, List.map_cons, hf _ List.mem_cons_self _ hab, ih fun a ha => hf a (List.mem_cons_of_mem _ ha)]

theorem exists_forall₂ {R : α → β → Prop} {as : List α} (h : ∀ a ∈ as, ∃ b, R a b) :
    ∃ bs, List.Forall₂ R as bs := by
  induction as with
  | nil => exact ⟨[], .nil⟩
  | cons a as ih =>
    obtain ⟨b, hb⟩ := h a List.mem_cons_self
    obtain ⟨bs, hbs⟩ := ih fun a ha => h a (List.mem_cons_of_mem _ ha)
    exact ⟨b :: bs, .cons hb hbs⟩

theorem mapM_eq_ok_iff {f : α → Except ε β} {as : List α} {bs : List β} :
    as.mapM f = .ok bs ↔ List.Forall₂ (fun a b => f a = .ok b) as bs := by
  induction as generalizing bs with
  | nil => simp [pure_eq_ok_iff]
  | cons a as ih =>
    simp only [List.mapM_cons, bind_eq_ok_iff, pure_eq_ok_iff, ih, List.forall₂_cons_left_iff]
    constructor
    · intro hm
      obtain ⟨b, hb, bs', hbs, rfl⟩ := hm
      exact ⟨b, bs', hb, hbs, rfl⟩
    · intro hall
      obtain ⟨b, bs', hb, hbs, rfl⟩ := hall
      exact ⟨b, hb, bs', hbs, rfl⟩

/-- A mapping fails at the first entry that does. -/
theorem mapM_eq_error_iff {f : α → Except ε β} {as : List α} {e : ε} : as.mapM f = .error e ↔
    ∃ before a after, as = before ++ a :: after ∧ (∀ a' ∈ before, ∃ b, f a' = .ok b) ∧ f a = .error e := by
  constructor
  · intro he
    induction as with
    | nil => cases he
    | cons a as ih =>
      rw [List.mapM_cons] at he
      obtain he | ⟨b, hb, he⟩ := bind_eq_error_iff.mp he
      · exact ⟨[], a, as, rfl, List.forall_mem_nil _, he⟩
      · obtain he | ⟨bs, -, he⟩ := bind_eq_error_iff.mp he
        · obtain ⟨before, a', after, rfl, hbefore, he'⟩ := ih he
          exact ⟨a :: before, a', after, rfl, List.forall_mem_cons.mpr ⟨⟨b, hb⟩, hbefore⟩, he'⟩
        · cases he
  · rintro ⟨before, a, after, rfl, hbefore, he⟩
    obtain ⟨bs, hbs⟩ := exists_forall₂ hbefore
    rw [List.mapM_append, mapM_eq_ok_iff.mpr hbs, List.mapM_cons, he]
    rfl

theorem exists_of_mapM_eq_error {f : α → Except ε β} {as : List α} {e : ε} (he : as.mapM f = .error e) :
    ∃ a ∈ as, f a = .error e := by
  obtain ⟨before, a, after, rfl, -, he⟩ := mapM_eq_error_iff.mp he
  exact ⟨a, List.mem_append_right before List.mem_cons_self, he⟩

/-- An entry counts only if those before it succeed. -/
theorem mapM_middle {f : α → Except ε β} {before after : List α} {a a' : α}
    (haa' : (∀ x ∈ before, ∃ b, f x = .ok b) → f a = f a') :
    (before ++ a :: after).mapM f = (before ++ a' :: after).mapM f := by
  rw [List.mapM_append, List.mapM_append]
  cases hbefore : before.mapM f with
  | error e => rfl
  | ok bs =>
    have hall : ∀ x ∈ before, ∃ b, f x = .ok b := fun x hx => by
      obtain ⟨b, -, hb⟩ := exists_of_forall₂_of_mem (mapM_eq_ok_iff.mp hbefore) hx
      exact ⟨b, hb⟩
    rw [List.mapM_cons, List.mapM_cons, haa' hall]

/-- Two runs over one list agree if they agree at each entry that both come to. -/
theorem mapM_congr_until {f g : α → Except ε β} {as : List α}
    (h : ∀ before a after, as = before ++ a :: after → (∀ e ∈ before, ∃ b, f e = .ok b) → f a = g a) :
    as.mapM f = as.mapM g := by
  induction as with
  | nil => rfl
  | cons a as ih =>
    rw [List.mapM_cons, List.mapM_cons, ← h [] a as rfl (List.forall_mem_nil _)]
    cases ha : f a with
    | error e => rfl
    | ok b =>
      have htail : as.mapM f = as.mapM g := by
        apply ih
        intro before a' after hsplit hok
        exact h (a :: before) a' after (by rw [hsplit]; rfl) (List.forall_mem_cons.mpr ⟨⟨b, ha⟩, hok⟩)
      rw [htail]

/-- Where each step succeeds on a condition and gives what a function says, so does the whole. -/
theorem mapM_eq_ok_iff_of_forall {f : α → Except ε β} {as : List α} {bs : List β} {P : α → Prop} {q : α → β}
    (hf : ∀ a ∈ as, ∀ b, f a = .ok b ↔ P a ∧ b = q a) :
    as.mapM f = .ok bs ↔ (∀ a ∈ as, P a) ∧ bs = as.map q := by
  rw [mapM_eq_ok_iff]
  induction as generalizing bs with
  | nil => simp
  | cons a as ih =>
    have htail := fun bs => @ih bs fun a ha => hf a (List.mem_cons_of_mem _ ha)
    simp only [List.forall₂_cons_left_iff, hf a List.mem_cons_self, htail, List.forall_mem_cons, List.map_cons]
    constructor
    · intro hall
      obtain ⟨b, bs', ⟨ha, rfl⟩, ⟨has, rfl⟩, rfl⟩ := hall
      exact ⟨⟨ha, has⟩, rfl⟩
    · intro hall
      obtain ⟨⟨ha, has⟩, rfl⟩ := hall
      exact ⟨_, _, ⟨ha, rfl⟩, ⟨has, rfl⟩, rfl⟩

section State
variable {σ : Type}

/-- A computation of two steps that keep a state succeeds exactly if both do, the second from the state of the first. -/
theorem bind_eq_result_ok_iff {x : EStateM ε σ α} {f : α → EStateM ε σ β} {s s' : σ} {b : β} :
    (x >>= f) s = .ok b s' ↔ ∃ a mid, x s = .ok a mid ∧ f a mid = .ok b s' := by
  change EStateM.bind x f s = .ok b s' ↔ _
  unfold EStateM.bind
  cases x s with
  | ok a mid => simp
  | error e mid => simp

theorem mapM_cons_eq_result_ok_iff {f : α → EStateM ε σ β} {a : α} {as : List α} {s s' : σ} {bs : List β} :
    (a :: as).mapM f s = .ok bs s' ↔
      ∃ b mid bs', f a s = .ok b mid ∧ as.mapM f mid = .ok bs' s' ∧ bs = b :: bs' := by
  rw [List.mapM_cons, bind_eq_result_ok_iff]
  simp only [bind_eq_result_ok_iff]
  constructor
  · intro hm
    rcases hm with ⟨b, mid, hb, bs', s₁, hbs, hpure⟩
    cases hpure
    exact ⟨b, mid, bs', hb, hbs, rfl⟩
  · intro hm
    rcases hm with ⟨b, mid, bs', hb, hbs, rfl⟩
    exact ⟨b, mid, hb, bs', s', hbs, rfl⟩

/-- Of the items in a row all succeed, or there is a first one that does not. -/
theorem mapM_ok_or_fails (f : α → EStateM ε σ β) (as : List α) (s : σ) :
    (∃ bs s', as.mapM f s = .ok bs s') ∨
      ∃ before a after bs mid e s', as = before ++ a :: after ∧ before.mapM f s = .ok bs mid ∧ f a mid = .error e s' := by
  induction as generalizing s with
  | nil => exact .inl ⟨[], s, rfl⟩
  | cons a as ih =>
    cases ha : f a s with
    | error e s' => exact .inr ⟨[], a, as, [], s, e, s', rfl, rfl, ha⟩
    | ok b mid =>
      rcases ih mid with ⟨bs, s', hbs⟩ | ⟨before, a', after, bs, mid', e, s', rfl, hbs, he⟩
      · exact .inl ⟨b :: bs, s', mapM_cons_eq_result_ok_iff.mpr ⟨b, mid, bs, ha, hbs, rfl⟩⟩
      · have hfront : (a :: before).mapM f s = .ok (b :: bs) mid' :=
          mapM_cons_eq_result_ok_iff.mpr ⟨b, mid, bs, ha, hbs, rfl⟩
        exact .inr ⟨a :: before, a', after, b :: bs, mid', e, s', rfl, hfront, he⟩

end State

namespace Traced

@[simp] theorem outcome_pure (a : α) : (pure a : Traced ω ε α).outcome = .ok a := rfl

theorem outcome_bind_eq_ok_iff {x : Traced ω ε α} {f : α → Traced ω ε β} {b : β} :
    (x >>= f).outcome = .ok b ↔ ∃ a, x.outcome = .ok a ∧ (f a).outcome = .ok b := by
  cases h : x.outcome with
  | error e => simp [bind_error h]
  | ok a => simp [bind_ok h]

theorem outcome_bind_eq_error_iff {x : Traced ω ε α} {f : α → Traced ω ε β} {e : ε} :
    (x >>= f).outcome = .error e ↔
      x.outcome = .error e ∨ ∃ a, x.outcome = .ok a ∧ (f a).outcome = .error e := by
  cases h : x.outcome with
  | error e => simp [bind_error h]
  | ok a => simp [bind_ok h]

/-- All events of the log are of the kind. -/
def Emits (x : Traced ω ε α) (p : ω → Prop) : Prop := ∀ e ∈ x.log, p e

variable {p : ω → Prop}

theorem emits_pure (a : α) : (pure a : Traced ω ε α).Emits p := nofun

theorem Emits.bind {x : Traced ω ε α} {f : α → Traced ω ε β} (hx : x.Emits p)
    (hf : ∀ a, x.outcome = .ok a → (f a).Emits p) : (x >>= f).Emits p := by
  intro e he
  cases h : x.outcome with
  | error _ =>
    rw [bind_error h] at he
    exact hx e he
  | ok a =>
    rw [bind_ok h] at he
    obtain he | he := List.mem_append.mp he
    · exact hx e he
    · exact hf a h e he

end Traced
end TaggedWire
