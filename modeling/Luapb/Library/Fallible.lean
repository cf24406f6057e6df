import Mathlib.Data.List.Forall2

/-! # Fallible programs

What the success of a sequence or of a loop in `Except` says about its steps. -/

namespace Fallible

universe u v

variable {ε : Type u} {α β γ : Type v}

/-- A sequence of two steps succeeds exactly when both do. -/
theorem bind_eq_ok {x : Except ε α} {f : α → Except ε β} {b : β} :
    x >>= f = .ok b ↔ ∃ a, x = .ok a ∧ f a = .ok b := by
  cases x with
  | error e => exact ⟨fun h => (nomatch h), fun ⟨_, h, _⟩ => (nomatch h)⟩
  | ok a => exact ⟨fun h => ⟨a, rfl, h⟩, fun ⟨_, h, hf⟩ => Except.ok.inj h ▸ hf⟩

theorem bind_eq_error {x : Except ε α} {f : α → Except ε β} {e : ε} :
    x >>= f = .error e ↔ x = .error e ∨ ∃ a, x = .ok a ∧ f a = .error e := by
  cases x with
  | error e' =>
      constructor
      · intro h
        exact .inl (congrArg Except.error (Except.error.inj h))
      · rintro (h | ⟨a, h, -⟩)
        · exact congrArg Except.error (Except.error.inj h)
        · cases h
  | ok a =>
      constructor
      · exact fun h => .inr ⟨a, rfl, h⟩
      · rintro (h | ⟨a', h, hf⟩)
        · cases h
        · cases h
          exact hf

/-- Two programs that begin with the same step continue with the same value. -/
theorem bind_same {x : Except ε α} {f : α → Except ε β} {g : α → Except ε γ} {b : β} {c : γ}
    (hf : x >>= f = .ok b) (hg : x >>= g = .ok c) : ∃ a, f a = .ok b ∧ g a = .ok c := by
  obtain ⟨a, ha, hb⟩ := bind_eq_ok.mp hf
  obtain ⟨a', ha', hc⟩ := bind_eq_ok.mp hg
  obtain rfl := Except.ok.inj (ha.symm.trans ha')
  exact ⟨a, hb, hc⟩

theorem ok_bind (a : α) (f : α → Except ε β) : (Except.ok a >>= f) = f a := rfl

theorem pure_eq_ok {a b : α} : (pure a : Except ε α) = .ok b ↔ b = a :=
  ⟨fun h => (Except.ok.inj h).symm, fun h => h ▸ rfl⟩

/-- Whether a program succeeds, and how it fails if it does not. -/
def outcome (x : Except ε α) : Except ε PUnit.{v + 1} := x.map fun _ => ⟨⟩

@[simp] theorem outcome_ok (a : α) : outcome (Except.ok a : Except ε α) = .ok ⟨⟩ := rfl

@[simp] theorem outcome_error (e : ε) : outcome (Except.error e : Except ε α) = .error e := rfl

theorem outcome_eq_ok {x : Except ε α} : outcome x = .ok ⟨⟩ ↔ ∃ a, x = .ok a := by
  cases x <;> simp

@[simp] theorem outcome_eq_error {x : Except ε α} {e : ε} :
    outcome x = .error e ↔ x = .error e := by
  cases x <;> simp

theorem outcome_bind (x : Except ε α) (f : α → Except ε β) :
    outcome (x >>= f) = x >>= fun a => outcome (f a) := by
  cases x <;> rfl

theorem outcome_bind_congr {γ : Type v} {x : Except ε α} {f : α → Except ε β} {g : α → Except ε γ}
    (h : ∀ a, outcome (f a) = outcome (g a)) : outcome (x >>= f) = outcome (x >>= g) := by
  cases x with
  | error e => rfl
  | ok a => exact h a

theorem outcome_pure (a : α) : outcome (pure a : Except ε α) = .ok ⟨⟩ := rfl

/-- A loop whose body computes something from each element and adds it to an
accumulator succeeds exactly when it can be computed from all of them. -/
theorem foldlM_eq_ok {δ : Type*} {f : β → α → Except ε β} {G : α → δ → Prop} {op : β → δ → β}
    (hf : ∀ b a c, f b a = .ok c ↔ ∃ d, G a d ∧ c = op b d) (l : List α) (b c : β) :
    l.foldlM f b = .ok c ↔ ∃ ds, List.Forall₂ G l ds ∧ c = ds.foldl op b := by
  induction l generalizing b with
  | nil => simp [pure_eq_ok]
  | cons a l ih =>
      rw [List.foldlM_cons, bind_eq_ok]
      constructor
      · rintro ⟨b', hb', hc⟩
        obtain ⟨d, hd, rfl⟩ := (hf b a b').mp hb'
        obtain ⟨ds, hds, rfl⟩ := (ih _).mp hc
        exact ⟨d :: ds, .cons hd hds, rfl⟩
      · rintro ⟨_, hds, rfl⟩
        cases hds with
        | @cons _ d _ ds hd hds =>
            exact ⟨op b d, (hf b a _).mpr ⟨d, hd, rfl⟩, (ih _).mpr ⟨ds, hds, rfl⟩⟩

theorem foldlM_congr {f g : β → α → Except ε β} {l : List α} (h : ∀ a ∈ l, ∀ b, f b a = g b a)
    (b : β) : l.foldlM f b = l.foldlM g b := by
  induction l generalizing b with
  | nil => rfl
  | cons a l ih =>
      rcases List.forall_mem_cons.mp h with ⟨ha, hl⟩
      rw [List.foldlM_cons, List.foldlM_cons, ha]
      exact bind_congr fun b => ih hl b

theorem foldl_foldl {δ : Type*} (op : β → δ → β) (dss : List (List δ)) (b : β) :
    dss.foldl (fun b ds => ds.foldl op b) b = dss.flatten.foldl op b := by
  induction dss generalizing b with
  | nil => rfl
  | cons ds dss ih => rw [List.foldl_cons, ih, List.flatten_cons, List.foldl_append]

/-- Two lists related through a list of lists between them. -/
theorem forall₂_exists {α δ ζ : Type*} {R : α → δ → Prop} {G : δ → ζ → Prop} {l : List α}
    {zs : List ζ} :
    List.Forall₂ (fun a z => ∃ d, R a d ∧ G d z) l zs ↔
      ∃ ds, List.Forall₂ R l ds ∧ List.Forall₂ G ds zs := by
  constructor
  · intro h
    induction h with
    | nil => exact ⟨[], .nil, .nil⟩
    | cons hz _ ih =>
        obtain ⟨d, hd, hz⟩ := hz
        obtain ⟨ds, hds, hzs⟩ := ih
        exact ⟨d :: ds, .cons hd hds, .cons hz hzs⟩
  · rintro ⟨ds, hds, hzs⟩
    induction hds generalizing zs with
    | nil =>
        cases hzs
        exact .nil
    | cons hd _ ih =>
        cases hzs with
        | cons hz hzs => exact .cons ⟨_, hd, hz⟩ (ih hzs)

/-- Relating the elements of lists of lists is relating them after flattening. -/
theorem forall₂_flatten {α δ : Type*} {R : α → δ → Prop} {ass : List (List α)} {ds : List δ} :
    List.Forall₂ R ass.flatten ds ↔
      ∃ dss, List.Forall₂ (List.Forall₂ R) ass dss ∧ ds = dss.flatten := by
  constructor
  · intro h
    induction ass generalizing ds with
    | nil =>
        cases h
        exact ⟨[], .nil, rfl⟩
    | cons as ass ih =>
        rw [List.flatten_cons] at h
        obtain ⟨dss, hdss, hrest⟩ := ih (List.forall₂_drop_append _ _ _ h.flip).flip
        have hhead := (List.forall₂_take_append _ _ _ h.flip).flip
        refine ⟨ds.take as.length :: dss, .cons hhead hdss, ?_⟩
        rw [List.flatten_cons, ← hrest, List.take_append_drop]
  · rintro ⟨dss, hdss, rfl⟩
    exact List.rel_flatten hdss

theorem forall₂_replicate {α δ : Type*} {R : α → δ → Prop} {a : α} {d : δ} (h : R a d) (n : ℕ) :
    List.Forall₂ R (List.replicate n a) (List.replicate n d) := by
  induction n with
  | zero => exact .nil
  | succ n ih => exact .cons h ih

theorem forall₂_imp {α δ : Type*} {R S : α → δ → Prop} {l : List α} {ds : List δ}
    (h : List.Forall₂ R l ds) (himp : ∀ a ∈ l, ∀ d ∈ ds, R a d → S a d) : List.Forall₂ S l ds := by
  induction h with
  | nil => exact .nil
  | cons hd _ ih =>
      exact .cons (himp _ List.mem_cons_self _ List.mem_cons_self hd) (ih fun a ha d hd =>
        himp a (List.mem_cons_of_mem _ ha) d (List.mem_cons_of_mem _ hd))

theorem forall₂_of_exists {α δ : Type*} {R : α → δ → Prop} {l : List α}
    (h : ∀ a ∈ l, ∃ d, R a d) : ∃ ds, List.Forall₂ R l ds := by
  induction l with
  | nil => exact ⟨[], .nil⟩
  | cons a l ih =>
      obtain ⟨⟨d, hd⟩, hrest⟩ := List.forall_mem_cons.mp h
      obtain ⟨ds, hds⟩ := ih hrest
      exact ⟨d :: ds, .cons hd hds⟩

/-- Where each pair is related exactly if its left side has a property, all are related
exactly if all left sides have it. -/
theorem forall₂_iff_forall {α δ : Type*} {R : α → δ → Prop} {Q : α → Prop} {l : List α}
    {ds : List δ} (h : List.Forall₂ (fun a d => R a d ↔ Q a) l ds) :
    List.Forall₂ R l ds ↔ ∀ a ∈ l, Q a := by
  induction h with
  | nil => simp
  | cons hd _ ih => rw [List.forall₂_cons, List.forall_mem_cons, hd, ih]

theorem exists_of_mem_right {α δ : Type*} {R : α → δ → Prop} {l : List α} {ds : List δ}
    (h : List.Forall₂ R l ds) {d : δ} (hd : d ∈ ds) : ∃ a ∈ l, R a d := by
  induction h with
  | nil => cases hd
  | cons hr _ ih =>
      rcases List.mem_cons.mp hd with rfl | hd
      · exact ⟨_, List.mem_cons_self, hr⟩
      · obtain ⟨a, ha, hr⟩ := ih hd
        exact ⟨a, List.mem_cons_of_mem _ ha, hr⟩

/-- Elements at the same place are related. -/
theorem getElem?_of_forall₂ {α δ : Type*} {R : α → δ → Prop} {l : List α} {ds : List δ}
    (h : List.Forall₂ R l ds) {i : ℕ} {a : α} (ha : l[i]? = some a) :
    ∃ d, ds[i]? = some d ∧ R a d := by
  induction h generalizing i with
  | nil => cases ha
  | cons hab _ ih =>
      cases i with
      | zero => exact ⟨_, rfl, Option.some.inj ha ▸ hab⟩
      | succ i => exact ih ha

end Fallible
