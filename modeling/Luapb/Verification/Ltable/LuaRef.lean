import Luapb.Verification.Ltable.References

/-! # `LuaRef`

Each `LuaRef` has a number of its own in the registry, so that it is like a variable: what
happens to one does not change another. Only assigning one to itself loses its value. -/

namespace Luapb

namespace LuaH

variable {V : Type} {P : Platform} {identity : ℕ → Identity} {S : Values V}

/-! ## Variables -/

namespace RefOp

/-- What C++ sees to: only what there is can be used, and is constructed once. Nothing is
assigned to itself. -/
def Valid (s : LuaRefs V) : RefOp V → Prop
  | .construct x _ => s.ref x = none
  | .copy x y => s.ref x = none ∧ s.ref y ≠ none
  | .assign x y => s.ref x ≠ none ∧ s.ref y ≠ none ∧ x ≠ y
  | .pop x _ => s.ref x ≠ none
  | .destroy x => s.ref x ≠ none

/-- The operation on variables. A variable that does not exist is `none`. -/
def apply (vars : ℕ → Option (Option V)) : RefOp V → ℕ → Option (Option V)
  | .construct x v => Function.update vars x (some v)
  | .copy x y => Function.update vars x (vars y)
  | .assign x y => Function.update vars x (vars y)
  | .pop x v => Function.update vars x (some v)
  | .destroy x => Function.update vars x none

end RefOp

/-- How a `LuaRef` stands for a variable. -/
inductive StandsFor (live : List (ℤ × V)) : Option ℤ → Option (Option V) → Prop
  | none : StandsFor live none none
  | nil : StandsFor live (some luaRefnil) (some none)
  | value {r v} (h : (r, v) ∈ live) : StandsFor live (some r) (some (some v))

variable (S identity) in
/-- Each `LuaRef` stands for a variable, and each reference in use is that of one `LuaRef`. -/
structure Represents (m₀ : LuaKey → Option V) (t : Table V) (ref : ℕ → Option ℤ)
    (vars : ℕ → Option (Option V)) (live : List (ℤ × V)) (free : List ℤ) : Prop where
  holds : Holds identity S m₀ t live free
  stands : ∀ x, StandsFor live (ref x) (vars x)
  injective : ∀ {x y r}, ref x = some r → ref y = some r → r ≠ luaRefnil → x = y
  owned : ∀ e ∈ live, ∃ x, ref x = some e.1

section

variable {m₀ : LuaKey → Option V} {t : Table V} {ref : ℕ → Option ℤ}
  {vars : ℕ → Option (Option V)} {live : List (ℤ × V)} {free : List ℤ}
  (h : Represents identity S m₀ t ref vars live free)

include h

theorem Represents.push_eq (hm₀ : m₀ (.integer luaRefnil) = none) {x : ℕ} {v : Option V}
    (hx : vars x = some v) : LuaRefs.push identity ⟨t, ref⟩ x = .ok v := by
  have hstands := h.stands x
  have hrefs := h.holds.refs
  rw [hx] at hstands
  rw [LuaRefs.push, LuaRefs.mRef]
  dsimp only
  generalize ref x = r at hstands
  cases hstands with
  | nil =>
      have hforeign : Foreign (.integer luaRefnil) := by
        intro i hi heq
        have hindex := LuaKey.integer.inj heq
        rw [luaRefnil] at hindex
        omega
      rw [Option.getD_some, h.holds.wellFormed.rawgeti_eq (by decide) (by decide),
        hrefs.foreign hforeign, hm₀]
  | @value r v hmem =>
      have hbound := hrefs.bound
      obtain ⟨hpos, hle, -⟩ := hrefs.of_mem_live hmem
      simp only at hpos hle
      rw [Option.getD_some, h.holds.wellFormed.rawgeti_eq (by omega) (by omega),
        hrefs.value_eq _ hmem]

theorem Represents.mem_live {x : ℕ} {r : ℤ} (hx : ref x = some r) (hr : r ≠ luaRefnil) :
    r ∈ live.map (·.1) := by
  have hstands := h.stands x
  rw [hx] at hstands
  generalize vars x = var at hstands
  cases hstands with
  | nil => exact absurd rfl hr
  | @value _ v hmem => exact List.mem_map.mpr ⟨(r, v), hmem, rfl⟩

/-- A `LuaRef` more, with a number that was not in use. -/
theorem Represents.add {x : ℕ} (hx : ref x = none) {t' : Table V} {live' : List (ℤ × V)}
    {free' : List ℤ} (hholds : Holds identity S m₀ t' live' free') {r : ℤ} {v : Option V}
    (hr : StandsFor live' (some r) (some v)) (hsubset : live ⊆ live')
    (howned : ∀ e ∈ live', e ∈ live ∨ e.1 = r) (hnew : r = luaRefnil ∨ r ∉ live.map (·.1)) :
    Represents identity S m₀ t' (Function.update ref x (some r))
      (Function.update vars x (some v)) live' free' := by
  refine ⟨hholds, ?_, ?_, ?_⟩
  · intro y
    by_cases hy : y = x
    · subst hy
      rw [Function.update_self, Function.update_self]
      exact hr
    · rw [Function.update_of_ne hy, Function.update_of_ne hy]
      have hstands := h.stands y
      generalize ref y = r', vars y = var at hstands
      cases hstands with
      | none => exact .none
      | nil => exact .nil
      | value hmem => exact .value (hsubset hmem)
  · intro y z r' hy hz hne
    rw [Function.update_apply] at hy hz
    split at hy <;> split at hz
    · rename_i hyx hzx
      rw [hyx, hzx]
    · obtain rfl := Option.some.inj hy
      exact absurd (h.mem_live hz hne) (hnew.resolve_left hne)
    · obtain rfl := Option.some.inj hz
      exact absurd (h.mem_live hy hne) (hnew.resolve_left hne)
    · exact h.injective hy hz hne
  · intro e he
    rcases howned e he with hold | heq
    · obtain ⟨y, hy⟩ := h.owned e hold
      refine ⟨y, ?_⟩
      rw [Function.update_of_ne, hy]
      rintro rfl
      cases hx.symm.trans hy
    · exact ⟨x, by rw [Function.update_self, heq]⟩

/-- A `LuaRef` less. The references that stay are those of the others. -/
theorem Represents.remove {x : ℕ} {t' : Table V} {live' : List (ℤ × V)} {free' : List ℤ}
    (hholds : Holds identity S m₀ t' live' free')
    (hlive : ∀ e, e ∈ live' ↔ e ∈ live ∧ ref x ≠ some e.1) :
    Represents identity S m₀ t' (Function.update ref x none) (Function.update vars x none)
      live' free' := by
  refine ⟨hholds, ?_, ?_, ?_⟩
  · intro y
    by_cases hy : y = x
    · subst hy
      rw [Function.update_self, Function.update_self]
      exact .none
    · rw [Function.update_of_ne hy, Function.update_of_ne hy]
      have hstands := h.stands y
      cases hr : ref y with
      | none =>
          rw [hr] at hstands
          generalize vars y = var at hstands
          cases hstands
          exact .none
      | some r =>
          rw [hr] at hstands
          generalize vars y = var at hstands
          cases hstands with
          | nil => exact .nil
          | @value _ v hmem =>
              refine .value ((hlive (r, v)).mpr ⟨hmem, ?_⟩)
              intro hx
              have hpos := (h.holds.refs.of_mem_live hmem).1
              simp only at hpos
              exact hy (h.injective hr hx (by rw [luaRefnil]; omega))
  · intro y z r hy hz hne
    rw [Function.update_apply] at hy hz
    split at hy
    · cases hy
    · split at hz
      · cases hz
      · exact h.injective hy hz hne
  · intro e he
    obtain ⟨hmem, hne⟩ := (hlive e).mp he
    obtain ⟨y, hy⟩ := h.owned e hmem
    refine ⟨y, ?_⟩
    rw [Function.update_of_ne, hy]
    rintro rfl
    exact hne hy

theorem Represents.setRef_spec {x : ℕ} (hx : ref x = none) (v : Option V) :
    LuaRefs.setRef P identity S ⟨t, ref⟩ x v = .error tableOverflow ∨
      ∃ t' r live' free', LuaRefs.setRef P identity S ⟨t, ref⟩ x v =
          .ok ⟨t', Function.update ref x (some r)⟩ ∧
        Represents identity S m₀ t' (Function.update ref x (some r))
          (Function.update vars x (some v)) live' free' := by
  rw [LuaRefs.setRef]
  cases v with
  | none =>
      exact .inr ⟨t, luaRefnil, live, free, rfl,
        h.add hx h.holds .nil (fun _ he => he) (fun _ he => .inl he) (.inl rfl)⟩
  | some v =>
      rcases h.holds.luaLRef_spec (P := P) v with herr | ⟨t', r, heq, hholds⟩
      · exact .inl (by rw [herr]; rfl)
      · have hnodup := (List.nodup_append.mp hholds.refs.nodup).1
        refine .inr ⟨t', r, _, _, by rw [heq]; rfl, h.add hx hholds (.value List.mem_cons_self)
          (fun _ he => List.mem_cons_of_mem _ he) ?_ (.inr (List.nodup_cons.mp hnodup).1)⟩
        intro e he
        exact (List.mem_cons.mp he).symm.imp id (congrArg Prod.fst)

theorem Represents.unref_spec {x : ℕ} (hx : ref x ≠ none) :
    LuaRefs.unref identity S ⟨t, ref⟩ x = .error tableOverflow ∨
      ∃ t' live' free', LuaRefs.unref identity S ⟨t, ref⟩ x = .ok ⟨t', ref⟩ ∧
        Represents identity S m₀ t' (Function.update ref x none) (Function.update vars x none)
          live' free' := by
  obtain ⟨r, hr⟩ := Option.ne_none_iff_exists'.mp hx
  have hstands := h.stands x
  rw [LuaRefs.unref, LuaRefs.mRef]
  dsimp only
  rw [hr, Option.getD_some]
  rw [hr] at hstands
  generalize vars x = var at hstands
  cases hstands with
  | nil =>
      refine .inr ⟨t, live, free, rfl, h.remove h.holds ?_⟩
      intro e
      refine ⟨fun he => ⟨he, ?_⟩, And.left⟩
      have hpos := (h.holds.refs.of_mem_live he).1
      rw [hr, luaRefnil]
      intro heq
      have hindex := Option.some.inj heq
      omega
  | @value _ v hmem =>
      obtain ⟨before, after, rfl⟩ := List.append_of_mem hmem
      rcases h.holds.luaLUnref_spec with herr | ⟨t', heq, hholds⟩
      · exact .inl (by rw [herr]; rfl)
      · refine .inr ⟨t', _, _, by rw [heq]; rfl, h.remove hholds ?_⟩
        intro e
        have hnodup := (List.nodup_append.mp h.holds.refs.nodup).1
        rw [List.map_append, List.map_cons, List.nodup_middle, ← List.map_append] at hnodup
        have hnotMem := (List.nodup_cons.mp hnodup).1
        simp only [hr, Option.some.injEq, ne_eq, List.mem_append, List.mem_cons]
        constructor
        · intro he
          refine ⟨he.imp id .inr, ?_⟩
          intro heq
          exact hnotMem (List.mem_map.mpr ⟨e, List.mem_append.mpr he, heq.symm⟩)
        · rintro ⟨hbefore | rfl | hafter, hne⟩
          · exact .inl hbefore
          · exact absurd rfl hne
          · exact .inr hafter

/-! ## One operation -/

theorem Represents.exists_var {x : ℕ} (hx : ref x ≠ none) : ∃ v, vars x = some v := by
  obtain ⟨r, hr⟩ := Option.ne_none_iff_exists'.mp hx
  have hstands := h.stands x
  rw [hr] at hstands
  generalize vars x = var at hstands
  cases hstands with
  | nil => exact ⟨none, rfl⟩
  | @value _ v hmem => exact ⟨some v, rfl⟩

theorem Represents.var_eq_nil {x : ℕ} (hx : ref x = some luaRefnil) : vars x = some none := by
  have hstands := h.stands x
  rw [hx] at hstands
  generalize vars x = var at hstands
  cases hstands with
  | nil => rfl
  | value hmem =>
      have hpos := (h.holds.refs.of_mem_live hmem).1
      simp only [luaRefnil] at hpos
      omega

omit h in
theorem setRef_update (t : Table V) (ref : ℕ → Option ℤ) (x : ℕ) (v : Option V) :
    LuaRefs.setRef P identity S ⟨t, Function.update ref x none⟩ x v =
      LuaRefs.setRef P identity S ⟨t, ref⟩ x v := by
  simp only [LuaRefs.setRef, Function.update_idem]

omit h in
/-- A value in the place of another one. -/
theorem Represents.replace {x : ℕ} {t₁ : Table V}
    (h₁ : Represents identity S m₀ t₁ (Function.update ref x none) (Function.update vars x none)
      live free) (v : Option V) :
    LuaRefs.setRef P identity S ⟨t₁, ref⟩ x v = .error tableOverflow ∨
      ∃ t' ref' live' free', LuaRefs.setRef P identity S ⟨t₁, ref⟩ x v = .ok ⟨t', ref'⟩ ∧
        Represents identity S m₀ t' ref' (Function.update vars x (some v)) live' free' := by
  have hset := h₁.setRef_spec (P := P) (Function.update_self ..) v
  rw [setRef_update, Function.update_idem] at hset
  exact hset.imp id fun ⟨t', r, live', free', heq, h'⟩ => ⟨t', _, live', free', heq, h'⟩

theorem Represents.step_spec (hm₀ : m₀ (.integer luaRefnil) = none) {op : RefOp V}
    (hvalid : op.Valid ⟨t, ref⟩) :
    LuaRefs.step P identity S ⟨t, ref⟩ op = .error tableOverflow ∨
      ∃ t' ref' live' free', LuaRefs.step P identity S ⟨t, ref⟩ op = .ok ⟨t', ref'⟩ ∧
        Represents identity S m₀ t' ref' (op.apply vars) live' free' := by
  cases op with
  | construct x v =>
      exact (h.setRef_spec (P := P) hvalid v).imp id
        fun ⟨t', r, live', free', heq, h'⟩ => ⟨t', _, live', free', heq, h'⟩
  | copy x y =>
      obtain ⟨v, hv⟩ := h.exists_var hvalid.2
      rw [LuaRefs.step, RefOp.apply, hv]
      split
      · rw [h.push_eq hm₀ hv, Fallible.ok_bind]
        exact (h.setRef_spec (P := P) hvalid.1 v).imp id
          fun ⟨t', r, live', free', heq, h'⟩ => ⟨t', _, live', free', heq, h'⟩
      · rename_i hnil
        obtain ⟨r, hr⟩ := Option.ne_none_iff_exists'.mp hvalid.2
        rw [LuaRefs.mRef, hr, Option.getD_some, ne_eq, not_not] at hnil
        obtain rfl := Option.some.inj (hv.symm.trans (h.var_eq_nil (hnil ▸ hr)))
        exact .inr ⟨t, _, live, free, rfl, h.add hvalid.1 h.holds .nil (fun _ he => he)
          (fun _ he => .inl he) (.inl rfl)⟩
  | assign x y =>
      obtain ⟨v, hv⟩ := h.exists_var hvalid.2.1
      rw [LuaRefs.step, RefOp.apply, hv]
      rcases h.unref_spec hvalid.1 with herr | ⟨t₁, live₁, free₁, heq₁, h₁⟩
      · exact .inl (by rw [herr]; rfl)
      · have hpush := h₁.push_eq hm₀ (x := y) (v := v)
          (by rw [Function.update_of_ne (Ne.symm hvalid.2.2), hv])
        rw [LuaRefs.push, LuaRefs.mRef] at hpush
        dsimp only at hpush
        rw [Function.update_of_ne (Ne.symm hvalid.2.2)] at hpush
        rw [heq₁, Fallible.ok_bind, LuaRefs.push, LuaRefs.mRef]
        dsimp only
        rw [hpush, Fallible.ok_bind]
        exact Represents.replace h₁ v
  | pop x v =>
      rw [LuaRefs.step, RefOp.apply]
      rcases h.unref_spec hvalid with herr | ⟨t₁, live₁, free₁, heq₁, h₁⟩
      · exact .inl (by rw [herr]; rfl)
      · rw [heq₁, Fallible.ok_bind]
        exact Represents.replace h₁ v
  | destroy x =>
      rw [LuaRefs.step, RefOp.apply]
      rcases h.unref_spec hvalid with herr | ⟨t₁, live₁, free₁, heq₁, h₁⟩
      · exact .inl (by rw [herr]; rfl)
      · exact .inr ⟨t₁, _, live₁, free₁, by rw [heq₁]; rfl, h₁⟩

end

/-! ## Runs -/

variable (P identity S) in
/-- What happens to the `LuaRef`s of a program, and to keys of the registry that are not
integers, with the variables that the `LuaRef`s stand for. -/
inductive LuaRefRuns : LuaRefs V → (ℕ → Option (Option V)) → Prop
  | start {t m} (h : Runs identity t m) (hm : ∀ i : ℤ, m (.integer i) = none) :
      LuaRefRuns ⟨t, fun _ => none⟩ fun _ => none
  | step {s vars op s'} (h : LuaRefRuns s vars) (hvalid : op.Valid s)
      (heq : LuaRefs.step P identity S s op = .ok s') : LuaRefRuns s' (op.apply vars)
  | rawset {s vars key v t'} (h : LuaRefRuns s vars) (hkey : ∀ i : ℤ, key ≠ .integer i)
      (heq : rawset identity s.registry key v = .ok t') :
      LuaRefRuns { s with registry := t' } vars

theorem LuaRefRuns.represents {s : LuaRefs V} {vars : ℕ → Option (Option V)}
    (h : LuaRefRuns P identity S s vars) : ∃ m₀ live free, m₀ (.integer luaRefnil) = none ∧
      Represents identity S m₀ s.registry s.ref vars live free := by
  induction h with
  | @start t m h hm =>
      obtain ⟨hwf, rfl⟩ := h.spec
      exact ⟨t.content, [], [], hm _, ⟨hwf, .start fun i _ => hm i⟩, fun _ => .none,
        (fun hx => nomatch hx), fun _ he => nomatch he⟩
  | step h hvalid heq ih =>
      obtain ⟨m₀, live, free, hm₀, hrep⟩ := ih
      rcases hrep.step_spec (P := P) hm₀ hvalid with herr | ⟨t', ref', live', free', heq', hrep'⟩
      · cases herr.symm.trans heq
      · obtain rfl := Except.ok.inj (heq'.symm.trans heq)
        exact ⟨m₀, live', free', hm₀, hrep'⟩
  | @rawset s vars key v t' h hkey heq ih =>
      obtain ⟨m₀, live, free, hm₀, hrep⟩ := ih
      obtain ⟨hwf', hcontent⟩ := (hrep.holds.wellFormed.rawset_spec _ _).eq_ok heq
      refine ⟨Function.update m₀ key v, live, free, ?_, ⟨hwf', ?_⟩, hrep.stands, hrep.injective,
        hrep.owned⟩
      · rw [Function.update_of_ne (Ne.symm (hkey _)), hm₀]
      · rw [hcontent]
        exact hrep.holds.refs.update_foreign (fun i _ => hkey i) v

/-- Over every run each `LuaRef` has the value of its variable, no two share a number, and only
a table with too many keys can stop an operation. -/
theorem luaRefs_are_variables {s : LuaRefs V} {vars : ℕ → Option (Option V)}
    (h : LuaRefRuns P identity S s vars) :
    (∀ x v, vars x = some v → LuaRefs.push identity s x = .ok v) ∧
    (∀ x y r, s.ref x = some r → s.ref y = some r → r ≠ luaRefnil → x = y) ∧
    ∀ op : RefOp V, op.Valid s → (∃ s', LuaRefs.step P identity S s op = .ok s') ∨
      LuaRefs.step P identity S s op = .error tableOverflow := by
  obtain ⟨m₀, live, free, hm₀, hrep⟩ := h.represents
  refine ⟨fun x v hx => hrep.push_eq hm₀ hx, fun x y r => hrep.injective, ?_⟩
  intro op hvalid
  rcases hrep.step_spec (P := P) hm₀ hvalid with herr | ⟨t', ref', live', free', heq, -⟩
  · exact .inr herr
  · exact .inl ⟨_, heq⟩

/-- One `LuaRef` that is copied to another, and both have the value. -/
theorem luaRefs_are_variables_copied : ∃ s : LuaRefs LuaTree,
    LuaRefs.push (fun _ => .boolean true) s 0 = .ok (some (.string [120])) ∧
      LuaRefs.push (fun _ => .boolean true) s 1 = .ok (some (.string [120])) :=
  let start : LuaRefRuns (.plain .x64) (fun _ => .boolean true) treeValues
      ⟨⟨[], 0, [.empty], true, 0⟩, fun _ => none⟩ fun _ => none :=
    .start (.new (by decide) (by decide) (rfl : new 0 0 = .ok _)) fun _ => rfl
  let one : LuaRefRuns (.plain .x64) (fun _ => .boolean true) treeValues
      ⟨⟨[some (.string [120])], 0, [.empty], true, 0⟩, Function.update (fun _ => none) 0 (some 1)⟩
      (RefOp.apply (fun _ => none) (.construct 0 (some (.string [120])))) :=
    .step start rfl rfl
  let two : LuaRefRuns (.plain .x64) (fun _ => .boolean true) treeValues
      ⟨⟨[some (.string [120]), some (.string [120])], 0, [.empty], true, 0⟩,
        Function.update (Function.update (fun _ => none) 0 (some 1)) 1 (some 2)⟩
      (RefOp.apply (RefOp.apply (fun _ => none) (.construct 0 (some (.string [120]))))
        (.copy 1 0)) :=
    .step one ⟨rfl, by decide⟩ rfl
  ⟨_, (luaRefs_are_variables two).1 0 _ rfl, (luaRefs_are_variables two).1 1 _ rfl⟩

theorem FreeFrom.head_eq {m : LuaKey → Option V} {k : ℤ} {free : List ℤ}
    (h : FreeFrom S m k free) : m (.integer k) = free.head?.map (pushinteger S) := by
  cases free with
  | nil => exact h
  | cons r rest => exact h.1

/-- The list of free numbers begins with a number or with nil. -/
theorem Holds.rawgeti_freelist {m₀ : LuaKey → Option V} {live : List (ℤ × V)} {free : List ℤ}
    (h : Holds identity S m₀ t live free) :
    rawgeti identity t freelistRef = .ok (free.head?.map (pushinteger S)) := by
  rw [h.wellFormed.rawgeti_eq (by decide) (by decide), freelistRef, h.refs.free_from.head_eq]

/-- A number that was given back leads to the one that was free before. -/
theorem Holds.content_unref {m₀ : LuaKey → Option V} {t t' : Table V} {live : List (ℤ × V)}
    {free : List ℤ} {e : ℤ × V} (h : Holds identity S m₀ t live free) (he : e ∈ live)
    (heq : luaLUnref identity S t e.1 = .ok t') :
    t'.content (.integer e.1) = free.head?.map (pushinteger S) := by
  obtain ⟨before, after, rfl⟩ := List.append_of_mem he
  rcases h.luaLUnref_spec with herr | ⟨t'', heq', hholds⟩
  · cases herr.symm.trans heq
  · obtain rfl := Except.ok.inj (heq'.symm.trans heq)
    exact hholds.refs.free_from.2.head_eq

section

variable {m₀ : LuaKey → Option V} {t t' : Table V} {ref : ℕ → Option ℤ}
  {vars : ℕ → Option (Option V)} {live : List (ℤ × V)} {free : List ℤ}
  (h : Represents identity S m₀ t ref vars live free) {x : ℕ} {v : V}
  (hx : vars x = some (some v))

include h hx

theorem Represents.exists_mem_live : ∃ r, ref x = some r ∧ (r, v) ∈ live := by
  have hstands := h.stands x
  rw [hx] at hstands
  generalize ref x = r? at hstands
  cases hstands with
  | value hmem => exact ⟨_, rfl, hmem⟩

/-- What `operator=` reads behind a number that it has released. -/
theorem Represents.push_unref (hwf : WellFormed identity t')
    (heq : LuaRefs.unref identity S ⟨t, ref⟩ x = .ok ⟨t', ref⟩) :
    LuaRefs.push identity ⟨t', ref⟩ x = .ok (free.head?.map (pushinteger S)) := by
  obtain ⟨r, hr, hmem⟩ := h.exists_mem_live hx
  obtain ⟨hpos, hle, -⟩ := h.holds.refs.of_mem_live hmem
  have hbound := h.holds.refs.bound
  simp only at hpos hle
  have hunref : luaLUnref identity S t r = .ok t' := by
    rw [LuaRefs.unref, LuaRefs.mRef] at heq
    dsimp only at heq
    rw [hr, Option.getD_some] at heq
    cases hresult : luaLUnref identity S t r with
    | error e =>
        rw [hresult] at heq
        cases heq
    | ok t'' =>
        rw [hresult] at heq
        exact congrArg (Except.ok ∘ LuaRefs.registry) (Except.ok.inj heq)
  rw [LuaRefs.push, LuaRefs.mRef]
  dsimp only
  rw [hr, Option.getD_some, hwf.rawgeti_eq (by omega) (by omega), h.holds.content_unref hmem hunref]

end

/-- `operator=` releases the number before it reads the value. A `LuaRef` that is assigned to
itself then gets what the list of free numbers begins with: a number, or nil. -/
theorem assign_self {s : LuaRefs V} {vars : ℕ → Option (Option V)}
    (h : LuaRefRuns P identity S s vars) {x : ℕ} {v : V} (hx : vars x = some (some v)) :
    ∃ first, rawgeti identity s.registry freelistRef = .ok first ∧
      (first = none ∨ ∃ r : ℤ, 0 < r ∧ first = some (pushinteger S r)) ∧
      (LuaRefs.step P identity S s (.assign x x) = .error tableOverflow ∨
        ∃ s', LuaRefs.step P identity S s (.assign x x) = .ok s' ∧
          LuaRefs.push identity s' x = .ok first ∧
          ∀ y w, y ≠ x → vars y = some w → LuaRefs.push identity s' y = .ok w) := by
  obtain ⟨m₀, live, free, hm₀, hrep⟩ := h.represents
  obtain ⟨t, ref⟩ := s
  dsimp only at hrep ⊢
  refine ⟨_, hrep.holds.rawgeti_freelist, ?_, ?_⟩
  · cases hfree : free with
    | nil => exact .inl rfl
    | cons r rest =>
        have hmem : r ∈ free := hfree ▸ List.mem_cons_self
        exact .inr ⟨r, (hrep.holds.refs.of_mem_free hmem).1, rfl⟩
  · obtain ⟨r, hr, -⟩ := hrep.exists_mem_live hx
    rw [LuaRefs.step]
    rcases hrep.unref_spec (hr ▸ Option.some_ne_none r) with herr | ⟨t₁, live₁, free₁, heq₁, h₁⟩
    · exact .inl (by rw [herr]; rfl)
    · rw [heq₁, Fallible.ok_bind, hrep.push_unref hx h₁.holds.wellFormed heq₁, Fallible.ok_bind]
      refine (Represents.replace (P := P) h₁ _).imp id ?_
      rintro ⟨t', ref', live', free', heq', hrep'⟩
      refine ⟨_, heq', hrep'.push_eq hm₀ (Function.update_self ..), ?_⟩
      intro y w hy hw
      exact hrep'.push_eq hm₀ (by rw [Function.update_of_ne hy, hw])

/-- The only `LuaRef` becomes nil. -/
theorem assign_self_nil : ∃ (s s' : LuaRefs LuaTree) (first : Option LuaTree),
    LuaRefs.push (fun _ => .boolean true) s 0 = .ok (some (.string [120])) ∧
      LuaRefs.step (.plain .x64) (fun _ => .boolean true) treeValues s (.assign 0 0) = .ok s' ∧
      first = none ∧ LuaRefs.push (fun _ => .boolean true) s' 0 = .ok first := by
  have start : LuaRefRuns (.plain .x64) (fun _ => .boolean true) treeValues
      ⟨⟨[], 0, [.empty], true, 0⟩, fun _ => none⟩ fun _ => none :=
    .start (.new (by decide) (by decide) (rfl : new 0 0 = .ok _)) fun _ => rfl
  have one : LuaRefRuns (.plain .x64) (fun _ => .boolean true) treeValues
      ⟨⟨[some (.string [120])], 0, [.empty], true, 0⟩, Function.update (fun _ => none) 0 (some 1)⟩
      (RefOp.apply (fun _ => none) (.construct 0 (some (.string [120])))) :=
    .step start rfl rfl
  obtain ⟨first, hfirst, -, hstep⟩ := assign_self one (x := 0) (v := .string [120]) rfl
  obtain rfl : none = first := Except.ok.inj ((rfl : _ = Except.ok none).symm.trans hfirst)
  rcases hstep with herr | ⟨s', heq, hpush, -⟩
  · cases (rfl : LuaRefs.step (.plain .x64) _ treeValues _ (.assign 0 0) = .ok _).symm.trans herr
  · exact ⟨_, s', none, rfl, heq, rfl, hpush⟩

end LuaH

end Luapb
