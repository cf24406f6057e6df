import Luapb.Model.LuaRef
import Luapb.Model.Reference
import Luapb.Verification.Ltable.Borders
import Luapb.Verification.Scalar

/-! # References keep their values

The numbers of `luaL_ref` are those from 1 on, and each either stands for a value or is on the
list of free ones. So no number stands for two values, and none is lost. -/

namespace Luapb

namespace LuaH

open Ieee754

variable {V : Type} {P : Platform} {identity : ℕ → Identity} {S : Values V} {t : Table V}

theorem tointeger_pushinteger {n : ℤ} (hle : -2 ^ 31 ≤ n) (hlt : n < 2 ^ 31) :
    tointeger P S (some (pushinteger S n)) = n := by
  have hpow := two_pow_integerBits P.build
  have hint := number2integer_numEq P.build (Binary.NumEq.refl (Binary.not_isNaN_ofInt n))
    (by omega)
  rw [if_pos (by omega)] at hint
  simp only [tointeger, pushinteger, Option.bind_some, S.view_number, Stack.tonumber, hint]
  rw [BitVec.toInt_ofInt, Int.bmod_eq_of_le (by omega) (by omega)]

/-! ## The numbers in use -/

section

variable (S) in
/-- The free numbers, from the one that the table has under `k` on. -/
def FreeFrom (m : LuaKey → Option V) : ℤ → List ℤ → Prop
  | k, [] => m (.integer k) = none
  | k, r :: rest => m (.integer k) = some (pushinteger S r) ∧ FreeFrom m r rest

theorem FreeFrom.move {m m' : LuaKey → Option V} {k k' : ℤ} {free : List ℤ}
    (h : FreeFrom S m k free) (hk : m' (.integer k') = m (.integer k))
    (hfree : ∀ i ∈ free, m' (.integer i) = m (.integer i)) : FreeFrom S m' k' free := by
  induction free generalizing k k' with
  | nil => exact hk.trans h
  | cons r rest ih =>
      obtain ⟨hr, hrest⟩ := List.forall_mem_cons.mp hfree
      exact ⟨hk.trans h.1, ih h.2 hr hrest⟩

/-- Keys that references are not concerned with. -/
def Foreign (key : LuaKey) : Prop := ∀ i : ℤ, 0 ≤ i → key ≠ .integer i

variable (S) in
/-- The references in use with their values, and the free numbers. -/
structure Refs (m₀ m : LuaKey → Option V) (live : List (ℤ × V)) (free : List ℤ) : Prop where
  free_from : FreeFrom S m 0 free
  range : (live.map (·.1) ++ free).Perm
    ((List.range (live.length + free.length)).map fun i : ℕ => (i : ℤ) + 1)
  bound : live.length + free.length < 2 ^ 31
  value_eq : ∀ e ∈ live, m (.integer e.1) = some e.2
  beyond : ∀ i : ℤ, live.length + free.length < i → m (.integer i) = none
  foreign : ∀ {key}, Foreign key → m key = m₀ key

variable {m₀ m : LuaKey → Option V} {live : List (ℤ × V)} {free : List ℤ}
  (h : Refs S m₀ m live free)

include h

theorem Refs.nodup : (live.map (·.1) ++ free).Nodup := by
  rw [h.range.nodup_iff]
  refine List.Nodup.map ?_ List.nodup_range
  intro i j hij
  simp only at hij
  omega

theorem Refs.mem_iff {r : ℤ} :
    r ∈ live.map (·.1) ++ free ↔ 0 < r ∧ r ≤ live.length + free.length := by
  rw [h.range.mem_iff, List.mem_map]
  constructor
  · rintro ⟨i, hi, rfl⟩
    rw [List.mem_range] at hi
    omega
  · rintro ⟨hpos, hle⟩
    exact ⟨(r - 1).toNat, List.mem_range.mpr (by omega), by omega⟩

theorem Refs.of_mem_live {e : ℤ × V} (he : e ∈ live) :
    0 < e.1 ∧ e.1 ≤ live.length + free.length ∧ e.1 ∉ free := by
  have hmem : e.1 ∈ live.map (·.1) := List.mem_map.mpr ⟨e, he, rfl⟩
  have hrange := h.mem_iff.mp (List.mem_append_left free hmem)
  exact ⟨hrange.1, hrange.2, fun hfree => (List.nodup_append.mp h.nodup).2.2 _ hmem _ hfree rfl⟩

theorem Refs.of_mem_free {r : ℤ} (hr : r ∈ free) : 0 < r ∧ r ≤ live.length + free.length :=
  h.mem_iff.mp (List.mem_append_right _ hr)

/-- A value gets the number that was freed last. -/
theorem Refs.reuse {r : ℤ} {rest : List ℤ} (hfree : free = r :: rest) (v : V) :
    Refs S m₀ (Function.update (Function.update m (.integer 0) (m (.integer r)))
      (.integer r) (some v)) ((r, v) :: live) rest := by
  subst hfree
  obtain ⟨hpos, hle⟩ := h.of_mem_free List.mem_cons_self
  have hother : ∀ i : ℤ, i ≠ r → i ≠ 0 →
      Function.update (Function.update m (.integer 0) (m (.integer r)))
        (.integer r) (some v) (.integer i) = m (.integer i) := by
    intro i hir hi
    rw [Function.update_of_ne fun heq => hir (LuaKey.integer.inj heq),
      Function.update_of_ne fun heq => hi (LuaKey.integer.inj heq)]
  have hnodup := h.nodup
  refine ⟨?_, ?_, ?_, ?_, ?_, ?_⟩
  · refine h.free_from.2.move ?_ ?_
    · rw [Function.update_of_ne fun heq => hpos.ne (LuaKey.integer.inj heq), Function.update_self]
    · intro i hi
      refine hother i ?_ (h.of_mem_free (List.mem_cons_of_mem r hi)).1.ne'
      rintro rfl
      exact (List.nodup_cons.mp (List.nodup_append.mp hnodup).2.1).1 hi
  · have hlength : ((r, v) :: live).length + rest.length = live.length + (r :: rest).length := by
      simp only [List.length_cons]
      omega
    rw [hlength]
    exact List.perm_middle.symm.trans h.range
  · have hbound := h.bound
    simp only [List.length_cons] at hbound ⊢
    omega
  · intro e he
    rcases List.mem_cons.mp he with rfl | he
    · exact Function.update_self ..
    · obtain ⟨hepos, -, hefree⟩ := h.of_mem_live he
      rw [hother e.1 (fun heq => hefree (heq ▸ List.mem_cons_self)) hepos.ne']
      exact h.value_eq e he
  · intro i hi
    simp only [List.length_cons, Nat.cast_add, Nat.cast_one] at hi hle
    rw [hother i (by omega) (by omega)]
    exact h.beyond i (by simp only [List.length_cons, Nat.cast_add, Nat.cast_one]; omega)
  · intro key hkey
    rw [Function.update_of_ne (hkey r hpos.le), Function.update_of_ne (hkey 0 (le_refl 0)),
      h.foreign hkey]

/-- Without a free number a value gets the next one. -/
theorem Refs.fresh (hfree : free = []) (hbound : live.length + 1 < 2 ^ 31) (v : V) :
    Refs S m₀ (Function.update m (.integer ((live.length : ℤ) + 1)) (some v))
      (((live.length : ℤ) + 1, v) :: live) [] := by
  subst hfree
  have hother : ∀ i : ℤ, i ≠ (live.length : ℤ) + 1 →
      Function.update m (.integer ((live.length : ℤ) + 1)) (some v) (.integer i) = m (.integer i) :=
    fun i hi => Function.update_of_ne (fun heq => hi (LuaKey.integer.inj heq)) _ _
  refine ⟨?_, ?_, hbound, ?_, ?_, ?_⟩
  · exact (hother 0 (by omega)).trans h.free_from
  · have hrange := h.range
    simp only [List.append_nil, List.length_nil, Nat.add_zero, List.map_cons,
      List.length_cons] at hrange ⊢
    rw [List.range_succ, List.map_append]
    exact (hrange.cons _).trans (List.perm_append_singleton _ _).symm
  · intro e he
    rcases List.mem_cons.mp he with rfl | he
    · exact Function.update_self ..
    · have hle := (h.of_mem_live he).2.1
      rw [hother e.1 (by simp only [List.length_nil] at hle; omega)]
      exact h.value_eq e he
  · intro i hi
    simp only [List.length_cons, List.length_nil, Nat.cast_add, Nat.cast_one, Nat.cast_zero] at hi
    rw [hother i (by omega)]
    exact h.beyond i (by simp only [List.length_nil, Nat.cast_zero]; omega)
  · intro key hkey
    rw [Function.update_of_ne (hkey _ (by omega)), h.foreign hkey]

/-- A number that is given back is the first one to be used again. -/
theorem Refs.release {before after : List (ℤ × V)} {r : ℤ} {v : V}
    (hlive : live = before ++ (r, v) :: after) :
    Refs S m₀ (Function.update (Function.update m (.integer r) (m (.integer 0)))
      (.integer 0) (some (pushinteger S r))) (before ++ after) (r :: free) := by
  subst hlive
  obtain ⟨hpos, hle, hfree⟩ := h.of_mem_live (List.mem_append_right before List.mem_cons_self)
  simp only at hpos hle hfree
  have hother : ∀ i : ℤ, i ≠ r → i ≠ 0 →
      Function.update (Function.update m (.integer r) (m (.integer 0)))
        (.integer 0) (some (pushinteger S r)) (.integer i) = m (.integer i) := by
    intro i hir hi
    rw [Function.update_of_ne fun heq => hi (LuaKey.integer.inj heq),
      Function.update_of_ne fun heq => hir (LuaKey.integer.inj heq)]
  have hlength : (before ++ after).length + (r :: free).length =
      (before ++ (r, v) :: after).length + free.length := by
    simp only [List.length_append, List.length_cons]
    omega
  have hperm : ((before ++ after).map (·.1) ++ r :: free).Perm
      ((before ++ (r, v) :: after).map (·.1) ++ free) := by
    simp only [List.map_append, List.map_cons, List.append_assoc, List.cons_append]
    rw [← List.append_assoc]
    exact List.perm_middle.trans ((List.append_assoc ..).symm ▸ List.perm_middle.symm)
  have hlive : ∀ e ∈ before ++ after, e.1 ≠ r := by
    have hnodup := (hperm.nodup_iff.mpr h.nodup)
    intro e he heq
    exact (List.nodup_append.mp hnodup).2.2 _ (List.mem_map.mpr ⟨e, he, rfl⟩) _
      List.mem_cons_self heq
  have hcast : ((before ++ after).length : ℤ) + (r :: free).length =
      (before ++ (r, v) :: after).length + free.length := by exact_mod_cast hlength
  refine ⟨⟨Function.update_self .., ?_⟩, ?_, ?_, ?_, ?_, ?_⟩
  · refine h.free_from.move ?_ ?_
    · rw [Function.update_of_ne fun heq => hpos.ne' (LuaKey.integer.inj heq), Function.update_self]
    · intro i hi
      refine hother i ?_ (h.of_mem_free hi).1.ne'
      rintro rfl
      exact hfree hi
  · rw [hlength]
    exact hperm.trans h.range
  · rw [hlength]
    exact h.bound
  · intro e he
    have hmem : e ∈ before ++ (r, v) :: after := by
      rcases List.mem_append.mp he with hbefore | hafter
      · exact List.mem_append_left _ hbefore
      · exact List.mem_append_right _ (List.mem_cons_of_mem _ hafter)
    rw [hother e.1 (hlive e he) (h.of_mem_live hmem).1.ne']
    exact h.value_eq e hmem
  · intro i hi
    rw [hcast] at hi
    rw [hother i (by omega) (by omega)]
    exact h.beyond i hi
  · intro key hkey
    rw [Function.update_of_ne (hkey 0 (le_refl 0)), Function.update_of_ne (hkey r hpos.le),
      h.foreign hkey]

end

/-! ## `luaL_ref` and `luaL_unref` -/

theorem WellFormed.rawgeti_eq (h : WellFormed identity t) {n : ℤ} (hle : -2 ^ 31 ≤ n)
    (hlt : n < 2 ^ 31) : rawgeti identity t n = .ok (t.content (.integer n)) := by
  rw [LuaH.rawgeti_eq hle hlt, h.rawget_eq]

variable (identity) in
/-- The only way in which an assignment to an index may fail. -/
inductive Indexed (t : Table V) (n : ℤ) (v : Option V) : Except Fault (Table V) → Prop
  | ok {t'} (hwf : WellFormed identity t')
      (hcontent : t'.content = Function.update t.content (.integer n) v) : Indexed t n v (.ok t')
  | overflow (hcontent : t.content (.integer n) = none) : Indexed t n v (.error tableOverflow)

theorem WellFormed.rawseti_spec (h : WellFormed identity t) {n : ℤ} (hle : -2 ^ 31 ≤ n)
    (hlt : n < 2 ^ 31) (v : Option V) : Indexed identity t n v (rawseti identity t n v) := by
  have hassigned := h.rawset_spec (.integer n) v
  rw [← rawseti_eq hle hlt] at hassigned
  generalize rawseti identity t n v = r at hassigned
  cases hassigned with
  | ok _ hwf hcontent => exact .ok hwf hcontent
  | nan hnan => exact absurd trivial hnan
  | overflow _ hcontent => exact .overflow hcontent

/-- An index that has a value can be assigned to. -/
theorem WellFormed.rawseti_live (h : WellFormed identity t) {n : ℤ} (hle : -2 ^ 31 ≤ n)
    (hlt : n < 2 ^ 31) (hlive : t.content (.integer n) ≠ none) (v : Option V) :
    ∃ t', rawseti identity t n v = .ok t' ∧ WellFormed identity t' ∧
      t'.content = Function.update t.content (.integer n) v := by
  have hindexed := h.rawseti_spec hle hlt v
  generalize rawseti identity t n v = r at hindexed
  cases hindexed with
  | ok hwf hcontent => exact ⟨_, rfl, hwf, hcontent⟩
  | overflow hcontent => exact absurd hcontent hlive

section

variable {m₀ : LuaKey → Option V} {live : List (ℤ × V)} {free : List ℤ}

variable (S identity) in
/-- The table has the references. -/
structure Holds (m₀ : LuaKey → Option V) (t : Table V) (live : List (ℤ × V)) (free : List ℤ) :
    Prop where
  wellFormed : WellFormed identity t
  refs : Refs S m₀ t.content live free

/-- Where no number is free, those in use are the keys of a sequence. -/
theorem Refs.border_eq {m : LuaKey → Option V} (h : Refs S m₀ m live []) {n : ℕ}
    (hn : Border m n) : n = live.length := by
  refine hn.eq_length ?_
  intro i hi
  constructor
  · intro hne
    by_contra hlt
    exact hne (h.beyond i (by simp only [List.length_nil]; omega))
  · intro hle
    have hmem : (i : ℤ) ∈ live.map (·.1) ++ [] :=
      h.mem_iff.mpr ⟨by omega, by simp only [List.length_nil]; omega⟩
    rw [List.append_nil] at hmem
    obtain ⟨e, he, heq⟩ := List.mem_map.mp hmem
    rw [← heq, h.value_eq e he]
    exact Option.some_ne_none _

/-- `luaL_ref` of a value -/
theorem Holds.luaLRef_spec (h : Holds identity S m₀ t live free) (v : V) :
    luaLRef P identity S t (some v) = .error tableOverflow ∨
      ∃ t' r, luaLRef P identity S t (some v) = .ok (t', r) ∧
        Holds identity S m₀ t' ((r, v) :: live) free.tail := by
  obtain ⟨hwf, hrefs⟩ := h
  have hbound := hrefs.bound
  have hfirst := hwf.rawgeti_eq (n := 0) (by omega) (by omega)
  unfold luaLRef
  dsimp only
  rw [freelistRef, hfirst, Fallible.ok_bind]
  cases free with
  | nil =>
      obtain ⟨n, hgetn, hn, hborder⟩ := hwf.getn_spec
      obtain rfl := hrefs.border_eq hborder
      rw [show t.content (.integer 0) = none from hrefs.free_from]
      have hzero : tointeger P S none = 0 := rfl
      simp only [hzero, ne_eq, not_true_eq_false, if_false, hgetn, Fallible.ok_bind]
      have hindexed := hwf.rawseti_spec (n := (live.length : ℤ) + 1) (by omega) (by omega) (some v)
      generalize rawseti identity t ((live.length : ℤ) + 1) (some v) = result at hindexed
      cases hindexed with
      | overflow => exact .inl rfl
      | ok hwf' hcontent =>
          exact .inr ⟨_, _, rfl, hwf', hcontent ▸ hrefs.fresh rfl hn v⟩
  | cons r rest =>
      obtain ⟨hpos, hle⟩ := hrefs.of_mem_free List.mem_cons_self
      simp only [List.length_cons, Nat.cast_add, Nat.cast_one] at hbound hle
      have hnumber : t.content (.integer 0) = some (pushinteger S r) := hrefs.free_from.1
      rw [hnumber, tointeger_pushinteger (by omega) (by omega), if_pos hpos.ne',
        hwf.rawgeti_eq (by omega) (by omega), Fallible.ok_bind]
      obtain ⟨t₁, heq₁, hwf₁, hcontent₁⟩ := hwf.rawseti_live (n := 0) (by omega) (by omega)
        (hnumber ▸ Option.some_ne_none _) (t.content (.integer r))
      rw [heq₁, Fallible.ok_bind]
      have hindexed := hwf₁.rawseti_spec (n := r) (by omega) (by omega) (some v)
      generalize rawseti identity t₁ r (some v) = result at hindexed
      cases hindexed with
      | overflow => exact .inl rfl
      | ok hwf' hcontent =>
          refine .inr ⟨_, r, rfl, hwf', ?_⟩
          rw [hcontent, hcontent₁]
          exact hrefs.reuse rfl v

/-- `luaL_unref` of a reference in use -/
theorem Holds.luaLUnref_spec {before after : List (ℤ × V)} {r : ℤ} {v : V}
    (h : Holds identity S m₀ t (before ++ (r, v) :: after) free) :
    luaLUnref identity S t r = .error tableOverflow ∨
      ∃ t', luaLUnref identity S t r = .ok t' ∧
        Holds identity S m₀ t' (before ++ after) (r :: free) := by
  obtain ⟨hwf, hrefs⟩ := h
  have hmem : (r, v) ∈ before ++ (r, v) :: after :=
    List.mem_append_right before List.mem_cons_self
  have hbound := hrefs.bound
  obtain ⟨hpos, hle, -⟩ := hrefs.of_mem_live hmem
  simp only at hpos hle
  have hlive : t.content (.integer r) ≠ none :=
    hrefs.value_eq (r, v) hmem ▸ Option.some_ne_none v
  obtain ⟨t₁, heq₁, hwf₁, hcontent₁⟩ :=
    hwf.rawseti_live (by omega) (by omega) hlive (t.content (.integer 0))
  rw [luaLUnref, if_pos hpos.le, freelistRef, hwf.rawgeti_eq (by omega) (by omega),
    Fallible.ok_bind, heq₁, Fallible.ok_bind]
  have hindexed := hwf₁.rawseti_spec (n := 0) (by omega) (by omega) (some (pushinteger S r))
  generalize rawseti identity t₁ 0 (some (pushinteger S r)) = result at hindexed
  cases hindexed with
  | overflow => exact .inl rfl
  | ok hwf' hcontent =>
      refine .inr ⟨_, rfl, hwf', ?_⟩
      rw [hcontent, hcontent₁]
      exact hrefs.release rfl

end

/-! ## Runs -/

variable (P identity S) in
/-- The tables that calls of `luaL_ref` and `luaL_unref` make: the keys that are not theirs, the
references in use and how many there were at most at one time. -/
inductive RefRuns : (LuaKey → Option V) → Table V → List (ℤ × V) → ℕ → Prop
  | start {m t} (h : Runs identity t m) (hm : ∀ i : ℤ, 0 ≤ i → m (.integer i) = none) :
      RefRuns m t [] 0
  | ref {m t live peak v t' r} (h : RefRuns m t live peak)
      (heq : luaLRef P identity S t (some v) = .ok (t', r)) :
      RefRuns m t' ((r, v) :: live) (max peak (live.length + 1))
  | unref {m t before r v after peak t'} (h : RefRuns m t (before ++ (r, v) :: after) peak)
      (heq : luaLUnref identity S t r = .ok t') : RefRuns m t' (before ++ after) peak
  | rawset {m t live peak key v t'} (h : RefRuns m t live peak) (hkey : Foreign key)
      (heq : rawset identity t key v = .ok t') : RefRuns (Function.update m key v) t' live peak

theorem Refs.update_foreign {m₀ m : LuaKey → Option V} {live : List (ℤ × V)} {free : List ℤ}
    (h : Refs S m₀ m live free) {key : LuaKey} (hkey : Foreign key) (v : Option V) :
    Refs S (Function.update m₀ key v) (Function.update m key v) live free := by
  have hindex : ∀ i : ℤ, 0 ≤ i → Function.update m key v (.integer i) = m (.integer i) :=
    fun i hi => Function.update_of_ne (Ne.symm (hkey i hi)) _ _
  refine ⟨?_, h.range, h.bound, ?_, ?_, ?_⟩
  · exact h.free_from.move (hindex 0 (le_refl 0)) fun i hi => hindex i (h.of_mem_free hi).1.le
  · intro e he
    rw [hindex e.1 (h.of_mem_live he).1.le]
    exact h.value_eq e he
  · intro i hi
    rw [hindex i (by omega)]
    exact h.beyond i hi
  · intro k hk
    by_cases heq : k = key
    · rw [heq, Function.update_self, Function.update_self]
    · rw [Function.update_of_ne heq, Function.update_of_ne heq, h.foreign hk]

theorem Refs.start {m : LuaKey → Option V} (hm : ∀ i : ℤ, 0 ≤ i → m (.integer i) = none) :
    Refs S m m [] [] where
  free_from := hm 0 (le_refl 0)
  range := .nil
  bound := by simp
  value_eq _ he := nomatch he
  beyond i hi := hm i (by simpa using hi.le)
  foreign _ := rfl

theorem RefRuns.holds {m : LuaKey → Option V} {live : List (ℤ × V)} {peak : ℕ}
    (h : RefRuns P identity S m t live peak) :
    ∃ free, Holds identity S m t live free ∧ live.length + free.length ≤ peak := by
  induction h with
  | start h hm =>
      obtain ⟨hwf, rfl⟩ := h.spec
      exact ⟨[], ⟨hwf, .start hm⟩, le_refl 0⟩
  | @ref m t live peak v t' r h heq ih =>
      obtain ⟨free, hholds, hle⟩ := ih
      rcases hholds.luaLRef_spec (P := P) v with herr | ⟨t'', r', heq', hholds'⟩
      · cases herr.symm.trans heq
      · obtain ⟨rfl, rfl⟩ := Prod.mk.inj (Except.ok.inj (heq'.symm.trans heq))
        refine ⟨free.tail, hholds', ?_⟩
        cases free with
        | nil => simp
        | cons r rest =>
            simp only [List.length_cons, List.tail_cons] at hle ⊢
            omega
  | @unref m t before r v after peak t' h heq ih =>
      obtain ⟨free, hholds, hle⟩ := ih
      rcases hholds.luaLUnref_spec with herr | ⟨t'', heq', hholds'⟩
      · cases herr.symm.trans heq
      · obtain rfl := Except.ok.inj (heq'.symm.trans heq)
        refine ⟨r :: free, hholds', ?_⟩
        simp only [List.length_append, List.length_cons] at hle ⊢
        omega
  | rawset h hkey heq ih =>
      obtain ⟨free, ⟨hwf, hrefs⟩, hle⟩ := ih
      obtain ⟨hwf', hcontent⟩ := (hwf.rawset_spec _ _).eq_ok heq
      exact ⟨free, ⟨hwf', hcontent ▸ hrefs.update_foreign hkey _⟩, hle⟩

/-- Over every run the references in use are different, each of them has its value, none is
greater than the number that were in use at one time, and no other key is touched. -/
theorem references_kept {m : LuaKey → Option V} {live : List (ℤ × V)} {peak : ℕ}
    (h : RefRuns P identity S m t live peak) :
    (live.map (·.1)).Nodup ∧
    (∀ e ∈ live, 0 < e.1 ∧ e.1 ≤ peak ∧ rawgeti identity t e.1 = .ok (some e.2)) ∧
    (∀ key, Foreign key → rawget identity t key = .ok (m key)) ∧
    (∀ v, (∃ r, luaLRef P identity S t (some v) = .ok r) ∨
      luaLRef P identity S t (some v) = .error tableOverflow) ∧
    ∀ e ∈ live, (∃ t', luaLUnref identity S t e.1 = .ok t') ∨
      luaLUnref identity S t e.1 = .error tableOverflow := by
  obtain ⟨free, hholds, hle⟩ := h.holds
  have hrefs := hholds.refs
  have hbound := hrefs.bound
  refine ⟨(List.nodup_append.mp hrefs.nodup).1, ?_, ?_, ?_, ?_⟩
  · intro e he
    obtain ⟨hpos, hlast, -⟩ := hrefs.of_mem_live he
    refine ⟨hpos, by omega, ?_⟩
    rw [hholds.wellFormed.rawgeti_eq (by omega) (by omega), hrefs.value_eq e he]
  · intro key hkey
    rw [hholds.wellFormed.rawget_eq, hrefs.foreign hkey]
  · intro v
    rcases hholds.luaLRef_spec (P := P) v with herr | ⟨t', r, heq, -⟩
    · exact .inr herr
    · exact .inl ⟨_, heq⟩
  · intro e he
    obtain ⟨before, after, rfl⟩ := List.append_of_mem he
    rcases hholds.luaLUnref_spec with herr | ⟨t', heq, -⟩
    · exact .inr herr
    · exact .inl ⟨_, heq⟩

/-- The values that are trees. -/
def treeValues : Values LuaTree := ⟨LuaTree.view, .number, fun _ => rfl⟩

/-- A number that is used again. -/
theorem references_kept_reused :
    rawgeti (fun _ => .boolean true)
      (⟨[], 0, [⟨some (.integer 1), some (.boolean false), none⟩], false, 1⟩ : Table LuaTree) 1 =
        .ok (some (.boolean false)) :=
  let start : RefRuns (.plain .x64) (fun _ => .boolean true) treeValues (fun _ => none)
      ⟨[], 0, [.empty], true, 0⟩ [] 0 :=
    .start (.new (by decide) (by decide) (rfl : new 0 0 = .ok _)) fun _ _ => rfl
  let one : RefRuns (.plain .x64) (fun _ => .boolean true) treeValues (fun _ => none)
      ⟨[some (.string [120])], 0, [.empty], true, 0⟩ ([] ++ (1, .string [120]) :: []) 1 :=
    .ref start rfl
  let back : RefRuns (.plain .x64) (fun _ => .boolean true) treeValues (fun _ => none)
      ⟨[], 0, [⟨some (.integer 0), some (pushinteger treeValues 1), none⟩], false, 1⟩ [] 1 :=
    .unref one rfl
  let again : RefRuns (.plain .x64) (fun _ => .boolean true) treeValues (fun _ => none)
      ⟨[], 0, [⟨some (.integer 1), some (.boolean false), none⟩], false, 1⟩
      [(1, .boolean false)] 1 := .ref back rfl
  ((references_kept again).2.1 _ List.mem_cons_self).2.2

end LuaH

end Luapb
