import Luapb.Verification.Ltable.Assignment
import Mathlib.Data.Finset.Card
import Mathlib.Order.Interval.Finset.Nat

/-! # Runs

A table behaves like a map over every run, keeps the main invariant that `ltable.c` states, and
`rehash` gives its array the best size. -/

namespace Luapb

namespace LuaH

variable {V : Type} {identity : ℕ → Identity} {t : Table V}

/-! ## Runs -/

variable (identity) in
/-- The tables that calls from outside `ltable.c` make, with the map that they stand for. -/
inductive Runs : Table V → (LuaKey → Option V) → Prop
  | new {narray nhash t} (hnarray : narray ≤ maxASize) (hnhash : nhash < 2 ^ 31)
      (h : new narray nhash = .ok t) : Runs t fun _ => none
  | rawset {t m key v t'} (hrun : Runs t m) (h : rawset identity t key v = .ok t') :
      Runs t' (Function.update m key v)
  | rawseti {t m n v t'} (hrun : Runs t m) (hle : -2 ^ 31 ≤ n) (hlt : n < 2 ^ 31)
      (h : rawseti identity t n v = .ok t') : Runs t' (Function.update m (.integer n) v)
  | resizearray {t m n t'} (hrun : Runs t m) (hge : t.sizearray ≤ n) (hle : n ≤ maxASize)
      (h : resizearray identity (newkey identity 2) t n = .ok t') : Runs t' m

theorem Assigned.eq_ok {key : LuaKey} {v : Option V} {r : Except Fault (Table V)} {t' : Table V}
    (h : Assigned identity t key v r) (heq : r = .ok t') :
    WellFormed identity t' ∧ t'.content = Function.update t.content key v := by
  cases h with
  | ok _ hwf hcontent =>
      obtain rfl := Except.ok.inj heq
      exact ⟨hwf, hcontent⟩
  | nan | overflow => cases heq

theorem Runs.spec {m : LuaKey → Option V} (h : Runs identity t m) :
    WellFormed identity t ∧ t.content = m := by
  induction h with
  | new hnarray hnhash h => exact new_spec hnarray hnhash h
  | rawset hrun h ih =>
      obtain ⟨hwf, rfl⟩ := ih
      exact (hwf.rawset_spec _ _).eq_ok h
  | rawseti hrun hle hlt h ih =>
      obtain ⟨hwf, rfl⟩ := ih
      rw [rawseti_eq hle hlt] at h
      exact (hwf.rawset_spec _ _).eq_ok h
  | resizearray hrun hge hle h ih =>
      obtain ⟨hwf, rfl⟩ := ih
      obtain ⟨t'', heq, hwf', hcontent, -⟩ := hwf.resizearray_spec 1 hge hle
      obtain rfl := Except.ok.inj (heq.symm.trans h)
      exact ⟨hwf', hcontent⟩

theorem Runs.wellFormed {m : LuaKey → Option V} (h : Runs identity t m) : WellFormed identity t :=
  h.spec.1

theorem Runs.content_eq {m : LuaKey → Option V} (h : Runs identity t m) : t.content = m := h.spec.2

/-- Over every run, a table is a map. -/
theorem isMap {m : LuaKey → Option V} (h : Runs identity t m) (key : LuaKey) :
    rawget identity t key = .ok (m key) ∧
    (∀ v,
      Storable key ∧ (∃ t', rawset identity t key v = .ok t' ∧
        ∀ key', rawget identity t' key' = .ok (Function.update m key v key')) ∨
      ¬ Storable key ∧ rawset identity t key v = .error indexIsNaN ∨
      Storable key ∧ m key = none ∧
        (∃ s : Finset LuaKey, 2 ^ maxBits ≤ s.card ∧ ∀ k ∈ s, m k ≠ none) ∧
        rawset identity t key v = .error tableOverflow) ∧
    ∀ n, t.sizearray ≤ n → n ≤ maxASize →
      ∃ t', resizearray identity (newkey identity 2) t n = .ok t' ∧ t'.sizearray = n ∧
        rawget identity t' key = .ok (m key) := by
  obtain ⟨hwf, rfl⟩ := h.spec
  refine ⟨hwf.rawget_eq key, ?_, ?_⟩
  · intro v
    have hassigned := hwf.rawset_spec key v
    generalize rawset identity t key v = r at hassigned
    cases hassigned with
    | ok hstorable hwf' hcontent =>
        refine .inl ⟨hstorable, _, rfl, ?_⟩
        intro key'
        rw [hwf'.rawget_eq, hcontent]
    | nan hnan => exact .inr (.inl ⟨hnan, rfl⟩)
    | overflow hstorable hnone hkeys =>
        refine .inr (.inr ⟨hstorable, hnone, ⟨t.keys.toFinset, ?_, ?_⟩, rfl⟩)
        · rwa [List.toFinset_card_of_nodup hwf.nodup_keys]
        · exact fun k hk => hwf.mem_keys_iff.mp (List.mem_toFinset.mp hk)
  · intro n hge hle
    obtain ⟨t', heq, hwf', hcontent, hsize⟩ := hwf.resizearray_spec 1 hge hle
    exact ⟨t', heq, hsize, by rw [hwf'.rawget_eq, hcontent]⟩

/-- Two strings in a new table. -/
theorem isMap_strings : ∃ t : Table ℕ,
    rawget (fun _ => .boolean true) t (.string [120]) = .ok (some 5) ∧
      rawget (fun _ => .boolean true) t (.string [121]) = .ok (some 7) :=
  let run : ∃ t : Table ℕ, Runs (fun _ => .boolean true) t
      (Function.update (Function.update (fun _ => none) (.string [120]) (some 5))
        (.string [121]) (some 7)) :=
    ⟨_, .rawset (.rawset (.new (by decide) (by decide) (rfl : new 0 0 = .ok _)) rfl) rfl⟩
  run.elim fun t h => ⟨t, (isMap h (.string [120])).1, (isMap h (.string [121])).1⟩

/-! ## The main invariant -/

/-- A key that is not in its main position was put elsewhere by one that is in its own, and
links lead to it from there. -/
theorem colliding_at_home {m : LuaKey → Option V} (h : Runs identity t m) {i : ℕ} {key : LuaKey}
    (hkey : t.gkey i = some key) :
    (mainposition identity t key ≠ i →
      ∃ key', key' ≠ key ∧ t.gkey (mainposition identity t key) = some key' ∧
        mainposition identity t key' = mainposition identity t key) ∧
    ∃ l, Links.Path t.gnext (mainposition identity t key) l ∧ l.Nodup ∧ i ∈ l := by
  have hchained := h.wellFormed.chained
  constructor
  · intro hne
    obtain ⟨key', hkey', hhome⟩ := hchained.main hkey
    refine ⟨key', ?_, hkey', hhome⟩
    rintro rfl
    exact hne (hchained.unique hkey' hkey)
  · obtain ⟨l, hl, hmem⟩ := hchained.reaches hkey
    exact ⟨l, hl, hl.nodup, hmem⟩

/-- Two objects with one main position. -/
theorem colliding_at_home_objects : ∃ t : Table ℕ, t.gkey 3 = some (.object 1) ∧
    ∃ key', key' ≠ .object 1 ∧ t.gkey 1 = some key' :=
  let run : ∃ t : Table ℕ, t.gkey 3 = some (.object 1) ∧
      mainposition (fun _ => .boolean true) t (.object 1) = 1 ∧
      Runs (fun _ => .boolean true) t
        (Function.update (Function.update (fun _ => none) (.object 0) (some 5))
          (.object 1) (some 7)) :=
    ⟨_, rfl, rfl,
      .rawset (.rawset (.new (by decide) (by decide) (rfl : new 0 4 = .ok _)) rfl) rfl⟩
  run.elim fun t ⟨hkey, hmain, h⟩ =>
    ((colliding_at_home h hkey).1 (by rw [hmain]; decide)).elim fun key' hkey' =>
      ⟨t, hkey, key', hkey'.1, hmain ▸ hkey'.2.1⟩

/-! ## The size of the array -/

/-- How many of the first `n` integers are keys, when `ek` becomes one. -/
def density (m : LuaKey → Option V) (ek : LuaKey) (n : ℕ) : ℕ :=
  ((Finset.Icc 1 n).filter fun i : ℕ => ek = .integer i ∨ (m (.integer i)).isSome).card

theorem keysUpTo_eq_density (h : WellFormed identity t) {ek : LuaKey} (hek : t.content ek = none)
    {n : ℕ} (hn : n ≤ maxASize) : keysUpTo (ek :: t.keys) n = density t.content ek n := by
  have hnodup : (ek :: t.keys).Nodup :=
    List.nodup_cons.mpr ⟨fun hmem => h.mem_keys_iff.mp hmem hek, h.nodup_keys⟩
  have hmem : ∀ key, key ∈ ek :: t.keys ↔ ek = key ∨ (t.content key).isSome := by
    intro key
    rw [List.mem_cons, h.mem_keys_iff, Option.isSome_iff_ne_none, eq_comm]
  rw [keysUpTo, List.countP_eq_length_filter, ← List.toFinset_card_of_nodup (hnodup.filter _),
    density, ← Finset.card_image_of_injective _ (f := fun i : ℕ => LuaKey.integer i)
      fun i j hij => Int.ofNat_inj.mp (LuaKey.integer.inj hij)]
  congr 1
  ext key
  rw [List.mem_toFinset, List.mem_filter, Finset.mem_image, hmem, decide_eq_true_eq]
  rw [maxASize, maxBits] at hn
  constructor
  · rintro ⟨hkey, hpos, hle⟩
    obtain ⟨heq, hlt⟩ := eq_integer_of_arrayindex_pos hpos
    have hcast : key = .integer ((arrayindex key).toNat : ℕ) := by
      rwa [Int.toNat_of_nonneg (le_of_lt hpos)]
    refine ⟨(arrayindex key).toNat, ?_, hcast.symm⟩
    rw [Finset.mem_filter, Finset.mem_Icc, ← hcast]
    exact ⟨by omega, hkey⟩
  · rintro ⟨i, hi, rfl⟩
    obtain ⟨hi, hkey⟩ := Finset.mem_filter.mp hi
    rw [Finset.mem_Icc] at hi
    rw [arrayindex_eq (by omega) (by omega)]
    exact ⟨hkey, by omega, by omega⟩

/-- `rehash` gives the array the largest size of which more than half is in use. -/
theorem rehash_best {m : LuaKey → Option V} (h : Runs identity t m) {ek : LuaKey}
    (hek : m ek = none) {t' : Table V} (heq : rehash identity (newkey identity 1) t ek = .ok t') :
    (t'.sizearray = 0 ∨ ∃ i ≤ maxBits, t'.sizearray = 2 ^ i ∧ 2 ^ i < 2 * density m ek (2 ^ i)) ∧
    (∀ i ≤ maxBits, 2 ^ i < 2 * density m ek (2 ^ i) → 2 ^ i ≤ t'.sizearray) ∧
    ∀ key, rawget identity t' key = .ok (m key) := by
  obtain ⟨hwf, rfl⟩ := h.spec
  obtain ⟨nasize, hbest, hrehash⟩ := hwf.rehash_spec (creates_newkey 0) hek
  rcases hrehash with ⟨-, herr⟩ | ⟨t'', heq', hresized⟩
  · cases herr.symm.trans heq
  · obtain rfl := Except.ok.inj (heq'.symm.trans heq)
    have hdensity : ∀ i ≤ maxBits, keysUpTo (ek :: t.keys) (2 ^ i) = density t.content ek (2 ^ i) :=
      fun i hi => keysUpTo_eq_density hwf hek (Nat.pow_le_pow_right Nat.two_pos hi)
    rw [hresized.sizearray_eq]
    refine ⟨?_, ?_, ?_⟩
    · rcases hbest.used with hzero | ⟨i, hi, hpow, hhalf⟩
      · exact .inl hzero
      · refine .inr ⟨i, Nat.le_of_lt_succ hi, hpow, ?_⟩
        rwa [← hdensity i (Nat.le_of_lt_succ hi)]
    · intro i hi hhalf
      exact hbest.largest i (Nat.lt_succ_of_le hi) (by rwa [hdensity i hi])
    · intro key
      rw [hresized.wellFormed.rawget_eq, hresized.content_eq]

/-- With the key 3 the array gets four slots. The key 2 goes there from the hash, and the string
stays. -/
theorem rehash_best_moved :
    let m : LuaKey → Option ℕ := Function.update (Function.update (Function.update (fun _ => none)
      (.integer 1) (some 5)) (.integer 2) (some 6)) (.string [120]) (some 7)
    ∃ t t' : Table ℕ, t.sizearray = 1 ∧ t.gkey 0 = some (.integer 2) ∧
      t.gkey 1 = some (.string [120]) ∧ t'.sizearray = 4 ∧ t'.gkey 0 = some (.string [120]) ∧
      (∀ i ≤ maxBits, 2 ^ i < 2 * density m (.integer 3) (2 ^ i) → 2 ^ i ≤ 4) ∧
      ∀ key, rawget (fun _ => .boolean true) t' key = .ok (m key) := by
  intro m
  have hrehash : ∃ t t' : Table ℕ, t.sizearray = 1 ∧ t.gkey 0 = some (.integer 2) ∧
      t.gkey 1 = some (.string [120]) ∧ t'.sizearray = 4 ∧ t'.gkey 0 = some (.string [120]) ∧
      Runs (fun _ => .boolean true) t m ∧
      rehash (fun _ => .boolean true) (newkey (fun _ => .boolean true) 1) t (.integer 3) =
        .ok t' :=
    ⟨_, _, rfl, rfl, rfl, rfl, rfl,
      .rawset (.rawset (.rawset (.new (by decide) (by decide) (rfl : new 1 2 = .ok _)) rfl) rfl)
        rfl, rfl⟩
  obtain ⟨t, t', hsize, hnumber, hstring, hsize', hstring', hrun, heq⟩ := hrehash
  obtain ⟨-, hlargest, hvalue⟩ := rehash_best hrun rfl heq
  rw [hsize'] at hlargest
  exact ⟨t, t', hsize, hnumber, hstring, hsize', hstring', hlargest, hvalue⟩

end LuaH

end Luapb
