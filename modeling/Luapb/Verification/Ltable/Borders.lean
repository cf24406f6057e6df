import Luapb.Verification.Ltable.Runs

/-! # Borders

`luaH_getn` finds an index with a value, or 0, before an index without one, wherever the keys
of the table are. -/

namespace Luapb

namespace LuaH

variable {V : Type} {identity : ℕ → Identity} {t : Table V}

/-! ## Searching -/

section

variable (nil : ℕ → Except Fault Bool) (p : ℕ → Bool)

/-- The binary search ends at a place where `p` begins to hold. -/
theorem bisect_eq {fuel i j : ℕ} (hij : i < j) (hfuel : j - i ≤ 2 ^ fuel)
    (hnil : ∀ m, i < m → m < j → nil m = .ok (p m)) (hi : i = 0 ∨ p i = false) (hj : p j = true) :
    ∃ n, bisect nil (fuel + 1) i j = .ok n ∧ i ≤ n ∧ n < j ∧ (n = 0 ∨ p n = false) ∧
      p (n + 1) = true := by
  induction fuel generalizing i j with
  | zero =>
      have hone : ¬ 1 < j - i := by omega
      obtain rfl : j = i + 1 := by omega
      rw [bisect, if_neg hone]
      exact ⟨i, rfl, le_refl i, hij, hi, hj⟩
  | succ fuel ih =>
      rw [bisect]
      split
      · rename_i hmore
        rw [pow_succ] at hfuel
        have hm := hnil ((i + j) / 2) (by omega) (by omega)
        simp only [hm, Fallible.ok_bind]
        cases hp : p ((i + j) / 2) with
        | true =>
            obtain ⟨n, heq, hle, hlt, hn⟩ := ih (i := i) (j := (i + j) / 2) (by omega) (by omega)
              (fun m him hmj => hnil m him (by omega)) hi hp
            exact ⟨n, heq, hle, by omega, hn⟩
        | false =>
            obtain ⟨n, heq, hle, hlt, hn⟩ := ih (i := (i + j) / 2) (j := j) (by omega) (by omega)
              (fun m him hmj => hnil m (by omega) hmj) (.inr hp) hj
            exact ⟨n, heq, by omega, hlt, hn⟩
      · rename_i hone
        obtain rfl : j = i + 1 := by omega
        exact ⟨i, rfl, le_refl i, hij, hi, hj⟩

/-- The linear search ends at the first place where `p` holds. -/
theorem linear_eq {n : ℕ} (hn : p (n + 1) = true) (hbefore : ∀ m, 0 < m → m ≤ n → p m = false)
    (hnil : ∀ m, m ≤ n + 1 → nil m = .ok (p m)) {fuel i : ℕ} (hi : 0 < i) (hle : i ≤ n + 1)
    (hfuel : n + 1 < fuel + i) : linear nil fuel i = .ok n := by
  induction fuel generalizing i with
  | zero => omega
  | succ fuel ih =>
      rw [linear, hnil i hle, Fallible.ok_bind]
      rcases Nat.lt_or_ge n i with hlt | hge
      · obtain rfl : i = n + 1 := by omega
        rw [hn]
        rfl
      · rw [hbefore i hi hge]
        exact ih (by omega) (by omega) (by omega)

end

/-! ## Borders -/

/-- An index with a value, or 0, before one without a value. -/
def Border (m : LuaKey → Option V) (n : ℕ) : Prop :=
  (n = 0 ∨ m (.integer n) ≠ none) ∧ m (.integer ((n : ℤ) + 1)) = none

theorem WellFormed.isNil_eq (h : WellFormed identity t) {k : ℕ} (hk : k < 2 ^ 31) :
    isNil identity t k = .ok (t.content (.integer k)).isNone := by
  have hrawget : rawgeti identity t k = rawget identity t (.integer k) :=
    LuaH.rawgeti_eq (by omega) (by omega)
  rw [h.rawget_eq, rawgeti] at hrawget
  rw [isNil]
  cases hget : getnum identity t k with
  | error e =>
      rw [hget] at hrawget
      cases hrawget
  | ok slot =>
      rw [hget] at hrawget
      exact congrArg (fun v? => Except.ok v?.isNone) (Except.ok.inj hrawget)

theorem border_of_isNone {m : LuaKey → Option V} {n : ℕ}
    (hn : n = 0 ∨ (m (.integer n)).isNone = false)
    (hnext : (m (.integer ((n + 1 : ℕ) : ℤ))).isNone = true) : Border m n := by
  refine ⟨hn.imp id ?_, ?_⟩
  · intro h hnone
    rw [hnone] at h
    cases h
  · exact Option.isNone_iff_eq_none.mp hnext

theorem length_keys (t : Table V) : t.keys.length ≤ t.sizearray + t.node.length := by
  rw [Table.keys, List.length_append, length_arrayKeys]
  exact Nat.add_le_add List.countP_le_length (List.length_filterMap_le _ _)

/-- There is an index without a value, since a table has not so many keys. -/
theorem WellFormed.exists_first_nil (h : WellFormed identity t) :
    ∃ n, n ≤ t.sizearray + t.node.length ∧ t.content (.integer ((n + 1 : ℕ) : ℤ)) = none ∧
      ∀ m, 0 < m → m ≤ n → t.content (.integer (m : ℕ)) ≠ none := by
  classical
  have hexists : ∃ n ≤ t.keys.length, t.content (.integer ((n + 1 : ℕ) : ℤ)) = none := by
    by_contra! hall
    let indices :=
      (List.range (t.keys.length + 1)).map fun n : ℕ => LuaKey.integer ((n + 1 : ℕ) : ℤ)
    have hnodup : indices.Nodup := by
      refine List.Nodup.map ?_ List.nodup_range
      intro m n hmn
      have hcast := LuaKey.integer.inj hmn
      omega
    have hsubset : indices ⊆ t.keys := by
      intro key hkey
      obtain ⟨n, hn, rfl⟩ := List.mem_map.mp hkey
      exact h.mem_keys_iff.mpr (hall n (Nat.le_of_lt_succ (List.mem_range.mp hn)))
    have hlen := (hnodup.subperm hsubset).length_le
    rw [List.length_map, List.length_range] at hlen
    omega
  obtain ⟨n₀, hn₀, hnone⟩ := hexists
  have hfind : ∃ n : ℕ, t.content (.integer ((n + 1 : ℕ) : ℤ)) = none := ⟨n₀, hnone⟩
  refine ⟨Nat.find hfind, ?_, Nat.find_spec hfind, ?_⟩
  · have hle := Nat.find_min' hfind hnone
    have hkeys := length_keys t
    omega
  · intro m hm hle
    have hmin := Nat.find_min hfind (m := m - 1) (by omega)
    rwa [Nat.sub_add_cancel hm] at hmin

/-- `unbound_search` -/
theorem WellFormed.unboundLoop_spec (h : WellFormed identity t) {fuel k i j : ℕ}
    (hfuel : fuel + k = 32) (hk : 2 ^ k ≤ j) (hj : j < 2 ^ 31) (hij : i < j)
    (hi : i = 0 ∨ t.content (.integer i) ≠ none) :
    ∃ n, unboundLoop (fun k => isNil identity t k) (t.sizearray + t.node.length) fuel i j = .ok n ∧
      n + 1 < 2 ^ 31 ∧ Border t.content n := by
  induction fuel generalizing k i j with
  | zero =>
      obtain rfl : k = 32 := by omega
      omega
  | succ fuel ih =>
      rw [unboundLoop, h.isNil_eq hj, Fallible.ok_bind]
      cases hval : (t.content (.integer j)).isNone with
      | true =>
          have hi' : i = 0 ∨ (t.content (.integer i)).isNone = false :=
            hi.imp id fun hne => Option.isNone_eq_false_iff.mpr (Option.isSome_iff_ne_none.mpr hne)
          obtain ⟨n, heq, -, hlt, hn, hnext⟩ := bisect_eq (fun k => isNil identity t k)
            (fun k => (t.content (.integer k)).isNone) hij (show j - i ≤ 2 ^ 31 by omega)
            (fun m _ hmj => h.isNil_eq (by omega)) hi' hval
          exact ⟨n, heq, by omega, border_of_isNone hn hnext⟩
      | false =>
          have hsome : t.content (.integer j) ≠ none :=
            Option.isSome_iff_ne_none.mp (Option.isNone_eq_false_iff.mp hval)
          have hmax : maxInt + 3 = 2 ^ 31 := rfl
          simp only [Bool.false_eq_true, if_false]
          split
          · obtain ⟨n, hn, hnone, hbefore⟩ := h.exists_first_nil
            have hsize := h.sizearray_le
            have hnodes : t.node.length ≤ 2 ^ maxBits :=
              h.length_node ▸ Nat.pow_le_pow_right Nat.two_pos h.lsizenode_le
            rw [maxASize, maxBits] at hsize
            rw [maxBits] at hnodes
            refine ⟨n, linear_eq _ (fun k => (t.content (.integer k)).isNone) ?_ ?_ ?_ Nat.one_pos
              (by omega) (by omega), by omega, ?_⟩
            · exact Option.isNone_iff_eq_none.mpr hnone
            · intro m hm hle
              exact Option.isNone_eq_false_iff.mpr
                (Option.isSome_iff_ne_none.mpr (hbefore m hm hle))
            · intro m hle
              exact h.isNil_eq (by omega)
            · refine ⟨?_, hnone⟩
              rcases Nat.eq_zero_or_pos n with hzero | hpos
              · exact .inl hzero
              · exact .inr (hbefore n hpos (le_refl n))
          · exact ih (k := k + 1) (by omega) (by rw [pow_succ]; omega) (by omega) (by omega)
              (.inr hsome)

theorem WellFormed.content_eq_array (h : WellFormed identity t) {n : ℕ} (hpos : 0 < n)
    (hle : n ≤ t.sizearray) : t.content (.integer n) = t.value (.array (n - 1)) := by
  have hcontent := h.content_of_index (i := n - 1) (by omega)
  rwa [Nat.cast_sub hpos, Nat.cast_one, Int.sub_add_cancel] at hcontent

/-- `luaH_getn` -/
theorem WellFormed.getn_spec (h : WellFormed identity t) :
    ∃ n, getn identity t = .ok n ∧ n + 1 < 2 ^ 31 ∧ Border t.content n := by
  have hsize := h.sizearray_le
  rw [maxASize, maxBits] at hsize
  rw [getn]
  by_cases hlast : 0 < t.sizearray ∧ t.value (.array (t.sizearray - 1)) = none
  · rw [if_pos hlast]
    obtain ⟨n, heq, -, hlt, hn, hnext⟩ := bisect_eq
      (fun m => pure (t.value (.array (m - 1))).isNone)
      (fun m => (t.value (.array (m - 1))).isNone) hlast.1
      (show t.sizearray - 0 ≤ 2 ^ 31 by omega) (fun _ _ _ => rfl)
      (.inl rfl) (Option.isNone_iff_eq_none.mpr hlast.2)
    refine ⟨n, heq, by omega, border_of_isNone ?_ ?_⟩
    · rcases Nat.eq_zero_or_pos n with hzero | hpos
      · exact .inl hzero
      · exact .inr (by rw [h.content_eq_array hpos hlt.le]; exact hn.resolve_left hpos.ne')
    · rwa [h.content_eq_array (Nat.succ_pos n) hlt]
  · rw [if_neg hlast]
    have hfront : t.sizearray = 0 ∨ t.content (.integer t.sizearray) ≠ none := by
      rcases Nat.eq_zero_or_pos t.sizearray with hzero | hpos
      · exact .inl hzero
      · refine .inr ?_
        rw [h.content_eq_array hpos (le_refl _)]
        exact fun hnone => hlast ⟨hpos, hnone⟩
    split
    · rename_i hdummy
      refine ⟨t.sizearray, rfl, by omega, hfront, content_of_absent ⟨?_, ?_⟩⟩
      · rw [InArray, arrayindex_eq (by omega) (by omega)]
        omega
      · simp [h.gkey_of_dummy hdummy]
    · exact h.unboundLoop_spec (k := 0) rfl (Nat.succ_pos _) (by omega) (Nat.lt_succ_self _) hfront

/-- The border of a sequence is its length. -/
theorem Border.eq_length {m : LuaKey → Option V} {n : ℕ} (h : Border m n) {length : ℕ}
    (hsequence : ∀ i : ℕ, 0 < i → (m (.integer i) ≠ none ↔ i ≤ length)) : n = length := by
  have hnext : ¬ n + 1 ≤ length :=
    fun hle => (hsequence (n + 1) (Nat.succ_pos n)).mpr hle (by exact_mod_cast h.2)
  rcases h.1 with rfl | hne
  · omega
  · rcases Nat.eq_zero_or_pos n with rfl | hpos
    · omega
    · have hle := (hsequence n hpos).mp hne
      omega

/-- In every table that a run makes, `luaH_getn` finds a border. -/
theorem getn_border {m : LuaKey → Option V} (h : Runs identity t m) :
    ∃ n, getn identity t = .ok n ∧ Border m n ∧
      ∀ length : ℕ, (∀ i : ℕ, 0 < i → (m (.integer i) ≠ none ↔ i ≤ length)) → n = length := by
  obtain ⟨hwf, rfl⟩ := h.spec
  obtain ⟨n, heq, -, hborder⟩ := hwf.getn_spec
  exact ⟨n, heq, hborder, fun _ => hborder.eq_length⟩

/-- A table with two borders, 1 and 4. -/
theorem getn_border_hole : ∃ (t : Table ℕ) (n : ℕ),
    getn (fun _ => .boolean true) t = .ok n ∧
      Border (Function.update (Function.update (fun _ => none) (.integer 1) (some 5))
        (.integer 4) (some 7)) n :=
  let run : ∃ t : Table ℕ, Runs (fun _ => .boolean true) t
      (Function.update (Function.update (fun _ => none) (.integer 1) (some 5))
        (.integer 4) (some 7)) :=
    ⟨_, .rawset (.rawset (.new (by decide) (by decide) (rfl : new 0 0 = .ok _)) rfl) rfl⟩
  run.elim fun t h => (getn_border h).elim fun n hn => ⟨t, n, hn.1, hn.2.1⟩

end LuaH

end Luapb
