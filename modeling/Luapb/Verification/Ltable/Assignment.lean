import Luapb.Verification.Ltable.Rehash

/-! # One assignment

An assignment either fails and says why, or changes the value of its key and of no other,
whatever `newkey`, `rehash` and `resize` move. -/

namespace Luapb

namespace LuaH

variable {V : Type} {identity : ℕ → Identity} {t : Table V}

/-! ## A place for a key -/

variable (identity) in
/-- The key has a place, and all values are as before. -/
structure Stored (t t' : Table V) (key : LuaKey) (slot : Slot) : Prop where
  wellFormed : WellFormed identity t'
  at_slot : At t' key slot
  content_eq : t'.content = t.content

theorem creates_newkey (fuel : ℕ) : Creates (V := V) identity (newkey identity (fuel + 1)) :=
  creates_newkeyBy (newkey identity fuel)

/-- After `rehash` the key finds a place. -/
theorem WellFormed.grow_spec (h : WellFormed identity t) {key : LuaKey} (hstorable : Storable key)
    (hcontent : t.content key = none) (fuel : ℕ) :
    let grow := do
      let t ← rehash identity (newkey identity (fuel + 1)) t key
      setBy identity (newkey identity (fuel + 1)) t key
    grow = .error tableOverflow ∧ 2 ^ maxBits ≤ t.keys.length ∨
      ∃ t' slot, grow = .ok (t', slot) ∧ Stored identity t t' key slot := by
  intro grow
  obtain ⟨nasize, -, hrehash⟩ := h.rehash_spec (creates_newkey fuel) hcontent
  have hsum := keysUpTo_add_keysBeyond (key :: t.keys) nasize
  rw [List.length_cons] at hsum
  rcases hrehash with ⟨hlt, heq⟩ | ⟨t₁, heq, hresized⟩
  · exact .inl ⟨by simp only [grow, heq]; rfl, by omega⟩
  · right
    have hgrow : grow = setBy identity (newkey identity (fuel + 1)) t₁ key := by
      simp only [grow, heq]
      rfl
    rw [hgrow]
    rcases at_or_absent t₁ key with ⟨slot, hslot⟩ | habsent
    · exact ⟨t₁, slot, setBy_of_at hresized.wellFormed _ hslot, hresized.wellFormed, hslot,
        hresized.content_eq⟩
    · have hnot := habsent.notInArray
      rw [InArray, hresized.sizearray_eq] at hnot
      have hcapacity := hresized.capacity_eq ▸ le_nodesFor _
      have hused := hresized.used_le
      rw [keysBeyond_cons, if_neg hnot] at hcapacity
      obtain ⟨t₂, slot, hcreate, hplaced⟩ :=
        creates_newkey fuel hresized.wellFormed hstorable habsent (by omega)
      refine ⟨t₂, slot, ?_, hplaced.wellFormed, hplaced.at_slot, ?_⟩
      · rw [setBy_of_storable _ (hresized.wellFormed.get_of_absent habsent) hstorable, hcreate]
      · rw [hplaced.content_eq, hresized.content_eq]

theorem WellFormed.newkey_spec (h : WellFormed identity t) {key : LuaKey}
    (hstorable : Storable key) (habsent : Absent t key) (fuel : ℕ) :
    newkey identity (fuel + 2) t key = .error tableOverflow ∧ 2 ^ maxBits ≤ t.keys.length ∨
      ∃ t' slot, newkey identity (fuel + 2) t key = .ok (t', slot) ∧
        Stored identity t t' key slot := by
  have hnewkey : newkey identity (fuel + 2) t key =
      newkeyBy identity (newkey identity (fuel + 1)) t key := rfl
  rw [hnewkey]
  by_cases hfree : t.isDummy = false ∧
      (t.gval (mainposition identity t key) = none ∨ getfreepos t ≠ none)
  · obtain ⟨t', slot, heq, hplaced⟩ := newkeyBy_placed h hstorable habsent hfree.1
      (newkey identity (fuel + 1)) hfree.2
    exact .inr ⟨t', slot, heq, hplaced.wellFormed, hplaced.at_slot, hplaced.content_eq⟩
  · have hfull : ((t.gval (mainposition identity t key)).isSome ∨ t.isDummy) ∧
        getfreepos t = none := by
      rw [not_and_or, Bool.not_eq_false, not_or, not_not] at hfree
      rcases hfree with hdummy | ⟨hval, hnone⟩
      · refine ⟨.inr hdummy, ?_⟩
        rw [getfreepos, (h.dummy hdummy).2]
        rfl
      · exact ⟨.inl (Option.isSome_iff_ne_none.mpr hval), hnone⟩
    have hgrow := h.grow_spec hstorable (content_of_absent habsent) fuel
    rw [newkeyBy]
    simp only [if_pos hfull.1, hfull.2]
    exact hgrow

/-- The error for a key that is not a number. -/
def indexIsNaN : Fault := .luaError (.error "table index is NaN" [])

theorem setBy_of_nan (create : Table V → LuaKey → Except Fault (Table V × Slot)) {key : LuaKey}
    (hget : get identity t key = .ok none) (hnan : ¬ Storable key) :
    setBy identity create t key = .error indexIsNaN := by
  unfold setBy
  rw [hget]
  cases key with
  | number n => exact if_pos (not_not.mp hnan)
  | integer | string | object => exact absurd trivial hnan

theorem At.storable {key : LuaKey} {slot : Slot} (hslot : At t key slot)
    (h : WellFormed identity t) : Storable key := by
  cases hslot with
  | array hin =>
      rw [(eq_integer_of_arrayindex_pos hin.1).1]
      trivial
  | node _ hkey => exact h.storable hkey

variable (identity) in
/-- What an assignment to a key may come to. -/
inductive Assigned (t : Table V) (key : LuaKey) (v : Option V) : Except Fault (Table V) → Prop
  | ok {t'} (hstorable : Storable key) (hwf : WellFormed identity t')
      (hcontent : t'.content = Function.update t.content key v) : Assigned t key v (.ok t')
  | nan (hnan : ¬ Storable key) : Assigned t key v (.error indexIsNaN)
  | overflow (hstorable : Storable key) (hcontent : t.content key = none)
      (hkeys : 2 ^ maxBits ≤ t.keys.length) : Assigned t key v (.error tableOverflow)

/-- `lua_rawset` -/
theorem WellFormed.rawset_spec (h : WellFormed identity t) (key : LuaKey) (v : Option V) :
    Assigned identity t key v (rawset identity t key v) := by
  rw [rawset, set]
  rcases at_or_absent t key with ⟨slot, hslot⟩ | habsent
  · rw [setBy_of_at h _ hslot]
    exact .ok (hslot.storable h) (h.write hslot v) (h.content_write hslot v)
  · have hget := h.get_of_absent habsent
    by_cases hstorable : Storable key
    · rw [setBy_of_storable _ hget hstorable]
      rcases h.newkey_spec hstorable habsent 0 with ⟨heq, hkeys⟩ | ⟨t', slot, heq, hstored⟩
      · rw [heq]
        exact .overflow hstorable (content_of_absent habsent) hkeys
      · rw [heq]
        refine .ok hstorable (hstored.wellFormed.write hstored.at_slot v) ?_
        rw [hstored.wellFormed.content_write hstored.at_slot, hstored.content_eq]
    · rw [setBy_of_nan _ hget hstorable]
      exact .nan hstorable

theorem rawgeti_eq {n : ℤ} (hle : -2 ^ 31 ≤ n) (hlt : n < 2 ^ 31) :
    rawgeti identity t n = rawget identity t (.integer n) := by
  rw [rawgeti, rawget, getnum_eq_get hle hlt]

theorem rawseti_eq {n : ℤ} (hle : -2 ^ 31 ≤ n) (hlt : n < 2 ^ 31) (v : Option V) :
    rawseti identity t n v = rawset identity t (.integer n) v := by
  rw [rawseti, rawset, setnum, setnumBy_eq _ hle hlt, set]

/-! ## New tables and larger arrays -/

/-- `luaH_new` -/
theorem new_spec {narray nhash : ℕ} (hnarray : narray ≤ maxASize) (hnhash : nhash < 2 ^ 31)
    (h : new narray nhash = .ok t) : WellFormed identity t ∧ t.content = fun _ => none := by
  have hsize : nhash ≤ 2 ^ 32 := by omega
  rcases setnodevector_eq (setarrayvector (⟨[], 0, [.empty], true, 0⟩ : Table V) narray) hsize with
    ⟨-, heq⟩ | ⟨t', heq, harray, hbare, -⟩
  · cases h.symm.trans heq
  · obtain rfl : t = t' := Except.ok.inj (h.symm.trans heq)
    have hvalues : t.array = List.replicate narray none := harray
    have hwf : WellFormed identity t := hbare.wellFormed (by
      rwa [Table.sizearray, hvalues, List.length_replicate])
    refine ⟨hwf, ?_⟩
    funext key
    by_contra hcontent
    rcases List.mem_append.mp (hwf.mem_keys_iff.mpr hcontent) with hkey | hkey
    · obtain ⟨i, v, hv, -⟩ := mem_arrayKeys.mp hkey
      rw [hvalues] at hv
      cases (List.mem_replicate.mp (List.mem_of_getElem? hv)).2
    · obtain ⟨n, hn, hkey, -⟩ := mem_nodeKeys.mp hkey
      obtain ⟨i, -, rfl⟩ := Table.mem_node hn
      cases (hbare.gkey_eq i).symm.trans hkey

/-- A larger array needs no more nodes than there are. -/
theorem WellFormed.keysBeyond_le (h : WellFormed identity t) {n : ℕ} (hn : t.sizearray ≤ n) :
    keysBeyond t.keys n ≤ if t.isDummy then 0 else t.sizenode := by
  have harray :
      ((arrayKeys 0 t.array).countP fun k => ¬ (0 < arrayindex k ∧ arrayindex k ≤ n)) = 0 := by
    rw [List.countP_eq_zero]
    intro key hkey
    obtain ⟨i, v, hv, rfl⟩ := mem_arrayKeys.mp hkey
    have hlt : 0 + i < t.sizearray := (Nat.zero_add i).symm ▸ (List.getElem?_eq_some_iff.mp hv).1
    have hin := (h.inArray_of_lt hlt).1
    simp only [decide_eq_true_eq, not_not]
    exact ⟨hin.1, hin.2.trans (by exact_mod_cast hn)⟩
  rw [keysBeyond, Table.keys, List.countP_append, harray, Nat.zero_add]
  split
  · rename_i hdummy
    rw [(h.dummy hdummy).1]
    exact Nat.le_refl 0
  · refine List.countP_le_length.trans ((List.length_filterMap_le _ _).trans ?_)
    rw [h.length_node]

/-- `luaH_resizearray`, as `OP_SETLIST` calls it -/
theorem WellFormed.resizearray_spec (h : WellFormed identity t) (fuel : ℕ) {n : ℕ}
    (hge : t.sizearray ≤ n) (hle : n ≤ maxASize) :
    ∃ t', resizearray identity (newkey identity (fuel + 1)) t n = .ok t' ∧
      WellFormed identity t' ∧ t'.content = t.content ∧ t'.sizearray = n := by
  have hnhsize : (if t.isDummy then 0 else t.sizenode) ≤ 2 ^ maxBits := by
    split
    · exact Nat.zero_le _
    · exact Nat.pow_le_pow_right Nat.two_pos h.lsizenode_le
  have hbound : 2 ^ maxBits ≤ 2 ^ 32 := Nat.pow_le_pow_right Nat.two_pos (by rw [maxBits]; omega)
  rcases h.resize_spec (creates_newkey fuel) hle (hnhsize.trans hbound) (h.keysBeyond_le hge) with
    ⟨hlt, -⟩ | ⟨t', heq, hresized⟩
  · exact absurd hnhsize (Nat.not_le.mpr hlt)
  · exact ⟨t', heq, hresized.wellFormed, hresized.content_eq, hresized.sizearray_eq⟩

end LuaH

end Luapb
