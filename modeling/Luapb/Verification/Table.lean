import Luapb.Model.Descriptor

/-! # Tables and sequences

A message becomes a table from field names to values, a repeated field a sequence
with the keys 1 to n. Appending through `luaL_ref` keeps a sequence one. -/

namespace Luapb

/-- The entries of a sequence: the keys are 1 to n, in this order. -/
def sequence {V : Type} (values : List V) : List (LuaKey × V) :=
  values.mapIdx fun i v => (.integer (i + 1), v)

section

variable {V : Type} (values : List V)

@[simp] theorem length_sequence : (sequence values).length = values.length := by simp [sequence]

theorem keys_sequence :
    (sequence values).map (·.1) = (List.range values.length).map fun i : ℕ => .integer (i + 1) :=
  List.ext_getElem (by simp) (by simp [sequence])

@[simp] theorem values_sequence : (sequence values).map (·.2) = values :=
  List.ext_getElem (by simp) (by simp [sequence])

theorem nodup_keys_sequence : ((sequence values).map (·.1)).Nodup := by
  rw [keys_sequence]
  refine List.Pairwise.map _ ?_ List.nodup_range
  intro i j hne h
  have := LuaKey.integer.inj h
  omega

end

namespace LuaTable

theorem get_isSome_iff (t : LuaTable) (k : LuaKey) : (t.get k).isSome ↔ k ∈ t.map (·.1) := by
  simp [get, List.find?_isSome]

theorem get_eq_none_iff (t : LuaTable) (k : LuaKey) : t.get k = none ↔ k ∉ t.map (·.1) := by
  rw [← get_isSome_iff, Option.not_isSome_iff_eq_none]

theorem mem_of_get {t : LuaTable} {k : LuaKey} {v : LuaTree} (h : t.get k = some v) :
    (k, v) ∈ t := by
  obtain ⟨⟨k', v'⟩, hfind, hv⟩ := Option.map_eq_some_iff.mp h
  have hk : k' = k := by simpa using List.find?_some hfind
  simp only at hv
  subst hk hv
  exact List.mem_of_find?_eq_some hfind

theorem get_of_mem {t : LuaTable} (ht : (t.map (·.1)).Nodup) {k : LuaKey} {v : LuaTree}
    (h : (k, v) ∈ t) : t.get k = some v := by
  rw [get, find?_of_nodup_map Prod.fst ht h, Option.map_some]

theorem set_of_notMem {t : LuaTable} {k : LuaKey} (h : k ∉ t.map (·.1)) (v : LuaTree) :
    t.set k v = t ++ [(k, v)] := by
  induction t with
  | nil => rfl
  | cons e t ih =>
      simp only [List.map_cons, List.mem_cons, not_or] at h
      rw [set, if_neg (Ne.symm h.1), ih h.2, List.cons_append]

theorem get_concat {t : LuaTable} {k : LuaKey} (h : k ∉ t.map (·.1)) (v : LuaTree) :
    get (t ++ [(k, v)]) k = some v := by
  have hnone : t.find? (·.1 = k) = none := Option.map_eq_none_iff.mp ((get_eq_none_iff t k).mpr h)
  rw [get, List.find?_append, hnone]
  simp

theorem set_concat {t : LuaTable} {k : LuaKey} (h : k ∉ t.map (·.1)) (v w : LuaTree) :
    set (t ++ [(k, v)]) k w = t ++ [(k, w)] := by
  induction t with
  | nil => simp [set]
  | cons e t ih =>
      simp only [List.map_cons, List.mem_cons, not_or] at h
      rw [List.cons_append, set, if_neg (Ne.symm h.1), ih h.2, List.cons_append]

theorem mem_of_mem_set {t : LuaTable} {k : LuaKey} {v : LuaTree} {e : LuaKey × LuaTree}
    (h : e ∈ t.set k v) : e = (k, v) ∨ e ∈ t := by
  induction t with
  | nil => simpa [set] using h
  | cons e' t ih =>
      rw [set] at h
      split at h
      · rcases List.mem_cons.mp h with h | h
        · exact .inl h
        · exact .inr (List.mem_cons_of_mem _ h)
      · rcases List.mem_cons.mp h with h | h
        · exact .inr (h ▸ List.mem_cons_self)
        · exact (ih h).imp_right (List.mem_cons_of_mem _)

theorem keys_set (t : LuaTable) (k : LuaKey) (v : LuaTree) :
    (t.set k v).map (·.1) = if k ∈ t.map (·.1) then t.map (·.1) else t.map (·.1) ++ [k] := by
  induction t with
  | nil => simp [set]
  | cons e t ih =>
      rw [set]
      by_cases h : e.1 = k
      · simp [h]
      · rw [if_neg h, List.map_cons, ih]
        simp only [List.map_cons, List.mem_cons, Ne.symm h, false_or]
        split <;> rfl

theorem get_set_self (t : LuaTable) (k : LuaKey) (v : LuaTree) : (t.set k v).get k = some v := by
  induction t with
  | nil => simp [set, get]
  | cons e t ih =>
      rw [set]
      by_cases h : e.1 = k
      · simp [get, h]
      · simp only [h, if_false, get, List.find?_cons, decide_false] at ih ⊢
        exact ih

theorem get_set_of_ne (t : LuaTable) {k k' : LuaKey} (hne : k' ≠ k) (v : LuaTree) :
    (t.set k v).get k' = t.get k' := by
  induction t with
  | nil => simp [set, get, hne.symm]
  | cons e t ih =>
      rw [set]
      by_cases h : e.1 = k
      · simp [get, h, hne.symm]
      · simp only [h, if_false, get, List.find?_cons] at ih ⊢
        by_cases hk : e.1 = k'
        · simp [hk]
        · simp only [hk, decide_false]
          exact ih

theorem nodup_keys_set {t : LuaTable} (ht : (t.map (·.1)).Nodup) (k : LuaKey) (v : LuaTree) :
    ((t.set k v).map (·.1)).Nodup := by
  rw [keys_set]
  split
  · exact ht
  · rename_i h
    refine List.nodup_append.mpr ⟨ht, by simp, ?_⟩
    rintro a ha b hb rfl
    exact h (List.mem_singleton.mp hb ▸ ha)

/-! ## Sequences -/

/-- The entries of a sequence of values. -/
def ofList (values : List LuaTree) : LuaTable := sequence values

theorem mem_keys_ofList (values : List LuaTree) (k : LuaKey) :
    k ∈ (ofList values).map (·.1) ↔ ∃ i < values.length, k = .integer (i + 1) := by
  simp only [ofList, keys_sequence, List.mem_map, List.mem_range, eq_comm]

theorem get_ofList_isSome (values : List LuaTree) (i : ℕ) :
    ((ofList values).get (.integer (i + 1))).isSome ↔ i < values.length := by
  rw [get_isSome_iff, mem_keys_ofList]
  constructor
  · rintro ⟨j, hj, hij⟩
    have := LuaKey.integer.inj hij
    omega
  · exact fun h => ⟨i, h, rfl⟩

theorem get_ofList (values : List LuaTree) (i : ℕ) {v : LuaTree} (h : values[i]? = some v) :
    (ofList values).get (.integer (i + 1)) = some v := by
  refine get_of_mem (nodup_keys_sequence values) ?_
  rcases List.getElem?_eq_some_iff.mp h with ⟨hi, hv⟩
  exact List.mem_mapIdx.mpr ⟨i, hi, by rw [hv]⟩

theorem get_ofList_zero (values : List LuaTree) : (ofList values).get (.integer 0) = none := by
  rw [get_eq_none_iff, mem_keys_ofList]
  rintro ⟨i, -, hi⟩
  have := LuaKey.integer.inj hi
  omega

theorem objlenAux_ofList (values : List LuaTree) (fuel i : ℕ) (hi : i ≤ values.length)
    (hfuel : values.length ≤ i + fuel) : objlenAux (ofList values) fuel i = values.length := by
  induction fuel generalizing i with
  | zero => rw [objlenAux]; omega
  | succ fuel ih =>
      rw [objlenAux]
      split
      · rename_i h
        exact ih (i + 1) ((get_ofList_isSome values i).mp h) (by omega)
      · rename_i h
        rw [get_ofList_isSome] at h
        omega

theorem objlen_ofList (values : List LuaTree) : (ofList values).objlen = values.length := by
  rw [objlen, ofList, length_sequence]
  exact objlenAux_ofList values _ 0 (Nat.zero_le _) (by omega)

/-- `luaL_ref` on a sequence appends. -/
theorem luaLRef_ofList (P : Platform) (values : List LuaTree) (v : LuaTree) :
    luaLRef P (ofList values) v = ofList (values ++ [v]) := by
  have hfree : LuaKey.integer (values.length + 1) ∉ (ofList values).map (·.1) := by
    rw [mem_keys_ofList]
    rintro ⟨i, hi, h⟩
    have := LuaKey.integer.inj h
    omega
  rw [luaLRef, get_ofList_zero]
  simp only [Option.bind_none, ne_eq, not_true_eq_false, ite_false, objlen_ofList]
  rw [set_of_notMem hfree]
  simp [ofList, sequence, List.mapIdx_append]

/-- On an empty table it starts a sequence. -/
theorem luaLRef_nil (P : Platform) (v : LuaTree) : luaLRef P [] v = ofList [v] :=
  luaLRef_ofList P [] v

end LuaTable

end Luapb
