import Luapb.Verification.Ltable.Layout
import Luapb.Verification.Ltable.References

/-! # Lists

`luaL_ref` appends to a list. The array grows with it and holds all of it, so that an
iteration goes by the indices, and the encoder writes the elements in their order. -/

namespace Luapb

namespace LuaH

variable {V : Type} {P : Platform} {identity : ℕ → Identity} {S : Values V} {t : Table V}

variable (identity) in
/-- The table is a list, and all of it is in the array. -/
structure Listed (t : Table V) (values : List V) : Prop where
  wellFormed : WellFormed identity t
  isDummy : t.isDummy = true
  length_le : values.length ≤ t.sizearray
  array_eq : ∀ i : ℕ, t.array[i]?.join = values[i]?

section

variable {values : List V} (h : Listed identity t values)

include h

theorem Listed.content_eq_none {key : LuaKey} (hkey : ¬ InArray t key) : t.content key = none :=
  content_of_absent ⟨hkey, by simp [h.wellFormed.gkey_of_dummy h.isDummy]⟩

theorem Listed.content_eq (i : ℕ) : t.content (.integer ((i : ℤ) + 1)) = values[i]? := by
  rcases Nat.lt_or_ge i t.sizearray with hlt | hge
  · rw [h.wellFormed.content_of_index hlt, h.array_eq]
  · have hlen := h.length_le
    rw [List.getElem?_eq_none (by omega)]
    refine h.content_eq_none ?_
    rw [InArray, arrayindex]
    split <;> omega

/-- `luaH_getn` finds the length. -/
theorem Listed.getn_eq : getn identity t = .ok values.length := by
  obtain ⟨n, heq, -, hborder⟩ := h.wellFormed.getn_spec
  rw [heq]
  congr 1
  refine hborder.eq_length ?_
  intro i hi
  have hcontent := h.content_eq (i - 1)
  rw [Nat.cast_sub hi, Nat.cast_one, Int.sub_add_cancel] at hcontent
  rw [hcontent, ne_eq, List.getElem?_eq_none_iff]
  omega

/-- An index that the array has room for. -/
theorem Listed.inArray {i : ℕ} (hi : i < t.sizearray) :
    At t (.integer ((i : ℤ) + 1)) (.array i) := by
  obtain ⟨hin, hindex⟩ := h.wellFormed.inArray_of_lt hi
  have hat := At.array hin
  rwa [hindex] at hat

theorem Listed.write (hlt : values.length < t.sizearray) (v : V) :
    Listed identity (t.write (.array values.length) (some v)) (values ++ [v]) := by
  refine ⟨h.wellFormed.write (h.inArray hlt) _, h.isDummy, ?_, ?_⟩
  · rw [Table.sizearray_write, List.length_append]
    exact hlt
  · intro i
    have hlen : values.length < t.array.length := hlt
    rw [Table.write]
    dsimp only
    rw [List.getElem?_set]
    split
    · rename_i heq
      subst heq
      rw [List.getElem?_concat_length]
      rfl
    · rename_i hne
      rw [h.array_eq]
      rcases Nat.lt_or_ge i values.length with hlt | hge
      · rw [List.getElem?_append_left hlt]
      · rw [List.getElem?_eq_none hge, List.getElem?_eq_none]
        rw [List.length_append, List.length_singleton]
        omega

theorem Listed.array_eq_append : t.array =
    values.map some ++ List.replicate (t.sizearray - values.length) none := by
  have hle := h.length_le
  rw [Table.sizearray] at hle ⊢
  refine List.ext_getElem? ?_
  intro i
  have harray := h.array_eq i
  rcases Nat.lt_or_ge i values.length with hlt | hge
  · rw [List.getElem?_append_left (by rwa [List.length_map]), List.getElem?_map]
    rw [List.getElem?_eq_getElem hlt] at harray ⊢
    exact Option.join_eq_some_iff.mp harray
  · rw [List.getElem?_append_right (by rwa [List.length_map]), List.length_map,
      List.getElem?_replicate]
    rw [List.getElem?_eq_none hge] at harray
    split
    · rename_i hlt
      have hi : i < t.array.length := by omega
      rw [List.getElem?_eq_getElem hi] at harray ⊢
      exact congrArg some harray
    · exact List.getElem?_eq_none (by omega)

theorem Listed.keys_eq : t.keys = arrayKeys 0 t.array := by
  rw [Table.keys, (h.wellFormed.dummy h.isDummy).1]
  exact List.append_nil _

theorem Listed.length_keys : t.keys.length = values.length := by
  rw [h.keys_eq, length_arrayKeys, h.array_eq_append, List.countP_append]
  simp [List.countP_map, List.countP_eq_length, List.countP_replicate]

/-- With the index that is added all keys are up to it. -/
theorem Listed.keysUpTo_eq (hfull : t.sizearray = values.length)
    (hlt : values.length < 2 ^ maxBits) {n : ℕ} (hn : values.length + 1 ≤ n) :
    keysUpTo (.integer ((values.length : ℤ) + 1) :: t.keys) n = values.length + 1 := by
  have hbits : (2 : ℕ) ^ maxBits = 67108864 := by rw [maxBits]; norm_num
  rw [keysUpTo, ← h.length_keys,
    ← List.length_cons (a := LuaKey.integer ((t.keys.length : ℤ) + 1)), List.countP_eq_length]
  intro key hkey
  rw [decide_eq_true_eq]
  rw [h.length_keys] at hkey
  rcases List.mem_cons.mp hkey with rfl | hkey
  · rw [arrayindex_eq (by omega) (by omega)]
    omega
  · have hin : InArray t key := by
      by_contra hnot
      exact h.wellFormed.mem_keys_iff.mp hkey (h.content_eq_none hnot)
    have hle := hin.2
    exact ⟨hin.1, by omega⟩

/-- When the array is full, `rehash` makes it larger and leaves the hash empty. -/
theorem Listed.rehash_spec (hfull : t.sizearray = values.length)
    (hlt : values.length < 2 ^ maxBits) :
    ∃ t', rehash identity (newkey identity 1) t (.integer ((values.length : ℤ) + 1)) = .ok t' ∧
      Listed identity t' values ∧ values.length < t'.sizearray := by
  have hwf := h.wellFormed
  have hek : t.content (.integer ((values.length : ℤ) + 1)) = none := by
    rw [h.content_eq, List.getElem?_eq_none (le_refl _)]
  obtain ⟨nasize, hbest, hrehash⟩ := hwf.rehash_spec (creates_newkey 0) hek
  have hall := fun n hn => h.keysUpTo_eq hfull hlt (n := n) hn
  have hnasize : values.length + 1 ≤ nasize := hbest.covers (Nat.succ_pos _) hlt hall
  have hbeyond : keysBeyond (.integer ((values.length : ℤ) + 1) :: t.keys) nasize = 0 := by
    have hsum := keysUpTo_add_keysBeyond (.integer ((values.length : ℤ) + 1) :: t.keys) nasize
    rw [hall nasize hnasize, List.length_cons, h.length_keys] at hsum
    omega
  rcases hrehash with ⟨hlt, -⟩ | ⟨t', heq, hresized⟩
  · rw [hbeyond] at hlt
    exact absurd hlt (Nat.not_lt_zero _)
  · refine ⟨t', heq, ⟨hresized.wellFormed, ?_, ?_, ?_⟩, ?_⟩
    · by_contra hdummy
      have hcapacity := hresized.capacity_eq
      rw [hbeyond, Table.capacity, if_neg hdummy] at hcapacity
      exact absurd hcapacity (Nat.two_pow_pos t'.lsizenode).ne'
    · rw [hresized.sizearray_eq]
      omega
    · intro i
      rcases Nat.lt_or_ge i t'.sizearray with hi | hi
      · rw [← hresized.wellFormed.content_of_index hi, hresized.content_eq, h.content_eq]
      · have hlen : t'.array.length ≤ i := hi
        rw [hresized.sizearray_eq] at hi
        rw [List.getElem?_eq_none hlen, List.getElem?_eq_none (by omega)]
        rfl
    · rw [hresized.sizearray_eq]
      omega

/-- `luaL_ref` appends. -/
theorem Listed.luaLRef_spec (hlt : values.length < 2 ^ maxBits) (v : V) :
    ∃ t', luaLRef P identity S t (some v) = .ok (t', (values.length : ℤ) + 1) ∧
      Listed identity t' (values ++ [v]) := by
  have hwf := h.wellFormed
  have hbits : (2 : ℕ) ^ maxBits = 67108864 := by rw [maxBits]; norm_num
  have hfirst : rawgeti identity t freelistRef = .ok none := by
    rw [freelistRef, hwf.rawgeti_eq (by omega) (by omega),
      h.content_eq_none (by simp [InArray, arrayindex])]
  have hzero : tointeger P S none = 0 := rfl
  have hset : ∃ t', rawseti identity t ((values.length : ℤ) + 1) (some v) = .ok t' ∧
      Listed identity t' (values ++ [v]) := by
    rw [rawseti_eq (by omega) (by omega), rawset, set]
    rcases Nat.lt_or_ge values.length t.sizearray with hroom | hfull
    · rw [setBy_of_at hwf _ (h.inArray hroom)]
      exact ⟨_, rfl, h.write hroom v⟩
    · have hfull : t.sizearray = values.length := le_antisymm hfull h.length_le
      obtain ⟨t', hrehash, hlisted, hroom⟩ := h.rehash_spec hfull hlt
      have habsent : Absent t (.integer ((values.length : ℤ) + 1)) := by
        refine ⟨?_, by simp [hwf.gkey_of_dummy h.isDummy]⟩
        rw [InArray, arrayindex_eq (by omega) (by omega)]
        omega
      rw [setBy_of_storable _ (hwf.get_of_absent habsent) trivial]
      have hfree : getfreepos t = none := by
        rw [getfreepos, (hwf.dummy h.isDummy).2]
        rfl
      have hnewkey : newkey identity 2 t (.integer ((values.length : ℤ) + 1)) =
          .ok (t', .array values.length) := by
        have hbody : newkey identity 2 t (.integer ((values.length : ℤ) + 1)) = newkeyBy identity
            (newkey identity 1) t (.integer ((values.length : ℤ) + 1)) := rfl
        rw [hbody, newkeyBy]
        simp only [if_pos (Or.inr h.isDummy), hfree]
        rw [hrehash, Fallible.ok_bind]
        exact setBy_of_at hlisted.wellFormed _ (hlisted.inArray hroom)
      rw [hnewkey]
      exact ⟨_, rfl, hlisted.write hroom v⟩
  obtain ⟨t', heq, hlisted⟩ := hset
  refine ⟨t', ?_, hlisted⟩
  unfold luaLRef
  dsimp only
  rw [hfirst, Fallible.ok_bind, hzero]
  simp only [ne_eq, not_true_eq_false, if_false, h.getn_eq, Fallible.ok_bind, heq]
  rfl

/-- An iteration over a list goes by the indices. -/
theorem Listed.iterate_eq : iterate identity t = .ok (sequence values) := by
  have hnodes : (nodeSlots t).reduceOption = [] := by
    rw [nodeSlots, (h.wellFormed.dummy h.isDummy).1]
    rfl
  have harray : arraySlots t = (sequence values).map some ++
      List.replicate (t.sizearray - values.length) none := by
    rw [arraySlots, h.array_eq_append, List.mapIdx_append]
    congr 1
    · refine List.ext_getElem? ?_
      intro i
      simp [sequence, Function.comp_def]
    · refine List.ext_getElem? ?_
      intro i
      simp only [List.getElem?_mapIdx, List.getElem?_replicate]
      split <;> rfl
  rw [h.wellFormed.iterate_eq, Luapb.Table.entries, h.wellFormed.slots_layout, slots,
    List.reduceOption_append, hnodes, harray, List.reduceOption_append,
    List.reduceOption_replicate_none, List.append_nil, List.append_nil]
  congr 1
  simp [List.reduceOption]

end

variable (identity) in
/-- The table that `lua_newtable` makes -/
theorem listed_new : new 0 0 = .ok (⟨[], 0, [.empty], true, 0⟩ : Table V) ∧
    Listed identity (⟨[], 0, [.empty], true, 0⟩ : Table V) [] := by
  have hnew : new 0 0 = .ok (⟨[], 0, [.empty], true, 0⟩ : Table V) := rfl
  exact ⟨hnew, (new_spec (Nat.zero_le _) (by norm_num) hnew).1, rfl, le_refl 0, fun _ => rfl⟩

variable (P identity S) in
/-- `luaL_ref` of one value after the other -/
def append (t : Table V) (values : List V) : Except Fault (Table V) :=
  values.foldlM (fun t v => (luaLRef P identity S t (some v)).map Prod.fst) t

theorem Listed.append_spec {values : List V} (h : Listed identity t values) {values' : List V}
    (hlen : values.length + values'.length ≤ 2 ^ maxBits) :
    ∃ t', append P identity S t values' = .ok t' ∧ Listed identity t' (values ++ values') := by
  induction values' generalizing t values with
  | nil => exact ⟨t, rfl, by rwa [List.append_nil]⟩
  | cons v values' ih =>
      rw [List.length_cons] at hlen
      obtain ⟨t₁, heq, h₁⟩ := h.luaLRef_spec (P := P) (S := S) (by omega) v
      obtain ⟨t', heq', h'⟩ := ih h₁ (by rw [List.length_append, List.length_singleton]; omega)
      refine ⟨t', ?_, by rwa [List.append_assoc] at h'⟩
      rw [append, List.foldlM_cons, heq]
      exact heq'

/-- A list that is made with `luaL_ref`, as the decoder makes its lists, is in the array and
visited by its indices, and the encoder writes the elements in this order. -/
theorem appended_in_order {M : Type} {W : WireFormatLite} {L : LuaState} (S : Values L.Value)
    (values : List L.Value) (hlen : values.length ≤ 2 ^ maxBits) :
    ∃ t : Table L.Value, (new 0 0 >>= fun t => append P identity S t values) = .ok t ∧
      t.isDummy = true ∧ (∀ i : ℕ, t.array[i]?.join = values[i]?) ∧
      iterate identity t = .ok (sequence values) ∧
      ∀ (schema : Schema M) (fuel : ℕ) (msgD : M) (fd : FieldDescriptor M) (key : LuaKey)
        (list : L.Value) (entries : List (LuaKey × L.Value)) (stream out : Bytes),
        keyName P key = .ok fd.name → fd ∈ (schema msgD).field → fd.isRepeated = true →
        iterate identity t = .ok entries → L.view list = .table entries →
        (entryEncode P W L schema (rawByteSize P W L schema fuel) (rawEncode P W L schema fuel)
            msgD stream (key, list) = .ok out ↔
          ∃ records, List.Forall₂ (Record P W L schema fuel) (values.map fun v => (fd, v)) records ∧
            out = stream ++ records.flatten) := by
  obtain ⟨hnew, hempty⟩ := listed_new identity (V := L.Value)
  have hlen' : ([] : List L.Value).length + values.length ≤ 2 ^ maxBits := by simpa using hlen
  obtain ⟨t, heq, h⟩ := hempty.append_spec (P := P) (S := S) hlen'
  rw [List.nil_append] at h
  refine ⟨t, by rw [hnew]; exact heq, h.isDummy, h.array_eq, h.iterate_eq, ?_⟩
  intro schema fuel msgD fd key list entries stream out hkey hmem hmany hiterate hlist
  obtain rfl := Except.ok.inj (h.iterate_eq.symm.trans hiterate)
  rw [entryEncode_list hkey hmem hmany hlist]
  have hvalues : (sequence values).map (fun e => (fd, e.2)) = values.map fun v => (fd, v) := by
    rw [← values_sequence values, List.map_map, values_sequence]
    rfl
  rw [hvalues]

/-- Three elements, for which the array grows twice. -/
theorem appended_in_order_three : ∃ t : Table LuaTree,
    (new 0 0 >>= fun t => append (.plain .x64) (fun _ => .boolean true) treeValues t
      [.boolean true, .string [120], .boolean false]) = .ok t ∧
    t.array[2]?.join = some (.boolean false) ∧
    iterate (fun _ => .boolean true) t =
      .ok (sequence [.boolean true, .string [120], .boolean false]) :=
  (appended_in_order (M := AddressBook.Message) (W := .reference) (L := LuaTree.state) treeValues
    [.boolean true, .string [120], .boolean false] (by decide)).imp fun _ h =>
      ⟨h.1, h.2.2.1 2, h.2.2.2.1⟩

end LuaH

end Luapb
