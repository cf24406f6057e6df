import Luapb.Verification.Ltable.Sizes
import Mathlib.Data.List.ReduceOption

/-! # Building a table anew

`resize` makes a table without keys in the new sizes and assigns to it what the old one held.
Where the new sizes have room for every key, none of these assignments builds the table anew
again, so that `newkey` calls itself at most once. -/

namespace Luapb

namespace LuaH

variable {V : Type} {identity : ℕ → Identity} {t : Table V}

/-- How many keys the hash can take. -/
def Table.capacity (t : Table V) : ℕ := if t.isDummy then 0 else t.sizenode

/-! ## New nodes -/

/-- The nodes are new. -/
structure Bare (t : Table V) : Prop where
  lsizenode_le : t.lsizenode ≤ maxBits
  length_node : t.node.length = t.sizenode
  dummy : t.isDummy = true → t.node = [.empty]
  lastfree_eq : t.lastfree = t.capacity
  gnode_eq : ∀ i, t.gnode i = .empty

theorem Bare.gkey_eq (h : Bare t) (i : ℕ) : t.gkey i = none := by
  rw [Table.gkey, h.gnode_eq]
  rfl

theorem Bare.wellFormed (h : Bare t) (hsize : t.sizearray ≤ maxASize) : WellFormed identity t where
  sizearray_le := hsize
  lsizenode_le := h.lsizenode_le
  length_node := h.length_node
  dummy hdummy := ⟨h.dummy hdummy, by rw [h.lastfree_eq, Table.capacity, if_pos hdummy]⟩
  lastfree_le := by
    rw [h.lastfree_eq, Table.capacity]
    split
    · exact Nat.zero_le _
    · exact le_refl _
  used hdummy i hle hlt := by
    rw [h.lastfree_eq, Table.capacity, hdummy] at hle
    exact absurd hlt (Nat.not_lt.mpr hle)
  key_of_val {i} hval := by
    rw [Table.gval, h.gnode_eq] at hval
    exact absurd rfl hval
  storable hkey := by rw [h.gkey_eq] at hkey; cases hkey
  outside hkey := by rw [h.gkey_eq] at hkey; cases hkey
  chained := .empty h.gkey_eq fun i => by
    rw [Table.gnext, h.gnode_eq]
    rfl

theorem Bare.usedNodes_eq (h : Bare t) : usedNodes t = ∅ :=
  Finset.filter_false_of_mem fun i _ hi => hi (h.gkey_eq i)

/-- How many nodes are made for a number of keys. -/
def nodesFor (size : ℕ) : ℕ := if size = 0 then 0 else 2 ^ Nat.clog 2 size

theorem le_nodesFor (size : ℕ) : size ≤ nodesFor size := by
  rw [nodesFor]
  split
  · omega
  · exact Nat.le_pow_clog Nat.one_lt_two size

/-- A table of more than `2 ^ 26` nodes is not made. -/
def tableOverflow : Fault := .luaError (.error "table overflow" [])

theorem setnodevector_eq (t : Table V) {size : ℕ} (hsize : size ≤ 2 ^ 32) :
    2 ^ maxBits < size ∧ setnodevector t size = .error tableOverflow ∨
      ∃ t', setnodevector t size = .ok t' ∧ t'.array = t.array ∧ Bare t' ∧
        t'.capacity = nodesFor size := by
  rw [setnodevector]
  split
  · rename_i hzero
    refine .inr ⟨_, rfl, rfl, ⟨Nat.zero_le _, rfl, fun _ => rfl, rfl, ?_⟩, (if_pos hzero).symm⟩
    intro i
    cases i <;> rfl
  · rename_i hpos
    dsimp only
    rw [ceillog2_eq hsize]
    split
    · rename_i hlt
      exact .inl ⟨(Nat.lt_clog_iff_pow_lt Nat.one_lt_two).mp hlt, rfl⟩
    · rename_i hle
      refine .inr ⟨_, rfl, rfl, ⟨Nat.le_of_not_lt hle, ?_, (fun h => nomatch h), rfl, ?_⟩, ?_⟩
      · exact List.length_replicate
      · intro i
        rw [Table.gnode, List.getD_eq_getElem?_getD, List.getElem?_replicate]
        split <;> rfl
      · exact (if_neg hpos).symm

/-! ## Assigning again -/

variable (identity) in
/-- `newkey` finds a node for a new key where the hash has room. -/
def Creates (create : Table V → LuaKey → Except Fault (Table V × Slot)) : Prop :=
  ∀ {t key}, WellFormed identity t → Storable key → Absent t key →
    (usedNodes t).card < t.capacity →
    ∃ t' slot, create t key = .ok (t', slot) ∧ Placed identity t t' key slot

theorem creates_newkeyBy (create : Table V → LuaKey → Except Fault (Table V × Slot)) :
    Creates identity (newkeyBy identity create) := by
  intro t key h hstorable habsent hroom
  rw [Table.capacity] at hroom
  split at hroom
  · exact absurd hroom (Nat.not_lt_zero _)
  · rename_i hdummy
    rw [Bool.not_eq_true] at hdummy
    obtain ⟨n, hn⟩ := h.exists_getfreepos hdummy hroom
    exact newkeyBy_placed h hstorable habsent hdummy create (.inr (hn ▸ Option.some_ne_none n))

/-- `*luaH_set(t, key) = value` -/
def reinsert (identity : ℕ → Identity)
    (create : Table V → LuaKey → Except Fault (Table V × Slot)) (t : Table V) (e : LuaKey × V) :
    Except Fault (Table V) := do
  let r ← setBy identity create t e.1
  pure (r.1.write r.2 (some e.2))

/-- A map after some assignments. -/
def assign (m : LuaKey → Option V) (l : List (LuaKey × V)) : LuaKey → Option V :=
  l.foldl (fun m e => Function.update m e.1 (some e.2)) m

variable (identity) in
/-- The elements have been assigned, `extra` of them to nodes that had no key. -/
structure Reinserted (t t' : Table V) (l : List (LuaKey × V)) (extra : ℕ) : Prop where
  wellFormed : WellFormed identity t'
  content_eq : t'.content = assign t.content l
  sizearray_eq : t'.sizearray = t.sizearray
  capacity_eq : t'.capacity = t.capacity
  used_le : (usedNodes t').card ≤ (usedNodes t).card + extra

theorem usedNodes_write (t : Table V) (slot : Slot) (v : Option V) :
    usedNodes (t.write slot v) = usedNodes t := by
  rw [usedNodes, Table.sizenode_write, Table.gkey_write, usedNodes]

theorem capacity_write (t : Table V) (slot : Slot) (v : Option V) :
    (t.write slot v).capacity = t.capacity := by
  rw [Table.capacity, Table.isDummy_write, Table.sizenode_write, Table.capacity]

/-- `luaH_set` of a key that is not NaN. -/
theorem setBy_of_storable (create : Table V → LuaKey → Except Fault (Table V × Slot))
    {key : LuaKey} (hget : get identity t key = .ok none) (hstorable : Storable key) :
    setBy identity create t key = create t key := by
  unfold setBy
  rw [hget]
  cases key with
  | number n => exact if_neg hstorable
  | integer | string | object => rfl

theorem setBy_of_at (h : WellFormed identity t)
    (create : Table V → LuaKey → Except Fault (Table V × Slot)) {key : LuaKey} {slot : Slot}
    (hslot : At t key slot) : setBy identity create t key = .ok (t, slot) := by
  unfold setBy
  rw [h.get_of_at hslot]
  rfl

section

variable {create : Table V → LuaKey → Except Fault (Table V × Slot)}
  (hcreate : Creates identity create)

include hcreate

theorem reinsert_spec (h : WellFormed identity t) (e : LuaKey × V) (hstorable : Storable e.1)
    (hroom : (usedNodes t).card + (if InArray t e.1 then 0 else 1) ≤ t.capacity) :
    ∃ t', reinsert identity create t e = .ok t' ∧
      Reinserted identity t t' [e] (if InArray t e.1 then 0 else 1) := by
  rcases at_or_absent t e.1 with ⟨slot, hslot⟩ | habsent
  · refine ⟨t.write slot (some e.2), ?_, h.write hslot _, h.content_write hslot _,
      t.sizearray_write _ _, capacity_write _ _ _, ?_⟩
    · rw [reinsert, setBy_of_at h create hslot]
      rfl
    · rw [usedNodes_write]
      exact Nat.le_add_right _ _
  · rw [if_neg habsent.notInArray] at hroom ⊢
    obtain ⟨t', slot, heq, hplaced⟩ := hcreate h hstorable habsent hroom
    refine ⟨t'.write slot (some e.2), ?_, hplaced.wellFormed.write hplaced.at_slot _,
      ?_, ?_, ?_, ?_⟩
    · rw [reinsert, setBy_of_storable create (h.get_of_absent habsent) hstorable, heq]
      rfl
    · rw [hplaced.wellFormed.content_write hplaced.at_slot, hplaced.content_eq]
      rfl
    · rw [Table.sizearray_write, hplaced.sizearray_eq]
    · rw [capacity_write, Table.capacity, hplaced.isDummy_eq, Table.sizenode, hplaced.lsizenode_eq,
        Table.capacity, Table.sizenode]
    · rw [usedNodes_write]
      exact hplaced.used_le

theorem reinsert_run {l : List (LuaKey × V)} (h : WellFormed identity t)
    (hstorable : ∀ e ∈ l, Storable e.1)
    (hroom : (usedNodes t).card + l.countP (fun e => ¬ InArray t e.1) ≤ t.capacity) :
    ∃ t', l.foldlM (reinsert identity create) t = .ok t' ∧
      Reinserted identity t t' l (l.countP fun e => ¬ InArray t e.1) := by
  induction l generalizing t with
  | nil => exact ⟨t, rfl, h, rfl, rfl, rfl, le_refl _⟩
  | cons e l ih =>
      obtain ⟨he, hl⟩ := List.forall_mem_cons.mp hstorable
      have hcount : (e :: l).countP (fun e => ¬ InArray t e.1) =
          (if InArray t e.1 then 0 else 1) + l.countP fun e => ¬ InArray t e.1 := by
        rw [List.countP_cons, Nat.add_comm]
        by_cases hin : InArray t e.1 <;> simp [hin]
      rw [hcount] at hroom ⊢
      obtain ⟨t₁, heq, hone⟩ := reinsert_spec hcreate h e he (by omega)
      have hin : ∀ key, InArray t₁ key ↔ InArray t key := inArray_congr hone.sizearray_eq
      have hrest : (l.countP fun e => ¬ InArray t₁ e.1) = l.countP fun e => ¬ InArray t e.1 := by
        simp only [hin]
      have hused := hone.used_le
      obtain ⟨t', heq', hall⟩ := ih hone.wellFormed hl (by rw [hrest, hone.capacity_eq]; omega)
      rw [hrest] at hall
      refine ⟨t', by rw [List.foldlM_cons, heq]; exact heq', hall.wellFormed, ?_, ?_, ?_, ?_⟩
      · rw [hall.content_eq, hone.content_eq]
        rfl
      · rw [hall.sizearray_eq, hone.sizearray_eq]
      · rw [hall.capacity_eq, hone.capacity_eq]
      · have hused' := hall.used_le
        omega

end

/-! ## What `resize` moves -/

/-- The keys that have values. -/
def Table.keys (t : Table V) : List LuaKey := arrayKeys 0 t.array ++ nodeKeys t.node

/-- The elements of the slice that vanishes and those of the old nodes. -/
def moved (t : Table V) (nasize : ℕ) : List (LuaKey × V) :=
  (slice t.array nasize).map (fun e => (.integer e.1, e.2)) ++ nodesDown t.node

theorem mem_slice {array : List (Option V)} {start : ℕ} {e : ℤ × V} :
    e ∈ slice array start ↔
      ∃ i v, start ≤ i ∧ array[i]? = some (some v) ∧ e = (((i + 1 : ℕ) : ℤ), v) := by
  rw [slice, List.reduceOption_mem_iff, List.mem_mapIdx]
  constructor
  · rintro ⟨i, hi, heq⟩
    obtain ⟨v, hv, rfl⟩ := Option.map_eq_some_iff.mp heq
    rw [List.getElem_drop] at hv
    exact ⟨start + i, v, Nat.le_add_right _ _, hv ▸ List.getElem?_eq_getElem _, rfl⟩
  · rintro ⟨i, v, hle, hv, rfl⟩
    obtain ⟨hlt, hv⟩ := List.getElem?_eq_some_iff.mp hv
    have hindex : start + (i - start) = i := Nat.add_sub_cancel' hle
    refine ⟨i - start, by rw [List.length_drop]; omega, ?_⟩
    simp only [List.getElem_drop, hindex, hv, Option.map_some]

theorem keys_slice (array : List (Option V)) (start : ℕ) :
    (slice array start).map (fun e => LuaKey.integer e.1) = arrayKeys start (array.drop start) := by
  rw [slice]
  generalize array.drop start = array
  induction array generalizing start with
  | nil => rfl
  | cons v? array ih =>
      rw [List.mapIdx_cons, arrayKeys, ← ih]
      have hshift : (fun (i : ℕ) (v? : Option V) =>
          v?.map fun v => (((start + (i + 1) + 1 : ℕ) : ℤ), v)) =
            fun i v? => v?.map fun v => (((start + 1 + i + 1 : ℕ) : ℤ), v) := by
        funext i v?
        rw [Nat.add_assoc start 1 i, Nat.add_comm 1 i]
      rw [hshift]
      cases v? <;> rfl

theorem mem_nodesDown {node : List (Node V)} {e : LuaKey × V} :
    e ∈ nodesDown node ↔ ∃ n ∈ node, n.key = some e.1 ∧ n.val = some e.2 := by
  rw [nodesDown, List.mem_filterMap]
  simp only [List.mem_reverse]
  constructor
  · rintro ⟨⟨key, val, next⟩, hn, heq⟩
    cases key <;> cases val <;> cases heq
    exact ⟨_, hn, rfl, rfl⟩
  · rintro ⟨⟨key, val, next⟩, hn, rfl, rfl⟩
    exact ⟨_, hn, rfl⟩

theorem keys_nodesDown (node : List (Node V)) :
    (nodesDown node).map Prod.fst = (nodeKeys node).reverse := by
  rw [nodesDown, nodeKeys, List.map_filterMap, ← List.filterMap_reverse]
  congr 1
  funext ⟨key, val, next⟩
  cases key <;> cases val <;> rfl

theorem keys_moved (t : Table V) (nasize : ℕ) : (moved t nasize).map Prod.fst =
    arrayKeys nasize (t.array.drop nasize) ++ (nodeKeys t.node).reverse := by
  rw [moved, List.map_append, List.map_map, keys_nodesDown, ← keys_slice]
  rfl

theorem mem_nodeKeys {node : List (Node V)} {key : LuaKey} :
    key ∈ nodeKeys node ↔ ∃ n ∈ node, n.key = some key ∧ n.val ≠ none := by
  rw [← List.mem_reverse, ← keys_nodesDown, List.mem_map]
  constructor
  · rintro ⟨e, he, rfl⟩
    obtain ⟨n, hn, hkey, hval⟩ := mem_nodesDown.mp he
    exact ⟨n, hn, hkey, hval ▸ Option.some_ne_none _⟩
  · rintro ⟨n, hn, hkey, hval⟩
    obtain ⟨v, hv⟩ := Option.ne_none_iff_exists'.mp hval
    exact ⟨(key, v), mem_nodesDown.mpr ⟨n, hn, hkey, hv⟩, rfl⟩

/-! ## Keys and contents -/

namespace WellFormed

variable (h : WellFormed identity t)

include h

theorem content_of_mem_node {n : Node V} (hn : n ∈ t.node) {key : LuaKey}
    (hkey : n.key = some key) : t.content key = n.val := by
  obtain ⟨i, -, rfl⟩ := Table.mem_node hn
  exact h.content_of_at (.node (h.outside hkey) hkey)

/-- The key of an index of the array. -/
theorem inArray_of_lt {i : ℕ} (hi : i < t.sizearray) :
    InArray t (.integer ((i : ℤ) + 1)) ∧ (arrayindex (.integer ((i : ℤ) + 1)) - 1).toNat = i := by
  have hle := h.sizearray_le
  rw [maxASize, maxBits] at hle
  rw [InArray, arrayindex_eq (by omega) (by omega)]
  omega

theorem content_of_index {i : ℕ} (hi : i < t.sizearray) :
    t.content (.integer ((i : ℤ) + 1)) = t.array[i]?.join := by
  obtain ⟨hin, hindex⟩ := h.inArray_of_lt hi
  rw [h.content_of_at (.array hin), hindex]
  rfl

theorem mem_keys_iff {key : LuaKey} : key ∈ t.keys ↔ t.content key ≠ none := by
  rw [Table.keys, List.mem_append, mem_arrayKeys, mem_nodeKeys]
  constructor
  · rintro (⟨i, v, hv, rfl⟩ | ⟨n, hn, hkey, hval⟩)
    · rw [Nat.zero_add, h.content_of_index (List.getElem?_eq_some_iff.mp hv).1, hv]
      exact Option.some_ne_none v
    · rwa [h.content_of_mem_node hn hkey]
  · intro hcontent
    rcases at_or_absent t key with ⟨slot, hslot⟩ | habsent
    · rw [h.content_of_at hslot] at hcontent
      cases hslot with
      | array hin =>
          obtain ⟨v, hv⟩ := Option.ne_none_iff_exists'.mp hcontent
          refine .inl ⟨_, v, Option.join_eq_some_iff.mp hv, ?_⟩
          rw [Nat.zero_add]
          have hkey := (eq_integer_of_arrayindex_pos hin.1).1
          have hpos := hin.1
          rwa [Int.toNat_of_nonneg (by omega), Int.sub_add_cancel]
      | node _ hkey => exact .inr ⟨_, Table.gnode_mem (Table.lt_length_of_key hkey), hkey, hcontent⟩
    · exact absurd (content_of_absent habsent) hcontent

theorem nodup_nodeKeys : (nodeKeys t.node).Nodup := by
  have hindex : ∀ {i j key}, t.gkey i = some key → t.gkey j = some key → i = j := h.chained.unique
  have hnodes : t.node = (List.range t.node.length).map t.gnode := by
    refine List.ext_getElem (by simp) ?_
    intro i hi _
    rw [List.getElem_map, List.getElem_range, Table.gnode, List.getD_eq_getElem?_getD,
      List.getElem?_eq_getElem hi, Option.getD_some]
  rw [hnodes, nodeKeys, List.filterMap_map]
  refine List.Nodup.filterMap ?_ List.nodup_range
  intro i j key hi hj
  obtain ⟨-, -, hi⟩ := Option.bind_eq_some_iff.mp hi
  obtain ⟨-, -, hj⟩ := Option.bind_eq_some_iff.mp hj
  exact hindex hi hj

theorem nodup_keys : t.keys.Nodup := by
  rw [Table.keys, List.nodup_append]
  refine ⟨nodup_arrayKeys 0 t.array, h.nodup_nodeKeys, ?_⟩
  rintro key harray key' hnode rfl
  obtain ⟨i, v, hv, rfl⟩ := mem_arrayKeys.mp harray
  obtain ⟨n, hn, hkey, -⟩ := mem_nodeKeys.mp hnode
  obtain ⟨j, -, rfl⟩ := Table.mem_node hn
  refine h.outside hkey ?_
  rw [Nat.zero_add]
  exact (h.inArray_of_lt (List.getElem?_eq_some_iff.mp hv).1).1

theorem length_keys_le : t.keys.length ≤ 2 ^ 27 := by
  have harray : (arrayKeys 0 t.array).length ≤ maxASize := by
    rw [length_arrayKeys]
    exact List.countP_le_length.trans h.sizearray_le
  have hnode : (nodeKeys t.node).length ≤ 2 ^ maxBits := by
    refine (List.length_filterMap_le _ _).trans ?_
    rw [h.length_node]
    exact Nat.pow_le_pow_right Nat.two_pos h.lsizenode_le
  rw [maxASize, maxBits] at harray
  rw [maxBits] at hnode
  rw [Table.keys, List.length_append]
  omega

end WellFormed

/-! ## Resizing -/

theorem setnumBy_eq (create : Table V → LuaKey → Except Fault (Table V × Slot)) {i : ℤ}
    (hle : -2 ^ 31 ≤ i) (hlt : i < 2 ^ 31) :
    setnumBy identity create t i = setBy identity create t (.integer i) := by
  unfold setnumBy setBy
  rw [getnum_eq_get hle hlt]

theorem foldlM_setnumBy (create : Table V → LuaKey → Except Fault (Table V × Slot))
    {l : List (ℤ × V)} (hl : ∀ e ∈ l, -2 ^ 31 ≤ e.1 ∧ e.1 < 2 ^ 31) (t : Table V) :
    (l.foldlM (fun t e => do
      let r ← setnumBy identity create t e.1
      pure (r.1.write r.2 (some e.2))) t) =
    (l.map fun e => (LuaKey.integer e.1, e.2)).foldlM (reinsert identity create) t := by
  induction l generalizing t with
  | nil => rfl
  | cons e l ih =>
      obtain ⟨he, hl⟩ := List.forall_mem_cons.mp hl
      simp only [List.foldlM_cons, List.map_cons, ih hl, setnumBy_eq create he.1 he.2]
      rfl

theorem WellFormed.resize_eq (h : WellFormed identity t)
    (create : Table V → LuaKey → Except Fault (Table V × Slot)) (nasize nhsize : ℕ) :
    resize identity create t nasize nhsize = (do
      let fresh ← setnodevector (if t.sizearray < nasize then setarrayvector t nasize else t) nhsize
      (moved t nasize).foldlM (reinsert identity create)
        { fresh with array := fresh.array.take nasize }) := by
  have hslice : ∀ e ∈ slice t.array nasize, -2 ^ 31 ≤ e.1 ∧ e.1 < 2 ^ 31 := by
    intro e he
    obtain ⟨i, v, -, hv, rfl⟩ := mem_slice.mp he
    have hlt := (List.getElem?_eq_some_iff.mp hv).1
    have hle := h.sizearray_le
    rw [maxASize, maxBits, Table.sizearray] at hle
    dsimp only
    omega
  unfold resize
  simp only [foldlM_setnumBy create hslice, moved, List.foldlM_append]
  rfl

/-- Whatever the order, a map that has the values is the result of assigning them. -/
theorem assign_eq {m f : LuaKey → Option V} {l : List (LuaKey × V)}
    (hl : ∀ e ∈ l, f e.1 = some e.2) (hrest : ∀ key, key ∉ l.map Prod.fst → m key = f key) :
    assign m l = f := by
  induction l generalizing m with
  | nil => exact funext fun key => hrest key List.not_mem_nil
  | cons e l ih =>
      obtain ⟨he, hl⟩ := List.forall_mem_cons.mp hl
      refine ih hl ?_
      intro key hkey
      by_cases heq : key = e.1
      · rw [heq, he]
        exact Function.update_self ..
      · exact (Function.update_of_ne heq _ _).trans
          (hrest key fun hmem => (List.mem_cons.mp hmem).elim heq hkey)

/-- How many of the keys an array of a size has no place for. -/
def keysBeyond (ks : List LuaKey) (n : ℕ) : ℕ :=
  ks.countP fun k => ¬ (0 < arrayindex k ∧ arrayindex k ≤ n)

theorem keysUpTo_add_keysBeyond (ks : List LuaKey) (n : ℕ) :
    keysUpTo ks n + keysBeyond ks n = ks.length := by
  have h := List.length_eq_countP_add_countP
    (fun k => decide (0 < arrayindex k ∧ arrayindex k ≤ n)) (l := ks)
  rw [keysUpTo, keysBeyond, h]
  simp

theorem keysBeyond_cons (k : LuaKey) (ks : List LuaKey) (n : ℕ) : keysBeyond (k :: ks) n =
    keysBeyond ks n + if 0 < arrayindex k ∧ arrayindex k ≤ n then 0 else 1 := by
  rw [keysBeyond, List.countP_cons, keysBeyond]
  by_cases hk : 0 < arrayindex k ∧ arrayindex k ≤ n <;> simp [hk]

variable (identity) in
/-- The table built anew. -/
structure Resized (t t' : Table V) (nasize nhsize : ℕ) : Prop where
  wellFormed : WellFormed identity t'
  content_eq : t'.content = t.content
  sizearray_eq : t'.sizearray = nasize
  capacity_eq : t'.capacity = nodesFor nhsize
  used_le : (usedNodes t').card ≤ keysBeyond t.keys nasize

/-- The array that grows or shrinks keeps the values of the indices that stay. -/
theorem array_resized (t : Table V) (nasize : ℕ) :
    let array := (if t.sizearray < nasize then setarrayvector t nasize else t).array.take nasize
    array.length = nasize ∧ ∀ i < nasize, array[i]?.join = t.array[i]?.join := by
  intro array
  have hlen : t.array.length = t.sizearray := rfl
  by_cases hgrow : t.sizearray < nasize
  · have harray : array = t.array ++ List.replicate (nasize - t.sizearray) none := by
      rw [show array = (setarrayvector t nasize).array.take nasize by
        simp only [array, if_pos hgrow]]
      refine List.take_of_length_le ?_
      rw [setarrayvector, List.length_append, List.length_replicate]
      omega
    rw [harray]
    refine ⟨by rw [List.length_append, List.length_replicate]; omega, ?_⟩
    intro i hi
    rcases Nat.lt_or_ge i t.array.length with hlt | hge
    · rw [List.getElem?_append_left hlt]
    · rw [List.getElem?_append_right hge, List.getElem?_replicate, List.getElem?_eq_none hge]
      split <;> rfl
  · have harray : array = t.array.take nasize := by simp only [array, if_neg hgrow]
    rw [harray]
    refine ⟨by rw [List.length_take]; omega, ?_⟩
    intro i hi
    rw [List.getElem?_take_of_lt hi]

namespace WellFormed

variable (h : WellFormed identity t)

include h

theorem of_mem_moved {nasize : ℕ} {e : LuaKey × V} (he : e ∈ moved t nasize) :
    Storable e.1 ∧ t.content e.1 = some e.2 := by
  rcases List.mem_append.mp he with hslice | hnode
  · obtain ⟨e', he', rfl⟩ := List.mem_map.mp hslice
    obtain ⟨i, v, -, hv, rfl⟩ := mem_slice.mp he'
    refine ⟨trivial, ?_⟩
    have hcontent := h.content_of_index (List.getElem?_eq_some_iff.mp hv).1
    rw [hv] at hcontent
    simpa using hcontent
  · obtain ⟨n, hn, hkey, hval⟩ := mem_nodesDown.mp hnode
    obtain ⟨i, -, rfl⟩ := Table.mem_node hn
    exact ⟨h.storable hkey, by rw [h.content_of_mem_node hn hkey, hval]⟩

/-- What does not move is in the array and stays there. -/
theorem content_of_not_moved {nasize : ℕ} {key : LuaKey}
    (hkey : key ∉ (moved t nasize).map Prod.fst) : t.content key =
      if 0 < arrayindex key ∧ arrayindex key ≤ nasize then
        t.array[(arrayindex key - 1).toNat]?.join
      else none := by
  rw [keys_moved, List.mem_append, List.mem_reverse, not_or] at hkey
  by_cases hin : InArray t key
  · rw [h.content_of_at (.array hin)]
    have hpos := hin.1
    split
    · rfl
    · rename_i hbeyond
      by_contra hne
      obtain ⟨v, hv⟩ := Option.ne_none_iff_exists'.mp hne
      refine hkey.1 (mem_arrayKeys.mpr ⟨(arrayindex key - 1).toNat - nasize, v, ?_, ?_⟩)
      · rw [List.getElem?_drop, Nat.add_sub_cancel' (by omega)]
        exact Option.join_eq_some_iff.mp hv
      · rw [(eq_integer_of_arrayindex_pos hin.1).1, arrayindex_eq (by omega)
          (eq_integer_of_arrayindex_pos hin.1).2]
        congr 1
        omega
  · have hnone : t.content key = none := by
      by_contra hne
      rcases List.mem_append.mp (h.mem_keys_iff.mpr hne) with harray | hnode
      · obtain ⟨i, v, hv, rfl⟩ := mem_arrayKeys.mp harray
        rw [Nat.zero_add] at hin
        exact hin (h.inArray_of_lt (List.getElem?_eq_some_iff.mp hv).1).1
      · exact hkey.2 hnode
    rw [hnone]
    split
    · rename_i hfits
      rw [List.getElem?_eq_none]
      · rfl
      · rw [InArray, Table.sizearray] at hin
        omega
    · rfl

end WellFormed

theorem countP_moved_le (t : Table V) (nasize : ℕ) :
    (moved t nasize).countP (fun e => ¬ (0 < arrayindex e.1 ∧ arrayindex e.1 ≤ nasize)) ≤
      keysBeyond t.keys nasize := by
  have hmap := List.countP_map (p := fun k => ¬ (0 < arrayindex k ∧ arrayindex k ≤ nasize))
    (f := Prod.fst) (l := moved t nasize)
  have hsub : (arrayKeys nasize (t.array.drop nasize)).Sublist (arrayKeys 0 t.array) := by
    rcases Nat.lt_or_ge t.array.length nasize with hlt | hge
    · rw [List.drop_eq_nil_of_le (Nat.le_of_lt hlt)]
      exact List.nil_sublist _
    · have happend := arrayKeys_append 0 (t.array.take nasize) (t.array.drop nasize)
      rw [List.take_append_drop, List.length_take, Nat.min_eq_left hge, Nat.zero_add] at happend
      rw [happend]
      exact List.sublist_append_right _ _
  have hcount := hsub.countP_le (p := fun k => ¬ (0 < arrayindex k ∧ arrayindex k ≤ nasize))
  rw [keys_moved, List.countP_append, List.countP_reverse] at hmap
  rw [keysBeyond, Table.keys, List.countP_append]
  exact hmap.symm.le.trans (Nat.add_le_add_right hcount _)

/-- Where there is room for all keys, `resize` keeps the contents. -/
theorem WellFormed.resize_spec (h : WellFormed identity t)
    {create : Table V → LuaKey → Except Fault (Table V × Slot)} (hcreate : Creates identity create)
    {nasize nhsize : ℕ} (hnasize : nasize ≤ maxASize) (hnhsize : nhsize ≤ 2 ^ 32)
    (hroom : keysBeyond t.keys nasize ≤ nhsize) :
    2 ^ maxBits < nhsize ∧ resize identity create t nasize nhsize = .error tableOverflow ∨
      ∃ t', resize identity create t nasize nhsize = .ok t' ∧
        Resized identity t t' nasize nhsize := by
  rw [h.resize_eq]
  obtain ⟨hlength, hvalues⟩ := array_resized t nasize
  generalize harray : (if t.sizearray < nasize then setarrayvector t nasize else t) = grown
    at hlength hvalues ⊢
  rcases setnodevector_eq grown hnhsize with ⟨hlt, heq⟩ | ⟨fresh, heq, hfresh, hbare, hcapacity⟩
  · exact .inl ⟨hlt, by rw [heq]; rfl⟩
  · right
    let t₀ : Table V := { fresh with array := grown.array.take nasize }
    have hsize : t₀.sizearray = nasize := hlength
    have hbare₀ : Bare t₀ :=
      ⟨hbare.lsizenode_le, hbare.length_node, hbare.dummy, hbare.lastfree_eq, hbare.gnode_eq⟩
    have h₀ : WellFormed identity t₀ := hbare₀.wellFormed (hsize ▸ hnasize)
    have hin : ∀ key, InArray t₀ key ↔ 0 < arrayindex key ∧ arrayindex key ≤ nasize :=
      fun key => by rw [InArray, hsize]
    have hcount :
        ((moved t nasize).countP fun e => ¬ InArray t₀ e.1) ≤ keysBeyond t.keys nasize := by
      simp only [hin]
      exact countP_moved_le t nasize
    have hused : (usedNodes t₀).card = 0 := by rw [hbare₀.usedNodes_eq, Finset.card_empty]
    have hcapacity₀ : t₀.capacity = nodesFor nhsize := hcapacity
    have hnodes := le_nodesFor nhsize
    obtain ⟨t', heq', hall⟩ := reinsert_run hcreate h₀ (l := moved t nasize)
      (fun e he => (h.of_mem_moved he).1) (by omega)
    refine ⟨t', ?_, hall.wellFormed, ?_, hall.sizearray_eq.trans hsize,
      hall.capacity_eq.trans hcapacity₀, ?_⟩
    · rw [heq, ← heq', Fallible.ok_bind, hfresh]
    · rw [hall.content_eq]
      refine assign_eq (fun e he => (h.of_mem_moved he).2) ?_
      intro key hkey
      rw [h.content_of_not_moved hkey]
      split
      · rename_i hfits
        rw [h₀.content_of_at (.array ((hin key).mpr hfits))]
        exact hvalues _ (by omega)
      · rename_i hbeyond
        exact content_of_absent ⟨fun h => hbeyond ((hin key).mp h), by simp [hbare₀.gkey_eq]⟩
    · have hle := hall.used_le
      omega

/-! ## `rehash` -/

/-- The keys that `rehash` counts. -/
def countedKeys (t : Table V) (ek : LuaKey) : List LuaKey :=
  arrayKeys 0 t.array ++ (nodeKeys t.node).reverse ++ [ek]

theorem perm_countedKeys (t : Table V) (ek : LuaKey) : (countedKeys t ek).Perm (ek :: t.keys) := by
  rw [countedKeys, List.append_assoc]
  refine ((List.reverse_perm _).append_right [ek]).append_left _ |>.trans ?_
  rw [Table.keys, ← List.append_assoc]
  exact List.perm_append_singleton ek _

/-- The counts of `rehash` are those of all keys, one after the other. -/
theorem WellFormed.rehash_eq (h : WellFormed identity t)
    (create : Table V → LuaKey → Except Fault (Table V × Slot)) (ek : LuaKey) :
    let counts := countKeys (countedKeys t ek) (List.replicate (maxBits + 1) 0, 0)
    let sizes := computesizes counts.1 counts.2
    rehash identity create t ek =
      resize identity create t sizes.1 ((countedKeys t ek).length - sizes.2) := by
  have hused : (countKeys (arrayKeys 0 t.array) (List.replicate (maxBits + 1) 0, 0)).2 =
      (arrayKeys 0 t.array).length := by
    rw [countKeys_snd, Nat.zero_add, List.countP_eq_length]
    intro key hkey
    obtain ⟨i, v, hv, rfl⟩ := mem_arrayKeys.mp hkey
    have hlt : 0 + i < t.sizearray := (Nat.zero_add i).symm ▸ (List.getElem?_eq_some_iff.mp hv).1
    have hin := (h.inArray_of_lt hlt).1
    have hle := h.sizearray_le
    exact decide_eq_true ⟨hin.1, hin.2.trans (by exact_mod_cast hle)⟩
  have hlength : (countedKeys t ek).length =
      (arrayKeys 0 t.array).length + (nodeKeys t.node).length + 1 := by
    rw [countedKeys, List.length_append, List.length_append, List.length_reverse]
    rfl
  have hcounts : countKeys (countedKeys t ek) (List.replicate (maxBits + 1) 0, 0) =
      let array := countKeys (arrayKeys 0 t.array) (List.replicate (maxBits + 1) 0, 0)
      let hash := countKeys (nodeKeys t.node).reverse (array.1, 0)
      let extra := countint ek hash.1
      (extra.1, array.2 + hash.2 + extra.2) := by
    rw [countedKeys, countKeys_append, countKeys_append]
    generalize countKeys (arrayKeys 0 t.array) (List.replicate (maxBits + 1) 0, 0) = array
    rw [show array = (array.1, array.2) from rfl, countKeys_offset _ array.1]
    rfl
  intro counts sizes
  have hsizes : sizes = computesizes counts.1 counts.2 := rfl
  rw [show counts = _ from hcounts] at hsizes
  rw [rehash, numusearray_eq h.sizearray_le, numusehash_eq, hsizes, hlength, ← hused]

/-- What `rehash` does: the array gets the largest size of which more than half is in use. -/
theorem WellFormed.rehash_spec (h : WellFormed identity t)
    {create : Table V → LuaKey → Except Fault (Table V × Slot)} (hcreate : Creates identity create)
    {ek : LuaKey} (hek : t.content ek = none) :
    ∃ nasize, Best (ek :: t.keys) (maxBits + 1) nasize (keysUpTo (ek :: t.keys) nasize) ∧
      (2 ^ maxBits < keysBeyond (ek :: t.keys) nasize ∧
          rehash identity create t ek = .error tableOverflow ∨
        ∃ t', rehash identity create t ek = .ok t' ∧
          Resized identity t t' nasize (keysBeyond (ek :: t.keys) nasize)) := by
  have hperm := perm_countedKeys t ek
  have hnodup : (ek :: t.keys).Nodup :=
    List.nodup_cons.mpr ⟨fun hmem => h.mem_keys_iff.mp hmem hek, h.nodup_keys⟩
  have hzero : ∀ i, (List.replicate (maxBits + 1) 0).getD i 0 = 0 := by
    intro i
    rw [List.getD_eq_getElem?_getD, List.getElem?_replicate]
    split <;> rfl
  have hcounts : ∀ i ≤ maxBits,
      (countKeys (countedKeys t ek) (List.replicate (maxBits + 1) 0, 0)).1.getD i 0 =
        (ek :: t.keys).countP fun k => Candidate k ∧ exponent k = i := by
    intro i hi
    rw [countKeys_fst _ _ 0 (by rw [List.length_replicate]; omega), hzero, Nat.zero_add,
      hperm.countP_eq]
  have htotal : (countKeys (countedKeys t ek) (List.replicate (maxBits + 1) 0, 0)).2 =
      keysUpTo (ek :: t.keys) maxASize := by
    rw [countKeys_snd, Nat.zero_add, hperm.countP_eq]
    rfl
  have hbest := computesizes_best hnodup hcounts
  have hrehash := h.rehash_eq create ek
  dsimp only at hrehash
  rw [htotal, hperm.length_eq] at hrehash
  generalize computesizes _ _ = sizes at hbest hrehash
  obtain ⟨nasize, na⟩ := sizes
  obtain rfl : na = keysUpTo (ek :: t.keys) nasize := hbest.na_eq
  have hsum := keysUpTo_add_keysBeyond (ek :: t.keys) nasize
  have hbeyond : (ek :: t.keys).length - keysUpTo (ek :: t.keys) nasize =
      keysBeyond (ek :: t.keys) nasize := by omega
  have hnasize : nasize ≤ maxASize := hbest.le_maxASize
  have hbound := h.length_keys_le
  rw [List.length_cons] at hsum
  refine ⟨nasize, hbest, ?_⟩
  rw [hrehash, hbeyond]
  exact h.resize_spec hcreate hnasize (by omega)
    (keysBeyond_cons ek t.keys nasize ▸ Nat.le_add_right _ _)

end LuaH

end Luapb
