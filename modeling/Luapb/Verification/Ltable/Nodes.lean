import Luapb.Library.Scatter
import Luapb.Model.Ltable

/-! # Well-formed tables

What `ltable.c` keeps true of a table, how `luaH_get` finds a key in such a table, and what
assigning to a key that the table already has changes. -/

namespace Luapb

namespace LuaH

variable {V : Type} {identity : ℕ → Identity} {t : Table V}

/-! ## Nodes -/

namespace Table

theorem gnode_of_length_le {i : ℕ} (h : t.node.length ≤ i) : t.gnode i = .empty := by
  rw [gnode, List.getD_eq_getElem?_getD, List.getElem?_eq_none h]
  rfl

theorem lt_length_of_gkey {i : ℕ} (h : t.gkey i ≠ none) : i < t.node.length := by
  by_contra hle
  rw [gkey, gnode_of_length_le (Nat.le_of_not_lt hle)] at h
  exact h rfl

theorem lt_length_of_key {i : ℕ} {key : LuaKey} (h : t.gkey i = some key) : i < t.node.length :=
  lt_length_of_gkey (h ▸ Option.some_ne_none key)

theorem mem_node {n : Node V} (h : n ∈ t.node) : ∃ i, t.node[i]? = some n ∧ t.gnode i = n := by
  obtain ⟨i, hi⟩ := List.getElem?_of_mem h
  refine ⟨i, hi, ?_⟩
  rw [gnode, List.getD_eq_getElem?_getD, hi]
  rfl

theorem gnode_mem {i : ℕ} (h : i < t.node.length) : t.gnode i ∈ t.node := by
  rw [gnode, List.getD_eq_getElem?_getD, List.getElem?_eq_getElem h]
  exact List.getElem_mem h

theorem gnode_setNode (i : ℕ) (f : Node V → Node V) (j : ℕ) : (t.setNode i f).gnode j =
    if j = i ∧ i < t.node.length then f (t.gnode i) else t.gnode j := by
  simp only [gnode, setNode, List.getD_eq_getElem?_getD, List.getElem?_modify]
  by_cases hj : j = i
  · subst hj
    by_cases hlt : j < t.node.length <;> simp [hlt]
  · simp [hj, Ne.symm hj]

theorem gnode_setNode_self {i : ℕ} (h : i < t.node.length) (f : Node V → Node V) :
    (t.setNode i f).gnode i = f (t.gnode i) := by rw [gnode_setNode, if_pos ⟨rfl, h⟩]

theorem gnode_setNode_of_ne {i j : ℕ} (h : j ≠ i) (f : Node V → Node V) :
    (t.setNode i f).gnode j = t.gnode j := by rw [gnode_setNode, if_neg fun hj => h hj.1]

end Table

/-! ## Main positions -/

theorem hashpow2_lt {size : ℕ} (h : 0 < size) (n : ℕ) : hashpow2 size n < size := by
  have hle : n &&& (size - 1) ≤ size - 1 := Nat.and_le_right
  rw [hashpow2]
  omega

theorem hashmod_lt {size : ℕ} (h : 0 < size) (n : ℕ) : hashmod size n < size := by
  have hpos : 0 < (size - 1) ||| 1 := lt_of_lt_of_le Nat.one_pos Nat.right_le_or
  have hle : (size - 1) ||| 1 ≤ size - 1 + 1 := by
    have hdiv : ((size - 1) ||| 1) / 2 = (size - 1) / 2 := by
      rw [Nat.or_div_two, Nat.div_eq_of_lt Nat.one_lt_two, Nat.or_zero]
    omega
  have hlt := Nat.mod_lt n hpos
  rw [hashmod]
  omega

theorem hashnum_lt {size : ℕ} (h : 0 < size) (n : LuaNumber) : hashnum size n < size := by
  rw [hashnum]
  split
  · exact h
  · exact hashmod_lt h _

theorem mainposition_lt (identity : ℕ → Identity) (t : Table V) (key : LuaKey) :
    mainposition identity t key < t.sizenode := by
  have hpos : 0 < t.sizenode := Nat.two_pow_pos _
  cases key with
  | integer i => exact hashnum_lt hpos _
  | number n => exact hashnum_lt hpos n
  | string s => exact hashpow2_lt hpos _
  | object id =>
      rw [mainposition]
      split
      · exact hashpow2_lt hpos _
      · exact hashmod_lt hpos _

/-! ## The array -/

/-- The array has a place for the key. -/
def InArray (t : Table V) (key : LuaKey) : Prop := 0 < arrayindex key ∧ arrayindex key ≤ t.sizearray

instance (t : Table V) (key : LuaKey) : Decidable (InArray t key) :=
  inferInstanceAs (Decidable (_ ∧ _))

theorem arrayindex_eq {i : ℤ} (hle : -2 ^ 31 ≤ i) (hlt : i < 2 ^ 31) :
    arrayindex (.integer i) = i := if_pos ⟨hle, hlt⟩

theorem eq_integer_of_arrayindex_pos {key : LuaKey} (h : 0 < arrayindex key) :
    key = .integer (arrayindex key) ∧ arrayindex key < 2 ^ 31 := by
  cases key with
  | integer i =>
      rw [arrayindex] at h ⊢
      split at h
      · rename_i hi
        rw [if_pos hi]
        exact ⟨rfl, hi.2⟩
      · omega
  | number | string | object => simp [arrayindex] at h

/-! ## The invariant -/

/-- A key that `luaH_set` accepts. -/
def Storable : LuaKey → Prop
  | .number n => ¬ n.IsNaN
  | _ => True

variable (identity) in
/-- What holds of every table. -/
structure WellFormed (t : Table V) : Prop where
  sizearray_le : t.sizearray ≤ maxASize
  lsizenode_le : t.lsizenode ≤ maxBits
  length_node : t.node.length = t.sizenode
  dummy : t.isDummy = true → t.node = [.empty] ∧ t.lastfree = 0
  lastfree_le : t.lastfree ≤ t.sizenode
  used : t.isDummy = false → ∀ i, t.lastfree ≤ i → i < t.sizenode → t.gkey i ≠ none
  key_of_val : ∀ {i}, t.gval i ≠ none → t.gkey i ≠ none
  storable : ∀ {i key}, t.gkey i = some key → Storable key
  outside : ∀ {i key}, t.gkey i = some key → ¬ InArray t key
  chained : Scatter.Chained (mainposition identity t) t.gkey t.gnext

/-- Where the value of a key is. -/
inductive At (t : Table V) (key : LuaKey) : Slot → Prop
  | array (h : InArray t key) : At t key (.array (arrayindex key - 1).toNat)
  | node {i} (h : ¬ InArray t key) (hkey : t.gkey i = some key) : At t key (.node i)

/-- The table has no place for the key. -/
structure Absent (t : Table V) (key : LuaKey) : Prop where
  notInArray : ¬ InArray t key
  gkey_ne : ∀ i, t.gkey i ≠ some key

theorem at_or_absent (t : Table V) (key : LuaKey) : (∃ slot, At t key slot) ∨ Absent t key := by
  by_cases harray : InArray t key
  · exact .inl ⟨_, .array harray⟩
  · by_cases hnode : ∃ i, t.gkey i = some key
    · exact .inl ⟨_, .node harray hnode.choose_spec⟩
    · exact .inr ⟨harray, not_exists.mp hnode⟩

/-- The value of a key. -/
def Table.content (t : Table V) (key : LuaKey) : Option V :=
  if InArray t key then t.value (.array (arrayindex key - 1).toNat)
  else (t.node.find? fun n => n.key = some key).bind Node.val

/-! ## Reading -/

theorem getnum_eq_get {i : ℤ} (hle : -2 ^ 31 ≤ i) (hlt : i < 2 ^ 31) :
    getnum identity t i = get identity t (.integer i) := by
  rw [get, if_pos ⟨hle, hlt⟩]

/-- Keys that the array has no place for are looked for in the hash. -/
theorem get_of_notInArray {key : LuaKey} (harray : ¬ InArray t key) :
    get identity t key = searchKey identity t key := by
  cases key with
  | integer i =>
      rw [get, getnum]
      split
      · rename_i hi
        rw [InArray, arrayindex_eq hi.1 hi.2] at harray
        rw [if_neg (by omega)]
      · rfl
  | number | string | object => rfl

theorem get_of_inArray {key : LuaKey} (harray : InArray t key) :
    get identity t key = .ok (some (.array (arrayindex key - 1).toNat)) := by
  obtain ⟨heq, hlt⟩ := eq_integer_of_arrayindex_pos harray.1
  obtain ⟨hpos, hle⟩ := harray
  generalize arrayindex key = i at heq hpos hle hlt
  subst heq
  rw [get, if_pos ⟨by omega, hlt⟩, getnum, if_pos ⟨by omega, hle⟩]

theorem content_of_absent {key : LuaKey} (habsent : Absent t key) : t.content key = none := by
  rw [Table.content, if_neg habsent.notInArray, List.find?_eq_none.mpr]
  · rfl
  · intro n hn hkey
    obtain ⟨i, -, rfl⟩ := Table.mem_node hn
    exact habsent.gkey_ne i (of_decide_eq_true hkey)

/-- A table with the dummy node has no keys in its hash. -/
theorem WellFormed.gkey_of_dummy (h : WellFormed identity t) (hdummy : t.isDummy = true) (i : ℕ) :
    t.gkey i = none := by
  obtain ⟨hnode, -⟩ := h.dummy hdummy
  by_contra hne
  have hmem := Table.gnode_mem (Table.lt_length_of_gkey hne)
  rw [hnode, List.mem_singleton] at hmem
  rw [Table.gkey, hmem] at hne
  exact hne rfl

namespace WellFormed

variable (h : WellFormed identity t)

include h

theorem mainposition_lt_length (key : LuaKey) : mainposition identity t key < t.node.length :=
  h.length_node ▸ mainposition_lt identity t key

/-! ## Searching -/

theorem path_length_le {start : ℕ} {l : List ℕ} (hl : Links.Path t.gnext start l)
    (hstart : start < t.node.length) : l.length ≤ t.node.length :=
  hl.length_le hstart fun hnext => Table.lt_length_of_gkey (h.chained.used_of_next hnext).2

theorem search_eq_some {p : ℕ → Bool} {start i : ℕ} (hstart : start < t.node.length)
    (hreach : Links.Reaches t.gnext start i) (hp : p i = true)
    (hunique : ∀ j, p j = true → j = i) : search t p start = .ok (some i) := by
  obtain ⟨l, hl, hmem⟩ := hreach
  rw [search, hl.search_eq_some hmem hp hunique (h.path_length_le hl hstart)]

theorem searchKey_eq_some {key : LuaKey} {i : ℕ} (hkey : t.gkey i = some key) :
    searchKey identity t key = .ok (some (.node i)) := by
  rw [searchKey, h.search_eq_some (h.mainposition_lt_length key) (h.chained.reaches hkey)
    (by simp [hkey]) fun j hj => h.chained.unique (by simpa using hj) hkey]
  rfl

theorem searchKey_eq_none {key : LuaKey} (hkey : ∀ i, t.gkey i ≠ some key) :
    searchKey identity t key = .ok none := by
  have hstart := h.mainposition_lt_length key
  obtain ⟨l, hl⟩ := h.chained.linear.path (mainposition identity t key)
  rw [searchKey, search, hl.search_eq_none (fun i => by simp [hkey i]) (h.path_length_le hl hstart)]
  rfl

theorem get_of_at {key : LuaKey} {slot : Slot} (hslot : At t key slot) :
    get identity t key = .ok (some slot) := by
  cases hslot with
  | array harray => exact get_of_inArray harray
  | node harray hkey => rw [get_of_notInArray harray, h.searchKey_eq_some hkey]

theorem get_of_absent {key : LuaKey} (habsent : Absent t key) :
    get identity t key = .ok none := by
  rw [get_of_notInArray habsent.notInArray, h.searchKey_eq_none habsent.gkey_ne]

/-! ## Contents -/

theorem content_of_at {key : LuaKey} {slot : Slot} (hslot : At t key slot) :
    t.content key = t.value slot := by
  cases hslot with
  | array harray => rw [Table.content, if_pos harray]
  | @node i harray hkey =>
      have hsome : (t.node.find? fun n => n.key = some key).isSome :=
        List.find?_isSome.mpr ⟨_, Table.gnode_mem (Table.lt_length_of_key hkey),
          decide_eq_true hkey⟩
      obtain ⟨n, hn⟩ := Option.isSome_iff_exists.mp hsome
      obtain ⟨j, -, hj⟩ := Table.mem_node (List.mem_of_find?_eq_some hn)
      have hjkey : t.gkey j = some key := by
        rw [Table.gkey, hj]
        simpa using List.find?_some hn
      rw [Table.content, if_neg harray, hn, ← hj, h.chained.unique hjkey hkey]
      rfl

/-- `lua_rawget` finds the value of the key. -/
theorem rawget_eq (key : LuaKey) : rawget identity t key = .ok (t.content key) := by
  rcases at_or_absent t key with ⟨slot, hslot⟩ | habsent
  · rw [rawget, h.get_of_at hslot, h.content_of_at hslot]
    rfl
  · rw [rawget, h.get_of_absent habsent, content_of_absent habsent]
    rfl

end WellFormed

/-! ## Assigning to a key of the table -/

namespace Table

/-- An assignment changes neither keys nor links. -/
theorem gkey_write (t : Table V) (slot : Slot) (v : Option V) : (t.write slot v).gkey = t.gkey := by
  funext j
  cases slot with
  | array i => rfl
  | node i =>
      simp only [write, gkey, gnode_setNode]
      split
      · rename_i hj
        rw [hj.1]
      · rfl

theorem gnext_write (t : Table V) (slot : Slot) (v : Option V) :
    (t.write slot v).gnext = t.gnext := by
  funext j
  cases slot with
  | array i => rfl
  | node i =>
      simp only [write, gnext, gnode_setNode]
      split
      · rename_i hj
        rw [hj.1]
      · rfl

@[simp] theorem sizearray_write (t : Table V) (slot : Slot) (v : Option V) :
    (t.write slot v).sizearray = t.sizearray := by
  cases slot with
  | array i => exact List.length_set
  | node i => rfl

@[simp] theorem lsizenode_write (t : Table V) (slot : Slot) (v : Option V) :
    (t.write slot v).lsizenode = t.lsizenode := by cases slot <;> rfl

@[simp] theorem isDummy_write (t : Table V) (slot : Slot) (v : Option V) :
    (t.write slot v).isDummy = t.isDummy := by cases slot <;> rfl

@[simp] theorem lastfree_write (t : Table V) (slot : Slot) (v : Option V) :
    (t.write slot v).lastfree = t.lastfree := by cases slot <;> rfl

@[simp] theorem length_node_write (t : Table V) (slot : Slot) (v : Option V) :
    (t.write slot v).node.length = t.node.length := by
  cases slot with
  | array i => rfl
  | node i => exact List.length_modify ..

@[simp] theorem sizenode_write (t : Table V) (slot : Slot) (v : Option V) :
    (t.write slot v).sizenode = t.sizenode := by rw [sizenode, lsizenode_write, sizenode]

end Table

theorem mainposition_congr {t' : Table V} (h : t'.lsizenode = t.lsizenode) :
    mainposition identity t' = mainposition identity t := by
  funext key
  cases key <;> simp only [mainposition, Table.sizenode, h]

theorem inArray_congr {t' : Table V} (h : t'.sizearray = t.sizearray) (key : LuaKey) :
    InArray t' key ↔ InArray t key := by rw [InArray, InArray, h]

theorem At.write {key : LuaKey} {slot : Slot} (h : At t key slot) (slot' : Slot) (v : Option V) :
    At (t.write slot' v) key slot := by
  have hsize := t.sizearray_write slot' v
  cases h with
  | array harray => exact .array ((inArray_congr hsize key).mpr harray)
  | node harray hkey =>
      exact .node (fun h => harray ((inArray_congr hsize key).mp h))
        (by rw [Table.gkey_write, hkey])

theorem Absent.write {key : LuaKey} (h : Absent t key) (slot : Slot) (v : Option V) :
    Absent (t.write slot v) key :=
  ⟨fun harray => h.notInArray ((inArray_congr (t.sizearray_write slot v) key).mp harray),
    fun i => by rw [Table.gkey_write]; exact h.gkey_ne i⟩

theorem At.value_write {key : LuaKey} {slot : Slot} (h : At t key slot) (v : Option V) :
    (t.write slot v).value slot = v := by
  cases h with
  | array harray =>
      have hlt : (arrayindex key - 1).toNat < t.array.length := by
        have hle := harray.2
        have hpos := harray.1
        rw [Table.sizearray] at hle
        omega
      rw [Table.write, Table.value, List.getElem?_set, if_pos rfl, if_pos hlt]
      rfl
  | node harray hkey =>
      rw [Table.write, Table.value, Table.gval,
        Table.gnode_setNode_self (Table.lt_length_of_key hkey)]

/-- Different keys have their values in different places. -/
theorem At.slot_ne {key key' : LuaKey} {slot slot' : Slot} (h : At t key slot)
    (h' : At t key' slot') (hne : key ≠ key') : slot ≠ slot' := by
  rintro rfl
  cases h with
  | array harray =>
      generalize hslot : Slot.array _ = slot at h'
      cases h' with
      | array harray' =>
          have hindex := Slot.array.inj hslot
          have hkey := (eq_integer_of_arrayindex_pos harray.1).1
          have hkey' := (eq_integer_of_arrayindex_pos harray'.1).1
          have hpos := harray.1
          have hpos' := harray'.1
          exact hne (by rw [hkey, hkey', show arrayindex key = arrayindex key' by omega])
      | node => cases hslot
  | node harray hkey =>
      cases h' with
      | node harray' hkey' => exact hne (Option.some.inj (hkey.symm.trans hkey'))

theorem Table.value_write_of_ne {slot slot' : Slot} (h : slot ≠ slot') (v : Option V) :
    (t.write slot v).value slot' = t.value slot' := by
  cases slot with
  | array i =>
      cases slot' with
      | array j =>
          have hij : i ≠ j := fun heq => h (congrArg _ heq)
          simp [write, value, hij]
      | node j => rfl
  | node i =>
      cases slot' with
      | array j => rfl
      | node j =>
          have hij : j ≠ i := fun heq => h (congrArg _ heq.symm)
          rw [write, value, value, gval, gnode_setNode_of_ne hij, gval]

theorem WellFormed.write (h : WellFormed identity t) {key : LuaKey} {slot : Slot}
    (hslot : At t key slot) (v : Option V) : WellFormed identity (t.write slot v) where
  sizearray_le := by simpa using h.sizearray_le
  lsizenode_le := by simpa using h.lsizenode_le
  length_node := by simpa using h.length_node
  dummy hdummy := by
    obtain ⟨hnode, hfree⟩ := h.dummy (by simpa using hdummy)
    refine ⟨?_, by simpa using hfree⟩
    cases hslot with
    | array => exact hnode
    | node harray hkey =>
        have hempty := h.gkey_of_dummy (by simpa using hdummy)
        cases (hempty _).symm.trans hkey
  lastfree_le := by simpa using h.lastfree_le
  used hdummy i hle hlt := by
    rw [Table.gkey_write]
    exact h.used (by simpa using hdummy) i (by simpa using hle) (by simpa using hlt)
  key_of_val {i} hval := by
    rw [Table.gkey_write]
    cases hslot with
    | array => exact h.key_of_val hval
    | @node j harray hkey =>
        by_cases hij : i = j
        · simp [hij, hkey]
        · refine h.key_of_val ?_
          rwa [Table.write, Table.gval, Table.gnode_setNode_of_ne hij] at hval
  storable {i key} hkey := by
    rw [Table.gkey_write] at hkey
    exact h.storable hkey
  outside {i key} hkey harray := by
    rw [Table.gkey_write] at hkey
    exact h.outside hkey ((inArray_congr (t.sizearray_write slot v) key).mp harray)
  chained := by
    rw [mainposition_congr (t.lsizenode_write slot v), Table.gkey_write, Table.gnext_write]
    exact h.chained

/-- An assignment to a key that the table has changes the value of this key only. -/
theorem WellFormed.content_write (h : WellFormed identity t) {key : LuaKey} {slot : Slot}
    (hslot : At t key slot) (v : Option V) :
    (t.write slot v).content = Function.update t.content key v := by
  have hwrite := h.write hslot v
  funext key'
  by_cases hkey : key' = key
  · subst hkey
    rw [Function.update_self, hwrite.content_of_at (hslot.write slot v), hslot.value_write]
  · rw [Function.update_of_ne hkey]
    rcases at_or_absent t key' with ⟨slot', hslot'⟩ | habsent
    · rw [hwrite.content_of_at (hslot'.write slot v), h.content_of_at hslot',
        Table.value_write_of_ne (hslot.slot_ne hslot' (Ne.symm hkey))]
    · rw [content_of_absent (habsent.write slot v), content_of_absent habsent]

end LuaH

end Luapb
