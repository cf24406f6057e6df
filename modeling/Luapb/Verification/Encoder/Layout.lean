import Luapb.Model.Reference
import Luapb.Model.Schemas
import Luapb.Model.Table
import Luapb.Verification.Encoder.Parts
import Luapb.Verification.Scalar
import Mathlib.Data.List.Induction
import Mathlib.Data.List.Nodup
import Mathlib.Data.List.ReduceOption

/-! # The order of a list

`lua_next` visits the array of a table and then the nodes of its hash. The elements of a
repeated field are written in this order, which is that of their indices exactly if the
nodes have their keys in ascending order. -/

namespace Luapb

open PBStream

/-! ## Traversal -/

section

variable {α : Type}

theorem reduceOption_eq_nil {l : List (Option α)} (h : l.findSome? id = none) :
    l.reduceOption = [] :=
  List.filterMap_eq_nil_iff.mpr (List.findSome?_eq_none_iff.mp h)

/-- The first slot that is not empty, and those behind it. -/
theorem exists_slot {l : List (Option α)} {a : α} (h : l.findSome? id = some a) :
    ∃ j : ℕ, l[j]? = some (some a) ∧ l.reduceOption = a :: (l.drop (j + 1)).reduceOption := by
  induction l with
  | nil => cases h
  | cons x l ih =>
      cases x with
      | none =>
          obtain ⟨j, hj, hrest⟩ := ih (by simpa using h)
          exact ⟨j + 1, hj, hrest⟩
      | some b =>
          obtain rfl : b = a := by simpa using h
          exact ⟨0, rfl, rfl⟩

end

namespace Table

variable {V : Type} (t : Table V)

/-- The slots in the order in which they are visited. -/
def slots : List (Option (LuaKey × V)) := t.arraySlots ++ t.node

/-- The entries in the order in which they are visited. -/
def entries : List (LuaKey × V) := t.slots.reduceOption

variable {t}

theorem length_arraySlots : t.arraySlots.length = t.array.length := by simp [arraySlots]

theorem arrayindex_natCast {i : ℕ} (h : i < 2 ^ 31) : arrayindex (.integer i) = i := by
  rw [arrayindex, if_pos (by omega)]

/-- A key is found in the node that has it. -/
theorem findIdx?_key {l : List (Option (LuaKey × V))}
    (hnodup : (l.reduceOption.map (·.1)).Nodup) {j : ℕ} {e : LuaKey × V}
    (h : l[j]? = some (some e)) : (l.findIdx? fun n => n.any (·.1 = e.1)) = some j := by
  induction l generalizing j with
  | nil => cases h
  | cons x l ih =>
      cases j with
      | zero =>
          obtain rfl : x = some e := by simpa using h
          simp [List.findIdx?_cons]
      | succ j =>
          have hj : l[j]? = some (some e) := h
          have hmem : e ∈ l.reduceOption :=
            List.reduceOption_mem_iff.mpr (List.mem_of_getElem? hj)
          cases x with
          | none => simp [List.findIdx?_cons, ih hnodup hj]
          | some d =>
              obtain ⟨hhead, hrest⟩ := List.nodup_cons.mp hnodup
              have hne : d.1 ≠ e.1 := by
                intro heq
                exact hhead (List.mem_map.mpr ⟨e, hmem, heq.symm⟩)
              simp [List.findIdx?_cons, hne, ih hrest hj]

/-- The traversal goes on behind the slot of the key. -/
theorem findindex_slot {j : ℕ} {e : LuaKey × V} (h : t.slots[j]? = some (some e)) :
    t.findindex (some e.1) = .ok (j + 1) := by
  rw [slots] at h
  by_cases hj : j < t.array.length
  · have hlt := t.sizearray_lt
    rw [List.getElem?_append_left (length_arraySlots ▸ hj), arraySlots, List.getElem?_mapIdx,
      List.getElem?_eq_getElem hj] at h
    obtain ⟨v, -, rfl⟩ := Option.map_eq_some_iff.mp (Option.some.inj h)
    have hindex : arrayindex (.integer ((j : ℤ) + 1)) = (j : ℤ) + 1 := by
      exact_mod_cast arrayindex_natCast (i := j + 1) (by omega)
    simp only [findindex, hindex]
    rw [if_pos (by omega)]
    rfl
  · have hle : t.array.length ≤ j := Nat.le_of_not_lt hj
    rw [List.getElem?_append_right (length_arraySlots ▸ hle), length_arraySlots] at h
    have hmem : e ∈ t.node.reduceOption := List.reduceOption_mem_iff.mpr (List.mem_of_getElem? h)
    simp only [findindex, if_neg (t.outside e hmem), findIdx?_key t.nodup h]
    congr 1
    omega

/-- A step returns the first slot from the index on that is not empty. -/
theorem luaHNext_eq {key : Option LuaKey} {i : ℕ} (h : t.findindex key = .ok i) :
    t.luaHNext key = .ok ((t.slots.drop i).findSome? id) := by
  rw [luaHNext, h, Fallible.ok_bind, slots, List.drop_append, List.findSome?_append,
    length_arraySlots]
  rfl

theorem entriesFrom_eq (fuel : ℕ) {key : Option LuaKey} {i : ℕ} (h : t.findindex key = .ok i)
    (hi : i ≤ t.slots.length) (hfuel : t.slots.length < fuel + i) :
    t.entriesFrom fuel key = .ok (t.slots.drop i).reduceOption := by
  induction fuel generalizing key i with
  | zero => omega
  | succ fuel ih =>
      rw [entriesFrom, luaHNext_eq h, Fallible.ok_bind]
      cases hnext : (t.slots.drop i).findSome? id with
      | none => rw [reduceOption_eq_nil hnext]; rfl
      | some e =>
          obtain ⟨j, hj, hrest⟩ := exists_slot hnext
          rw [List.getElem?_drop] at hj
          have hlt := (List.getElem?_eq_some_iff.mp hj).1
          have hstep := ih (findindex_slot hj) (by omega) (by omega)
          rw [List.drop_drop] at hrest
          simp only [hstep, Fallible.ok_bind]
          rw [hrest]
          rfl

/-- An iteration visits the entries slot by slot. -/
theorem iterate_eq (t : Table V) : t.iterate = .ok t.entries := by
  have hlen : t.slots.length = t.array.length + t.node.length := by
    rw [slots, List.length_append, length_arraySlots]
  exact entriesFrom_eq _ rfl (Nat.zero_le _) (by omega)

/-! ## Layouts of lists -/

/-- A layout with a value for each key. -/
def fill (t : Table Unit) (value : LuaKey → V) : Table V where
  array := t.array.mapIdx fun i v? => v?.map fun _ => value (.integer (i + 1))
  node := t.node.map (Option.map fun e => (e.1, value e.1))
  sizearray_lt := by
    rw [List.length_mapIdx]
    exact t.sizearray_lt
  outside := by
    intro e he
    rw [List.reduceOption_map] at he
    obtain ⟨e', he', rfl⟩ := List.mem_map.mp he
    rw [List.length_mapIdx]
    exact t.outside e' he'
  nodup := by
    rw [List.reduceOption_map, List.map_map]
    exact t.nodup

theorem entries_fill (t : Table Unit) (value : LuaKey → V) :
    (t.fill value).entries = (t.entries.map (·.1)).map fun k => (k, value k) := by
  have hslots : (t.fill value).slots = t.slots.map (Option.map fun e => (e.1, value e.1)) := by
    have harray : (t.fill value).arraySlots =
        t.arraySlots.map (Option.map fun e => (e.1, value e.1)) := by
      apply List.ext_getElem?
      intro i
      simp [arraySlots, fill, Function.comp_def]
    rw [slots, harray, slots, List.map_append]
    rfl
  rw [entries, hslots, List.reduceOption_map, List.map_map]
  rfl

/-- The keys are the integers from 1 to `n`. -/
def HasKeys (t : Table V) (n : ℕ) : Prop :=
  ∀ k, k ∈ t.entries.map (·.1) ↔ ∃ i < n, k = .integer ((i : ℕ) + 1)

/-- The order of indices. -/
def Below (k k' : LuaKey) : Prop := ∃ i j, k = .integer i ∧ k' = .integer j ∧ i < j

/-- The nodes of the hash have their keys in ascending order. -/
def Ascending (t : Table V) : Prop := (t.node.reduceOption.map (·.1)).Pairwise Below

theorem Below.irrefl (k : LuaKey) : ¬ Below k k := by
  rintro ⟨i, j, rfl, hj, hlt⟩
  obtain rfl := LuaKey.integer.inj hj
  exact lt_irrefl _ hlt

theorem Below.asymm {k k' : LuaKey} (h : Below k k') (h' : Below k' k) : k = k' := by
  obtain ⟨i, j, rfl, rfl, hlt⟩ := h
  obtain ⟨i', j', hi, hj, hlt'⟩ := h'
  obtain rfl := LuaKey.integer.inj hi
  obtain rfl := LuaKey.integer.inj hj
  omega

instance : Std.Irrefl Below := ⟨Below.irrefl⟩

/-- The keys from 1 to `n`, as `sequence` has them. -/
def indices (n : ℕ) : List LuaKey := (List.range n).map fun i : ℕ => .integer (i + 1)

theorem mem_indices {n : ℕ} {k : LuaKey} : k ∈ indices n ↔ ∃ i < n, k = .integer ((i : ℕ) + 1) := by
  simp only [indices, List.mem_map, List.mem_range, eq_comm]

theorem pairwise_indices (n : ℕ) : (indices n).Pairwise Below := by
  refine List.Pairwise.map _ ?_ List.pairwise_lt_range
  intro i j hlt
  exact ⟨_, _, rfl, rfl, by omega⟩

/-- The array has its keys in ascending order. -/
theorem arraySlots_sublist (t : Table V) :
    (t.arraySlots.reduceOption.map (·.1)).Sublist (indices t.array.length) := by
  rw [arraySlots]
  induction t.array using List.reverseRecOn with
  | nil => exact .slnil
  | append_singleton l v? ih =>
      have hindices : indices (l ++ [v?]).length =
          indices l.length ++ [.integer ((l.length : ℤ) + 1)] := by
        simp [indices, List.range_succ]
      rw [List.mapIdx_concat, List.reduceOption_append, List.reduceOption_singleton,
        List.map_append, hindices]
      apply ih.append
      cases v? with
      | none => exact List.nil_sublist _
      | some v => exact List.Sublist.refl _

theorem keys_entries (t : Table V) : t.entries.map (·.1) =
    t.arraySlots.reduceOption.map (·.1) ++ t.node.reduceOption.map (·.1) := by
  rw [entries, slots, List.reduceOption_append, List.map_append]

/-- An index in the hash is beyond the array. -/
theorem HasKeys.below {n : ℕ} (h : t.HasKeys n) {k k' : LuaKey}
    (hk : k ∈ t.arraySlots.reduceOption.map (·.1)) (hk' : k' ∈ t.node.reduceOption.map (·.1)) :
    Below k k' := by
  obtain ⟨i, hi, rfl⟩ := mem_indices.mp (t.arraySlots_sublist.subset hk)
  obtain ⟨j, -, rfl⟩ := (h k').mp (keys_entries t ▸ List.mem_append_right _ hk')
  refine ⟨_, _, rfl, rfl, ?_⟩
  obtain ⟨e, he, hkey⟩ := List.mem_map.mp hk'
  have hsize := t.sizearray_lt
  have houtside := t.outside e he
  rw [hkey] at houtside
  by_contra hle
  have hindex : arrayindex (.integer ((j : ℤ) + 1)) = (j : ℤ) + 1 := by
    exact_mod_cast arrayindex_natCast (i := j + 1) (by omega)
  rw [hindex] at houtside
  omega

theorem HasKeys.nodup {n : ℕ} (h : t.HasKeys n) : (t.entries.map (·.1)).Nodup := by
  rw [keys_entries]
  refine List.nodup_append.mpr ⟨?_, t.nodup, ?_⟩
  · exact (pairwise_indices _).nodup.sublist t.arraySlots_sublist
  · rintro k hk _ hk' rfl
    exact Below.irrefl k (h.below hk hk')

theorem HasKeys.perm {n : ℕ} (h : t.HasKeys n) : (t.entries.map (·.1)).Perm (indices n) :=
  (List.perm_ext_iff_of_nodup h.nodup (pairwise_indices n).nodup).mpr fun k =>
    (h k).trans mem_indices.symm

/-- The keys are visited in ascending order exactly if those in the hash are. -/
theorem HasKeys.ascending_iff {n : ℕ} (h : t.HasKeys n) :
    t.Ascending ↔ t.entries.map (·.1) = indices n := by
  constructor
  · intro hnode
    have hsorted : (t.entries.map (·.1)).Pairwise Below := by
      rw [keys_entries]
      refine List.pairwise_append.mpr ⟨?_, hnode, fun k hk k' hk' => h.below hk hk'⟩
      exact (pairwise_indices _).sublist t.arraySlots_sublist
    exact h.perm.eq_of_pairwise (fun _ _ _ _ => Below.asymm) hsorted (pairwise_indices n)
  · intro heq
    have hsorted := pairwise_indices n
    rw [← heq, keys_entries] at hsorted
    exact (List.pairwise_append.mp hsorted).2.1

end Table

/-! ## The records of a list -/

/-- Lists of one length differ somewhere. -/
theorem exists_first_difference {α : Type} {xs ys : List α} (hlen : xs.length = ys.length)
    (hne : xs ≠ ys) : ∃ front x y xs' ys', xs = front ++ x :: xs' ∧ ys = front ++ y :: ys' ∧
      x ≠ y := by
  induction xs generalizing ys with
  | nil => exact absurd (List.length_eq_zero_iff.mp hlen.symm).symm hne
  | cons x xs ih =>
      cases ys with
      | nil => cases hlen
      | cons y ys =>
          by_cases hxy : x = y
          · subst hxy
            obtain ⟨front, a, b, xs', ys', hxs, hys, hab⟩ :=
              ih (Nat.succ.inj hlen) fun heq => hne (congrArg _ heq)
            exact ⟨x :: front, a, b, xs', ys', by rw [hxs]; rfl, by rw [hys]; rfl, hab⟩
          · exact ⟨[], x, y, xs, ys, rfl, rfl, hxy⟩

section

variable {M : Type} {P : Platform} {W : WireFormatLite} {L : LuaState} {schema : Schema M}

theorem Record.deterministic {fuel : ℕ} {part : FieldDescriptor M × L.Value} {bytes bytes' : Bytes}
    (h : Record P W L schema fuel part bytes) (h' : Record P W L schema fuel part bytes') :
    bytes = bytes' := by
  cases htype : part.1.type.messageType? with
  | none => exact Except.ok.inj ((h.scalar_eq htype).symm.trans (h'.scalar_eq htype))
  | some messageType =>
      obtain ⟨size, payload, hsize, hpayload, rfl⟩ := h.message_eq htype
      obtain ⟨size', payload', hsize', hpayload', rfl⟩ := h'.message_eq htype
      obtain rfl := Except.ok.inj (hsize.symm.trans hsize')
      obtain rfl := Except.ok.inj (hpayload.symm.trans hpayload')
      rfl

theorem records_deterministic {fuel : ℕ} {parts : List (FieldDescriptor M × L.Value)}
    {records records' : List Bytes} (h : List.Forall₂ (Record P W L schema fuel) parts records)
    (h' : List.Forall₂ (Record P W L schema fuel) parts records') : records = records' :=
  List.right_unique_forall₂' (fun _ _ _ h h' => h.deterministic h') h h'

/-- The repeated branches of `RawEncode` append the records of the elements in the order in
which they are visited. -/
theorem entryEncode_list {fuel : ℕ} {msgD : M} {fd : FieldDescriptor M} {key : LuaKey}
    (hkey : keyName P key = .ok fd.name) (hmem : fd ∈ (schema msgD).field)
    (hmany : fd.isRepeated = true) {list : L.Value} {entries : List (LuaKey × L.Value)}
    (hlist : L.view list = .table entries) {stream out : Bytes} :
    entryEncode P W L schema (rawByteSize P W L schema fuel) (rawEncode P W L schema fuel) msgD
        stream (key, list) = .ok out ↔
      ∃ records, List.Forall₂ (Record P W L schema fuel) (entries.map fun e => (fd, e.2)) records ∧
        out = stream ++ records.flatten := by
  have hparts : EntryParts P L schema msgD (key, list) (entries.map fun e => (fd, e.2)) :=
    .repeated hkey (Descriptor.findFieldByName_of_mem hmem) hmany hlist
  rw [entryEncode_eq_entryPass, hparts.entryPass,
    Fallible.foldlM_eq_ok (partEncode_eq_ok (rawEncode_appends fuel))]
  simp only [foldl_append]
  rfl

end

/-! ## Index order -/

section

variable {M : Type} {P : Platform} {W : WireFormatLite}

variable (P W) in
/-- Whatever elements a list of this layout has, in whatever message, the repeated branches
of `RawEncode` append the records of `t[1]` to `t[n]` in this order. -/
def KeepsIndexOrder (fd : FieldDescriptor M) (t : Table Unit) (n : ℕ) : Prop :=
  ∀ (L : LuaState) (schema : Schema M) (fuel : ℕ) (msgD : M) (key : LuaKey) (list : L.Value)
    (value : LuaKey → L.Value) (entries : List (LuaKey × L.Value)) (stream out : Bytes),
    keyName P key = .ok fd.name → fd ∈ (schema msgD).field →
    (t.fill value).iterate = .ok entries → L.view list = .table entries →
    entryEncode P W L schema (rawByteSize P W L schema fuel) (rawEncode P W L schema fuel) msgD
      stream (key, list) = .ok out →
    ∃ records, List.Forall₂ (Record P W L schema fuel)
        ((List.range n).map fun i => (fd, value (.integer ((i : ℕ) + 1)))) records ∧
      out = stream ++ records.flatten

variable (P W) in
/-- A field that can tell two values apart: neither record is the beginning of the other. -/
def Distinguishes (fd : FieldDescriptor M) : Prop :=
  ∃ (schema : Schema M) (msgD : M) (fuel : ℕ) (v w : LuaTree) (bytes bytes' : Bytes),
    fd ∈ (schema msgD).field ∧ Record P W LuaTree.state schema fuel (fd, v) bytes ∧
      Record P W LuaTree.state schema fuel (fd, w) bytes' ∧
      ¬ bytes <+: bytes' ∧ ¬ bytes' <+: bytes

theorem elements_eq {V : Type} (fd : FieldDescriptor M) (n : ℕ) (value : LuaKey → V) :
    ((List.range n).map fun i => (fd, value (.integer ((i : ℕ) + 1)))) =
      (Table.indices n).map fun k => (fd, value k) := by
  rw [Table.indices, List.map_map]
  rfl

theorem Table.Ascending.keepsIndexOrder {t : Table Unit} {n : ℕ} (hkeys : t.HasKeys n)
    (h : t.Ascending) {fd : FieldDescriptor M} (hmany : fd.isRepeated = true) :
    KeepsIndexOrder P W fd t n := by
  intro L schema fuel msgD key list value entries stream out hkey hmem hiterate hlist hout
  rw [Table.iterate_eq, Table.entries_fill, hkeys.ascending_iff.mp h] at hiterate
  obtain rfl := Except.ok.inj hiterate
  rw [entryEncode_list hkey hmem hmany hlist, List.map_map] at hout
  rw [elements_eq]
  exact hout

/-- If the keys are not in order, one element that differs from the others shows it. -/
theorem KeepsIndexOrder.ascending {t : Table Unit} {n : ℕ} (hkeys : t.HasKeys n)
    {fd : FieldDescriptor M} (hmany : fd.isRepeated = true) (hdist : Distinguishes P W fd)
    (h : KeepsIndexOrder P W fd t n) : t.Ascending := by
  rw [hkeys.ascending_iff]
  by_contra hne
  obtain ⟨front, x, y, xs, ys, hxs, hys, hxy⟩ := exists_first_difference hkeys.perm.length_eq hne
  obtain ⟨schema, msgD, fuel, v, w, bytes, bytes', hmem, hv, hw, hprefix, hprefix'⟩ := hdist
  let value : LuaKey → LuaTree.state.Value := fun k => if k = y then v else w
  let record : LuaKey → Bytes := fun k => if k = y then bytes else bytes'
  have hrecord : ∀ ks : List LuaKey, List.Forall₂ (Record P W LuaTree.state schema fuel)
      (ks.map fun k => (fd, value k)) (ks.map record) := by
    intro ks
    rw [List.forall₂_map_left_iff, List.forall₂_map_right_iff, List.forall₂_same]
    intro k _
    by_cases hk : k = y
    · have hvalue : value k = v := if_pos hk
      have hbytes : record k = bytes := if_pos hk
      rwa [hvalue, hbytes]
    · have hvalue : value k = w := if_neg hk
      have hbytes : record k = bytes' := if_neg hk
      rwa [hvalue, hbytes]
  let list : LuaTree.state.Value := LuaTree.table (t.fill value).entries
  have hlist : LuaTree.state.view list = .table (t.fill value).entries := rfl
  have hkey : keyName P (.string fd.name) = .ok fd.name :=
    congrArg Except.ok (cstr_of_noNul fd.name_noNul)
  have hvisited : List.Forall₂ (Record P W LuaTree.state schema fuel)
      ((t.fill value).entries.map fun e => (fd, e.2)) ((t.entries.map (·.1)).map record) := by
    rw [Table.entries_fill, List.map_map]
    exact hrecord (t.entries.map (·.1))
  have hout : entryEncode P W LuaTree.state schema _ _ msgD [] _ = .ok _ :=
    (entryEncode_list hkey hmem hmany hlist).mpr ⟨_, hvisited, rfl⟩
  obtain ⟨records, hrecords, heq⟩ := h LuaTree.state schema fuel msgD _ _ value _ [] _ hkey hmem
    (Table.iterate_eq _) hlist hout
  rw [elements_eq] at hrecords
  obtain rfl : records = (Table.indices n).map record :=
    records_deterministic hrecords (hrecord _)
  -- the records before the first difference are the same
  rw [hxs, hys] at heq
  simp only [List.map_append, List.map_cons, List.flatten_append, List.flatten_cons,
    List.nil_append, List.append_cancel_left_eq, record, if_neg hxy, if_true] at heq
  have hleft : bytes' <+: bytes' ++ (xs.map record).flatten := List.prefix_append _ _
  have hright : bytes <+: bytes' ++ (xs.map record).flatten := ⟨_, heq.symm⟩
  rcases List.prefix_or_prefix_of_prefix hleft hright with hlr | hrl
  · exact hprefix' hlr
  · exact hprefix hrl

/-- Every repeated field keeps the index order of a list if the nodes of the hash have their
keys in ascending order, and none that can tell two values apart does so otherwise. -/
theorem keepsIndexOrder_iff {t : Table Unit} {n : ℕ} (hkeys : t.HasKeys n) :
    (t.Ascending → ∀ fd : FieldDescriptor M, fd.isRepeated = true → KeepsIndexOrder P W fd t n) ∧
      ∀ fd : FieldDescriptor M, fd.isRepeated = true → Distinguishes P W fd →
        (KeepsIndexOrder P W fd t n ↔ t.Ascending) :=
  ⟨fun h _ hmany => h.keepsIndexOrder hkeys hmany, fun _ hmany hdist =>
    ⟨fun h => h.ascending hkeys hmany hdist, fun h => h.keepsIndexOrder hkeys hmany⟩⟩

end

theorem Table.hasKeys_of_perm {V : Type} {t : Table V} {n : ℕ}
    (h : (t.entries.map (·.1)).Perm (Table.indices n)) : t.HasKeys n :=
  fun _ => h.mem_iff.trans Table.mem_indices

/-! ## Two layouts of a list of two -/

namespace AddressBook

/-- The layout of `{x, y}`. -/
def listed : Table Unit where
  array := [some (), some ()]
  node := []
  sizearray_lt := by decide
  outside _ h := nomatch h
  nodup := by decide

/-- The layout after `t[1] = x; t[2] = y` where the hash had eight nodes, all free: the
key 1 goes to node 4, and the key 2 to node 1. -/
def hashed : Table Unit where
  array := []
  node := [none, some (.integer 2, ()), none, none, some (.integer 1, ()), none, none, none]
  sizearray_lt := by decide
  outside := by decide
  nodup := by decide

theorem listed_hasKeys : listed.HasKeys 2 := Table.hasKeys_of_perm (by decide)

theorem hashed_hasKeys : hashed.HasKeys 2 := Table.hasKeys_of_perm (by decide)

end AddressBook

theorem distinguishes_test : Distinguishes (.plain .x64) .reference AddressBook.test :=
  ⟨AddressBook.schema, .person, 0, .number (.ofInt Ieee754.binary64 1),
    .number (.ofInt Ieee754.binary64 2), [40, 1], [40, 2], AddressBook.test_mem,
    .scalar rfl (by decide +kernel), .scalar rfl (by decide +kernel), by decide, by decide⟩

/-- A list that is all in the array. -/
theorem keepsIndexOrder_listed :
    KeepsIndexOrder (.plain .x64) .reference AddressBook.test AddressBook.listed 2 :=
  ((keepsIndexOrder_iff AddressBook.listed_hasKeys).2 AddressBook.test rfl distinguishes_test).mpr
    .nil

/-- The elements 1 and 2 in the other layout come out as 2 and 1. -/
theorem not_keepsIndexOrder_hashed :
    AddressBook.hashed.HasKeys 2 ∧
      ¬ KeepsIndexOrder (.plain .x64) .reference AddressBook.test AddressBook.hashed 2 := by
  refine ⟨AddressBook.hashed_hasKeys, ?_⟩
  intro h
  let value : LuaKey → LuaTree := fun k =>
    .number (.ofInt Ieee754.binary64 (if k = .integer 1 then 1 else 2))
  obtain ⟨records, hrecords, hout⟩ := h LuaTree.state AddressBook.schema 0 .person
    (.string AddressBook.test.name) (.table (AddressBook.hashed.fill value).entries) value _ []
    [40, 2, 40, 1] (by decide) AddressBook.test_mem (Table.iterate_eq _) rfl (by decide +kernel)
  have hexpected : List.Forall₂ (Record (.plain .x64) .reference LuaTree.state AddressBook.schema 0)
      ((List.range 2).map fun i => (AddressBook.test, value (.integer ((i : ℕ) + 1))))
      [[40, 1], [40, 2]] :=
    .cons (.scalar rfl (by decide +kernel)) (.cons (.scalar rfl (by decide +kernel)) .nil)
  obtain rfl := records_deterministic hrecords hexpected
  exact absurd hout (by decide)

end Luapb
