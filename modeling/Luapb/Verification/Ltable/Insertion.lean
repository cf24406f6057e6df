import Luapb.Verification.Ltable.Nodes
import Mathlib.Data.Finset.Filter

/-! # A key more

`newkey` where the hash has room: the key gets a node in which it can be found, and nothing
else changes, though a node may move. -/

namespace Luapb

namespace LuaH

variable {V : Type} {identity : ℕ → Identity} {t : Table V}

namespace Table

variable {i : ℕ} (hi : i < t.node.length) (f : Node V → Node V)

include hi

theorem gkey_setNode : (t.setNode i f).gkey = Function.update t.gkey i (f (t.gnode i)).key := by
  funext j
  rw [Function.update_apply, gkey, gnode_setNode, gkey]
  by_cases hj : j = i <;> simp [hj, hi]

theorem gval_setNode : (t.setNode i f).gval = Function.update t.gval i (f (t.gnode i)).val := by
  funext j
  rw [Function.update_apply, gval, gnode_setNode, gval]
  by_cases hj : j = i <;> simp [hj, hi]

theorem gnext_setNode : (t.setNode i f).gnext = Function.update t.gnext i (f (t.gnode i)).next := by
  funext j
  rw [Function.update_apply, gnext, gnode_setNode, gnext]
  by_cases hj : j = i <;> simp [hj, hi]

omit hi in
@[simp] theorem length_setNode (i : ℕ) : (t.setNode i f).node.length = t.node.length :=
  List.length_modify ..

end Table

/-! ## Free nodes -/

/-- The nodes that have a key. -/
def usedNodes (t : Table V) : Finset ℕ := (Finset.range t.sizenode).filter fun i => t.gkey i ≠ none

theorem exists_free (h : (usedNodes t).card < t.sizenode) :
    ∃ i < t.sizenode, t.gkey i = none := by
  by_contra! hall
  have heq : usedNodes t = Finset.range t.sizenode :=
    Finset.filter_true_of_mem fun i hi => hall i (Finset.mem_range.mp hi)
  rw [heq, Finset.card_range] at h
  exact lt_irrefl _ h

/-- The last free node in front of a node. -/
theorem getfreeposFrom_eq_some {m n : ℕ} (h : getfreeposFrom t m = some n) :
    n < m ∧ t.gkey n = none ∧ ∀ i, n < i → i < m → t.gkey i ≠ none := by
  induction m with
  | zero => cases h
  | succ m ih =>
      rw [getfreeposFrom] at h
      split at h
      · rename_i hm
        obtain rfl := Option.some.inj h
        exact ⟨Nat.lt_succ_self _, hm, fun i hle hlt => by omega⟩
      · rename_i hm
        obtain ⟨hlt, hn, hused⟩ := ih h
        refine ⟨by omega, hn, ?_⟩
        intro i hni him
        rcases Nat.lt_succ_iff_lt_or_eq.mp him with hlt | rfl
        · exact hused i hni hlt
        · exact hm

theorem getfreeposFrom_eq_none {m : ℕ} (h : getfreeposFrom t m = none) :
    ∀ i < m, t.gkey i ≠ none := by
  induction m with
  | zero => exact fun i hi => absurd hi (Nat.not_lt_zero i)
  | succ m ih =>
      rw [getfreeposFrom] at h
      split at h
      · cases h
      · rename_i hm
        intro i hi
        rcases Nat.lt_succ_iff_lt_or_eq.mp hi with hlt | rfl
        · exact ih h i hlt
        · exact hm

/-- Where a node is free, `getfreepos` finds one. -/
theorem WellFormed.exists_getfreepos (h : WellFormed identity t) (hdummy : t.isDummy = false)
    (hroom : (usedNodes t).card < t.sizenode) : ∃ n, getfreepos t = some n := by
  obtain ⟨i, hi, hfree⟩ := exists_free hroom
  cases hpos : getfreepos t with
  | some n => exact ⟨n, rfl⟩
  | none =>
      have hbelow := getfreeposFrom_eq_none hpos i
      by_cases hlt : i < t.lastfree
      · exact absurd hfree (hbelow hlt)
      · exact absurd hfree (h.used hdummy i (Nat.le_of_not_lt hlt) hi)

/-- The free node. Those behind it have keys. -/
structure FreeNode (t : Table V) (n : ℕ) : Prop where
  le_sizenode : n ≤ t.sizenode
  lt_length : n < t.node.length
  gkey_eq : t.gkey n = none
  gval_eq : t.gval n = none
  used : ∀ j, n ≤ j → j < t.sizenode → j = n ∨ t.gkey j ≠ none

theorem WellFormed.freeNode (h : WellFormed identity t) (hdummy : t.isDummy = false) {n : ℕ}
    (hn : getfreepos t = some n) : FreeNode t n := by
  obtain ⟨hlt, hkey, habove⟩ := getfreeposFrom_eq_some hn
  have hle : n < t.sizenode := hlt.trans_le h.lastfree_le
  refine ⟨hle.le, h.length_node ▸ hle, hkey, ?_, ?_⟩
  · by_contra hne
    exact h.key_of_val hne hkey
  · intro j hnj hj
    rcases Nat.eq_or_lt_of_le hnj with rfl | hgt
    · exact .inl rfl
    · by_cases hfree : j < t.lastfree
      · exact .inr (habove j hgt hfree)
      · exact .inr (h.used hdummy j (Nat.le_of_not_lt hfree) hj)

/-! ## The nodes that change -/

/-- The key goes to the free node `n`, behind the node `mp`. -/
def chainedAt (t : Table V) (n mp : ℕ) (key : LuaKey) : Table V :=
  ({ t with lastfree := n }.setNode n fun p =>
    { p with key := some key, next := t.gnext mp }).setNode mp fun p => { p with next := some n }

/-- What the node `mp` has goes to the free node `n`, behind `previous`, and `mp` to the key. -/
def displaced (t : Table V) (previous n mp : ℕ) (key : LuaKey) : Table V :=
  (({ t with lastfree := n }.setNode previous fun p => { p with next := some n }).setNode n
    fun _ => ({ t with lastfree := n }.setNode previous fun p =>
      { p with next := some n }).gnode mp).setNode mp fun _ => ⟨some key, none, none⟩

section

variable {n mp : ℕ} (hn : n < t.node.length) (hmp : mp < t.node.length) (key : LuaKey)

theorem length_chainedAt : (chainedAt t n mp key).node.length = t.node.length := by
  rw [chainedAt, Table.length_setNode, Table.length_setNode]

include hn hmp

theorem gkey_chainedAt :
    (chainedAt t n mp key).gkey = Function.update t.gkey n (some key) := by
  have h₁ := Table.gkey_setNode (t := { t with lastfree := n }) hn fun p =>
    { p with key := some key, next := t.gnext mp }
  rw [chainedAt, Table.gkey_setNode (by rwa [Table.length_setNode])]
  exact (Function.update_eq_self mp _).trans h₁

theorem gval_chainedAt : (chainedAt t n mp key).gval = t.gval := by
  have h₁ := Table.gval_setNode (t := { t with lastfree := n }) hn fun p =>
    { p with key := some key, next := t.gnext mp }
  rw [chainedAt, Table.gval_setNode (by rwa [Table.length_setNode])]
  exact (Function.update_eq_self mp _).trans (h₁.trans (Function.update_eq_self n t.gval))

theorem gnext_chainedAt : (chainedAt t n mp key).gnext = Links.insertAfter t.gnext mp n := by
  have h₁ := Table.gnext_setNode (t := { t with lastfree := n }) hn fun p =>
    { p with key := some key, next := t.gnext mp }
  rw [chainedAt, Table.gnext_setNode (by rwa [Table.length_setNode]), h₁, Links.insertAfter]
  rfl

end

section

variable {previous n mp : ℕ} (hprevious : previous < t.node.length) (hn : n < t.node.length)
  (hmp : mp < t.node.length) (hne : mp ≠ previous) (key : LuaKey)

theorem length_displaced : (displaced t previous n mp key).node.length = t.node.length := by
  rw [displaced, Table.length_setNode, Table.length_setNode, Table.length_setNode]

include hprevious hn hmp hne

theorem gkey_displaced : (displaced t previous n mp key).gkey =
    Function.update (Function.update t.gkey n (t.gkey mp)) mp (some key) := by
  have h₁ := Table.gkey_setNode (t := { t with lastfree := n }) hprevious fun p =>
    { p with next := some n }
  rw [displaced, Table.gkey_setNode (by rwa [Table.length_setNode, Table.length_setNode]),
    Table.gkey_setNode (by rwa [Table.length_setNode]), Table.gnode_setNode_of_ne hne,
    h₁.trans (Function.update_eq_self previous t.gkey)]
  rfl

theorem gval_displaced : (displaced t previous n mp key).gval =
    Function.update (Function.update t.gval n (t.gval mp)) mp none := by
  have h₁ := Table.gval_setNode (t := { t with lastfree := n }) hprevious fun p =>
    { p with next := some n }
  rw [displaced, Table.gval_setNode (by rwa [Table.length_setNode, Table.length_setNode]),
    Table.gval_setNode (by rwa [Table.length_setNode]), Table.gnode_setNode_of_ne hne,
    h₁.trans (Function.update_eq_self previous t.gval)]
  rfl

theorem gnext_displaced : (displaced t previous n mp key).gnext =
    Links.replace t.gnext previous mp n := by
  have h₁ := Table.gnext_setNode (t := { t with lastfree := n }) hprevious fun p =>
    { p with next := some n }
  rw [displaced, Table.gnext_setNode (by rwa [Table.length_setNode, Table.length_setNode]),
    Table.gnext_setNode (by rwa [Table.length_setNode]), Table.gnode_setNode_of_ne hne, h₁,
    Links.replace]
  rfl

end

/-! ## What `newkey` does -/

variable (identity) in
/-- The key has got a place without a value, and otherwise the table is the same. -/
structure Placed (t t' : Table V) (key : LuaKey) (slot : Slot) : Prop where
  wellFormed : WellFormed identity t'
  at_slot : At t' key slot
  value_eq : t'.value slot = none
  content_eq : t'.content = t.content
  sizearray_eq : t'.sizearray = t.sizearray
  lsizenode_eq : t'.lsizenode = t.lsizenode
  isDummy_eq : t'.isDummy = t.isDummy
  used_le : (usedNodes t').card ≤ (usedNodes t).card + 1

/-- One key more in the nodes, which may have moved. -/
structure Moved (t t' : Table V) (key : LuaKey) (i : ℕ) : Prop where
  array_eq : t'.array = t.array
  lsizenode_eq : t'.lsizenode = t.lsizenode
  isDummy_eq : t'.isDummy = t.isDummy
  length_eq : t'.node.length = t.node.length
  gkey_eq : t'.gkey i = some key
  gval_eq : t'.gval i = none
  before : ∀ {j k}, t'.gkey j = some k → k ≠ key → ∃ j₀, t.gkey j₀ = some k ∧ t'.gval j = t.gval j₀
  after : ∀ {j k}, t.gkey j = some k → t.gval j ≠ none →
    ∃ j', t'.gkey j' = some k ∧ t'.gval j' = t.gval j
  key_of_val : ∀ {j}, t'.gval j ≠ none → t'.gkey j ≠ none
  /-- At most one node is used that was not before. -/
  used : ∃ n, ∀ j, t'.gkey j ≠ none → j = n ∨ t.gkey j ≠ none

theorem Moved.content_eq {t' : Table V} {key : LuaKey} {i : ℕ} (hmoved : Moved t t' key i)
    (h : WellFormed identity t) (h' : WellFormed identity t') (habsent : Absent t key) :
    t'.content = t.content := by
  have hsize : t'.sizearray = t.sizearray := congrArg List.length hmoved.array_eq
  funext k
  by_cases harray : InArray t k
  · have harray' := (inArray_congr hsize k).mpr harray
    rw [h'.content_of_at (.array harray'), h.content_of_at (.array harray), Table.value,
      Table.value, hmoved.array_eq]
  have harray' : ¬ InArray t' k := fun hk => harray ((inArray_congr hsize k).mp hk)
  by_cases hk : k = key
  · subst hk
    rw [h'.content_of_at (.node harray' hmoved.gkey_eq), content_of_absent habsent]
    exact hmoved.gval_eq
  by_cases hnode : ∃ j, t'.gkey j = some k
  · obtain ⟨j, hj⟩ := hnode
    obtain ⟨j₀, hj₀, hval⟩ := hmoved.before hj hk
    rw [h'.content_of_at (.node harray' hj), h.content_of_at (.node harray hj₀)]
    exact hval
  · have hnone : Absent t' k := ⟨harray', not_exists.mp hnode⟩
    rw [content_of_absent hnone]
    rcases at_or_absent t k with ⟨slot, hslot⟩ | habs
    · cases hslot with
      | array hin => exact absurd hin harray
      | @node j _ hj =>
          -- a key that is gone had no value
          rw [h.content_of_at (.node harray hj), Table.value]
          by_contra hval
          obtain ⟨j', hj', -⟩ := hmoved.after hj (Ne.symm hval)
          exact hnode ⟨j', hj'⟩
    · rw [content_of_absent habs]

theorem Moved.used_le {t' : Table V} {key : LuaKey} {i : ℕ} (hmoved : Moved t t' key i) :
    (usedNodes t').card ≤ (usedNodes t).card + 1 := by
  obtain ⟨n, hn⟩ := hmoved.used
  have hsubset : usedNodes t' ⊆ insert n (usedNodes t) := by
    intro j hj
    obtain ⟨hlt, hkey⟩ := Finset.mem_filter.mp hj
    rw [Table.sizenode, hmoved.lsizenode_eq] at hlt
    rcases hn j hkey with rfl | hused
    · exact Finset.mem_insert_self _ _
    · exact Finset.mem_insert_of_mem (Finset.mem_filter.mpr ⟨hlt, hused⟩)
  exact (Finset.card_le_card hsubset).trans (Finset.card_insert_le _ _)

theorem Moved.placed {t' : Table V} {key : LuaKey} {i : ℕ} (hmoved : Moved t t' key i)
    (h : WellFormed identity t) (hstorable : Storable key) (habsent : Absent t key)
    (hdummy : t.isDummy = false) (hfree : t'.lastfree ≤ t.sizenode)
    (hused : ∀ j, t'.lastfree ≤ j → j < t.sizenode → t'.gkey j ≠ none)
    (hchained : Scatter.Chained (mainposition identity t) t'.gkey t'.gnext) :
    Placed identity t t' key (.node i) := by
  have hsize : t'.sizearray = t.sizearray := congrArg List.length hmoved.array_eq
  have hnodes : t'.sizenode = t.sizenode := congrArg (2 ^ ·) hmoved.lsizenode_eq
  have hwf : WellFormed identity t' := by
    refine ⟨?_, ?_, ?_, ?_, ?_, ?_, hmoved.key_of_val, ?_, ?_, ?_⟩
    · rw [hsize]
      exact h.sizearray_le
    · rw [hmoved.lsizenode_eq]
      exact h.lsizenode_le
    · rw [hmoved.length_eq, hnodes]
      exact h.length_node
    · rw [hmoved.isDummy_eq, hdummy]
      exact fun h => nomatch h
    · rwa [hnodes]
    · rw [hnodes]
      exact fun _ => hused
    · intro j k hj
      by_cases hk : k = key
      · exact hk ▸ hstorable
      · obtain ⟨j₀, hj₀, -⟩ := hmoved.before hj hk
        exact h.storable hj₀
    · intro j k hj hin
      rw [inArray_congr hsize] at hin
      by_cases hk : k = key
      · exact habsent.notInArray (hk ▸ hin)
      · obtain ⟨j₀, hj₀, -⟩ := hmoved.before hj hk
        exact h.outside hj₀ hin
    · rw [mainposition_congr hmoved.lsizenode_eq]
      exact hchained
  have harray : ¬ InArray t' key := fun hin =>
    habsent.notInArray ((inArray_congr hsize key).mp hin)
  exact ⟨hwf, .node harray hmoved.gkey_eq, hmoved.gval_eq, hmoved.content_eq h hwf habsent, hsize,
    hmoved.lsizenode_eq, hmoved.isDummy_eq, hmoved.used_le⟩

section

variable (h : WellFormed identity t) {key : LuaKey} (hstorable : Storable key)
  (habsent : Absent t key) (hdummy : t.isDummy = false)

include h hstorable habsent hdummy

/-- The main position has no value, and the key takes it. -/
theorem placed_main (hval : t.gval (mainposition identity t key) = none) :
    Placed identity t (t.setNode (mainposition identity t key) fun n => { n with key := some key })
      key (.node (mainposition identity t key)) := by
  have hmp := h.mainposition_lt_length key
  generalize hpos : mainposition identity t key = mp at hval hmp ⊢
  let t' := t.setNode mp fun n => { n with key := some key }
  have hkey : t'.gkey = Function.update t.gkey mp (some key) := Table.gkey_setNode hmp _
  have hvals : t'.gval = t.gval :=
    (Table.gval_setNode hmp _).trans (Function.update_eq_self mp t.gval)
  have hnext : t'.gnext = t.gnext :=
    (Table.gnext_setNode hmp _).trans (Function.update_eq_self mp t.gnext)
  have hother : ∀ {j k}, t.gkey j = some k → t.gval j ≠ none → t'.gkey j = some k := by
    intro j k hj hjval
    rw [hkey, Function.update_of_ne, hj]
    rintro rfl
    exact hjval hval
  have hused : ∀ {j}, t.gkey j ≠ none → t'.gkey j ≠ none := by
    intro j hj
    rw [hkey, Function.update_apply]
    split
    · exact Option.some_ne_none key
    · exact hj
  have hmoved : Moved t t' key mp := by
    refine ⟨rfl, rfl, rfl, Table.length_setNode _ _, ?_, ?_, ?_, ?_, ?_, mp, ?_⟩
    · rw [hkey, Function.update_self]
    · rw [hvals, hval]
    · intro j k hj hne
      rw [hkey, Function.update_apply] at hj
      split at hj
      · exact absurd (Option.some.inj hj).symm hne
      · exact ⟨j, hj, by rw [hvals]⟩
    · intro j k hj hjval
      exact ⟨j, hother hj hjval, by rw [hvals]⟩
    · intro j hjval
      rw [hvals] at hjval
      exact hused (h.key_of_val hjval)
    · intro j hj
      rw [hkey, Function.update_apply] at hj
      split at hj
      · rename_i heq
        exact .inl heq
      · exact .inr hj
  refine hmoved.placed h hstorable habsent hdummy h.lastfree_le ?_ ?_
  · intro j hle hlt
    exact hused (h.used hdummy j hle hlt)
  · rw [hkey, hnext, ← hpos]
    exact h.chained.put habsent.gkey_ne

section

variable {n : ℕ} (hn : getfreepos t = some n) {k₀ : LuaKey}
  (hmain : t.gkey (mainposition identity t key) = some k₀)

include hn hmain

/-- The key there is at home, and the new key goes to the free node. -/
theorem placed_chain (hhome : mainposition identity t k₀ = mainposition identity t key) :
    Placed identity t (chainedAt t n (mainposition identity t key) key) key (.node n) := by
  have hmp := h.mainposition_lt_length key
  have hfree := h.freeNode hdummy hn
  have hchained := h.chained.insertAfter habsent.gkey_ne hfree.gkey_eq hmain hhome
  generalize mainposition identity t key = mp at *
  have hkey := gkey_chainedAt hfree.lt_length hmp key
  have hvals := gval_chainedAt hfree.lt_length hmp key
  have hnext := gnext_chainedAt hfree.lt_length hmp key
  have hself : (chainedAt t n mp key).gkey n = some key := by rw [hkey, Function.update_self]
  have hother : ∀ {j}, t.gkey j ≠ none → (chainedAt t n mp key).gkey j = t.gkey j := by
    intro j hj
    rw [hkey, Function.update_of_ne]
    rintro rfl
    exact hj hfree.gkey_eq
  have hmoved : Moved t (chainedAt t n mp key) key n := by
    refine ⟨rfl, rfl, rfl, length_chainedAt key, hself, by rw [hvals, hfree.gval_eq], ?_, ?_, ?_,
      n, ?_⟩
    · intro j k hj hkne
      rw [hkey, Function.update_apply] at hj
      split at hj
      · exact absurd (Option.some.inj hj).symm hkne
      · exact ⟨j, hj, by rw [hvals]⟩
    · intro j k hj _
      refine ⟨j, ?_, by rw [hvals]⟩
      rw [hother (hj ▸ Option.some_ne_none k), hj]
    · intro j hjval
      rw [hvals] at hjval
      have hused := h.key_of_val hjval
      rwa [hother hused]
    · intro j hj
      rw [hkey, Function.update_apply] at hj
      split at hj
      · rename_i heq
        exact .inl heq
      · exact .inr hj
  refine hmoved.placed h hstorable habsent hdummy hfree.le_sizenode ?_ ?_
  · intro j hle hlt
    rcases hfree.used j hle hlt with rfl | hused
    · rw [hself]
      exact Option.some_ne_none key
    · rwa [hother hused]
  · rw [hkey, hnext]
    exact hchained

omit hstorable habsent in
/-- What stood in the main position stands in the free node. -/
theorem moved_displaced {previous : ℕ} (hprevious : previous < t.node.length)
    (hne : mainposition identity t key ≠ previous) :
    Moved t (displaced t previous n (mainposition identity t key) key) key
      (mainposition identity t key) := by
  have hmp := h.mainposition_lt_length key
  have hfree := h.freeNode hdummy hn
  generalize mainposition identity t key = mp at *
  have hnmp : mp ≠ n := by
    rintro rfl
    cases hfree.gkey_eq.symm.trans hmain
  have hkey := gkey_displaced hprevious hfree.lt_length hmp hne key
  have hvals := gval_displaced hprevious hfree.lt_length hmp hne key
  refine ⟨rfl, rfl, rfl, length_displaced key, ?_, ?_, ?_, ?_, ?_, n, ?_⟩
  · rw [hkey, Function.update_self]
  · rw [hvals, Function.update_self]
  · intro j k hj hkne
    rw [hkey, Function.update_apply, Function.update_apply] at hj
    rw [hvals, Function.update_apply, Function.update_apply]
    grind
  · intro j k hj hjval
    by_cases hjmp : j = mp
    · subst hjmp
      refine ⟨n, ?_, ?_⟩
      · rw [hkey, Function.update_of_ne hnmp.symm, Function.update_self, hj]
      · rw [hvals, Function.update_of_ne hnmp.symm, Function.update_self]
    · have hjn : j ≠ n := by
        rintro rfl
        exact hjval hfree.gval_eq
      refine ⟨j, ?_, ?_⟩
      · rw [hkey, Function.update_of_ne hjmp, Function.update_of_ne hjn, hj]
      · rw [hvals, Function.update_of_ne hjmp, Function.update_of_ne hjn]
  · intro j hjval
    rw [hvals, Function.update_apply, Function.update_apply] at hjval
    rw [hkey, Function.update_apply, Function.update_apply]
    have hkeyOfVal := @h.key_of_val
    grind
  · intro j hj
    rw [hkey, Function.update_apply, Function.update_apply] at hj
    grind

/-- The key there is not at home and moves to the free node. -/
theorem placed_move (hhome : mainposition identity t k₀ ≠ mainposition identity t key)
    {previous : ℕ} (hprevious : t.gnext previous = some (mainposition identity t key)) :
    Placed identity t (displaced t previous n (mainposition identity t key) key) key
      (.node (mainposition identity t key)) := by
  have hmp := h.mainposition_lt_length key
  have hfree := h.freeNode hdummy hn
  have hplen : previous < t.node.length :=
    Table.lt_length_of_gkey (h.chained.used_of_next hprevious).1
  have hne : mainposition identity t key ≠ previous := by
    obtain ⟨l, hl⟩ := h.chained.linear.path (mainposition identity t key)
    intro heq
    exact (List.nodup_cons.mp (Links.Path.link hprevious hl).nodup).1 (heq ▸ hl.head_mem)
  have hkey := gkey_displaced hplen hfree.lt_length hmp hne key
  have hmoved := moved_displaced h hdummy hn hmain hplen hne
  refine hmoved.placed h hstorable habsent hdummy hfree.le_sizenode ?_ ?_
  · intro j hle hlt
    have hused := hfree.used j hle hlt
    rw [hkey, Function.update_apply, Function.update_apply]
    grind
  · rw [hkey, gnext_displaced hplen hfree.lt_length hmp hne key, hmain]
    exact h.chained.replace habsent.gkey_ne hfree.gkey_eq hmain hhome hprevious

end

/-- Where there is a free node, or none is needed, `newkey` finds a place for a new key. -/
theorem newkeyBy_placed (create : Table V → LuaKey → Except Fault (Table V × Slot))
    (hfree : t.gval (mainposition identity t key) = none ∨ getfreepos t ≠ none) :
    ∃ t' slot, newkeyBy identity create t key = .ok (t', slot) ∧ Placed identity t t' key slot := by
  cases hval : t.gval (mainposition identity t key) with
  | none =>
      refine ⟨_, _, ?_, placed_main h hstorable habsent hdummy hval⟩
      simp [newkeyBy, hval, hdummy]
  | some v =>
      obtain ⟨n, hn⟩ : ∃ n, getfreepos t = some n := by
        rw [hval] at hfree
        exact Option.ne_none_iff_exists'.mp (hfree.resolve_left (Option.some_ne_none v))
      obtain ⟨k₀, hmain⟩ :=
        Option.ne_none_iff_exists'.mp (h.key_of_val (hval ▸ Option.some_ne_none v))
      have hcond : (t.gval (mainposition identity t key)).isSome ∨ t.isDummy :=
        .inl (by rw [hval]; rfl)
      have hothern : ((Table.gkey { t with lastfree := n } (mainposition identity t key)).map
          (mainposition identity { t with lastfree := n })).getD (mainposition identity t key) =
            mainposition identity t k₀ := by
        change ((t.gkey _).map (mainposition identity t)).getD _ = _
        rw [hmain]
        rfl
      by_cases hhome : mainposition identity t k₀ = mainposition identity t key
      · refine ⟨_, _, ?_, placed_chain h hstorable habsent hdummy hn hmain hhome⟩
        simp only [newkeyBy, if_pos hcond, hn, hothern, hhome, ne_eq, not_true_eq_false, if_false]
        rfl
      · obtain ⟨previous, hprevious, hreach⟩ := h.chained.exists_previous hmain hhome
        refine ⟨_, _, ?_, placed_move h hstorable habsent hdummy hn hmain hhome hprevious⟩
        have hsearch : search { t with lastfree := n }
            (fun i => Table.gnext { t with lastfree := n } i = some (mainposition identity t key))
            (mainposition identity t k₀) = .ok (some previous) :=
          h.search_eq_some (h.mainposition_lt_length k₀) hreach (decide_eq_true hprevious)
            fun j hj => h.chained.linear.injective (of_decide_eq_true hj) hprevious
        simp only [newkeyBy, if_pos hcond, hn, hothern, ne_eq, hhome, not_false_eq_true, if_true,
          hsearch]
        rfl

end

end LuaH

end Luapb
