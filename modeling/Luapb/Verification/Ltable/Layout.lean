import Luapb.Verification.Encoder.Layout
import Luapb.Verification.Ltable.Traversal

/-! # The layout of a table

What an iteration sees of a table is its layout: the array and the nodes that have a value.
Main positions, links and keys without a value do not matter to it. -/

namespace Luapb

namespace LuaH

variable {V : Type} {identity : ℕ → Identity} {t : Table V}

theorem keys_nodeSlots (t : Table V) :
    (nodeSlots t).reduceOption.map (·.1) = nodeKeys t.node := by
  rw [nodeSlots, List.reduceOption, List.filterMap_map, List.map_filterMap, nodeKeys]
  congr 1
  funext n
  rcases n with ⟨key, val, next⟩
  cases key <;> cases val <;> rfl

theorem WellFormed.length_array_lt (h : WellFormed identity t) : t.array.length < 2 ^ 31 := by
  have hle := h.sizearray_le
  rw [maxASize, maxBits, Table.sizearray] at hle
  omega

theorem WellFormed.outside_nodeSlots (h : WellFormed identity t) :
    ∀ e ∈ (nodeSlots t).reduceOption,
      ¬ (0 < arrayindex e.1 ∧ arrayindex e.1 ≤ t.array.length) := by
  intro e he
  have hkey : e.1 ∈ nodeKeys t.node := by
    rw [← keys_nodeSlots]
    exact List.mem_map.mpr ⟨e, he, rfl⟩
  obtain ⟨n, hn, hkey, -⟩ := mem_nodeKeys.mp hkey
  obtain ⟨i, -, rfl⟩ := Table.mem_node hn
  exact h.outside hkey

theorem WellFormed.nodup_nodeSlots (h : WellFormed identity t) :
    ((nodeSlots t).reduceOption.map (·.1)).Nodup := by
  rw [keys_nodeSlots]
  exact h.nodup_nodeKeys

/-- The layout of a table -/
def WellFormed.layout (h : WellFormed identity t) : Luapb.Table V where
  array := t.array
  node := nodeSlots t
  sizearray_lt := h.length_array_lt
  outside := h.outside_nodeSlots
  nodup := h.nodup_nodeSlots

theorem WellFormed.slots_layout (h : WellFormed identity t) : h.layout.slots = slots t := rfl

/-- A step from a key with a value is the step of the layout. -/
theorem WellFormed.next_layout (h : WellFormed identity t) {key : Option LuaKey}
    (hkey : ∀ k, key = some k → t.content k ≠ none) :
    next identity t key = h.layout.luaHNext key := by
  cases key with
  | none => rw [next_eq rfl, Luapb.Table.luaHNext_eq rfl, h.slots_layout]
  | some k =>
      have hlive := hkey k rfl
      rcases at_or_absent t k with ⟨slot, hslot⟩ | habsent
      · obtain ⟨v, hv⟩ := Option.ne_none_iff_exists'.mp hlive
        have hget := slots_of_at hslot ((h.content_of_at hslot).symm.trans hv)
        rw [next_eq (h.findindex_eq (.after hslot)),
          Luapb.Table.luaHNext_eq (Luapb.Table.findindex_slot (t := h.layout) hget), h.slots_layout]
      · exact absurd (content_of_absent habsent) hlive

theorem WellFormed.next_live (h : WellFormed identity t) {key : Option LuaKey} {i : ℕ}
    (hi : Position t key i) {e : LuaKey × V} (hnext : next identity t key = .ok (some e)) :
    t.content e.1 = some e.2 ∧ ∃ j, Position t (some e.1) j := by
  cases h.steps hi with
  | done hdone => cases hdone.symm.trans hnext
  | @visit e' slot hvisit hslot hvalue =>
      obtain rfl : e' = e := Option.some.inj (Except.ok.inj (hvisit.symm.trans hnext))
      exact ⟨by rw [h.content_of_at hslot, hvalue], _, .after hslot⟩

theorem WellFormed.entriesFrom_layout (h : WellFormed identity t) (fuel : ℕ)
    {key : Option LuaKey} {i : ℕ} (hi : Position t key i)
    (hkey : ∀ k, key = some k → t.content k ≠ none) :
    entriesFrom identity t fuel key = h.layout.entriesFrom fuel key := by
  induction fuel generalizing key i with
  | zero => rfl
  | succ fuel ih =>
      have hnext := h.next_layout hkey
      rw [entriesFrom, Luapb.Table.entriesFrom, ← hnext]
      cases hresult : next identity t key with
      | error err => rfl
      | ok e? =>
          cases e? with
          | none => rfl
          | some e =>
              obtain ⟨hcontent, j, hj⟩ := h.next_live hi hresult
              have hlive : ∀ k, some e.1 = some k → t.content k ≠ none := by
                intro k hk
                rw [← Option.some.inj hk, hcontent]
                exact Option.some_ne_none e.2
              simp only [Fallible.ok_bind, ih hj hlive]

theorem WellFormed.iterate_eq (h : WellFormed identity t) :
    iterate identity t = .ok h.layout.entries := by
  rw [← Luapb.Table.iterate_eq, iterate, h.entriesFrom_layout _ .start (fun k hk => nomatch hk),
    Luapb.Table.iterate]
  congr 2
  simp [Luapb.LuaH.WellFormed.layout, nodeSlots, Table.sizearray]

theorem WellFormed.mem_entries_iff (h : WellFormed identity t) {e : LuaKey × V} :
    e ∈ h.layout.entries ↔ t.content e.1 = some e.2 := by
  rw [Luapb.Table.entries, List.reduceOption_mem_iff, h.slots_layout]
  constructor
  · intro hmem
    obtain ⟨j, hj⟩ := List.getElem?_of_mem hmem
    obtain ⟨slot, hslot, -, hvalue⟩ := h.at_of_slots hj
    rw [h.content_of_at hslot, hvalue]
  · intro hcontent
    rcases at_or_absent t e.1 with ⟨slot, hslot⟩ | habsent
    · exact List.mem_of_getElem? (slots_of_at hslot ((h.content_of_at hslot).symm.trans hcontent))
    · cases (content_of_absent habsent).symm.trans hcontent

theorem reduceOption_arraySlots (t : Table V) : (arraySlots t).reduceOption =
    (slice t.array 0).map fun e => (LuaKey.integer e.1, e.2) := by
  have hslots : arraySlots t = (t.array.mapIdx fun i v? =>
      v?.map fun v => (((0 + i + 1 : ℕ) : ℤ), v)).map
        (Option.map fun e => (LuaKey.integer e.1, e.2)) := by
    refine List.ext_getElem? ?_
    intro i
    simp [arraySlots, Function.comp_def]
  rw [slice, List.drop_zero, ← List.reduceOption_map, hslots]

theorem WellFormed.keys_entries (h : WellFormed identity t) :
    h.layout.entries.map (·.1) = t.keys := by
  rw [Luapb.Table.entries, h.slots_layout, slots, List.reduceOption_append, List.map_append,
    keys_nodeSlots, reduceOption_arraySlots, List.map_map, Table.keys,
    ← List.drop_zero (l := t.array),
    ← keys_slice]
  rfl

/-- An iteration over a table that a run made shows the map that the table stands for, each key
once, in the order of the layout. -/
theorem iterate_shows {m : LuaKey → Option V} (h : Runs identity t m) :
    ∃ entries, iterate identity t = .ok entries ∧ h.wellFormed.layout.iterate = .ok entries ∧
      (entries.map (·.1)).Nodup ∧ ∀ key v, (key, v) ∈ entries ↔ m key = some v := by
  have hwf := h.wellFormed
  refine ⟨_, hwf.iterate_eq, Luapb.Table.iterate_eq _, ?_, ?_⟩
  · rw [hwf.keys_entries]
    exact hwf.nodup_keys
  · intro key v
    rw [hwf.mem_entries_iff, h.content_eq]

/-- Two strings -/
theorem iterate_shows_strings : ∃ (t : Table ℕ) (entries : List (LuaKey × ℕ)),
    iterate (fun _ => .boolean true) t = .ok entries ∧
      ∀ key v, (key, v) ∈ entries ↔ Function.update (Function.update (fun _ => none)
        (.string [120]) (some 5)) (.string [121]) (some 7) key = some v :=
  let run : ∃ t : Table ℕ, Runs (fun _ => .boolean true) t
      (Function.update (Function.update (fun _ => none) (.string [120]) (some 5))
        (.string [121]) (some 7)) :=
    ⟨_, .rawset (.rawset (.new (by decide) (by decide) (rfl : new 0 0 = .ok _)) rfl) rfl⟩
  run.elim fun t h => ⟨t, (iterate_shows h).imp fun _ h => ⟨h.1, h.2.2.2⟩⟩

end LuaH

end Luapb
