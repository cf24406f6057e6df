import Luapb.Verification.Scalar
import Luapb.Verification.Table

/-! # Equal values

What it means that a decoded value equals the one that was encoded. Tables are equal if
they have the same keys with equal values under them, whatever the order. -/

namespace Luapb

open Ieee754

variable {L : LuaState}

/-- A value of the Lua state and a decoded one. -/
inductive Equal (L : LuaState) : LuaView L.Value → LuaTree → Prop
  | boolean (b) : Equal L (.boolean b) (.boolean b)
  | number {n m} (h : n.NumEq m) : Equal L (.number n) (.number m)
  | string (s) : Equal L (.string s) (.string s)
  | table {entries} {tab : LuaTable} (hkeys : ∀ k, k ∈ entries.map (·.1) ↔ k ∈ tab.map (·.1))
      (hvalues : ∀ k v w, (k, v) ∈ entries → tab.get k = some w → Equal L (L.view v) w) :
      Equal L (.table entries) (.table tab)

theorem Equal.value {entries : List (LuaKey × L.Value)} {tab : LuaTable}
    (h : Equal L (.table entries) (.table tab)) {k : LuaKey} {v : L.Value} {w : LuaTree}
    (hmem : (k, v) ∈ entries) (hget : tab.get k = some w) : Equal L (L.view v) w := by
  cases h with
  | table _ hvalues => exact hvalues k v w hmem hget

/-- Tables with the same keys in the same order are compared value by value. -/
theorem equal_table_iff {entries : List (LuaKey × L.Value)} {tab : LuaTable}
    (hkeys : entries.map (·.1) = tab.map (·.1)) (hnodup : (tab.map (·.1)).Nodup) :
    Equal L (.table entries) (.table tab) ↔
      List.Forall₂ (fun e e' => Equal L (L.view e.2) e'.2) entries tab := by
  have hpairs : List.Forall₂ (fun (e : LuaKey × L.Value) (e' : LuaKey × LuaTree) => e.1 = e'.1)
      entries tab := by
    rw [← List.forall₂_eq_eq_eq, List.forall₂_map_left_iff, List.forall₂_map_right_iff] at hkeys
    exact hkeys
  constructor
  · intro h
    apply Fallible.forall₂_imp hpairs
    rintro ⟨k, v⟩ hv ⟨k', w⟩ hw rfl
    exact h.value hv (LuaTable.get_of_mem hnodup hw)
  · intro h
    refine .table (fun k => by rw [hkeys]) ?_
    intro k v w hv hget
    have hboth := List.Forall₂.mp (fun _ _ => And.intro) hpairs h
    obtain ⟨⟨k', w'⟩, hw', rfl, hequal⟩ := Fallible.exists_of_mem_right hboth.flip hv
    rw [LuaTable.get_of_mem hnodup hw'] at hget
    exact Option.some.inj hget ▸ hequal

/-- Sequences are compared value by value. -/
theorem equal_sequence_iff {values : List L.Value} {trees : List LuaTree}
    (hlen : values.length = trees.length) :
    Equal L (.table (sequence values)) (.table (sequence trees)) ↔
      List.Forall₂ (fun v w => Equal L (L.view v) w) values trees := by
  have hkeys : (sequence values).map (·.1) = (sequence trees).map (·.1) := by
    rw [keys_sequence, keys_sequence, hlen]
  have hvalues : List.Forall₂ (fun v w => Equal L (L.view v) w) ((sequence values).map (·.2))
      ((sequence trees).map (·.2)) ↔ List.Forall₂ (fun e e' => Equal L (L.view e.2) e'.2)
        (sequence values) (sequence trees) := by
    rw [List.forall₂_map_left_iff, List.forall₂_map_right_iff]
  rw [values_sequence, values_sequence] at hvalues
  exact (equal_table_iff hkeys (nodup_keys_sequence trees)).trans hvalues.symm

end Luapb
