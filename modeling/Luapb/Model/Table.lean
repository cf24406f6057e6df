import Luapb.Model.Lua

/-! # The layout of a table

`ltable.c` keeps the values of some keys from 1 on in an array and all others in the nodes
of a hash. Which keys are where, and in which nodes, depends on how the table was built.
`lua_next` goes through the array and then through the nodes. -/

namespace Luapb

/-- The key as an index of an array, or -1. -/
def arrayindex : LuaKey → ℤ
  | .integer i => if -2 ^ 31 ≤ i ∧ i < 2 ^ 31 then i else -1
  | _ => -1

/-- `Table`. A node whose value is nil is `none`, whatever key it still has. -/
structure Table (V : Type) where
  array : List (Option V)
  node : List (Option (LuaKey × V))
  /-- `sizearray` is an `int`. -/
  sizearray_lt : array.length < 2 ^ 31
  /-- A key that fits the array is looked for there. -/
  outside : ∀ e ∈ node.reduceOption, ¬ (0 < arrayindex e.1 ∧ arrayindex e.1 ≤ array.length)
  nodup : (node.reduceOption.map (·.1)).Nodup

namespace Table

variable {V : Type} (t : Table V)

/-- The array with the key of each index. -/
def arraySlots : List (Option (LuaKey × V)) :=
  t.array.mapIdx fun i v? => v?.map fun v => (.integer (i + 1), v)

/-- `findindex`, plus one. A key in the hash is found in the chain of its main position,
and the chain leads to its node. -/
def findindex : Option LuaKey → Except Fault ℕ
  | none => .ok 0
  | some key =>
      let i := arrayindex key
      if 0 < i ∧ i ≤ t.array.length then .ok i.toNat
      else
        match t.node.findIdx? fun n => n.any (·.1 = key) with
        | some i => .ok (t.array.length + i + 1)
        | none => .error (.luaError (.error "invalid key to 'next'" []))

/-- `luaH_next` -/
def luaHNext (key : Option LuaKey) : Except Fault (Option (LuaKey × V)) := do
  let i ← t.findindex key
  pure (((t.arraySlots.drop i).findSome? id).or
    ((t.node.drop (i - t.array.length)).findSome? id))

/-- `Iterator::next` until the key is nil, at most `fuel` times. -/
def entriesFrom : ℕ → Option LuaKey → Except Fault (List (LuaKey × V))
  | 0, _ => .error .outOfFuel
  | fuel + 1, key => do
      match ← t.luaHNext key with
      | none => pure []
      | some e => do
          let rest ← entriesFrom fuel (some e.1)
          pure (e :: rest)

/-- A whole iteration, which passes every slot. -/
def iterate : Except Fault (List (LuaKey × V)) :=
  t.entriesFrom (t.array.length + t.node.length + 1) none

end Table

end Luapb
