import Luapb.Library.Links
import Luapb.Model.Table

/-! # The tables of Lua

`ltable.c`: some keys from 1 on have their values in an array, all others in the nodes of a
hash. A node that is not in the main position of its key is found from there through links.
Assigning to a new key may move a node, or build the whole table anew. The functions have their
names without `luaH_` and `lua_`. -/

namespace Luapb

namespace LuaH

open Ieee754

def maxBits : ℕ := 26

def maxASize : ℕ := 2 ^ maxBits

/-- `Node`. A nil is `none`, and so is a null pointer to the next node. -/
structure Node (V : Type) where
  key : Option LuaKey
  val : Option V
  next : Option ℕ

/-- A node as `setnodevector` makes it. The common `dummynode` is like that too. -/
def Node.empty {V : Type} : Node V := ⟨none, none, none⟩

structure Table (V : Type) where
  array : List (Option V)
  lsizenode : ℕ
  node : List (Node V)
  /-- `node == dummynode` -/
  isDummy : Bool
  /-- All nodes from this one on are in use. -/
  lastfree : ℕ

/-- A `TValue*` into a table. -/
inductive Slot
  | array (i : ℕ)
  | node (i : ℕ)

namespace Table

variable {V : Type} (t : Table V)

def sizearray : ℕ := t.array.length

def sizenode : ℕ := 2 ^ t.lsizenode

def gnode (i : ℕ) : Node V := t.node.getD i .empty

def gkey (i : ℕ) : Option LuaKey := (t.gnode i).key

def gval (i : ℕ) : Option V := (t.gnode i).val

def gnext (i : ℕ) : Option ℕ := (t.gnode i).next

def setNode (i : ℕ) (f : Node V → Node V) : Table V := { t with node := t.node.modify i f }

def value : Slot → Option V
  | .array i => t.array[i]?.join
  | .node i => t.gval i

/-- `setobj` -/
def write (slot : Slot) (v : Option V) : Table V :=
  match slot with
  | .array i => { t with array := t.array.set i v }
  | .node i => t.setNode i fun n => { n with val := v }

end Table

/-! ## Main positions -/

/-- What the hash sees of a key that is neither a number nor a string. -/
inductive Identity
  | boolean (b : Bool)
  | address (p : ℕ)

/-- The loop of `luaS_newlstr`, which hashes every `step`-th byte from the end on. -/
def hashLoop (str : Bytes) (step : ℕ) : ℕ → ℕ → UInt32 → UInt32
  | 0, _, h => h
  | fuel + 1, l1, h =>
      if step ≤ l1 then
        hashLoop str step fuel (l1 - step)
          (h ^^^ ((h <<< 5) + (h >>> 2) + (str.getD (l1 - 1) 0).toUInt32))
      else h

def hashString (str : Bytes) : UInt32 :=
  hashLoop str (str.length / 32 + 1) str.length str.length (UInt32.ofNat str.length)

def hashpow2 (size n : ℕ) : ℕ := n &&& (size - 1)

def hashmod (size n : ℕ) : ℕ := n % ((size - 1) ||| 1)

/-- The two halves of the double are added as unsigned integers. -/
def hashnum (size : ℕ) (n : LuaNumber) : ℕ :=
  if n.IsZero then 0
  else hashmod size ((n.toBits % 2 ^ 32 + n.toBits / 2 ^ 32) % 2 ^ 32)

/-- `luaO_log2`. Entry `x` of its table is the number of binary digits of `x`. -/
def log2Table : List ℕ :=
  [0, 1, 2, 2, 3, 3, 3, 3] ++ List.replicate 8 4 ++ List.replicate 16 5 ++
    List.replicate 32 6 ++ List.replicate 64 7 ++ List.replicate 128 8

def log2Loop : ℕ → ℤ → ℕ → ℤ
  | 0, l, x => l + log2Table.getD x 0
  | fuel + 1, l, x => if 256 ≤ x then log2Loop fuel (l + 8) (x / 256) else l + log2Table.getD x 0

/-- An `unsigned int` is shifted at most three times. -/
def luaOLog2 (x : ℕ) : ℤ := log2Loop 3 (-1) x

def ceillog2 (x : ℕ) : ℕ := (luaOLog2 (x - 1) + 1).toNat

section

variable {V : Type} (identity : ℕ → Identity) (t : Table V)

def mainposition : LuaKey → ℕ
  | .integer i => hashnum t.sizenode (Binary.ofInt binary64 i)
  | .number n => hashnum t.sizenode n
  | .string s => hashpow2 t.sizenode (hashString s).toNat
  | .object id =>
      match identity id with
      | .boolean b => hashpow2 t.sizenode b.toNat
      | .address p => hashmod t.sizenode (p % 2 ^ 32)

/-! ## Reading -/

/-- `do ... while (n)` along the links, from a node on. -/
def search (p : ℕ → Bool) (start : ℕ) : Except Fault (Option ℕ) :=
  match Links.search t.gnext p t.node.length start with
  | some i => .ok i
  | none => .error .outOfFuel

def searchKey (key : LuaKey) : Except Fault (Option Slot) :=
  (search t (fun i => t.gkey i = some key) (mainposition identity t key)).map (·.map .node)

/-- `luaH_getnum`; `none` is the pointer to `luaO_nilobject`. -/
def getnum (key : ℤ) : Except Fault (Option Slot) :=
  if 1 ≤ key ∧ key ≤ t.sizearray then .ok (some (.array (key - 1).toNat))
  else searchKey identity t (.integer key)

def getstr (key : Bytes) : Except Fault (Option Slot) := searchKey identity t (.string key)

/-- `luaH_get`. A number that is an `int` is looked up by `luaH_getnum`. -/
def get : LuaKey → Except Fault (Option Slot)
  | .string s => getstr identity t s
  | .integer i =>
      if -2 ^ 31 ≤ i ∧ i < 2 ^ 31 then getnum identity t i
      else searchKey identity t (.integer i)
  | key => searchKey identity t key

def rawget (key : LuaKey) : Except Fault (Option V) := do
  let slot ← get identity t key
  pure (slot.bind t.value)

def rawgeti (n : ℤ) : Except Fault (Option V) := do
  let slot ← getnum identity t n
  pure (slot.bind t.value)

end

/-! ## Counting keys -/

section

variable {V : Type}

/-- `countint`: the counts, and 1 if the key was counted. -/
def countint (key : LuaKey) (nums : List ℕ) : List ℕ × ℕ :=
  let k := arrayindex key
  if 0 < k ∧ k ≤ maxASize then (nums.modify (ceillog2 k.toNat) (· + 1), 1) else (nums, 0)

/-- The loop of `numusearray` over the slices from `(2^(lg-1), 2^lg]` on. -/
def numusearrayLoop (t : Table V) : ℕ → ℕ → ℕ → List ℕ → ℕ → List ℕ × ℕ
  | 0, _, _, nums, ause => (nums, ause)
  | slices + 1, lg, i, nums, ause =>
      if t.sizearray < 2 ^ lg ∧ t.sizearray < i then (nums, ause)
      else
        let lim := min (2 ^ lg) t.sizearray
        let lc := ((t.array.drop (i - 1)).take (lim + 1 - i)).countP Option.isSome
        numusearrayLoop t slices (lg + 1) (max i (lim + 1)) (nums.modify lg (· + lc)) (ause + lc)

def numusearray (t : Table V) (nums : List ℕ) : List ℕ × ℕ :=
  numusearrayLoop t (maxBits + 1) 0 1 nums 0

/-- `numusehash`, from the last node to the first: the counts, `totaluse` and `ause`. -/
def numusehash (t : Table V) (nums : List ℕ) : List ℕ × ℕ × ℕ :=
  t.node.foldr (fun n r =>
    match n.val, n.key with
    | some _, some key =>
        let c := countint key r.1
        (c.1, r.2.1 + 1, r.2.2 + c.2)
    | _, _ => r) (nums, 0, 0)

/-- The loop of `computesizes` from slice `i` on: `n` and `na`. -/
def computesizesLoop (nums : List ℕ) (narray : ℕ) : ℕ → ℕ → ℕ → ℕ → ℕ → ℕ × ℕ
  | 0, _, _, na, n => (n, na)
  | fuel + 1, i, a, na, n =>
      if 2 ^ i / 2 < narray then
        let c := nums.getD i 0
        let a' := a + c
        let r := if 0 < c ∧ 2 ^ i / 2 < a' then (2 ^ i, a') else (n, na)
        if a' = narray then r
        else computesizesLoop nums narray fuel (i + 1) a' r.2 r.1
      else (n, na)

/-- `computesizes`: the new size of the array, and how many keys go there. The powers of two
below `2 ^ 31` are enough for an `int`. -/
def computesizes (nums : List ℕ) (narray : ℕ) : ℕ × ℕ :=
  computesizesLoop nums narray 32 0 0 0 0

end

/-! ## Assigning -/

section

variable {V : Type}

/-- `setarrayvector` for an array that does not get smaller. -/
def setarrayvector (t : Table V) (size : ℕ) : Table V :=
  { t with array := t.array ++ List.replicate (size - t.sizearray) none }

def setnodevector (t : Table V) (size : ℕ) : Except Fault (Table V) :=
  if size = 0 then .ok { t with lsizenode := 0, node := [.empty], isDummy := true, lastfree := 0 }
  else
    let lsize := ceillog2 size
    if maxBits < lsize then .error (.luaError (.error "table overflow" []))
    else .ok { t with
      lsizenode := lsize
      node := List.replicate (2 ^ lsize) .empty
      isDummy := false
      lastfree := 2 ^ lsize }

def new (narray nhash : ℕ) : Except Fault (Table V) :=
  setnodevector (setarrayvector ⟨[], 0, [.empty], true, 0⟩ narray) nhash

def getfreeposFrom (t : Table V) : ℕ → Option ℕ
  | 0 => none
  | i + 1 => if t.gkey i = none then some i else getfreeposFrom t i

/-- `getfreepos`. The node that is returned is the new `lastfree`. -/
def getfreepos (t : Table V) : Option ℕ := getfreeposFrom t t.lastfree

variable (identity : ℕ → Identity)

section

-- `newkey`, as the functions that it calls call it
variable (create : Table V → LuaKey → Except Fault (Table V × Slot))

def setBy (t : Table V) (key : LuaKey) : Except Fault (Table V × Slot) := do
  match ← get identity t key with
  | some slot => pure (t, slot)
  | none =>
      match key with
      | .number n =>
          if n.IsNaN then .error (.luaError (.error "table index is NaN" [])) else create t key
      | _ => create t key

def setnumBy (t : Table V) (key : ℤ) : Except Fault (Table V × Slot) := do
  match ← getnum identity t key with
  | some slot => pure (t, slot)
  | none => create t (.integer key)

/-- The elements of an array from an index on, with their keys. -/
def slice (array : List (Option V)) (start : ℕ) : List (ℤ × V) :=
  ((array.drop start).mapIdx fun i v? =>
    v?.map fun v => (((start + i + 1 : ℕ) : ℤ), v)).reduceOption

/-- The nodes with a value, from the last to the first. -/
def nodesDown (node : List (Node V)) : List (LuaKey × V) :=
  node.reverse.filterMap fun n =>
    match n.key, n.val with
    | some key, some v => some (key, v)
    | _, _ => none

/-- `resize`. What the memory behind a shrinking array holds is read before it is given back. -/
def resize (t : Table V) (nasize nhsize : ℕ) : Except Fault (Table V) := do
  let grown := if t.sizearray < nasize then setarrayvector t nasize else t
  let fresh ← setnodevector grown nhsize
  let shrunk := { fresh with array := fresh.array.take nasize }
  let filled ← (slice t.array nasize).foldlM (fun t e => do
    let r ← setnumBy identity create t e.1
    pure (r.1.write r.2 (some e.2))) shrunk
  (nodesDown t.node).foldlM (fun t e => do
    let r ← setBy identity create t e.1
    pure (r.1.write r.2 (some e.2))) filled

def resizearray (t : Table V) (nasize : ℕ) : Except Fault (Table V) :=
  resize identity create t nasize (if t.isDummy then 0 else t.sizenode)

def rehash (t : Table V) (ek : LuaKey) : Except Fault (Table V) :=
  let inArray := numusearray t (List.replicate (maxBits + 1) 0)
  let inHash := numusehash t inArray.1
  let extra := countint ek inHash.1
  let nasize := inArray.2 + inHash.2.2 + extra.2
  let totaluse := inArray.2 + inHash.2.1 + 1
  let sizes := computesizes extra.1 nasize
  resize identity create t sizes.1 (totaluse - sizes.2)

def newkeyBy (t : Table V) (key : LuaKey) : Except Fault (Table V × Slot) :=
  let mp := mainposition identity t key
  if (t.gval mp).isSome ∨ t.isDummy then
    match getfreepos t with
    | none => do
        let t ← rehash identity create t key
        setBy identity create t key
    | some n =>
        let t := { t with lastfree := n }
        let othern := ((t.gkey mp).map (mainposition identity t)).getD mp
        if othern ≠ mp then do
          -- the colliding node is out of its main position and goes to the free one
          match ← search t (fun i => t.gnext i = some mp) othern with
          | none => .error .overrun -- a null pointer is followed
          | some previous =>
              let t := t.setNode previous fun p => { p with next := some n }
              let t := t.setNode n fun _ => t.gnode mp
              pure (t.setNode mp fun _ => ⟨some key, none, none⟩, .node mp)
        else
          -- the colliding node stays, and the new key goes to the free position
          let t := t.setNode n fun p => { p with key := some key, next := t.gnext mp }
          pure (t.setNode mp fun p => { p with next := some n }, .node n)
  else .ok (t.setNode mp fun n => { n with key := some key }, .node mp)

end

/-- `newkey`. It calls itself through `rehash`, as deep as `fuel` allows. -/
def newkey : ℕ → Table V → LuaKey → Except Fault (Table V × Slot)
  | 0, _, _ => .error .outOfFuel
  | fuel + 1, t, key => newkeyBy identity (newkey fuel) t key

/-- `luaH_set`. The keys that `rehash` puts into the new table find room there, so that it is
not called again for them. -/
def set (t : Table V) (key : LuaKey) : Except Fault (Table V × Slot) :=
  setBy identity (newkey identity 2) t key

def setnum (t : Table V) (key : ℤ) : Except Fault (Table V × Slot) :=
  setnumBy identity (newkey identity 2) t key

def rawset (t : Table V) (key : LuaKey) (v : Option V) : Except Fault (Table V) := do
  let r ← set identity t key
  pure (r.1.write r.2 v)

def rawseti (t : Table V) (n : ℤ) (v : Option V) : Except Fault (Table V) := do
  let r ← setnum identity t n
  pure (r.1.write r.2 v)

end

/-! ## Traversing -/

section

variable {V : Type} (identity : ℕ → Identity) (t : Table V)

/-- `findindex`, plus one. -/
def findindex : Option LuaKey → Except Fault ℕ
  | none => .ok 0
  | some key => do
      let i := arrayindex key
      if 0 < i ∧ i ≤ t.sizearray then pure i.toNat
      else
        match ← search t (fun i => t.gkey i = some key) (mainposition identity t key) with
        | some i => pure (t.sizearray + i + 1)
        | none => .error (.luaError (.error "invalid key to 'next'" []))

def nodeSlots : List (Option (LuaKey × V)) :=
  t.node.map fun n =>
    match n.key, n.val with
    | some key, some v => some (key, v)
    | _, _ => none

def arraySlots : List (Option (LuaKey × V)) :=
  t.array.mapIdx fun i v? => v?.map fun v => (.integer (i + 1), v)

def next (key : Option LuaKey) : Except Fault (Option (LuaKey × V)) := do
  let i ← findindex identity t key
  pure (((arraySlots t).drop i).findSome? id |>.or
    (((nodeSlots t).drop (i - t.sizearray)).findSome? id))

/-- `Iterator::next` until the key is nil, at most `fuel` times. -/
def entriesFrom : ℕ → Option LuaKey → Except Fault (List (LuaKey × V))
  | 0, _ => .error .outOfFuel
  | fuel + 1, key => do
      match ← next identity t key with
      | none => pure []
      | some e => do
          let rest ← entriesFrom fuel (some e.1)
          pure (e :: rest)

def iterate : Except Fault (List (LuaKey × V)) :=
  entriesFrom identity t (t.sizearray + t.node.length + 1) none

/-! ## Borders -/

def isNil (key : ℤ) : Except Fault Bool := do
  let slot ← getnum identity t key
  pure (slot.bind t.value).isNone

/-- `while (j - i > 1)` -/
def bisect (nil : ℕ → Except Fault Bool) : ℕ → ℕ → ℕ → Except Fault ℕ
  | 0, _, _ => .error .outOfFuel
  | fuel + 1, i, j =>
      if 1 < j - i then do
        let m := (i + j) / 2
        if ← nil m then bisect nil fuel i m else bisect nil fuel m j
      else pure i

/-- `while (!ttisnil(luaH_getnum(t, i))) i++` -/
def linear (nil : ℕ → Except Fault Bool) : ℕ → ℕ → Except Fault ℕ
  | 0, _ => .error .outOfFuel
  | fuel + 1, i => do if ← nil i then pure (i - 1) else linear nil fuel (i + 1)

/-- `MAX_INT`, which leaves two values out for safety. -/
def maxInt : ℕ := 2 ^ 31 - 3

/-- The loop of `unbound_search`, which doubles `j`. -/
def unboundLoop (nil : ℕ → Except Fault Bool) (size : ℕ) : ℕ → ℕ → ℕ → Except Fault ℕ
  | 0, _, _ => .error .outOfFuel
  | fuel + 1, i, j => do
      if ← nil j then bisect nil 32 i j
      else if maxInt < 2 * j then linear nil (size + 2) 1
      else unboundLoop nil size fuel j (2 * j)

def unboundSearch (j : ℕ) : Except Fault ℕ :=
  unboundLoop (fun k => isNil identity t k) (t.sizearray + t.node.length) 32 j (j + 1)

def getn : Except Fault ℕ :=
  let j := t.sizearray
  if 0 < j ∧ t.value (.array (j - 1)) = none then
    bisect (fun m => pure (t.value (.array (m - 1))).isNone) 32 0 j
  else if t.isDummy then pure j
  else unboundSearch identity t j

end

end LuaH

end Luapb
