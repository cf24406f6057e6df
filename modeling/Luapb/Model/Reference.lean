import Luapb.Model.Protobuf

/-! # A reference protobuf

Serializers and an input stream that satisfy the laws, so the laws are consistent
and results that assume them can be evaluated. A read that runs out of bytes leaves
the stream at the limit, as reading byte by byte does. -/

namespace Luapb

open Ieee754 Wire

/-- The wire format itself, as serializers. -/
def WireFormatLite.reference : WireFormatLite where
  writeTagToArray := tagBytes
  writeVarint32ToArray v := Varint.encode v.toNat
  writeRawToArray bytes n := bytes.take n
  writeFloatToArray n v := tagBytes n .fixed32 ++ fixed32 v.toBits
  writeInt32ToArray n v := tagBytes n .varint ++ Varint.encode (signExtended v)
  writeUInt32ToArray n v := tagBytes n .varint ++ Varint.encode v.toNat
  writeBoolToArray n v := tagBytes n .varint ++ Varint.encode v.toNat
  writeEnumToArray n v := tagBytes n .varint ++ Varint.encode (signExtended v)
  varintSize32 v := (Varint.encode v.toNat).length
  int32Size v := (Varint.encode (signExtended v)).length
  uInt32Size v := (Varint.encode v.toNat).length
  int64Size v := (Varint.encode v.toNat).length
  uInt64Size v := (Varint.encode v.toNat).length
  enumSize v := (Varint.encode (signExtended v)).length

theorem WireFormatLite.reference_documented : WireFormatLite.reference.Documented := by
  constructor <;> intros <;> rfl

namespace StreamView

/-- Where a failed varint read stops: at the limit if the bytes ran out. -/
def failVarint (v : StreamView) : StreamView :=
  if v.unread.length < Varint.maxBytes then v.advance v.unread.length else v

def readVarintRef {α : Type} (f : ℕ → α) (v : StreamView) (x : α) : Read StreamView α :=
  match v.readVarintAs f with
  | some (a, v') => ⟨true, a, v'⟩
  | none => ⟨false, x, v.failVarint⟩

def readTagRef (v : StreamView) : BitVec 32 × StreamView :=
  if v.unread = [] then (0, { v with legitimateEnd := true })
  else match v.readVarint with
    | some (n, v') => (BitVec.ofNat 32 n, v')
    | none => (0, v.failVarint)

def readFloatRef (v : StreamView) (x : CFloat) : Read StreamView CFloat :=
  match v.readFloat with
  | some (a, v') => ⟨true, a, v'⟩
  | none => ⟨false, x, v.advance v.unread.length⟩

/-- A string that runs past the limit is read as far as it goes. -/
def readStringRef (v : StreamView) (x : Bytes) : Read StreamView Bytes :=
  match v.readVarint with
  | none => ⟨false, x, v.failVarint⟩
  | some (n, v') =>
      if n % 2 ^ 32 < 2 ^ 31 then
        match v'.readBytes (n % 2 ^ 32) with
        | some (b, v'') => ⟨true, b, v''⟩
        | none => ⟨false, v'.unread, v'.advance v'.unread.length⟩
      else ⟨false, x, v'⟩

end StreamView

/-- The input stream whose states are what the documentation says of them. The two
limits are protobuf's defaults. -/
def CodedInputStream.reference : CodedInputStream where
  Stream := StreamView
  create := .start
  readTag := StreamView.readTagRef
  readFloat := StreamView.readFloatRef
  readInt32 := StreamView.readVarintRef (BitVec.ofNat 32)
  readBool := StreamView.readVarintRef fun n => decide (n % 2 ^ 64 ≠ 0)
  readUInt32 := StreamView.readVarintRef (BitVec.ofNat 32)
  readEnum := StreamView.readVarintRef (BitVec.ofNat 32)
  readString := StreamView.readStringRef
  pushLimit v n := (v.limit, { v with limit := v.pushedLimit n })
  popLimit v l := { v with limit := l, legitimateEnd := false }
  consumedEntireMessage := StreamView.legitimateEnd
  incrementRecursionDepth v := (decide (v.depth + 1 ≤ 100), { v with depth := v.depth + 1 })
  decrementRecursionDepth v := { v with depth := v.depth - 1 }
  recursionLimit := 100
  totalBytesLimit := 2 ^ 26
  view v := v

/-! ## The laws -/

namespace StreamView

/-- A view that differs only in being at the same position or further on. -/
structure Moved (v v' : StreamView) : Prop where
  data_eq : v'.data = v.data
  position_le : v.position ≤ v'.position
  limit_eq : v'.limit = v.limit
  depth_eq : v'.depth = v.depth
  end_eq : v'.legitimateEnd = v.legitimateEnd

theorem Moved.refl (v : StreamView) : Moved v v := ⟨rfl, le_rfl, rfl, rfl, rfl⟩

theorem moved_advance (v : StreamView) (n : ℕ) : Moved v (v.advance n) :=
  ⟨rfl, Nat.le_add_right _ _, rfl, rfl, rfl⟩

theorem Moved.trans {u v w : StreamView} (h : Moved u v) (k : Moved v w) : Moved u w :=
  ⟨k.data_eq.trans h.data_eq, h.position_le.trans k.position_le, k.limit_eq.trans h.limit_eq,
    k.depth_eq.trans h.depth_eq, k.end_eq.trans h.end_eq⟩

theorem moved_failVarint (v : StreamView) : Moved v v.failVarint := by
  rw [failVarint]
  split
  · exact moved_advance v _
  · exact .refl v

theorem moved_readVarint {v v' : StreamView} {n : ℕ} (h : v.readVarint = some (n, v')) :
    Moved v v' ∧ v.position < v'.position := by
  obtain ⟨⟨m, rest⟩, hd, hp⟩ := Option.map_eq_some_iff.mp h
  obtain ⟨-, rfl⟩ := Prod.mk.inj hp
  obtain ⟨used, hne, hsplit, -⟩ := Varint.decode_suffix hd
  refine ⟨moved_advance v _, ?_⟩
  have hpos := List.length_pos_iff.mpr hne
  simp only [advance, hsplit, List.length_append]
  omega

theorem moved_readVarintRef {α : Type} (f : ℕ → α) (v : StreamView) (x : α) :
    Moved v (v.readVarintRef f x).stream := by
  rw [readVarintRef, readVarintAs]
  cases h : v.readVarint with
  | none => exact moved_failVarint v
  | some p => exact (moved_readVarint h).1

theorem moved_readTagRef (v : StreamView) :
    Moved { v with legitimateEnd := (v.readTagRef).2.legitimateEnd } v.readTagRef.2 := by
  rw [readTagRef]
  split
  · exact .refl _
  · cases h : v.readVarint with
    | none =>
        have hm := moved_failVarint v
        exact ⟨hm.data_eq, hm.position_le, hm.limit_eq, hm.depth_eq, rfl⟩
    | some p =>
        have hm := (moved_readVarint h).1
        exact ⟨hm.data_eq, hm.position_le, hm.limit_eq, hm.depth_eq, rfl⟩

theorem readTagRef_end {v : StreamView} (h : v.unread = []) :
    v.readTagRef = (0, { v with legitimateEnd := true }) := by rw [readTagRef, if_pos h]

theorem readTagRef_some {v v' : StreamView} {n : ℕ} (h : v.readVarint = some (n, v')) :
    v.readTagRef = (BitVec.ofNat 32 n, v') := by
  have hend : v.unread ≠ [] := by
    intro hnil
    simp [readVarint, hnil] at h
  rw [readTagRef, if_neg hend, h]

theorem readTagRef_none {v : StreamView} (h : v.readVarint = none) : v.readTagRef.1 = 0 := by
  rw [readTagRef, h]
  split <;> rfl

theorem readTagRef_consumes {v : StreamView} (h : v.readTagRef.1 ≠ 0) :
    v.position < v.readTagRef.2.position := by
  cases hv : v.readVarint with
  | none => exact absurd (readTagRef_none hv) h
  | some p =>
      rw [readTagRef_some hv]
      exact (moved_readVarint hv).2

theorem unread_atEnd {v : StreamView} (h : v.data.length ≤ v.position) : v.unread = [] := by
  simp only [unread, List.take_eq_nil_iff, List.drop_eq_nil_iff]
  exact .inr h

theorem moved_readFloatRef (v : StreamView) (x : CFloat) :
    Moved v (v.readFloatRef x).stream := by
  rw [readFloatRef, readFloat]
  cases Wire.readFixed32 v.unread with
  | none => exact moved_advance v _
  | some p => exact moved_advance v _

theorem moved_readStringRef (v : StreamView) (x : Bytes) :
    Moved v (v.readStringRef x).stream := by
  rw [readStringRef]
  cases h : v.readVarint with
  | none => exact moved_failVarint v
  | some p =>
      have hm := (moved_readVarint h).1
      simp only [readBytes]
      split
      · split
        · rename_i hb
          obtain ⟨-, hb⟩ := Option.ite_none_right_eq_some.mp hb
          obtain ⟨-, rfl⟩ := Prod.mk.inj (Option.some.inj hb)
          exact hm.trans (moved_advance _ _)
        · exact hm.trans (moved_advance _ _)
      · exact hm

end StreamView

namespace CodedInputStream

open StreamView

theorem reference_moved {v v' : reference.Stream} (h : reference.ReadStep v v') :
    Moved v v' := by
  obtain x | x | x | x | x | x := h
  · exact moved_readFloatRef v x
  · exact moved_readVarintRef _ v x
  · exact moved_readVarintRef _ v x
  · exact moved_readVarintRef _ v x
  · exact moved_readVarintRef _ v x
  · exact moved_readStringRef v x

theorem reference_follows {α : Type} {read : StreamView → α → Read StreamView α}
    {spec : StreamView → Option (α × StreamView)}
    (hsome : ∀ v x a w, spec v = some (a, w) → read v x = ⟨true, a, w⟩)
    (hnone : ∀ v x, spec v = none → (read v x).ok = false) : reference.Follows read spec := by
  intro v x _
  split
  · rename_i a w h
    rw [hsome v x a w h]
    exact ⟨rfl, rfl, rfl⟩
  · rename_i h
    exact hnone v x h

theorem reference_follows_varint {α : Type} (f : ℕ → α) :
    reference.Follows (StreamView.readVarintRef f) (StreamView.readVarintAs f) :=
  reference_follows (fun v x a w h => by rw [readVarintRef, h])
    (fun v x h => by rw [readVarintRef, h])

theorem reference_follows_float : reference.Follows StreamView.readFloatRef
    StreamView.readFloat :=
  reference_follows (fun v x a w h => by simp only [readFloatRef, h])
    (fun v x h => by simp only [readFloatRef, h])

theorem reference_follows_string : reference.Follows StreamView.readStringRef
    StreamView.readString := by
  apply reference_follows
  · intro v x a w h
    obtain ⟨⟨n, v'⟩, hv, hp⟩ := Option.bind_eq_some_iff.mp h
    obtain ⟨hlt, hb⟩ := Option.ite_none_right_eq_some.mp hp
    simp only [readStringRef, hv, hlt, ite_true, hb]
  · intro v x h
    rw [readStringRef]
    cases hv : v.readVarint with
    | none => rfl
    | some p =>
        simp only [StreamView.readString, hv, Option.bind_some] at h
        split at h
        · rename_i hlt
          simp only [hlt, ite_true, h]
        · rename_i hlt
          simp only [hlt, ite_false]

theorem reference_documented : reference.Documented where
  create_forward _ := ⟨rfl, rfl⟩
  readTag_forward v := ⟨(moved_readTagRef v).data_eq, (moved_readTagRef v).position_le⟩
  readTag_consumes _ h := readTagRef_consumes h
  readTag_atEnd _ h := congrArg Prod.fst (readTagRef_end (unread_atEnd h))
  read_forward h := ⟨(reference_moved h).data_eq, (reference_moved h).position_le⟩
  pushLimit_forward _ _ := ⟨rfl, le_rfl⟩
  popLimit_forward _ _ := ⟨rfl, le_rfl⟩
  incrementRecursionDepth_forward _ := ⟨rfl, le_rfl⟩
  decrementRecursionDepth_forward _ := ⟨rfl, le_rfl⟩
  consumed _ := rfl
  readTag_limit v := (moved_readTagRef v).limit_eq
  readTag_depth v := (moved_readTagRef v).depth_eq
  read_limit h := (reference_moved h).limit_eq
  read_depth h := (reference_moved h).depth_eq
  pushLimit_old _ _ := rfl
  pushLimit _ _ := rfl
  popLimit _ _ := rfl
  increment_ok _ := rfl
  increment _ := rfl
  decrement _ := rfl
  totalBytesLimit_lt := by decide
  create _ := rfl
  readTag_end _ _ h := ⟨congrArg Prod.fst (readTagRef_end h), congrArg Prod.snd (readTagRef_end h)⟩
  readTag_some _ _ _ _ h :=
    ⟨congrArg Prod.fst (readTagRef_some h), congrArg Prod.snd (readTagRef_some h)⟩
  readTag_none _ _ h := readTagRef_none h
  readInt32 := reference_follows_varint _
  readUInt32 := reference_follows_varint _
  readEnum := reference_follows_varint _
  readBool := reference_follows_varint _
  readFloat := reference_follows_float
  readString := reference_follows_string

end CodedInputStream

/-! ## A stream that loses its place

Where a failed read leaves the stream is not documented. Here it is behind the end of the
buffer, where nothing can be read. -/

namespace StreamView

instance (v : StreamView) : Decidable v.Valid :=
  decidable_of_iff ((v.position : ℤ) ≤ v.limit ∧ v.limit ≤ v.data.length)
    ⟨fun h => ⟨h.1, h.2⟩, fun h => ⟨h.position_le, h.limit_le⟩⟩

def lost (v : StreamView) : StreamView := v.advance (v.data.length + 1 - v.position)

/-- A read that loses the place unless it finds a value. -/
def readOrLose {α : Type} (spec : StreamView → Option (α × StreamView)) (v : StreamView) (x : α) :
    Read StreamView α :=
  if v.Valid then
    match spec v with
    | some (a, w) => ⟨true, a, w⟩
    | none => ⟨false, x, v.lost⟩
  else ⟨false, x, v.lost⟩

def readTagOrLose (v : StreamView) : BitVec 32 × StreamView :=
  if v.Valid then
    if v.unread = [] then (0, { v with legitimateEnd := true })
    else match v.readVarint with
      | some (n, w) => (BitVec.ofNat 32 n, w)
      | none => (0, v.lost)
  else (0, v.lost)

end StreamView

/-- A stream that loses its place in a failed read, with a bound on the recursion depth. -/
def CodedInputStream.losing (recursionLimit : ℕ) : CodedInputStream where
  Stream := StreamView
  create := .start
  readTag := StreamView.readTagOrLose
  readFloat := StreamView.readOrLose StreamView.readFloat
  readInt32 := StreamView.readOrLose (StreamView.readVarintAs (BitVec.ofNat 32))
  readBool := StreamView.readOrLose (StreamView.readVarintAs fun n => decide (n % 2 ^ 64 ≠ 0))
  readUInt32 := StreamView.readOrLose (StreamView.readVarintAs (BitVec.ofNat 32))
  readEnum := StreamView.readOrLose (StreamView.readVarintAs (BitVec.ofNat 32))
  readString := StreamView.readOrLose StreamView.readString
  pushLimit v n := (v.limit, { v with limit := v.pushedLimit n })
  popLimit v l := { v with limit := l, legitimateEnd := false }
  consumedEntireMessage := StreamView.legitimateEnd
  incrementRecursionDepth v :=
    (decide (v.depth + 1 ≤ recursionLimit), { v with depth := v.depth + 1 })
  decrementRecursionDepth v := { v with depth := v.depth - 1 }
  recursionLimit := recursionLimit
  totalBytesLimit := 2 ^ 31 - 1
  view v := v

namespace StreamView

theorem moved_readVarintAs {α : Type} {f : ℕ → α} {v w : StreamView} {a : α}
    (h : v.readVarintAs f = some (a, w)) : Moved v w := by
  obtain ⟨⟨n, v'⟩, hv, hp⟩ := Option.map_eq_some_iff.mp h
  obtain ⟨-, rfl⟩ := Prod.mk.inj hp
  exact (moved_readVarint hv).1

theorem moved_readFloat {v w : StreamView} {a : CFloat} (h : v.readFloat = some (a, w)) :
    Moved v w := by
  obtain ⟨p, -, hp⟩ := Option.map_eq_some_iff.mp h
  obtain ⟨-, rfl⟩ := Prod.mk.inj hp
  exact moved_advance v 4

theorem moved_readString {v w : StreamView} {a : Bytes} (h : v.readString = some (a, w)) :
    Moved v w := by
  obtain ⟨⟨n, v'⟩, hv, hp⟩ := Option.bind_eq_some_iff.mp h
  obtain ⟨-, hb⟩ := Option.ite_none_right_eq_some.mp hp
  obtain ⟨-, hb⟩ := Option.ite_none_right_eq_some.mp hb
  obtain ⟨-, rfl⟩ := Prod.mk.inj (Option.some.inj hb)
  exact (moved_readVarint hv).1.trans (moved_advance _ _)

theorem moved_readOrLose {α : Type} {spec : StreamView → Option (α × StreamView)} {v : StreamView}
    (hspec : ∀ a w, spec v = some (a, w) → Moved v w) (x : α) :
    Moved v (v.readOrLose spec x).stream := by
  rw [readOrLose]
  split
  · split
    · rename_i h
      exact hspec _ _ h
    · exact moved_advance v _
  · exact moved_advance v _

theorem moved_readTagOrLose (v : StreamView) :
    Moved { v with legitimateEnd := v.readTagOrLose.2.legitimateEnd } v.readTagOrLose.2 := by
  have hmoved : ∀ {w : StreamView}, Moved v w →
      Moved { v with legitimateEnd := w.legitimateEnd } w :=
    fun h => ⟨h.data_eq, h.position_le, h.limit_eq, h.depth_eq, rfl⟩
  rw [readTagOrLose]
  split
  · split
    · exact .refl _
    · split
      · rename_i h
        exact hmoved (moved_readVarint h).1
      · exact hmoved (moved_advance v _)
  · exact hmoved (moved_advance v _)

theorem readTagOrLose_consumes {v : StreamView} (h : v.readTagOrLose.1 ≠ 0) :
    v.position < v.readTagOrLose.2.position := by
  rw [readTagOrLose] at h ⊢
  split at h
  · split at h
    · exact absurd rfl h
    · rename_i hvalid hne
      rw [if_pos hvalid, if_neg hne]
      split at h
      · rename_i hread
        exact (moved_readVarint hread).2
      · exact absurd rfl h
  · exact absurd rfl h

theorem readTagOrLose_atEnd {v : StreamView} (h : v.data.length ≤ v.position) :
    v.readTagOrLose.1 = 0 := by
  rw [readTagOrLose, if_pos (unread_atEnd h)]
  split <;> rfl

theorem readTagOrLose_end {v : StreamView} (hv : v.Valid) (h : v.unread = []) :
    v.readTagOrLose = (0, { v with legitimateEnd := true }) := by
  rw [readTagOrLose, if_pos hv, if_pos h]

theorem readTagOrLose_some {v w : StreamView} {n : ℕ} (hv : v.Valid)
    (h : v.readVarint = some (n, w)) : v.readTagOrLose = (BitVec.ofNat 32 n, w) := by
  have hne : v.unread ≠ [] := by
    intro hnil
    simp [readVarint, hnil] at h
  rw [readTagOrLose, if_pos hv, if_neg hne, h]

theorem readTagOrLose_none {v : StreamView} (h : v.readVarint = none) : v.readTagOrLose.1 = 0 := by
  rw [readTagOrLose, h]
  split
  · split <;> rfl
  · rfl

/-- A tag is read where there is one, or nothing is left. -/
theorem readTagOrLose_kept {v : StreamView}
    (h : v.readTagOrLose.2.position ≤ v.data.length) :
    v.Valid ∧ (v.unread = [] ∨ v.readVarint ≠ none) := by
  rw [readTagOrLose] at h
  split at h
  · rename_i hvalid
    refine ⟨hvalid, ?_⟩
    split at h
    · rename_i hnil
      exact .inl hnil
    · split at h
      · rename_i hread
        exact .inr (by simp [hread])
      · simp only [lost, advance] at h
        omega
  · simp only [lost, advance] at h
    omega

theorem readOrLose_kept {α : Type} {spec : StreamView → Option (α × StreamView)} {v : StreamView}
    {x : α} (h : (v.readOrLose spec x).stream.position ≤ v.data.length) :
    v.Valid ∧ spec v ≠ none := by
  rw [readOrLose] at h
  split at h
  · rename_i hvalid
    refine ⟨hvalid, ?_⟩
    split at h
    · rename_i hspec
      simp [hspec]
    · simp only [lost, advance] at h
      omega
  · simp only [lost, advance] at h
    omega

end StreamView

namespace CodedInputStream

open StreamView

variable {recursionLimit : ℕ}

theorem losing_moved {v v' : (losing recursionLimit).Stream}
    (h : (losing recursionLimit).ReadStep v v') : Moved v v' := by
  obtain x | x | x | x | x | x := h
  · exact moved_readOrLose (fun _ _ => moved_readFloat) x
  · exact moved_readOrLose (fun _ _ => moved_readVarintAs) x
  · exact moved_readOrLose (fun _ _ => moved_readVarintAs) x
  · exact moved_readOrLose (fun _ _ => moved_readVarintAs) x
  · exact moved_readOrLose (fun _ _ => moved_readVarintAs) x
  · exact moved_readOrLose (fun _ _ => moved_readString) x

theorem losing_follows {α : Type} (spec : StreamView → Option (α × StreamView)) :
    (losing recursionLimit).Follows (StreamView.readOrLose spec) spec := by
  intro v x hv
  have hvalid : v.Valid := hv.valid
  split
  · rename_i a w h
    change spec v = some (a, w) at h
    simp only [readOrLose, if_pos hvalid, h]
    exact ⟨trivial, trivial, rfl⟩
  · rename_i h
    change spec v = none at h
    simp only [readOrLose, if_pos hvalid, h]

theorem losing_documented : (losing recursionLimit).Documented where
  create_forward _ := ⟨rfl, rfl⟩
  readTag_forward v := ⟨(moved_readTagOrLose v).data_eq, (moved_readTagOrLose v).position_le⟩
  readTag_consumes _ h := readTagOrLose_consumes h
  readTag_atEnd _ h := readTagOrLose_atEnd h
  read_forward h := ⟨(losing_moved h).data_eq, (losing_moved h).position_le⟩
  pushLimit_forward _ _ := ⟨rfl, le_rfl⟩
  popLimit_forward _ _ := ⟨rfl, le_rfl⟩
  incrementRecursionDepth_forward _ := ⟨rfl, le_rfl⟩
  decrementRecursionDepth_forward _ := ⟨rfl, le_rfl⟩
  consumed _ := rfl
  readTag_limit v := (moved_readTagOrLose v).limit_eq
  readTag_depth v := (moved_readTagOrLose v).depth_eq
  read_limit h := (losing_moved h).limit_eq
  read_depth h := (losing_moved h).depth_eq
  pushLimit_old _ _ := rfl
  pushLimit _ _ := rfl
  popLimit _ _ := rfl
  increment_ok _ := rfl
  increment _ := rfl
  decrement _ := rfl
  totalBytesLimit_lt := by simp [losing]
  create _ := rfl
  readTag_end _ hv h :=
    ⟨congrArg Prod.fst (readTagOrLose_end hv.valid h),
      congrArg Prod.snd (readTagOrLose_end hv.valid h)⟩
  readTag_some _ _ _ hv h :=
    ⟨congrArg Prod.fst (readTagOrLose_some hv.valid h),
      congrArg Prod.snd (readTagOrLose_some hv.valid h)⟩
  readTag_none _ _ h := readTagOrLose_none h
  readInt32 := losing_follows _
  readUInt32 := losing_follows _
  readEnum := losing_follows _
  readBool := losing_follows _
  readFloat := losing_follows _
  readString := losing_follows _

end CodedInputStream

end Luapb
