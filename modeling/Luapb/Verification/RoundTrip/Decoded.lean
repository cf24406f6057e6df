import Luapb.Verification.Decoder.Shown
import Luapb.Verification.RoundTrip.Correctness

/-! # Decoded tables

What `Decode` returns for a message, `Encode` takes back. The bytes that it writes need not be
those that were read: the records of a field are together, numbers have no unused bytes, and
what a later record overrides is gone. The table that is read from them is the same. -/

namespace Luapb

open PBStream

variable {M : Type} {P : Platform} {W : WireFormatLite} {schema : Schema M}

/-- The scalars that are written as they were read. -/
def Scalar.Survives (P : Platform) : Scalar → Prop
  | .float x => ¬ x.IsNaN
  | .string s => (0 : UInt8) ∉ s
  | x => x.Fits P

/-- The values with no other scalars in them. -/
def FieldValue.Survives (P : Platform) : FieldValue M → Prop
  | .scalar x => x.Survives P
  | .undeclared => True
  | .message fields => ∀ x, Kept fields x → x.Survives P

theorem Scalar.Survives.fits {x : Scalar} (h : x.Survives P) : x.Fits P := by
  cases x with
  | float | string => trivial
  | _ => exact h

theorem Carries.conforms {type : FieldType M} {payload : Bytes} {x : Scalar}
    (h : Carries type payload (some x)) (hx : x.Survives P) : x.Conforms type := by
  generalize hvalue : some x = value at h
  cases h with
  | enum _ =>
      obtain ⟨value, hfind, rfl⟩ := Option.map_eq_some_iff.mp hvalue.symm
      exact .enum (find?_of_nodup_map EnumValueDescriptor.name (EnumDescriptor.names_nodup _)
        (List.mem_of_find?_eq_some hfind))
  | float _ =>
      obtain rfl := Option.some.inj hvalue
      exact .float hx
  | string _ _ =>
      obtain rfl := Option.some.inj hvalue
      exact .string hx
  | int32 _ | uint32 _ | bool _ =>
      obtain rfl := Option.some.inj hvalue
      constructor

theorem FieldValue.Survives.kept {fields : Fields M}
    (h : (FieldValue.message fields).Survives P) {f : FieldDescriptor M × FieldValue M}
    (hf : f ∈ fields) {v : FieldValue M} (hv : v ∈ keptValues f.1 fields) : v.Survives P := by
  cases v with
  | scalar x => exact h x (.scalar hf hv)
  | undeclared => trivial
  | message inner => exact fun x hx => h x (.nested hf hv hx)

/-! ## Keys -/

theorem nodup_keys_fillValue {tab : LuaTable} (h : (tab.map (·.1)).Nodup) (fd : FieldDescriptor M)
    (tree : LuaTree) : ((fillValue P tab fd tree).map (·.1)).Nodup := by
  rw [fillValue]
  split
  · split <;> exact LuaTable.nodup_keys_set h _ _
  · exact LuaTable.nodup_keys_set h _ _

theorem nodup_keys_fillAll (stores : List (FieldDescriptor M × LuaTree)) :
    ((fillAll P [] stores).map (·.1)).Nodup := by
  induction stores using List.reverseRecOn with
  | nil => exact List.nodup_nil
  | append_singleton stores s ih =>
      rw [fillAll_append]
      exact nodup_keys_fillValue ih s.1 s.2

/-! ## Values -/

/-- What the decoder makes of messages nested no deeper than `depth`. -/
def Decoded (P : Platform) (schema : Schema M) (depth : ℕ) (msgD : M) (tree : LuaTree) : Prop :=
  ∃ bytes fields, Contents schema depth msgD bytes fields ∧
    (FieldValue.message fields).Survives P ∧ tree = .table (fillAll P [] (storesOf P fields))

/-- What it makes of a value of a field. -/
inductive DecodedValue (P : Platform) (schema : Schema M) (depth : ℕ) (fd : FieldDescriptor M)
    (tree : LuaTree) : Prop
  | scalar {x : Scalar} (hx : x.Conforms fd.type) (hfits : x.Fits P) (htree : tree = x.push P)
  | message {d messageType} (htype : fd.type = .message messageType) (hdepth : depth = d + 1)
      (hdecoded : Decoded P schema d messageType tree)

/-- An entry of its table. -/
inductive DecodedEntry (P : Platform) (schema : Schema M) (depth : ℕ) (msgD : M) :
    LuaKey × LuaTree → Prop
  | singular {fd tree} (hmem : fd ∈ (schema msgD).field) (hone : fd.isRepeated = false)
      (hvalue : DecodedValue P schema depth fd tree) :
      DecodedEntry P schema depth msgD (.string fd.name, tree)
  | repeated {fd trees} (hmem : fd ∈ (schema msgD).field) (hmany : fd.isRepeated = true)
      (hne : trees ≠ []) (hvalues : ∀ tree ∈ trees, DecodedValue P schema depth fd tree) :
      DecodedEntry P schema depth msgD (.string fd.name, .table (sequence trees))

section

variable {depth : ℕ} {msgD : M} {bytes : Bytes} {fields : Fields M}

theorem Contents.decodedValue (h : Contents schema depth msgD bytes fields)
    {f : FieldDescriptor M × FieldValue M} (hf : f ∈ fields) (hsurvives : f.2.Survives P)
    {tree : LuaTree} (hpush : f.2.push P = some tree) : DecodedValue P schema depth f.1 tree := by
  induction h with
  | nil => cases hf
  | @scalar _ _ _ _ _ x _ _ _ _ hcarries _ ih =>
      rcases List.mem_cons.mp hf with rfl | hf
      · cases x with
        | none => cases FieldValue.push_undeclared.symm.trans hpush
        | some x =>
            have htree := Option.some.inj ((FieldValue.push_scalar x).symm.trans hpush)
            exact .scalar (hcarries.conforms hsurvives) (Scalar.Survives.fits hsurvives) htree.symm
      · exact ih hf
  | @message _ _ _ _ _ _ _ inner _ _ _ htype _ _ _ hbody _ _ ih =>
      rcases List.mem_cons.mp hf with rfl | hf
      · have htree := Option.some.inj ((FieldValue.push_message inner).symm.trans hpush)
        exact .message htype rfl ⟨_, inner, hbody, hsurvives, htree.symm⟩
      · exact ih hf

theorem Contents.keptValue (h : Contents schema depth msgD bytes fields)
    (hsurvives : (FieldValue.message fields).Survives P) {f : FieldDescriptor M × FieldValue M}
    (hf : f ∈ fields) {v : FieldValue M} (hv : v ∈ keptValues f.1 fields) {tree : LuaTree}
    (hpush : v.push P = some tree) : DecodedValue P schema depth f.1 tree := by
  have hsurvivesValue := hsurvives.kept hf hv
  obtain ⟨f', hf', hnumber, rfl, -⟩ := mem_of_mem_retained (mem_of_mem_keptValues hv)
  have heq : f'.1 = f.1 := Descriptor.eq_of_number (h.mem f' hf') (h.mem f hf) hnumber
  exact heq ▸ h.decodedValue hf' hsurvivesValue hpush

theorem Contents.decodedEntry (h : Contents schema depth msgD bytes fields)
    (hsurvives : (FieldValue.message fields).Survives P) {e : LuaKey × LuaTree}
    (he : e ∈ fillAll P [] (storesOf P fields)) : DecodedEntry P schema depth msgD e := by
  rcases e with ⟨k, tree⟩
  have hget := LuaTable.get_of_mem (nodup_keys_fillAll _) he
  obtain ⟨f, hf, rfl, hne⟩ :=
    (isSome_get_storesOf h.mem k).mp (Option.isSome_of_eq_some hget)
  cases hmany : f.1.isRepeated with
  | true =>
      have htrees : treesOf f.1 (storesOf P fields) ≠ [] := mt treesOf_eq_nil.mp hne
      rw [get_storesOf h.mem (h.mem f hf), collected, if_pos hmany, listed, if_neg htrees] at hget
      obtain rfl := Option.some.inj hget
      refine .repeated (h.mem f hf) hmany htrees ?_
      intro tree htree
      obtain ⟨v, hv, hpush⟩ := Fallible.exists_of_mem_right (retained_push f.1 fields) htree
      refine h.keptValue hsurvives hf ?_ hpush
      rwa [keptValues, if_pos hmany]
  | false =>
      obtain ⟨v, hlast⟩ := Option.isSome_iff_exists.mp (List.getLast?_isSome.mpr hne)
      obtain ⟨tree', hpush, hget'⟩ := get_storesOf_singular h.mem (h.mem f hf) hmany hlast
      obtain rfl := Option.some.inj (hget'.symm.trans hget)
      refine .singular (h.mem f hf) hmany (h.keptValue hsurvives hf ?_ hpush)
      rw [keptValues, hmany, if_neg Bool.false_ne_true]
      exact Option.mem_toList.mpr hlast

end

/-! ## Decoded tables conform -/

variable {depth : ℕ} {msgD : M} {tree : LuaTree}

theorem DecodedValue.conforming {nested : M → LuaTree → Prop} {fd : FieldDescriptor M}
    (h : DecodedValue P schema depth fd tree)
    (hnested : ∀ d messageType tree, depth = d + 1 → Decoded P schema d messageType tree →
      nested messageType tree) : ConformingValue LuaTree.state nested fd tree := by
  cases h with
  | @scalar x hx hfits htree =>
      subst htree
      exact .scalar hx ((Scalar.represents_push_iff x).mpr hfits)
  | message htype hdepth hdecoded => exact .message htype (hnested _ _ _ hdepth hdecoded)

theorem Decoded.entries (h : Decoded P schema depth msgD tree) {nested : M → LuaTree → Prop}
    (hnested : ∀ d messageType tree, depth = d + 1 → Decoded P schema d messageType tree →
      nested messageType tree) : ConformingEntries LuaTree.state schema nested msgD tree := by
  obtain ⟨bytes, fields, hfields, hsurvives, rfl⟩ := h
  refine .entries rfl (nodup_keys_fillAll _) ?_
  intro e he
  cases hfields.decodedEntry hsurvives he with
  | singular hmem hone hvalue => exact .singular hmem hone (hvalue.conforming hnested)
  | repeated hmem hmany hne hvalues =>
      exact .repeated hmem hmany rfl hne fun tree htree => (hvalues tree htree).conforming hnested

theorem Decoded.conforming (h : Decoded P schema depth msgD tree) :
    Conforming LuaTree.state schema depth msgD tree := by
  induction depth generalizing msgD tree with
  | zero =>
      apply h.entries
      intro d messageType tree hdepth
      cases hdepth
  | succ depth ih =>
      apply h.entries
      intro d messageType tree hdepth hdecoded
      obtain rfl := Nat.succ.inj hdepth
      exact ih hdecoded

/-! ## Unsigned integers in decoded tables fit -/

theorem DecodedEntry.part {e : LuaKey × LuaTree} (h : DecodedEntry P schema depth msgD e)
    {parts : List (FieldDescriptor M × LuaTree)}
    (hparts : EntryParts P LuaTree.state schema msgD e parts)
    {part : FieldDescriptor M × LuaTree} (hpart : part ∈ parts) :
    DecodedValue P schema depth part.1 part.2 := by
  cases h with
  | singular hmem hone hvalue =>
      obtain rfl := hparts.deterministic (entryParts_singular hmem hone)
      obtain rfl := List.mem_singleton.mp hpart
      exact hvalue
  | repeated hmem hmany hne hvalues =>
      obtain rfl := hparts.deterministic (entryParts_repeated hmem hmany rfl)
      obtain ⟨tree, htree, rfl⟩ := List.mem_map.mp hpart
      exact hvalues tree htree

theorem Decoded.part (h : Decoded P schema depth msgD tree)
    {parts : List (FieldDescriptor M × LuaTree)}
    (hparts : TableParts P LuaTree.state schema msgD tree parts)
    {part : FieldDescriptor M × LuaTree} (hpart : part ∈ parts) :
    DecodedValue P schema depth part.1 part.2 := by
  obtain ⟨bytes, fields, hfields, hsurvives, rfl⟩ := h
  obtain ⟨htab, hpartss⟩ := hparts
  obtain rfl := LuaView.table.inj htab
  obtain ⟨ps, hps, hpart⟩ := List.mem_flatten.mp hpart
  obtain ⟨e, he, heps⟩ := Fallible.exists_of_mem_right hpartss hps
  exact (hfields.decodedEntry hsurvives he).part heps hpart

theorem DecodedValue.fitsUnsigned {fd : FieldDescriptor M}
    (h : DecodedValue P schema depth fd tree) : FitsUnsigned P fd.type tree.view := by
  intro htype n hn
  cases h with
  | @scalar x hx hfits htree =>
      subst htree
      rw [htype] at hx
      cases hx with
      | uint32 m =>
          have hm := (Scalar.represents_push_iff (P := P) (.uint32 m)).mpr hfits
          exact represents_uint32_unique hn hm ▸ hfits
  | message htype' _ _ => cases htype.symm.trans htype'

theorem Decoded.unsignedFits (h : Decoded P schema depth msgD tree) (fuel : ℕ) :
    UnsignedFits P LuaTree.state schema fuel msgD tree := by
  have hinvariant : ∃ d, Decoded P schema d msgD tree := ⟨depth, h⟩
  refine everywhere_of_invariant (R := fun msgD tree => ∃ d, Decoded P schema d msgD tree) ?_
    hinvariant fuel
  rintro msgD tree parts part ⟨d, hdecoded⟩ hparts hpart
  have hvalue := hdecoded.part hparts hpart
  refine ⟨hvalue.fitsUnsigned, ?_⟩
  intro messageType htype
  cases hvalue with
  | scalar hx _ _ =>
      rw [hx.messageType_eq_none] at htype
      cases htype
  | message htype' _ hnested =>
      rw [htype'] at htype
      exact ⟨_, Option.some.inj htype ▸ hnested⟩

/-! ## `Decode` and `Encode` -/

/-- `Encode` writes what `Decode` has read, and `Decode` reads an equal table from it. -/
theorem decoded_round_trips (hW : W.Documented) {S : CodedInputStream} (hS : S.Documented)
    (hschema : SchemaSupported schema) {findMessage : Bytes → Option M} (heap : ℕ → UInt8)
    (garbage : S.Stream → ℤ) {fuel : ℕ} (hfuel : S.recursionLimit < fuel) {name : LuaTree}
    {s : Bytes} (hname : Stack.checklstring P name.view = .ok s)
    (hfind : findMessage (cstr s) = some msgD) {bytes : Bytes} {fields : Fields M}
    (hfields : Contents schema S.recursionLimit msgD bytes fields)
    (hlen : bytes.length ≤ S.totalBytesLimit) (hsurvives : ∀ x, Kept fields x → x.Survives P)
    {steps : ℕ} (hsteps : bytes.length < steps) :
    ∃ run, decode P S garbage schema findMessage steps name.view (.string bytes) =
        .ok (some run) ∧
      ((∀ n, rawByteSizeBy P W LuaTree.state schema id fuel msgD (.table run.tab) = .ok n →
        n ≤ S.totalBytesLimit) →
        RoundTrips P W S LuaTree.state schema findMessage heap garbage fuel name
          (.table run.tab)) := by
  obtain ⟨run, hrun⟩ : ∃ run, rawDecode P S garbage schema steps 1 (S.create bytes) msgD =
      some run := rawDecode_isSome hS.toProgress hsteps
  obtain ⟨htab, -⟩ := hfields.run_eq hS hlen hrun
  have hdecoded : Decoded P schema S.recursionLimit msgD (.table run.tab) :=
    ⟨bytes, fields, hfields, hsurvives, congrArg LuaTree.table htab⟩
  refine ⟨run, ?_, ?_⟩
  · have hbuff : Stack.getString P (.string bytes : LuaView LuaTree) = .ok bytes := rfl
    simp only [decode, hname, Fallible.ok_bind, hbuff, hfind, hrun]
    rfl
  · intro hsize
    obtain ⟨payload, value, hencode, hback, hiff⟩ :=
      hdecoded.conforming.encode_decode hW hS hschema heap garbage hfuel hname hfind hsize
    exact (roundTrips_iff_equal hencode hback).mpr (hiff.mpr (hdecoded.unsignedFits fuel))

/-- `{child = {{value = 7}}}` with a byte too many in the number, which `Encode` leaves out. -/
theorem decoded_round_trips_tree :
    ∃ run, decode (.plain .win32) .reference (fun _ => 0) Tree.schema Tree.findMessage 6
        (LuaTree.string Tree.fullName).view (.string [10, 3, 16, 135, 0]) = .ok (some run) ∧
      RoundTrips (.plain .win32) .reference .reference LuaTree.state Tree.schema
        Tree.findMessage (fun _ => 0) (fun _ => 0) 101 (.string Tree.fullName)
        (.table run.tab) := by
  have hvalue : Varint.decode [135, 0] = some (7, []) := by decide
  have hlength : Varint.decode [3] = some (3, []) := by decide
  have hcontents : Contents Tree.schema 100 () [10, 3, 16, 135, 0] (Tree.nodeFields 7) :=
    Tree.contents_node hvalue hlength (by decide)
  have hname : Stack.checklstring (.plain .win32) (LuaTree.string Tree.fullName).view =
      .ok Tree.fullName := rfl
  have hfind : Tree.findMessage (cstr Tree.fullName) = some () := rfl
  have hsurvives : ∀ x, Kept (Tree.nodeFields 7) x → x.Survives (.plain .win32) := by
    intro x hx
    rw [Tree.kept_node.mp hx]
    exact .inr (by decide)
  obtain ⟨run, hrun, htrips⟩ := decoded_round_trips WireFormatLite.reference_documented
    CodedInputStream.reference_documented tree_supported (fun _ => 0) (fun _ => 0)
    (by decide : 100 < 101) hname hfind hcontents (by decide) hsurvives (by decide : 5 < 6)
  have htab : (decode (.plain .win32) .reference (fun _ => 0) Tree.schema Tree.findMessage 6
      (LuaTree.string Tree.fullName).view (.string [10, 3, 16, 135, 0])).map
        (Option.map fun run => LuaTree.table run.tab) = .ok (some (Tree.node 7)) := rfl
  rw [hrun] at htab
  refine ⟨run, hrun, htrips ?_⟩
  intro n hn
  have hnode : LuaTree.table run.tab = Tree.node 7 := Option.some.inj (Except.ok.inj htab)
  have hsize : rawByteSizeBy (.plain .win32) .reference LuaTree.state Tree.schema id 101 ()
      (Tree.node 7) = .ok 4 := by decide +kernel
  rw [hnode, hsize] at hn
  exact Except.ok.inj hn ▸ by decide

end Luapb
