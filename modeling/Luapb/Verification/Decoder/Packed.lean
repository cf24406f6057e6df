import Luapb.Verification.Decoder.Shown

/-! # Packed fields

An encoder may put the values of a repeated field into one record, or into a few. The loop
goes by the number in a tag and by the declared type, and not by the wire type. -/

namespace Luapb

open Ieee754 Wire PBStream

variable {M : Type}

/-- The types of `ReadValue` whose values can be packed. -/
inductive Packable : FieldType M → Prop
  | float : Packable .float
  | int32 : Packable .int32
  | uint32 : Packable .uint32
  | bool : Packable .bool
  | enum (enumType) : Packable (.enum enumType)

/-- A part of a list of values, as their payloads, and whether they share a record. -/
structure Chunk where
  packed : Bool
  payloads : List Bytes

/-- A record for each value. -/
def valueRecords (fd : FieldDescriptor M) (payloads : List Bytes) : Bytes :=
  payloads.flatMap fun payload => tagBytes fd.number fd.type.wireType ++ payload

/-- The records of a chunk. -/
def Chunk.records (fd : FieldDescriptor M) (chunk : Chunk) : Bytes :=
  if chunk.packed then tagBytes fd.number .lengthDelimited ++ lengthDelimited chunk.payloads.flatten
  else valueRecords fd chunk.payloads

/-- The records of a list of values that is split into chunks. -/
def chunkRecords (fd : FieldDescriptor M) (chunks : List Chunk) : Bytes :=
  chunks.flatMap (Chunk.records fd)

/-- Two messages that differ in one place, in a message of type `inner` at any depth, where
one has the records `wire` and the other `wire'`. -/
inductive Around (schema : Schema M) (inner : M) (wire wire' : Bytes) :
    ℕ → M → Bytes → Bytes → Prop
  | here {budget before after beforeFields afterFields}
      (hbefore : Contents schema budget inner before beforeFields)
      (hafter : Contents schema budget inner after afterFields) :
      Around schema inner wire wire' budget inner (before ++ (wire ++ after))
        (before ++ (wire' ++ after))
  | inside {budget msgD before after beforeFields afterFields fd messageType tagBytes lengthBytes
        lengthBytes' body body'}
      (hbefore : Contents schema (budget + 1) msgD before beforeFields)
      (hmem : fd ∈ (schema msgD).field) (htype : fd.type = .message messageType)
      (htag : Varint.decode tagBytes = some (tag fd.number .lengthDelimited, []))
      (hlength : Varint.decode lengthBytes = some (body.length, []))
      (hlength' : Varint.decode lengthBytes' = some (body'.length, []))
      (hlt : body.length < 2 ^ 31) (hlt' : body'.length < 2 ^ 31)
      (hbody : Around schema inner wire wire' budget messageType body body')
      (hafter : Contents schema (budget + 1) msgD after afterFields) :
      Around schema inner wire wire' (budget + 1) msgD
        (before ++ (tagBytes ++ (lengthBytes ++ body) ++ after))
        (before ++ (tagBytes ++ (lengthBytes' ++ body') ++ after))

/-- In whatever message type declares the field, and in whatever message the list stands,
splitting it does not change the decoded table. -/
def PackedAlike (P : Platform) (S : CodedInputStream) (garbage : S.Stream → ℤ) (inner : M)
    (fd : FieldDescriptor M) (chunks : List Chunk) : Prop :=
  ∀ schema : Schema M, fd ∈ (schema inner).field → ∀ msgD m m',
    Around schema inner (chunkRecords fd chunks) (valueRecords fd (chunks.flatMap Chunk.payloads))
      S.recursionLimit msgD m m' →
    m.length ≤ S.totalBytesLimit → m'.length ≤ S.totalBytesLimit →
    ∀ fuel, m.length < fuel → m'.length < fuel → ∃ run run',
      rawDecode P S garbage schema fuel 1 (S.create m) msgD = some run ∧
      rawDecode P S garbage schema fuel 1 (S.create m') msgD = some run' ∧
      Same (.table run.tab) (.table run'.tab)

/-- Records of a field if the wire types in their tags are ignored, with what is stored for
their values. -/
inductive FieldRecords (P : Platform) (fd : FieldDescriptor M) : Bytes → List LuaTree → Prop
  | nil : FieldRecords P fd [] []
  | cons {tagBytes n payload v rest trees} (htag : Varint.decode tagBytes = some (n, []))
      (hnumber : n % 2 ^ 32 / 8 = fd.number) (hvalue : ScalarReads P fd.type payload v)
      (hrest : FieldRecords P fd rest trees) :
      FieldRecords P fd (tagBytes ++ payload ++ rest) (v.toList ++ trees)

variable {P : Platform} {S : CodedInputStream} {garbage : S.Stream → ℤ} {schema : Schema M}
  {fd : FieldDescriptor M}

/-- The loop stores the values one after the other. -/
theorem FieldRecords.leadsTo (hS : S.Documented) {budget : ℕ} {msgD : M}
    (hmem : fd ∈ (schema msgD).field) {bytes : Bytes} {trees : List LuaTree}
    (h : FieldRecords P fd bytes trees) (tab : LuaTable) :
    LeadsTo P S garbage schema budget msgD tab bytes (fillAll P tab (trees.map (fd, ·))) := by
  induction h generalizing tab with
  | nil => exact .nil
  | @cons tagBytes n payload v rest trees htag hnumber hvalue _ ih =>
      refine (LeadsTo.value hS hmem htag hnumber hvalue tab).append ?_
      cases v with
      | none => exact ih tab
      | some tree => exact ih (fillValue P tab fd tree)

/-- A list with a record for each value is one of records of the field. -/
theorem fieldRecords_valueRecords {payloads : List Bytes}
    (h : ∀ payload ∈ payloads, ∃ x, Carries fd.type payload x) :
    ∃ trees, FieldRecords P fd (valueRecords fd payloads) trees := by
  induction payloads with
  | nil => exact ⟨[], .nil⟩
  | cons payload payloads ih =>
      rcases List.forall_mem_cons.mp h with ⟨⟨x, hx⟩, hpayloads⟩
      rcases ih hpayloads with ⟨trees, htrees⟩
      exact ⟨_, .cons (decode_tagBytes fd _) (tag_narrow_div fd.number_le _) hx.reads htrees⟩

/-- Messages around records that lead to the same table lead to the same table. -/
theorem Around.leadsTo (hS : S.Documented) {inner msgD : M} {wire wire' m m' : Bytes} {budget : ℕ}
    (h : Around schema inner wire wire' budget msgD m m')
    (hwire : ∀ budget tab, ∃ tab', LeadsTo P S garbage schema budget inner tab wire tab' ∧
      LeadsTo P S garbage schema budget inner tab wire' tab') (tab : LuaTable) :
    ∃ tab', LeadsTo P S garbage schema budget msgD tab m tab' ∧
      LeadsTo P S garbage schema budget msgD tab m' tab' := by
  induction h generalizing tab with
  | @here budget _ _ _ _ hbefore hafter =>
      have hfront : LeadsTo P S garbage schema budget inner tab _ _ :=
        (hbefore.denotes tab).leadsTo hS
      rcases hwire budget _ with ⟨tab', hleads, hleads'⟩
      have hback : LeadsTo P S garbage schema budget inner tab' _ _ :=
        (hafter.denotes tab').leadsTo hS
      exact ⟨_, hfront.append (hleads.append hback), hfront.append (hleads'.append hback)⟩
  | @inside budget msgD _ _ _ _ _ _ _ _ _ _ _ hbefore hmem htype htag hlength hlength' hlt hlt' _
      hafter ih =>
      have hfront : LeadsTo P S garbage schema (budget + 1) msgD tab _ _ :=
        (hbefore.denotes tab).leadsTo hS
      rcases ih [] with ⟨value, hvalue, hvalue'⟩
      have hmessage := LeadsTo.message hS hmem htype htag hlength hlt hvalue
      have hmessage' := LeadsTo.message hS hmem htype htag hlength' hlt' hvalue'
      have hback : ∀ tab, LeadsTo P S garbage schema (budget + 1) msgD tab _ _ :=
        fun tab => (hafter.denotes tab).leadsTo hS
      exact ⟨_, hfront.append ((hmessage _).append (hback _)),
        hfront.append ((hmessage' _).append (hback _))⟩

/-- A split list is decoded alike if it reads as records of the field with the same values. -/
theorem FieldRecords.packedAlike (hS : S.Documented) {inner : M} {chunks : List Chunk}
    {trees : List LuaTree} (h : FieldRecords P fd (chunkRecords fd chunks) trees)
    (h' : FieldRecords P fd (valueRecords fd (chunks.flatMap Chunk.payloads)) trees) :
    PackedAlike P S garbage inner fd chunks := by
  intro schema hmem msgD m m' haround hm hm' fuel hfuel hfuel'
  obtain ⟨tab, hleads, hleads'⟩ : ∃ tab,
      LeadsTo P S garbage schema S.recursionLimit msgD [] m tab ∧
      LeadsTo P S garbage schema S.recursionLimit msgD [] m' tab :=
    haround.leadsTo hS (fun budget tab => ⟨_, h.leadsTo hS hmem tab, h'.leadsTo hS hmem tab⟩) []
  rcases rawDecode_isSome (P := P) hS.toProgress hfuel with ⟨run, hrun⟩
  rcases rawDecode_isSome (P := P) hS.toProgress hfuel' with ⟨run', hrun'⟩
  refine ⟨run, run', hrun, hrun', ?_⟩
  rw [(hleads.run_eq hS hm hrun).1, (hleads'.run_eq hS hm' hrun').1]
  exact .refl _

end Luapb
