import Luapb.Verification.Decoder.Contents
import Luapb.Verification.Decoder.Losing

/-! # Records the decoder cannot interpret

The declared type of a field may be one that the decoder has no case for, and a tag may have
another wire type than that of the declared type. The loop does not look at the wire type, and
so it ends behind such a record only if the payload happens to suit the declared type. -/

namespace Luapb

open Wire PBStream

variable {M : Type}

/-- The types for which the decoder has a case. -/
def FieldType.isSupported : FieldType M → Bool
  | .float | .int32 | .bool | .string | .int64 | .uint64 | .uint32 | .enum _ | .message _ => true
  | _ => false

/-- A record of a declared field that the decoder cannot interpret. -/
structure MismatchedRecord (fd : FieldDescriptor M) (t : WireType) (tagBytes payload : Bytes) :
    Prop where
  tag_eq : Varint.decode tagBytes = some (tag fd.number t, [])
  isPayload : IsPayload t payload ∨ t = .startGroup ∧ IsGroup fd.number payload
  mismatch : fd.type.isSupported = false ∨ t ≠ fd.type.wireType

theorem MismatchedRecord.ne_nil {fd : FieldDescriptor M} {t : WireType} {tagBytes payload : Bytes}
    (h : MismatchedRecord fd t tagBytes payload) : payload ≠ [] := by
  rcases h.isPayload with hpayload | ⟨-, hgroup⟩
  · exact hpayload.ne_nil
  · exact hgroup.ne_nil

/-- Wherever such a record stands in a well-formed message of type `inner`, with `room` levels
of nesting left: the iteration that finds it ends behind it, and `RawDecode` finds the values
of the other fields that it finds without the record. -/
structure InStep (P : Platform) (S : CodedInputStream) (schema : Schema M) (room : ℕ) (inner : M)
    (fd : FieldDescriptor M) (record : Bytes) : Prop where
  positioned : ∀ garbage depth s tab budget rest fields, room ≤ budget →
    Contents schema budget inner rest fields → LoopHead S budget s (record ++ rest) →
    ∃ s' tab' b, Iterates P S garbage schema depth inner s tab s' tab' ∧
      S.view s' = { (S.view s).advance record.length with legitimateEnd := b }
  same_values : ∀ garbage depth s s₀ budget before after beforeFields afterFields, room ≤ budget →
    Contents schema budget inner before beforeFields →
    Contents schema budget inner after afterFields →
    LoopHead S budget s (before ++ (record ++ after)) → LoopHead S budget s₀ (before ++ after) →
    ∀ fuel, (S.view s).data.length < fuel → (S.view s₀).data.length < fuel → ∃ run run₀,
      rawDecode P S garbage schema fuel depth s inner = some run ∧
      rawDecode P S garbage schema fuel depth s₀ inner = some run₀ ∧
      ∀ k, k ≠ .string fd.name → run.tab.get k = run₀.tab.get k

variable {P : Platform} {S : CodedInputStream} {schema : Schema M}

/-! ## The other fields -/

/-- What a value leaves under a name depends on nothing else in the table. -/
theorem get_fillValue_congr {tab tab' : LuaTable} {k : LuaKey} (h : tab.get k = tab'.get k)
    (fd : FieldDescriptor M) (tree : LuaTree) :
    (fillValue P tab fd tree).get k = (fillValue P tab' fd tree).get k := by
  by_cases hk : k = .string fd.name
  · subst hk
    rw [fillValue, fillValue, h]
    split
    · split <;> rw [LuaTable.get_set_self, LuaTable.get_set_self]
    · rw [LuaTable.get_set_self, LuaTable.get_set_self]
  · rw [get_fillValue_of_ne tab hk, get_fillValue_of_ne tab' hk, h]

theorem get_fillAll_congr {tab tab' : LuaTable} {k : LuaKey} (h : tab.get k = tab'.get k)
    (stores : List (FieldDescriptor M × LuaTree)) :
    (fillAll P tab stores).get k = (fillAll P tab' stores).get k := by
  induction stores generalizing tab tab' with
  | nil => exact h
  | cons s stores ih => exact ih (get_fillValue_congr h s.1 s.2)

/-- An iteration on a declared field leaves the other names alone. -/
theorem Iterates.get_of_ne {garbage : S.Stream → ℤ} {depth : ℕ} {msgD : M} {s s' : S.Stream}
    {tab tab' : LuaTable} (h : Iterates P S garbage schema depth msgD s tab s' tab')
    {fd : FieldDescriptor M}
    (hfd : (schema msgD).findFieldByNumber (readFieldNumber S s).1 = some fd) {k : LuaKey}
    (hk : k ≠ .string fd.name) : tab'.get k = tab.get k := by
  cases h with
  | unknown => rfl
  | message _ hfind =>
      obtain rfl := Option.some.inj (hfd.symm.trans hfind)
      exact get_fillValue_of_ne tab hk _
  | value _ hfind =>
      obtain rfl := Option.some.inj (hfd.symm.trans hfind)
      rcases readValue_tab (P := P) (readFieldNumber S s).2 tab fd with htab | ⟨tree, htab⟩
      · rw [htab]
      · rw [htab]
        exact get_fillValue_of_ne tab hk tree

/-- Where the iteration ends behind the record, the other fields have the values they have
without it. -/
theorem inStep_of_positioned (hS : S.Documented) {room n : ℕ} {inner : M} {fd : FieldDescriptor M}
    {tagBytes payload : Bytes} (hmem : fd ∈ (schema inner).field)
    (htag : Varint.decode tagBytes = some (n, [])) (hnumber : n % 2 ^ 32 / 8 = fd.number)
    (hpositioned : ∀ garbage depth s tab budget rest fields, room ≤ budget →
      Contents schema budget inner rest fields →
      LoopHead S budget s ((tagBytes ++ payload) ++ rest) →
      ∃ s' tab' b, Iterates P S garbage schema depth inner s tab s' tab' ∧
        S.view s' = { (S.view s).advance (tagBytes ++ payload).length with legitimateEnd := b }) :
    InStep P S schema room inner fd (tagBytes ++ payload) := by
  refine ⟨hpositioned, ?_⟩
  intro garbage depth s s₀ budget before after beforeFields afterFields hroom hbefore hafter head
    head₀ fuel hfuel hfuel₀
  -- up to the record both calls do the same
  have hfront : LeadsTo P S garbage schema budget inner [] before _ :=
    (hbefore.denotes []).leadsTo hS
  rcases hfront s _ depth head.readable head.unread_eq head.depth_le with
    ⟨s₁, b₁, hview₁, hcontinue⟩
  have head₁ := head.advance hview₁
  rcases hpositioned garbage depth s₁ _ budget after afterFields hroom hafter head₁ with
    ⟨s₂, tab₂, b₂, hiterates, hview₂⟩
  have head₂ := head₁.advance hview₂
  -- behind it the call goes on with a table that may differ under the name of the field
  have hback : LeadsTo P S garbage schema budget inner tab₂ after _ :=
    (hafter.denotes tab₂).leadsTo hS
  rcases hback.decodes hS head₂ depth with ⟨rest, hrest, htab, -⟩
  rcases hiterates.derivation hrest with ⟨log, hder₁⟩
  rcases hcontinue _ hder₁ with ⟨run, hrun, hruntab, -⟩
  have hwithout : LeadsTo P S garbage schema budget inner [] (before ++ after) _ :=
    ((hbefore.append hafter).denotes []).leadsTo hS
  rcases hwithout.decodes hS head₀ depth with ⟨run₀, hrun₀, htab₀, -⟩
  obtain ⟨r, hr⟩ : ∃ r, rawDecode P S garbage schema fuel depth s inner = some r :=
    rawDecode_isSome_of_length hS.toProgress hfuel
  obtain ⟨r₀, hr₀⟩ : ∃ r₀, rawDecode P S garbage schema fuel depth s₀ inner = some r₀ :=
    rawDecode_isSome_of_length hS.toProgress hfuel₀
  refine ⟨r, r₀, hr, hr₀, fun k hk => ?_⟩
  have hfd : (schema inner).findFieldByNumber (readFieldNumber S s₁).1 = some fd :=
    (readFieldNumber_declared hS.toReads hmem head₁.assoc htag hnumber).2.1
  rw [(rawDecode_unique hrun hr).1, hruntab, htab, (rawDecode_unique hrun₀ hr₀).1, htab₀,
    storesOf_append, fillAll_append]
  exact get_fillAll_congr (hiterates.get_of_ne hfd hk) _

/-! ## The condition -/

/-- What can follow a record: for a message, if it may be entered at all, an empty one. -/
theorem exists_rest {inner : M} {fd : FieldDescriptor M} (hmem : fd ∈ (schema inner).field)
    (room : ℕ) : ∃ rest fields, Contents schema room inner rest fields ∧ rest.length ≤ 6 ∧
      (0 < room → fd.type.messageType? ≠ none → rest ≠ []) := by
  cases htype : fd.type.messageType? with
  | none => exact ⟨[], [], .nil, by decide, fun _ hmessage => absurd rfl hmessage⟩
  | some messageType =>
      cases room with
      | zero => exact ⟨[], [], .nil, by decide, fun hroom => absurd hroom (lt_irrefl 0)⟩
      | succ room =>
          have hlt := tag_lt fd.number_le .lengthDelimited
          have hlen : (tagBytes fd.number .lengthDelimited).length ≤ 5 :=
            Varint.length_encode_le_of_lt (by decide) (by omega)
          have hempty : Contents schema (room + 1) inner
              (tagBytes fd.number .lengthDelimited ++ ([0] ++ ([] ++ []))) _ :=
            .message hmem (FieldType.eq_message htype) (decode_tagBytes fd _) (by decide)
              (by decide) .nil .nil
          refine ⟨_, _, hempty, ?_, fun _ _ => by simp⟩
          simp only [List.append_nil, List.length_append, List.length_singleton]
          omega

/-- What the decoder has no case for is never stepped over. -/
theorem not_stepsOver_of_unsupported {room : ℕ} {fd : FieldDescriptor M} {t : WireType}
    {tagBytes payload : Bytes} (h : MismatchedRecord fd t tagBytes payload)
    (htype : fd.type.isSupported = false) : ¬ StepsOver schema room fd.type payload := by
  intro hover
  generalize hfd : fd.type = type at hover htype
  cases hover with
  | value hscalar htakes =>
      have hreader : type.reader = .nothing := by
        cases type <;> first | rfl | cases htype
      rw [hreader] at htakes
      cases htakes
      exact h.ne_nil rfl
  | message => cases htype

end Luapb
