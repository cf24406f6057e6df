import Luapb.Verification.Decoder.Derivation
import Luapb.Verification.Decoder.Reading

/-! # Fields the message type does not declare

The loop reads the tag of such a field and goes on, so that what comes next is not
the next record but the payload. -/

namespace Luapb

open Wire PBStream

variable {M : Type} {P : Platform} {S : CodedInputStream} {garbage : S.Stream → ℤ}
  {schema : Schema M}

/-- Loop heads connected by iterations that find no field. -/
inductive PassesUnknown (S : CodedInputStream) (d : Descriptor M) : S.Stream → S.Stream → Prop
  | refl {s} : PassesUnknown S d s s
  | step {s s'} (hnum : (readFieldNumber S s).1 ≠ 0)
      (hfind : d.findFieldByNumber (readFieldNumber S s).1 = none)
      (hrest : PassesUnknown S d (readFieldNumber S s).2 s') : PassesUnknown S d s s'

/-- Such iterations leave the table alone. -/
theorem PassesUnknown.derivation {msgD : M} {s s' : S.Stream}
    (h : PassesUnknown S (schema msgD) s s') {depth : ℕ} {tab : LuaTable} {run : Run S}
    (hrun : DecodeDerivation P S garbage schema depth s' msgD tab run) :
    ∃ log, DecodeDerivation P S garbage schema depth s msgD tab ⟨run.tab, run.stream, log⟩ := by
  induction h with
  | refl => exact ⟨run.log, hrun⟩
  | step hnum hfind _ ih =>
      obtain ⟨log, hlog⟩ := ih hrun
      have hstep := DecodeDerivation.unknown hnum hfind hlog
      exact ⟨_, hstep⟩

/-- Tags of fields that are not declared, one after the other. A tag is read as a
32-bit number. -/
inductive UnknownTags (d : Descriptor M) : Bytes → Prop
  | nil : UnknownTags d []
  | cons {tagBytes n rest} (htag : Varint.decode tagBytes = some (n, []))
      (hnum : n % 2 ^ 32 / 8 ≠ 0) (hfind : d.findFieldByNumber (n % 2 ^ 32 / 8) = none)
      (hrest : UnknownTags d rest) : UnknownTags d (tagBytes ++ rest)

/-- A field number is read exactly where the bytes start with a tag that has one. -/
theorem readFieldNumber_ne_zero (hS : S.Reads) {s : S.Stream} (hs : S.Readable s)
    (hnum : (readFieldNumber S s).1 ≠ 0) :
    ∃ tagBytes n rest, (S.view s).unread = tagBytes ++ rest ∧
      Varint.decode tagBytes = some (n, []) ∧ (readFieldNumber S s).1 = n % 2 ^ 32 / 8 ∧
      S.view (readFieldNumber S s).2 = (S.view s).advance tagBytes.length := by
  have htag : (S.readTag s).1 ≠ 0 := by
    intro hzero
    simp [readFieldNumber, hzero] at hnum
  cases hread : (S.view s).readVarint with
  | none => exact absurd (hS.readTag_none s hs hread) htag
  | some p =>
      obtain ⟨tagBytes, rest, hsplit, hused, hp⟩ := StreamView.readVarint_split hread
      obtain ⟨hvalue, hview⟩ := hS.readTag_some s _ _ hs hread
      refine ⟨tagBytes, p.1, rest, hsplit, hused, ?_, ?_⟩
      · rw [readFieldNumber, if_neg htag, hvalue, BitVec.toNat_ofNat]
      · rwa [readFieldNumber, if_neg htag, ← hp]

theorem UnknownTags.passes (hS : S.Reads) {d : Descriptor M} {tags : Bytes}
    (h : UnknownTags d tags) {s : S.Stream} (hs : S.Readable s) {rest : Bytes}
    (hunread : (S.view s).unread = tags ++ rest) :
    ∃ s', PassesUnknown S d s s' ∧ S.view s' = (S.view s).advance tags.length := by
  induction h generalizing s with
  | nil => exact ⟨s, .refl, rfl⟩
  | @cons tagBytes n tags htag hnum hfind _ ih =>
      rw [List.append_assoc] at hunread
      obtain ⟨hnumber, hview⟩ := readFieldNumber_decode hS hs hunread htag hnum
      obtain ⟨hs', hunread'⟩ := hs.advance hunread hview
      obtain ⟨s', hpasses, hview'⟩ := ih hs' hunread'
      refine ⟨s', .step (hnumber ▸ hnum) (hnumber ▸ hfind) hpasses, ?_⟩
      rw [hview', hview, List.length_append]
      simp only [StreamView.advance, Nat.add_assoc]

theorem PassesUnknown.unknownTags (hS : S.Reads) {d : Descriptor M} {s s' : S.Stream}
    (h : PassesUnknown S d s s') (hs : S.Readable s) :
    ∃ tags, UnknownTags d tags ∧ (S.view s).unread = tags ++ (S.view s').unread := by
  induction h with
  | refl => exact ⟨[], .nil, rfl⟩
  | step hnum hfind _ ih =>
      obtain ⟨tagBytes, n, rest, hunread, htag, hnumber, hview⟩ :=
        readFieldNumber_ne_zero hS hs hnum
      obtain ⟨hs', hunread'⟩ := hs.advance hunread hview
      obtain ⟨tags, htags, hsplit⟩ := ih hs'
      rw [hunread'] at hsplit
      exact ⟨tagBytes ++ tags, .cons htag (hnumber ▸ hnum) (hnumber ▸ hfind) htags, by
        rw [hunread, hsplit, List.append_assoc]⟩

/-- A record of an undeclared field: its tag and a payload of the tag's wire type. -/
structure UnknownRecord (d : Descriptor M) (number : ℕ) (t : WireType) (tagBytes payload : Bytes) :
    Prop where
  tag_eq : Varint.decode tagBytes = some (tag number t, [])
  number_pos : 0 < number
  number_le : number ≤ maxFieldNumber
  undeclared : d.findFieldByNumber number = none
  isPayload : IsPayload t payload

/-- The tag of the record is itself one of the tags passed. -/
theorem UnknownRecord.unknownTags {d : Descriptor M} {number : ℕ} {t : WireType}
    {tagBytes payload : Bytes} (h : UnknownRecord d number t tagBytes payload) :
    UnknownTags d (tagBytes ++ payload) ↔ UnknownTags d payload := by
  have hnumber := tag_narrow_div h.number_le t
  constructor
  · intro htags
    generalize hall : tagBytes ++ payload = all at htags
    cases htags with
    | nil =>
        obtain ⟨rfl, -⟩ := List.append_eq_nil_iff.mp hall
        exact absurd h.tag_eq (by simp)
    | cons htag' _ _ htags' =>
        obtain ⟨-, -, rfl⟩ := Varint.decode_append_inj h.tag_eq htag' hall
        exact htags'
  · intro htags
    refine .cons h.tag_eq ?_ ?_ htags
    · exact hnumber.symm ▸ h.number_pos.ne'
    · exact hnumber.symm ▸ h.undeclared

/-- At a loop head in front of a record of an undeclared field, iterations that find no
field lead behind the record exactly if its payload happens to be a sequence of tags
of undeclared fields. -/
theorem UnknownRecord.passed_iff (hS : S.Reads) {s : S.Stream} (hs : S.Readable s)
    {d : Descriptor M} {number : ℕ} {t : WireType} {tagBytes payload rest : Bytes}
    (h : UnknownRecord d number t tagBytes payload)
    (hunread : (S.view s).unread = tagBytes ++ (payload ++ rest)) :
    (∃ s', PassesUnknown S d s s' ∧ (S.view s').unread = rest) ↔ UnknownTags d payload := by
  rw [← List.append_assoc] at hunread
  rw [← h.unknownTags]
  constructor
  · rintro ⟨s', hpasses, hrest⟩
    obtain ⟨tags, htags, hsplit⟩ := hpasses.unknownTags hS hs
    rw [hunread, hrest] at hsplit
    exact List.append_cancel_right hsplit ▸ htags
  · intro htags
    obtain ⟨s', hpasses, hview⟩ := htags.passes hS hs hunread
    exact ⟨s', hpasses, (hs.advance hunread hview).2⟩

end Luapb
