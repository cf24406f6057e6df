import Luapb.Verification.Tutorial.Parsing

/-! # What the generated parsers read

For each class the records that its parser reads, in any order and with others among them, and
what they do to the message. Every way through the labels does the same. -/

namespace Luapb

namespace Tutorial

open Wire Labels

variable {S : GeneratedInputStream} {s : S.Stream} {w : StreamView}

/-! ## `PhoneNumber` -/

namespace PhoneNumber

/-- The records of a `PhoneNumber`. Those that are not its own are skipped. -/
inductive Record (utf8 : Bytes → Bool) : Format PhoneNumber
  | number {lengthBytes body} (hlength : Varint.decode lengthBytes = some (body.length, []))
      (hlt : body.length < 2 ^ 31) (hutf8 : utf8 body = true) :
      Record utf8 10 (lengthBytes ++ body) fun m => { m with number := body }
  | type {payload n} (h : Varint.decode payload = some (n, [])) :
      Record utf8 16 payload fun m => { m with type := BitVec.ofNat 32 n }
  | unknown {tag t payload} (hzero : tag ≠ 0) (hne : tag ∉ [10, 16]) (ht : tag % 8 = t.code)
      (hpayload : IsPayload t payload) : Record utf8 tag payload fun m => m

def grammar (utf8 : Bytes → Bool) : Grammar Label PhoneNumber where
  format := Record utf8
  follows _ _ := True
  tagOf
    | .parseStart => none
    | .parseType => some 16
  depthOf _ := 0

variable {rs : List (Tagged PhoneNumber)} {m a : PhoneNumber} {n : ℕ}

theorem parseNumber_continues (hS : S.Documented) {lengthBytes body : Bytes}
    (hlength : Varint.decode lengthBytes = some (body.length, [])) (hlt : body.length < 2 ^ 31)
    (hutf8 : S.verifyUtf8String body = true)
    (hrs : (grammar S.verifyUtf8String).WellFormed rs)
    (hs : Before S s (lengthBytes ++ body ++ Tagged.concat rs) w)
    (hm : Tagged.apply rs { m with number := body } = a) (hn : (Tagged.concat rs).length < n) :
    (grammar S.verifyUtf8String).Continues S w a n (parseNumber S s m) := by
  rcases hs.readStringField hS hlength hlt hutf8 m.number with ⟨s', heq, hs'⟩
  simp only [parseNumber, heq, tryDo, if_true]
  refine Grammar.continues_expectTag hS rfl hrs hs' hm hn ?_
  exact fun s'' hs'' => Grammar.continues_start rfl rfl hrs hs'' hm hn

theorem parseType_continues (hS : S.Documented) {payload : Bytes} {k : ℕ}
    (h : Varint.decode payload = some (k, []))
    (hrs : (grammar S.verifyUtf8String).WellFormed rs)
    (hs : Before S s (payload ++ Tagged.concat rs) w)
    (hm : Tagged.apply rs { m with type := BitVec.ofNat 32 k } = a)
    (hn : (Tagged.concat rs).length < n) :
    (grammar S.verifyUtf8String).Continues S w a n (parseType S s m) := by
  rcases hs.readVarintAs hS.readEnum h 0 with ⟨s', heq, hs'⟩
  simp only [parseType, heq, tryDo, if_true]
  exact Grammar.continues_expectAtEnd hS rfl rfl hrs hs' hm hn

theorem Record.tag_ne_zero {utf8 : Bytes → Bool} {tag : ℕ} {payload : Bytes}
    {effect : PhoneNumber → PhoneNumber} (h : Record utf8 tag payload effect) : tag ≠ 0 := by
  cases h with
  | number | type => decide
  | unknown hzero => exact hzero

theorem Record.payload_ne_nil {utf8 : Bytes → Bool} {tag : ℕ} {payload : Bytes}
    {effect : PhoneNumber → PhoneNumber} (h : Record utf8 tag payload effect) : payload ≠ [] := by
  rintro hnil
  cases h with
  | number hlength =>
      rw [(List.append_eq_nil_iff.mp hnil).1] at hlength
      cases hlength
  | type h =>
      rw [hnil] at h
      cases h
  | unknown _ _ _ hpayload => exact hpayload.ne_nil hnil

theorem switch_continues (hS : S.Documented) {tag : ℕ} {payload : Bytes}
    {effect : PhoneNumber → PhoneNumber} (hr : Record S.verifyUtf8String tag payload effect)
    (htag : tag < 2 ^ 32) (hrs : (grammar S.verifyUtf8String).WellFormed rs)
    (hs : Before S s (payload ++ Tagged.concat rs) w)
    (hm : Tagged.apply rs (effect m) = a) (hn : (Tagged.concat rs).length < n) :
    Grammar.Switched (S := S) (grammar S.verifyUtf8String) w a n tag payload effect
      (match (BitVec.ofNat 32 tag).toNat / 8 with
        | 1 => if BitVec.ofNat 32 tag = 10 then some (parseNumber S s m) else none
        | 2 => if BitVec.ofNat 32 tag = 16 then some (parseType S s m) else none
        | _ => none) := by
  cases hr with
  | number hlength hlt hutf8 =>
      exact .case (by decide) rfl (parseNumber_continues hS hlength hlt hutf8 hrs hs hm hn)
  | type h => exact .case (by decide) rfl (parseType_continues hS h hrs hs hm hn)
  | unknown hzero hne ht hpayload =>
      refine .unusual ?_ rfl ht hpayload
      intro _
      simp only [List.mem_cons, List.not_mem_nil, or_false, not_or] at hne
      split
      · exact if_neg (Grammar.ofNat_ne htag (t := 10) hne.1)
      · exact if_neg (Grammar.ofNat_ne htag (t := 16) hne.2)
      · rfl

theorem step_continues (hS : S.Documented) {label : Label} {state : S.Stream × PhoneNumber}
    (h : (grammar S.verifyUtf8String).Pending S w a n label state) :
    (grammar S.verifyUtf8String).Continues S w a n (step S label state) := by
  cases h with
  | @start rs label s m hlabel hrs hs hm =>
      cases label with
      | parseType => cases hlabel
      | parseStart =>
          rw [step]
          refine Grammar.continues_switch hS rfl rfl hrs hs hm ?_ ?_ ?_
          · exact fun _ => rfl
          · exact fun r hr => (hrs.of_format r hr).payload.tag_ne_zero
          rintro r rs rfl s' hs'
          exact switch_continues hS hrs.head.payload hrs.head.tag_lt hrs.tail hs' hm
            (hrs.head.length_lt rs)
  | @record r rs label s m hlabel hrs hs hm =>
      have hr : Record S.verifyUtf8String r.tag r.payload r.effect := hrs.head.payload
      have hn := Grammar.length_lt_payload hr.payload_ne_nil rs
      have hrest := hrs.tail
      obtain ⟨tagBytes, tag, payload, effect⟩ := r
      dsimp only at hr hs hm hn hlabel ⊢
      cases label with
      | parseStart => cases hlabel
      | parseType =>
          obtain rfl := Option.some.inj hlabel
          cases hr with
          | type h => exact parseType_continues hS h hrest hs hm hn
          | unknown hzero hne => exact absurd (by decide) hne

/-- The records of a `PhoneNumber` are read one after the other. -/
theorem mergePartial_eq (hS : S.Documented) {fuel : ℕ}
    (hrs : (grammar S.verifyUtf8String).WellFormed rs) (hs : Before S s (Tagged.concat rs) w)
    (hfuel : (Tagged.concat rs).length < fuel) (m : PhoneNumber) :
    ∃ s', mergePartialFromCodedStream S fuel s m = some (true, s', Tagged.apply rs m) ∧
      S.view s' = w := by
  have hpending : (grammar S.verifyUtf8String).Pending S w (Tagged.apply rs m)
      (Tagged.concat rs).length .parseStart (s, m) := .start rfl hrs hs rfl
  rcases run_eq (fun _ _ _ _ h => step_continues hS h) hpending hfuel hfuel with
    ⟨⟨s', m'⟩, hrun, hview, hm'⟩
  exact ⟨s', hm' ▸ hrun, hview⟩

end PhoneNumber

/-! ## `Person` -/

namespace Person

/-- The records of a `Person`. -/
inductive Record (utf8 : Bytes → Bool) : Format Person
  | name {lengthBytes body} (hlength : Varint.decode lengthBytes = some (body.length, []))
      (hlt : body.length < 2 ^ 31) (hutf8 : utf8 body = true) :
      Record utf8 10 (lengthBytes ++ body) fun m => { m with name := body }
  | id {payload n} (h : Varint.decode payload = some (n, [])) :
      Record utf8 16 payload fun m => { m with id := BitVec.ofNat 32 n }
  | email {lengthBytes body} (hlength : Varint.decode lengthBytes = some (body.length, []))
      (hlt : body.length < 2 ^ 31) (hutf8 : utf8 body = true) :
      Record utf8 26 (lengthBytes ++ body) fun m => { m with email := body }
  | phone {lengthBytes rs} (hrs : (PhoneNumber.grammar utf8).WellFormed rs)
      (hlength : Varint.decode lengthBytes = some ((Tagged.concat rs).length, []))
      (hlt : (Tagged.concat rs).length < 2 ^ 31) :
      Record utf8 34 (lengthBytes ++ Tagged.concat rs)
        fun m => { m with phone := m.phone ++ [Tagged.apply rs .new] }
  | packed {lengthBytes} {payloads : List (Bytes × ℕ)}
      (hlength : Varint.decode lengthBytes = some ((payloads.flatMap Prod.fst).length, []))
      (hlt : (payloads.flatMap Prod.fst).length < 2 ^ 31)
      (hpayloads : ∀ p ∈ payloads, Varint.decode p.1 = some (p.2, [])) :
      Record utf8 42 (lengthBytes ++ payloads.flatMap Prod.fst)
        fun m => { m with test := m.test ++ payloads.map (BitVec.ofNat 32 ·.2) }
  | unpacked {payload n} (h : Varint.decode payload = some (n, [])) :
      Record utf8 40 payload fun m => { m with test := m.test ++ [BitVec.ofNat 32 n] }
  | unknown {tag t payload} (hzero : tag ≠ 0) (hne : tag ∉ [10, 16, 26, 34, 42, 40])
      (ht : tag % 8 = t.code) (hpayload : IsPayload t payload) : Record utf8 tag payload fun m => m

/-- An element of `test` that is not packed must not stand right before a packed list, whose
tag `ReadRepeatedPrimitive` is given. -/
def grammar (utf8 : Bytes → Bool) : Grammar Label Person where
  format := Record utf8
  follows tag next := tag = 40 → next ≠ 42
  tagOf
    | .parseStart => none
    | .parseId => some 16
    | .parseEmail => some 26
    | .parsePhone | .parseLoopPhone => some 34
    | .parseTest => some 42
  depthOf
    | .parseLoopPhone => 1
    | _ => 0

theorem Record.tag_ne_zero {utf8 : Bytes → Bool} {tag : ℕ} {payload : Bytes}
    {effect : Person → Person} (h : Record utf8 tag payload effect) : tag ≠ 0 := by
  cases h with
  | name | id | email | phone | packed | unpacked => decide
  | unknown hzero => exact hzero

theorem Record.payload_ne_nil {utf8 : Bytes → Bool} {tag : ℕ} {payload : Bytes}
    {effect : Person → Person} (h : Record utf8 tag payload effect) : payload ≠ [] := by
  rintro hnil
  cases h with
  | name hlength | email hlength | phone _ hlength | packed hlength =>
      rw [(List.append_eq_nil_iff.mp hnil).1] at hlength
      cases hlength
  | id h | unpacked h =>
      rw [hnil] at h
      cases h
  | unknown _ _ _ hpayload => exact hpayload.ne_nil hnil

variable {rs : List (Tagged Person)} {m a : Person} {n fuel : ℕ}

section

variable (hS : S.Documented) (hrs : (grammar S.verifyUtf8String).WellFormed rs)
  (hn : (Tagged.concat rs).length < n)

include hS hrs hn

theorem parseName_continues {lengthBytes body : Bytes}
    (hlength : Varint.decode lengthBytes = some (body.length, [])) (hlt : body.length < 2 ^ 31)
    (hutf8 : S.verifyUtf8String body = true)
    (hs : Before S s (lengthBytes ++ body ++ Tagged.concat rs) w)
    (hm : Tagged.apply rs { m with name := body } = a) :
    (grammar S.verifyUtf8String).Continues S w a n (parseName S s m) := by
  rcases hs.readStringField hS hlength hlt hutf8 m.name with ⟨s', heq, hs'⟩
  simp only [parseName, heq, tryDo, if_true]
  refine Grammar.continues_expectTag hS rfl hrs hs' hm hn ?_
  exact fun s'' hs'' => Grammar.continues_start rfl rfl hrs hs'' hm hn

theorem parseId_continues {payload : Bytes} {k : ℕ} (h : Varint.decode payload = some (k, []))
    (hs : Before S s (payload ++ Tagged.concat rs) w)
    (hm : Tagged.apply rs { m with id := BitVec.ofNat 32 k } = a) :
    (grammar S.verifyUtf8String).Continues S w a n (parseId S s m) := by
  rcases hs.readVarintAs hS.readInt32 h m.id with ⟨s', heq, hs'⟩
  simp only [parseId, heq, tryDo, if_true]
  refine Grammar.continues_expectTag hS rfl hrs hs' hm hn ?_
  exact fun s'' hs'' => Grammar.continues_start rfl rfl hrs hs'' hm hn

theorem parseEmail_continues {lengthBytes body : Bytes}
    (hlength : Varint.decode lengthBytes = some (body.length, [])) (hlt : body.length < 2 ^ 31)
    (hutf8 : S.verifyUtf8String body = true)
    (hs : Before S s (lengthBytes ++ body ++ Tagged.concat rs) w)
    (hm : Tagged.apply rs { m with email := body } = a) :
    (grammar S.verifyUtf8String).Continues S w a n (parseEmail S s m) := by
  rcases hs.readStringField hS hlength hlt hutf8 m.email with ⟨s', heq, hs'⟩
  simp only [parseEmail, heq, tryDo, if_true]
  refine Grammar.continues_expectTag hS rfl hrs hs' hm hn ?_
  exact fun s'' hs'' => Grammar.continues_start rfl rfl hrs hs'' hm hn

theorem parseTest_continues {lengthBytes : Bytes} {payloads : List (Bytes × ℕ)}
    (hlength : Varint.decode lengthBytes = some ((payloads.flatMap Prod.fst).length, []))
    (hlt : (payloads.flatMap Prod.fst).length < 2 ^ 31)
    (hpayloads : ∀ p ∈ payloads, Varint.decode p.1 = some (p.2, []))
    (hs : Before S s (lengthBytes ++ payloads.flatMap Prod.fst ++ Tagged.concat rs) w)
    (hm : Tagged.apply rs { m with test := m.test ++ payloads.map (BitVec.ofNat 32 ·.2) } = a) :
    (grammar S.verifyUtf8String).Continues S w a n (parseTest S s m) := by
  have hunread := hs.unread_eq
  rw [List.append_assoc] at hunread
  rcases hS.readPackedInt32 s m.test _ _ _ hs.readable hunread hlength hlt hpayloads with
    ⟨hok, hvalue, hview⟩
  simp only [parseTest, hok, hvalue, tryDo, if_true]
  exact Grammar.continues_expectAtEnd hS rfl rfl hrs (hs.moved hview) hm hn

/-- The tag that is given to the repeated read does not follow. -/
theorem parseUnpackedTest_continues (hfollows : ∀ r ∈ rs.head?, r.tag ≠ 42) {payload : Bytes}
    {k : ℕ} (h : Varint.decode payload = some (k, []))
    (hs : Before S s (payload ++ Tagged.concat rs) w)
    (hm : Tagged.apply rs { m with test := m.test ++ [BitVec.ofNat 32 k] } = a) :
    (grammar S.verifyUtf8String).Continues S w a n (parseUnpackedTest S s m) := by
  have hread := StreamView.readVarint_append hs.unread_eq h
  have hrest := StreamView.unread_advance_append hs.unread_eq
  have hnext : ∀ j v, ((S.view s).advance payload.length).readVarint = some (j, v) →
      BitVec.ofNat 32 j ≠ 42 := by
    intro j v hj
    cases rs with
    | nil =>
        rw [StreamView.readVarint, hrest] at hj
        cases hj
    | cons r rs =>
        rw [Tagged.concat_cons] at hrest
        have hj' := StreamView.readVarint_append hrest hrs.head.tag_eq
        obtain rfl := (Prod.mk.inj (Option.some.inj (hj.symm.trans hj'))).1
        exact Grammar.ofNat_ne hrs.head.tag_lt (t := 42) (hfollows r rfl)
  rcases hS.readRepeatedInt32 1 42 s m.test _ _ hs.readable hread hnext with ⟨hok, hvalue, hview⟩
  simp only [parseUnpackedTest, hok, hvalue, tryDo, if_true]
  exact Grammar.continues_expectAtEnd hS rfl rfl hrs (hs.advance hview) hm hn

/-- One element of `phone`, at one level more. -/
theorem parseLoopPhone_continues {lengthBytes : Bytes} {inner : List (Tagged PhoneNumber)}
    (hinner : (PhoneNumber.grammar S.verifyUtf8String).WellFormed inner)
    (hlength : Varint.decode lengthBytes = some ((Tagged.concat inner).length, []))
    (hlt : (Tagged.concat inner).length < 2 ^ 31) (hfuel : (Tagged.concat inner).length < fuel)
    (hs : Before S s (lengthBytes ++ Tagged.concat inner ++ Tagged.concat rs)
      { w with depth := w.depth + 1 })
    (hm : Tagged.apply rs { m with phone := m.phone ++ [Tagged.apply inner .new] } = a) :
    (grammar S.verifyUtf8String).Continues S w a n (parseLoopPhone S fuel s m) := by
  rcases hs.readMessage hS hlength hlt (fun s' w' _ _ hs' =>
    PhoneNumber.mergePartial_eq hS hinner hs' hfuel .new) with ⟨s', heq, hs'⟩
  simp only [parseLoopPhone, heq, tryDo, if_true]
  refine Grammar.continues_expectTag hS rfl hrs hs' hm hn ?_
  intro s'' hs''
  have hdepth : (S.view s'').depth = w.depth + 1 := hs''.depth_eq
  have hview := hS.unsafeDecrement s'' (by omega)
  rw [hdepth, Nat.add_sub_cancel] at hview
  have houter : Before S (S.unsafeDecrementRecursionDepth s'') (Tagged.concat rs) w :=
    hs''.deeper hview
  refine Grammar.continues_expectTag hS rfl hrs houter hm hn ?_
  exact fun s₃ hs₃ => Grammar.continues_start rfl rfl hrs hs₃ hm hn

theorem parsePhone_continues {lengthBytes : Bytes} {inner : List (Tagged PhoneNumber)}
    (hinner : (PhoneNumber.grammar S.verifyUtf8String).WellFormed inner)
    (hlength : Varint.decode lengthBytes = some ((Tagged.concat inner).length, []))
    (hlt : (Tagged.concat inner).length < 2 ^ 31) (hfuel : (Tagged.concat inner).length < fuel)
    (hdepth : w.depth + 1 ≤ S.recursionLimit)
    (hs : Before S s (lengthBytes ++ Tagged.concat inner ++ Tagged.concat rs) w)
    (hm : Tagged.apply rs { m with phone := m.phone ++ [Tagged.apply inner .new] } = a) :
    (grammar S.verifyUtf8String).Continues S w a n (parsePhone S fuel s m) := by
  have hok := hS.increment_ok s
  have hview := hS.increment s
  rw [hs.depth_eq] at hok hview
  rw [parsePhone, tryDo, hok, decide_eq_true hdepth, if_pos rfl]
  exact parseLoopPhone_continues hS hrs hn hinner hlength hlt hfuel (hs.deeper hview) hm

end

theorem switch_continues (hS : S.Documented) {tag : ℕ} {payload : Bytes} {effect : Person → Person}
    (hr : Record S.verifyUtf8String tag payload effect) (htag : tag < 2 ^ 32)
    (hfollows : ∀ r ∈ rs.head?, (grammar S.verifyUtf8String).follows tag r.tag)
    (hrs : (grammar S.verifyUtf8String).WellFormed rs) (hdepth : w.depth + 1 ≤ S.recursionLimit)
    (hfuel : payload.length < fuel) (hs : Before S s (payload ++ Tagged.concat rs) w)
    (hm : Tagged.apply rs (effect m) = a) (hn : (Tagged.concat rs).length < n) :
    Grammar.Switched (S := S) (grammar S.verifyUtf8String) w a n tag payload effect
      (match (BitVec.ofNat 32 tag).toNat / 8 with
        | 1 => if BitVec.ofNat 32 tag = 10 then some (parseName S s m) else none
        | 2 => if BitVec.ofNat 32 tag = 16 then some (parseId S s m) else none
        | 3 => if BitVec.ofNat 32 tag = 26 then some (parseEmail S s m) else none
        | 4 => if BitVec.ofNat 32 tag = 34 then some (parsePhone S fuel s m) else none
        | 5 => if BitVec.ofNat 32 tag = 42 then some (parseTest S s m)
            else if BitVec.ofNat 32 tag = 40 then some (parseUnpackedTest S s m) else none
        | _ => none) := by
  cases hr with
  | name hlength hlt hutf8 =>
      exact .case (by decide) rfl (parseName_continues hS hrs hn hlength hlt hutf8 hs hm)
  | id h => exact .case (by decide) rfl (parseId_continues hS hrs hn h hs hm)
  | email hlength hlt hutf8 =>
      exact .case (by decide) rfl (parseEmail_continues hS hrs hn hlength hlt hutf8 hs hm)
  | phone hinner hlength hlt =>
      rw [List.length_append] at hfuel
      exact .case (by decide) rfl
        (parsePhone_continues hS hrs hn hinner hlength hlt (by omega) hdepth hs hm)
  | packed hlength hlt hpayloads =>
      exact .case (by decide) rfl (parseTest_continues hS hrs hn hlength hlt hpayloads hs hm)
  | unpacked h =>
      exact .case (by decide) rfl
        (parseUnpackedTest_continues hS hrs hn (fun r hr => hfollows r hr rfl) h hs hm)
  | unknown hzero hne ht hpayload =>
      refine .unusual ?_ rfl ht hpayload
      intro _
      simp only [List.mem_cons, List.not_mem_nil, or_false, not_or] at hne
      obtain ⟨h10, h16, h26, h34, h42, h40⟩ := hne
      split
      · exact if_neg (Grammar.ofNat_ne htag (t := 10) h10)
      · exact if_neg (Grammar.ofNat_ne htag (t := 16) h16)
      · exact if_neg (Grammar.ofNat_ne htag (t := 26) h26)
      · exact if_neg (Grammar.ofNat_ne htag (t := 34) h34)
      · rw [if_neg (Grammar.ofNat_ne htag (t := 42) h42)]
        exact if_neg (Grammar.ofNat_ne htag (t := 40) h40)
      · rfl

/-- At each label of the parser. -/
theorem step_continues (hS : S.Documented) (hdepth : w.depth + 1 ≤ S.recursionLimit)
    {label : Label} {state : S.Stream × Person} (hfuel : n < fuel)
    (h : (grammar S.verifyUtf8String).Pending S w a n label state) :
    (grammar S.verifyUtf8String).Continues S w a n (step S fuel label state) := by
  cases h with
  | @start rs label s m hlabel hrs hs hm =>
      cases label with
      | parseStart =>
          rw [step]
          refine Grammar.continues_switch hS rfl rfl hrs hs hm ?_ ?_ ?_
          · exact fun _ => rfl
          · exact fun r hr => (hrs.of_format r hr).payload.tag_ne_zero
          rintro r rs rfl s' hs'
          have hlt : r.payload.length < fuel := by
            rw [Tagged.concat_cons, List.length_append, List.length_append] at hfuel
            omega
          exact switch_continues hS hrs.head.payload hrs.head.tag_lt hrs.follows hrs.tail hdepth hlt
            hs' hm (hrs.head.length_lt rs)
      | parseId | parseEmail | parsePhone | parseLoopPhone | parseTest => cases hlabel
  | @record r rs label s m hlabel hrs hs hm =>
      have hr : Record S.verifyUtf8String r.tag r.payload r.effect := hrs.head.payload
      have hn := Grammar.length_lt_payload hr.payload_ne_nil rs
      have hrest := hrs.tail
      obtain ⟨tagBytes, tag, payload, effect⟩ := r
      dsimp only at hr hs hm hn hlabel hfuel ⊢
      cases label with
      | parseStart => cases hlabel
      | parseId =>
          obtain rfl := Option.some.inj hlabel
          cases hr with
          | id h => exact parseId_continues hS hrest hn h hs hm
          | unknown hzero hne => exact absurd (by decide) hne
      | parseEmail =>
          obtain rfl := Option.some.inj hlabel
          cases hr with
          | email hlength hlt hutf8 =>
              exact parseEmail_continues hS hrest hn hlength hlt hutf8 hs hm
          | unknown hzero hne => exact absurd (by decide) hne
      | parsePhone =>
          obtain rfl := Option.some.inj hlabel
          cases hr with
          | phone hinner hlength hlt =>
              rw [List.length_append, List.length_append] at hfuel
              exact parsePhone_continues hS hrest hn hinner hlength hlt (by omega) hdepth hs hm
          | unknown hzero hne => exact absurd (by decide) hne
      | parseLoopPhone =>
          obtain rfl := Option.some.inj hlabel
          cases hr with
          | phone hinner hlength hlt =>
              rw [List.length_append, List.length_append] at hfuel
              exact parseLoopPhone_continues hS hrest hn hinner hlength hlt (by omega) hs hm
          | unknown hzero hne => exact absurd (by decide) hne
      | parseTest =>
          obtain rfl := Option.some.inj hlabel
          cases hr with
          | packed hlength hlt hpayloads =>
              exact parseTest_continues hS hrest hn hlength hlt hpayloads hs hm
          | unknown hzero hne => exact absurd (by decide) hne

/-- The records of a `Person` are read one after the other. -/
theorem mergePartial_eq (hS : S.Documented) (hdepth : w.depth + 1 ≤ S.recursionLimit)
    (hrs : (grammar S.verifyUtf8String).WellFormed rs) (hs : Before S s (Tagged.concat rs) w)
    (hfuel : (Tagged.concat rs).length < fuel) (m : Person) :
    ∃ s', mergePartialFromCodedStream S fuel s m = some (true, s', Tagged.apply rs m) ∧
      S.view s' = w := by
  have hpending : (grammar S.verifyUtf8String).Pending S w (Tagged.apply rs m)
      (Tagged.concat rs).length .parseStart (s, m) := .start rfl hrs hs rfl
  rcases run_eq (fun _ _ _ hlt h => step_continues hS hdepth hlt h) hpending hfuel hfuel with
    ⟨⟨s', m'⟩, hrun, hview, hm'⟩
  exact ⟨s', hm' ▸ hrun, hview⟩

end Person

/-! ## `AddressBook` -/

namespace AddressBook

/-- The records of an `AddressBook`. -/
inductive Record (utf8 : Bytes → Bool) (unset : ℤ) : Format AddressBook
  | person {lengthBytes rs} (hrs : (Person.grammar utf8).WellFormed rs)
      (hlength : Varint.decode lengthBytes = some ((Tagged.concat rs).length, []))
      (hlt : (Tagged.concat rs).length < 2 ^ 31) :
      Record utf8 unset 10 (lengthBytes ++ Tagged.concat rs)
        fun m => { m with person := m.person ++ [Tagged.apply rs (.new unset)] }
  | unknown {tag t payload} (hzero : tag ≠ 0) (hne : tag ≠ 10) (ht : tag % 8 = t.code)
      (hpayload : IsPayload t payload) : Record utf8 unset tag payload fun m => m

def grammar (utf8 : Bytes → Bool) (unset : ℤ) : Grammar Label AddressBook where
  format := Record utf8 unset
  follows _ _ := True
  tagOf
    | .parseStart => none
    | .parseLoopPerson => some 10
  depthOf
    | .parseLoopPerson => 1
    | _ => 0

variable {unset : ℤ} {rs : List (Tagged AddressBook)} {m a : AddressBook} {n fuel : ℕ}

theorem Record.tag_ne_zero {utf8 : Bytes → Bool} {tag : ℕ} {payload : Bytes}
    {effect : AddressBook → AddressBook} (h : Record utf8 unset tag payload effect) : tag ≠ 0 := by
  cases h with
  | person => decide
  | unknown hzero => exact hzero

theorem Record.payload_ne_nil {utf8 : Bytes → Bool} {tag : ℕ} {payload : Bytes}
    {effect : AddressBook → AddressBook} (h : Record utf8 unset tag payload effect) :
    payload ≠ [] := by
  rintro hnil
  cases h with
  | person _ hlength =>
      rw [(List.append_eq_nil_iff.mp hnil).1] at hlength
      cases hlength
  | unknown _ _ _ hpayload => exact hpayload.ne_nil hnil

section

variable (hS : S.Documented) (hdepth : w.depth + 2 ≤ S.recursionLimit)
  (hrs : (grammar S.verifyUtf8String unset).WellFormed rs) (hn : (Tagged.concat rs).length < n)

include hS hdepth hrs hn

/-- One element of `person`, at one level more. -/
theorem parseLoopPerson_continues {lengthBytes : Bytes} {inner : List (Tagged Person)}
    (hinner : (Person.grammar S.verifyUtf8String).WellFormed inner)
    (hlength : Varint.decode lengthBytes = some ((Tagged.concat inner).length, []))
    (hlt : (Tagged.concat inner).length < 2 ^ 31) (hfuel : (Tagged.concat inner).length < fuel)
    (hs : Before S s (lengthBytes ++ Tagged.concat inner ++ Tagged.concat rs)
      { w with depth := w.depth + 1 })
    (hm : Tagged.apply rs { m with person := m.person ++ [Tagged.apply inner (.new unset)] } = a) :
    (grammar S.verifyUtf8String unset).Continues S w a n (parseLoopPerson S unset fuel s m) := by
  have hmerge : ∀ s' w', w'.depth = w.depth + 1 → w'.legitimateEnd = true →
      Before S s' (Tagged.concat inner) w' → ∃ s'', Person.mergePartialFromCodedStream S fuel s'
        (.new unset) = some (true, s'', Tagged.apply inner (.new unset)) ∧ S.view s'' = w' := by
    intro s' w' hw' _ hs'
    exact Person.mergePartial_eq hS (by omega) hinner hs' hfuel _
  rcases hs.readMessage hS hlength hlt hmerge with ⟨s', heq, hs'⟩
  simp only [parseLoopPerson, heq, tryDo, if_true]
  refine Grammar.continues_expectTag hS rfl hrs hs' hm hn ?_
  intro s'' hs''
  have hdeeper : (S.view s'').depth = w.depth + 1 := hs''.depth_eq
  have hview := hS.unsafeDecrement s'' (by omega)
  rw [hdeeper, Nat.add_sub_cancel] at hview
  exact Grammar.continues_expectAtEnd hS rfl rfl hrs (hs''.deeper hview) hm hn

theorem parsePerson_continues {lengthBytes : Bytes} {inner : List (Tagged Person)}
    (hinner : (Person.grammar S.verifyUtf8String).WellFormed inner)
    (hlength : Varint.decode lengthBytes = some ((Tagged.concat inner).length, []))
    (hlt : (Tagged.concat inner).length < 2 ^ 31) (hfuel : (Tagged.concat inner).length < fuel)
    (hs : Before S s (lengthBytes ++ Tagged.concat inner ++ Tagged.concat rs) w)
    (hm : Tagged.apply rs { m with person := m.person ++ [Tagged.apply inner (.new unset)] } = a) :
    (grammar S.verifyUtf8String unset).Continues S w a n (parsePerson S unset fuel s m) := by
  have hok := hS.increment_ok s
  have hview := hS.increment s
  rw [hs.depth_eq] at hok hview
  rw [parsePerson, tryDo, hok, decide_eq_true (by omega), if_pos rfl]
  exact parseLoopPerson_continues hS hdepth hrs hn hinner hlength hlt hfuel (hs.deeper hview) hm

theorem switch_continues {tag : ℕ} {payload : Bytes} {effect : AddressBook → AddressBook}
    (hr : Record S.verifyUtf8String unset tag payload effect) (htag : tag < 2 ^ 32)
    (hfuel : payload.length < fuel) (hs : Before S s (payload ++ Tagged.concat rs) w)
    (hm : Tagged.apply rs (effect m) = a) :
    Grammar.Switched (S := S) (grammar S.verifyUtf8String unset) w a n tag payload effect
      (match (BitVec.ofNat 32 tag).toNat / 8 with
        | 1 => if BitVec.ofNat 32 tag = 10 then some (parsePerson S unset fuel s m) else none
        | _ => none) := by
  cases hr with
  | person hinner hlength hlt =>
      rw [List.length_append] at hfuel
      exact .case (by decide) rfl
        (parsePerson_continues hS hdepth hrs hn hinner hlength hlt (by omega) hs hm)
  | unknown hzero hne ht hpayload =>
      refine .unusual ?_ rfl ht hpayload
      intro _
      split
      · exact if_neg (Grammar.ofNat_ne htag (t := 10) hne)
      · rfl

end

theorem step_continues (hS : S.Documented) (hdepth : w.depth + 2 ≤ S.recursionLimit)
    {label : Label} {state : S.Stream × AddressBook} (hfuel : n < fuel)
    (h : (grammar S.verifyUtf8String unset).Pending S w a n label state) :
    (grammar S.verifyUtf8String unset).Continues S w a n (step S unset fuel label state) := by
  cases h with
  | @start rs label s m hlabel hrs hs hm =>
      cases label with
      | parseStart =>
          rw [step]
          refine Grammar.continues_switch hS rfl rfl hrs hs hm ?_ ?_ ?_
          · exact fun _ => rfl
          · exact fun r hr => (hrs.of_format r hr).payload.tag_ne_zero
          rintro r rs rfl s' hs'
          have hlt : r.payload.length < fuel := by
            rw [Tagged.concat_cons, List.length_append, List.length_append] at hfuel
            omega
          exact switch_continues hS hdepth hrs.tail (hrs.head.length_lt rs) hrs.head.payload
            hrs.head.tag_lt hlt hs' hm
      | parseLoopPerson => cases hlabel
  | @record r rs label s m hlabel hrs hs hm =>
      have hr : Record S.verifyUtf8String unset r.tag r.payload r.effect := hrs.head.payload
      have hn := Grammar.length_lt_payload hr.payload_ne_nil rs
      have hrest := hrs.tail
      obtain ⟨tagBytes, tag, payload, effect⟩ := r
      dsimp only at hr hs hm hn hlabel hfuel ⊢
      cases label with
      | parseStart => cases hlabel
      | parseLoopPerson =>
          obtain rfl := Option.some.inj hlabel
          cases hr with
          | person hinner hlength hlt =>
              rw [List.length_append, List.length_append] at hfuel
              exact parseLoopPerson_continues hS hdepth hrest hn hinner hlength hlt (by omega) hs hm
          | unknown hzero hne => exact absurd rfl hne

/-- The records of an `AddressBook` are read one after the other. -/
theorem mergePartial_eq (hS : S.Documented) (hdepth : w.depth + 2 ≤ S.recursionLimit)
    (hrs : (grammar S.verifyUtf8String unset).WellFormed rs)
    (hs : Before S s (Tagged.concat rs) w) (hfuel : (Tagged.concat rs).length < fuel)
    (m : AddressBook) :
    ∃ s', mergePartialFromCodedStream S unset fuel s m = some (true, s', Tagged.apply rs m) ∧
      S.view s' = w := by
  have hpending : (grammar S.verifyUtf8String unset).Pending S w (Tagged.apply rs m)
      (Tagged.concat rs).length .parseStart (s, m) := .start rfl hrs hs rfl
  rcases run_eq (fun _ _ _ hlt h => step_continues hS hdepth hlt h) hpending hfuel hfuel with
    ⟨⟨s', m'⟩, hrun, hview, hm'⟩
  exact ⟨s', hm' ▸ hrun, hview⟩

end AddressBook

end Tutorial

end Luapb
