import Luapb.Library.Records
import Luapb.Model.Tutorial
import Luapb.Verification.Tutorial.Runtime
import Mathlib.Data.List.Chain

/-! # Generated parsers on well-formed messages

A generated parser has labels at which the tag of a field is read already: `ExpectTag` leads to
them past the head of the loop. What is to be read from a label on is a record without its tag,
and the records after it. This is the invariant, whatever `ExpectTag` answers. -/

namespace Luapb

open Wire Labels

/-- Where a stream is when the message is read. -/
def StreamView.atEnd (v : StreamView) : StreamView :=
  { v with position := v.limit.toNat, legitimateEnd := true }

namespace Tutorial

variable {S : GeneratedInputStream}

/-! ## Streams -/

variable (S) in
/-- A stream before some bytes, the last of the message; `w` is where they end. -/
structure Before (s : S.Stream) (bytes : Bytes) (w : StreamView) : Prop where
  readable : S.Readable s
  unread_eq : (S.view s).unread = bytes
  atEnd_eq : (S.view s).atEnd = w

section

variable {s s' : S.Stream} {bytes rest : Bytes} {w : StreamView}

theorem Before.moved (h : Before S s (bytes ++ rest) w) {b : Bool}
    (hview : S.view s' = { (S.view s).advance bytes.length with legitimateEnd := b }) :
    Before S s' rest w := by
  rcases h.readable.advance h.unread_eq hview with ⟨hreadable, hunread⟩
  refine ⟨hreadable, hunread, ?_⟩
  rw [← h.atEnd_eq, hview]
  rfl

theorem Before.advance (h : Before S s (bytes ++ rest) w)
    (hview : S.view s' = (S.view s).advance bytes.length) : Before S s' rest w :=
  h.moved (b := (S.view s).legitimateEnd) hview

theorem Before.same (h : Before S s bytes w) (hview : S.view s' = S.view s) :
    Before S s' bytes w := by
  refine ⟨⟨hview ▸ h.readable.valid, hview ▸ h.readable.within⟩, ?_, ?_⟩
  · rw [hview, h.unread_eq]
  · rw [hview, h.atEnd_eq]

/-- At a limit where nothing is left to read the message is over. -/
theorem Before.ends (h : Before S s [] w)
    (hview : S.view s' = { S.view s with legitimateEnd := true }) : S.view s' = w := by
  have hlen := h.readable.valid.length_unread
  rw [h.unread_eq, List.length_nil] at hlen
  rw [hview, ← h.atEnd_eq, StreamView.atEnd]
  have hposition : (S.view s).limit.toNat = (S.view s).position := by omega
  rw [hposition]

theorem Before.deeper (h : Before S s bytes w) {d : ℕ}
    (hview : S.view s' = { S.view s with depth := d }) :
    Before S s' bytes { w with depth := d } := by
  refine ⟨⟨?_, ?_⟩, ?_, ?_⟩
  · rw [hview]
    exact ⟨h.readable.valid.position_le, h.readable.valid.limit_le⟩
  · rw [hview]
    exact h.readable.within
  · rw [hview]
    exact h.unread_eq
  · rw [hview, ← h.atEnd_eq]
    rfl

theorem Before.depth_eq (h : Before S s bytes w) : (S.view s).depth = w.depth := by
  rw [← h.atEnd_eq]
  rfl

end

/-! ## Labels -/

/-- What a parser reads: the format of its records, which tags may follow one another, and at
each label the tag that is read already, if one is, and how much deeper the stream is. -/
structure Grammar (ℓ α : Type) where
  format : Format α
  follows : ℕ → ℕ → Prop
  tagOf : ℓ → Option ℕ
  depthOf : ℓ → ℕ

namespace Grammar

variable {ℓ α : Type} (G : Grammar ℓ α)

/-- Records in an order that the parser can read them in. -/
structure WellFormed (rs : List (Tagged α)) : Prop where
  of_format : ∀ r ∈ rs, Tagged.Of G.format r
  chain : rs.IsChain fun r r' => G.follows r.tag r'.tag

variable (S) in
/-- A label with what is to be read there, when the message is `a` in the end. -/
inductive Pending (w : StreamView) (a : α) : ℕ → ℓ → S.Stream × α → Prop
  | start {rs label s m} (hlabel : G.tagOf label = none) (hrs : G.WellFormed rs)
      (hs : Before S s (Tagged.concat rs) { w with depth := w.depth + G.depthOf label })
      (hm : Tagged.apply rs m = a) : Pending w a (Tagged.concat rs).length label (s, m)
  | record {r rs label s m} (hlabel : G.tagOf label = some r.tag) (hrs : G.WellFormed (r :: rs))
      (hs : Before S s (r.payload ++ Tagged.concat rs)
        { w with depth := w.depth + G.depthOf label })
      (hm : Tagged.apply rs (r.effect m) = a) :
      Pending w a (r.payload ++ Tagged.concat rs).length label (s, m)

variable (S) in
/-- A jump that gets the parser on. -/
abbrev Continues (w : StreamView) (a : α) (n : ℕ) (jump : Option (Jump ℓ (S.Stream × α))) :
    Prop := Advances (G.Pending S w a) (fun state => S.view state.1 = w ∧ state.2 = a) n jump

variable {G}

theorem WellFormed.tail {r : Tagged α} {rs : List (Tagged α)} (h : G.WellFormed (r :: rs)) :
    G.WellFormed rs :=
  ⟨fun r' hr' => h.of_format r' (List.mem_cons_of_mem r hr'), h.chain.of_cons⟩

theorem WellFormed.head {r : Tagged α} {rs : List (Tagged α)} (h : G.WellFormed (r :: rs)) :
    Tagged.Of G.format r := h.of_format r List.mem_cons_self

/-- Records that may stand in any order. -/
theorem WellFormed.of_free {rs : List (Tagged α)} (hrs : ∀ r ∈ rs, Tagged.Of G.format r)
    (hfree : ∀ r ∈ rs, ∀ r' ∈ rs, G.follows r.tag r'.tag) : G.WellFormed rs :=
  ⟨hrs, (List.pairwise_of_forall_mem_list hfree).isChain⟩

theorem WellFormed.follows {r : Tagged α} {rs : List (Tagged α)} (h : G.WellFormed (r :: rs)) :
    ∀ r' ∈ rs.head?, G.follows r.tag r'.tag := by
  intro r' hr'
  cases rs with
  | nil => cases hr'
  | cons r'' rs =>
      obtain rfl := Option.some.inj hr'
      exact (List.isChain_cons_cons.mp h.chain).1

theorem WellFormed.eq_nil {rs : List (Tagged α)} (h : G.WellFormed rs)
    (hnil : Tagged.concat rs = []) : rs = [] := by
  cases rs with
  | nil => rfl
  | cons r rs =>
      rw [Tagged.concat_cons] at hnil
      exact absurd (List.append_eq_nil_iff.mp hnil).1 h.head.tagBytes_ne_nil

variable {w : StreamView} {a m : α} {rs : List (Tagged α)} {s : S.Stream} {n : ℕ}

/-- Back to the head of the loop. -/
theorem continues_start {start : ℓ} (hstart : G.tagOf start = none) (hdepth : G.depthOf start = 0)
    (hrs : G.WellFormed rs) (hs : Before S s (Tagged.concat rs) w) (hm : Tagged.apply rs m = a)
    (hn : (Tagged.concat rs).length < n) :
    G.Continues S w a n (some (.goto start (s, m))) :=
  .goto _ hn (.start hstart hrs (by rwa [hdepth]) hm)

/-- Past the head of the loop if the tag is there, and if it is not, or the stream does not
look, on with what follows. -/
theorem continues_expectTag (hS : S.Documented) {t : BitVec 32} {label : ℓ}
    (hlabel : G.tagOf label = some t.toNat) (hrs : G.WellFormed rs)
    (hs : Before S s (Tagged.concat rs) { w with depth := w.depth + G.depthOf label })
    (hm : Tagged.apply rs m = a) (hn : (Tagged.concat rs).length < n)
    {next : S.Stream → Option (Jump ℓ (S.Stream × α))}
    (hnext : ∀ s', Before S s' (Tagged.concat rs) { w with depth := w.depth + G.depthOf label } →
      G.Continues S w a n (next s')) :
    G.Continues S w a n (ifExpectTag S t label s m next) := by
  rw [ifExpectTag]
  cases hexpect : (S.expectTag t s).1 with
  | false => exact hnext _ (hs.same (hS.expectTag_false t s hexpect))
  | true =>
      rcases hS.expectTag_true t s hs.readable hexpect with ⟨k, hk, hread⟩
      cases rs with
      | nil =>
          rw [StreamView.readVarint, hs.unread_eq] at hread
          cases hread
      | cons r rs =>
          have hr := hrs.head
          rw [Tagged.concat_cons] at hs hn
          have hread' := StreamView.readVarint_append hs.unread_eq hr.tag_eq
          rcases Prod.mk.inj (Option.some.inj (hread.symm.trans hread')) with ⟨rfl, hview⟩
          have htag : t.toNat = r.tag := by
            rw [← hk, BitVec.toNat_ofNat, Nat.mod_eq_of_lt hr.tag_lt]
          refine .goto _ ?_ (.record (htag ▸ hlabel) hrs (hs.advance hview) hm)
          rw [List.length_append] at hn
          omega

/-- The end of the message, or back to the head of the loop. -/
theorem continues_expectAtEnd (hS : S.Documented) {start : ℓ} (hstart : G.tagOf start = none)
    (hdepth : G.depthOf start = 0) (hrs : G.WellFormed rs)
    (hs : Before S s (Tagged.concat rs) w) (hm : Tagged.apply rs m = a)
    (hn : (Tagged.concat rs).length < n) :
    G.Continues S w a n (ifExpectAtEnd S start s m) := by
  rw [ifExpectAtEnd]
  cases hexpect : (S.expectAtEnd s).1 with
  | false =>
      exact continues_start hstart hdepth hrs (hs.same (hS.expectAtEnd_false s hexpect)) hm hn
  | true =>
      rcases hS.expectAtEnd_true s hs.readable hexpect with ⟨hunread, hview⟩
      have hconcat := hs.unread_eq.symm.trans hunread
      obtain rfl := hrs.eq_nil hconcat
      exact .exit ⟨hs.ends hview, hm⟩

/-- What stands behind a tag at the head of the loop: a `case` for it, or a field to skip. -/
inductive Switched (G : Grammar ℓ α) (w : StreamView) (a : α) (n tag : ℕ) (payload : Bytes)
    (effect : α → α) (jump : Option (Option (Jump ℓ (S.Stream × α)))) : Prop
  | case {j} (hle : tag ≤ 127) (h : jump = some j) (hj : G.Continues S w a n j)
  | unusual {t} (h : tag ≤ 127 → jump = none) (heffect : effect = id) (ht : tag % 8 = t.code)
      (hpayload : IsPayload t payload)

/-- The head of the loop, where each tag is handled. -/
theorem continues_switch (hS : S.Documented) {start : ℓ} (hstart : G.tagOf start = none)
    (hdepth : G.depthOf start = 0) (hrs : G.WellFormed rs)
    (hs : Before S s (Tagged.concat rs) w) (hm : Tagged.apply rs m = a)
    {cases : BitVec 32 → S.Stream → Option (Option (Jump ℓ (S.Stream × α)))}
    (hzero : ∀ s, cases 0 s = none) (hpos : ∀ r ∈ rs, r.tag ≠ 0)
    (hcases : ∀ r rs', rs = r :: rs' → ∀ s', Before S s' (r.payload ++ Tagged.concat rs') w →
      Switched G w a (Tagged.concat rs).length r.tag r.payload r.effect
        (cases (BitVec.ofNat 32 r.tag) s')) :
    G.Continues S w a (Tagged.concat rs).length (readTagAndSwitch S start s m cases) := by
  rw [readTagAndSwitch]
  cases rs with
  | nil =>
      rcases hS.readTagWithCutoff_end 127 s hs.readable hs.unread_eq with ⟨htag, hview⟩
      simp only [htag, hzero, Option.getD_none, ite_self]
      rw [handleUnusual, if_pos (Or.inl rfl)]
      exact .exit ⟨hs.ends hview, hm⟩
  | cons r rs =>
      have hr := hrs.head
      rw [Tagged.concat_cons] at hs
      have hread := StreamView.readVarint_append hs.unread_eq hr.tag_eq
      rcases hS.readTagWithCutoff_some 127 s _ _ hs.readable hread with ⟨htag, hview, hknown⟩
      have hbehind := hs.advance hview
      have htoNat : (BitVec.ofNat 32 r.tag).toNat = r.tag := by
        rw [BitVec.toNat_ofNat, Nat.mod_eq_of_lt hr.tag_lt]
      have hne : BitVec.ofNat 32 r.tag ≠ 0 := by
        intro h0
        rw [h0] at htoNat
        exact hpos r List.mem_cons_self htoNat.symm
      specialize hknown hne
      rw [htoNat, show (127 : BitVec 32).toNat = 127 from rfl] at hknown
      simp only [htag]
      cases hcases r rs rfl _ hbehind with
      | case hle h hj =>
          rw [hknown, decide_eq_true hle, if_pos rfl, h]
          exact hj
      | @unusual t h heffect ht hpayload =>
          have hskip := hS.skipField _ (BitVec.ofNat 32 r.tag) t _ _ hbehind.readable
            (by rw [htoNat, ht]) hpayload hbehind.unread_eq
          have hgroup : ¬ r.tag % 8 = 4 := by
            rw [ht]
            cases hpayload <;> decide
          have hunusual : G.Continues S w a (Tagged.concat (r :: rs)).length
              (handleUnusual S start (BitVec.ofNat 32 r.tag) (S.readTagWithCutoff 127 s).2 m) := by
            rw [handleUnusual, htoNat, if_neg (not_or.mpr ⟨hne, hgroup⟩), tryDo, if_pos hskip.1]
            rw [Tagged.apply_cons, heffect] at hm
            exact continues_start hstart hdepth hrs.tail (hbehind.advance hskip.2) hm
              (hr.length_lt rs)
          by_cases hle : r.tag ≤ 127
          · rw [h hle, Option.getD_none, ite_self]
            exact hunusual
          · rw [hknown, decide_eq_false hle, if_neg Bool.false_ne_true]
            exact hunusual

theorem length_lt_payload {payload : Bytes} (hne : payload ≠ []) (rs : List (Tagged α)) :
    (Tagged.concat rs).length < (payload ++ Tagged.concat rs).length := by
  have hpos := List.length_pos_iff.mpr hne
  rw [List.length_append]
  omega

theorem ofNat_ne {tag : ℕ} (hlt : tag < 2 ^ 32) {t : BitVec 32} (hne : tag ≠ t.toNat) :
    BitVec.ofNat 32 tag ≠ t := by
  rintro rfl
  rw [BitVec.toNat_ofNat, Nat.mod_eq_of_lt hlt] at hne
  exact hne rfl

end Grammar

/-! ## Reads -/

section

variable {s : S.Stream} {w : StreamView}

theorem Before.read {β : Type} {read : S.Stream → β → Read S.Stream β}
    {spec : StreamView → Option (β × StreamView)}
    (hread : S.toCodedInputStream.Follows read spec) {payload rest : Bytes}
    (hs : Before S s (payload ++ rest) w) {b : β}
    (hspec : spec (S.view s) = some (b, (S.view s).advance payload.length)) (x : β) :
    ∃ s', read s x = ⟨true, b, s'⟩ ∧ Before S s' rest w := by
  rcases hread.some hs.readable x hspec with ⟨hok, hvalue, hview⟩
  generalize hr : read s x = r at hok hvalue hview
  obtain ⟨ok, value, s'⟩ := r
  subst hok
  subst hvalue
  exact ⟨s', rfl, hs.advance hview⟩

theorem Before.readVarintAs {β : Type} {read : S.Stream → β → Read S.Stream β} {f : ℕ → β}
    (hread : S.toCodedInputStream.Follows read (StreamView.readVarintAs f)) {payload rest : Bytes}
    (hs : Before S s (payload ++ rest) w) {n : ℕ} (h : Varint.decode payload = some (n, []))
    (x : β) : ∃ s', read s x = ⟨true, f n, s'⟩ ∧ Before S s' rest w :=
  hs.read hread (StreamView.readVarintAs_append f hs.unread_eq h) x

theorem Before.readStringField (hS : S.Documented) {lengthBytes body rest : Bytes}
    (hs : Before S s (lengthBytes ++ body ++ rest) w)
    (h : Varint.decode lengthBytes = some (body.length, [])) (hlt : body.length < 2 ^ 31)
    (hutf8 : S.verifyUtf8String body = true) (x : Bytes) :
    ∃ s', readStringField S s x = (true, body, s') ∧ Before S s' rest w := by
  have hunread := hs.unread_eq
  rw [List.append_assoc] at hunread
  have hspec := StreamView.readString_append hunread h (Nat.mod_eq_of_lt (by omega)) hlt
  rcases hs.read hS.readString hspec x with ⟨s', heq, hs'⟩
  refine ⟨s', ?_, hs'⟩
  rw [Tutorial.readStringField, heq]
  simp only [hutf8, Bool.and_true]

/-- A message that its own parser reads to the end. -/
theorem Before.readMessage (hS : S.Documented) {β : Type}
    {mergePartial : S.Stream → Option (Bool × S.Stream × β)} {lengthBytes body rest : Bytes} {b : β}
    (hs : Before S s (lengthBytes ++ body ++ rest) w)
    (h : Varint.decode lengthBytes = some (body.length, [])) (hlt : body.length < 2 ^ 31)
    (hmerge : ∀ s' w', w'.depth = w.depth → w'.legitimateEnd = true → Before S s' body w' →
      ∃ s'', mergePartial s' = some (true, s'', b) ∧ S.view s'' = w') :
    ∃ s', S.readMessageNoVirtualNoRecursionDepth mergePartial s = some (true, s', b) ∧
      Before S s' rest w := by
  have hunread := hs.unread_eq
  rw [List.append_assoc] at hunread
  have hlen := hs.readable.valid.length_unread
  have hle := hs.readable.valid.limit_le
  rw [hunread, List.length_append, List.length_append] at hlen
  have hinside : ∀ s₁, S.view s₁ = { (S.view s).advance lengthBytes.length with
      limit := (S.view s).position + lengthBytes.length + body.length } →
      ∃ s₂, mergePartial s₁ = some (true, s₂, b) ∧
        S.view s₂ = { (S.view s₁).advance body.length with legitimateEnd := true } := by
    intro s₁ hview
    have hentered : S.view s₁ =
        { (S.view s).entered lengthBytes body with depth := (S.view s).depth } := hview
    have hinner : Before S s₁ body (S.view s₁).atEnd := by
      refine ⟨⟨?_, ?_⟩, ?_, rfl⟩
      · rw [hview]
        constructor
        · simp only [StreamView.advance]
          omega
        · simp only [StreamView.advance]
          omega
      · rw [hview]
        exact hs.readable.within
      · rw [hentered]
        exact StreamView.unread_entered hs.readable.valid hunread
    have hdepth : (S.view s₁).atEnd.depth = w.depth := by
      rw [hview, ← hs.depth_eq]
      rfl
    rcases hmerge _ _ hdepth rfl hinner with ⟨s₂, heq, hview₂⟩
    refine ⟨s₂, heq, ?_⟩
    rw [hview₂, hview, StreamView.atEnd]
    simp only [StreamView.advance]
    congr 1
  rcases hS.readMessage s _ _ _ hs.readable hunread h hlt hinside with ⟨s', heq, hview'⟩
  exact ⟨s', heq, hs.moved hview'⟩

end

end Tutorial

end Luapb
