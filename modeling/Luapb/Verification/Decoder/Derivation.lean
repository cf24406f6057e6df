import Luapb.Model.Decoder
import Luapb.Model.Reference
import Luapb.Model.Schemas

/-! # Runs of the decoder

`DecodeDerivation` says what one iteration of the loop can do; a run is a finite
tree of such iterations. The executable loop computes exactly these runs, so a
property of every run is proved by induction on the derivation. -/

namespace Luapb

open PBStream

variable {M : Type} (P : Platform) (S : CodedInputStream) (garbage : S.Stream → ℤ)
  (schema : Schema M)

/-- `DecodeDerivation depth s msgD tab run`: the loop entered in state `s` with table
`tab` ends as `run`. -/
inductive DecodeDerivation : ℕ → S.Stream → M → LuaTable → Run S → Prop
  | stop {depth s msgD tab} (hzero : (readFieldNumber S s).1 = 0) :
      DecodeDerivation depth s msgD tab
        ⟨tab, (readFieldNumber S s).2, [.iteration depth s]⟩
  | unknown {depth s msgD tab rest} (hnum : (readFieldNumber S s).1 ≠ 0)
      (hfind : (schema msgD).findFieldByNumber (readFieldNumber S s).1 = none)
      (hrest : DecodeDerivation depth (readFieldNumber S s).2 msgD tab rest) :
      DecodeDerivation depth s msgD tab
        ⟨rest.tab, rest.stream, .iteration depth s :: rest.log⟩
  | message {depth s msgD tab fd messageType value rest}
      (hnum : (readFieldNumber S s).1 ≠ 0)
      (hfind : (schema msgD).findFieldByNumber (readFieldNumber S s).1 = some fd)
      (htype : fd.type.messageType? = some messageType)
      (hvalue : DecodeDerivation (depth + 1)
        (beginMessage S (readFieldNumber S s).2 none).2.2 messageType [] value)
      (hrest : DecodeDerivation depth
        (endMessage S (garbage (readFieldNumber S s).2) value.stream
          (beginMessage S (readFieldNumber S s).2 none).2.1).2
        msgD (fillValue P tab fd (.table value.tab)) rest) :
      DecodeDerivation depth s msgD tab
        ⟨rest.tab, rest.stream, .iteration depth s ::
          .call (depth + 1) (beginMessage S (readFieldNumber S s).2 none).2.2 :: value.log ++
          .message (readFieldNumber S s).2 (beginMessage S (readFieldNumber S s).2 none).1
            (beginMessage S (readFieldNumber S s).2 none).2.1 value.stream
            (endMessage S (garbage (readFieldNumber S s).2) value.stream
              (beginMessage S (readFieldNumber S s).2 none).2.1).2 :: rest.log⟩
  | value {depth s msgD tab fd rest}
      (hnum : (readFieldNumber S s).1 ≠ 0)
      (hfind : (schema msgD).findFieldByNumber (readFieldNumber S s).1 = some fd)
      (htype : fd.type.messageType? = none)
      (hrest : DecodeDerivation depth (readValue P S (readFieldNumber S s).2 tab fd).stream msgD
        (readValue P S (readFieldNumber S s).2 tab fd).tab rest) :
      DecodeDerivation depth s msgD tab
        ⟨rest.tab, rest.stream, .iteration depth s ::
          (if (readValue P S (readFieldNumber S s).2 tab fd).filled then
            [.stored (readValue P S (readFieldNumber S s).2 tab fd).ok] else []) ++ rest.log⟩

/-- `Iterates depth msgD s tab s' tab'`: one iteration of the loop leads from the loop head `s`
with table `tab` to the loop head `s'` with table `tab'`. -/
inductive Iterates (depth : ℕ) (msgD : M) : S.Stream → LuaTable → S.Stream → LuaTable → Prop
  | unknown {s tab} (hnum : (readFieldNumber S s).1 ≠ 0)
      (hfind : (schema msgD).findFieldByNumber (readFieldNumber S s).1 = none) :
      Iterates depth msgD s tab (readFieldNumber S s).2 tab
  | message {s tab fd messageType value} (hnum : (readFieldNumber S s).1 ≠ 0)
      (hfind : (schema msgD).findFieldByNumber (readFieldNumber S s).1 = some fd)
      (htype : fd.type.messageType? = some messageType)
      (hvalue : DecodeDerivation P S garbage schema (depth + 1)
        (beginMessage S (readFieldNumber S s).2 none).2.2 messageType [] value) :
      Iterates depth msgD s tab
        (endMessage S (garbage (readFieldNumber S s).2) value.stream
          (beginMessage S (readFieldNumber S s).2 none).2.1).2
        (fillValue P tab fd (.table value.tab))
  | value {s tab fd} (hnum : (readFieldNumber S s).1 ≠ 0)
      (hfind : (schema msgD).findFieldByNumber (readFieldNumber S s).1 = some fd)
      (htype : fd.type.messageType? = none) :
      Iterates depth msgD s tab (readValue P S (readFieldNumber S s).2 tab fd).stream
        (readValue P S (readFieldNumber S s).2 tab fd).tab

/-- Loop heads connected by iterations. -/
inductive Iterations (depth : ℕ) (msgD : M) : S.Stream → LuaTable → S.Stream → LuaTable → Prop
  | refl {s tab} : Iterations depth msgD s tab s tab
  | step {s tab s' tab' s'' tab''} (hstep : Iterates P S garbage schema depth msgD s tab s' tab')
      (hrest : Iterations depth msgD s' tab' s'' tab'') : Iterations depth msgD s tab s'' tab''

variable {P S garbage schema}

/-- A run starts with an iteration. -/
theorem Iterates.derivation {depth : ℕ} {msgD : M} {s s' : S.Stream} {tab tab' : LuaTable}
    (h : Iterates P S garbage schema depth msgD s tab s' tab') {rest : Run S}
    (hrest : DecodeDerivation P S garbage schema depth s' msgD tab' rest) :
    ∃ log, DecodeDerivation P S garbage schema depth s msgD tab ⟨rest.tab, rest.stream, log⟩ := by
  cases h with
  | unknown hnum hfind => exact ⟨_, .unknown hnum hfind hrest⟩
  | message hnum hfind htype hvalue => exact ⟨_, .message hnum hfind htype hvalue hrest⟩
  | value hnum hfind htype => exact ⟨_, .value hnum hfind htype hrest⟩

theorem decodeLoop_derivation {fuel depth : ℕ} {s : S.Stream} {msgD : M} {tab : LuaTable}
    {run : Run S} (h : decodeLoop P S garbage schema fuel depth s msgD tab = some run) :
    DecodeDerivation P S garbage schema depth s msgD tab run := by
  induction fuel generalizing depth s msgD tab run with
  | zero => simp [decodeLoop] at h
  | succ fuel ih =>
      rw [decodeLoop] at h
      split at h
      · rename_i hzero
        obtain rfl := Option.some.inj h
        exact .stop hzero
      · rename_i hnum
        cases hfind : (schema msgD).findFieldByNumber (readFieldNumber S s).1 with
        | none =>
            simp only [hfind] at h
            obtain ⟨rest, hrest, h⟩ := Option.bind_eq_some_iff.mp h
            obtain rfl := Option.some.inj h
            exact .unknown hnum hfind (ih hrest)
        | some fd =>
            simp only [hfind] at h
            cases htype : fd.type.messageType? with
            | some messageType =>
                simp only [htype] at h
                obtain ⟨value, hvalue, h⟩ := Option.bind_eq_some_iff.mp h
                obtain ⟨rest, hrest, h⟩ := Option.bind_eq_some_iff.mp h
                obtain rfl := Option.some.inj h
                exact .message hnum hfind htype (ih hvalue) (ih hrest)
            | none =>
                simp only [htype] at h
                obtain ⟨rest, hrest, h⟩ := Option.bind_eq_some_iff.mp h
                obtain rfl := Option.some.inj h
                exact .value hnum hfind htype (ih hrest)

/-! ## Execution -/

theorem decodeLoop_stop {fuel depth : ℕ} {s : S.Stream} {msgD : M} {tab : LuaTable}
    (hzero : (readFieldNumber S s).1 = 0) :
    decodeLoop P S garbage schema (fuel + 1) depth s msgD tab =
      some ⟨tab, (readFieldNumber S s).2, [.iteration depth s]⟩ := by
  rw [decodeLoop, if_pos hzero]

theorem decodeLoop_unknown {fuel depth : ℕ} {s : S.Stream} {msgD : M} {tab : LuaTable}
    {rest : Run S} (hnum : (readFieldNumber S s).1 ≠ 0)
    (hfind : (schema msgD).findFieldByNumber (readFieldNumber S s).1 = none)
    (hrest : decodeLoop P S garbage schema fuel depth (readFieldNumber S s).2 msgD tab =
      some rest) :
    decodeLoop P S garbage schema (fuel + 1) depth s msgD tab =
      some ⟨rest.tab, rest.stream, .iteration depth s :: rest.log⟩ := by
  rw [decodeLoop, if_neg hnum]
  simp only [hfind, hrest, bind, Option.bind_some]

theorem decodeLoop_message {fuel depth : ℕ} {s : S.Stream} {msgD : M} {tab : LuaTable}
    {fd : FieldDescriptor M} {messageType : M} {value rest : Run S}
    (hnum : (readFieldNumber S s).1 ≠ 0)
    (hfind : (schema msgD).findFieldByNumber (readFieldNumber S s).1 = some fd)
    (htype : fd.type.messageType? = some messageType)
    (hvalue : decodeLoop P S garbage schema fuel (depth + 1)
      (beginMessage S (readFieldNumber S s).2 none).2.2 messageType [] = some value)
    (hrest : decodeLoop P S garbage schema fuel depth
      (endMessage S (garbage (readFieldNumber S s).2) value.stream
        (beginMessage S (readFieldNumber S s).2 none).2.1).2
      msgD (fillValue P tab fd (.table value.tab)) = some rest) :
    decodeLoop P S garbage schema (fuel + 1) depth s msgD tab =
      some ⟨rest.tab, rest.stream, .iteration depth s ::
        .call (depth + 1) (beginMessage S (readFieldNumber S s).2 none).2.2 :: value.log ++
        .message (readFieldNumber S s).2 (beginMessage S (readFieldNumber S s).2 none).1
          (beginMessage S (readFieldNumber S s).2 none).2.1 value.stream
          (endMessage S (garbage (readFieldNumber S s).2) value.stream
            (beginMessage S (readFieldNumber S s).2 none).2.1).2 :: rest.log⟩ := by
  rw [decodeLoop, if_neg hnum]
  simp only [hfind, htype, hvalue, hrest, bind, Option.bind_some]

theorem decodeLoop_value {fuel depth : ℕ} {s : S.Stream} {msgD : M} {tab : LuaTable}
    {fd : FieldDescriptor M} {rest : Run S}
    (hnum : (readFieldNumber S s).1 ≠ 0)
    (hfind : (schema msgD).findFieldByNumber (readFieldNumber S s).1 = some fd)
    (htype : fd.type.messageType? = none)
    (hrest : decodeLoop P S garbage schema fuel depth
      (readValue P S (readFieldNumber S s).2 tab fd).stream msgD
      (readValue P S (readFieldNumber S s).2 tab fd).tab = some rest) :
    decodeLoop P S garbage schema (fuel + 1) depth s msgD tab =
      some ⟨rest.tab, rest.stream, .iteration depth s ::
        (if (readValue P S (readFieldNumber S s).2 tab fd).filled then
          [.stored (readValue P S (readFieldNumber S s).2 tab fd).ok] else []) ++ rest.log⟩ := by
  rw [decodeLoop, if_neg hnum]
  simp only [hfind, htype, hrest, bind, Option.bind_some]

/-- A derivation is what the loop computes, given enough fuel. -/
theorem DecodeDerivation.execution {depth : ℕ} {s : S.Stream} {msgD : M} {tab : LuaTable}
    {run : Run S} (h : DecodeDerivation P S garbage schema depth s msgD tab run) :
    ∃ n, ∀ fuel, n ≤ fuel → decodeLoop P S garbage schema fuel depth s msgD tab = some run := by
  induction h with
  | stop hzero =>
      refine ⟨1, fun fuel hfuel => ?_⟩
      obtain ⟨fuel, rfl⟩ := Nat.exists_eq_add_of_le' hfuel
      exact decodeLoop_stop hzero
  | unknown hnum hfind _ ih =>
      obtain ⟨n, hn⟩ := ih
      refine ⟨n + 1, fun fuel hfuel => ?_⟩
      obtain ⟨fuel, rfl⟩ := Nat.exists_eq_add_of_le' (Nat.le_of_add_left_le hfuel)
      exact decodeLoop_unknown hnum hfind (hn fuel (by omega))
  | message hnum hfind htype _ _ ihv ihr =>
      obtain ⟨n, hn⟩ := ihv
      obtain ⟨m, hm⟩ := ihr
      refine ⟨n + m + 1, fun fuel hfuel => ?_⟩
      obtain ⟨fuel, rfl⟩ := Nat.exists_eq_add_of_le' (Nat.le_of_add_left_le hfuel)
      exact decodeLoop_message hnum hfind htype (hn fuel (by omega)) (hm fuel (by omega))
  | value hnum hfind htype _ ih =>
      obtain ⟨n, hn⟩ := ih
      refine ⟨n + 1, fun fuel hfuel => ?_⟩
      obtain ⟨fuel, rfl⟩ := Nat.exists_eq_add_of_le' (Nat.le_of_add_left_le hfuel)
      exact decodeLoop_value hnum hfind htype (hn fuel (by omega))

/-- All runs of one call end the same way. -/
theorem DecodeDerivation.deterministic {depth : ℕ} {s : S.Stream} {msgD : M} {tab : LuaTable}
    {run run' : Run S} (h : DecodeDerivation P S garbage schema depth s msgD tab run)
    (h' : DecodeDerivation P S garbage schema depth s msgD tab run') : run = run' := by
  obtain ⟨n, hn⟩ := h.execution
  obtain ⟨m, hm⟩ := h'.execution
  exact Option.some.inj ((hn (n + m) (by omega)).symm.trans (hm (n + m) (by omega)))

/-- Behind its first iteration a run goes on as a run of its own. -/
theorem Iterates.behind {depth : ℕ} {msgD : M} {s s' : S.Stream} {tab tab' : LuaTable}
    (h : Iterates P S garbage schema depth msgD s tab s' tab') {run : Run S}
    (hrun : DecodeDerivation P S garbage schema depth s msgD tab run) :
    ∃ rest, DecodeDerivation P S garbage schema depth s' msgD tab' rest ∧ rest.tab = run.tab ∧
      rest.stream = run.stream ∧ rest.log ⊆ run.log := by
  cases h with
  | unknown hnum hfind =>
      cases hrun with
      | stop hzero => exact absurd hzero hnum
      | unknown _ _ hrest => exact ⟨_, hrest, rfl, rfl, List.subset_cons_self _ _⟩
      | message _ hfind' => cases hfind.symm.trans hfind'
      | value _ hfind' => cases hfind.symm.trans hfind'
  | message hnum hfind htype hvalue =>
      cases hrun with
      | stop hzero => exact absurd hzero hnum
      | unknown _ hfind' => cases hfind'.symm.trans hfind
      | message _ hfind' htype' hvalue' hrest =>
          obtain rfl := Option.some.inj (hfind.symm.trans hfind')
          obtain rfl := Option.some.inj (htype.symm.trans htype')
          obtain rfl := hvalue.deterministic hvalue'
          exact ⟨_, hrest, rfl, rfl, fun e he => by simp [he]⟩
      | value _ hfind' htype' =>
          obtain rfl := Option.some.inj (hfind.symm.trans hfind')
          cases htype.symm.trans htype'
  | value hnum hfind htype =>
      cases hrun with
      | stop hzero => exact absurd hzero hnum
      | unknown _ hfind' => cases hfind'.symm.trans hfind
      | message _ hfind' htype' =>
          obtain rfl := Option.some.inj (hfind.symm.trans hfind')
          cases htype.symm.trans htype'
      | value _ hfind' _ hrest =>
          obtain rfl := Option.some.inj (hfind.symm.trans hfind')
          exact ⟨_, hrest, rfl, rfl, fun e he => by simp [he]⟩

section

variable {depth : ℕ} {msgD : M} {s s' : S.Stream} {tab tab' : LuaTable}
  (h : Iterations P S garbage schema depth msgD s tab s' tab')

include h

theorem Iterations.derivation {rest : Run S}
    (hrest : DecodeDerivation P S garbage schema depth s' msgD tab' rest) :
    ∃ run, DecodeDerivation P S garbage schema depth s msgD tab run ∧ run.tab = rest.tab ∧
      run.stream = rest.stream := by
  induction h with
  | refl => exact ⟨rest, hrest, rfl, rfl⟩
  | step hstep _ ih =>
      obtain ⟨run, hrun, htab, hstream⟩ := ih hrest
      obtain ⟨log, hlog⟩ := hstep.derivation hrun
      exact ⟨_, hlog, htab, hstream⟩

theorem Iterations.behind {run : Run S}
    (hrun : DecodeDerivation P S garbage schema depth s msgD tab run) :
    ∃ rest, DecodeDerivation P S garbage schema depth s' msgD tab' rest ∧ rest.tab = run.tab ∧
      rest.stream = run.stream ∧ rest.log ⊆ run.log := by
  induction h generalizing run with
  | refl => exact ⟨run, hrun, rfl, rfl, List.Subset.refl _⟩
  | step hstep _ ih =>
      obtain ⟨rest, hrest, htab, hstream, hlog⟩ := hstep.behind hrun
      obtain ⟨rest', hrest', htab', hstream', hlog'⟩ := ih hrest
      exact ⟨rest', hrest', htab'.trans htab, hstream'.trans hstream,
        List.Subset.trans hlog' hlog⟩

end

theorem rawDecode_derivation {fuel depth : ℕ} {s : S.Stream} {msgD : M} {run : Run S}
    (h : rawDecode P S garbage schema fuel depth s msgD = some run) :
    ∃ r, DecodeDerivation P S garbage schema depth s msgD [] r ∧
      run = ⟨r.tab, r.stream, .call depth s :: r.log⟩ := by
  obtain ⟨r, hr, h⟩ := Option.bind_eq_some_iff.mp h
  exact ⟨r, decodeLoop_derivation hr, (Option.some.inj h).symm⟩

/-- `RawDecode` on the reference stream, with uninitialised limits that hold 0. -/
abbrev referenceRun (schema : Schema M) (fuel : ℕ) (data : Bytes) (msgD : M) :
    Option (Run CodedInputStream.reference) :=
  rawDecode (.plain .x64) .reference (fun _ => 0) schema fuel 1 (.start data) msgD

end Luapb
