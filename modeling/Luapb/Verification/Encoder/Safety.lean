import Luapb.Model.Reference
import Luapb.Model.Schemas
import Luapb.Verification.Encoder.Course
import Mathlib.Order.WellFounded

/-! # How encoding can end

Which tables make `lua_next` run on something else, which make the recursion endless,
and which raise an error when the buffer is already allocated. -/

namespace Luapb

open Ieee754 PBStream Traversal

variable {M : Type} {P : Platform} {W : WireFormatLite} {L : LuaState} {schema : Schema M}

/-! ## Failures of a conversion -/

/-- The faults of the conversions and of `FieldSize` and `WriteValue`. -/
inductive ValueFault : Fault → Prop
  | luaError (e) : ValueFault (.luaError e)
  | nullString : ValueFault .nullString
  | overrun : ValueFault .overrun
  | assertion : ValueFault .assertion

section

variable {V : Type} {v : LuaView V} {f : Fault}

theorem checklstring_error (h : Stack.checklstring P v = .error f) : ∃ e, f = .luaError e := by
  cases v <;> cases h
  all_goals exact ⟨_, rfl⟩

theorem getCString_error (h : Stack.getCString P v = .error f) : ∃ e, f = .luaError e := by
  cases v <;> cases h
  all_goals exact ⟨_, rfl⟩

theorem checkinteger_error (h : Stack.checkinteger P v = .error f) :
    (∃ e, f = .luaError e) ∧ Stack.tonumber P v = none := by
  rw [Stack.checkinteger] at h
  cases hn : Stack.tonumber P v with
  | some n => rw [hn] at h; cases h
  | none =>
      rw [hn] at h
      cases h
      exact ⟨⟨_, rfl⟩, rfl⟩

theorem getInt_error (h : Stack.getInt P v = .error f) : ∃ e, f = .luaError e := by
  rw [Stack.getInt] at h
  cases hi : Stack.checkinteger P v with
  | ok i => rw [hi] at h; cases h
  | error f' =>
      rw [hi] at h
      cases h
      exact (checkinteger_error hi).1

theorem getFloat_error (h : Stack.getFloat P v = .error f) :
    (∃ e, f = .luaError e) ∧ Stack.tonumber P v = none := by
  rw [Stack.getFloat] at h
  cases hn : Stack.tonumber P v with
  | some n => rw [hn] at h; cases h
  | none =>
      rw [hn] at h
      cases h
      exact ⟨⟨_, rfl⟩, rfl⟩

theorem strlen_error {s : Option Bytes} (h : strlen s = .error f) : f = .nullString := by
  cases s <;> cases h
  rfl

theorem unknownType_error {α : Type} {release : α} (h : unknownType P release = .error f) :
    f = .assertion := by
  rw [unknownType] at h
  split at h <;> cases h
  rfl

/-- A computation that fails with these faults only. -/
def ValueFaults {α : Type} (x : Except Fault α) : Prop := ∀ f, x = .error f → ValueFault f

theorem ValueFaults.ok {α : Type} (a : α) : ValueFaults (.ok a) := fun _ h => nomatch h

theorem ValueFaults.bind {α β : Type} {x : Except Fault α} {g : α → Except Fault β}
    (hx : ValueFaults x) (hg : ∀ a, ValueFaults (g a)) : ValueFaults (x >>= g) := by
  intro f h
  rcases Fallible.bind_eq_error.mp h with h | ⟨a, -, h⟩
  · exact hx f h
  · exact hg a f h

theorem ValueFaults.of_luaError {α : Type} {x : Except Fault α}
    (h : ∀ {f}, x = .error f → ∃ e, f = .luaError e) : ValueFaults x := by
  intro f hf
  rcases h hf with ⟨e, rfl⟩
  exact .luaError e

variable (P W v) in
theorem fieldSize_faults (fd : FieldDescriptor M) : ValueFaults (fieldSize P W fd v) := by
  have hstrlen : ∀ s, ValueFaults (strlen s) := fun s f h => strlen_error h ▸ .nullString
  rw [fieldSize]
  cases htype : fd.type <;> simp only [fieldSizeBy, htype]
  case float | bool => exact .ok _
  case int32 | uint32 | message => exact (ValueFaults.of_luaError getInt_error).bind fun _ => .ok _
  case string | int64 | uint64 =>
    exact (ValueFaults.of_luaError getCString_error).bind fun s => (hstrlen s).bind fun _ => .ok _
  case enum enumType =>
    apply (ValueFaults.of_luaError checklstring_error).bind
    intro name
    cases enumType.findValueByName name <;> exact .ok _
  all_goals exact fun f h => unknownType_error h ▸ .assertion

variable (P W v) in
theorem writeValue_faults (fd : FieldDescriptor M) : ValueFaults (writeValue P W fd v) := by
  have hstrlen : ∀ s, ValueFaults (strlen s) := fun s f h => strlen_error h ▸ .nullString
  cases htype : fd.type <;> simp only [writeValue, htype]
  case bool => exact .ok _
  case float =>
    exact (ValueFaults.of_luaError fun h => (getFloat_error h).1).bind fun _ => .ok _
  case int32 | uint32 => exact (ValueFaults.of_luaError getInt_error).bind fun _ => .ok _
  case string | int64 | uint64 =>
    apply (ValueFaults.of_luaError getCString_error).bind
    intro s
    apply (hstrlen s).bind
    intro c f h
    rw [writeString] at h
    split at h <;> cases h
    exact .overrun
  case enum enumType =>
    apply (ValueFaults.of_luaError checklstring_error).bind
    intro name
    cases enumType.findValueByName name <;> exact .ok _
  all_goals exact fun f h => unknownType_error h ▸ .assertion

/-- A value that `WriteValue` accepts is one that `FieldSize` accepts. -/
theorem fieldSize_of_writeValue {fd : FieldDescriptor M} (hscalar : fd.type.messageType? = none)
    {bytes : Bytes} (h : writeValue P W fd v = .ok bytes) :
    ∃ size, fieldSize P W fd v = .ok size := by
  rw [fieldSize]
  cases htype : fd.type <;> simp only [writeValue, fieldSizeBy, htype] at h ⊢
  case float | bool => exact ⟨_, rfl⟩
  case message => simp [htype, FieldType.messageType?] at hscalar
  case int32 | uint32 =>
    rcases Fallible.bind_eq_ok.mp h with ⟨n, hn, -⟩
    rw [hn]
    exact ⟨_, rfl⟩
  case string | int64 | uint64 =>
    rcases Fallible.bind_eq_ok.mp h with ⟨s, hs, h⟩
    rcases Fallible.bind_eq_ok.mp h with ⟨c, hc, -⟩
    rw [hs, Fallible.ok_bind, hc]
    exact ⟨_, rfl⟩
  case enum enumType =>
    rcases Fallible.bind_eq_ok.mp h with ⟨name, hname, -⟩
    rw [hname, Fallible.ok_bind]
    cases enumType.findValueByName name <;> exact ⟨_, rfl⟩
  all_goals
    rw [unknownType] at h ⊢
    split at h
    · rename_i hrelease
      rw [if_pos hrelease]
      exact ⟨_, rfl⟩
    · cases h

/-- Only a `float` can raise an error in `WriteValue` and none in `FieldSize`, which does
not look at it. -/
theorem writeValue_raises_iff {fd : FieldDescriptor M} (hscalar : fd.type.messageType? = none)
    {size : ℤ} (h : fieldSize P W fd v = .ok size) :
    (∃ e, writeValue P W fd v = .error (.luaError e)) ↔
      fd.type = .float ∧ Stack.tonumber P v = none := by
  constructor
  · rintro ⟨e, he⟩
    rw [fieldSize] at h
    cases htype : fd.type <;> simp only [writeValue, fieldSizeBy, htype] at h he
    case float =>
      rcases Fallible.bind_eq_error.mp he with he | ⟨n, -, he⟩
      · exact ⟨rfl, (getFloat_error he).2⟩
      · cases he
    case bool => cases he
    case message => simp [htype, FieldType.messageType?] at hscalar
    case int32 | uint32 =>
      rcases Fallible.bind_eq_ok.mp h with ⟨n, hn, -⟩
      rw [hn] at he
      cases he
    case string | int64 | uint64 =>
      rcases Fallible.bind_eq_ok.mp h with ⟨s, hs, h⟩
      rcases Fallible.bind_eq_ok.mp h with ⟨c, hc, -⟩
      rw [hs, Fallible.ok_bind, hc, Fallible.ok_bind, writeString] at he
      split at he <;> cases he
    case enum enumType =>
      rcases Fallible.bind_eq_ok.mp h with ⟨name, hname, -⟩
      rw [hname, Fallible.ok_bind] at he
      cases hfind : enumType.findValueByName name <;> rw [hfind] at he <;> cases he
    all_goals cases unknownType_error he
  · rintro ⟨htype, hnone⟩
    refine ⟨.typerror "number", ?_⟩
    simp only [writeValue, htype, Stack.getFloat, hnone]
    rfl

end

/-! ## Steps of both passes -/

theorem messageSteps_eq_error {fmt : String} {a : MessageNode M L} {f : Fault} :
    messageSteps P L schema fmt a = .error f ↔
      f = .nextOnNonTable ∧ (L.view a.2).isTable = false := by
  rw [messageSteps]
  cases hview : L.view a.2 <;>
    simp [LuaView.luaNext, LuaView.isTable, bind, Except.bind, eq_comm]

theorem sizeCheck_error {part : Part M L} {f : Fault} (h : sizeCheck P W L part = .error f) :
    ValueFault f :=
  fieldSize_faults P W _ part.1 f (Fallible.outcome_eq_error.mp h)

theorem writeCheck_error {part : Part M L} {f : Fault} (h : writeCheck P W L part = .error f) :
    ValueFault f :=
  writeValue_faults P W _ part.1 f (Fallible.outcome_eq_error.mp h)

/-- What the write pass takes steps to is what the size pass takes steps to. -/
theorem passes_step {a : MessageNode M L} (h : Passes (sizeSteps P L schema) (sizeCheck P W L) a)
    {steps : List (PassStep M L)} (hsteps : encodeSteps P L schema a = .ok steps)
    {step : PassStep M L} (hmem : step ∈ steps) :
    StepPasses (sizeSteps P L schema) (sizeCheck P W L) step := by
  rcases passes_iff.mp h with ⟨steps', hsteps', hpass⟩
  rcases encodeSteps_same hsteps with ⟨steps'', hsteps'', hsame⟩
  cases hsteps'.symm.trans hsteps''
  rcases Fallible.exists_of_mem_right hsame.flip hmem with ⟨step', hmem', hsame⟩
  have hstep := hpass _ hmem'
  cases hsame with
  | fail => cases hstep
  | leaf => exact hstep
  | node => exact hstep

theorem passes_of_meets {a : MessageNode M L}
    (h : Passes (sizeSteps P L schema) (sizeCheck P W L) a) {step : PassStep M L}
    (hmeets : Meets (encodeSteps P L schema) (writeCheck P W L) a step) :
    StepPasses (sizeSteps P L schema) (sizeCheck P W L) step := by
  rcases hmeets with ⟨hsteps, -⟩
  exact passes_step h hsteps (by simp)

theorem passes_of_reaches {a b : MessageNode M L}
    (h : Passes (sizeSteps P L schema) (sizeCheck P W L) a)
    (hreach : Reaches (encodeSteps P L schema) (writeCheck P W L) a b) :
    Passes (sizeSteps P L schema) (sizeCheck P W L) b := by
  induction hreach with
  | refl => exact h
  | tail _ hleads ih =>
      cases passes_of_meets ih hleads with
      | node hpass => exact hpass

theorem passes_of_rawByteSize {fuel : ℕ} {msgD : M} {tab : L.Value} {n : ℤ}
    (h : rawByteSize P W L schema fuel msgD tab = .ok n) :
    Passes (sizeSteps P L schema) (sizeCheck P W L) (msgD, tab) := by
  have hrun := Fallible.outcome_eq_ok.mpr ⟨n, h⟩
  rw [rawByteSize, rawByteSizeBy_outcome] at hrun
  exact passes_of_run hrun

theorem run_size_eq_error {fuel : ℕ} {msgD : M} {tab : L.Value} {f : Fault} :
    run (sizeSteps P L schema) (sizeCheck P W L) .outOfFuel fuel (msgD, tab) = .error f ↔
      rawByteSize P W L schema fuel msgD tab = .error f := by
  rw [← rawByteSizeBy_outcome int32, Fallible.outcome_eq_error]
  rfl

/-- The fault of a size pass is the fault of a message it comes to. -/
theorem rawByteSize_eq_error_iff {msgD : M} {tab : L.Value} {f : Fault} (hne : f ≠ .outOfFuel) :
    (∃ fuel, rawByteSize P W L schema fuel msgD tab = .error f) ↔
      ∃ a, Reaches (sizeSteps P L schema) (sizeCheck P W L) (msgD, tab) a ∧
        FailsAt (sizeSteps P L schema) (sizeCheck P W L) a f := by
  rw [← run_eq_error_iff hne]
  apply exists_congr
  intro fuel
  exact run_size_eq_error.symm

/-- The fault of a write pass is the fault of a message it comes to, and the size pass goes
through that message. -/
theorem failsAt_of_rawEncode {fuel : ℕ} {msgD : M} {stream : Bytes} {tab : L.Value} {n : ℤ}
    (hsize : rawByteSize P W L schema fuel msgD tab = .ok n) {f : Fault} (hne : f ≠ .outOfFuel)
    (h : rawEncode P W L schema fuel msgD stream tab = .error f) :
    ∃ a, Reaches (encodeSteps P L schema) (writeCheck P W L) (msgD, tab) a ∧
      FailsAt (encodeSteps P L schema) (writeCheck P W L) a f ∧
        Passes (sizeSteps P L schema) (sizeCheck P W L) a := by
  rw [← Fallible.outcome_eq_error, rawEncode_outcome hsize] at h
  rcases reaches_of_run h hne with ⟨a, hreach, hfails⟩
  exact ⟨a, hreach, hfails, passes_of_reaches (passes_of_rawByteSize hsize) hreach⟩

/-! ## Termination -/

/-- What a step of the write pass gets past, the size pass gets past with the same fuel. -/
theorem runStep_size_ok {fuel : ℕ} {a : MessageNode M L} {steps : List (PassStep M L)}
    (hsteps : encodeSteps P L schema a = .ok steps) {step step' : PassStep M L}
    (hmem : step ∈ steps) (hsame : SameStep step step')
    (h : runStep (writeCheck P W L) (encodeVisit P W L schema fuel) step = .ok ⟨⟩) :
    runStep (sizeCheck P W L) (run (sizeSteps P L schema) (sizeCheck P W L) .outOfFuel fuel)
      step' = .ok ⟨⟩ := by
  cases hsame with
  | fail => cases h
  | leaf part =>
      rcases Fallible.outcome_eq_ok.mp h with ⟨bytes, hwrite⟩
      exact Fallible.outcome_eq_ok.mpr
        (fieldSize_of_writeValue (leaf_messageType hsteps hmem).2 hwrite)
  | node b =>
      rw [runStep, encodeVisit] at h
      rcases Fallible.bind_eq_ok.mp h with ⟨_, hsize, -⟩
      exact (rawByteSizeBy_outcome int32 fuel b.1 b.2).symm.trans hsize

/-- Where the fuel of the write pass runs out, so does that of the size pass. -/
theorem rawByteSize_outOfFuel {fuel : ℕ} {msgD : M} {stream : Bytes} {tab : L.Value}
    (h : rawEncode P W L schema fuel msgD stream tab = .error .outOfFuel) :
    rawByteSize P W L schema fuel msgD tab = .error .outOfFuel := by
  induction fuel generalizing msgD stream tab with
  | zero => rfl
  | succ fuel ih =>
      rw [← Fallible.outcome_eq_error, rawEncode_outcome_succ] at h
      rcases Fallible.bind_eq_error.mp h with h | ⟨steps, hsteps, h⟩
      · cases (messageSteps_eq_error.mp h).1
      rcases encodeSteps_same hsteps with ⟨steps', hsteps', hsame⟩
      rw [← Fallible.outcome_eq_error, rawByteSize, rawByteSizeBy_outcome, run, hsteps',
        Fallible.ok_bind]
      apply runSteps_error_of_forall₂ hsame
      · exact fun s hs s' hss => runStep_size_ok hsteps hs hss
      · intro s hs s' hss herror
        cases hss with
        | fail e =>
            rcases fail_isLuaError hsteps hs with ⟨e', rfl⟩
            cases herror
        | leaf part => cases writeCheck_error herror
        | node b =>
            apply run_size_eq_error.mpr
            rcases Fallible.bind_eq_error.mp herror with hsize | ⟨_, -, hencode⟩
            · exact Fallible.outcome_eq_error.mp hsize
            · exact ih (Fallible.outcome_eq_error.mp hencode)
      · exact h

/-- Both passes over a table end, at a depth that only the table decides. -/
def EncodeEnds (P : Platform) (W : WireFormatLite) (L : LuaState) (schema : Schema M) (msgD : M)
    (tab : L.Value) : Prop :=
  ∃ depth, ∀ fuel, depth ≤ fuel → rawByteSize P W L schema fuel msgD tab ≠ .error .outOfFuel ∧
    ∀ stream, rawEncode P W L schema fuel msgD stream tab ≠ .error .outOfFuel

theorem encodeEnds_iff_halts {msgD : M} {tab : L.Value} :
    EncodeEnds P W L schema msgD tab ↔
      Halts (sizeSteps P L schema) (sizeCheck P W L) .outOfFuel (msgD, tab) := by
  constructor
  · rintro ⟨depth, h⟩
    exact ⟨depth, fun fuel hfuel hrun => (h fuel hfuel).1 (run_size_eq_error.mp hrun)⟩
  · rintro ⟨depth, h⟩
    have hsize : ∀ fuel, depth ≤ fuel →
        rawByteSize P W L schema fuel msgD tab ≠ .error .outOfFuel := by
      intro fuel hfuel hrun
      exact h fuel hfuel (run_size_eq_error.mpr hrun)
    exact ⟨depth, fun fuel hfuel => ⟨hsize fuel hfuel, fun stream hencode =>
      hsize fuel hfuel (rawByteSize_outOfFuel hencode)⟩⟩

/-- A chain of messages, in which the size pass comes from each to the next. -/
def Chained (P : Platform) (W : WireFormatLite) (L : LuaState) (schema : Schema M)
    (chain : ℕ → MessageNode M L) : Prop :=
  ∀ i, Leads (sizeSteps P L schema) (sizeCheck P W L) (chain i) (chain (i + 1))

/-- The passes end exactly if no chain of messages goes on forever. -/
theorem encodeEnds_iff {msgD : M} {tab : L.Value} :
    EncodeEnds P W L schema msgD tab ↔
      ∀ chain : ℕ → MessageNode M L, chain 0 = (msgD, tab) → ¬ Chained P W L schema chain := by
  have hacc : Halts (sizeSteps P L schema) (sizeCheck P W L) .outOfFuel (msgD, tab) ↔
      Acc (fun b a => Leads (sizeSteps P L schema) (sizeCheck P W L) a b) (msgD, tab) := by
    apply halts_iff_acc
    · intro a h
      cases (messageSteps_eq_error.mp h).1
    · intro part h
      cases sizeCheck_error h
    · intro a steps hsteps h
      rcases fail_isLuaError hsteps h with ⟨e, he⟩
      cases he
  rw [encodeEnds_iff_halts, hacc, acc_iff_isEmpty_descending_chain]
  constructor
  · rintro ⟨h⟩ chain hzero hchain
    exact h ⟨chain, hzero, hchain⟩
  · intro h
    exact ⟨fun chain => h chain.1 chain.2.1 chain.2.2⟩

/-- A chain whose `next` is itself: every call calls itself once more. -/
theorem not_encodeEnds_ring :
    ¬ EncodeEnds (.plain .x64) .reference Chain.ring Chain.schema () () := by
  have hstuck : ∀ fuel, rawByteSize (.plain .x64) .reference Chain.ring Chain.schema fuel () () =
      .error .outOfFuel := by
    intro fuel
    induction fuel with
    | zero => rfl
    | succ fuel ih =>
        have hstep : rawByteSize (.plain .x64) .reference Chain.ring Chain.schema (fuel + 1) () () =
            (rawByteSize (.plain .x64) .reference Chain.ring Chain.schema fuel () () >>= fun n =>
              pure (int32 (int32 (0 + tagSize .reference 1) + n))) >>= pure := rfl
        rw [hstep, ih]
        rfl
  rintro ⟨depth, h⟩
  exact (h depth le_rfl).1 (hstuck depth)

/-! ## Running `lua_next` -/

/-- `Encode` runs `lua_next` on tables only. Where a list is expected and something else is
met, it raises an error. -/
structure NextOnTables (P : Platform) (W : WireFormatLite) (L : LuaState) (schema : Schema M)
    (findMessage : Bytes → Option M) (name tab : L.Value) : Prop where
  tables : ∀ heap fuel,
    encode P W L schema findMessage heap fuel name tab ≠ .error .nextOnNonTable
  lists : ∀ s msgD a field, Stack.checklstring P (L.view name) = .ok s →
    findMessage (cstr s) = some msgD →
    Reaches (sizeSteps P L schema) (sizeCheck P W L) (msgD, tab) a →
    Meets (sizeSteps P L schema) (sizeCheck P W L) a
      (.fail (.luaError (.error "repeated '%s' require table" field))) →
    ∃ depth, ∀ heap fuel, depth ≤ fuel → encode P W L schema findMessage heap fuel name tab =
      .error (.luaError (.error "repeated '%s' require table" field))

/-- A fault of the size pass is one of `Encode`. -/
theorem encode_of_rawByteSize {findMessage : Bytes → Option M} {name tab : L.Value} {s : Bytes}
    {msgD : M} (hname : Stack.checklstring P (L.view name) = .ok s)
    (hfind : findMessage (cstr s) = some msgD) {fuel : ℕ} {f : Fault}
    (h : rawByteSize P W L schema fuel msgD tab = .error f) (heap : ℕ → UInt8) :
    encode P W L schema findMessage heap fuel name tab = .error f := by
  simp only [encode, hname, Fallible.ok_bind, hfind, h]
  rfl

/-- `Encode` fails with the fault of a message that the size pass comes to. -/
theorem encode_of_failsAt {findMessage : Bytes → Option M} {name tab : L.Value} {s : Bytes}
    {msgD : M} (hname : Stack.checklstring P (L.view name) = .ok s)
    (hfind : findMessage (cstr s) = some msgD) {a : MessageNode M L} {f : Fault}
    (hreach : Reaches (sizeSteps P L schema) (sizeCheck P W L) (msgD, tab) a)
    (hfails : FailsAt (sizeSteps P L schema) (sizeCheck P W L) a f) :
    ∃ depth, ∀ heap fuel, depth ≤ fuel →
      encode P W L schema findMessage heap fuel name tab = .error f := by
  rcases hreach.run hfails with ⟨depth, h⟩
  refine ⟨depth, fun heap fuel hfuel => ?_⟩
  exact encode_of_rawByteSize hname hfind (run_size_eq_error.mp (h fuel hfuel)) heap

/-- What fails with `lua_next` on something else is the message itself. -/
theorem FailsAt.not_table {fmt : String} {check : Part M L → Except Fault PUnit}
    (hcheck : ∀ part f, check part = .error f → ValueFault f) {a : MessageNode M L}
    (h : FailsAt (messageSteps P L schema fmt) check a .nextOnNonTable) :
    (L.view a.2).isTable = false := by
  cases h with
  | expand hexpand => exact (messageSteps_eq_error.mp hexpand).2
  | fail hmeets =>
      rcases hmeets with ⟨hsteps, -⟩
      rcases fail_isLuaError hsteps (List.mem_append_right _ List.mem_cons_self) with ⟨e, he⟩
      cases he
  | leaf _ h => cases hcheck _ _ h

theorem isTable_of_passes {a : MessageNode M L}
    (h : Passes (sizeSteps P L schema) (sizeCheck P W L) a) : (L.view a.2).isTable = true := by
  rcases passes_iff.mp h with ⟨steps, hsteps, -⟩
  by_contra htable
  have herror : sizeSteps P L schema a = .error .nextOnNonTable :=
    messageSteps_eq_error.mpr ⟨rfl, by simpa using htable⟩
  cases hsteps.symm.trans herror

theorem buffer_error {heap : ℕ → UInt8} {size : BitVec 32} {written : Bytes} {f : Fault}
    (h : buffer heap size written = .error f) : f = .overrun := by
  rw [buffer] at h
  split at h <;> cases h
  rfl

/-- The places at which `Encode` can fail. -/
theorem encode_eq_error {findMessage : Bytes → Option M} {heap : ℕ → UInt8} {fuel : ℕ}
    {name tab : L.Value} {f : Fault}
    (h : encode P W L schema findMessage heap fuel name tab = .error f) :
    Stack.checklstring P (L.view name) = .error f ∨
      ∃ s msgD, Stack.checklstring P (L.view name) = .ok s ∧ findMessage (cstr s) = some msgD ∧
        (rawByteSize P W L schema fuel msgD tab = .error f ∨
          ∃ n, rawByteSize P W L schema fuel msgD tab = .ok n ∧
            (rawEncode P W L schema fuel msgD [] tab = .error f ∨ f = .overrun)) := by
  rw [encode] at h
  rcases Fallible.bind_eq_error.mp h with hname | ⟨s, hname, h⟩
  · exact .inl hname
  cases hfind : findMessage (cstr s) with
  | none => rw [hfind] at h; cases h
  | some msgD =>
      simp only [hfind] at h
      refine .inr ⟨s, msgD, hname, hfind, ?_⟩
      rcases Fallible.bind_eq_error.mp h with hsize | ⟨n, hsize, h⟩
      · exact .inl hsize
      refine .inr ⟨n, hsize, ?_⟩
      rcases Fallible.bind_eq_error.mp h with hwrite | ⟨written, -, h⟩
      · exact .inl hwrite
      rcases Fallible.bind_eq_error.mp h with hbuffer | ⟨result, -, h⟩
      · exact .inr (buffer_error hbuffer)
      · cases h

/-- `Encode` runs `lua_next` on tables only, exactly if every message that the size pass
comes to is a table. -/
theorem nextOnTables_iff {findMessage : Bytes → Option M} {name tab : L.Value} :
    NextOnTables P W L schema findMessage name tab ↔
      ∀ s msgD a, Stack.checklstring P (L.view name) = .ok s → findMessage (cstr s) = some msgD →
        Reaches (sizeSteps P L schema) (sizeCheck P W L) (msgD, tab) a →
        (L.view a.2).isTable = true := by
  constructor
  · intro h s msgD a hname hfind hreach
    by_contra htable
    have hfails : FailsAt (sizeSteps P L schema) (sizeCheck P W L) a .nextOnNonTable :=
      .expand (messageSteps_eq_error.mpr ⟨rfl, by simpa using htable⟩)
    rcases encode_of_failsAt hname hfind hreach hfails with ⟨depth, hencode⟩
    exact h.tables (fun _ => 0) depth (hencode _ depth le_rfl)
  · intro h
    refine ⟨?_, ?_⟩
    · intro heap fuel hencode
      rcases encode_eq_error hencode with hname | ⟨s, msgD, hname, hfind, hpasses⟩
      · rcases checklstring_error hname with ⟨e, he⟩
        cases he
      rcases hpasses with hsize | ⟨n, hsize, hwrite | hoverrun⟩
      · rcases (rawByteSize_eq_error_iff (by simp)).mp ⟨fuel, hsize⟩ with ⟨a, hreach, hfails⟩
        have htable := h s msgD a hname hfind hreach
        rw [FailsAt.not_table (fun _ _ => sizeCheck_error) hfails] at htable
        cases htable
      · -- the write pass comes only to messages that the size pass went through
        rcases failsAt_of_rawEncode hsize (by simp) hwrite with ⟨a, -, hfails, hpasses⟩
        have htable := isTable_of_passes hpasses
        rw [FailsAt.not_table (fun _ _ => writeCheck_error) hfails] at htable
        cases htable
      · cases hoverrun
    · intro s msgD a field hname hfind hreach hmeets
      exact encode_of_failsAt hname hfind hreach (.fail hmeets)

/-- An argument that is no table, and an element of a list of messages that is none. -/
theorem not_nextOnTables_boolean :
    encode (.plain .x64) .reference LuaTree.state AddressBook.schema AddressBook.findMessage
        (fun _ => 0) 3 (.string (AddressBook.fullName .addressBook))
        (.table [(.string [112, 101, 114, 115, 111, 110], .table [(.integer 1, .boolean true)])]) =
      .error .nextOnNonTable ∧
    ¬ NextOnTables (.plain .x64) .reference LuaTree.state AddressBook.schema
      AddressBook.findMessage (.string (AddressBook.fullName .person)) (.boolean true) := by
  refine ⟨by decide +kernel, ?_⟩
  intro h
  exact h.tables (fun _ => 0) 1 (by decide +kernel)

/-! ## Errors of the write pass -/

/-- Every `float` that the write pass comes to is a number, or a string that reads as one. -/
def FloatsConvert (P : Platform) (W : WireFormatLite) (L : LuaState) (schema : Schema M) (msgD : M)
    (tab : L.Value) : Prop :=
  ∀ a fd value, Reaches (encodeSteps P L schema) (writeCheck P W L) (msgD, tab) a →
    Meets (encodeSteps P L schema) (writeCheck P W L) a (.leaf (fd, value)) →
    fd.type = .float → (Stack.tonumber P (L.view value)).isSome

/-- Once the size pass went through, the write pass raises no error exactly if every float
it comes to converts. -/
theorem rawEncode_unraised_iff {fuel : ℕ} {msgD : M} {tab : L.Value} {n : ℤ}
    (h : rawByteSize P W L schema fuel msgD tab = .ok n) :
    (∀ stream e, rawEncode P W L schema fuel msgD stream tab ≠ .error (.luaError e)) ↔
      FloatsConvert P W L schema msgD tab := by
  constructor
  · intro hunraised a fd value hreach hmeets htype
    by_contra hnone
    rw [Option.not_isSome_iff_eq_none] at hnone
    -- the write pass fails there, and its fuel suffices to get there
    have hcheck : writeCheck P W L (fd, value) = .error (.luaError (.typerror "number")) := by
      simp only [writeCheck, writeValue, htype, Stack.getFloat, hnone]
      rfl
    rcases hreach.run (.leaf hmeets hcheck) with ⟨depth, hrun⟩
    apply hunraised [] (.typerror "number")
    have hne : run (encodeSteps P L schema) (writeCheck P W L) .outOfFuel fuel (msgD, tab) ≠
        .error .outOfFuel := by
      rw [← rawEncode_outcome h []]
      intro hstuck
      cases h.symm.trans (rawByteSize_outOfFuel (Fallible.outcome_eq_error.mp hstuck))
    rw [← Fallible.outcome_eq_error, rawEncode_outcome h, ← run_mono (le_max_left fuel depth) hne]
    exact hrun _ (le_max_right fuel depth)
  · intro hfloats stream e hwrite
    rcases failsAt_of_rawEncode h (by simp) hwrite with ⟨a, hreach, hfails, hpass⟩
    cases hfails with
    | expand hexpand => cases (messageSteps_eq_error.mp hexpand).1
    | fail hmeets => cases passes_of_meets hpass hmeets
    | @leaf part hmeets hcheck =>
        cases passes_of_meets hpass hmeets with
        | leaf hsize =>
            rcases Fallible.outcome_eq_ok.mp hsize with ⟨size, hsize⟩
            have hscalar : part.1.type.messageType? = none := by
              rcases hmeets with ⟨hsteps, -⟩
              exact (leaf_messageType hsteps (List.mem_append_right _ List.mem_cons_self)).2
            rcases (writeValue_raises_iff hscalar hsize).mp
              ⟨e, Fallible.outcome_eq_error.mp hcheck⟩ with ⟨htype, hnone⟩
            have hsome := hfloats a part.1 part.2 hreach hmeets htype
            rw [hnone] at hsome
            cases hsome

/-- `{level = 1}` -/
theorem rawEncode_unraised_gauge : FloatsConvert (.plain .x64) .reference LuaTree.state
    Gauge.schema () (Gauge.reading (.number (.ofInt binary64 1))) := by
  have hwrites : ∀ stream, ∃ out, rawEncode (.plain .x64) .reference LuaTree.state Gauge.schema 1
      () stream (Gauge.reading (.number (.ofInt binary64 1))) = .ok out := fun _ => ⟨_, rfl⟩
  have hsize : rawByteSize (.plain .x64) .reference LuaTree.state Gauge.schema 1 ()
      (Gauge.reading (.number (.ofInt binary64 1))) = .ok 5 := by decide +kernel
  refine (rawEncode_unraised_iff hsize).mp ?_
  intro stream e herror
  rcases hwrites stream with ⟨out, hout⟩
  cases hout.symm.trans herror

/-- `{level = true}`: the size pass returns 5, and the write pass raises an error. -/
theorem rawEncode_raises_gauge :
    rawByteSize (.plain .x64) .reference LuaTree.state Gauge.schema 1 ()
        (Gauge.reading (.boolean true)) = .ok 5 ∧
      ¬ ∀ stream e, rawEncode (.plain .x64) .reference LuaTree.state Gauge.schema 1 () stream
        (Gauge.reading (.boolean true)) ≠ .error (.luaError e) := by
  refine ⟨by decide +kernel, fun h => ?_⟩
  exact h [] (.typerror "number") (by decide +kernel)

end Luapb
