import Luapb.Library.Traversal
import Luapb.Verification.Encoder.Parts

/-! # The course of the two passes

Both passes go through a table in the same order and differ in what they do with a
scalar. Each is a traversal, whose nodes are tables with the message type they are taken
for, so where a pass fails, and whether it ends, can be said of the table alone. -/

namespace Luapb

open PBStream Traversal

/-- A message in the course of a pass: its type and the value that stands for it. -/
abbrev MessageNode (M : Type) (L : LuaState) := M × L.Value

/-- A field and one value for it. -/
abbrev Part (M : Type) (L : LuaState) := FieldDescriptor M × L.Value

abbrev PassStep (M : Type) (L : LuaState) := Step (MessageNode M L) (Part M L) Fault

section

variable {M : Type} (P : Platform) (W : WireFormatLite) (L : LuaState) (schema : Schema M)

/-- A value is a message to go through or a scalar. -/
def valueStep (fd : FieldDescriptor M) (value : L.Value) : PassStep M L :=
  match fd.type.messageType? with
  | some messageType => .node (messageType, value)
  | none => .leaf (fd, value)

/-- What the loop does with an entry; `fmt` is the text of the pass for a list that is
not a table. -/
def entrySteps (fmt : String) (msgD : M) (entry : LuaKey × L.Value) : List (PassStep M L) :=
  match keyName P entry.1 with
  | .error e => [.fail e]
  | .ok name =>
      match (schema msgD).findFieldByName name with
      | none => []
      | some fd =>
          if fd.isRepeated then
            match requireTable fmt name (L.view entry.2) with
            | .error e => [.fail e]
            | .ok list => list.map fun e => valueStep L fd e.2
          else [valueStep L fd entry.2]

/-- What the loop does with a message. -/
def messageSteps (fmt : String) (a : MessageNode M L) : Except Fault (List (PassStep M L)) :=
  (L.view a.2).luaNext >>= fun entries => .ok (entries.flatMap (entrySteps P L schema fmt a.1))

/-- The steps of `RawByteSize` in a message. -/
def sizeSteps : MessageNode M L → Except Fault (List (PassStep M L)) :=
  messageSteps P L schema "repeated '%s' require table"

/-- The steps of `RawEncode` in a message. -/
def encodeSteps : MessageNode M L → Except Fault (List (PassStep M L)) :=
  messageSteps P L schema "repeated value '%s' require table"

/-- Whether `FieldSize` returns. The narrowing has no part in it. -/
def sizeCheck (part : Part M L) : Except Fault PUnit :=
  Fallible.outcome (fieldSize P W part.1 (L.view part.2))

/-- Whether `WriteValue` returns. -/
def writeCheck (part : Part M L) : Except Fault PUnit :=
  Fallible.outcome (writeValue P W part.1 (L.view part.2))

end

variable {M : Type} {P : Platform} {W : WireFormatLite} {L : LuaState} {schema : Schema M}

/-! ## The size pass -/

theorem outcome_fieldSizeBy (cast : ℤ → ℤ) (part : Part M L) :
    Fallible.outcome (fieldSizeBy P W cast part.1 (L.view part.2)) = sizeCheck P W L part := by
  rw [sizeCheck, fieldSize]
  cases htype : part.1.type <;> simp only [fieldSizeBy, htype]
  case string =>
    apply Fallible.outcome_bind_congr
    intro c
    apply Fallible.outcome_bind_congr
    intro s
    rw [Fallible.outcome_pure, Fallible.outcome_pure]
  case message =>
    apply Fallible.outcome_bind_congr
    intro n
    rw [Fallible.outcome_pure, Fallible.outcome_pure]

theorem runSteps_valueStep (check : Part M L → Except Fault PUnit)
    (visit : MessageNode M L → Except Fault PUnit) (fd : FieldDescriptor M) (value : L.Value) :
    runSteps check visit [valueStep L fd value] =
      match fd.type.messageType? with
      | some messageType => visit (messageType, value)
      | none => check (fd, value) := by
  cases htype : fd.type.messageType? with
  | some messageType =>
      simp only [runSteps, valueStep, htype, runStep]
      cases visit (messageType, value) <;> rfl
  | none =>
      simp only [runSteps, valueStep, htype, runStep]
      cases check (fd, value) <;> rfl

/-- A pass whose body for a value is the step for it takes the steps of an entry. -/
theorem entryPass_outcome {β : Type} {check : Part M L → Except Fault PUnit}
    {visit : MessageNode M L → Except Fault PUnit} {each : β → Part M L → Except Fault β}
    (heach : ∀ b fd value, Fallible.outcome (each b (fd, value)) =
      runSteps check visit [valueStep L fd value])
    (fmt : String) (msgD : M) (b : β) (entry : LuaKey × L.Value) :
    Fallible.outcome (entryPass P L schema fmt each msgD b entry) =
      runSteps check visit (entrySteps P L schema fmt msgD entry) := by
  cases hkey : keyName P entry.1 with
  | error e =>
      simp only [entryPass, entrySteps, hkey]
      rfl
  | ok name =>
      cases hfind : (schema msgD).findFieldByName name with
      | none =>
          simp only [entryPass, entrySteps, hkey, Fallible.ok_bind, hfind]
          rfl
      | some fd =>
          simp only [entryPass, entrySteps, hkey, Fallible.ok_bind, hfind]
          by_cases hmany : fd.isRepeated = true
          · rw [if_pos hmany, if_pos hmany]
            cases requireTable fmt name (L.view entry.2) with
            | error e => rfl
            | ok list =>
                rw [Fallible.ok_bind]
                simp only [List.map_eq_flatMap]
                exact outcome_foldlM (fun b e => heach b fd e.2) list b
          · rw [if_neg hmany, if_neg hmany]
            exact heach b fd entry.2

theorem partSize_outcome (cast : ℤ → ℤ) (nested : M → L.Value → Except Fault ℤ) (size : ℤ)
    (fd : FieldDescriptor M) (value : L.Value) :
    Fallible.outcome (partSize P W L cast nested size (fd, value)) =
      runSteps (sizeCheck P W L) (fun a => Fallible.outcome (nested a.1 a.2))
        [valueStep L fd value] := by
  rw [runSteps_valueStep, partSize]
  cases fd.type.messageType? with
  | some messageType =>
      simp only
      cases nested messageType value <;> rfl
  | none =>
      simp only
      rw [← outcome_fieldSizeBy cast (fd, value)]
      cases fieldSizeBy P W cast fd (L.view value) <;> rfl

/-- The size pass is a traversal, whatever the sums are narrowed to. -/
theorem rawByteSizeBy_outcome (cast : ℤ → ℤ) (fuel : ℕ) (msgD : M) (tab : L.Value) :
    Fallible.outcome (rawByteSizeBy P W L schema cast fuel msgD tab) =
      run (sizeSteps P L schema) (sizeCheck P W L) .outOfFuel fuel (msgD, tab) := by
  induction fuel generalizing msgD tab with
  | zero => rfl
  | succ fuel ih =>
      have hvisit : (fun a : MessageNode M L =>
          Fallible.outcome (rawByteSizeBy P W L schema cast fuel a.1 a.2)) =
            run (sizeSteps P L schema) (sizeCheck P W L) .outOfFuel fuel := by
        funext a
        exact ih a.1 a.2
      rw [run, ← hvisit, sizeSteps, messageSteps, rawByteSizeBy_succ, Fallible.outcome_bind]
      cases (L.view tab).luaNext with
      | error e => rfl
      | ok entries =>
          exact outcome_foldlM (entryPass_outcome (partSize_outcome cast _) _ msgD) entries 0

/-- Whether the size of a table is computed does not depend on the narrowing. -/
theorem rawByteSizeBy_outcome_eq (cast cast' : ℤ → ℤ) (fuel : ℕ) (msgD : M) (tab : L.Value) :
    Fallible.outcome (rawByteSizeBy P W L schema cast fuel msgD tab) =
      Fallible.outcome (rawByteSizeBy P W L schema cast' fuel msgD tab) := by
  rw [rawByteSizeBy_outcome, rawByteSizeBy_outcome]

/-! ## The write pass -/

variable (P W L schema) in
/-- What the write pass does with a message: it computes its size and then writes it. -/
def encodeVisit (fuel : ℕ) (a : MessageNode M L) : Except Fault PUnit :=
  Fallible.outcome (rawByteSize P W L schema fuel a.1 a.2) >>= fun _ =>
    Fallible.outcome (rawEncode P W L schema fuel a.1 [] a.2)

theorem partEncode_outcome {fuel : ℕ}
    (hstream : ∀ msgD stream tab, Fallible.outcome (rawEncode P W L schema fuel msgD stream tab) =
      Fallible.outcome (rawEncode P W L schema fuel msgD [] tab))
    (stream : Bytes) (fd : FieldDescriptor M) (value : L.Value) :
    Fallible.outcome (partEncode P W L (rawByteSize P W L schema fuel) (rawEncode P W L schema fuel)
        stream (fd, value)) =
      runSteps (writeCheck P W L) (encodeVisit P W L schema fuel) [valueStep L fd value] := by
  rw [runSteps_valueStep, partEncode]
  cases fd.type.messageType? with
  | some messageType =>
      simp only
      rw [encodeVisit, Fallible.outcome_bind]
      cases rawByteSize P W L schema fuel messageType value with
      | error e => rfl
      | ok size => exact hstream _ _ _
  | none =>
      simp only [writeCheck]
      cases writeValue P W fd (L.view value) <;> rfl

theorem rawEncode_outcome_stream (fuel : ℕ) (msgD : M) (stream : Bytes) (tab : L.Value) :
    Fallible.outcome (rawEncode P W L schema fuel msgD stream tab) =
      Fallible.outcome (rawEncode P W L schema fuel msgD [] tab) := by
  induction fuel generalizing msgD stream tab with
  | zero => rfl
  | succ fuel ih =>
      rw [rawEncode_succ, rawEncode_succ, Fallible.outcome_bind, Fallible.outcome_bind]
      congr 1
      funext entries
      rw [outcome_foldlM (entryPass_outcome (partEncode_outcome ih) _ msgD),
        outcome_foldlM (entryPass_outcome (partEncode_outcome ih) _ msgD)]

theorem rawEncode_outcome_succ (fuel : ℕ) (msgD : M) (stream : Bytes) (tab : L.Value) :
    Fallible.outcome (rawEncode P W L schema (fuel + 1) msgD stream tab) =
      encodeSteps P L schema (msgD, tab) >>=
        runSteps (writeCheck P W L) (encodeVisit P W L schema fuel) := by
  rw [rawEncode_succ, encodeSteps, messageSteps, Fallible.outcome_bind]
  cases (L.view tab).luaNext with
  | error e => rfl
  | ok entries =>
      exact outcome_foldlM
        (entryPass_outcome (partEncode_outcome (rawEncode_outcome_stream fuel)) _ msgD) entries
        stream

/-! ## The same steps in both passes -/

/-- Steps that differ in the text of a failure at most. -/
inductive SameStep : PassStep M L → PassStep M L → Prop
  | fail (e e') : SameStep (.fail e) (.fail e')
  | leaf (part) : SameStep (.leaf part) (.leaf part)
  | node (a) : SameStep (.node a) (.node a)

theorem SameStep.refl (step : PassStep M L) : SameStep step step := by
  cases step with
  | fail e => exact .fail e e
  | leaf part => exact .leaf part
  | node a => exact .node a

theorem entrySteps_same (fmt fmt' : String) (msgD : M) (entry : LuaKey × L.Value) :
    List.Forall₂ SameStep (entrySteps P L schema fmt msgD entry)
      (entrySteps P L schema fmt' msgD entry) := by
  have hrefl : ∀ steps : List (PassStep M L), List.Forall₂ SameStep steps steps :=
    fun steps => List.forall₂_same.mpr fun step _ => .refl step
  cases hkey : keyName P entry.1 with
  | error e =>
      simp only [entrySteps, hkey]
      exact hrefl _
  | ok name =>
      cases hfind : (schema msgD).findFieldByName name with
      | none =>
          simp only [entrySteps, hkey, hfind]
          exact hrefl _
      | some fd =>
          simp only [entrySteps, hkey, hfind]
          by_cases hmany : fd.isRepeated = true
          · rw [if_pos hmany, if_pos hmany]
            cases hview : L.view entry.2 with
            | table list => exact hrefl _
            | _ =>
                refine List.Forall₂.cons ?_ .nil
                exact .fail _ _
          · rw [if_neg hmany, if_neg hmany]
            exact hrefl _

theorem encodeSteps_same {a : MessageNode M L} {steps : List (PassStep M L)}
    (h : encodeSteps P L schema a = .ok steps) :
    ∃ steps', sizeSteps P L schema a = .ok steps' ∧ List.Forall₂ SameStep steps steps' := by
  rw [encodeSteps, messageSteps, Fallible.bind_eq_ok] at h
  rcases h with ⟨entries, hentries, hsteps⟩
  cases hsteps
  refine ⟨_, Fallible.bind_eq_ok.mpr ⟨entries, hentries, rfl⟩, ?_⟩
  apply List.rel_flatMap (R := Eq) (List.forall₂_same.mpr fun entry _ => rfl)
  rintro entry _ rfl
  exact entrySteps_same _ _ a.1 entry

/-- A step that is no failure is one for a declared field. -/
theorem mem_entrySteps {fmt : String} {msgD : M} {entry : LuaKey × L.Value} {step : PassStep M L}
    (h : step ∈ entrySteps P L schema fmt msgD entry) :
    (∃ e, step = .fail (.luaError e)) ∨
      ∃ fd ∈ (schema msgD).field, ∃ value, step = valueStep L fd value := by
  cases hkey : keyName P entry.1 with
  | error e =>
      simp only [entrySteps, hkey, List.mem_singleton] at h
      cases hk : entry.1 <;> rw [hk] at hkey <;> cases hkey
      exact .inl ⟨_, h⟩
  | ok name =>
      cases hfind : (schema msgD).findFieldByName name with
      | none =>
          simp only [entrySteps, hkey, hfind] at h
          cases h
      | some fd =>
          have hmem : fd ∈ (schema msgD).field := Descriptor.mem_of_findFieldByName hfind
          simp only [entrySteps, hkey, hfind] at h
          by_cases hmany : fd.isRepeated = true
          · rw [if_pos hmany] at h
            cases hview : L.view entry.2 with
            | table list =>
                rw [hview] at h
                rcases List.mem_map.mp h with ⟨e, -, rfl⟩
                exact .inr ⟨fd, hmem, e.2, rfl⟩
            | _ =>
                rw [hview] at h
                exact .inl ⟨_, List.mem_singleton.mp h⟩
          · rw [if_neg hmany] at h
            exact .inr ⟨fd, hmem, entry.2, List.mem_singleton.mp h⟩

theorem mem_messageSteps {fmt : String} {a : MessageNode M L} {steps : List (PassStep M L)}
    (h : messageSteps P L schema fmt a = .ok steps) {step : PassStep M L} (hmem : step ∈ steps) :
    (∃ e, step = .fail (.luaError e)) ∨
      ∃ fd ∈ (schema a.1).field, ∃ value, step = valueStep L fd value := by
  rw [messageSteps, Fallible.bind_eq_ok] at h
  rcases h with ⟨entries, -, hsteps⟩
  cases hsteps
  rcases List.mem_flatMap.mp hmem with ⟨entry, -, hmem⟩
  exact mem_entrySteps hmem

/-- A scalar that is met belongs to a declared field that is no message. -/
theorem leaf_messageType {fmt : String} {a : MessageNode M L} {steps : List (PassStep M L)}
    (h : messageSteps P L schema fmt a = .ok steps) {part : Part M L} (hmem : .leaf part ∈ steps) :
    part.1 ∈ (schema a.1).field ∧ part.1.type.messageType? = none := by
  rcases mem_messageSteps h hmem with ⟨e, he⟩ | ⟨fd, hfd, value, hvalue⟩
  · cases he
  · cases htype : fd.type.messageType? with
    | none =>
        simp only [valueStep, htype, Step.leaf.injEq] at hvalue
        rw [hvalue]
        exact ⟨hfd, htype⟩
    | some messageType =>
        simp only [valueStep, htype] at hvalue
        cases hvalue

theorem fail_isLuaError {fmt : String} {a : MessageNode M L} {steps : List (PassStep M L)}
    (h : messageSteps P L schema fmt a = .ok steps) {f : Fault} (hmem : .fail f ∈ steps) :
    ∃ e, f = .luaError e := by
  rcases mem_messageSteps h hmem with ⟨e, he⟩ | ⟨fd, -, value, hvalue⟩
  · cases he
    exact ⟨e, rfl⟩
  · cases htype : fd.type.messageType? <;> simp only [valueStep, htype] at hvalue <;> cases hvalue

/-- Where the size pass goes through a table, the write pass is a traversal too. -/
theorem rawEncode_outcome {fuel : ℕ} {msgD : M} {tab : L.Value} {n : ℤ}
    (h : rawByteSize P W L schema fuel msgD tab = .ok n) (stream : Bytes) :
    Fallible.outcome (rawEncode P W L schema fuel msgD stream tab) =
      run (encodeSteps P L schema) (writeCheck P W L) .outOfFuel fuel (msgD, tab) := by
  induction fuel generalizing msgD tab n stream with
  | zero => cases h
  | succ fuel ih =>
      rw [rawEncode_outcome_succ, run]
      cases hsteps : encodeSteps P L schema (msgD, tab) with
      | error e => rfl
      | ok steps =>
          rcases encodeSteps_same hsteps with ⟨steps', hsteps', hsame⟩
          have hsize : Fallible.outcome (rawByteSize P W L schema (fuel + 1) msgD tab) = .ok ⟨⟩ :=
            Fallible.outcome_eq_ok.mpr ⟨n, h⟩
          rw [rawByteSize, rawByteSizeBy_outcome, run, hsteps', Fallible.ok_bind,
            runSteps_eq_ok] at hsize
          rw [Fallible.ok_bind, Fallible.ok_bind]
          apply runSteps_congr
          intro a ha
          rcases Fallible.exists_of_mem_right hsame.flip ha with ⟨step, hstep, hsame⟩
          cases hsame
          have hnested : Fallible.outcome (rawByteSize P W L schema fuel a.1 a.2) = .ok ⟨⟩ :=
            (rawByteSizeBy_outcome int32 fuel a.1 a.2).trans (hsize _ hstep)
          rcases Fallible.outcome_eq_ok.mp hnested with ⟨size, hsize⟩
          rw [encodeVisit, hnested, Fallible.ok_bind]
          exact ih hsize []

end Luapb
