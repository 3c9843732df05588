import Mathlib.Data.List.Nodup
import NgxFormal.Http.SsiRead

/-! What the parser keeps in memory, against the abstract reader. -/

namespace NgxFormal.Http.Ssi

open Core.Hash (ngxHashKey ngxHash)

/-- Only the allocation `a` changes, and the pool grows. -/
structure Frame (a : Nat) (store after : Store) : Prop where
  grows : store.next ≤ after.next
  sizes : ∀ b, b < store.next → after.size b = store.size b
  bytes : ∀ b, b ≠ a → after.mem b = store.mem b

/-- `s` is allocated and holds `text`. -/
structure Kept (store : Store) (s : Str) (text : List UInt8) : Prop where
  bytes : store.bytes s = text
  old : s.data < store.next

section Stores

variable {store after later : Store} {a i : Nat} {ch : UInt8} {s : Str} {text : List UInt8}

theorem Frame.trans (first : Frame a store after) (second : Frame a after later) : Frame a store later where
  grows := first.grows.trans second.grows
  sizes := fun b old => (second.sizes b (lt_of_lt_of_le old first.grows)).trans (first.sizes b old)
  bytes := fun b other => (second.bytes b other).trans (first.bytes b other)

theorem Kept.length (kept : Kept store s text) : s.len = text.length := by
  have length := congrArg List.length kept.bytes
  rwa [Store.bytes, List.length_map, List.length_range] at length

theorem Kept.frame (kept : Kept store s text) (frame : Frame a store after) (other : s.data ≠ a) :
    Kept after s text := by
  refine ⟨?_, lt_of_lt_of_le kept.old frame.grows⟩
  rw [← kept.bytes, Store.bytes, Store.bytes, frame.bytes s.data other]

theorem Frame.pnalloc (a : Nat) (store : Store) (size : Nat) : Frame a store (store.pnalloc size).1 where
  grows := Nat.le_succ _
  sizes := fun _ old => if_neg (Nat.ne_of_lt old)
  bytes := fun _ _ => rfl

theorem pnalloc_size (store : Store) (size : Nat) : (store.pnalloc size).1.size store.next = size :=
  if_pos rfl

theorem Store.write_some (inside : i < store.size a) (ch : UInt8) :
    ∃ after, store.write a i ch = some after ∧ Frame a store after ∧ after.next = store.next ∧
      after.size = store.size ∧
      ∀ text, store.bytes ⟨i, a⟩ = text → after.bytes ⟨i + 1, a⟩ = text ++ [ch] := by
  refine ⟨_, if_pos inside, ⟨Nat.le_refl _, fun _ _ => rfl, ?_⟩, rfl, rfl, ?_⟩
  · intro b other
    funext j
    exact if_neg fun both => other both.1
  · rintro text rfl
    rw [Store.bytes, Store.bytes, List.range_succ, List.map_append]
    congr 1
    · refine List.map_congr_left fun j member => if_neg ?_
      rintro ⟨_, rfl⟩
      exact absurd (List.mem_range.mp member) (lt_irrefl _)
    · simp

theorem Store.copy_some {dst src len : Nat} (inside : len ≤ store.size dst) (from_ : len ≤ store.size src) :
    ∃ after, store.copy dst src len = some after ∧ Frame dst store after ∧ after.next = store.next ∧
      after.bytes ⟨len, dst⟩ = store.bytes ⟨len, src⟩ := by
  refine ⟨_, if_pos ⟨inside, from_⟩, ⟨Nat.le_refl _, fun _ _ => rfl, ?_⟩, rfl, ?_⟩
  · intro b other
    funext j
    exact if_neg fun both => other both.1
  · refine List.map_congr_left fun j member => if_pos ⟨rfl, List.mem_range.mp member⟩

end Stores

/-- The part of a command in which the reader is. -/
inductive Part where
  | outside
  | between
  | inParam
  deriving DecidableEq, Repr

def SsiState.part : SsiState → Part
  | .command | .preparam | .commentEnd0 | .commentEnd1 => .between
  | .param | .preequal | .prevalue | .doubleQuotedValue | .quotedValue | .quotedSymbol | .postparam => .inParam
  | _ => .outside

def Param.places (param : Param) : List Nat := [param.key.data, param.value.data]

def Ctx.places (ctx : Ctx) : List Nat := ctx.command.data :: ctx.params.flatMap Param.places

def KeptParam (store : Store) (param : Param) (text : List UInt8 × List UInt8) : Prop :=
  Kept store param.key text.1 ∧ Kept store param.value text.2

/-- The command and its parameters are in memory, each in a place of its own. -/
structure Fields (ctx : Ctx) (reading : Reading) : Prop where
  command : Kept ctx.store ctx.command reading.command
  room : ctx.store.size ctx.command.data = ngxHttpSsiCommandLen
  key : ctx.key = ngxHashKey reading.command
  params : List.Forall₂ (KeptParam ctx.store) ctx.params reading.params
  apart : ctx.places.Nodup

/-- The newest parameter is still being read, in the shared buffer if there is one. -/
structure Unfinished (ctx : Ctx) (param : Param) : Prop where
  keyRoom : ctx.store.size param.key.data = ngxHttpSsiParamLen
  valueRoom : ctx.store.size param.value.data = ctx.valueLen
  shared : ∀ place, ctx.valueBuf = some place → place = param.value.data

def Parts (ctx : Ctx) (reading : Reading) : Prop :=
  match reading.state.part with
  | .outside => True
  | .between => Fields ctx reading ∧ ∀ place, ctx.valueBuf = some place → place ∉ ctx.places
  | .inParam => Fields ctx reading ∧ ∃ param others, ctx.params = param :: others ∧ Unfinished ctx param

/-- The context follows the reader. -/
structure Holds (ctx : Ctx) (reading : Reading) : Prop where
  state : ctx.state = reading.state
  savedState : ctx.savedState = reading.savedState
  quoted : reading.state = .quotedSymbol →
    reading.savedState = .doubleQuotedValue ∨ reading.savedState = .quotedValue
  valueBuf : ∀ place, ctx.valueBuf = some place →
    place < ctx.store.next ∧ ctx.store.size place = ctx.valueLen
  parts : Parts ctx reading

section Turns

variable {ctx : Ctx} {reading : Reading} {ch : UInt8} {store : Store}

theorem keptParams_frame {a : Nat} {after : Store} {params : List Param}
    {texts : List (List UInt8 × List UInt8)} (kept : List.Forall₂ (KeptParam store) params texts)
    (frame : Frame a store after) (other : a ∉ params.flatMap Param.places) :
    List.Forall₂ (KeptParam after) params texts := by
  induction kept with
  | nil => exact .nil
  | cons head tail ih =>
    rw [List.flatMap_cons, List.mem_append, not_or] at other
    refine .cons ⟨head.1.frame frame ?_, head.2.frame frame ?_⟩ (ih other.2)
    · rintro rfl
      exact other.1 (by simp [Param.places])
    · rintro rfl
      exact other.1 (by simp [Param.places])

theorem keptParams_old {params : List Param} {texts : List (List UInt8 × List UInt8)}
    (kept : List.Forall₂ (KeptParam store) params texts) :
    ∀ place ∈ params.flatMap Param.places, place < store.next := by
  induction kept with
  | nil => exact fun place member => absurd member List.not_mem_nil
  | cons head tail ih =>
    intro place member
    rw [List.flatMap_cons, List.mem_append] at member
    rcases member with here | later
    · simp only [Param.places, List.mem_cons, List.not_mem_nil, or_false] at here
      rcases here with rfl | rfl
      · exact head.1.old
      · exact head.2.old
    · exact ih place later

theorem Fields.old (fields : Fields ctx reading) : ∀ place ∈ ctx.places, place < ctx.store.next := by
  intro place member
  rcases List.mem_cons.mp member with rfl | later
  · exact fields.command.old
  · exact keptParams_old fields.params place later

theorem Holds.goTo (holds : Holds ctx reading) {state : SsiState}
    (same : state.part = reading.state.part ∨ state.part = .outside) (unquoted : state ≠ .quotedSymbol) :
    Holds { ctx with state := state } (reading.goTo state) where
  state := rfl
  savedState := holds.savedState
  quoted := fun quoted => absurd quoted unquoted
  valueBuf := holds.valueBuf
  parts := by
    have parts := holds.parts
    unfold Parts at parts ⊢
    rcases same with equal | outside
    · rw [show (reading.goTo state).state.part = reading.state.part from equal]
      cases part : reading.state.part with
      | outside => exact trivial
      | between =>
        rw [part] at parts
        exact ⟨⟨parts.1.command, parts.1.room, parts.1.key, parts.1.params, parts.1.apart⟩, parts.2⟩
      | inParam =>
        rw [part] at parts
        obtain ⟨fields, param, others, params, unfinished⟩ := parts
        exact ⟨⟨fields.command, fields.room, fields.key, fields.params, fields.apart⟩, param, others, params,
          ⟨unfinished.keyRoom, unfinished.valueRoom, unfinished.shared⟩⟩
    · rw [show (reading.goTo state).state.part = .outside from outside]
      exact trivial

theorem Holds.between (holds : Holds ctx reading) (part : reading.state.part = .between) :
    Fields ctx reading ∧ ∀ place, ctx.valueBuf = some place → place ∉ ctx.places := by
  have parts := holds.parts
  rwa [Parts, part] at parts

theorem Holds.inParam (holds : Holds ctx reading) (part : reading.state.part = .inParam) :
    Fields ctx reading ∧ ∃ param others, ctx.params = param :: others ∧ Unfinished ctx param := by
  have parts := holds.parts
  rwa [Parts, part] at parts

theorem Holds.newest (holds : Holds ctx reading) (part : reading.state.part = .inParam) :
    ∃ param others key value texts, ctx.params = param :: others ∧ reading.params = (key, value) :: texts ∧
      Unfinished ctx param ∧ KeptParam ctx.store param (key, value) ∧
      List.Forall₂ (KeptParam ctx.store) others texts := by
  obtain ⟨fields, param, others, params, unfinished⟩ := holds.inParam part
  have kept := fields.params
  rw [params] at kept
  obtain ⟨⟨key, value⟩, texts, head, tail, same⟩ := List.forall₂_cons_left_iff.mp kept
  exact ⟨param, others, key, value, texts, params, same, unfinished, head, tail⟩

/-- The reader and the context behind a byte. -/
def Follows (ctx after : Ctx) (reading : Reading) : Prop :=
  Holds after reading ∧ after.buf = ctx.buf ∧ after.valueLen = ctx.valueLen

theorem beginCommand_holds (holds : Holds ctx reading) :
    ∃ after, beginCommand ch ctx = some after ∧ Follows ctx after { reading with
      state := .command
      command := [ch]
      params := [] } := by
  have fresh := Frame.pnalloc ctx.store.next ctx.store ngxHttpSsiCommandLen
  have size := pnalloc_size ctx.store ngxHttpSsiCommandLen
  obtain ⟨store, written, frame, next, sizes, bytes⟩ :=
    @Store.write_some (ctx.store.pnalloc ngxHttpSsiCommandLen).1 ctx.store.next 0 (by rw [size]; decide) ch
  have whole := fresh.trans frame
  refine ⟨_, congrArg (Option.map _) written, ?_⟩
  refine ⟨⟨rfl, holds.savedState, (fun quoted => by cases quoted), ?_, ?_⟩, rfl, rfl⟩
  · intro place here
    have old := holds.valueBuf place here
    exact ⟨lt_of_lt_of_le old.1 whole.grows, (whole.sizes place old.1).trans old.2⟩
  · refine ⟨⟨⟨bytes [] rfl, ?_⟩, ?_, rfl, .nil, List.nodup_singleton _⟩, ?_⟩
    · exact lt_of_lt_of_eq (Nat.lt_succ_self _) next.symm
    · exact (congrFun sizes _).trans size
    · intro place here member
      have old := (holds.valueBuf place here).1
      rw [List.mem_singleton.mp member] at old
      exact absurd old (lt_irrefl _)

theorem addCommand_holds (holds : Holds ctx reading) (part : reading.state.part = .between)
    (fits : reading.command.length + 1 ≤ ngxHttpSsiCommandLen) :
    ∃ after, addCommand ch ctx = some after ∧
      Follows ctx after { reading with command := reading.command ++ [ch] } := by
  obtain ⟨fields, apart⟩ := holds.between part
  have length := fields.command.length
  obtain ⟨store, written, frame, next, sizes, bytes⟩ :=
    @Store.write_some ctx.store ctx.command.data ctx.command.len (by rw [fields.room]; omega) ch
  have others := (List.nodup_cons.mp fields.apart).1
  have short : ctx.command.len ≠ ngxHttpSsiCommandLen := by omega
  refine ⟨_, (if_neg short).trans (congrArg (Option.map _) written), ?_⟩
  refine ⟨⟨holds.state, holds.savedState, holds.quoted, ?_, ?_⟩, rfl, rfl⟩
  · intro place here
    have old := holds.valueBuf place here
    exact ⟨lt_of_lt_of_eq old.1 next.symm, (congrFun sizes place).trans old.2⟩
  · unfold Parts
    dsimp only
    rw [part]
    refine ⟨⟨⟨bytes _ fields.command.bytes, ?_⟩, ?_, ?_, ?_, fields.apart⟩, apart⟩
    · exact lt_of_lt_of_eq fields.command.old next.symm
    · exact (congrFun sizes _).trans fields.room
    · dsimp only
      rw [fields.key, ngxHashKey, ngxHashKey, List.foldl_append]
      rfl
    · exact keptParams_frame fields.params frame others

theorem places_cons {param : Param} {others : List Param} (params : ctx.params = param :: others)
    (apart : ctx.places.Nodup) :
    ctx.command.data ≠ param.key.data ∧ ctx.command.data ≠ param.value.data ∧
      param.key.data ≠ param.value.data ∧ param.key.data ∉ others.flatMap Param.places ∧
      param.value.data ∉ others.flatMap Param.places := by
  rw [Ctx.places, params, List.flatMap_cons, Param.places, List.cons_append, List.cons_append, List.nil_append,
    List.nodup_cons, List.nodup_cons, List.nodup_cons] at apart
  simp only [List.mem_cons, not_or] at apart
  exact ⟨apart.1.1, apart.1.2.1, apart.2.1.1, apart.2.1.2, apart.2.2.1⟩

theorem addKey_cons {param : Param} {others : List Param} (params : ctx.params = param :: others) :
    addKey ch ctx = (ctx.store.write param.key.data param.key.len ch).map fun store =>
      { ctx with
        store := store
        params := { param with key := ⟨param.key.len + 1, param.key.data⟩ } :: others } := by
  rw [addKey, params]

theorem addValue_cons {param : Param} {others : List Param} (params : ctx.params = param :: others) :
    addValue ch ctx = (ctx.store.write param.value.data param.value.len ch).map fun store =>
      { ctx with
        store := store
        params := { param with value := ⟨param.value.len + 1, param.value.data⟩ } :: others } := by
  rw [addValue, params]

theorem addKey_room (holds : Holds ctx reading) (part : reading.state.part = .inParam)
    (within : reading.Within ctx.valueLen) :
    (reading.addKey ch).Within ctx.valueLen ∧ keyFull ctx = false ∧
        (∃ after, addKey ch ctx = some after ∧ Follows ctx after (reading.addKey ch)) ∨
      ¬(reading.addKey ch).Within ctx.valueLen ∧ keyFull ctx = true ∧ addKey ch ctx = none := by
  have fields := (holds.inParam part).1
  obtain ⟨param, others, key, value, texts, params, same, unfinished, head, tail⟩ := holds.newest part
  have length : param.key.len = key.length := head.1.length
  have inside := within.2
  rw [same, List.forall_mem_cons] at inside
  have room : key.length ≤ ngxHttpSsiParamLen := inside.1.1
  rw [Reading.addKey, same]
  by_cases full : key.length = ngxHttpSsiParamLen
  · refine Or.inr ⟨fun past => ?_, by simp [keyFull, params, length, full], ?_⟩
    · have longer : (key ++ [ch]).length ≤ ngxHttpSsiParamLen := (past.2 _ List.mem_cons_self).1
      rw [List.length_append, List.length_singleton] at longer
      omega
    · rw [addKey_cons params, Store.write, if_neg (by rw [unfinished.keyRoom]; omega)]
      rfl
  · refine Or.inl ⟨⟨within.1, List.forall_mem_cons.2 ⟨⟨?_, inside.1.2⟩, inside.2⟩⟩,
      by simp [keyFull, params, length, full], ?_⟩
    · rw [List.length_append, List.length_singleton]
      omega
    · obtain ⟨store, written, frame, next, sizes, bytes⟩ :=
        @Store.write_some ctx.store param.key.data param.key.len (by rw [unfinished.keyRoom]; omega) ch
      obtain ⟨commandKey, -, keyValue, others_free, -⟩ := places_cons params fields.apart
      refine ⟨_, (addKey_cons params).trans (congrArg (Option.map _) written), ?_⟩
      refine ⟨⟨holds.state, holds.savedState, holds.quoted, ?_, ?_⟩, rfl, rfl⟩
      · intro place here
        have old := holds.valueBuf place here
        exact ⟨lt_of_lt_of_eq old.1 next.symm, (congrFun sizes place).trans old.2⟩
      · unfold Parts
        dsimp only
        rw [part]
        refine ⟨⟨fields.command.frame frame commandKey, ?_, fields.key, ?_, ?_⟩, _, others, rfl, ?_⟩
        · exact (congrFun sizes _).trans fields.room
        · refine .cons ⟨⟨bytes _ head.1.bytes, lt_of_lt_of_eq head.1.old next.symm⟩, ?_⟩ ?_
          · exact head.2.frame frame keyValue.symm
          · exact keptParams_frame tail frame others_free
        · have apart := fields.apart
          rw [Ctx.places, params] at apart
          exact apart
        · exact ⟨(congrFun sizes _).trans unfinished.keyRoom, (congrFun sizes _).trans unfinished.valueRoom,
            unfinished.shared⟩

theorem addValue_room (holds : Holds ctx reading) (part : reading.state.part = .inParam)
    (within : reading.Within ctx.valueLen) :
    (reading.addValue ch).Within ctx.valueLen ∧ valueFull ctx = false ∧
        (∃ after, addValue ch ctx = some after ∧ Follows ctx after (reading.addValue ch)) ∨
      ¬(reading.addValue ch).Within ctx.valueLen ∧ valueFull ctx = true ∧ addValue ch ctx = none := by
  have fields := (holds.inParam part).1
  obtain ⟨param, others, key, value, texts, params, same, unfinished, head, tail⟩ := holds.newest part
  have length : param.value.len = value.length := head.2.length
  have inside := within.2
  rw [same, List.forall_mem_cons] at inside
  have room : value.length ≤ ctx.valueLen := inside.1.2
  rw [Reading.addValue, same]
  by_cases full : value.length = ctx.valueLen
  · refine Or.inr ⟨fun past => ?_, by simp [valueFull, params, length, full], ?_⟩
    · have longer : (value ++ [ch]).length ≤ ctx.valueLen := (past.2 _ List.mem_cons_self).2
      rw [List.length_append, List.length_singleton] at longer
      omega
    · rw [addValue_cons params, Store.write, if_neg (by rw [unfinished.valueRoom]; omega)]
      rfl
  · refine Or.inl ⟨⟨within.1, List.forall_mem_cons.2 ⟨⟨inside.1.1, ?_⟩, inside.2⟩⟩,
      by simp [valueFull, params, length, full], ?_⟩
    · rw [List.length_append, List.length_singleton]
      omega
    · obtain ⟨store, written, frame, next, sizes, bytes⟩ :=
        @Store.write_some ctx.store param.value.data param.value.len (by rw [unfinished.valueRoom]; omega) ch
      obtain ⟨-, commandValue, keyValue, -, others_free⟩ := places_cons params fields.apart
      refine ⟨_, (addValue_cons params).trans (congrArg (Option.map _) written), ?_⟩
      refine ⟨⟨holds.state, holds.savedState, holds.quoted, ?_, ?_⟩, rfl, rfl⟩
      · intro place here
        have old := holds.valueBuf place here
        exact ⟨lt_of_lt_of_eq old.1 next.symm, (congrFun sizes place).trans old.2⟩
      · unfold Parts
        dsimp only
        rw [part]
        refine ⟨⟨fields.command.frame frame commandValue, ?_, fields.key, ?_, ?_⟩, _, others, rfl, ?_⟩
        · exact (congrFun sizes _).trans fields.room
        · refine .cons ⟨head.1.frame frame keyValue, ⟨bytes _ head.2.bytes, ?_⟩⟩ ?_
          · exact lt_of_lt_of_eq head.2.old next.symm
          · exact keptParams_frame tail frame others_free
        · have apart := fields.apart
          rw [Ctx.places, params] at apart
          exact apart
        · exact ⟨(congrFun sizes _).trans unfinished.keyRoom, (congrFun sizes _).trans unfinished.valueRoom,
            unfinished.shared⟩

/-- A new parameter, with its name in a new place and its value in the place `value`. -/
theorem newParam_holds {value : Nat} (holds : Holds ctx reading) (part : reading.state.part = .between)
    (frame : Frame ctx.store.next ctx.store store) (step : ctx.store.next < store.next)
    (name : store.bytes ⟨1, ctx.store.next⟩ = [ch])
    (keyRoom : store.size ctx.store.next = ngxHttpSsiParamLen) (old : value < store.next)
    (valueRoom : store.size value = ctx.valueLen) (free : value ∉ ctx.places)
    (other : value ≠ ctx.store.next) (shared : ∀ place, ctx.valueBuf = some place → place = value) :
    Follows ctx { ctx with
      store := store
      params := ⟨⟨1, ctx.store.next⟩, ⟨0, value⟩⟩ :: ctx.params
      state := .param } { reading with
      state := .param
      params := ([ch], []) :: reading.params } := by
  obtain ⟨fields, -⟩ := holds.between part
  have unused : ctx.store.next ∉ ctx.places := fun member => absurd (fields.old _ member) (lt_irrefl _)
  obtain ⟨free_command, free_params⟩ := not_or.mp (List.mem_cons.not.mp free)
  obtain ⟨new_command, new_params⟩ := not_or.mp (List.mem_cons.not.mp unused)
  refine ⟨⟨rfl, holds.savedState, (fun quoted => by cases quoted), ?_, ?_⟩, rfl, rfl⟩
  · intro place here
    rw [shared place here]
    exact ⟨old, valueRoom⟩
  · refine ⟨⟨fields.command.frame frame (Ne.symm new_command), ?_, fields.key, ?_, ?_⟩, _, ctx.params, rfl, ?_⟩
    · exact (frame.sizes _ fields.command.old).trans fields.room
    · exact .cons ⟨⟨name, step⟩, ⟨rfl, old⟩⟩ (keptParams_frame fields.params frame new_params)
    · have apart := List.nodup_cons.mp fields.apart
      simp only [Ctx.places, List.flatMap_cons, Param.places, List.cons_append, List.nil_append,
        List.nodup_cons, List.mem_cons, not_or]
      exact ⟨⟨Ne.symm new_command, Ne.symm free_command, apart.1⟩, ⟨Ne.symm other, new_params⟩, free_params,
        apart.2⟩
    · exact ⟨keyRoom, valueRoom, shared⟩

theorem beginParam_none (none_yet : ctx.valueBuf = none) :
    beginParam ch ctx = ((ctx.store.pnalloc ngxHttpSsiParamLen).1.write ctx.store.next 0 ch).map fun store =>
      { ctx with
        store := (store.pnalloc ctx.valueLen).1
        params := ⟨⟨1, ctx.store.next⟩, ⟨0, store.next⟩⟩ :: ctx.params
        state := .param } := by
  unfold beginParam
  rw [none_yet]
  rfl

theorem beginParam_some {place : Nat} (here : ctx.valueBuf = some place) :
    beginParam ch ctx = ((ctx.store.pnalloc ngxHttpSsiParamLen).1.write ctx.store.next 0 ch).map fun store =>
      { ctx with
        store := store
        params := ⟨⟨1, ctx.store.next⟩, ⟨0, place⟩⟩ :: ctx.params
        state := .param } := by
  unfold beginParam
  rw [here]
  rfl

theorem beginParam_holds (holds : Holds ctx reading) (part : reading.state.part = .between) :
    ∃ after, beginParam ch ctx = some after ∧ Follows ctx after { reading with
      state := .param
      params := ([ch], []) :: reading.params } := by
  obtain ⟨fields, apart⟩ := holds.between part
  have fresh := Frame.pnalloc ctx.store.next ctx.store ngxHttpSsiParamLen
  have size := pnalloc_size ctx.store ngxHttpSsiParamLen
  obtain ⟨store, written, frame, next, sizes, bytes⟩ :=
    @Store.write_some (ctx.store.pnalloc ngxHttpSsiParamLen).1 ctx.store.next 0 (by rw [size]; decide) ch
  have whole := fresh.trans frame
  have step : store.next = ctx.store.next + 1 := next
  have keyRoom : store.size ctx.store.next = ngxHttpSsiParamLen := (congrFun sizes _).trans size
  cases here : ctx.valueBuf with
  | none =>
    have grown := Frame.pnalloc ctx.store.next store ctx.valueLen
    have more : (store.pnalloc ctx.valueLen).1.next = store.next + 1 := rfl
    refine ⟨_, (beginParam_none here).trans (congrArg (Option.map _) written), ?_⟩
    refine newParam_holds holds part (whole.trans grown) (by omega) (bytes [] rfl) ?_ (by omega)
      (pnalloc_size store ctx.valueLen) ?_ (by omega) ?_
    · exact (grown.sizes _ (by omega)).trans keyRoom
    · intro member
      have old := fields.old _ member
      omega
    · rw [here]
      exact fun place none => by cases none
  | some place =>
    obtain ⟨old, room⟩ := holds.valueBuf place here
    refine ⟨_, (beginParam_some here).trans (congrArg (Option.map _) written), ?_⟩
    refine newParam_holds holds part whole (by omega) (bytes [] rfl) keyRoom (by omega) ?_
      (apart place here) (by omega) ?_
    · exact (whole.sizes place old).trans room
    · rw [here]
      exact fun other same => (Option.some.inj same).symm

theorem detachValue_long {param : Param} {others : List Param} (params : ctx.params = param :: others)
    (long : ¬param.value.len + 1 < ctx.valueLen / 2) : detachValue ctx = some { ctx with valueBuf := none } := by
  unfold detachValue
  rw [params]
  exact if_neg long

theorem detachValue_short {param : Param} {others : List Param} (params : ctx.params = param :: others)
    (short : param.value.len + 1 < ctx.valueLen / 2) :
    detachValue ctx = ((ctx.store.pnalloc (param.value.len + 1)).1.copy ctx.store.next param.value.data
        param.value.len).map fun store =>
      { ctx with
        store := store
        valueBuf := some param.value.data
        params := { param with value := ⟨param.value.len, ctx.store.next⟩ } :: others } := by
  unfold detachValue
  rw [params]
  exact if_pos short

theorem detachValue_holds (holds : Holds ctx reading) (part : reading.state.part = .inParam)
    (within : reading.Within ctx.valueLen) :
    ∃ after, detachValue ctx = some after ∧ ∀ state : SsiState,
      state.part = .between ∨ state.part = .outside →
        Follows ctx { after with state := state } (reading.goTo state) := by
  have fields := (holds.inParam part).1
  obtain ⟨param, others, key, value, texts, params, same, unfinished, head, tail⟩ := holds.newest part
  have length : param.value.len = value.length := head.2.length
  have room : value.length ≤ ctx.valueLen := (within.2 (key, value) (by rw [same]; exact List.mem_cons_self)).2
  obtain ⟨commandKey, commandValue, keyValue, key_free, value_free⟩ := places_cons params fields.apart
  have unquoted : ∀ state : SsiState, state.part = .between ∨ state.part = .outside →
      state = .quotedSymbol →
      reading.savedState = .doubleQuotedValue ∨ reading.savedState = .quotedValue := by
    rintro state either rfl
    rcases either with part | part
    · cases part
    · cases part
  by_cases short : param.value.len + 1 < ctx.valueLen / 2
  · have fresh := Frame.pnalloc ctx.store.next ctx.store (param.value.len + 1)
    have size := pnalloc_size ctx.store (param.value.len + 1)
    have source := (fresh.sizes _ head.2.old).trans unfinished.valueRoom
    obtain ⟨store, copied, frame, next, bytes⟩ :=
      @Store.copy_some (ctx.store.pnalloc (param.value.len + 1)).1 ctx.store.next param.value.data
        param.value.len (by omega) (by omega)
    have whole := fresh.trans frame
    have step : store.next = ctx.store.next + 1 := next
    have unused : ctx.store.next ∉ ctx.places := fun member => absurd (fields.old _ member) (lt_irrefl _)
    have apart := fields.apart
    rw [Ctx.places, params, List.flatMap_cons, Param.places, List.cons_append, List.cons_append,
      List.nil_append] at unused apart
    simp only [List.nodup_cons, List.mem_cons, not_or] at unused apart
    refine ⟨_, (detachValue_short params short).trans (congrArg (Option.map _) copied), fun state either => ?_⟩
    refine ⟨⟨rfl, holds.savedState, unquoted state either, ?_, ?_⟩, rfl, rfl⟩
    · intro place here
      cases here
      exact ⟨lt_of_lt_of_le head.2.old whole.grows, (whole.sizes _ head.2.old).trans unfinished.valueRoom⟩
    · unfold Parts
      rcases either with between | outside
      · rw [show (reading.goTo state).state.part = .between from between]
        refine ⟨⟨fields.command.frame whole (Ne.symm unused.1), ?_, fields.key, ?_, ?_⟩, ?_⟩
        · exact (whole.sizes _ fields.command.old).trans fields.room
        · rw [show (reading.goTo state).params = (key, value) :: texts from same]
          refine .cons ⟨head.1.frame whole (Ne.symm unused.2.1), ⟨bytes.trans head.2.bytes, ?_⟩⟩
            (keptParams_frame tail whole unused.2.2.2)
          exact lt_of_lt_of_eq (Nat.lt_succ_self _) step.symm
        · simp only [Ctx.places, List.flatMap_cons, Param.places, List.cons_append, List.nil_append,
            List.nodup_cons, List.mem_cons, not_or]
          exact ⟨⟨apart.1.1, Ne.symm unused.1, apart.1.2.2⟩, ⟨Ne.symm unused.2.1, apart.2.1.2⟩, unused.2.2.2,
            apart.2.2.2⟩
        · intro place here
          cases here
          simp only [Ctx.places, List.flatMap_cons, Param.places, List.cons_append, List.nil_append,
            List.mem_cons, not_or]
          exact ⟨Ne.symm commandValue, Ne.symm keyValue, unused.2.2.1 ∘ Eq.symm, value_free⟩
      · rw [show (reading.goTo state).state.part = .outside from outside]
        exact trivial
  · refine ⟨_, detachValue_long params short, fun state either => ?_⟩
    refine ⟨⟨rfl, holds.savedState, unquoted state either, (fun place none => by cases none), ?_⟩, rfl, rfl⟩
    unfold Parts
    rcases either with between | outside
    · rw [show (reading.goTo state).state.part = .between from between]
      exact ⟨⟨fields.command, fields.room, fields.key, fields.params, fields.apart⟩,
        fun place none => by cases none⟩
    · rw [show (reading.goTo state).state.part = .outside from outside]
      exact trivial

end Turns

end NgxFormal.Http.Ssi
