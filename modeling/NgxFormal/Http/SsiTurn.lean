import NgxFormal.Http.SsiStorage

/-! A byte of the body: the parser does what the reader does, as long as the limits are kept. -/

namespace NgxFormal.Http.Ssi

/-- What the parser makes of a byte with which the reader goes on to `next`. -/
inductive Turned (ctx : Ctx) (reading next : Reading) (untested : Prop) : Option Ctx → Prop where
  | goes {after : Ctx} (fits : next.Within ctx.valueLen) (follows : Follows ctx after next) :
    Turned ctx reading next untested (some after)
  | refused {after : Ctx} (past : ¬next.Within ctx.valueLen) (tested : ¬untested)
      (follows : Follows ctx after (reading.refuse next)) :
    Turned ctx reading next untested (some after)
  | outside (past : ¬next.Within ctx.valueLen) (here : untested) : Turned ctx reading next untested none

section Turn

variable {ctx : Ctx} {reading next : Reading} {ch : UInt8} {untested : Prop}

theorem turned_goTo (holds : Holds ctx reading) (within : reading.Within ctx.valueLen) {state : SsiState}
    (same : state.part = reading.state.part ∨ state.part = .outside) (unquoted : state ≠ .quotedSymbol) :
    Turned ctx reading (reading.goTo state) untested (some { ctx with state := state }) :=
  .goes within ⟨holds.goTo same unquoted, rfl, rfl⟩

theorem wrongState_part (ch : UInt8) : (wrongState ch).part = .outside := by
  unfold wrongState
  split
  · rfl
  · rfl

theorem wrongState_unquoted (ch : UInt8) : wrongState ch ≠ .quotedSymbol := by
  unfold wrongState
  split
  · decide
  · decide

theorem turned_stay (holds : Holds ctx reading) (within : reading.Within ctx.valueLen) :
    Turned ctx reading reading untested (some ctx) :=
  .goes within ⟨holds, rfl, rfl⟩

theorem addKey_state (state : SsiState) :
    addKey ch { ctx with state := state } = (addKey ch ctx).map fun after => { after with state := state } := by
  unfold addKey
  dsimp only
  cases ctx.params with
  | nil => rfl
  | cons param others => rw [Option.map_map]; rfl

theorem addValue_state (state : SsiState) :
    addValue ch { ctx with state := state } = (addValue ch ctx).map fun after => { after with state := state } := by
  unfold addValue
  dsimp only
  cases ctx.params with
  | nil => rfl
  | cons param others => rw [Option.map_map]; rfl

theorem addValue_keeps (ch : UInt8) (reading : Reading) :
    (reading.addValue ch).state = reading.state ∧ (reading.addValue ch).savedState = reading.savedState := by
  unfold Reading.addValue
  split
  · exact ⟨rfl, rfl⟩
  · exact ⟨rfl, rfl⟩

theorem addKey_savedState (ch : UInt8) (reading : Reading) : (reading.addKey ch).savedState = reading.savedState := by
  unfold Reading.addKey
  split
  · rfl
  · rfl

theorem escape_holds {here : SsiState} (holds : Holds ctx reading) (part : reading.state.part = .inParam)
    (value : here = .doubleQuotedValue ∨ here = .quotedValue) :
    Holds { ctx with
      savedState := here
      state := .quotedSymbol } { reading with
        savedState := here
        state := .quotedSymbol } := by
  obtain ⟨fields, param, others, params, unfinished⟩ := holds.inParam part
  refine ⟨rfl, rfl, fun _ => value, holds.valueBuf, ?_⟩
  exact ⟨⟨fields.command, fields.room, fields.key, fields.params, fields.apart⟩, param, others, params,
    ⟨unfinished.keyRoom, unfinished.valueRoom, unfinished.shared⟩⟩

theorem valueTurn_turned {quote : UInt8} {here : SsiState} (holds : Holds ctx reading)
    (state : reading.state = here) (value : here = .doubleQuotedValue ∨ here = .quotedValue)
    (within : reading.Within ctx.valueLen) (tested : ¬untested) :
    Turned ctx reading (readValue quote here ch reading) untested (valueTurn quote here ch ctx) := by
  have part : reading.state.part = .inParam := by
    rw [state]
    rcases value with rfl | rfl
    · rfl
    · rfl
  unfold readValue valueTurn
  by_cases ends : ch = quote
  · rw [if_pos ends, if_pos ends]
    exact turned_goTo holds within (Or.inl part.symm) (by decide)
  · rw [if_neg ends, if_neg ends]
    dsimp only
    by_cases escape : ch = 0x5c
    · have held := escape_holds holds part value
      rw [if_pos escape, if_pos escape]
      rcases @addValue_room _ _ ch held rfl within with ⟨fits, room, after, added, follows⟩ | ⟨past, full, -⟩
      · rw [room, if_neg Bool.false_ne_true, added]
        exact .goes fits follows
      · rw [full, if_pos rfl]
        refine .refused past tested ⟨?_, rfl, rfl⟩
        rw [Reading.refuse, (addValue_keeps ch _).2]
        exact held.goTo (Or.inr rfl) (by decide)
    · rw [if_neg escape, if_neg escape]
      rcases @addValue_room _ _ ch holds part within with ⟨fits, room, after, added, follows⟩ | ⟨past, full, -⟩
      · rw [room, if_neg Bool.false_ne_true, added]
        exact .goes fits follows
      · rw [full, if_pos rfl]
        refine .refused past tested ⟨?_, rfl, rfl⟩
        rw [Reading.refuse, (addValue_keeps ch _).2]
        exact holds.goTo (Or.inr rfl) (by decide)

/-- One lemma for all states of a command. -/
theorem commandTurn_turned (holds : Holds ctx reading) (within : reading.Within ctx.valueLen) :
    Turned ctx reading (readCommand ch reading) (Untested ch reading) (commandTurn ch ctx) := by
  unfold commandTurn readCommand
  rw [holds.state]
  cases state : reading.state with
  | precommand =>
    dsimp only
    split
    · exact turned_stay holds within
    · obtain ⟨after, begun, follows⟩ := @beginCommand_holds _ _ ch holds
      rw [begun]
      exact .goes ⟨by simp [ngxHttpSsiCommandLen], by simp⟩ follows
  | command =>
    have part : reading.state.part = .between := by rw [state]; rfl
    dsimp only
    split
    · exact turned_goTo holds within (Or.inl part.symm) (by decide)
    split
    · exact turned_goTo holds within (Or.inl part.symm) (by decide)
    have length := (holds.between part).1.command.length
    have room := within.1
    by_cases full : ctx.command.len = ngxHttpSsiCommandLen
    · rw [addCommand, if_pos full]
      refine .refused (fun past => ?_) (by simp [Untested, state]) ⟨holds.goTo (Or.inr rfl) (by decide), rfl, rfl⟩
      have longer := past.1
      rw [List.length_append, List.length_singleton] at longer
      omega
    · obtain ⟨after, added, follows⟩ := @addCommand_holds _ _ ch holds part (by omega)
      rw [state] at follows
      rw [added]
      refine .goes ⟨?_, within.2⟩ follows
      rw [List.length_append, List.length_singleton]
      omega
  | preparam =>
    have part : reading.state.part = .between := by rw [state]; rfl
    dsimp only
    split
    · exact turned_stay holds within
    split
    · exact turned_goTo holds within (Or.inl part.symm) (by decide)
    obtain ⟨after, begun, follows⟩ := @beginParam_holds _ _ ch holds part
    rw [begun]
    exact .goes ⟨within.1, List.forall_mem_cons.2 ⟨by simp [ngxHttpSsiParamLen], within.2⟩⟩ follows
  | param =>
    have part : reading.state.part = .inParam := by rw [state]; rfl
    dsimp only
    split
    · exact turned_goTo holds within (Or.inl part.symm) (by decide)
    split
    · exact turned_goTo holds within (Or.inl part.symm) (by decide)
    rcases @addKey_room _ _ ch holds part within with ⟨fits, room, after, added, follows⟩ | ⟨past, full, outside⟩
    · split
      · rw [addKey_state, added]
        exact .goes fits ⟨follows.1.goTo (Or.inr rfl) (by decide), follows.2⟩
      · rw [room, if_neg Bool.false_ne_true, added]
        exact .goes fits follows
    · split
      next dash =>
        -- the name also gets the dash that ends it
        rw [addKey_state, outside]
        exact .outside past (Or.inl ⟨state, dash⟩)
      next other =>
        refine .refused past (by simp [Untested, state, other]) ⟨?_, rfl, rfl⟩
        rw [Reading.refuse, addKey_savedState]
        exact holds.goTo (Or.inr rfl) (by decide)
  | preequal =>
    have part : reading.state.part = .inParam := by rw [state]; rfl
    dsimp only
    split
    · exact turned_stay holds within
    split
    · exact turned_goTo holds within (Or.inl part.symm) (by decide)
    · exact turned_goTo holds within (Or.inr (wrongState_part ch)) (wrongState_unquoted ch)
  | prevalue =>
    have part : reading.state.part = .inParam := by rw [state]; rfl
    dsimp only
    split
    · exact turned_stay holds within
    split
    · exact turned_goTo holds within (Or.inl part.symm) (by decide)
    split
    · exact turned_goTo holds within (Or.inl part.symm) (by decide)
    · exact turned_goTo holds within (Or.inr (wrongState_part ch)) (wrongState_unquoted ch)
  | doubleQuotedValue => exact valueTurn_turned holds state (Or.inl rfl) within (by simp [Untested, state])
  | quotedValue => exact valueTurn_turned holds state (Or.inr rfl) within (by simp [Untested, state])
  | quotedSymbol =>
    have part : reading.state.part = .inParam := by rw [state]; rfl
    dsimp only
    rw [addValue_state, holds.savedState]
    rcases @addValue_room _ _ ch holds part within with ⟨fits, -, after, added, follows⟩ | ⟨past, -, outside⟩
    · rw [added]
      refine .goes fits ⟨follows.1.goTo ?_ ?_, follows.2⟩
      · rw [(addValue_keeps ch reading).1, part]
        rcases holds.quoted state with value | value
        · rw [value]
          exact Or.inl rfl
        · rw [value]
          exact Or.inl rfl
      · rcases holds.quoted state with value | value
        · rw [value]
          decide
        · rw [value]
          decide
    · rw [outside]
      exact .outside past (Or.inr state)
  | postparam =>
    obtain ⟨after, detached, follows⟩ := detachValue_holds holds (by rw [state]; rfl) within
    dsimp only
    rw [detached, Option.map_some]
    split
    · exact .goes within (follows .preparam (Or.inl rfl))
    split
    · exact .goes within (follows .commentEnd0 (Or.inl rfl))
    · exact .goes within (follows .error (Or.inr rfl))
  | commentEnd0 =>
    have part : reading.state.part = .between := by rw [state]; rfl
    dsimp only
    split
    · exact turned_goTo holds within (Or.inl part.symm) (by decide)
    · exact turned_goTo holds within (Or.inr rfl) (by decide)
  | error | errorEnd0 =>
    dsimp only
    split
    · exact turned_goTo holds within (Or.inr rfl) (by decide)
    · exact turned_goTo holds within (Or.inr rfl) (by decide)
  | start | tag | comment0 | comment1 | sharp | commentEnd1 | errorEnd1 =>
    exact turned_goTo holds within (Or.inr rfl) (by decide)

end Turn

end NgxFormal.Http.Ssi
