import Mathlib.Data.List.Infix
import NgxFormal.Http.SsiTurn

/-! The results of the parser do not depend on how the body is cut into buffers. -/

namespace NgxFormal.Http.Ssi

open Core.Hash (ngxHashKey)

def Reading.next (ch : UInt8) (reading : Reading) : Reading :=
  match readTurn ch reading with
  | (after, none) => after
  | (after, some _) => after.goTo .start

def Reading.events (ch : UInt8) (reading : Reading) : List Event :=
  match readTurn ch reading with
  | (_, none) => []
  | (after, some rc) => [after.event rc]

def Reading.limited (valueLen : Nat) (ch : UInt8) (reading : Reading) : Reading :=
  if (readTurn ch reading).1.Within valueLen then reading.next ch else reading.refuse (readTurn ch reading).1

/-- The events of a text with the limits, and the reader behind it. -/
def limitedText (valueLen : Nat) : Reading → List UInt8 → List Event × Reading
  | reading, [] => ([], reading)
  | reading, ch :: rest =>
    (reading.events ch ++ (limitedText valueLen (reading.limited valueLen ch) rest).1,
      (limitedText valueLen (reading.limited valueLen ch) rest).2)

/-- No byte of the text goes behind the end of a name or a value. -/
def InRoom (valueLen : Nat) : Reading → List UInt8 → Prop
  | _, [] => True
  | reading, ch :: rest => ¬Overflows valueLen ch reading ∧ InRoom valueLen (reading.limited valueLen ch) rest

section Reading

variable {reading : Reading} {ch : UInt8} {valueLen : Nat} {text : List UInt8}

theorem readText_cons (reading : Reading) (ch : UInt8) (rest : List UInt8) :
    readText reading (ch :: rest) =
      (reading.events ch ++ (readText (reading.next ch) rest).1, (readText (reading.next ch) rest).2) := by
  rw [readText, Reading.events, Reading.next]
  rcases readTurn ch reading with ⟨after, rc⟩
  cases rc with
  | none => rfl
  | some rc => rfl

theorem limitedText_append (reading : Reading) (first second : List UInt8) :
    limitedText valueLen reading (first ++ second) = ((limitedText valueLen reading first).1 ++
        (limitedText valueLen (limitedText valueLen reading first).2 second).1,
      (limitedText valueLen (limitedText valueLen reading first).2 second).2) := by
  induction first generalizing reading with
  | nil => rfl
  | cons ch rest ih => rw [List.cons_append, limitedText, limitedText, ih, List.append_assoc]

theorem inRoom_append {first second : List UInt8} : InRoom valueLen reading (first ++ second) ↔
    InRoom valueLen reading first ∧ InRoom valueLen (limitedText valueLen reading first).2 second := by
  induction first generalizing reading with
  | nil => exact (and_iff_right trivial).symm
  | cons ch rest ih => rw [List.cons_append, InRoom, InRoom, limitedText, ih, and_assoc]

theorem next_within : (reading.next ch).Within valueLen ↔ (readTurn ch reading).1.Within valueLen := by
  unfold Reading.next
  rcases readTurn ch reading with ⟨after, rc⟩
  cases rc with
  | none => exact Iff.rfl
  | some rc => exact Iff.rfl

theorem KeepsLimits.limited (keeps : KeepsLimits valueLen reading text) :
    InRoom valueLen reading text ∧ limitedText valueLen reading text = readText reading text := by
  induction text generalizing reading with
  | nil => exact ⟨trivial, rfl⟩
  | cons ch rest ih =>
    have later : KeepsLimits valueLen (reading.next ch) rest := by
      intro before member
      have begins := List.mem_inits before rest |>.mp member
      have within := keeps (ch :: before) (List.mem_inits _ _ |>.mpr (List.cons_prefix_cons.mpr ⟨rfl, begins⟩))
      rwa [readText_cons] at within
    have fits : (readTurn ch reading).1.Within valueLen :=
      next_within.1 (later [] (List.mem_inits _ _ |>.mpr List.nil_prefix))
    have same : reading.limited valueLen ch = reading.next ch := if_pos fits
    rw [InRoom, limitedText, readText_cons, same, (ih later).2]
    exact ⟨⟨fun past => past.1 fits, (ih later).1⟩, rfl⟩

theorem next_none (goes : (readTurn ch reading).2 = none) :
    reading.next ch = (readTurn ch reading).1 ∧ reading.events ch = [] := by
  unfold Reading.next Reading.events
  revert goes
  rcases readTurn ch reading with ⟨after, rc⟩
  rintro rfl
  exact ⟨rfl, rfl⟩

theorem next_some {rc : Rc} (ends : (readTurn ch reading).2 = some rc) :
    reading.next ch = (readTurn ch reading).1.goTo .start ∧
      reading.events ch = [(readTurn ch reading).1.event rc] := by
  unfold Reading.next Reading.events
  revert ends
  rcases readTurn ch reading with ⟨after, rc⟩
  rintro rfl
  exact ⟨rfl, rfl⟩

end Reading

section Loop

/-- The context without what the copies of the buffer need. -/
def Ctx.core (ctx : Ctx) : Ctx :=
  { ctx with
    buf := []
    pos := 0
    copyStart := none
    copyEnd := none
    saved := 0
    looked := 0 }

variable {ctx : Ctx} {reading : Reading} {ch : UInt8}

theorem Holds.move {after : Ctx} (holds : Holds ctx reading) (same : after.core = ctx.core) : Holds after reading := by
  have moves {α : Type} (field : Ctx → α) : field after.core = field ctx.core := congrArg field same
  have store : after.store = ctx.store := moves Ctx.store
  have command : after.command = ctx.command := moves Ctx.command
  have params : after.params = ctx.params := moves Ctx.params
  have valueBuf : after.valueBuf = ctx.valueBuf := moves Ctx.valueBuf
  have limit : after.valueLen = ctx.valueLen := moves Ctx.valueLen
  have places : after.places = ctx.places := by rw [Ctx.places, Ctx.places, command, params]
  have moved (fields : Fields ctx reading) : Fields after reading :=
    ⟨by rw [store, command]; exact fields.command, by rw [store, command]; exact fields.room,
      (moves Ctx.key).trans fields.key, by rw [store, params]; exact fields.params, places ▸ fields.apart⟩
  refine ⟨(moves Ctx.state).trans holds.state, (moves Ctx.savedState).trans holds.savedState,
    holds.quoted, by rw [valueBuf, store, limit]; exact holds.valueBuf, ?_⟩
  have parts := holds.parts
  unfold Parts at parts ⊢
  cases part : reading.state.part with
  | outside => exact trivial
  | between =>
    rw [part] at parts
    exact ⟨moved parts.1, by rw [valueBuf, places]; exact parts.2⟩
  | inParam =>
    rw [part] at parts
    obtain ⟨fields, param, others, newest, unfinished⟩ := parts
    refine ⟨moved fields, param, others, params.trans newest, ?_⟩
    exact ⟨by rw [store]; exact unfinished.keyRoom, by rw [store, limit]; exact unfinished.valueRoom,
      by rw [valueBuf]; exact unfinished.shared⟩

theorem outside_holds {after : Ctx} (holds : Holds ctx reading) (savedState : after.savedState = ctx.savedState)
    (valueBuf : ∀ place, after.valueBuf = some place →
      place < after.store.next ∧ after.store.size place = after.valueLen)
    (outside : after.state.part = .outside) : Holds after (reading.goTo after.state) := by
  refine ⟨rfl, savedState.trans holds.savedState, ?_, valueBuf, ?_⟩
  · intro quoted
    rw [show after.state = .quotedSymbol from quoted] at outside
    cases outside
  · unfold Parts
    rw [show (reading.goTo after.state).state.part = .outside from outside]
    exact trivial

theorem tagTurn_holds {p looked : Nat} {expected : UInt8} {next : SsiState} (holds : Holds ctx reading)
    (outside : next.part = .outside) :
    Follows ctx (tagTurn p ch expected looked next ctx) (reading.goTo (tagState ch expected next)) := by
  unfold tagTurn tagState
  split
  · exact ⟨outside_holds holds rfl holds.valueBuf outside, rfl, rfl⟩
  · split
    · exact ⟨outside_holds holds rfl holds.valueBuf rfl, rfl, rfl⟩
    · exact ⟨outside_holds holds rfl holds.valueBuf rfl, rfl, rfl⟩

theorem ssiTurn_turned {start p : Nat} (holds : Holds ctx reading) (within : reading.Within ctx.valueLen) :
    ∃ turned, ssiTurn start p ch ctx = turned.map (fun after => (after, (readTurn ch reading).2)) ∧
      Turned ctx reading (readTurn ch reading).1 (Untested ch reading) turned := by
  have command := @commandTurn_turned _ _ ch holds within
  unfold ssiTurn readTurn
  rw [holds.state]
  cases state : reading.state with
  | start =>
    have same : ctx.state = .start := holds.state.trans state
    dsimp only
    by_cases opens : ch = 0x3c
    · rw [if_pos opens, if_pos opens]
      exact ⟨some _, rfl, .goes within ⟨outside_holds holds rfl holds.valueBuf rfl, rfl, rfl⟩⟩
    · rw [if_neg opens, if_neg opens, ← same]
      exact ⟨some ctx, rfl, .goes within ⟨outside_holds holds rfl holds.valueBuf (by rw [same]; rfl), rfl, rfl⟩⟩
  | tag | comment0 | comment1 => exact ⟨some _, rfl, .goes within (tagTurn_holds holds rfl)⟩
  | sharp =>
    dsimp only
    split
    · have cleared : Holds { ctx with saved := 0 } reading := holds.move rfl
      have follows := @tagTurn_holds _ _ ch p 0 0x23 .precommand cleared rfl
      exact ⟨some (tagTurn p ch 0x23 0 .precommand { ctx with saved := 0 }), rfl, .goes within follows⟩
    · exact ⟨some _, rfl, .goes within (tagTurn_holds holds rfl)⟩
  | commentEnd1 | errorEnd1 =>
    dsimp only
    split
    · exact ⟨some ctx, rfl, turned_stay holds within⟩
    · exact ⟨_, rfl, command⟩
  | _ => exact ⟨_, rfl, command⟩

/-- The key is that of the name, and the values of a command are in places of their own. -/
def Sound (rc : Rc) (ctx : Ctx) : Prop :=
  rc = .ok → ctx.key = ngxHashKey (ctx.store.bytes ctx.command) ∧
    (ctx.params.map fun param => param.value.data).Nodup

theorem values_nodup {params : List Param} (apart : (params.flatMap Param.places).Nodup) :
    (params.map fun param => param.value.data).Nodup := by
  have same : params.map (fun param => param.value.data) = params.flatMap fun param => [param.value.data] := by
    induction params with
    | nil => rfl
    | cons param others ih =>
      rw [List.flatMap_cons, List.nodup_append] at apart
      rw [List.map_cons, List.flatMap_cons, ih apart.2.1]
      rfl
  rw [same]
  refine List.Nodup.sublist ?_ apart
  clear same apart
  induction params with
  | nil => exact List.Sublist.refl _
  | cons param others ih =>
    rw [List.flatMap_cons, List.flatMap_cons]
    exact List.Sublist.append (List.sublist_cons_self _ _) ih

theorem keptParams_map {store : Store} {params : List Param} {texts : List (List UInt8 × List UInt8)}
    (kept : List.Forall₂ (KeptParam store) params texts) :
    params.map (fun param => (store.bytes param.key, store.bytes param.value)) = texts := by
  induction kept with
  | nil => rfl
  | cons head tail ih => rw [List.map_cons, ih, head.1.bytes, head.2.bytes]

theorem event_eq {rc : Rc} (holds : Holds ctx reading) (ends : rc = .ok → reading.state = .commentEnd1) :
    ctx.event rc = reading.event rc ∧ Sound rc ctx := by
  by_cases ok : rc = .ok
  · subst ok
    obtain ⟨fields, -⟩ := holds.between (by rw [ends rfl]; rfl)
    refine ⟨?_, fun _ => ⟨?_, values_nodup (List.nodup_cons.mp fields.apart).2⟩⟩
    swap
    · rw [fields.key, fields.command.bytes]
    rw [Ctx.event, Reading.event, fields.command.bytes, fields.key, List.map_reverse,
      keptParams_map fields.params]
  · refine ⟨?_, fun same => absurd same ok⟩
    cases rc with
    | ok => exact absurd rfl ok
    | again => rfl
    | ssiError => rfl

theorem readTurn_done {rc : Rc} (done : (readTurn ch reading).2 = some rc) :
    rc ≠ .again ∧ (rc = .ok → reading.state = .commentEnd1) ∧ (readTurn ch reading).1 = reading := by
  unfold readTurn at done ⊢
  split at done
  case h_6 state =>
    rw [state]
    split at done
    next ends =>
      rw [if_pos ends]
      cases done
      exact ⟨by decide, fun _ => rfl, rfl⟩
    next => cases done
  case h_7 state =>
    rw [state]
    split at done
    next ends =>
      rw [if_pos ends]
      cases done
      exact ⟨by decide, (fun ok => by cases ok), rfl⟩
    next => cases done
  all_goals cases done

/-- The context follows the reader, within the limits. -/
structure Limited (ctx : Ctx) (reading : Reading) : Prop where
  holds : Holds ctx reading
  within : reading.Within ctx.valueLen

theorem ssiTurn_limited {start p : Nat} (held : Limited ctx reading) :
    Overflows ctx.valueLen ch reading ∧ ssiTurn start p ch ctx = none ∨ ¬Overflows ctx.valueLen ch reading ∧
      ∃ after rc, ssiTurn start p ch ctx = some (after, rc) ∧ after.buf = ctx.buf ∧ after.valueLen = ctx.valueLen ∧
        Limited (rc.elim after fun _ => { after with state := .start }) (reading.limited ctx.valueLen ch) ∧
        match rc with
        | none => reading.events ch = []
        | some rc => rc ≠ .again ∧ reading.events ch = [after.event rc] ∧ Sound rc after := by
  obtain ⟨turned, same, turns⟩ := @ssiTurn_turned _ _ ch start p held.holds held.within
  rw [same]
  cases turns with
  | outside past here => exact Or.inl ⟨⟨past, here⟩, rfl⟩
  | @refused after past tested follows =>
    have goes : (readTurn ch reading).2 = none := by
      cases done : (readTurn ch reading).2 with
      | none => rfl
      | some rc => exact absurd (by rw [(readTurn_done done).2.2]; exact held.within) past
    refine Or.inr ⟨fun overflows => tested overflows.2, after, none, by rw [goes]; rfl, follows.2.1, follows.2.2, ?_⟩
    rw [Reading.limited, if_neg past]
    exact ⟨⟨follows.1, follows.2.2 ▸ held.within⟩, (next_none goes).2⟩
  | @goes after fits follows =>
    refine Or.inr ⟨fun overflows => overflows.1 fits, after, _, rfl, follows.2.1, follows.2.2, ?_⟩
    rw [Reading.limited, if_pos fits]
    cases done : (readTurn ch reading).2 with
    | none =>
      rw [(next_none done).1]
      exact ⟨⟨follows.1, follows.2.2 ▸ fits⟩, (next_none done).2⟩
    | some rc =>
      obtain ⟨ends, command, stays⟩ := readTurn_done done
      obtain ⟨event, sound⟩ := event_eq follows.1 (fun ok => stays.symm ▸ command ok)
      rw [(next_some done).1, (next_some done).2, ← event]
      refine ⟨⟨follows.1.goTo (Or.inr rfl) (by decide), ?_⟩, ends, rfl, sound⟩
      exact follows.2.2 ▸ fits

/-- What a call of the parser does with the text that is left of its buffer. -/
structure Parsed (ctx : Ctx) (reading : Reading) (text : List UInt8) (p : Nat) (rc : Rc) (after : Ctx)
    (taken rest : List UInt8) : Prop where
  split : text = taken ++ rest
  pos : after.pos = p + taken.length
  same : after.buf = ctx.buf ∧ after.valueLen = ctx.valueLen
  room : InRoom ctx.valueLen reading taken
  held : Limited after (limitedText ctx.valueLen reading taken).2
  events : (limitedText ctx.valueLen reading taken).1 = if rc = .again then [] else [after.event rc]
  all : rc = .again → rest = []
  some_bytes : rc ≠ .again → taken ≠ [] ∧ after.state = .start
  sound : Sound rc after

theorem parseLoop_parsed {start p : Nat} {text : List UInt8} (held : Limited ctx reading) :
    parseLoop start p text ctx = none ∧ ¬InRoom ctx.valueLen reading text ∨
      ∃ rc after taken rest, parseLoop start p text ctx = some (rc, after) ∧
        Parsed ctx reading text p rc after taken rest := by
  induction text generalizing ctx reading p with
  | nil =>
    refine Or.inr ⟨.again, _, [], [], rfl, ?_⟩
    refine ⟨rfl, rfl, ⟨rfl, rfl⟩, trivial, ⟨held.holds.move rfl, held.within⟩, rfl, fun _ => rfl, ?_, ?_⟩
    · exact fun other => absurd rfl other
    · exact fun ok => by cases ok
  | cons ch text ih =>
    rw [parseLoop, InRoom]
    rcases @ssiTurn_limited _ _ ch start p held with
      ⟨overflows, none_⟩ | ⟨room, next, rc, turned, buf, limit, later, event⟩
    · exact Or.inl ⟨by rw [none_]; rfl, fun fits => fits.1 overflows⟩
    rw [turned, Option.bind_some]
    cases rc with
    | none =>
      rcases @ih next _ (p + 1) later with ⟨none_, outside⟩ | ⟨rc, after, taken, rest, looped, parsed⟩
      · exact Or.inl ⟨none_, fun fits => outside (limit ▸ fits.2)⟩
      · have fits := parsed.room
        have follows := parsed.held
        have events := parsed.events
        rw [limit] at fits follows events
        refine Or.inr ⟨rc, after, ch :: taken, rest, looped, ?_⟩
        refine ⟨by rw [parsed.split]; rfl, ?_, ?_, ⟨room, fits⟩, follows, ?_, parsed.all, ?_, parsed.sound⟩
        · rw [parsed.pos, List.length_cons]
          omega
        · exact ⟨parsed.same.1.trans buf, parsed.same.2.trans limit⟩
        · rw [limitedText, event]
          exact events
        · exact fun other => ⟨List.cons_ne_nil ch taken, (parsed.some_bytes other).2⟩
    | some rc =>
      obtain ⟨ends, reported, sound⟩ := event
      refine Or.inr ⟨rc, _, [ch], text, rfl, ?_⟩
      refine ⟨rfl, rfl, ⟨buf, limit⟩, ⟨room, trivial⟩, ⟨later.holds.move rfl, later.within⟩, ?_, ?_, ?_, sound⟩
      · rw [limitedText, limitedText, reported, if_neg ends]
        cases rc with
        | ok => rfl
        | again => rfl
        | ssiError => rfl
      · exact fun again => absurd again ends
      · exact fun _ => ⟨List.cons_ne_nil ch [], rfl⟩

theorem resetCopy_core (ctx : Ctx) : (resetCopy ctx).core = ctx.core := by
  unfold resetCopy
  split
  · rfl
  · rfl

theorem clearSaved_core (ctx : Ctx) : (clearSaved ctx).core = ctx.core := by
  unfold clearSaved
  split
  · rfl
  · rfl

theorem resetCopy_bounds (ctx : Ctx) :
    (resetCopy (clearSaved ctx)).pos = ctx.pos ∧ (resetCopy (clearSaved ctx)).buf = ctx.buf ∧
      (resetCopy (clearSaved ctx)).valueLen = ctx.valueLen := by
  unfold resetCopy clearSaved
  split
  · split
    · exact ⟨rfl, rfl, rfl⟩
    · exact ⟨rfl, rfl, rfl⟩
  · split
    · exact ⟨rfl, rfl, rfl⟩
    · exact ⟨rfl, rfl, rfl⟩

theorem use_holds {use : PoolUse} {event : Event} (holds : Holds ctx reading) (start : ctx.state = .start) :
    Holds { ctx with store := use.work event ctx.store } reading := by
  have same : reading.goTo ctx.state = reading := by
    rw [holds.state]
    rfl
  rw [← same]
  refine outside_holds holds rfl ?_ (by rw [start]; rfl)
  intro place here
  obtain ⟨old, size⟩ := holds.valueBuf place here
  exact ⟨lt_of_lt_of_le old (use.grows event ctx.store), (use.sizes event ctx.store place old).trans size⟩

structure Called (ctx : Ctx) (reading : Reading) (text : List UInt8) (calls : List (Rc × Ctx)) (last : Ctx) :
    Prop where
  room : InRoom ctx.valueLen reading text
  held : Limited last (limitedText ctx.valueLen reading text).2
  limit : last.valueLen = ctx.valueLen
  events : calls.map (fun call => call.2.event call.1) = (limitedText ctx.valueLen reading text).1
  sound : ∀ call ∈ calls, Sound call.1 call.2

theorem bufferCalls_called {use : PoolUse} {fuel : Nat} (held : Limited ctx reading)
    (enough : ctx.buf.length - ctx.pos ≤ fuel) :
    bufferCalls use fuel ctx = none ∧ ¬InRoom ctx.valueLen reading (ctx.buf.drop ctx.pos) ∨
      ∃ calls last, bufferCalls use fuel ctx = some (calls, last) ∧
        Called ctx reading (ctx.buf.drop ctx.pos) calls last := by
  induction fuel generalizing ctx reading with
  | zero =>
    have nothing : ctx.buf.drop ctx.pos = [] := List.drop_eq_nil_of_le (by omega)
    rw [nothing]
    exact Or.inr ⟨[], ctx, rfl, trivial, held, rfl, rfl, fun call member => absurd member List.not_mem_nil⟩
  | succ fuel ih =>
    unfold bufferCalls
    by_cases more : ctx.pos < ctx.buf.length
    · rw [if_pos more]
      rcases @parseLoop_parsed ctx reading ctx.pos ctx.pos _ held with
        ⟨none_, outside⟩ | ⟨rc, after, taken, rest, looped, parsed⟩
      · exact Or.inl ⟨by rw [ngxHttpSsiParse, none_]; rfl, outside⟩
      rw [ngxHttpSsiParse, looped, Option.bind_some]
      have left : after.buf.drop after.pos = rest := by
        rw [parsed.same.1, parsed.pos, ← List.drop_drop, parsed.split, List.drop_left]
      have some_bytes : 0 < taken.length := by
        refine List.length_pos_iff.mpr ?_
        by_cases again : rc = .again
        · have whole := parsed.split
          rw [parsed.all again, List.append_nil] at whole
          exact fun none_ => absurd (List.drop_eq_nil_iff.mp (whole.trans none_)) (by omega)
        · exact (parsed.some_bytes again).1
      -- the next call begins behind what was taken
      have later (next : Ctx) (held : Limited next (limitedText ctx.valueLen reading taken).2)
          (same : next.pos = after.pos ∧ next.buf = after.buf ∧ next.valueLen = after.valueLen) :
          bufferCalls use fuel next = none ∧ ¬InRoom ctx.valueLen reading (ctx.buf.drop ctx.pos) ∨
            ∃ calls last, bufferCalls use fuel next = some (calls, last) ∧
              ∀ first : List (Rc × Ctx), (∀ call ∈ first, Sound call.1 call.2) →
                first.map (fun call => call.2.event call.1) = (limitedText ctx.valueLen reading taken).1 →
                Called ctx reading (ctx.buf.drop ctx.pos) (first ++ calls) last := by
        have reads := @ih next _ held (by rw [same.1, same.2.1, parsed.same.1, parsed.pos]; omega)
        rw [same.1, same.2.1, same.2.2, left, parsed.same.2] at reads
        rw [parsed.split, inRoom_append, and_iff_right parsed.room]
        rcases reads with outside | ⟨calls, last, called, result⟩
        · exact Or.inl outside
        refine Or.inr ⟨calls, last, called, fun first sound events => ?_⟩
        have limit := same.2.2.trans parsed.same.2
        refine ⟨inRoom_append.2 ⟨parsed.room, limit ▸ result.room⟩, ?_, result.limit.trans limit, ?_, ?_⟩
        · rw [limitedText_append]
          exact limit ▸ result.held
        · rw [List.map_append, events, limitedText_append]
          exact congrArg _ (limit ▸ result.events)
        · exact fun call member => (List.mem_append.1 member).elim (sound call) (result.sound call)
      obtain ⟨pos, buf, limit⟩ := resetCopy_bounds after
      have core := (resetCopy_core (clearSaved after)).trans (clearSaved_core after)
      have within := parsed.held.within
      rw [← limit] at within
      have moved := parsed.held.holds.move core
      dsimp only
      by_cases again : rc = .again
      · rw [if_pos again]
        rcases later _ ⟨moved, within⟩ ⟨pos, buf, limit⟩ with outside | ⟨calls, last, called, result⟩
        · exact Or.inl outside
        · exact Or.inr ⟨calls, last, called, result [] (by simp) (by rw [parsed.events, if_pos again]; rfl)⟩
      · rw [if_neg again]
        have start : (resetCopy (clearSaved after)).state = .start :=
          (congrArg Ctx.state core).trans (parsed.some_bytes again).2
        rcases later { resetCopy (clearSaved after) with
          store := use.work (after.event rc) (resetCopy (clearSaved after)).store }
          ⟨use_holds moved start, within⟩ ⟨pos, buf, limit⟩ with ⟨none_, outside⟩ | ⟨calls, last, called, result⟩
        · exact Or.inl ⟨by rw [none_]; rfl, outside⟩
        · refine Or.inr ⟨_, last, by rw [called, Option.map_some], ?_⟩
          exact result [(rc, after)] (by simpa using parsed.sound) (by rw [parsed.events, if_neg again]; rfl)
    · have nothing : ctx.buf.drop ctx.pos = [] := List.drop_eq_nil_of_le (by omega)
      rw [if_neg more, nothing]
      exact Or.inr ⟨[], ctx, rfl, trivial, held, rfl, rfl, fun call member => absurd member List.not_mem_nil⟩

theorem parseBuffer_called {use : PoolUse} (held : Limited ctx reading) (bytes : List UInt8) :
    parseBuffer use ctx bytes = none ∧ ¬InRoom ctx.valueLen reading bytes ∨
      ∃ calls last, parseBuffer use ctx bytes = some (calls, last) ∧ Called ctx reading bytes calls last := by
  have opened : ∃ parser, (let parser := { ctx with
      buf := bytes
      pos := 0 }
    if parser.state = .start then resetCopy parser else parser) = parser ∧
      parser.core = ctx.core ∧ parser.buf = bytes ∧ parser.pos = 0 ∧ parser.valueLen = ctx.valueLen := by
    refine ⟨_, rfl, ?_⟩
    dsimp only
    split
    · rename_i start
      unfold resetCopy
      rw [if_pos start]
      exact ⟨rfl, rfl, rfl, rfl⟩
    · exact ⟨rfl, rfl, rfl, rfl⟩
  obtain ⟨parser, opens, core, buf, pos, limit⟩ := opened
  have within := held.within
  rw [← limit] at within
  have result := @bufferCalls_called parser reading use bytes.length ⟨held.holds.move core, within⟩
    (by rw [buf, pos]; omega)
  rw [buf, pos, List.drop_zero, limit] at result
  unfold parseBuffer
  dsimp only at opens ⊢
  rw [opens]
  rcases result with ⟨none_, outside⟩ | ⟨calls, last, called, follows⟩
  · exact Or.inl ⟨by rw [none_]; rfl, outside⟩
  · rw [called]
    refine Or.inr ⟨calls, _, rfl, limit ▸ follows.room, ?_, follows.limit.trans limit, ?_, follows.sound⟩
    · exact ⟨(limit ▸ follows.held.holds).move rfl, (limit ▸ follows.held.within)⟩
    · exact limit ▸ follows.events

theorem parseBuffers_called {use : PoolUse} {bufs : List (List UInt8)} (held : Limited ctx reading) :
    parseBuffers use ctx bufs = none ∧ ¬InRoom ctx.valueLen reading bufs.flatten ∨
      ∃ calls, parseBuffers use ctx bufs = some calls ∧ InRoom ctx.valueLen reading bufs.flatten ∧
        calls.map (fun call => call.2.event call.1) = (limitedText ctx.valueLen reading bufs.flatten).1 ∧
        ∀ call ∈ calls, Sound call.1 call.2 := by
  induction bufs generalizing ctx reading with
  | nil => exact Or.inr ⟨[], rfl, trivial, rfl, fun call member => absurd member List.not_mem_nil⟩
  | cons bytes rest ih =>
    rw [parseBuffers, List.flatten_cons, inRoom_append, limitedText_append]
    rcases @parseBuffer_called _ _ use held bytes with ⟨none_, outside⟩ | ⟨first, middle, called, follows⟩
    · exact Or.inl ⟨by rw [none_]; rfl, fun fits => outside fits.1⟩
    have later := @ih middle _ follows.held
    rw [follows.limit] at later
    rw [called, Option.bind_some, and_iff_right follows.room]
    dsimp only
    rcases later with ⟨none_, outside⟩ | ⟨calls, parsed, fits, events, sound⟩
    · exact Or.inl ⟨by rw [none_]; rfl, outside⟩
    · refine Or.inr ⟨first ++ calls, by rw [parsed]; rfl, fits, ?_, ?_⟩
      · rw [List.map_append, follows.events, events]
      · exact fun call member => (List.mem_append.1 member).elim (follows.sound call) (sound call)

end Loop

theorem limited_init (store : Store) (valueLen : Nat) : Limited (Ctx.init store valueLen) Reading.init :=
  ⟨⟨rfl, rfl, fun quoted => absurd quoted (by decide), (fun place none => by cases none), trivial⟩, by decide,
    fun param member => absurd member List.not_mem_nil⟩

/-- However a body within the limits is cut into buffers, the results are those of the whole body: the
commands with their names, keys and parameters, and the errors. No two values of a command share
storage. -/
theorem parse_cut (use : PoolUse) (store : Store) (valueLen : Nat) (bufs : List (List UInt8))
    (keeps : KeepsLimits valueLen Reading.init bufs.flatten) :
    ∃ calls whole, parseBuffers use (Ctx.init store valueLen) bufs = some calls ∧
      parseBuffers use (Ctx.init store valueLen) [bufs.flatten] = some whole ∧
      calls.map (fun call => call.2.event call.1) = whole.map (fun call => call.2.event call.1) ∧
      ∀ call ∈ calls, call.1 = .ok → call.2.key = ngxHashKey (call.2.store.bytes call.2.command) ∧
        (call.2.params.map fun param => param.value.data).Nodup := by
  have single : [bufs.flatten].flatten = bufs.flatten := by
    rw [List.flatten_cons, List.flatten_nil, List.append_nil]
  have init := limited_init store valueLen
  have room := keeps.limited.1
  rcases @parseBuffers_called _ _ use bufs init with ⟨-, outside⟩ | ⟨calls, parsed, -, events, sound⟩
  · exact absurd room outside
  rcases @parseBuffers_called _ _ use [bufs.flatten] init with ⟨-, outside⟩ | ⟨whole, uncut, -, same, -⟩
  · exact absurd (single.symm ▸ room) outside
  refine ⟨calls, whole, parsed, uncut, ?_, sound⟩
  rw [events, same, single]

/-- `<!--#e v="a"-->`, in two buffers -/
theorem parse_cut_echo :
    let use : PoolUse := ⟨fun _ store => store, fun _ _ => Nat.le_refl _, fun _ _ _ _ => rfl⟩
    let ctx := Ctx.init ⟨0, fun _ => 0, fun _ _ => 0⟩ 256
    ∃ calls whole, parseBuffers use ctx [[0x3c, 0x21, 0x2d, 0x2d, 0x23, 0x65, 0x20, 0x76],
        [0x3d, 0x22, 0x61, 0x22, 0x2d, 0x2d, 0x3e]] = some calls ∧
      parseBuffers use ctx [[0x3c, 0x21, 0x2d, 0x2d, 0x23, 0x65, 0x20, 0x76, 0x3d, 0x22, 0x61, 0x22, 0x2d, 0x2d,
        0x3e]] = some whole ∧
      calls.map (fun call => call.2.event call.1) = whole.map (fun call => call.2.event call.1) ∧
      ∀ call ∈ calls, call.1 = .ok → call.2.key = ngxHashKey (call.2.store.bytes call.2.command) ∧
        (call.2.params.map fun param => param.value.data).Nodup :=
  parse_cut _ _ 256 [_, _] (by decide +kernel)

/-- For a body in any buffers every write is inside of what is allocated, exactly if no byte of the body overflows. -/
theorem ssi_writes_inside_iff (use : PoolUse) (store : Store) (valueLen : Nat) (bufs : List (List UInt8)) :
    (parseBuffers use (Ctx.init store valueLen) bufs).isSome ↔ InRoom valueLen Reading.init bufs.flatten := by
  rcases @parseBuffers_called _ _ use bufs (limited_init store valueLen) with
    ⟨none_, outside⟩ | ⟨calls, parsed, room, -⟩
  · rw [none_]
    exact iff_of_false Bool.false_ne_true outside
  · rw [parsed]
    exact iff_of_true rfl room

/-- `<!--#a`, and behind it a parameter name of 32 bytes and a dash -/
theorem ssi_write_outside :
    (parseBuffers ⟨fun _ store => store, fun _ _ => Nat.le_refl _, fun _ _ _ _ => rfl⟩
      (Ctx.init ⟨0, fun _ => 0, fun _ _ => 0⟩ 256)
      [[0x3c, 0x21, 0x2d, 0x2d, 0x23, 0x61, 0x20], List.replicate 32 0x62, [0x2d]]).isSome = false := by
  decide +kernel

end NgxFormal.Http.Ssi
