import NgxFormal.Http.ComplexValue

/-! What the engine makes of the two programs. -/

namespace NgxFormal.Http.Complex

open NgxFormal.Core

/-- The bytes of a piece, and the request behind its handler. -/
def Code.eval (env : Env) (r : Request) : Code → List UInt8 × Request
  | .copy text => (text, r)
  | .var index =>
    let (value, r) := ngxHttpGetIndexedVariable env r index
    (found value, r)
  | .capture n => (r.captureText (2 * n), r)

def evalCodes (env : Env) : List Code → Request → List (List UInt8) × Request
  | [], r => ([], r)
  | code :: codes, r =>
    let (text, r) := code.eval env r
    let (texts, r) := evalCodes env codes r
    (text :: texts, r)

/-- As `ngx_http_complex_value` sets the engine up. -/
structure Plain (e : Engine) : Prop where
  skip : e.skip = false
  isArgs : e.isArgs = false
  quote : e.quote = false
  flushed : e.flushed = true

section Words

variable {before after words : List Word} {word : Word} {ip : Nat}

theorem wordAt_append (here : ip = 8 * before.length) :
    wordAt (before ++ word :: after) ip = some word := by
  have whole : ip % 8 = 0 := by omega
  have place : ip / 8 = before.length := by omega
  rw [wordAt, if_pos whole, place]
  simp

theorem opAt_append {op : Op} (here : ip = 8 * before.length) :
    opAt (before ++ .op op :: after) ip = some op := by
  rw [opAt, wordAt_append here]
  rfl

theorem numAt_append {n : Nat} (here : ip = 8 * before.length) :
    numAt (before ++ word :: .num n :: after) (ip + 8) = some n := by
  have next : before ++ word :: .num n :: after = (before ++ [word]) ++ .num n :: after := by simp
  have place : ip + 8 = 8 * (before ++ [word]).length := by
    rw [List.length_append, List.length_singleton]
    omega
  rw [numAt, next, wordAt_append place]
  rfl

theorem textWords_length (text : List UInt8) :
    (textWords text).length = aligned text.length / 8 := by
  rw [textWords, List.length_map, List.length_range]

theorem textWords_bytes (text : List UInt8) : (textWords text).flatMap Word.bytes = text := by
  have pieces : ∀ n, ((List.range n).map fun i => Word.text ((text.drop (8 * i)).take 8)).flatMap
      Word.bytes = text.take (8 * n) := by
    intro n
    induction n with
    | zero => rfl
    | succ n ih =>
      rw [List.range_succ, List.map_append, List.flatMap_append, ih, List.map_singleton,
        List.flatMap_singleton, Word.bytes, Nat.mul_succ, List.take_add]
  rw [textWords, pieces]
  refine List.take_of_length_le ?_
  rw [aligned]
  omega

theorem textAt_append (text : List UInt8) (here : ip = 8 * before.length) :
    textAt (before ++ (textWords text ++ after)) ip text.length = some text := by
  have place : ip / 8 = before.length := by omega
  have whole : ip % 8 = 0 := by omega
  have count := textWords_length text
  rw [textAt, place, List.drop_left, ← count, List.take_left, textWords_bytes]
  exact if_pos ⟨whole, rfl⟩

end Words

section Codes

variable {env : Env} {before after : List Word} {code : Code} {codes : List Code} {e : Engine}

theorem Plain.escapes (plain : Plain e) : e.escapes = false := by
  rw [Engine.escapes, plain.isArgs, plain.quote]
  rfl

theorem Plain.getVariable (plain : Plain e) (index : Nat) :
    e.getVariable env index = ngxHttpGetIndexedVariable env e.request index :=
  if_pos plain.flushed

theorem lenCode_code (plain : Plain e) (here : e.ip = 8 * before.length) :
    lenCode env (before ++ (code.lengthWords ++ after)) e =
      some ((code.eval env e.request).1.length, { e with
        ip := 8 * (before ++ code.lengthWords).length
        request := (code.eval env e.request).2 }) := by
  have next : e.ip + 16 = 8 * (before ++ code.lengthWords).length := by
    cases code <;> simp [Code.lengthWords, here] <;> omega
  rw [lenCode, ← next]
  cases code with
  | copy text =>
    have op : opAt (before ++ (Code.lengthWords (.copy text) ++ after)) e.ip = some .copyLen :=
      opAt_append here
    have num : numAt (before ++ (Code.lengthWords (.copy text) ++ after)) (e.ip + 8) =
      some text.length := numAt_append here
    rw [op, num]
    rfl
  | var index =>
    have op : opAt (before ++ (Code.lengthWords (.var index) ++ after)) e.ip = some .varLen :=
      opAt_append here
    have num : numAt (before ++ (Code.lengthWords (.var index) ++ after)) (e.ip + 8) =
      some index := numAt_append here
    rw [op, num]
    dsimp only [Option.bind_eq_bind, Option.bind_some]
    rw [plain.getVariable]
    rfl
  | capture n =>
    have op : opAt (before ++ (Code.lengthWords (.capture n) ++ after)) e.ip = some .captureLen :=
      opAt_append here
    have num : numAt (before ++ (Code.lengthWords (.capture n) ++ after)) (e.ip + 8) =
      some (2 * n) := numAt_append here
    rw [op, num]
    dsimp only [Option.bind_eq_bind, Option.bind_some]
    rw [plain.escapes]
    rfl

theorem valueCode_code (plain : Plain e) (here : e.ip = 8 * before.length) :
    valueCode env (before ++ (code.valueWords ++ after)) e =
      some { e with
        ip := 8 * (before ++ code.valueWords).length
        out := e.out ++ (code.eval env e.request).1
        request := (code.eval env e.request).2 } := by
  rw [valueCode]
  cases code with
  | copy text =>
    have op : opAt (before ++ (Code.valueWords (.copy text) ++ after)) e.ip = some .copy :=
      opAt_append here
    have num : numAt (before ++ (Code.valueWords (.copy text) ++ after)) (e.ip + 8) =
      some text.length := numAt_append here
    have read : textAt (before ++ (Code.valueWords (.copy text) ++ after)) (e.ip + 16)
        text.length = some text := by
      have split : before ++ (Code.valueWords (.copy text) ++ after) =
          (before ++ [.op .copy, .num text.length]) ++ (textWords text ++ after) := by
        simp [Code.valueWords]
      rw [split]
      refine textAt_append text ?_
      rw [here, List.length_append]
      simp
      omega
    have next : e.ip + 16 + aligned text.length =
        8 * (before ++ Code.valueWords (.copy text)).length := by
      have count := textWords_length text
      have whole : aligned text.length / 8 * 8 = aligned text.length := by
        rw [aligned, Nat.mul_div_cancel _ (by decide)]
      simp only [Code.valueWords, List.length_append, List.length_cons, count, here]
      omega
    rw [op, num, ← next]
    dsimp only [Option.bind_eq_bind, Option.bind_some]
    rw [read, plain.skip]
    rfl
  | var index =>
    have op : opAt (before ++ (Code.valueWords (.var index) ++ after)) e.ip = some .var :=
      opAt_append here
    have num : numAt (before ++ (Code.valueWords (.var index) ++ after)) (e.ip + 8) =
      some index := numAt_append here
    have next : e.ip + 16 = 8 * (before ++ Code.valueWords (.var index)).length := by
      simp [Code.valueWords, here]
      omega
    rw [op, num, ← next]
    dsimp only [Option.bind_eq_bind, Option.bind_some]
    rw [plain.skip, if_neg Bool.false_ne_true, plain.getVariable]
    rfl
  | capture n =>
    have op : opAt (before ++ (Code.valueWords (.capture n) ++ after)) e.ip = some .capture :=
      opAt_append here
    have num : numAt (before ++ (Code.valueWords (.capture n) ++ after)) (e.ip + 8) =
      some (2 * n) := numAt_append here
    have next : e.ip + 16 = 8 * (before ++ Code.valueWords (.capture n)).length := by
      simp [Code.valueWords, here]
      omega
    rw [op, num, ← next]
    dsimp only [Option.bind_eq_bind, Option.bind_some]
    rw [plain.escapes]
    rfl

theorem codes_length_le (codes : List Code) :
    codes.length ≤ (codes.flatMap Code.lengthWords).length ∧
      codes.length ≤ (codes.flatMap Code.valueWords).length := by
  induction codes with
  | nil => exact ⟨Nat.le_refl 0, Nat.le_refl 0⟩
  | cons code codes ih =>
    rw [List.flatMap_cons, List.flatMap_cons, List.length_append, List.length_append,
      List.length_cons]
    cases code <;> simp only [Code.lengthWords, Code.valueWords, List.length_cons,
      List.length_nil] <;> omega

theorem lengthWords_op (code : Code) : opAt (before ++ (code.lengthWords ++ after))
    (8 * before.length) ≠ some .exit := by
  cases code with
  | copy text =>
    have op : opAt (before ++ (Code.lengthWords (.copy text) ++ after)) (8 * before.length) =
      some .copyLen := opAt_append rfl
    rw [op]
    decide
  | var index =>
    have op : opAt (before ++ (Code.lengthWords (.var index) ++ after)) (8 * before.length) =
      some .varLen := opAt_append rfl
    rw [op]
    decide
  | capture n =>
    have op : opAt (before ++ (Code.lengthWords (.capture n) ++ after)) (8 * before.length) =
      some .captureLen := opAt_append rfl
    rw [op]
    decide

theorem valueWords_op (code : Code) : opAt (before ++ (code.valueWords ++ after))
    (8 * before.length) ≠ some .exit := by
  cases code with
  | copy text =>
    have op : opAt (before ++ (Code.valueWords (.copy text) ++ after)) (8 * before.length) =
      some .copy := opAt_append rfl
    rw [op]
    decide
  | var index =>
    have op : opAt (before ++ (Code.valueWords (.var index) ++ after)) (8 * before.length) =
      some .var := opAt_append rfl
    rw [op]
    decide
  | capture n =>
    have op : opAt (before ++ (Code.valueWords (.capture n) ++ after)) (8 * before.length) =
      some .capture := opAt_append rfl
    rw [op]
    decide

theorem lenLoop_codes (fuel len : Nat) (plain : Plain e) (here : e.ip = 8 * before.length) :
    lenLoop env (before ++ (codes.flatMap Code.lengthWords ++ after)) (codes.length + fuel) e len =
      lenLoop env (before ++ (codes.flatMap Code.lengthWords ++ after)) fuel { e with
        ip := 8 * (before ++ codes.flatMap Code.lengthWords).length
        request := (evalCodes env codes e.request).2 }
        (len + ((evalCodes env codes e.request).1.map List.length).sum) := by
  induction codes generalizing e before len with
  | nil =>
    rw [List.flatMap_nil, List.append_nil, ← here, List.length_nil, Nat.zero_add]
    rfl
  | cons code codes ih =>
    have split : before ++ ((code :: codes).flatMap Code.lengthWords ++ after) =
        before ++ (code.lengthWords ++ (codes.flatMap Code.lengthWords ++ after)) := by
      rw [List.flatMap_cons, List.append_assoc]
    have shift : before ++ (code.lengthWords ++ (codes.flatMap Code.lengthWords ++ after)) =
        (before ++ code.lengthWords) ++ (codes.flatMap Code.lengthWords ++ after) :=
      (List.append_assoc ..).symm
    have stop : opAt (before ++ (code.lengthWords ++ (codes.flatMap Code.lengthWords ++ after)))
        e.ip ≠ some .exit := by
      rw [here]
      exact lengthWords_op code
    have count : (code :: codes).length + fuel = codes.length + fuel + 1 := by
      rw [List.length_cons]
      omega
    have kept : Plain { e with
        ip := 8 * (before ++ code.lengthWords).length
        request := (code.eval env e.request).2 } :=
      ⟨plain.skip, plain.isArgs, plain.quote, plain.flushed⟩
    rw [split, count, lenLoop, if_neg stop, lenCode_code plain here, Option.bind_some, shift]
    dsimp only
    rw [ih _ kept rfl, List.flatMap_cons, ← List.append_assoc before, Nat.add_assoc]
    rfl

theorem valueLoop_codes (fuel : Nat) (plain : Plain e) (here : e.ip = 8 * before.length) :
    valueLoop env (before ++ (codes.flatMap Code.valueWords ++ after)) (codes.length + fuel) e =
      valueLoop env (before ++ (codes.flatMap Code.valueWords ++ after)) fuel { e with
        ip := 8 * (before ++ codes.flatMap Code.valueWords).length
        out := e.out ++ (evalCodes env codes e.request).1.flatten
        request := (evalCodes env codes e.request).2 } := by
  induction codes generalizing e before with
  | nil =>
    rw [List.flatMap_nil, List.append_nil, ← here, List.length_nil, Nat.zero_add, evalCodes,
      List.flatten_nil, List.append_nil]
  | cons code codes ih =>
    have split : before ++ ((code :: codes).flatMap Code.valueWords ++ after) =
        before ++ (code.valueWords ++ (codes.flatMap Code.valueWords ++ after)) := by
      rw [List.flatMap_cons, List.append_assoc]
    have shift : before ++ (code.valueWords ++ (codes.flatMap Code.valueWords ++ after)) =
        (before ++ code.valueWords) ++ (codes.flatMap Code.valueWords ++ after) :=
      (List.append_assoc ..).symm
    have stop : opAt (before ++ (code.valueWords ++ (codes.flatMap Code.valueWords ++ after)))
        e.ip ≠ some .exit := by
      rw [here]
      exact valueWords_op code
    have count : (code :: codes).length + fuel = codes.length + fuel + 1 := by
      rw [List.length_cons]
      omega
    have kept : Plain { e with
        ip := 8 * (before ++ code.valueWords).length
        out := e.out ++ (code.eval env e.request).1
        request := (code.eval env e.request).2 } :=
      ⟨plain.skip, plain.isArgs, plain.quote, plain.flushed⟩
    rw [split, count, valueLoop, if_neg stop, valueCode_code plain here, Option.bind_some, shift]
    rw [ih kept rfl, List.flatMap_cons, ← List.append_assoc before, evalCodes, List.flatten_cons,
      List.append_assoc e.out]

end Codes

end NgxFormal.Http.Complex

/-! When the value of a string has the length that is written. -/

namespace NgxFormal.Http.Complex

open NgxFormal.Core

/-- The variables read the same in two passes. -/
def VariablesSame : List Code → List (List UInt8) → List (List UInt8) → Prop
  | .var _ :: codes, first :: firsts, second :: seconds =>
    first = second ∧ VariablesSame codes firsts seconds
  | _ :: codes, _ :: firsts, _ :: seconds => VariablesSame codes firsts seconds
  | _, _, _ => True

def captureBytes : List Code → List (List UInt8) → Nat
  | .capture _ :: codes, text :: texts => text.length + captureBytes codes texts
  | _ :: codes, _ :: texts => captureBytes codes texts
  | _, _ => 0

/-- The value has the length that is written, and the pieces one behind the other. -/
def Right (value : Buf) (texts : List (List UInt8)) (ends : List UInt8) : Prop :=
  value.len = value.bytes.length ∧ value.bytes = texts.flatten ++ ends

section Passes

variable {env : Env} {codes : List Code}

theorem evalCodes_cons (code : Code) (codes : List Code) (r : Request) :
    evalCodes env (code :: codes) r = ((code.eval env r).1 ::
      (evalCodes env codes (code.eval env r).2).1, (evalCodes env codes (code.eval env r).2).2) := rfl

theorem passes_length (r s : Request)
    (same : VariablesSame codes (evalCodes env codes r).1 (evalCodes env codes s).1) :
    ((evalCodes env codes r).1.map List.length).sum + captureBytes codes (evalCodes env codes s).1 =
      ((evalCodes env codes s).1.map List.length).sum +
        captureBytes codes (evalCodes env codes r).1 := by
  induction codes generalizing r s with
  | nil => rfl
  | cons code codes ih =>
    cases code with
    | copy text =>
      have rest := ih r s same
      simp only [evalCodes, Code.eval, captureBytes, List.map_cons, List.sum_cons]
      omega
    | var index =>
      rw [evalCodes_cons, evalCodes_cons] at same ⊢
      generalize (Code.var index).eval env r = first at same ⊢
      generalize (Code.var index).eval env s = second at same ⊢
      have rest := ih first.2 second.2 same.2
      have equal := congrArg List.length same.1
      simp only [captureBytes, List.map_cons, List.sum_cons]
      omega
    | capture n =>
      have rest := ih r s same
      simp only [evalCodes, Code.eval, captureBytes, List.map_cons, List.sum_cons]
      omega

theorem evalCodes_terminated (codes : List Code) (r : Request) :
    (evalCodes env (terminated codes) r).1.flatten = (evalCodes env codes r).1.flatten ++ [0] ∧
      (evalCodes env (terminated codes) r).2 = (evalCodes env codes r).2 := by
  induction codes generalizing r with
  | nil => exact ⟨rfl, rfl⟩
  | cons code codes ih =>
    by_cases more : codes ≠ [] ∨ ∀ text, code ≠ .copy text
    · rw [terminated_cons more, evalCodes, evalCodes]
      dsimp only
      obtain ⟨flat, request⟩ := ih (code.eval env r).2
      rw [List.flatten_cons, List.flatten_cons, flat, request, List.append_assoc]
      exact ⟨rfl, rfl⟩
    · push Not at more
      obtain ⟨none_, text, copied⟩ := more
      subst none_ copied
      exact ⟨by simp [terminated, evalCodes, Code.eval], rfl⟩

theorem sum_length (texts : List (List UInt8)) :
    (texts.map List.length).sum = texts.flatten.length := List.length_flatten.symm

end Passes

theorem complexValue_codes (env : Env) (r : Request) {cv : ComplexValue} {codes : List Code}
    (programs : cv.programs = some (codes.flatMap Code.lengthWords ++ [Word.op .exit],
      codes.flatMap Code.valueWords ++ [Word.op .exit])) :
    ngxHttpComplexValue env r cv =
      some (⟨(evalCodes env codes (evalCodes env codes (flushComplexValue r cv.flushes)).2).1.flatten,
        (evalCodes env codes (flushComplexValue r cv.flushes)).1.flatten.length⟩,
        (evalCodes env codes (evalCodes env codes (flushComplexValue r cv.flushes)).2).2) := by
  have plain : ∀ r, Plain (Engine.init r) := fun r => ⟨rfl, rfl, rfl, rfl⟩
  have lengths : ∀ r, lenLoop env (codes.flatMap Code.lengthWords ++ [Word.op .exit])
      ((codes.flatMap Code.lengthWords ++ [Word.op .exit]).length + 1) (Engine.init r) 0 =
        some ((evalCodes env codes r).1.flatten.length, { Engine.init r with
          ip := 8 * (codes.flatMap Code.lengthWords).length
          request := (evalCodes env codes r).2 }) := by
    intro r
    obtain ⟨more, fuel⟩ := Nat.exists_eq_add_of_le (codes_length_le codes).1
    have count : (codes.flatMap Code.lengthWords ++ [Word.op .exit]).length + 1 =
        codes.length + (more + 1 + 1) := by
      rw [List.length_append, fuel, List.length_singleton]
      omega
    have stop : opAt (codes.flatMap Code.lengthWords ++ [Word.op .exit])
        (8 * (codes.flatMap Code.lengthWords).length) = some .exit := opAt_append rfl
    have run := @lenLoop_codes env [] [Word.op .exit] codes _ (more + 1 + 1) 0 (plain r) rfl
    rw [List.nil_append, List.nil_append] at run
    rw [count, run, lenLoop, if_pos stop, Nat.zero_add, ← sum_length]
    rfl
  have values : ∀ r, valueLoop env (codes.flatMap Code.valueWords ++ [Word.op .exit])
      ((codes.flatMap Code.valueWords ++ [Word.op .exit]).length + 1) (Engine.init r) =
        some { Engine.init r with
          ip := 8 * (codes.flatMap Code.valueWords).length
          out := (evalCodes env codes r).1.flatten
          request := (evalCodes env codes r).2 } := by
    intro r
    obtain ⟨more, fuel⟩ := Nat.exists_eq_add_of_le (codes_length_le codes).2
    have count : (codes.flatMap Code.valueWords ++ [Word.op .exit]).length + 1 =
        codes.length + (more + 1 + 1) := by
      rw [List.length_append, fuel, List.length_singleton]
      omega
    have stop : opAt (codes.flatMap Code.valueWords ++ [Word.op .exit])
        (8 * (codes.flatMap Code.valueWords).length) = some .exit := opAt_append rfl
    have run := @valueLoop_codes env [] [Word.op .exit] codes _ (more + 1 + 1) (plain r) rfl
    rw [List.nil_append, List.nil_append] at run
    rw [count, run, valueLoop, if_pos stop]
    rfl
  rw [ngxHttpComplexValue, programs]
  dsimp only [Option.bind_eq_bind]
  rw [lengths, Option.bind_some]
  dsimp only
  have again : { Engine.init (flushComplexValue r cv.flushes) with
      ip := 0
      request := (evalCodes env codes (flushComplexValue r cv.flushes)).2 } =
        Engine.init (evalCodes env codes (flushComplexValue r cv.flushes)).2 := rfl
  rw [again, values]
  rfl

/-- The value of a string has the length that the value codes write, and its pieces in their order,
if and only if the captures have the same number of bytes in the two passes. -/
theorem complex_value_iff {cycle : Cycle} {index : List UInt8 → Option Nat} {zero : Bool}
    {v : List UInt8} {cv : ComplexValue}
    (compiled : ngxHttpCompileComplexValue cycle index ⟨zero, false, false⟩ v = .ok cv) :
    ∃ codes, Template index v codes ∧ ∀ env r, ∃ value last,
      ngxHttpComplexValue env r cv = some (value, last) ∧
      ∀ first second, first = evalCodes env codes (flushComplexValue r cv.flushes) →
        second = evalCodes env codes first.2 → VariablesSame codes first.1 second.1 →
        (Right value second.1 (if zero && v.contains (chr '$') then [0] else []) ↔
          captureBytes codes first.1 = captureBytes codes second.1) := by
  rw [ngxHttpCompileComplexValue] at compiled
  simp only [Bool.or_self, Bool.false_eq_true, and_false, if_false] at compiled
  split_ifs at compiled with empty literal
  · cases compiled
    have plain : v.contains (chr '$') = false := by simpa using literal
    have others : ∀ ch ∈ v, ch ≠ chr '$' := by
      intro ch member same
      rw [same] at member
      rw [List.contains_iff_mem.mpr member] at plain
      cases plain
    have template : Template index (v ++ []) [.copy v] := .text empty others (Or.inl rfl) .nil
    rw [List.append_nil] at template
    refine ⟨[.copy v], template, fun env r => ⟨⟨v, v.length⟩, r, rfl, ?_⟩⟩
    rintro first second rfl rfl _
    rw [plain, Bool.and_false, if_neg Bool.false_ne_true]
    exact iff_of_true ⟨rfl, by simp [evalCodes, Code.eval]⟩ rfl
  · have dollar : v.contains (chr '$') = true := by simpa using literal
    cases loop : compileLoop index v.length v (Compile.init zero) with
    | error error =>
      rw [ngxHttpScriptCompile, loop] at compiled
      cases compiled
    | ok sc =>
      rw [ngxHttpScriptCompile, loop] at compiled
      have built := Except.ok.inj compiled
      obtain ⟨codes, template, holds⟩ :=
        compileLoop_template loop (Nat.le_refl _) (init_holds zero)
      rw [List.nil_append] at holds
      have programs : cv.programs = some
          ((if zero then terminated codes else codes).flatMap Code.lengthWords ++ [Word.op .exit],
            (if zero then terminated codes else codes).flatMap Code.valueWords ++
              [Word.op .exit]) := by
        have lengths := holds.lengths
        have values := holds.values
        have same : (Compile.init zero).zero = zero := rfl
        rw [same] at lengths values
        rw [← built, ← lengths, ← values]
        rfl
      refine ⟨codes, template, fun env r => ?_⟩
      have terminates : ∀ s,
          (evalCodes env (if zero then terminated codes else codes) s).1.flatten =
            (evalCodes env codes s).1.flatten ++ (if zero then [0] else []) ∧
          (evalCodes env (if zero then terminated codes else codes) s).2 =
            (evalCodes env codes s).2 := by
        intro s
        cases zero with
        | false => exact ⟨(List.append_nil _).symm, rfl⟩
        | true => exact evalCodes_terminated codes s
      refine ⟨_, _, complexValue_codes env r programs, ?_⟩
      rintro first second rfl rfl same
      rw [dollar, Bool.and_true, (terminates _).1, (terminates _).1, (terminates _).2]
      have passes := passes_length _ _ same
      rw [sum_length, sum_length] at passes
      constructor
      · rintro ⟨length, _⟩
        simp only [List.length_append] at length
        omega
      · intro agree
        refine ⟨?_, rfl⟩
        simp only [List.length_append]
        omega

def onlyVariable (name : List UInt8) (known : List UInt8) : Option Nat :=
  if known = name then some 0 else none

theorem complex_value_short : ∃ cv, ngxHttpCompileComplexValue ⟨[], []⟩
      (onlyVariable (Times.bytes "m")) ⟨false, false, false⟩ (Times.bytes "a$m$1") = .ok cv ∧
    ∃ codes, Template (onlyVariable (Times.bytes "m")) (Times.bytes "a$m$1") codes ∧
      ∀ env r, ∃ value last, ngxHttpComplexValue env r cv = some (value, last) ∧
        ∀ first second, first = evalCodes env codes (flushComplexValue r cv.flushes) →
          second = evalCodes env codes first.2 → VariablesSame codes first.1 second.1 →
          (Right value second.1 (if false && (Times.bytes "a$m$1").contains (chr '$') then [0] else []) ↔
            captureBytes codes first.1 = captureBytes codes second.1) :=
  ⟨_, rfl, complex_value_iff rfl⟩

/-- A handler that runs a regex, as that of `map` does: the value, and other captures. -/
def regexHandler (value : List UInt8) (captures : Captures) (index : Nat) (r : Request) :
    Bool × Request :=
  (true, { r.setVariable index (fun _ => ⟨value, true, false, false⟩) with captures := captures })

/-- `map` sets `$m`, of which the regex has no captures. -/
def mapEnv : Env :=
  ⟨⟨[], []⟩, 1, fun _ => false, regexHandler (Times.bytes "x") ⟨Times.bytes "q", [], by decide⟩⟩

/-- A request for `/abc` in `location ~ ^/(.*)`. -/
def mapRequest : Request :=
  ⟨[⟨[], false, false, false⟩], ⟨Times.bytes "/abc", [(0, 4), (1, 4)], by decide⟩, false, false⟩

/-- `$1$m` has a length of 4, of which one byte is written; `$m` is the same in both passes. -/
theorem complex_value_fails :
    ∃ cv last, ngxHttpCompileComplexValue ⟨[], []⟩ (onlyVariable (Times.bytes "m"))
        ⟨false, false, false⟩ (Times.bytes "$1$m") = .ok cv ∧
      ngxHttpComplexValue mapEnv mapRequest cv = some (⟨Times.bytes "x", 4⟩, last) ∧
      (evalCodes mapEnv [.capture 1, .var 0] mapRequest).1 = [Times.bytes "abc", Times.bytes "x"] ∧
      (evalCodes mapEnv [.capture 1, .var 0]
        (evalCodes mapEnv [.capture 1, .var 0] mapRequest).2).1 = [[], Times.bytes "x"] :=
  ⟨_, _, rfl, rfl, rfl, rfl⟩

end NgxFormal.Http.Complex
