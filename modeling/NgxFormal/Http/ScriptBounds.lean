import NgxFormal.Http.Script
import Mathlib.Algebra.BigOperators.Intervals

/-! What the value codes write against what the start code reserved. -/

namespace NgxFormal.Http.Script

open NgxFormal.Core

/-- The length code that the compiler adds beside a value code. -/
def toLen : ValueCode → LenCode
  | .copy text => .copy text.length
  | .var name => .var name
  | .capture n => .capture n
  | .startArgs => .markArgs

def capturesOf : List ValueCode → List Nat
  | [] => []
  | .capture n :: codes => n :: capturesOf codes
  | _ :: codes => capturesOf codes

def literalLen : List ValueCode → Nat
  | [] => 0
  | .copy text :: codes => text.length + literalLen codes
  | _ :: codes => literalLen codes

theorem capturesOf_append (first second : List ValueCode) :
    capturesOf (first ++ second) = capturesOf first ++ capturesOf second := by
  induction first with
  | nil => rfl
  | cons code first ih => cases code <;> simp [capturesOf, ih]

theorem literalLen_append (first second : List ValueCode) :
    literalLen (first ++ second) = literalLen first + literalLen second := by
  induction first with
  | nil => simp [literalLen]
  | cons code first ih => cases code <;> simp [literalLen, ih, Nat.add_assoc]

section Compiled

/-- What the compiler keeps true of its two code arrays. -/
structure Parallel (withArgs : Bool) (sc : Compile) : Prop where
  lengths : sc.lengths = sc.values.map toLen
  size : sc.size = literalLen sc.values
  noVars : sc.varCount = 0 → ∀ name, .var name ∉ sc.values
  mask : sc.capturesMask = (capturesOf sc.values).reverse
  distinct : sc.dupCapture = false → (capturesOf sc.values).Nodup
  positive : ∀ n ∈ capturesOf sc.values, 1 ≤ n
  open_args : sc.compileArgs = true → .startArgs ∉ sc.values
  only_args : withArgs = false → sc.compileArgs = false ∧ .startArgs ∉ sc.values
  one_args : sc.values.count .startArgs ≤ 1

variable {withArgs : Bool} {sc : Compile}

theorem parallel_init : Parallel withArgs (Compile.init withArgs) where
  lengths := rfl
  size := rfl
  noVars := fun _ _ => List.not_mem_nil
  mask := rfl
  distinct := fun _ => List.nodup_nil
  positive := fun _ member => absurd member List.not_mem_nil
  open_args := fun _ => List.not_mem_nil
  only_args := fun none => ⟨none, List.not_mem_nil⟩
  one_args := Nat.zero_le 1

theorem Parallel.addCopyCode (parallel : Parallel withArgs sc) (args : Bool)
    (text : List UInt8) : Parallel withArgs (addCopyCode { sc with args := args } text) where
  lengths := by simp [Script.addCopyCode, parallel.lengths, toLen]
  size := by simp [Script.addCopyCode, parallel.size, literalLen_append, literalLen]
  noVars := fun none name => by simpa [Script.addCopyCode] using parallel.noVars none name
  mask := by simp [Script.addCopyCode, parallel.mask, capturesOf_append, capturesOf]
  distinct := fun once => by
    simpa [Script.addCopyCode, capturesOf_append, capturesOf] using parallel.distinct once
  positive := by simpa [Script.addCopyCode, capturesOf_append, capturesOf] using parallel.positive
  open_args := fun still => by simpa [Script.addCopyCode] using parallel.open_args still
  only_args := fun none => by simpa [Script.addCopyCode] using parallel.only_args none
  one_args := by simpa [Script.addCopyCode, List.count_append] using parallel.one_args

theorem Parallel.addVarCode (parallel : Parallel withArgs sc) (name : List UInt8) :
    Parallel withArgs (addVarCode sc name) where
  lengths := by simp [Script.addVarCode, parallel.lengths, toLen]
  size := by simp [Script.addVarCode, parallel.size, literalLen_append, literalLen]
  noVars := fun none => absurd none (Nat.succ_ne_zero _)
  mask := by simp [Script.addVarCode, parallel.mask, capturesOf_append, capturesOf]
  distinct := fun once => by
    simpa [Script.addVarCode, capturesOf_append, capturesOf] using parallel.distinct once
  positive := by simpa [Script.addVarCode, capturesOf_append, capturesOf] using parallel.positive
  open_args := fun still => by simpa [Script.addVarCode] using parallel.open_args still
  only_args := fun none => by simpa [Script.addVarCode] using parallel.only_args none
  one_args := by simpa [Script.addVarCode, List.count_append] using parallel.one_args

theorem Parallel.addCaptureCode (parallel : Parallel withArgs sc) {n : Nat} (group : 1 ≤ n) :
    Parallel withArgs (addCaptureCode sc n) where
  lengths := by simp [Script.addCaptureCode, parallel.lengths, toLen]
  size := by simp [Script.addCaptureCode, parallel.size, literalLen_append, literalLen]
  noVars := fun none name => by simpa [Script.addCaptureCode] using parallel.noVars none name
  mask := by simp [Script.addCaptureCode, parallel.mask, capturesOf_append, capturesOf]
  distinct := fun once => by
    simp only [Script.addCaptureCode, Bool.or_eq_false_iff] at once
    have fresh : n ∉ capturesOf sc.values := by simpa [parallel.mask] using once.2
    simp only [Script.addCaptureCode, capturesOf_append, capturesOf]
    rw [List.nodup_append]
    refine ⟨parallel.distinct once.1, by simp, ?_⟩
    rintro a inside b single rfl
    rw [List.mem_singleton] at single
    exact fresh (single ▸ inside)
  positive := by
    intro m member
    simp only [Script.addCaptureCode, capturesOf_append, capturesOf, List.mem_append,
      List.mem_singleton] at member
    rcases member with earlier | rfl
    · exact parallel.positive m earlier
    · exact group
  open_args := fun still => by simpa [Script.addCaptureCode] using parallel.open_args still
  only_args := fun none => by simpa [Script.addCaptureCode] using parallel.only_args none
  one_args := by simpa [Script.addCaptureCode, List.count_append] using parallel.one_args

theorem Parallel.addArgsCode (parallel : Parallel withArgs sc) (still : sc.compileArgs = true) :
    Parallel withArgs (addArgsCode sc) where
  lengths := by simp [Script.addArgsCode, parallel.lengths, toLen]
  size := by simp [Script.addArgsCode, parallel.size, literalLen_append, literalLen]
  noVars := fun none name => by simpa [Script.addArgsCode] using parallel.noVars none name
  mask := by simp [Script.addArgsCode, parallel.mask, capturesOf_append, capturesOf]
  distinct := fun once => by
    simpa [Script.addArgsCode, capturesOf_append, capturesOf] using parallel.distinct once
  positive := by simpa [Script.addArgsCode, capturesOf_append, capturesOf] using parallel.positive
  open_args := fun closed => Bool.noConfusion closed
  only_args := fun none => by
    have := (parallel.only_args none).1
    rw [still] at this
    cases this
  one_args := by
    have fresh := List.count_eq_zero.mpr (parallel.open_args still)
    simp [Script.addArgsCode, List.count_append, fresh]

theorem compileLoop_parallel {fuel : Nat} {source : List UInt8} {result : Compile}
    (parallel : Parallel withArgs sc) (compiled : compileLoop fuel source sc = some result) :
    Parallel withArgs result := by
  induction fuel generalizing source sc with
  | zero =>
    cases source with
    | nil =>
      rw [compileLoop, Option.some.injEq] at compiled
      rwa [← compiled]
    | cons ch source => cases compiled
  | succ fuel ih =>
    cases source with
    | nil =>
      rw [compileLoop, Option.some.injEq] at compiled
      rwa [← compiled]
    | cons ch source =>
      unfold compileLoop at compiled
      by_cases dollar : ch = chr '$'
      · rw [if_pos dollar] at compiled
        cases source with
        | nil => cases compiled
        | cons digit rest =>
          simp only at compiled
          by_cases group : chr '1' ≤ digit ∧ digit ≤ chr '9'
          · rw [if_pos group] at compiled
            have positive : 1 ≤ digitValue digit := by
              have low : (49 : Nat) ≤ digit.toNat := UInt8.le_iff_toNat_le.mp group.1
              rw [digitValue]
              omega
            exact ih (parallel.addCaptureCode positive) compiled
          · rw [if_neg group] at compiled
            split at compiled
            · cases compiled
            · exact ih (parallel.addVarCode _) compiled
      · rw [if_neg dollar] at compiled
        by_cases args : ch = chr '?' ∧ sc.compileArgs = true
        · rw [if_pos args] at compiled
          exact ih (parallel.addArgsCode args.2) compiled
        · rw [if_neg args] at compiled
          exact ih (parallel.addCopyCode _ _) compiled

end Compiled

/-- What a compiled replacement looks like to the codes that run it. -/
structure Compiled (code : RegexCode) : Prop where
  uri : code.uri = true
  size : code.size = literalLen code.values
  lengths : ∀ lengths, code.lengths = some lengths → lengths = code.values.map toLen
  plain : code.lengths = none →
    (∀ name, .var name ∉ code.values) ∧ (capturesOf code.values).Nodup
  positive : ∀ n ∈ capturesOf code.values, 1 ≤ n
  redirect : code.redirect = true → .startArgs ∉ code.values
  one_args : code.values.count .startArgs ≤ 1

theorem ngxHttpRewrite_compiled {replacement : List UInt8} {flag : RewriteFlag}
    {code : RegexCode} (compiled : ngxHttpRewrite replacement flag = some code) :
    Compiled code := by
  obtain ⟨sc, loop, rfl⟩ := Option.map_eq_some_iff.mp compiled
  have parallel := compileLoop_parallel parallel_init loop
  refine
    { uri := rfl
      size := parallel.size
      lengths := ?_
      plain := ?_
      positive := parallel.positive
      redirect := ?_
      one_args := parallel.one_args }
  · intro lengths given
    simp only at given
    split at given
    · cases given
    · rw [Option.some.injEq] at given
      rw [← given, parallel.lengths]
  · intro none
    simp only at none
    split at none
    · rename_i both
      exact ⟨parallel.noVars both.1, parallel.distinct (by simpa using both.2)⟩
    · cases none
  · intro redirect
    refine (parallel.only_args ?_).2
    rw [Bool.not_eq_false']
    exact redirect

section Sums

/-- What the codes write without any escape. -/
def plainSum (r : Request) : List ValueCode → Nat
  | [] => 0
  | .copy text :: codes => text.length + plainSum r codes
  | .var name :: codes => (r.variableText name).length + plainSum r codes
  | .capture n :: codes => r.captureLen n + plainSum r codes
  | .startArgs :: codes => plainSum r codes

/-- The bytes to be escaped in some captures. -/
def escapeSum (r : Request) (groups : List Nat) : Nat :=
  (groups.map fun n => ngxEscapeCount .args (r.captureText n)).sum

/-- The captures that are copied escaped: all of them if the engine is in the arguments
already, else those behind the `?`. -/
def escapedCaptures (inArgs : Bool) (codes : List ValueCode) : List Nat :=
  capturesOf (if inArgs then codes else codes.dropWhile (· != .startArgs))

def frontCaptures (codes : List ValueCode) : List Nat :=
  capturesOf (codes.takeWhile (· != .startArgs))

variable (r : Request)

theorem captureText_length (n : Nat) : (r.captureText n).length = r.captureLen n := by
  rw [Request.captureText, Request.captureLen]
  split
  · rename_i start stop found
    have inside := r.inside _ (List.mem_of_getElem? found)
    simp only at inside
    rw [List.length_take, List.length_drop]
    omega
  · rfl

/-- The growth of the output under escapes that are on from the start or from `?` on. -/
def escapeGrowth (inArgs : Bool) (codes : List ValueCode) : Nat :=
  if r.escapes then 2 * escapeSum r (escapedCaptures inArgs codes) else 0

theorem escapeGrowth_capture (inArgs : Bool) (n : Nat) (codes : List ValueCode) :
    escapeGrowth r inArgs (.capture n :: codes) =
      (if inArgs && r.escapes then 2 * ngxEscapeCount .args (r.captureText n) else 0) +
        escapeGrowth r inArgs codes := by
  cases inArgs with
  | false => simp [escapeGrowth, escapedCaptures]
  | true =>
    by_cases on : r.escapes = true
    · simp [escapeGrowth, escapedCaptures, capturesOf, escapeSum, on, Nat.mul_add]
    · simp [escapeGrowth, on]

theorem escapeGrowth_startArgs (inArgs : Bool) (codes : List ValueCode) :
    escapeGrowth r inArgs (.startArgs :: codes) = escapeGrowth r true codes := by
  cases inArgs <;> simp [escapeGrowth, escapedCaptures, capturesOf]

theorem escapeGrowth_other (inArgs : Bool) (code : ValueCode) (codes : List ValueCode)
    (args : code ≠ .startArgs) (capture : ∀ n, code ≠ .capture n) :
    escapeGrowth r inArgs (code :: codes) = escapeGrowth r inArgs codes := by
  cases code with
  | startArgs => exact absurd rfl args
  | capture n => exact absurd rfl (capture n)
  | copy text => cases inArgs <;> simp [escapeGrowth, escapedCaptures, capturesOf]
  | var name => cases inArgs <;> simp [escapeGrowth, escapedCaptures, capturesOf]

theorem values_length (codes : List ValueCode) (e : Engine) :
    (codes.foldl (valueCode r) e).out.length =
      e.out.length + plainSum r codes + escapeGrowth r (e.isArgs || e.quote) codes := by
  induction codes generalizing e with
  | nil => simp [plainSum, escapeGrowth, escapedCaptures, capturesOf, escapeSum]
  | cons code codes ih =>
    rw [List.foldl_cons, ih]
    cases code with
    | copy text =>
      rw [escapeGrowth_other r _ _ _ (by simp) (by simp)]
      simp only [valueCode, plainSum, List.length_append]
      omega
    | var name =>
      rw [escapeGrowth_other r _ _ _ (by simp) (by simp)]
      simp only [valueCode, plainSum, List.length_append]
      omega
    | capture n =>
      rw [escapeGrowth_capture, valueCode, plainSum]
      by_cases escaped : ((e.isArgs || e.quote) && r.escapes) = true
      · rw [if_pos escaped, if_pos escaped]
        simp only [List.length_append, ngxEscapeUri_length, captureText_length]
        omega
      · rw [if_neg escaped, if_neg escaped]
        simp only [List.length_append, captureText_length]
        omega
    | startArgs =>
      rw [escapeGrowth_startArgs]
      simp only [valueCode, plainSum, Bool.true_or]

theorem lengths_sum (quote : Bool) (codes : List ValueCode) (isArgs : Bool) (len : Nat) :
    lenLoop r quote (codes.map toLen) isArgs len =
      (len + plainSum r codes + escapeGrowth r (isArgs || quote) codes +
        codes.count .startArgs, isArgs || codes.contains .startArgs) := by
  induction codes generalizing isArgs len with
  | nil => simp [lenLoop, plainSum, escapeGrowth, escapedCaptures, capturesOf, escapeSum]
  | cons code codes ih =>
    cases code with
    | copy text =>
      rw [escapeGrowth_other r _ _ _ (by simp) (by simp), List.map_cons, lenLoop]
      simp only [toLen, lenCode, ih, plainSum, Nat.add_assoc]
      simp
    | var name =>
      rw [escapeGrowth_other r _ _ _ (by simp) (by simp), List.map_cons, lenLoop]
      simp only [toLen, lenCode, ih, plainSum, Nat.add_assoc]
      simp
    | capture n =>
      rw [escapeGrowth_capture, List.map_cons, lenLoop, toLen, lenCode]
      by_cases escaped : ((isArgs || quote) && r.escapes) = true
      · simp only [if_pos escaped, ih, plainSum]
        rw [Prod.mk.injEq]
        refine ⟨?_, by simp⟩
        simp only [List.count_cons_of_ne (by simp : ValueCode.capture n ≠ .startArgs)]
        omega
      · simp only [if_neg escaped, ih, plainSum]
        rw [Prod.mk.injEq]
        refine ⟨?_, by simp⟩
        simp only [List.count_cons_of_ne (by simp : ValueCode.capture n ≠ .startArgs)]
        omega
    | startArgs =>
      rw [escapeGrowth_startArgs, List.map_cons, lenLoop]
      simp only [toLen, lenCode, ih, plainSum]
      rw [Prod.mk.injEq]
      refine ⟨?_, by simp⟩
      rw [List.count_cons_self, Bool.true_or]
      omega

end Sums

end NgxFormal.Http.Script

/-! Exactly when the value codes stay inside the buffer of the start code. -/

namespace NgxFormal.Http.Script

open NgxFormal.Core

/-- What the start code adds for the arguments of the request. -/
def addedArgs (code : RegexCode) (r : Request) : Nat :=
  if code.addArgs && r.args.length != 0 then r.args.length + 1 else 0

/-- The lengths of the groups that the replacement does not use. -/
def unusedSum (r : Request) (codes : List ValueCode) : Nat :=
  (((List.range' 1 (r.captures.length - 1)).filter fun n => n ∉ capturesOf codes).map
    r.captureLen).sum

/-- The room for escaped captures. With length codes, those in front of the `?` are counted
without their escapes but copied with them; without length codes, the escapes of the whole URI
are counted once, however often the captures overlap. -/
def EscapeRoom (code : RegexCode) (r : Request) (isArgs : Bool) : Prop :=
  r.escapes = true →
    match code.lengths with
    | some _ => .startArgs ∈ code.values →
        2 * escapeSum r (frontCaptures code.values) ≤ 1 + addedArgs code r
    | none =>
      2 * escapeSum r (escapedCaptures (isArgs || code.redirect) code.values) ≤
        2 * ngxEscapeCount .args r.uri + unusedSum r code.values + addedArgs code r

section Room

variable {code : RegexCode} (r : Request)

theorem plainSum_noVars {codes : List ValueCode} (noVars : ∀ name, .var name ∉ codes) :
    plainSum r codes = literalLen codes + ((capturesOf codes).map r.captureLen).sum := by
  induction codes with
  | nil => rfl
  | cons code codes ih =>
    have rest := ih fun name member => noVars name (List.mem_cons_of_mem code member)
    cases code with
    | var name => exact absurd List.mem_cons_self (noVars name)
    | copy text =>
      simp only [plainSum, literalLen, capturesOf, rest]
      omega
    | startArgs => simp only [plainSum, literalLen, capturesOf, rest]
    | capture n =>
      simp only [plainSum, literalLen, capturesOf, rest, List.map_cons, List.sum_cons]
      omega

theorem captureLen_absent {n : Nat} (absent : r.captures.length ≤ n) : r.captureLen n = 0 := by
  rw [Request.captureLen, List.getElem?_eq_none absent]

theorem groups_sum {codes : List ValueCode} (distinct : (capturesOf codes).Nodup)
    (positive : ∀ n ∈ capturesOf codes, 1 ≤ n) :
    ((List.range' 1 (r.captures.length - 1)).map r.captureLen).sum =
      ((capturesOf codes).map r.captureLen).sum + unusedSum r codes := by
  have groups : (List.range' 1 (r.captures.length - 1)).Nodup := List.nodup_range'
  rw [unusedSum, ← List.sum_toFinset _ groups, ← List.sum_toFinset _ distinct,
    ← List.sum_toFinset _ (groups.filter _), List.toFinset_filter,
    ← Finset.sum_filter_add_sum_filter_not _ (fun n => n ∈ capturesOf codes)]
  congr 1
  · -- a used group behind the last capture has no length
    apply Finset.sum_subset_zero_on_sdiff
    · intro n member
      rw [Finset.mem_filter] at member
      exact List.mem_toFinset.mpr member.2
    · intro n member
      rw [Finset.mem_sdiff, List.mem_toFinset, Finset.mem_filter, List.mem_toFinset,
        List.mem_range'_1] at member
      apply captureLen_absent
      have low := positive n member.1
      by_contra inside
      exact member.2 ⟨by omega, member.1⟩
    · exact fun _ _ => rfl
  · apply Finset.sum_congr _ fun _ _ => rfl
    ext n
    simp

theorem escapeGrowth_front (codes : List ValueCode) :
    escapeGrowth r true codes =
      escapeGrowth r false codes +
        if r.escapes then 2 * escapeSum r (frontCaptures codes) else 0 := by
  by_cases on : r.escapes = true
  · have split : capturesOf codes = frontCaptures codes ++ escapedCaptures false codes := by
      rw [frontCaptures, escapedCaptures, if_neg Bool.false_ne_true, ← capturesOf_append,
        List.takeWhile_append_dropWhile]
    simp only [escapeGrowth, on, if_true]
    rw [escapedCaptures, if_pos rfl, split, escapeSum, List.map_append, List.sum_append]
    simp only [escapeSum]
    omega
  · simp [escapeGrowth, on]

theorem start_none (compiled : Compiled code) (noLengths : code.lengths = none) (e : Engine) :
    (ngxHttpScriptRegexStartCode code r e).bufLen =
      plainSum r code.values + unusedSum r code.values + addedArgs code r +
        (if !r.captures.isEmpty && r.escapes then 2 * ngxEscapeCount .args r.uri else 0) := by
  obtain ⟨noVars, distinct⟩ := compiled.plain noLengths
  have groups := groups_sum r distinct compiled.positive
  have plain := plainSum_noVars r noVars
  have size := compiled.size
  rw [ngxHttpScriptRegexStartCode, noLengths, addedArgs, compiled.uri, groups]
  simp only [Bool.true_and]
  split_ifs <;> omega

theorem start_some (compiled : Compiled code) {lengths : List LenCode}
    (given : code.lengths = some lengths) (e : Engine) :
    (ngxHttpScriptRegexStartCode code r e).bufLen =
        plainSum r code.values + escapeGrowth r code.redirect code.values +
          code.values.count .startArgs + addedArgs code r ∧
      (ngxHttpScriptRegexStartCode code r e).isArgs = code.values.contains .startArgs := by
  rw [ngxHttpScriptRegexStartCode, given, compiled.lengths lengths given]
  simp only [lengths_sum, Bool.false_or, addedArgs]
  refine ⟨?_, trivial⟩
  split_ifs <;> omega

theorem escapeSum_absent (absent : r.captures = []) (groups : List Nat) :
    escapeSum r groups = 0 := by
  rw [escapeSum, List.sum_eq_zero]
  intro count member
  obtain ⟨n, _, rfl⟩ := List.mem_map.mp member
  simp [Request.captureText, absent, ngxEscapeCount]

/-- The whole output against the buffer. -/
theorem rewrite_fits_iff (compiled : Compiled code) (e : Engine) :
    (runRewrite code r e).out.length ≤ (ngxHttpScriptRegexStartCode code r e).bufLen ↔
      EscapeRoom code r e.isArgs := by
  have empty : (ngxHttpScriptRegexStartCode code r e).out = [] := rfl
  have quote : (ngxHttpScriptRegexStartCode code r e).quote = code.redirect := rfl
  rw [runRewrite, values_length, empty, quote, List.length_nil, Nat.zero_add, EscapeRoom]
  cases noLengths : code.lengths with
  | none =>
    have isArgs : (ngxHttpScriptRegexStartCode code r e).isArgs = e.isArgs := by
      rw [ngxHttpScriptRegexStartCode, noLengths]
    rw [isArgs, start_none r compiled noLengths e, escapeGrowth]
    cases on : r.escapes with
    | false =>
      simp only [Bool.and_false, Bool.false_eq_true, if_false, false_implies, iff_true]
      omega
    | true =>
      by_cases absent : r.captures = []
      · simp only [escapeSum_absent r absent, if_true, true_implies]
        omega
      · have some_captures : (!r.captures.isEmpty && true) = true := by simp [absent]
        rw [if_pos some_captures, if_pos rfl]
        simp only [true_implies]
        omega
  | some lengths =>
    obtain ⟨bufLen, isArgs⟩ := start_some r compiled noLengths e
    rw [isArgs, bufLen]
    by_cases marked : .startArgs ∈ code.values
    · -- the mark turns the escapes on from the start of the value pass
      have once : code.values.count .startArgs = 1 := by
        have := List.count_pos_iff.mpr marked
        have := compiled.one_args
        omega
      have noRedirect : code.redirect = false := by
        by_contra redirect
        exact compiled.redirect (by simpa using redirect) marked
      have contains : code.values.contains .startArgs = true := by simpa using marked
      rw [contains, noRedirect, Bool.true_or, escapeGrowth_front r, once]
      cases on : r.escapes with
      | false =>
        simp only [Bool.false_eq_true, if_false, false_implies, iff_true]
        omega
      | true =>
        simp only [if_true, true_implies, marked]
        omega
    · have contains : code.values.contains .startArgs = false := by simpa using marked
      rw [contains, Bool.false_or]
      simp only [marked, false_implies, implies_true, iff_true]
      omega

theorem values_length_le {front codes : List ValueCode} (before : front <+: codes) (e : Engine) :
    (front.foldl (valueCode r) e).out.length ≤ (codes.foldl (valueCode r) e).out.length := by
  obtain ⟨rest, rfl⟩ := before
  rw [List.foldl_append, values_length r rest]
  omega

end Room

/-- A request for `/a%20b` under `rewrite ^/(.*)$`. -/
def spacedRequest : Request where
  uri := [chr '/', chr 'a', chr ' ', chr 'b']
  args := []
  quotedUri := true
  plusInUri := false
  captures := [(0, 4), (1, 4)]
  inside := by decide
  getVariable := fun _ => none

def freshEngine : Engine := ⟨false, false, 0, [], none⟩

/-- `/x?y=$1`: the capture stands behind the `?` and its escape is counted. -/
def behindArgs : RegexCode where
  lengths := none
  values := [.copy [chr '/', chr 'x'], .startArgs, .copy [chr 'y', chr '='], .capture 1]
  size := 4
  uri := true
  args := true
  addArgs := true
  redirect := false
  breakCycle := false

/-- `/$1?y=$v`: the length codes count the capture plain, the value codes copy it escaped. -/
def beforeArgs : RegexCode where
  lengths := some [.copy 1, .capture 1, .markArgs, .copy 2, .var [chr 'v']]
  values := [.copy [chr '/'], .capture 1, .startArgs, .copy [chr 'y', chr '='],
    .var [chr 'v']]
  size := 3
  uri := true
  args := true
  addArgs := true
  redirect := false
  breakCycle := false

end NgxFormal.Http.Script
