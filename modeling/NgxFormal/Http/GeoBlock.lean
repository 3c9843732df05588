import NgxFormal.Http.GeoDelete

/-! `ngx_http_geo_block` in both modes, and the pointers that its variables read through. -/

namespace NgxFormal.Http.Geo

open Lib Core.Radix

variable {V : Type}

/-- The lines of a block behind `ranges`. `base` is a binary base, which has no empty slot, and
`included` is the end of an included file. -/
inductive RangesLine (V : Type) where
  | default (value : V)
  | table (directive : Directive V)
  | base (slots : Nat → Option { list : List (GeoRange V) // list ≠ [] })
  | included

/-- The fields of `ngx_http_geo_conf_ctx_t` for the ranges; `low` is `none` for `NULL`. -/
structure RangesConf (V : Type) where
  defaultValue : Option V
  low : Option (Low V)
  binaryInclude : Bool
  outsideEntries : Bool

/-- `ngx_http_geo_range` and `ngx_http_geo_include`; `none` when the configuration is refused. -/
def ngxHttpGeoRange (conf : RangesConf V) : RangesLine V → Option (RangesConf V)
  | .default value => some { conf with defaultValue := some value }
  | .table directive =>
    if conf.binaryInclude then none
    else
      (perform (conf.low.getD emptyLow) directive).map fun low =>
        { conf with low := some low, outsideEntries := true }
  | .base slots =>
    if conf.outsideEntries ∨ conf.binaryInclude then none
    else some { conf with low := some fun h => (slots h).map Subtype.val, binaryInclude := true }
  | .included => some { conf with outsideEntries := false }

def emptyConf : RangesConf V := ⟨none, none, false, false⟩

/-- What the slots point to in the end: those of a binary base stay as they are. -/
def finishSlots (conf : RangesConf V) (low : Low V) : Nat → FinalSlot V :=
  if conf.binaryInclude then fun h => (low h).elim .null .ranges
  else ngxHttpGeoBlock low

/-- The handler of the variable, with its data. -/
inductive Handler where
  | cidr (tree : Tree)
  | range (defaultValue : Option Pointer) (slots : Nat → FinalSlot Pointer)

inductive Block where
  | cidr (directives : List CidrDirective)
  | ranges (lines : List (RangesLine Pointer))

/-- The whole block; `none` when it is refused. `geo->u.high` is a copy from before the missing
default is replaced. -/
def geoBlock (memory : Nat → Node) (pagesize : Nat) (nullValue : Pointer) : Block → Option Handler
  | .cidr directives =>
    (createPreallocated memory pagesize (-1)).bind fun t =>
      (run ngxHttpGeoCidr t directives).bind fun t => (finishTree nullValue t).map .cidr
  | .ranges lines =>
    (run ngxHttpGeoRange emptyConf lines).bind fun conf =>
      match conf.low with
      | some low => some (.range conf.defaultValue (finishSlots conf low))
      | none =>
        (createPreallocated memory pagesize (-1)).bind fun t =>
          (finishTree nullValue t).map .cidr

/-- `ngx_http_geo_cidr_variable` and `ngx_http_geo_range_variable`: the pointer that is read through.
`none` when it is `NULL`, `NGX_RADIX_NO_VALUE` or in an array that is no list of ranges. -/
def Handler.evaluate : Handler → BitVec 32 → Option Pointer
  | cidr tree, addr =>
    let value := ngxRadix32treeFind tree addr
    if real : value ≠ 0 ∧ value ≠ noValue then some ⟨value, real⟩ else none
  | range defaultValue slots, addr =>
    defaultValue.bind fun value => ngxHttpGeoRangeVariable slots value addr.toNat

def RangesLine.Gives : RangesLine V → V → Prop
  | default value, v => value = v
  | table (.add range), v => range.value = v
  | table (.delete _ _ _), _ => False
  | base slots, v => ∃ h list, slots h = some list ∧ ∃ range ∈ list.val, range.value = v
  | included, _ => False

/-- A line that makes the table of the slots. -/
def RangesLine.OnTable : RangesLine V → Prop
  | default _ => False
  | table _ => True
  | base _ => True
  | included => False

def Block.Configured : Block → Pointer → Prop
  | cidr directives, pointer => ∃ directive ∈ directives, directive.Gives pointer
  | ranges lines, pointer => ∃ line ∈ lines, line.Gives pointer

section Lines

variable {low low' : Low V} {holds : V → Prop}

/-- Every value in the slots satisfies a predicate. -/
def Labels (holds : V → Prop) (low : Low V) : Prop :=
  ∀ h a, low h = some a → ∀ range ∈ a, holds range.value

theorem scanSlot_values {h s e : Nat} {value : V} {before after a : List (GeoRange V)}
    (new : holds value) (old : ∀ range ∈ before ++ after, holds range.value)
    (done : scanSlot h s e value before after = .ok a) : ∀ range ∈ a, holds range.value := by
  induction before generalizing after with
  | nil =>
    obtain rfl := Except.ok.inj done
    intro range member
    rcases List.mem_append.mp member with there | here
    · exact old range there
    · rw [List.mem_singleton.mp here]
      exact new
  | cons first rest ih =>
    have here := old first (by simp)
    have others : ∀ range, range ∈ rest ∨ range ∈ after → holds range.value := by
      rintro range (there | there)
      · exact old range (List.mem_append_left _ (List.mem_cons_of_mem _ there))
      · exact old range (List.mem_append_right _ there)
    have replaced : ∀ mid : List (GeoRange V), (∀ range ∈ mid, holds range.value) →
        ∀ range ∈ rest.reverse ++ (mid ++ after), holds range.value := by
      intro mid each range member
      rcases List.mem_append.mp member with there | member
      · exact others range (Or.inl (List.mem_reverse.mp there))
      rcases List.mem_append.mp member with there | there
      · exact each range there
      · exact others range (Or.inr there)
    rw [scanSlot] at done
    split_ifs at done
    · refine ih ?_ done
      intro range member
      rcases List.mem_append.mp member with there | member
      · exact others range (Or.inl there)
      rcases List.mem_cons.mp member with rfl | there
      · exact here
      · exact others range (Or.inr there)
    · obtain rfl := Except.ok.inj done
      apply replaced [first, ⟨uShort s, uShort e, value⟩]
      simp [here, new]
    · obtain rfl := Except.ok.inj done
      apply replaced [{ first with value := value }]
      simp [new]
    · obtain rfl := Except.ok.inj done
      apply replaced [{ first with stop := uShort (s - 1) }, ⟨uShort s, uShort e, value⟩,
        { first with start := uShort (e + 1) }]
      simp [here, new]
    · obtain rfl := Except.ok.inj done
      apply replaced [⟨uShort s, uShort e, value⟩, { first with start := uShort (e + 1) }]
      simp [here, new]
    · obtain rfl := Except.ok.inj done
      apply replaced [{ first with stop := uShort (s - 1) }, ⟨uShort s, uShort e, value⟩]
      simp [here, new]

theorem Labels.write (labels : Labels holds low) {h : Nat} {a : List (GeoRange V)}
    (values : ∀ range ∈ a, holds range.value) :
    Labels holds fun slot => if slot = h then some a else low slot := by
  intro slot b stored range member
  dsimp only at stored
  split at stored
  · obtain rfl := Option.some.inj stored
    exact values range member
  · exact labels slot b stored range member

theorem addLoop_labels {start stop fuel n : Nat} {value : V} (labels : Labels holds low)
    (new : holds value) (done : addLoop start stop value fuel n low = some (.ok low')) :
    Labels holds low' := by
  induction fuel generalizing n low with
  | zero => cases done
  | succ fuel ih =>
    rw [addLoop] at done
    split at done
    · cases added : addSlot low (n >>> 16) (pieceStart start n) (pieceEnd stop n) value with
      | error overlap =>
        rw [added] at done
        cases done
      | ok next =>
        rw [added] at done
        obtain ⟨a, scanned, rfl⟩ := addSlot_ok added
        refine ih (labels.write (scanSlot_values new ?_ scanned)) done
        intro range member
        rw [List.append_nil, List.mem_reverse] at member
        cases old : low (n >>> 16) with
        | none =>
          rw [old] at member
          cases member
        | some b =>
          rw [old] at member
          exact labels _ b old range member
    · obtain rfl := Except.ok.inj (Option.some.inj done)
      exact labels

theorem deleteLoop_labels {start stop fuel n : Nat} {warn warn' : Bool} (labels : Labels holds low)
    (done : deleteLoop start stop fuel n low warn = some (low', warn')) : Labels holds low' := by
  induction fuel generalizing n low warn with
  | zero => cases done
  | succ fuel ih =>
    rw [deleteLoop] at done
    dsimp only at done
    split at done
    · cases slot : low (n >>> 16) with
      | none =>
        rw [slot] at done
        exact ih labels done
      | some a =>
        rw [slot] at done
        exact ih (labels.write fun range member =>
          labels _ a slot range (deleteSlot_subset range member)) done
    · cases done
      exact labels

theorem perform_labels {directive : Directive V} (labels : Labels holds low)
    (given : ∀ v, (RangesLine.table directive).Gives v → holds v)
    (performed : perform low directive = some low') : Labels holds low' := by
  cases directive with
  | add range =>
    have accepted : accept low range = some low' := performed
    rw [accept] at accepted
    split at accepted
    · rename_i added
      obtain rfl := Option.some.inj accepted
      exact addLoop_labels labels (given _ rfl) added
    · cases accepted
  | delete start stop ordered =>
    obtain ⟨⟨next, warn⟩, done, rfl⟩ := Option.map_eq_some_iff.mp performed
    exact deleteLoop_labels labels done

/-- What the lines read so far have made of the configuration. -/
structure Parsed (past : List (RangesLine V)) (conf : RangesConf V) : Prop where
  low : conf.low = none ↔ ∀ line ∈ past, ¬line.OnTable
  given : ∀ v, conf.defaultValue = some v → .default v ∈ past
  missing : conf.defaultValue = none → ∀ v, .default v ∉ past
  labels : ∀ low, conf.low = some low → Labels (fun v => ∃ line ∈ past, line.Gives v) low
  base : conf.binaryInclude = true → ∀ low, conf.low = some low → ∀ h, low h ≠ some []

theorem parsed_empty : Parsed ([] : List (RangesLine V)) emptyConf := by
  refine ⟨⟨fun _ line member => (List.not_mem_nil member).elim, fun _ => rfl⟩, ?_, ?_, ?_, ?_⟩
  · intro v absurd
    cases absurd
  · exact fun _ v => List.not_mem_nil
  · intro low absurd
    cases absurd
  · intro absurd
    cases absurd

theorem Labels.mono {other : V → Prop} (labels : Labels holds low) (weaker : ∀ v, holds v → other v) :
    Labels other low := fun h a stored range member => weaker _ (labels h a stored range member)

theorem Parsed.step {past : List (RangesLine V)} {conf next : RangesConf V} (parsed : Parsed past conf)
    {line : RangesLine V} (stepped : ngxHttpGeoRange conf line = some next) :
    Parsed (past ++ [line]) next := by
  obtain ⟨isLow, given, missing, labels, base⟩ := parsed
  have later : ∀ v, (∃ l ∈ past, l.Gives v) → ∃ l ∈ past ++ [line], l.Gives v := by
    rintro v ⟨l, member, gives⟩
    exact ⟨l, List.mem_append_left _ member, gives⟩
  have here : ∀ v, line.Gives v → ∃ l ∈ past ++ [line], l.Gives v := fun v gives =>
    ⟨line, List.mem_append_right _ List.mem_cons_self, gives⟩
  have lows : (∀ l ∈ past ++ [line], ¬l.OnTable) ↔ (∀ l ∈ past, ¬l.OnTable) ∧ ¬line.OnTable := by
    rw [List.forall_mem_append, List.forall_mem_singleton]
  have defaults : ∀ v, line ≠ .default v → (.default v ∈ past ++ [line] ↔ .default v ∈ past) := by
    intro v other
    simp [other.symm]
  cases line with
  | default value =>
    obtain rfl := Option.some.inj stepped
    refine ⟨?_, ?_, ?_, ?_, base⟩
    · rw [lows, isLow]
      exact ⟨fun none => ⟨none, id⟩, And.left⟩
    · intro v same
      obtain rfl := Option.some.inj same
      exact List.mem_append_right _ List.mem_cons_self
    · intro absurd
      cases absurd
    · exact fun low stored => (labels low stored).mono later
  | table directive =>
    rw [ngxHttpGeoRange] at stepped
    split at stepped
    · cases stepped
    · rename_i notBase
      obtain ⟨low, performed, rfl⟩ := Option.map_eq_some_iff.mp stepped
      refine ⟨?_, ?_, ?_, ?_, ?_⟩
      · rw [lows]
        constructor
        · intro absurd
          cases absurd
        · exact fun both => (both.2 trivial).elim
      · exact fun v same => List.mem_append_left _ (given v same)
      · exact fun none v member =>
          missing none v ((defaults v (fun absurd => by cases absurd)).mp member)
      · intro final same
        obtain rfl := Option.some.inj same
        refine perform_labels ?_ here performed
        cases old : conf.low with
        | none =>
          intro h a stored
          cases stored
        | some before => exact (labels before old).mono later
      · exact fun isBase => (notBase isBase).elim
  | base slots =>
    rw [ngxHttpGeoRange] at stepped
    split at stepped
    · cases stepped
    · obtain rfl := Option.some.inj stepped
      refine ⟨?_, ?_, ?_, ?_, ?_⟩
      · rw [lows]
        constructor
        · intro absurd
          cases absurd
        · exact fun both => (both.2 trivial).elim
      · exact fun v same => List.mem_append_left _ (given v same)
      · exact fun none v member =>
          missing none v ((defaults v (fun absurd => by cases absurd)).mp member)
      · intro final same
        obtain rfl := Option.some.inj same
        intro h a stored range member
        obtain ⟨list, slot, rfl⟩ := Option.map_eq_some_iff.mp stored
        exact here _ ⟨h, list, slot, range, member, rfl⟩
      · intro _ final same h stored
        obtain rfl := Option.some.inj same
        obtain ⟨list, _, empty⟩ := Option.map_eq_some_iff.mp stored
        exact list.property empty
  | included =>
    obtain rfl := Option.some.inj stepped
    refine ⟨?_, ?_, ?_, ?_, base⟩
    · rw [lows, isLow]
      exact ⟨fun none => ⟨none, id⟩, And.left⟩
    · exact fun v same => List.mem_append_left _ (given v same)
    · exact fun none v member =>
        missing none v ((defaults v (fun absurd => by cases absurd)).mp member)
    · exact fun low stored => (labels low stored).mono later

theorem parsed_run (lines : List (RangesLine V)) {conf : RangesConf V}
    (done : run ngxHttpGeoRange emptyConf lines = some conf) : Parsed lines conf := by
  have all := @run_history _ _ ngxHttpGeoRange (fun _ _ => True) Parsed lines
    (fun _ _ _ _ _ parsed _ stepped => parsed.step stepped) [] emptyConf parsed_empty conf
    (meets_of_prefixes _ _ fun _ _ _ _ _ _ => trivial) done
  exact all

theorem firstHit_label {ranges : List (GeoRange V)} {n : Nat} {value : V}
    (found : firstHit ranges n = some value) : ∃ range ∈ ranges, range.value = value := by
  induction ranges with
  | nil => cases found
  | cons first rest ih =>
    rw [firstHit_cons] at found
    split at found
    · exact ⟨first, List.mem_cons_self, Option.some.inj found⟩
    · obtain ⟨range, member, same⟩ := ih found
      exact ⟨range, List.mem_cons_of_mem _ member, same⟩

theorem finishSlots_cases (conf : RangesConf V) (low : Low V) (h : Nat) :
    (low h = some [] ∧ finishSlots conf low h = .array) ∨
      finishSlots conf low h = (low h).elim .null .ranges := by
  unfold finishSlots
  split
  · exact Or.inr rfl
  · unfold ngxHttpGeoBlock
    cases slot : low h with
    | none => exact Or.inr rfl
    | some list =>
      cases list with
      | nil => exact Or.inl ⟨rfl, rfl⟩
      | cons first rest => exact Or.inr rfl

theorem finishSlots_emptied {conf : RangesConf V} {low : Low V} {h : Nat}
    (ordinary : ¬conf.binaryInclude = true) (emptied : low h = some []) :
    finishSlots conf low h = .array := by
  rw [finishSlots, if_neg ordinary, ngxHttpGeoBlock, emptied]

end Lines

/-- The block leaves a value for every address: without ranges, no network has the address 0 or each
address has one; with ranges, there is a default and no slot has been emptied. -/
def Block.Served : Block → Prop
  | cidr directives => ¬Covers (networks directives) 0 ∨ ∀ addr, Covers (networks directives) addr
  | ranges lines =>
    (∀ line ∈ lines, ¬line.OnTable) ∨
      ((∃ v, .default v ∈ lines) ∧ ∀ conf low h, run ngxHttpGeoRange emptyConf lines = some conf →
        conf.low = some low → h < 0x10000 → low h ≠ some [])

/-- Every address evaluates to a configured value or the null value. -/
def Answers (block : Block) (nullValue : Pointer) (handler : Handler) : Prop :=
  ∀ addr, ∃ pointer, handler.evaluate addr = some pointer ∧
    (pointer = nullValue ∨ block.Configured pointer)

theorem evaluate_cidr (tree : Tree) (addr : BitVec 32) (pointer : Pointer) :
    (Handler.cidr tree).evaluate addr = some pointer ↔ ngxRadix32treeFind tree addr = pointer.val := by
  rw [Handler.evaluate]
  split
  · constructor
    · intro same
      exact congrArg Subtype.val (Option.some.inj same)
    · intro same
      exact congrArg some (Subtype.ext same)
  · rename_i unreal
    constructor
    · intro absurd
      cases absurd
    · intro same
      rw [same] at unreal
      exact (unreal pointer.property).elim

theorem cidr_answers_iff (memory : Nat → Node) (pagesize : Nat) (nullValue : Pointer)
    (directives : List CidrDirective) {t u : Tree}
    (configured : Pointer → Prop)
    (given : ∀ directive ∈ directives, ∀ pointer, directive.Gives pointer → configured pointer)
    (performed : ∃ s, createPreallocated memory pagesize (-1) = some s ∧
      run ngxHttpGeoCidr s directives = some t)
    (done : finishTree nullValue t = some u) :
    (∀ addr, ∃ pointer, (Handler.cidr u).evaluate addr = some pointer ∧
        (pointer = nullValue ∨ configured pointer)) ↔
      ¬Covers (networks directives) 0 ∨ ∀ addr, Covers (networks directives) addr := by
  obtain ⟨s, created, ran⟩ := performed
  obtain ⟨s', isCreated, stores⟩ := create_stores memory pagesize (-1)
  rw [created] at isCreated
  obtain rfl := Option.some.inj isCreated
  have nothing : Valued (fun _ => none) configured := fun e value absurd => by cases absurd
  rw [networks,
    ← finishTree_find_iff (run_stores directives stores ran) (nothing.networks directives given) done]
  constructor
  · intro all addr
    obtain ⟨pointer, found, ok⟩ := all addr
    exact ⟨pointer, ok, (evaluate_cidr u addr pointer).mp found⟩
  · intro all addr
    obtain ⟨pointer, ok, found⟩ := all addr
    exact ⟨pointer, (evaluate_cidr u addr pointer).mpr found, ok⟩

theorem covers_empty (addr : BitVec 32) : ¬Covers (fun _ => none) addr := by
  rintro ⟨n, _, absurd⟩
  cases absurd

theorem range_answers_iff (nullValue : Pointer) {lines : List (RangesLine Pointer)}
    {conf : RangesConf Pointer} {low : Low Pointer}
    (done : run ngxHttpGeoRange emptyConf lines = some conf) (stored : conf.low = some low) :
    Answers (.ranges lines) nullValue (.range conf.defaultValue (finishSlots conf low)) ↔
      (∃ v, .default v ∈ lines) ∧ ∀ h < 0x10000, low h ≠ some [] := by
  have parsed := parsed_run lines done
  constructor
  · intro answers
    constructor
    · obtain ⟨pointer, found, _⟩ := answers 0
      obtain ⟨value, isDefault, _⟩ := Option.bind_eq_some_iff.mp found
      exact ⟨value, parsed.given value isDefault⟩
    · intro h small emptied
      have ordinary : ¬conf.binaryInclude = true := fun isBase => parsed.base isBase low stored h emptied
      obtain ⟨pointer, found, _⟩ := answers (BitVec.ofNat 32 (h * 65536))
      obtain ⟨value, _, looked⟩ := Option.bind_eq_some_iff.mp found
      have slot : (BitVec.ofNat 32 (h * 65536)).toNat >>> 16 = h := by
        rw [BitVec.toNat_ofNat, Nat.mod_eq_of_lt (by omega), shiftRight_slot]
        omega
      rw [ngxHttpGeoRangeVariable, slot, finishSlots_emptied ordinary emptied] at looked
      cases looked
  · rintro ⟨⟨v, member⟩, filled⟩ addr
    cases isDefault : conf.defaultValue with
    | none => exact (parsed.missing isDefault v member).elim
    | some value =>
      have known : Block.Configured (.ranges lines) value :=
        ⟨.default value, parsed.given value isDefault, rfl⟩
      have small : addr.toNat >>> 16 < 0x10000 := by
        rw [shiftRight_slot]
        have word := addr.isLt
        omega
      rw [Handler.evaluate, Option.bind_some, ngxHttpGeoRangeVariable]
      rcases finishSlots_cases conf low (addr.toNat >>> 16) with ⟨emptied, _⟩ | slot
      · exact (filled _ small emptied).elim
      · rw [slot]
        cases array : low (addr.toNat >>> 16) with
        | none => exact ⟨value, rfl, Or.inr known⟩
        | some list =>
          refine ⟨_, rfl, Or.inr ?_⟩
          cases hit : firstHit list (addr.toNat &&& 0xffff) with
          | none => exact known
          | some label =>
            obtain ⟨range, inside, rfl⟩ := firstHit_label hit
            exact parsed.labels low stored _ list array range inside

/-- The variable of an accepted block has a value for every address exactly when the block is
served. -/
theorem geo_answers_iff (memory : Nat → Node) (pagesize : Nat) (nullValue : Pointer) (block : Block)
    (handler : Handler) (accepted : geoBlock memory pagesize nullValue block = some handler) :
    Answers block nullValue handler ↔ block.Served := by
  cases block with
  | cidr directives =>
    obtain ⟨s, created, accepted⟩ := Option.bind_eq_some_iff.mp accepted
    obtain ⟨t, ran, accepted⟩ := Option.bind_eq_some_iff.mp accepted
    obtain ⟨u, done, rfl⟩ := Option.map_eq_some_iff.mp accepted
    exact cidr_answers_iff memory pagesize nullValue directives _
      (fun directive member pointer gives => ⟨directive, member, gives⟩) ⟨s, created, ran⟩ done
  | ranges lines =>
    obtain ⟨conf, ran, accepted⟩ := Option.bind_eq_some_iff.mp accepted
    have parsed := parsed_run lines ran
    cases stored : conf.low with
    | none =>
      rw [stored] at accepted
      obtain ⟨s, created, accepted⟩ := Option.bind_eq_some_iff.mp accepted
      obtain ⟨u, done, rfl⟩ := Option.map_eq_some_iff.mp accepted
      have noTable := parsed.low.mp stored
      have all := (cidr_answers_iff memory pagesize nullValue []
        (Block.Configured (.ranges lines)) (fun _ member => (List.not_mem_nil member).elim)
        ⟨s, created, rfl⟩ done).mpr (Or.inl (covers_empty 0))
      exact ⟨fun _ => Or.inl noTable, fun _ => all⟩
    | some low =>
      rw [stored] at accepted
      obtain rfl := Option.some.inj accepted
      rw [range_answers_iff nullValue ran stored]
      have table : ¬∀ line ∈ lines, ¬line.OnTable := by
        intro none
        rw [parsed.low.mpr none] at stored
        cases stored
      constructor
      · rintro ⟨given, filled⟩
        refine Or.inr ⟨given, ?_⟩
        intro other slots h ran' stored' small
        rw [ran] at ran'
        obtain rfl := Option.some.inj ran'
        rw [stored] at stored'
        obtain rfl := Option.some.inj stored'
        exact filled h small
      · rintro (none | ⟨given, filled⟩)
        · exact (table none).elim
        · exact ⟨given, fun h small => filled conf low h ran stored small⟩

/-- `ranges; 0.0.0.10-0.0.0.20 v;` without a default: its variable reads through `NULL`. -/
theorem geo_without_default :
    ¬∀ (memory : Nat → Node) (pagesize : Nat) (nullValue : Pointer) (block : Block)
      (handler : Handler), geoBlock memory pagesize nullValue block = some handler →
      Answers block nullValue handler := by
  intro all
  obtain ⟨conf, low, ran, stored, missing⟩ : ∃ conf low, run ngxHttpGeoRange emptyConf
      [.table (.add ⟨10, 20, (⟨16, by decide⟩ : Pointer), by decide⟩)] = some conf ∧
      conf.low = some low ∧ conf.defaultValue = none := ⟨_, _, rfl, rfl, rfl⟩
  have accepted : geoBlock (fun _ => ⟨0, 0, 0, 0⟩) 4096 ⟨8, by decide⟩
      (.ranges [.table (.add ⟨10, 20, ⟨16, by decide⟩, by decide⟩)]) =
      some (.range none (finishSlots conf low)) := by
    rw [geoBlock, ran, Option.bind_some, stored, missing]
  obtain ⟨pointer, found, _⟩ := all _ _ _ _ _ accepted 0
  cases found

/-- The same block with a default. -/
theorem geo_answers_default : ∃ handler, geoBlock (fun _ => ⟨0, 0, 0, 0⟩) 4096 ⟨8, by decide⟩
      (.ranges [.default ⟨24, by decide⟩, .table (.add ⟨10, 20, ⟨16, by decide⟩, by decide⟩)]) =
        some handler ∧
    Answers (.ranges [.default ⟨24, by decide⟩, .table (.add ⟨10, 20, ⟨16, by decide⟩, by decide⟩)])
      ⟨8, by decide⟩ handler := by
  obtain ⟨conf, low, ran, stored, slots⟩ : ∃ conf low, run ngxHttpGeoRange emptyConf
      [.default (⟨24, by decide⟩ : Pointer), .table (.add ⟨10, 20, ⟨16, by decide⟩, by decide⟩)] =
        some conf ∧
      conf.low = some low ∧ ∀ h, low h = if h = 0 then some [⟨10, 20, ⟨16, by decide⟩⟩] else none :=
    ⟨_, _, rfl, rfl, fun h => rfl⟩
  have accepted : geoBlock (fun _ => ⟨0, 0, 0, 0⟩) 4096 ⟨8, by decide⟩
      (.ranges [.default ⟨24, by decide⟩, .table (.add ⟨10, 20, ⟨16, by decide⟩, by decide⟩)]) =
      some (.range conf.defaultValue (finishSlots conf low)) := by
    rw [geoBlock, ran, Option.bind_some, stored]
  refine ⟨_, accepted, (geo_answers_iff _ _ _ _ _ accepted).mpr (Or.inr ⟨⟨_, List.mem_cons_self⟩, ?_⟩)⟩
  intro other slots' h ran' stored' _
  rw [ran] at ran'
  obtain rfl := Option.some.inj ran'
  rw [stored] at stored'
  obtain rfl := Option.some.inj stored'
  rw [slots]
  split
  · intro absurd
    cases absurd
  · intro absurd
    cases absurd

end NgxFormal.Http.Geo
