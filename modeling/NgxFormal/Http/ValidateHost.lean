import NgxFormal.Http.UriBytes
import Mathlib.Data.FinEnum

/-! `ngx_http_validate_host`: the length and the lower-case text of a host that selects a
virtual server. -/

namespace NgxFormal.Http.ValidateHost

/-- The locals of the loop. `last` is a `size_t` that is returned as an `ssize_t`: the -1 of
`last--` at zero is returned as -1. -/
structure Scan where
  last : Int
  dot : Bool
  alloc : Bool
  deriving DecidableEq, Repr

/-- The loop from index `i` on; `none` is `return 0`. -/
def scanHost (i : Nat) (scan : Scan) : List UInt8 → Option Scan
  | [] => some scan
  | ch :: h =>
    if ch = chr '.' then
      if scan.dot then none
      else scanHost (i + 1) { scan with dot := true } h
    else if ch = chr ':' then
      scanHost (i + 1) { scan with dot := false, last := i } h
    else if ngxPathSeparator ch || ch = 0 then none
    else if ch ≥ chr 'A' || ch < chr 'Z' then
      scanHost (i + 1) { scan with dot := false, alloc := true } h
    else scanHost (i + 1) { scan with dot := false } h

/-- The returned length, and the bytes behind `*host` up to it. `memory` says whether
`ngx_pnalloc` succeeds; for a length of -1 it never does. -/
def ngxHttpValidateHost (memory : Bool) (host : List UInt8) (alloc : Bool) : Int × List UInt8 :=
  match scanHost 0 ⟨host.length, false, alloc⟩ host with
  | none => (0, [])
  | some scan =>
    let last := if scan.dot then scan.last - 1 else scan.last
    if scan.alloc then
      if memory && last ≥ 0 then (last, (host.take last.toNat).map ngxTolower)
      else (-1, [])
    else (last, host.take last.toNat)

/-- A host name: not empty, without port and path bytes, every dot between two other bytes. -/
structure HostName where
  text : List UInt8
  nonempty : text ≠ []
  bytes : ∀ ch ∈ text, ch ≠ chr ':' ∧ ch ≠ chr '/' ∧ ch ≠ 0
  dots : text.IsChain fun a b => ¬ (a = chr '.' ∧ b = chr '.')
  first : text.head nonempty ≠ chr '.'
  last : text.getLast nonempty ≠ chr '.'

/-- What follows `:` in a host. -/
structure Port where
  text : List UInt8
  bytes : ∀ ch ∈ text, ch ≠ chr '.' ∧ ch ≠ chr ':'

def portText : Option Port → List UInt8
  | none => []
  | some port => chr ':' :: port.text

/-- A spelling of the host `h`: a dot may follow the name, and `:` with a port. -/
def spelling (h : HostName) (dot : Bool) (port : Option Port) : List UInt8 :=
  h.text ++ ((if dot then [chr '.'] else []) ++ portText port)

/-- Any byte sets `alloc`: the test of the source is `ch >= 'A' || ch < 'Z'`. -/
theorem alloc_any (ch : UInt8) : (ch ≥ chr 'A' || ch < chr 'Z') = true := by
  by_cases low : ch < chr 'Z'
  · simp [low]
  · have high : chr 'A' ≤ ch := by
      have le : chr 'Z' ≤ ch := UInt8.not_lt.mp low
      exact UInt8.le_trans (by decide) le
    simp [high]

theorem scanHost_append (i : Nat) (scan : Scan) (a b : List UInt8) :
    scanHost i scan (a ++ b) =
      (scanHost i scan a).bind fun next => scanHost (i + a.length) next b := by
  induction a generalizing i scan with
  | nil => rfl
  | cons ch a ih =>
    have count : i + (ch :: a).length = i + 1 + a.length := by
      rw [List.length_cons]
      omega
    rw [count]
    simp only [List.cons_append, scanHost, ih]
    split_ifs <;> rfl

theorem scanHost_plain (i : Nat) (scan : Scan) (ch : UInt8) (h : List UInt8)
    (dot : ch ≠ chr '.') (colon : ch ≠ chr ':') (slash : ch ≠ chr '/') (nul : ch ≠ 0) :
    scanHost i scan (ch :: h) = scanHost (i + 1) { scan with dot := false, alloc := true } h := by
  have kept : ¬ ((ngxPathSeparator ch || decide (ch = 0)) = true) := by
    simp [ngxPathSeparator, slash, nul]
  rw [scanHost, if_neg dot, if_neg colon, if_neg kept, if_pos (alloc_any ch)]

/-- A name leaves `last` alone; induction on the name, with the byte before it for `dot`. -/
theorem scanHost_name (i : Nat) (last : Int) (before : UInt8) (h : List UInt8)
    (bytes : ∀ ch ∈ h, ch ≠ chr ':' ∧ ch ≠ chr '/' ∧ ch ≠ 0)
    (dots : (before :: h).IsChain fun a b => ¬ (a = chr '.' ∧ b = chr '.')) :
    scanHost i ⟨last, before = chr '.', true⟩ h =
      some ⟨last, (before :: h).getLast (List.cons_ne_nil _ _) = chr '.', true⟩ := by
  induction h generalizing i before with
  | nil => rfl
  | cons ch h ih =>
    obtain ⟨apart, rest⟩ := List.isChain_cons_cons.mp dots
    have inside := bytes ch List.mem_cons_self
    have others := fun c member => bytes c (List.mem_cons_of_mem _ member)
    have next := ih (i + 1) ch others rest
    rw [List.getLast_cons (List.cons_ne_nil _ _)]
    by_cases dot : ch = chr '.'
    · have single : before ≠ chr '.' := fun both => apart ⟨both, dot⟩
      simpa [scanHost, dot, single] using next
    · rw [scanHost_plain i _ ch h dot inside.1 inside.2.1 inside.2.2]
      simpa [dot] using next

theorem scanHost_port (i : Nat) (last : Int) (p : List UInt8)
    (bytes : ∀ ch ∈ p, ch ≠ chr '.' ∧ ch ≠ chr ':') :
    scanHost i ⟨last, false, true⟩ p =
      if ∀ ch ∈ p, ch ≠ chr '/' ∧ ch ≠ 0 then some ⟨last, false, true⟩ else none := by
  induction p generalizing i with
  | nil => simp [scanHost]
  | cons ch p ih =>
    have inside := bytes ch List.mem_cons_self
    have others := fun c member => bytes c (List.mem_cons_of_mem _ member)
    by_cases kept : ch ≠ chr '/' ∧ ch ≠ 0
    · rw [scanHost_plain i _ ch p inside.1 inside.2 kept.1 kept.2, ih (i + 1) others]
      simp only [List.forall_mem_cons, kept, ne_eq, not_false_eq_true, true_and, and_self]
    · have refused : (ngxPathSeparator ch || decide (ch = 0)) = true := by
        rw [not_and_or, not_not, not_not] at kept
        rw [ngxPathSeparator, Bool.or_eq_true, decide_eq_true_iff, decide_eq_true_iff]
        exact kept
      rw [scanHost, if_neg inside.1, if_neg inside.2, if_pos refused, if_neg]
      intro all
      exact kept (all ch List.mem_cons_self)

theorem scanHost_host (h : HostName) (last : Int) (alloc : Bool) :
    scanHost 0 ⟨last, false, alloc⟩ h.text = some ⟨last, false, true⟩ := by
  obtain ⟨text, nonempty, bytes, dots, first, final⟩ := h
  cases text with
  | nil => exact absurd rfl nonempty
  | cons ch rest =>
    have inside := bytes ch List.mem_cons_self
    have named := scanHost_name 1 last ch rest
      (fun c member => bytes c (List.mem_cons_of_mem _ member)) dots
    rw [scanHost_plain 0 _ ch rest first inside.1 inside.2.1 inside.2.2]
    rw [List.head_cons] at first
    simpa [first, final] using named

theorem scanHost_spelling (h : HostName) (dot : Bool) (port : Option Port) (alloc : Bool) :
    scanHost 0 ⟨(spelling h dot port).length, false, alloc⟩ (spelling h dot port) =
      match port with
      | none => some ⟨(spelling h dot port).length, dot, true⟩
      | some p =>
        if ∀ ch ∈ p.text, ch ≠ chr '/' ∧ ch ≠ 0 then
          some ⟨h.text.length + (if dot then 1 else 0), false, true⟩
        else none := by
  have colon : chr ':' ≠ chr '.' := by decide
  generalize (spelling h dot port).length = last
  rw [spelling, scanHost_append, scanHost_host, Option.bind_some, Nat.zero_add]
  cases port with
  | none => cases dot <;> simp [portText, scanHost]
  | some p =>
    cases dot with
    | false =>
      have port := scanHost_port (h.text.length + 1) h.text.length p.text p.bytes
      simpa [portText, scanHost, colon] using port
    | true =>
      have port := scanHost_port (h.text.length + 1 + 1) (h.text.length + 1) p.text p.bytes
      simpa [portText, scanHost, colon] using port

/-- Every spelling of `h` gives the length of `h` and lower-case `h`, if and only if it has
no dot before a port, and no byte in its port that no host may have. -/
theorem validate_host_iff (h : HostName) (dot : Bool) (port : Option Port) (alloc : Bool) :
    ngxHttpValidateHost true (spelling h dot port) alloc =
        ((h.text.length : Int), h.text.map ngxTolower) ↔
      ∀ p, port = some p → dot = false ∧ ∀ ch ∈ p.text, ch ≠ chr '/' ∧ ch ≠ 0 := by
  have long : 0 < h.text.length := List.length_pos_iff.mpr h.nonempty
  rw [ngxHttpValidateHost, scanHost_spelling]
  cases port with
  | none =>
    simp only [reduceCtorEq, false_implies, implies_true, iff_true]
    cases dot <;> simp [spelling, portText]
  | some p =>
    simp only [Option.some.injEq, forall_eq']
    by_cases kept : ∀ ch ∈ p.text, ch ≠ chr '/' ∧ ch ≠ 0
    · rw [if_pos kept]
      cases dot with
      | false =>
        have cut : (spelling h false (some p)).take h.text.length = h.text := by
          simp [spelling]
        simpa [cut] using kept
      | true =>
        refine iff_of_false (fun same => ?_) (fun both => by cases both.1)
        have longer := congrArg Prod.fst same
        rw [if_pos rfl] at longer
        simp only [Bool.false_eq_true, if_false, if_true, Bool.true_and] at longer
        rw [if_pos (by simp; omega)] at longer
        dsimp only at longer
        omega
    · rw [if_neg kept]
      refine iff_of_false (fun same => ?_) (fun both => kept both.2)
      have zero := congrArg Prod.fst same
      dsimp only at zero
      omega

/-- The host `a.` with the port 80: length 2, and the dot stays in the name. -/
theorem validate_host_dot_port :
    ∃ (h : HostName) (port : Port),
      ngxHttpValidateHost true (spelling h true (some port)) false ≠
        ((h.text.length : Int), h.text.map ngxTolower) ∧
      ngxHttpValidateHost true (spelling h true (some port)) false =
        (2, [chr 'a', chr '.']) :=
  ⟨⟨[chr 'a'], by decide +kernel, by decide +kernel, List.IsChain.singleton _, by decide +kernel, by decide +kernel⟩,
    ⟨[chr '8', chr '0'], by decide +kernel⟩, by decide +kernel, by decide +kernel⟩

end NgxFormal.Http.ValidateHost
