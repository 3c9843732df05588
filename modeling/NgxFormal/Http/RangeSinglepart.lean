import NgxFormal.Core.Buf
import NgxFormal.Lib.Links

/-! `ngx_http_range_singlepart_body`: one range cut out of a body that arrives in chains of
buffers.

A chain link is a number, with its `next` pointer and its buffer; the buffers are edited in
place, and the chain for the next filter is linked through the pointer `ll`. -/

namespace NgxFormal.Http.RangeSinglepart

open NgxFormal.Core NgxFormal.Lib.Links NgxFormal.Lib.Window

/-- `ngx_http_range_t` as the header filter leaves it: `end` is the first byte behind it. -/
structure Range where
  start : Nat
  stop : Nat
  proper : start < stop

/-- `ctx->offset`, the chain links, and the locals `out` and `ll` (`none` for `&out`). -/
structure State where
  offset : Nat
  next : Nat → Option Nat
  buf : Nat → Buf
  out : Option Nat
  ll : Option Nat

def State.setBuf (s : State) (cl : Nat) (b : Buf) : State :=
  { s with buf := fun i => if i = cl then b else s.buf i }

/-- `*ll = cl` -/
def State.put (s : State) (cl : Nat) : State :=
  { s with
    out := (setTail s.out s.next s.ll (some cl)).1
    next := (setTail s.out s.next s.ll (some cl)).2 }

/-- `*ll = cl; ll = &cl->next` -/
def State.link (s : State) (cl : Nat) : State := { s.put cl with ll := some cl }

theorem link_offset (s : State) (cl : Nat) : (s.link cl).offset = s.offset := rfl

/-- `buf->file_pos += n` and `buf->pos += n`, where the buffer is. -/
def dropFront (b : Buf) (n : Nat) : Buf :=
  let b := if b.inFile then { b with filePos := b.filePos + n } else b
  if ngxBufInMemory b then { b with pos := b.pos + n } else b

/-- `buf->file_last -= n` and `buf->last -= n`, where the buffer is. -/
def dropBack (b : Buf) (n : Nat) : Buf :=
  let b := if b.inFile then { b with fileLast := b.fileLast - n } else b
  if ngxBufInMemory b then { b with last := b.last - n } else b

/-- `buf->file_pos = buf->file_last` and `buf->pos = buf->last`. -/
def skipped (b : Buf) : Buf :=
  let b := if b.inFile then { b with filePos := b.fileLast } else b
  { b with
    pos := b.last
    sync := true }

/-- The loop over the chain from `cl` on. `none` means that the fuel is spent. -/
def bodyLoop (range : Range) : Nat → Option Nat → State → Option State
  | _, none, s => some s
  | 0, some _, _ => none
  | fuel + 1, some cl, s =>
    let buf := s.buf cl
    let start := s.offset
    let last := s.offset + ngxBufSize buf
    let s := { s with offset := last }
    if ngxBufSpecial buf then
      let s := s.link cl
      bodyLoop range fuel (s.next cl) s
    else if range.stop ≤ start ∨ range.start ≥ last then
      let s := s.setBuf cl (skipped buf)
      bodyLoop range fuel (s.next cl) s
    else
      let buf := if range.start > start then dropFront buf (range.start - start) else buf
      if range.stop ≤ last then
        let buf := { dropBack buf (last - range.stop) with lastBuf := true }
        let s := (s.setBuf cl buf).put cl
        -- cl->next = NULL, and out of the loop
        some { s with next := fun i => if i = cl then none else s.next i }
      else
        let s := (s.setBuf cl buf).link cl
        bodyLoop range fuel (s.next cl) s

/-- The chain that one call gets: its links from `first` on, each with a buffer that holds
some bytes of the body. -/
structure Call where
  next : Nat → Option Nat
  buf : Nat → Buf
  first : Option Nat
  links : List Nat
  bytes : Nat → List UInt8
  follows : Follows next first links
  holds : ∀ i ∈ links, Holds (buf i) (bytes i)

/-- The part of the body that comes with a call. -/
def Call.body (call : Call) : List UInt8 := call.links.flatMap call.bytes

def ngxHttpRangeSinglepartBody (range : Range) (offset : Nat) (call : Call) : Option State :=
  bodyLoop range call.links.length call.first
    { offset := offset
      next := call.next
      buf := call.buf
      out := none
      ll := none }

/-- The chain in `out` holds `bytes`. For an `out` that is `NULL` the next filter is not called,
and there are no bytes. -/
def Passes (s : State) (bytes : List UInt8) : Prop :=
  ∃ links, Follows s.next s.out links ∧
    ∃ data : Nat → List UInt8, (∀ i ∈ links, Holds (s.buf i) (data i)) ∧
      links.flatMap data = bytes

/-- The calls for one response in their order. -/
def runCalls (range : Range) : Nat → List Call → Option (List State)
  | _, [] => some []
  | offset, call :: calls =>
    (ngxHttpRangeSinglepartBody range offset call).bind fun s =>
      (runCalls range s.offset calls).map (s :: ·)

/-- The bytes of `data` inside the range, when `data` starts at `offset`. -/
def clip (range : Range) (offset : Nat) (data : List UInt8) : List UInt8 :=
  (data.take (range.stop - offset)).drop (range.start - offset)

theorem clip_append (range : Range) (offset : Nat) (a b : List UInt8) :
    clip range offset (a ++ b) = clip range offset a ++ clip range (offset + a.length) b := by
  rw [clip, clip, clip, List.take_append, List.drop_append, Nat.sub_sub, List.length_take]
  by_cases whole : a.length ≤ range.stop - offset
  · rw [Nat.min_eq_right whole, Nat.sub_sub]
  · have nothing : range.stop - (offset + a.length) = 0 := by omega
    have nothing' : range.stop - offset - a.length = 0 := by omega
    rw [nothing, nothing', List.take_zero, List.drop_nil, List.drop_nil]

theorem clip_behind (range : Range) (offset : Nat) (data : List UInt8)
    (behind : range.stop ≤ offset) : clip range offset data = [] := by
  rw [clip, Nat.sub_eq_zero_of_le behind, List.take_zero, List.drop_nil]

theorem clip_before (range : Range) (offset : Nat) (data : List UInt8)
    (before : offset + data.length ≤ range.start) : clip range offset data = [] := by
  rw [clip]
  apply List.drop_eq_nil_of_le
  rw [List.length_take]
  omega

section Buffers

variable {b : Buf} {data : List UInt8}

theorem holds_dropFront (holds : Holds b data) (n : Nat) (room : n ≤ data.length) :
    Holds (dropFront b n) (data.drop n) := by
  have memory : ngxBufInMemory (dropFront b n) = ngxBufInMemory b := by
    rw [dropFront]
    split_ifs <;> rfl
  have file : (dropFront b n).inFile = b.inFile := by
    rw [dropFront]
    split_ifs <;> rfl
  constructor
  · intro here
    rw [memory] at here
    obtain ⟨le, bytes⟩ := holds.inMemory here
    have width := congrArg List.length bytes
    rw [window_length] at width
    have moved : (dropFront b n).pos = b.pos + n ∧ (dropFront b n).last = b.last ∧
        (dropFront b n).mem = b.mem := by
      rw [dropFront]
      split_ifs <;> simp_all [ngxBufInMemory]
    rw [moved.1, moved.2.1, moved.2.2, ← window_drop (by omega), bytes]
    exact ⟨by omega, rfl⟩
  · intro here
    rw [file] at here
    obtain ⟨le, bytes⟩ := holds.inFile here
    have width := congrArg List.length bytes
    rw [window_length] at width
    have moved : (dropFront b n).filePos = b.filePos + n ∧
        (dropFront b n).fileLast = b.fileLast ∧ (dropFront b n).file = b.file := by
      rw [dropFront]
      split_ifs <;> simp
    rw [moved.1, moved.2.1, moved.2.2, ← window_drop (by omega), bytes]
    exact ⟨by omega, rfl⟩
  · intro noMemory noFile
    rw [memory] at noMemory
    rw [file] at noFile
    obtain ⟨same, rfl⟩ := holds.nowhere noMemory noFile
    have untouched : dropFront b n = b := by simp [dropFront, noMemory, noFile]
    rw [untouched]
    exact ⟨same, List.drop_nil⟩

theorem holds_dropBack (holds : Holds b data) (n : Nat) (room : n ≤ data.length) :
    Holds (dropBack b n) (data.take (data.length - n)) := by
  have memory : ngxBufInMemory (dropBack b n) = ngxBufInMemory b := by
    rw [dropBack]
    split_ifs <;> rfl
  have file : (dropBack b n).inFile = b.inFile := by
    rw [dropBack]
    split_ifs <;> rfl
  constructor
  · intro here
    rw [memory] at here
    obtain ⟨le, bytes⟩ := holds.inMemory here
    have width := congrArg List.length bytes
    rw [window_length] at width
    have moved : (dropBack b n).pos = b.pos ∧
        (dropBack b n).last = b.pos + (data.length - n) ∧ (dropBack b n).mem = b.mem := by
      have place : b.last - n = b.pos + (data.length - n) := by omega
      rw [← place, dropBack]
      split_ifs <;> simp_all [ngxBufInMemory]
    have cut : window b.mem b.pos (b.pos + (data.length - n)) =
        (window b.mem b.pos b.last).take (data.length - n) := (window_take (by omega)).symm
    rw [moved.1, moved.2.1, moved.2.2, cut, bytes]
    exact ⟨by omega, rfl⟩
  · intro here
    rw [file] at here
    obtain ⟨le, bytes⟩ := holds.inFile here
    have width := congrArg List.length bytes
    rw [window_length] at width
    have moved : (dropBack b n).filePos = b.filePos ∧
        (dropBack b n).fileLast = b.filePos + (data.length - n) ∧
        (dropBack b n).file = b.file := by
      have place : b.fileLast - n = b.filePos + (data.length - n) := by omega
      rw [← place, dropBack]
      split_ifs <;> simp
    have cut : window b.file b.filePos (b.filePos + (data.length - n)) =
        (window b.file b.filePos b.fileLast).take (data.length - n) :=
      (window_take (by omega)).symm
    rw [moved.1, moved.2.1, moved.2.2, cut, bytes]
    exact ⟨by omega, rfl⟩
  · intro noMemory noFile
    rw [memory] at noMemory
    rw [file] at noFile
    obtain ⟨same, rfl⟩ := holds.nowhere noMemory noFile
    have untouched : dropBack b n = b := by simp [dropBack, noMemory, noFile]
    rw [untouched]
    exact ⟨same, List.take_nil⟩

theorem holds_skipped (holds : Holds b data) : Holds (skipped b) [] := by
  have memory : ngxBufInMemory (skipped b) = ngxBufInMemory b := by
    rw [skipped]
    split_ifs <;> rfl
  have file : (skipped b).inFile = b.inFile := by
    rw [skipped]
    split_ifs <;> rfl
  constructor
  · intro _
    have stand : (skipped b).pos = (skipped b).last := by
      rw [skipped]
    rw [stand]
    exact ⟨le_refl _, window_empty (le_refl _)⟩
  · intro here
    rw [file] at here
    have stand : (skipped b).filePos = (skipped b).fileLast := by simp [skipped, here]
    rw [stand]
    exact ⟨le_refl _, window_empty (le_refl _)⟩
  · intro noMemory noFile
    rw [memory] at noMemory
    rw [file] at noFile
    have stand : (skipped b).filePos = b.filePos ∧ (skipped b).fileLast = b.fileLast := by
      simp [skipped, noFile]
    rw [stand.1, stand.2]
    exact ⟨(holds.nowhere noMemory noFile).1, rfl⟩

theorem holds_lastBuf (holds : Holds b data) : Holds { b with lastBuf := true } data :=
  ⟨holds.inMemory, holds.inFile, holds.nowhere⟩

end Buffers

/-- The state of the loop: `kept` is the chain built so far, its pointer `*ll` leads over the
links `gone`, which hold nothing, to those that are left, and the chain holds `bytes`. -/
structure Going (s : State) (kept gone left : List Nat) (cl : Option Nat)
    (data : Nat → List UInt8) (bytes : List UInt8) : Prop where
  ahead : Follows s.next cl left
  built : ∃ stop, Leads s.next s.out kept stop ∧
    (kept = [] → stop = none) ∧ (kept ≠ [] → Follows s.next stop (gone ++ left))
  tail : s.ll = kept.getLast?
  distinct : (kept ++ (gone ++ left)).Nodup
  holds : ∀ i ∈ kept ++ (gone ++ left), Holds (s.buf i) (data i)
  empty : ∀ i ∈ gone, data i = []
  total : kept.flatMap data = bytes

section Steps

variable {s : State} {kept gone rest : List Nat} {i : Nat} {data : Nat → List UInt8}
  {bytes : List UInt8}

/-- The bytes with those of link `i` replaced. -/
def replace (data : Nat → List UInt8) (i : Nat) (bytes : List UInt8) : Nat → List UInt8 :=
  fun j => if j = i then bytes else data j

theorem flatMap_replace {links : List Nat} (outside : i ∉ links) (d : List UInt8) :
    links.flatMap (replace data i d) = links.flatMap data := by
  apply List.flatMap_congr
  intro j member
  exact if_neg fun (same : j = i) => outside (same ▸ member)

theorem Going.offset {cl : Option Nat} {left : List Nat}
    (going : Going s kept gone left cl data bytes) (n : Nat) :
    Going { s with offset := n } kept gone left cl data bytes :=
  ⟨going.ahead, going.built, going.tail, going.distinct, going.holds, going.empty, going.total⟩

theorem Going.setBuf (going : Going s kept gone (i :: rest) (some i) data bytes) {b : Buf}
    {d : List UInt8} (holds : Holds b d) :
    Going (s.setBuf i b) kept gone (i :: rest) (some i) (replace data i d) bytes := by
  have parts := List.nodup_append.mp going.distinct
  have later := List.nodup_append.mp parts.2.1
  have here : i ∈ gone ++ i :: rest := List.mem_append_right gone List.mem_cons_self
  have outKept : i ∉ kept := fun member => parts.2.2 i member i here rfl
  have outGone : i ∉ gone := fun member => later.2.2 i member i List.mem_cons_self rfl
  constructor
  · exact going.ahead
  · exact going.built
  · exact going.tail
  · exact going.distinct
  · intro j member
    by_cases same : j = i
    · simp only [State.setBuf, replace, if_pos same]
      exact holds
    · simp only [State.setBuf, replace, if_neg same]
      exact going.holds j member
  · intro j member
    exact (if_neg fun (same : j = i) => outGone (same ▸ member)).trans (going.empty j member)
  · rw [flatMap_replace outKept, going.total]

theorem Going.put (going : Going s kept gone (i :: rest) (some i) data bytes) :
    Leads (s.put i).next (s.put i).out kept (some i) ∧ (s.put i).next i = s.next i ∧
      Follows (s.put i).next (s.next i) rest := by
  obtain ⟨stop, leads, _⟩ := going.built
  have parts := List.nodup_append.mp going.distinct
  have here : i ∈ gone ++ i :: rest := List.mem_append_right gone List.mem_cons_self
  obtain ⟨reach, others⟩ := @setTail_leads _ _ _ _ kept stop (some i) leads parts.1
  have tail : (setTail s.out s.next s.ll (some i)) =
      setTail s.out s.next kept.getLast? (some i) := by rw [going.tail]
  rw [State.put, tail]
  have outside (j : Nat) (member : j ∈ i :: rest) : j ∉ kept := fun again =>
    parts.2.2 j again j (List.mem_append_right gone member) rfl
  refine ⟨reach, others i (outside i List.mem_cons_self), ?_⟩
  exact Leads.congr going.ahead.2 fun j member =>
    others j (outside j (List.mem_cons_of_mem i member))

theorem Going.link (going : Going s kept gone (i :: rest) (some i) data bytes) :
    Going (s.link i) (kept ++ [i]) [] rest ((s.link i).next i) data (bytes ++ data i) := by
  obtain ⟨reach, same, ahead⟩ := going.put
  have within : ∀ j, j ∈ (kept ++ [i]) ++ ([] ++ rest) → j ∈ kept ++ (gone ++ i :: rest) := by
    intro j
    simp only [List.nil_append, List.mem_append, List.mem_cons, List.not_mem_nil, or_false]
    tauto
  have short : List.Sublist ((kept ++ [i]) ++ ([] ++ rest)) (kept ++ (gone ++ i :: rest)) := by
    rw [List.nil_append, List.append_assoc, List.singleton_append]
    exact List.Sublist.append (List.Sublist.refl kept) (List.sublist_append_right gone _)
  have next : (s.link i).next i = s.next i := same
  rw [next]
  constructor
  · exact ahead
  · refine ⟨s.next i, leads_append.mpr ⟨some i, reach, rfl, same⟩, ?_, fun _ => ahead⟩
    intro empty
    simp at empty
  · rw [List.getLast?_append, List.getLast?_singleton, Option.some_or]
    rfl
  · exact going.distinct.sublist short
  · exact fun j member => going.holds j (within j member)
  · exact fun j member => by cases member
  · rw [List.flatMap_append, going.total, List.flatMap_singleton]

theorem Going.skip (going : Going s kept gone (i :: rest) (some i) data bytes)
    (nothing : data i = []) : Going s kept (gone ++ [i]) rest (s.next i) data bytes := by
  obtain ⟨stop, leads, first, later⟩ := going.built
  have same : gone ++ [i] ++ rest = gone ++ i :: rest := by simp
  constructor
  · exact going.ahead.2
  · rw [same]
    exact ⟨stop, leads, first, later⟩
  · exact going.tail
  · rw [same]
    exact going.distinct
  · rw [same]
    exact going.holds
  · intro j member
    rcases List.mem_append.mp member with old | new
    · exact going.empty j old
    · rw [List.mem_singleton.mp new]
      exact nothing
  · exact going.total

theorem Going.stop (going : Going s kept gone (i :: rest) (some i) data bytes) :
    Passes { s.put i with next := fun j => if j = i then none else (s.put i).next j }
      (bytes ++ data i) := by
  obtain ⟨reach, _, _⟩ := going.put
  have parts := List.nodup_append.mp going.distinct
  have here : i ∈ gone ++ i :: rest := List.mem_append_right gone List.mem_cons_self
  refine ⟨kept ++ [i], leads_append.mpr ⟨some i, ?_, rfl, if_pos rfl⟩, data, ?_, ?_⟩
  · exact reach.congr fun j member => if_neg fun same => parts.2.2 j member i here same
  · intro j member
    apply going.holds j
    rcases List.mem_append.mp member with old | new
    · exact List.mem_append_left _ old
    · rw [List.mem_singleton.mp new]
      exact List.mem_append_right _ here
  · rw [List.flatMap_append, going.total, List.flatMap_singleton]

theorem Going.finish {cl : Option Nat} (going : Going s kept gone [] cl data bytes) :
    Passes s bytes := by
  obtain ⟨stop, leads, first, later⟩ := going.built
  by_cases none : kept = []
  · subst none
    refine ⟨[], leads.trans (first rfl), data, (fun j member => by cases member), going.total⟩
  · refine ⟨kept ++ gone, leads_append.mpr ⟨stop, leads, ?_⟩, data, ?_, ?_⟩
    · have rest := later none
      rwa [List.append_nil] at rest
    · have holds := going.holds
      rwa [List.append_nil] at holds
    · have nothing : gone.flatMap data = [] := List.flatMap_eq_nil_iff.mpr going.empty
      rw [List.flatMap_append, going.total, nothing, List.append_nil]

end Steps

theorem clip_cuts (range : Range) (start : Nat) (d : List UInt8)
    (stop : range.stop ≤ start + d.length) :
    (d.drop (range.start - start)).take
        ((d.drop (range.start - start)).length - (start + d.length - range.stop)) =
      clip range start d := by
  rw [clip, List.drop_take, List.length_drop]
  congr 1
  omega

theorem clip_front (range : Range) (start : Nat) (d : List UInt8)
    (inside : start + d.length < range.stop) :
    d.drop (range.start - start) = clip range start d := by
  rw [clip, List.take_of_length_le (by omega)]

/-- From any state of the loop: the chain it passes holds the part of the bytes ahead that
lies inside the range, and the offset moves over them, or to a place behind the range. -/
theorem bodyLoop_spec (range : Range) (fuel : Nat) {s : State} {kept gone ahead : List Nat}
    {cl : Option Nat} {data : Nat → List UInt8} {bytes : List UInt8}
    (going : Going s kept gone ahead cl data bytes) (enough : ahead.length ≤ fuel) :
    ∃ s', bodyLoop range fuel cl s = some s' ∧
      Passes s' (bytes ++ clip range s.offset (ahead.flatMap data)) ∧
      (s'.offset = s.offset + (ahead.flatMap data).length ∨
        (range.stop ≤ s'.offset ∧ s'.offset ≤ s.offset + (ahead.flatMap data).length)) := by
  induction fuel generalizing s kept gone ahead cl data bytes with
  | zero =>
    have nothing : ahead = [] := List.length_eq_zero_iff.mp (by omega)
    subst nothing
    have none : cl = none := going.ahead
    subst none
    refine ⟨s, by rw [bodyLoop], ?_, Or.inl rfl⟩
    simpa [clip] using going.finish
  | succ fuel ih =>
    cases ahead with
    | nil =>
      have none : cl = none := going.ahead
      subst none
      refine ⟨s, by rw [bodyLoop], ?_, Or.inl rfl⟩
      simpa [clip] using going.finish
    | cons i rest =>
      have here : cl = some i := going.ahead.1
      subst here
      have inside : i ∈ kept ++ (gone ++ i :: rest) := by simp
      have holds := going.holds i inside
      have short : rest.length ≤ fuel := Nat.le_of_succ_le_succ enough
      have alone : i ∉ rest := by
        have parts := List.nodup_append.mp (List.nodup_append.mp going.distinct).2.1
        exact (List.nodup_cons.mp parts.2.1).1
      -- what is left to show once the bytes of this link are settled
      have joined (t : Option State) (after : ∃ s', t = some s' ∧
          Passes s' ((bytes ++ clip range s.offset (data i)) ++
            clip range (s.offset + (data i).length) (rest.flatMap data)) ∧
          (s'.offset = s.offset + (data i).length + (rest.flatMap data).length ∨
            (range.stop ≤ s'.offset ∧
              s'.offset ≤ s.offset + (data i).length + (rest.flatMap data).length))) :
          ∃ s', t = some s' ∧
            Passes s' (bytes ++ clip range s.offset ((i :: rest).flatMap data)) ∧
            (s'.offset = s.offset + ((i :: rest).flatMap data).length ∨
              (range.stop ≤ s'.offset ∧
                s'.offset ≤ s.offset + ((i :: rest).flatMap data).length)) := by
        rw [List.flatMap_cons, clip_append, List.length_append, ← List.append_assoc,
          ← Nat.add_assoc]
        exact after
      apply joined
      have moved := going.offset (s.offset + (data i).length)
      rw [bodyLoop, holds_size holds]
      dsimp only
      by_cases special : ngxBufSpecial (s.buf i) = true
      · rw [if_pos special]
        have nothing := holds_special holds special
        have after := ih moved.link short
        rw [nothing] at after ⊢
        simpa [clip, link_offset] using after
      rw [if_neg special]
      by_cases outside : range.stop ≤ s.offset ∨ range.start ≥ s.offset + (data i).length
      · rw [if_pos outside]
        have clipped : clip range s.offset (data i) = [] := by
          rcases outside with behind | before
          · exact clip_behind range _ _ behind
          · exact clip_before range _ _ before
        have edited := (moved.setBuf (holds_skipped holds)).skip (if_pos rfl)
        have after := ih edited short
        rw [flatMap_replace alone] at after
        rw [clipped, List.append_nil]
        exact after
      rw [if_neg outside]
      have front : Holds (if range.start > s.offset
          then dropFront (s.buf i) (range.start - s.offset) else s.buf i)
          ((data i).drop (range.start - s.offset)) := by
        by_cases starts : range.start > s.offset
        · rw [if_pos starts]
          exact holds_dropFront holds _ (by omega)
        · rw [if_neg starts, Nat.sub_eq_zero_of_le (by omega), List.drop_zero]
          exact holds
      generalize (if range.start > s.offset
          then dropFront (s.buf i) (range.start - s.offset) else s.buf i) = b at front ⊢
      by_cases ends : range.stop ≤ s.offset + (data i).length
      · rw [if_pos ends]
        have proper := range.proper
        have cut := holds_lastBuf (holds_dropBack front
          (s.offset + (data i).length - range.stop) (by rw [List.length_drop]; omega))
        rw [clip_cuts range s.offset (data i) ends] at cut
        have passed := (moved.setBuf cut).stop
        rw [replace, if_pos rfl] at passed
        rw [clip_behind range _ (rest.flatMap data) ends, List.append_nil]
        exact ⟨_, rfl, passed, Or.inr ⟨ends, Nat.le_add_right _ _⟩⟩
      · rw [if_neg ends]
        have whole := clip_front range s.offset (data i) (by omega)
        rw [whole] at front
        have edited := (moved.setBuf front).link
        rw [replace, if_pos rfl] at edited
        have after := ih edited short
        rw [flatMap_replace alone] at after
        exact after

theorem ngxHttpRangeSinglepartBody_spec (range : Range) (offset : Nat) (call : Call) :
    ∃ s, ngxHttpRangeSinglepartBody range offset call = some s ∧
      Passes s (clip range offset call.body) ∧
      (s.offset = offset + call.body.length ∨
        (range.stop ≤ s.offset ∧ s.offset ≤ offset + call.body.length)) := by
  have going : Going ⟨offset, call.next, call.buf, none, none⟩ [] [] call.links call.first
      call.bytes [] := by
    constructor
    · exact call.follows
    · exact ⟨none, rfl, fun _ => rfl, fun filled => absurd rfl filled⟩
    · rfl
    · exact call.follows.nodup
    · exact call.holds
    · exact fun i member => by cases member
    · rfl
  exact bodyLoop_spec range call.links.length going (le_refl _)

/-- The calls pass on what lies inside the range, from the true offset `place`: the filter's own
offset is that one, or both are behind the range. -/
theorem runCalls_spec (range : Range) (calls : List Call) (offset place : Nat)
    (same : offset = place ∨ (range.stop ≤ offset ∧ range.stop ≤ place)) :
    ∃ states, runCalls range offset calls = some states ∧
      ∃ pieces, List.Forall₂ Passes states pieces ∧
        pieces.flatten = clip range place (calls.flatMap Call.body) := by
  induction calls generalizing offset place with
  | nil => exact ⟨[], rfl, [], List.Forall₂.nil, by simp [clip]⟩
  | cons call calls ih =>
    obtain ⟨s, called, passes, moved⟩ := ngxHttpRangeSinglepartBody_spec range offset call
    obtain ⟨states, ran, pieces, all, rest⟩ := ih s.offset (place + call.body.length) (by omega)
    have here : clip range offset call.body = clip range place call.body := by
      rcases same with rfl | ⟨behind, behind'⟩
      · rfl
      · rw [clip_behind range _ _ behind, clip_behind range _ _ behind']
    rw [here] at passes
    refine ⟨s :: states, ?_, clip range place call.body :: pieces,
      List.Forall₂.cons passes all, ?_⟩
    · rw [runCalls, called, Option.bind_some, ran, Option.map_some]
    · rw [List.flatten_cons, rest, List.flatMap_cons, clip_append]

/-- Over any split of a body into calls and buffers, the chains passed to the next filter hold
together the bytes of the range, and nothing else. -/
theorem singlepart_body_exact (range : Range) (calls : List Call) :
    ∃ states, runCalls range 0 calls = some states ∧
      ∃ pieces, List.Forall₂ Passes states pieces ∧
        pieces.flatten = ((calls.flatMap Call.body).take range.stop).drop range.start :=
  runCalls_spec range calls 0 0 (Or.inl rfl)

end NgxFormal.Http.RangeSinglepart
