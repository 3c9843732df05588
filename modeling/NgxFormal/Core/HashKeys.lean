import NgxFormal.Core.HashLookup

/-! The wildcard keys that `ngx_hash_add_key` accepts, and what it stores for them. -/

namespace NgxFormal.Core.Hash

open Lib Lib.LongestMatch

/-- `*.example.com`, `.example.com` and `www.example.*`. -/
inductive WildcardForm where
  | star
  | leading
  | trailing
  deriving DecidableEq, Repr

structure WildcardKey where
  form : WildcardForm
  labels : List Label
  value : Nat
  deriving DecidableEq, Repr

namespace WildcardKey

def text (key : WildcardKey) : List UInt8 :=
  match key.form with
  | .star => chr '*' :: dot :: dotted key.labels
  | .leading => dot :: dotted key.labels
  | .trailing => dotted key.labels ++ [dot, chr '*']

/-- Values are pointers whose two low bits are free. -/
structure WellFormed (key : WildcardKey) : Prop where
  used : key.labels ≠ []
  labels : ∀ l ∈ key.labels, l ≠ [] ∧ dot ∉ l ∧ chr '*' ∉ l
  value : 0 < key.value ∧ key.value < 2 ^ 64 ∧ 4 ∣ key.value

def lower (key : WildcardKey) : List Label := key.labels.map (List.map ngxTolower)

def name (key : WildcardKey) : List UInt8 := dotted key.lower

def headRule (key : WildcardKey) : Rule Label :=
  ⟨key.lower.reverse, key.form == .star, key.value⟩

def tailRule (key : WildcardKey) : Rule Label := ⟨key.lower, false, key.value⟩

end WildcardKey

def heads (keys : List WildcardKey) : List WildcardKey := keys.filter (·.form ≠ .trailing)

def tails (keys : List WildcardKey) : List WildcardKey := keys.filter (·.form = .trailing)

section Lower

variable {key : WildcardKey} {l : Label}

theorem tolower_ne {c other : UInt8} (small : other.toNat < 65) (differ : c ≠ other) :
    ngxTolower c ≠ other := by
  rw [ngxTolower]
  split
  · rename_i upper
    intro same
    have value := congrArg UInt8.toNat same
    rw [UInt8.toNat_or] at value
    have low : 65 ≤ c.toNat := UInt8.le_iff_toNat_le.mp upper.1
    have := @Nat.left_le_or c.toNat (UInt8.toNat 0x20)
    omega
  · exact differ

theorem tolower_idem (c : UInt8) : ngxTolower (ngxTolower c) = ngxTolower c := by
  refine byte_table c ?_
  decide +kernel

theorem notMem_lower {other : UInt8} (small : other.toNat < 65) (free : other ∉ l) :
    other ∉ l.map ngxTolower := by
  intro member
  obtain ⟨c, inside, same⟩ := List.mem_map.mp member
  exact tolower_ne small (fun equal => free (equal ▸ inside)) same

theorem WildcardKey.WellFormed.good (wellFormed : key.WellFormed) :
    ∀ l ∈ key.lower, GoodLabel l := by
  intro l member
  obtain ⟨raw, inside, rfl⟩ := List.mem_map.mp member
  obtain ⟨nonempty, free, _⟩ := wellFormed.labels raw inside
  refine ⟨by simpa using nonempty, notMem_lower (by decide) free, ?_⟩
  intro c inLabel
  obtain ⟨d, _, rfl⟩ := List.mem_map.mp inLabel
  exact tolower_idem d

theorem WildcardKey.WellFormed.lower_used (wellFormed : key.WellFormed) : key.lower ≠ [] := by
  simpa [lower] using wellFormed.used

theorem map_dotted (labels : List Label) :
    (dotted labels).map ngxTolower = dotted (labels.map (List.map ngxTolower)) := by
  induction labels with
  | nil => rfl
  | cons l rest ih =>
    cases rest with
    | nil => rfl
    | cons m rest =>
      have same : ngxTolower dot = dot := by decide
      rw [dotted, List.map_append, List.map_cons, ih, same]
      rfl

theorem notMem_dotted {labels : List Label} {other : UInt8} (differ : other ≠ dot)
    (free : ∀ l ∈ labels, other ∉ l) : other ∉ dotted labels := by
  induction labels with
  | nil => exact List.not_mem_nil
  | cons l rest ih =>
    have later := ih fun m member => free m (List.mem_cons_of_mem l member)
    cases rest with
    | nil => exact free l List.mem_cons_self
    | cons m rest =>
      rw [dotted, List.mem_append, List.mem_cons]
      rintro (inFirst | same | inRest)
      · exact free l List.mem_cons_self inFirst
      · exact differ same
      · exact later inRest

end Lower

section Reverse

theorem reverseLabels_free {l : Label} (free : dot ∉ l) (rest label p : List UInt8) :
    reverseLabels (l.reverse ++ rest) label p = reverseLabels rest (l ++ label) p := by
  induction l using List.reverseRecOn generalizing label with
  | nil => rfl
  | append_singleton front c ih =>
    rw [List.mem_append, List.mem_singleton, not_or] at free
    rw [List.reverse_append, List.reverse_singleton, List.singleton_append, List.cons_append,
      reverseLabels, if_neg (fun same => free.2 same.symm), ih free.1, List.append_assoc]
    rfl

theorem reverseLabels_dotted (labels : List Label) (free : ∀ l ∈ labels, dot ∉ l)
    (p : List UInt8) :
    reverseLabels (dotted labels).reverse [] p = p ++ dotted labels.reverse := by
  induction labels using List.reverseRecOn generalizing p with
  | nil => rfl
  | append_singleton front l ih =>
    have freeL := free l (by simp)
    have freeFront : ∀ m ∈ front, dot ∉ m := fun m member => free m (by simp [member])
    rw [dotted_snoc, List.reverse_append, List.reverse_singleton, List.singleton_append]
    by_cases alone : front = []
    · have whole := reverseLabels_free freeL [] [] p
      rw [List.append_nil, List.append_nil] at whole
      rw [if_pos alone, whole, alone]
      rfl
    · obtain ⟨m, rest, shape⟩ := List.exists_cons_of_ne_nil
        (by simpa using alone : front.reverse ≠ [])
      rw [if_neg alone, List.reverse_append, List.reverse_cons, List.append_assoc,
        reverseLabels_free freeL, List.append_nil, List.singleton_append, reverseLabels,
        if_pos rfl, ih freeFront, shape, dotted]
      simp

end Reverse

section Add

variable {ha ha' : KeysArrays} {key : WildcardKey} {keys : List WildcardKey}
  {area : KeysArrays → Nat → UInt8} {readonly : Bool}

theorem strncmp_self (n : Nat) (s : List UInt8) : ngxStrncmp n s s = 0 := by
  induction n generalizing s with
  | zero => rfl
  | succ n ih =>
    rw [ngxStrncmp, if_neg (by simp)]
    split
    · rfl
    · exact ih s.tail

theorem notMem_of_no_conflict {names : List (List UInt8)} {name : List UInt8}
    (free : conflicts names name = false) : name ∉ names := by
  intro member
  have found : conflicts names name = true := by
    rw [conflicts, List.any_eq_true]
    exact ⟨name, member, by simp [strncmp_self]⟩
  rw [free] at found
  cases found

theorem cpystrn_eq {src : List UInt8} (area : Nat → UInt8) (noNul : 0 ∉ src) :
    ngxCpystrn area src = src := by
  apply List.ext_getElem
  · simp [ngxCpystrn]
  · intro i inside bound
    have copied : (0 : UInt8) ∉ src.take i := fun member => noNul (List.mem_of_mem_take member)
    simp only [ngxCpystrn, List.getElem_map, List.getElem_range, if_neg copied]
    exact List.getD_eq_getElem src 0 bound

/-- What the arrays hold once the keys have been accepted: the stored forms, and the names that
later keys are checked against. -/
structure Keeps (ha : KeysArrays) (keys : List WildcardKey) : Prop where
  head : ha.dnsWcHead = (heads keys).map fun key => storedKey key.headRule
  tail : ha.dnsWcTail = (tails keys).map fun key => storedKey key.tailRule
  headNames : ∀ key ∈ heads keys, key.name ∈ ha.dnsWcHeadHash (ngxHashKey key.name % ha.hsize)
  tailNames : ∀ key ∈ tails keys,
    key.name ++ [dot] ∈ ha.dnsWcTailHash (ngxHashKey key.name % ha.hsize)
  headDistinct : ((heads keys).map WildcardKey.lower).Nodup
  tailDistinct : ((tails keys).map WildcardKey.lower).Nodup

theorem keeps_init (small : Bool) : Keeps (ngxHashKeysArrayInit small) [] := by
  refine ⟨rfl, rfl, ?_, ?_, List.nodup_nil, List.nodup_nil⟩
  · intro key member
    exact absurd member List.not_mem_nil
  · intro key member
    exact absurd member List.not_mem_nil

theorem mem_pushName {hash : Nat → List (List UInt8)} {k i : Nat} {name other : List UInt8} :
    other ∈ pushName hash k name i ↔ other ∈ hash i ∨ (i = k ∧ other = name) := by
  rw [pushName]
  split <;> simp_all

theorem reverse_head (wellFormed : key.WellFormed) {ending : Bool}
    (isEnding : (key.form == .star) = ending) {lead : List UInt8} (long : lead ≠ [])
    (isLead : lead.tail = if ending then [dot] else []) :
    reverseLabels ((lead ++ key.name).tail.reverse) [] [] = ruleText key.headRule := by
  have free : ∀ l ∈ key.lower, dot ∉ l := fun l member => (wellFormed.good l member).free
  have used := wellFormed.lower_used
  rw [List.tail_append_of_ne_nil long, isLead, ruleText, WildcardKey.headRule, isEnding]
  cases ending with
  | false =>
    simp only [Bool.false_eq_true, if_false, List.nil_append]
    rw [WildcardKey.name, reverseLabels_dotted _ free, List.nil_append]
  | true =>
    obtain ⟨l, rest, shape⟩ := List.exists_cons_of_ne_nil used
    have whole : [dot] ++ key.name = dotted ([] :: key.lower) := by
      rw [WildcardKey.name, shape, dotted]
      rfl
    simp only [if_true]
    rw [whole, reverseLabels_dotted _ (by
        intro m member
        rcases List.mem_cons.mp member with rfl | inside
        · exact List.not_mem_nil
        · exact free m inside), List.nil_append, List.reverse_cons, dotted_snoc,
      if_neg (by simpa using used)]

theorem addHead_spec {text : List UInt8} {value skip : Nat}
    (made : addHead ha text value skip = (.ok, ha')) :
    let name := (text.drop skip).map ngxTolower
    let k := ngxHashKey name % ha.hsize
    let p := reverseLabels ((text.take skip ++ name).tail.reverse) [] []
    name ∉ ha.dnsWcHeadHash k ∧
      ∃ keysHash, ha' = { ha with
        keysHash := keysHash
        dnsWcHead := ha.dnsWcHead ++ [⟨p, false, 0, value⟩]
        dnsWcHeadHash := pushName ha.dnsWcHeadHash k name } := by
  dsimp only
  rw [addHead] at made
  by_cases one : skip = 1
  · simp only [one, true_and, if_true] at made ⊢
    split at made
    · cases made
    · split at made
      · cases made
      · rename_i free
        rw [Prod.mk.injEq] at made
        obtain ⟨_, rfl⟩ := made
        exact ⟨notMem_of_no_conflict (by simpa using free), _, rfl⟩
  · simp only [one, false_and, if_false] at made
    split at made
    · cases made
    · rename_i free
      rw [Prod.mk.injEq] at made
      obtain ⟨_, rfl⟩ := made
      exact ⟨notMem_of_no_conflict (by simpa using free), _, rfl⟩

theorem addTail_spec {text : List UInt8} {value : Nat} {bytes : Nat → UInt8}
    (made : addTail bytes ha text value = (.ok, ha')) :
    let name := (text.take (text.length - 2)).map ngxTolower
    let k := ngxHashKey name % ha.hsize
    let dotted := name ++ [text.getD (text.length - 2) 0]
    dotted ∉ ha.dnsWcTailHash k ∧ ha' = { ha with
      dnsWcTail := ha.dnsWcTail ++ [⟨ngxCpystrn bytes name, false, 0, value⟩]
      dnsWcTailHash := pushName ha.dnsWcTailHash k dotted } := by
  dsimp only
  rw [addTail] at made
  dsimp only at made
  split at made
  · cases made
  · rename_i free
    rw [Prod.mk.injEq] at made
    exact ⟨notMem_of_no_conflict (by simpa using free), made.2.symm⟩

theorem ngxHashAddKey_form (wellFormed : key.WellFormed)
    (made : ngxHashAddKey area ha key.text key.value true readonly = (.ok, ha')) :
    match key.form with
    | .star => addHead ha key.text key.value 2 = (.ok, ha')
    | .leading => addHead ha key.text key.value 1 = (.ok, ha')
    | .trailing => addTail (area ha) ha key.text key.value = (.ok, ha') := by
  obtain ⟨l, rest, shape⟩ := List.exists_cons_of_ne_nil wellFormed.used
  obtain ⟨nonempty, free, noStar⟩ := wellFormed.labels l (by simp [shape])
  obtain ⟨c, more, isLabel⟩ := List.exists_cons_of_ne_nil nonempty
  obtain ⟨tail, isDotted⟩ : ∃ tail, dotted key.labels = c :: tail := by
    rw [shape, isLabel]
    cases rest with
    | nil => exact ⟨more, rfl⟩
    | cons m rest => exact ⟨more ++ dot :: dotted (m :: rest), rfl⟩
  have notDot : c ≠ dot := fun same => free (by simp [isLabel, same])
  have notStar : c ≠ chr '*' := fun same => noStar (by simp [isLabel, same])
  have starDot : chr '*' ≠ dot := by decide
  rw [ngxHashAddKey, if_pos rfl] at made
  split at made
  · cases made
  · cases form : key.form with
    | star =>
      have text : key.text = chr '*' :: dot :: c :: tail := by
        rw [WildcardKey.text, form, isDotted]
      rw [text] at made ⊢
      rw [if_neg (fun both => starDot both.2), if_pos (by simp)] at made
      exact made
    | leading =>
      have text : key.text = dot :: c :: tail := by
        rw [WildcardKey.text, form, isDotted]
      rw [text] at made ⊢
      rw [if_pos (by simp)] at made
      exact made
    | trailing =>
      have text : key.text = (c :: tail) ++ [dot, chr '*'] := by
        rw [WildcardKey.text, form, isDotted]
      have first : key.text.getD 0 0 = c := by rw [text]; rfl
      have length : key.text.length = tail.length + 3 := by simp [text]
      have beforeLast : key.text.getD (key.text.length - 2) 0 = dot := by
        rw [length, text, List.getD_append_right _ _ _ _ (by simp)]
        simp
      have last : key.text.getD (key.text.length - 1) 0 = chr '*' := by
        rw [length, text, List.getD_append_right _ _ _ _ (by simp)]
        simp
      rw [first, if_neg (fun both => notDot both.2), if_neg (fun both => notStar both.2.1),
        if_pos ⟨by omega, beforeLast, last⟩] at made
      exact made

theorem Keeps.addHead (keeps : Keeps ha keys) (wellFormed : key.WellFormed)
    (isHead : key.form ≠ .trailing) {ending : Bool} (isEnding : (key.form == .star) = ending)
    {lead : List UInt8} (long : lead ≠ []) (isLead : lead.tail = if ending then [dot] else [])
    (text : key.text = lead ++ dotted key.labels)
    (made : addHead ha key.text key.value lead.length = (.ok, ha')) : Keeps ha' (keys ++ [key]) := by
  obtain ⟨new, keysHash, rfl⟩ := addHead_spec made
  have drop : (key.text.drop lead.length).map ngxTolower = key.name := by
    rw [text, List.drop_left, map_dotted]
    rfl
  have take : key.text.take lead.length = lead := by rw [text, List.take_left]
  have headsNow : heads (keys ++ [key]) = heads keys ++ [key] := by
    simp [heads, List.filter_append, isHead]
  have tailsNow : tails (keys ++ [key]) = tails keys := by
    simp [tails, List.filter_append, isHead]
  simp only [drop, take, reverse_head wellFormed isEnding long isLead] at new ⊢
  refine ⟨?_, ?_, ?_, ?_, ?_, ?_⟩
  · rw [headsNow, List.map_append, ← keeps.head]
    rfl
  · rw [tailsNow]
    exact keeps.tail
  · intro other member
    rw [headsNow, List.mem_append, List.mem_singleton] at member
    rcases member with old | rfl
    · exact mem_pushName.mpr (Or.inl (keeps.headNames other old))
    · exact mem_pushName.mpr (Or.inr ⟨rfl, rfl⟩)
  · rw [tailsNow]
    exact keeps.tailNames
  · rw [headsNow, List.map_append, List.map_singleton]
    refine List.nodup_append.mpr ⟨keeps.headDistinct, List.nodup_singleton _, ?_⟩
    intro labels old other last same
    rw [List.mem_singleton.mp last] at same
    obtain ⟨first, inHeads, isLabels⟩ := List.mem_map.mp old
    have sameName : first.name = key.name := by
      rw [WildcardKey.name, isLabels, same, WildcardKey.name]
    have stored := keeps.headNames first inHeads
    rw [sameName] at stored
    exact new stored
  · rw [tailsNow]
    exact keeps.tailDistinct

theorem Keeps.addTail (keeps : Keeps ha keys) (isTail : key.form = .trailing)
    (noNul : ∀ l ∈ key.labels, 0 ∉ l) {bytes : Nat → UInt8}
    (made : addTail bytes ha key.text key.value = (.ok, ha')) : Keeps ha' (keys ++ [key]) := by
  obtain ⟨new, rfl⟩ := addTail_spec made
  have text : key.text = dotted key.labels ++ [dot, chr '*'] := by
    rw [WildcardKey.text, isTail]
  have length : key.text.length - 2 = (dotted key.labels).length := by
    rw [text, List.length_append]
    rfl
  have take : (key.text.take (key.text.length - 2)).map ngxTolower = key.name := by
    rw [length, text, List.take_left, map_dotted]
    rfl
  have last : key.text.getD (key.text.length - 2) 0 = dot := by
    rw [length, text, List.getD_append_right _ _ _ _ (Nat.le_refl _), Nat.sub_self]
    rfl
  have nulFree : (0 : UInt8) ∉ key.name := by
    rw [WildcardKey.name, WildcardKey.lower, ← map_dotted]
    apply notMem_lower (by decide)
    exact notMem_dotted (by decide) noNul
  have headsNow : heads (keys ++ [key]) = heads keys := by
    simp [heads, List.filter_append, isTail]
  have tailsNow : tails (keys ++ [key]) = tails keys ++ [key] := by
    simp [tails, List.filter_append, isTail]
  simp only [take, last, cpystrn_eq bytes nulFree] at new ⊢
  refine ⟨?_, ?_, ?_, ?_, ?_, ?_⟩
  · rw [headsNow]
    exact keeps.head
  · rw [tailsNow, List.map_append, ← keeps.tail]
    rfl
  · rw [headsNow]
    exact keeps.headNames
  · intro other member
    rw [tailsNow, List.mem_append, List.mem_singleton] at member
    rcases member with old | rfl
    · exact mem_pushName.mpr (Or.inl (keeps.tailNames other old))
    · exact mem_pushName.mpr (Or.inr ⟨rfl, rfl⟩)
  · rw [headsNow]
    exact keeps.headDistinct
  · rw [tailsNow, List.map_append, List.map_singleton]
    refine List.nodup_append.mpr ⟨keeps.tailDistinct, List.nodup_singleton _, ?_⟩
    intro labels old other isLast same
    rw [List.mem_singleton.mp isLast] at same
    obtain ⟨first, inTails, isLabels⟩ := List.mem_map.mp old
    have sameName : first.name = key.name := by
      rw [WildcardKey.name, isLabels, same, WildcardKey.name]
    have stored := keeps.tailNames first inTails
    rw [sameName] at stored
    exact new stored

theorem Keeps.step (keeps : Keeps ha keys) (wellFormed : key.WellFormed)
    (noNul : key.form = .trailing → ∀ l ∈ key.labels, 0 ∉ l)
    (made : ngxHashAddKey area ha key.text key.value true readonly = (.ok, ha')) :
    Keeps ha' (keys ++ [key]) := by
  have placed := ngxHashAddKey_form wellFormed made
  cases form : key.form with
  | star =>
    rw [form] at placed
    exact @Keeps.addHead ha ha' key keys keeps wellFormed (by rw [form]; decide) true
      (by rw [form]; rfl) [chr '*', dot] (by simp) rfl (by rw [WildcardKey.text, form]; rfl) placed
  | leading =>
    rw [form] at placed
    exact @Keeps.addHead ha ha' key keys keeps wellFormed (by rw [form]; decide) false
      (by rw [form]; rfl) [dot] (by simp) rfl (by rw [WildcardKey.text, form]; rfl) placed
  | trailing =>
    rw [form] at placed
    exact keeps.addTail form (noNul form) placed

/-- The keys added one after the other; `none` once one is not accepted. -/
def addKeys (area : KeysArrays → Nat → UInt8) (readonly : Bool) :
    KeysArrays → List WildcardKey → Option KeysArrays
  | ha, [] => some ha
  | ha, key :: rest =>
    match ngxHashAddKey area ha key.text key.value true readonly with
    | (.ok, ha') => addKeys area readonly ha' rest
    | _ => none

theorem Keeps.addKeys (more : List WildcardKey) (keeps : Keeps ha keys)
    (wellFormed : ∀ key ∈ more, key.WellFormed)
    (noNul : ∀ key ∈ more, key.form = .trailing → ∀ l ∈ key.labels, 0 ∉ l)
    (added : Hash.addKeys area readonly ha more = some ha') : Keeps ha' (keys ++ more) := by
  induction more generalizing ha keys with
  | nil =>
    rw [Hash.addKeys, Option.some.injEq] at added
    rw [← added, List.append_nil]
    exact keeps
  | cons key rest ih =>
    rw [Hash.addKeys] at added
    split at added
    · rename_i next made
      have step := keeps.step (wellFormed key List.mem_cons_self) (noNul key List.mem_cons_self) made
      have whole := ih step (fun other member => wellFormed other (List.mem_cons_of_mem key member))
        (fun other member => noNul other (List.mem_cons_of_mem key member)) added
      rwa [List.append_assoc, List.singleton_append] at whole
    · cases added

end Add

end NgxFormal.Core.Hash
