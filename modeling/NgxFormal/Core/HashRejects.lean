import NgxFormal.Core.HashInit

/-! What `ngx_hash_add_key` leaves behind when it returns `NGX_BUSY` or `NGX_DECLINED`. The hashes
are built from the arrays alone. -/

namespace NgxFormal.Core.Hash

/-- More than one `*`, or two dots in a row. -/
def Unsupported (key : List UInt8) : Prop :=
  1 < key.count (chr '*') ∨ [dot, dot] <:+: key

/-- `.example.com` -/
abbrev LeadingDot (key : List UInt8) : Prop := 1 < key.length ∧ key.getD 0 0 = dot

/-- `*.example.com` -/
abbrev LeadingStar (key : List UInt8) : Prop :=
  2 < key.length ∧ key.getD 0 0 = chr '*' ∧ key.getD 1 0 = dot

/-- `www.example.*` -/
abbrev TrailingStar (key : List UInt8) : Prop :=
  2 < key.length ∧ key.getD (key.length - 2) 0 = dot ∧ key.getD (key.length - 1) 0 = chr '*'

/-- The exact name of `.example.com` is among the keys. -/
def ExactTaken (ha : KeysArrays) (key : List UInt8) : Prop :=
  let name := (key.drop 1).map ngxTolower
  conflicts (ha.keysHash (ngxHashKey name % ha.hsize)) name = true

/-- No wildcard array gets the key in front of the check that rejects it. -/
def RejectedInTime (ha : KeysArrays) (key : List UInt8) (wildcard : Bool) : Prop :=
  wildcard = false ∨ Unsupported key ∨ (LeadingDot key ∧ ExactTaken ha key) ∨
    ¬(LeadingDot key ∨ LeadingStar key ∨ TrailingStar key)

section Rejects

variable {ha : KeysArrays} {key : List UInt8} {value skip : Nat}

theorem infix_dots_cons (c : UInt8) (rest : List UInt8) :
    [dot, dot] <:+: c :: rest ↔ (c = dot ∧ peek rest = dot) ∨ [dot, dot] <:+: rest := by
  have noNul : (0 : UInt8) ≠ dot := by decide
  rw [List.infix_cons_iff, List.cons_prefix_cons]
  cases rest with
  | nil => simp [peek, noNul]
  | cons d rest => simp [peek, eq_comm]

theorem countStars_none_iff (key : List UInt8) (n : Nat) (few : n ≤ 1) :
    countStars key n = none ↔ 1 < n + key.count (chr '*') ∨ [dot, dot] <:+: key := by
  induction key generalizing n with
  | nil =>
    simp only [countStars, List.count_nil, List.infix_nil]
    simp [few]
  | cons c rest ih =>
    have counted : n + (c :: rest).count (chr '*') =
        (if c = chr '*' then n + 1 else n) + rest.count (chr '*') := by
      rw [List.count_cons]
      by_cases star : c = chr '*'
      · simp [star]
        omega
      · simp [star]
    rw [countStars, counted, infix_dots_cons]
    generalize (if c = chr '*' then n + 1 else n) = stars
    by_cases many : 1 < stars
    · rw [if_pos many]
      exact ⟨fun _ => Or.inl (by omega), fun _ => rfl⟩
    · rw [if_neg many]
      by_cases dots : c = dot ∧ peek rest = dot
      · rw [if_pos dots]
        exact ⟨fun _ => Or.inr (Or.inl dots), fun _ => rfl⟩
      · rw [if_neg dots, ih stars (by omega)]
        simp [dots]

theorem addExact_rejected {readonly : Bool} (rejected : (addExact ha key value readonly).1 ≠ .ok) :
    (addExact ha key value readonly).2 = ha := by
  revert rejected
  unfold addExact
  dsimp only
  generalize (if readonly = true then key else key.map ngxTolower) = name
  split
  · exact fun _ => rfl
  · exact fun rejected => (rejected rfl).elim

/-- A conflict that is found behind the push leaves the key in the array. -/
theorem addHead_rejected (rejected : (addHead ha key value skip).1 ≠ .ok) :
    (addHead ha key value skip).2 = ha ∧ skip = 1 ∧ ExactTaken ha key ∨
      (addHead ha key value skip).2.dnsWcHead.length = ha.dnsWcHead.length + 1 ∧
        ¬(skip = 1 ∧ ExactTaken ha key) := by
  revert rejected
  unfold addHead
  dsimp only
  by_cases one : skip = 1
  · subst one
    simp only [true_and, if_true]
    split
    · rename_i taken
      exact fun _ => Or.inl ⟨rfl, taken⟩
    · rename_i free
      split
      · exact fun _ => Or.inr ⟨by simp, free⟩
      · exact fun rejected => (rejected rfl).elim
  · simp only [one, false_and, if_false]
    split
    · exact fun _ => Or.inr ⟨by simp, not_false⟩
    · exact fun rejected => (rejected rfl).elim

theorem addTail_rejected {bytes : Nat → UInt8} (rejected : (addTail bytes ha key value).1 ≠ .ok) :
    (addTail bytes ha key value).2.dnsWcTail.length = ha.dnsWcTail.length + 1 := by
  revert rejected
  unfold addTail
  dsimp only
  split
  · exact fun _ => by simp
  · exact fun rejected => (rejected rfl).elim

theorem ne_of_dnsWcHead_length {ha ha' : KeysArrays}
    (longer : ha'.dnsWcHead.length = ha.dnsWcHead.length + 1) : ha' ≠ ha := by
  rintro rfl
  omega

theorem ne_of_dnsWcTail_length {ha ha' : KeysArrays}
    (longer : ha'.dnsWcTail.length = ha.dnsWcTail.length + 1) : ha' ≠ ha := by
  rintro rfl
  omega

end Rejects

/-- A rejected key leaves the arrays and the tables as they were exactly when no wildcard array got
it in front of the check that rejects it. -/
theorem rejected_key_unchanged_iff (area : KeysArrays → Nat → UInt8) (ha : KeysArrays)
    (key : List UInt8) (value : Nat) (wildcard readonly : Bool)
    (rejected : (ngxHashAddKey area ha key value wildcard readonly).1 ≠ .ok) :
    (ngxHashAddKey area ha key value wildcard readonly).2 = ha ↔ RejectedInTime ha key wildcard := by
  revert rejected
  unfold ngxHashAddKey
  cases wildcard with
  | false =>
    rw [if_neg Bool.false_ne_true]
    intro rejected
    exact iff_of_true (addExact_rejected rejected) (Or.inl rfl)
  | true =>
    rw [if_pos rfl]
    have declines := countStars_none_iff key 0 (Nat.zero_le 1)
    rw [Nat.zero_add] at declines
    cases counted : countStars key 0 with
    | none => exact fun _ => iff_of_true rfl (Or.inr (Or.inl (declines.mp counted)))
    | some n =>
      have supported : ¬Unsupported key := by
        intro unsupported
        rw [declines.mpr unsupported] at counted
        cases counted
      have inTime : RejectedInTime ha key true ↔ (LeadingDot key ∧ ExactTaken ha key) ∨
          ¬(LeadingDot key ∨ LeadingStar key ∨ TrailingStar key) := by
        simp [RejectedInTime, supported]
      rw [inTime]
      dsimp only
      by_cases leading : LeadingDot key
      · rw [if_pos leading]
        intro rejected
        rcases addHead_rejected rejected with ⟨same, _, taken⟩ | ⟨longer, later⟩
        · exact iff_of_true same (Or.inl ⟨leading, taken⟩)
        · refine iff_of_false (ne_of_dnsWcHead_length longer) ?_
          rintro (⟨_, taken⟩ | none)
          · exact later ⟨rfl, taken⟩
          · exact none (Or.inl leading)
      · rw [if_neg leading]
        by_cases star : LeadingStar key
        · rw [if_pos star]
          intro rejected
          rcases addHead_rejected rejected with ⟨_, one, _⟩ | ⟨longer, _⟩
          · cases one
          · refine iff_of_false (ne_of_dnsWcHead_length longer) ?_
            rintro (⟨absurd, _⟩ | none)
            · exact leading absurd
            · exact none (Or.inr (Or.inl star))
        · rw [if_neg star]
          by_cases trailing : TrailingStar key
          · rw [if_pos trailing]
            intro rejected
            refine iff_of_false (ne_of_dnsWcTail_length (addTail_rejected rejected)) ?_
            rintro (⟨absurd, _⟩ | none)
            · exact leading absurd
            · exact none (Or.inr (Or.inr trailing))
          · rw [if_neg trailing]
            have none : ¬(LeadingDot key ∨ LeadingStar key ∨ TrailingStar key) := by
              rintro (absurd | absurd | absurd)
              · exact leading absurd
              · exact star absurd
              · exact trailing absurd
            split
            · exact fun _ => iff_of_true rfl (Or.inr none)
            · intro rejected
              exact iff_of_true (addExact_rejected rejected) (Or.inr none)

/-- `*.a` -/
def starKey : List UInt8 := [chr '*', dot, chr 'a']

/-- The arrays with `*.a` in them. -/
def starArrays : KeysArrays :=
  (ngxHashAddKey (fun _ _ => 0) (ngxHashKeysArrayInit true) starKey 4 true false).2

theorem rejected_key_unchanged_exact :
    let ha := (ngxHashAddKey (fun _ _ => 0) (ngxHashKeysArrayInit true) [chr 'a'] 4 true false).2
    (ngxHashAddKey (fun _ _ => 0) ha [dot, chr 'a'] 8 true false).2 = ha := by
  have rejected : (ngxHashAddKey (fun _ _ => 0)
      (ngxHashAddKey (fun _ _ => 0) (ngxHashKeysArrayInit true) [chr 'a'] 4 true false).2
      [dot, chr 'a'] 8 true false).1 ≠ .ok := by decide +kernel
  refine (rejected_key_unchanged_iff _ _ _ 8 true false rejected).mpr ?_
  exact Or.inr (Or.inr (Or.inl ⟨by decide, by unfold ExactTaken; decide +kernel⟩))

/-- The second `*.a` is reported as ignored and is in the array. -/
theorem rejected_key_pushed :
    (ngxHashAddKey (fun _ _ => 0) starArrays starKey 8 true false).1 = .busy ∧
      (ngxHashAddKey (fun _ _ => 0) starArrays starKey 8 true false).2 ≠ starArrays ∧
      (ngxHashAddKey (fun _ _ => 0) starArrays starKey 8 true false).2.dnsWcHead.map (·.value) =
        [4, 8] := by
  have values : (ngxHashAddKey (fun _ _ => 0) starArrays starKey 8 true false).2.dnsWcHead.map
      (·.value) = [4, 8] := by decide +kernel
  refine ⟨by decide +kernel, fun same => ?_, values⟩
  have before : starArrays.dnsWcHead.map (·.value) = [4] := by decide +kernel
  rw [same, before] at values
  cases values

end NgxFormal.Core.Hash
