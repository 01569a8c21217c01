import Airdcpp.Connection.WaitingItems

/-!
# `Connection/McnLimits` — whose limit is asked

Whether a user may have one more connection is asked of the download items of all users, which lie
in one list. The loop of `allowNewMCNUnsafe` skips those of other users, but the limits are asked of
the item that the loop has ended with, which is the last one of the list. So what the items of other
users are matters exactly when the loop has not ended early and that item decides
(`sameAnswers_iff`).
-/

namespace Airdcpp
namespace McnConnections

variable {u : UserPtr} {downloads d₁ d₂ : List ConnectionQueueItem} {aSmallSlot supportMcn : Bool}
  {maxOwnConns : Int} {runningNormal : Nat} {i : ConnectionQueueItem}

/-- The items of a user, in their order -/
def own (u : UserPtr) (downloads : List ConnectionQueueItem) : List ConnectionQueueItem :=
  downloads.filter fun i => i.user = u

/-- An item that the loop counts -/
def runsNormal (i : ConnectionQueueItem) : Bool := i.downloadType == .mcnNormal && i.running

/-- An item that ends the loop when no small slot is asked for -/
def EndsLoop (u : UserPtr) (i : ConnectionQueueItem) : Prop := i.mcn = false ∨ waits u i = true

/-- The verdict of the last item, of whichever user -/
def lastAllows (downloads : List ConnectionQueueItem) (maxOwnConns : Int) (aRunning : Nat) : Bool :=
  downloads.getLast?.all (·.allowNewConnections maxOwnConns aRunning)

theorem mem_own : i ∈ own u downloads ↔ i ∈ downloads ∧ i.user = u := by
  simp [own]

/-- **The loop skips the items of other users.** -/
theorem countMCN_own (u : UserPtr) (aSmallSlot : Bool) (downloads : List ConnectionQueueItem)
    (runningNormal : Nat) (supportMcn : Bool) :
    countMCN u aSmallSlot (own u downloads) runningNormal supportMcn =
      countMCN u aSmallSlot downloads runningNormal supportMcn := by
  induction downloads generalizing runningNormal supportMcn with
  | nil => rfl
  | cons cqi rest ih =>
    by_cases huser : cqi.user = u
    · have hown : own u (cqi :: rest) = cqi :: own u rest := by simp [own, huser]
      rw [hown, countMCN, countMCN]
      simp only [ih]
    · have hown : own u (cqi :: rest) = own u rest := by simp [own, huser]
      rw [hown, countMCN, if_pos huser, ih]

/-- The loop ends early at an item of the user. -/
theorem countMCN_of_endsLoop (hi : i ∈ own u downloads) (h : EndsLoop u i) :
    ∃ waiting, countMCN u false downloads runningNormal supportMcn = .error waiting := by
  induction downloads generalizing runningNormal supportMcn with
  | nil => simp [own] at hi
  | cons cqi rest ih =>
    obtain ⟨hmem, huser⟩ := mem_own.mp hi
    rw [countMCN]
    by_cases hcqi : cqi.user = u
    · rw [if_neg (not_not_intro hcqi)]
      cases hmcn : cqi.mcn with
      | false => exact ⟨none, rfl⟩
      | true =>
        have hrest : ∀ n, i ∈ rest →
            ∃ waiting, countMCN u false rest n true = .error waiting :=
          fun n hin => ih (mem_own.mpr ⟨hin, huser⟩)
        rw [Bool.not_true, if_neg Bool.false_ne_true]
        cases htype : cqi.downloadType with
        | mcnNormal =>
          cases hrun : cqi.running with
          | false => exact ⟨some cqi.address, rfl⟩
          | true =>
            rcases List.mem_cons.mp hmem with rfl | hin
            · simp [EndsLoop, waits, hmcn, hrun] at h
            · exact hrest _ hin
        | small =>
          rcases List.mem_cons.mp hmem with rfl | hin
          · simp [EndsLoop, waits, hmcn, htype] at h
          · exact hrest _ hin
        | any =>
          rcases List.mem_cons.mp hmem with rfl | hin
          · simp [EndsLoop, waits, hmcn, htype] at h
          · exact hrest _ hin
    · rw [if_pos hcqi]
      rcases List.mem_cons.mp hmem with rfl | hin
      · exact absurd huser hcqi
      · exact ih (mem_own.mpr ⟨hin, huser⟩)

/-- Otherwise it counts the running items. -/
theorem countMCN_of_not_endsLoop (h : ∀ i ∈ own u downloads, ¬ EndsLoop u i) :
    countMCN u false (own u downloads) runningNormal supportMcn =
      .ok (runningNormal + (own u downloads).countP runsNormal,
        supportMcn || !(own u downloads).isEmpty) := by
  have hown : ∀ i ∈ own u downloads, i.user = u := fun i hi => (mem_own.mp hi).2
  generalize own u downloads = items at h hown
  induction items generalizing runningNormal supportMcn with
  | nil => simp [countMCN]
  | cons cqi rest ih =>
    have huser := hown cqi List.mem_cons_self
    have hends := h cqi List.mem_cons_self
    have hrest : ∀ n, countMCN u false rest n true = .ok (n + rest.countP runsNormal, true) := by
      intro n
      rw [ih (fun i hi => h i (List.mem_cons_of_mem _ hi)) fun i hi => hown i
        (List.mem_cons_of_mem _ hi),
        Bool.true_or]
    simp only [EndsLoop, waits, huser, not_or, Bool.not_eq_false, beq_self_eq_true,
      Bool.true_and] at hends
    rw [countMCN, if_neg (not_not_intro huser), hends.1, Bool.not_true, if_neg Bool.false_ne_true]
    cases htype : cqi.downloadType with
    | mcnNormal =>
      have hrun : cqi.running = true := by simpa [hends.1, htype] using hends.2
      simp [hrun, hrest, runsNormal, htype, Nat.add_assoc, Nat.add_comm 1]
    | small => simp [hrest, runsNormal, htype]
    | any => simp [hrest, runsNormal, htype]

theorem allowNewMCNUnsafe_of_error {waiting : Option Nat}
    (h : countMCN u aSmallSlot downloads 0 false = .error waiting) :
    allowNewMCNUnsafe downloads maxOwnConns u aSmallSlot = (false, waiting) := by
  rw [allowNewMCNUnsafe, h]

/-- When the loop has counted, the last item of the list decides. -/
theorem allowNewMCNUnsafe_of_ok
    (h : countMCN u aSmallSlot downloads 0 false = .ok (runningNormal, supportMcn)) :
    allowNewMCNUnsafe downloads maxOwnConns u aSmallSlot =
      (!(supportMcn && !aSmallSlot && !lastAllows downloads maxOwnConns runningNormal), none) := by
  rw [allowNewMCNUnsafe, h, lastAllows]
  cases downloads.getLast? <;> simp

/-- **What is answered for two lists** with the same items of the user, in the same order, is the
    same exactly when a small slot is asked for, the user has no items, one of them ends the loop,
    or the last items of the lists allow the same for as many running connections. -/
theorem sameAnswers_iff (maxOwnConns : Int) (aSmallSlot : Bool) (h : own u d₁ = own u d₂) :
    allowNewMCNUnsafe d₁ maxOwnConns u aSmallSlot = allowNewMCNUnsafe d₂ maxOwnConns u aSmallSlot ↔
      aSmallSlot = true ∨ own u d₁ = [] ∨ (∃ i ∈ own u d₁, EndsLoop u i) ∨
        lastAllows d₁ maxOwnConns ((own u d₁).countP runsNormal) =
          lastAllows d₂ maxOwnConns ((own u d₁).countP runsNormal) := by
  have hcount : countMCN u aSmallSlot d₂ 0 false = countMCN u aSmallSlot d₁ 0 false := by
    rw [← countMCN_own, ← h, countMCN_own]
  cases hloop : countMCN u aSmallSlot d₁ 0 false with
  | error waiting =>
    rw [allowNewMCNUnsafe_of_error hloop, allowNewMCNUnsafe_of_error (hcount.trans hloop)]
    refine iff_of_true rfl ?_
    cases aSmallSlot with
    | true => exact .inl rfl
    | false =>
      refine .inr (.inr (.inl ?_))
      by_contra hno
      rw [← countMCN_own, countMCN_of_not_endsLoop fun i hi hends => hno ⟨i, hi, hends⟩] at hloop
      cases hloop
  | ok r =>
    rw [allowNewMCNUnsafe_of_ok hloop, allowNewMCNUnsafe_of_ok (hcount.trans hloop)]
    cases aSmallSlot with
    | true => simp
    | false =>
      have hends : ∀ i ∈ own u d₁, ¬ EndsLoop u i := by
        intro i hi hends
        obtain ⟨w, hw⟩ : ∃ waiting, countMCN u false d₁ 0 false = .error waiting :=
          countMCN_of_endsLoop hi hends
        rw [hloop] at hw
        cases hw
      rw [← countMCN_own, countMCN_of_not_endsLoop hends] at hloop
      obtain rfl := Except.ok.inj hloop
      by_cases hempty : own u d₁ = []
      · simp [hempty]
      · have hnone : ¬ ∃ i ∈ own u d₁, EndsLoop u i := fun ⟨i, hi, hi'⟩ => hends i hi hi'
        simp [hempty, hnone, List.isEmpty_eq_false_iff.mpr hempty]

/-- A download item of a user, of `kind`, with a limit of the user's client -/
def itemOf (user : UInt8) (kind : QueueDownloadType) (running : Bool) (maxRemoteConns : Nat) :
    ConnectionQueueItem where
  address := user.toNat
  user := Vector.replicate 24 user
  connType := .download
  token := []
  downloadType := kind
  maxRemoteConns := maxRemoteConns
  mcn := true
  running := running

theorem sameAnswers_own :
    let d₁ := [itemOf 2 .small false 1, itemOf 1 .mcnNormal true 3]
    let d₂ := [itemOf 1 .mcnNormal true 3]
    allowNewMCNUnsafe d₁ 0 (Vector.replicate 24 1) false =
      allowNewMCNUnsafe d₂ 0 (Vector.replicate 24 1) false := by
  intro d₁ d₂
  exact (@sameAnswers_iff (Vector.replicate 24 1) d₁ d₂ 0 false (by decide +kernel)).mpr
    (.inr (.inr (.inr (by decide +kernel))))

/-- The user has one running item, and three are allowed. Behind it there is an item of somebody
    else with a limit of one. -/
theorem sameAnswers_foreign : ¬ ∀ (u : UserPtr) (aSmallSlot : Bool) (maxOwnConns : Int)
    (d₁ d₂ : List ConnectionQueueItem), own u d₁ = own u d₂ →
      allowNewMCNUnsafe d₁ maxOwnConns u aSmallSlot =
        allowNewMCNUnsafe d₂ maxOwnConns u aSmallSlot := by
  intro h
  exact absurd (h (Vector.replicate 24 1) false 0 [itemOf 1 .mcnNormal true 3]
    [itemOf 1 .mcnNormal true 3, itemOf 2 .small false 1] (by decide +kernel)) (by decide +kernel)

end McnConnections
end Airdcpp
