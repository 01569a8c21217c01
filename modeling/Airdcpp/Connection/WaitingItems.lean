import Airdcpp.Connection.McnConnections

/-!
# `Connection/WaitingItems` — how many items of a user wait

An item *waits* when it is a regular MCN item that is not running: connecting, or connected and
idle. `allowNewMCNUnsafe` refuses another one while there is one. But what it answers is used under
the next acquisition only, and items also start to wait when they join (`addDownloadConnection`),
fail or go idle. `Alone` is the condition on these steps; `Distinct` holds of every list of items.
-/

namespace Airdcpp
namespace McnConnections

open ConnectionQueueItem (State)

variable {m : Manager} {t : Call} {ts : List Call} {x : Answers} {u : UserPtr}
  {i cqi : ConnectionQueueItem} {f : ConnectionQueueItem → ConnectionQueueItem}

/-- The condition that `allowNewMCNUnsafe` enforces. -/
def waits (u : UserPtr) (i : ConnectionQueueItem) : Bool :=
  i.user == u && i.mcn && i.downloadType == .mcnNormal && !i.running

def Manager.waiting (m : Manager) (u : UserPtr) : Nat := m.downloads.countP (waits u)

/-- An item starts to wait only where no other one of its user waits. A running item that fails or
    goes idle has an inactive item of the user removed for it. -/
def Alone (m : Manager) (_ : List Call) : Call → Answers → Prop
  | .createNewMCN aUser, x => x.hasDownload = true → m.waiting aUser = 0
  | .addDownloadConnection uc, _ => ∀ cqi ∈ m.findDownload uc,
      cqi.isActive = true ∨ waits cqi.user (setConnected uc.isMCN cqi) = false ∨
        waits cqi.user cqi = true ∨ m.waiting cqi.user = 0
  | .failDownload aToken _, _ => ∀ cqi ∈ m.downloads.find? fun c => c.token == aToken,
      waits cqi.user { cqi with running := false } = false ∨ waits cqi.user cqi = true ∨
        (m.removeExtraMCN cqi).waiting cqi.user = 0
  | .onIdle aSource, _ => ∀ cqi ∈ m.findDownload aSource,
      cqi.running = false ∨ waits cqi.user { cqi with running := false } = false ∨
        (m.removeExtraMCN cqi).waiting cqi.user = 0
  | _, _ => True

instance (m : Manager) (ts : List Call) (t : Call) (x : Answers) : Decidable (Alone m ts t x) := by
  cases t <;> simp only [Alone] <;> infer_instance

/-! ## Items are distinct -/

structure Distinct (m : Manager) : Prop where
  nodup : (m.downloads.map (·.address)).Nodup
  fresh : ∀ i ∈ m.downloads, i.address < m.nextAddress

theorem Distinct.modify {a : Nat} (h : Distinct m)
    (hf : ∀ i, i.address = a → (f i).address = i.address) : Distinct (m.modify a f) where
  nodup := by
    have hkeys := Lib.Keyed.map_key_modify (l := m.downloads) (k := a) hf
    exact hkeys ▸ h.nodup
  fresh j hj := by
    obtain ⟨i, hi, rfl⟩ := List.mem_map.mp hj
    split
    · rename_i ha
      rw [hf i ha]
      exact h.fresh i hi
    · exact h.fresh i hi

theorem Distinct.putCQI {a : Nat} (h : Distinct m) : Distinct (m.putCQI a) where
  nodup := Lib.Keyed.nodup_remove h.nodup
  fresh i hi := h.fresh i (Lib.Keyed.mem_remove.mp hi).1

theorem Distinct.removeExtraMCN (h : Distinct m) : Distinct (m.removeExtraMCN cqi) := by
  unfold Manager.removeExtraMCN
  split
  · exact h
  · exact h.putCQI

theorem Distinct.getCQI {token : Str} (h : Distinct m) (hf : ∀ i, (f i).address = i.address) :
    Distinct (m.getCQI u token f) where
  nodup := by
    simp only [Manager.getCQI, List.map_append, List.map_cons, List.map_nil, hf]
    rw [List.nodup_append]
    refine ⟨h.nodup, List.nodup_singleton _, ?_⟩
    intro a ha b hb
    obtain ⟨i, hi, rfl⟩ := List.mem_map.mp ha
    rw [List.mem_singleton.mp hb]
    exact (h.fresh i hi).ne
  fresh i hi := by
    rcases List.mem_append.mp hi with hi | hi
    · exact Nat.lt_succ_of_lt (h.fresh i hi)
    · rw [List.mem_singleton.mp hi, hf]
      exact Nat.lt_succ_self _

/-! ## Counting -/

theorem waiting_modify (h : Distinct m) (hi : i ∈ m.downloads) :
    (m.modify i.address f).waiting u + (waits u i).toNat =
      m.waiting u + (waits u (f i)).toNat := by
  have hold := (Lib.Keyed.remove_perm h.nodup hi).countP_eq (waits u)
  have hnew := (Lib.Keyed.modify_perm (f := f) h.nodup hi).countP_eq (waits u)
  simp only [Manager.waiting, Manager.modify]
  rw [hold, hnew, List.countP_cons, List.countP_cons]
  cases waits u i <;> cases waits u (f i) <;> simp

/-- An item may be changed when its waiting does not begin next to another waiting one. -/
theorem waiting_modify_le (h : Distinct m) (hi : i ∈ m.downloads) (hf : (f i).user = i.user)
    (halone : waits i.user (f i) = false ∨ waits i.user i = true ∨ m.waiting i.user = 0)
    (hm : ∀ u, m.waiting u ≤ 1) (u : UserPtr) : (m.modify i.address f).waiting u ≤ 1 := by
  have hcount := waiting_modify (u := u) (f := f) h hi
  have hle := hm u
  by_cases hu : i.user = u
  · subst hu
    rcases halone with hfree | hwaits | hzero
    · simp only [hfree, Bool.toNat_false] at hcount
      omega
    · simp only [hwaits, Bool.toNat_true] at hcount
      have := Bool.toNat_le (waits i.user (f i))
      omega
    · have := Bool.toNat_le (waits i.user (f i))
      omega
  · have hother : waits u i = false := by simp [waits, hu]
    have hother' : waits u (f i) = false := by simp [waits, hf, hu]
    simp only [hother, hother', Bool.toNat_false] at hcount
    omega

theorem waiting_putCQI_le {a : Nat} : (m.putCQI a).waiting u ≤ m.waiting u :=
  List.filter_sublist.countP_le

theorem waiting_removeExtraMCN_le : (m.removeExtraMCN cqi).waiting u ≤ m.waiting u := by
  unfold Manager.removeExtraMCN
  split
  · exact le_rfl
  · exact waiting_putCQI_le

theorem waiting_getCQI {token : Str} {u' : UserPtr}
    (hf : ∀ i, (f i).user = i.user) :
    (m.getCQI u' token f).waiting u ≤ m.waiting u + if u' = u then 1 else 0 := by
  simp only [Manager.getCQI, Manager.waiting, List.countP_append, List.countP_cons,
    List.countP_nil]
  by_cases hu : u' = u
  · rw [if_pos hu]
    split <;> omega
  · simp [waits, hf, hu]

theorem waiting_modify_eq {a : Nat} (hf : ∀ i, waits u (f i) = waits u i) :
    (m.modify a f).waiting u = m.waiting u := by
  simp only [Manager.waiting, Manager.modify, Lib.Keyed.modify, List.countP_map]
  apply List.countP_congr
  intro i _
  simp only [Function.comp]
  split
  · rw [hf]
  · rfl

/-! ## What the sections do to one item -/

theorem waits_setFailed {b : Bool} {tick : Nat} :
    waits u (setFailed b tick i) = waits u { i with running := false } := by
  unfold setFailed
  split <;> rfl

theorem setFailed_address {b : Bool} {tick : Nat} : (setFailed b tick i).address = i.address := by
  unfold setFailed
  split <;> rfl

theorem setFailed_user {b : Bool} {tick : Nat} : (setFailed b tick i).user = i.user := by
  unfold setFailed
  split <;> rfl

theorem setConnected_address {b : Bool} : (setConnected b i).address = i.address := by
  unfold setConnected
  split <;> rfl

theorem setConnected_user {b : Bool} : (setConnected b i).user = i.user := by
  unfold setConnected
  split <;> rfl

theorem waits_resetFatalError : waits u i.resetFatalError = waits u i := by
  unfold ConnectionQueueItem.resetFatalError
  split <;> rfl

theorem resetFatalError_address : i.resetFatalError.address = i.address := by
  unfold ConnectionQueueItem.resetFatalError
  split <;> rfl

/-- What the timer keeps of an item. Its type changes between the small and the unspecified one
    only. -/
structure Attempted (i j : ConnectionQueueItem) : Prop where
  address : j.address = i.address
  user : j.user = i.user
  mcn : j.mcn = i.mcn
  running : j.running = i.running
  downloadType : j.downloadType = .mcnNormal ↔ i.downloadType = .mcnNormal

theorem Attempted.refl : Attempted i i := ⟨rfl, rfl, rfl, rfl, Iff.rfl⟩

theorem Attempted.waits_eq {j : ConnectionQueueItem} (h : Attempted i j) :
    waits u j = waits u i := by
  have htype : (j.downloadType == QueueDownloadType.mcnNormal) =
      (i.downloadType == QueueDownloadType.mcnNormal) := by
    rw [Bool.eq_iff_iff, beq_iff_eq, beq_iff_eq]
    exact h.downloadType
  simp only [waits, h.user, h.mcn, h.running, htype]

theorem attempted_locked {downloads : List ConnectionQueueItem} :
    Attempted i (attemptDownloadUnsafe downloads x i).1 := by
  have hstate : ∀ {j : ConnectionQueueItem} (s : State) (e : Int), Attempted i j →
      Attempted i { j with state := s, errors := e } := by
    intro j s e h
    exact ⟨h.address, h.user, h.mcn, h.running, h.downloadType⟩
  unfold attemptDownloadUnsafe
  extract_lets alone started
  have hstarted : Attempted i started.1 := by
    simp only [started]
    split
    · rename_i hsmall
      refine ⟨rfl, rfl, rfl, rfl, ?_⟩
      simp only [Bool.and_eq_true, beq_iff_eq] at hsmall
      simp [hsmall.1.2]
    · split
      · rename_i hany
        refine ⟨rfl, rfl, rfl, rfl, ?_⟩
        simp only [Bool.and_eq_true, beq_iff_eq] at hany
        simp [hany.1.1]
      · exact Attempted.refl
  split
  · exact hstarted
  · split
    · split
      · split
        · exact hstate _ _ hstarted
        · exact hstate _ _ hstarted
      · exact hstarted
    · exact hstarted

theorem attempted {downloads : List ConnectionQueueItem} :
    Attempted i (attemptDownload downloads x i).1 := by
  unfold attemptDownload
  split
  · exact Attempted.refl
  · split
    · exact Attempted.refl
    · split
      · exact Attempted.refl
      · split
        · split
          · exact ⟨rfl, rfl, rfl, rfl, Iff.rfl⟩
          · exact Attempted.refl
        · have h := @attempted_locked x i downloads
          exact ⟨h.address, h.user, h.mcn, h.running, h.downloadType⟩

/-! ## The lookups -/

theorem findDownload_mem {aSource : Source} (h : m.findDownload aSource = some i) :
    i ∈ m.downloads := by
  unfold Manager.findDownload at h
  split at h
  · exact List.mem_of_find?_eq_some h
  · exact List.mem_of_find?_eq_some h

theorem findExtra_address {downloads : List ConnectionQueueItem}
    (h : findExtra downloads cqi = some i) : i.address ≠ cqi.address := by
  unfold findExtra at h
  split at h
  · exact absurd h (by simp)
  · split at h
    · exact absurd h (by simp)
    · have hfound := List.find?_some h
      simp only [Bool.and_eq_true, bne_iff_ne, ne_eq] at hfound
      exact hfound.2

theorem mem_removeExtraMCN (hi : i ∈ m.downloads) (ha : i.address = cqi.address) :
    i ∈ (m.removeExtraMCN cqi).downloads := by
  unfold Manager.removeExtraMCN
  split
  · exact hi
  · rename_i s hs
    refine Lib.Keyed.mem_remove.mpr ⟨hi, ?_⟩
    rw [ha]
    exact (findExtra_address hs).symm

theorem findExtra_modify {downloads : List ConnectionQueueItem}
    (hf : ∀ i, (f i).address = i.address) :
    findExtra (Lib.Keyed.modify ConnectionQueueItem.address cqi.address f downloads) cqi =
      findExtra downloads cqi := by
  unfold findExtra
  rw [Lib.Keyed.find?_modify]
  · intro i hi
    simp only [Bool.and_eq_true, bne_iff_ne, ne_eq] at hi
    exact hi.2
  · intro i hi
    simp [hf, hi]

/-- The failed item is not the extra one, so it may be written to before or after. -/
theorem removeExtraMCN_modify (hf : ∀ i, (f i).address = i.address) :
    (m.modify cqi.address f).removeExtraMCN cqi =
      (m.removeExtraMCN cqi).modify cqi.address f := by
  unfold Manager.removeExtraMCN
  simp only [Manager.modify, findExtra_modify hf]
  cases findExtra m.downloads cqi with
  | none => rfl
  | some s => simp only [Manager.putCQI, Lib.Keyed.remove_modify hf]

/-! ## The sections -/

theorem Distinct.next (h : Distinct m) : Distinct (next m t x).1 := by
  cases t with
  | getDownloadConnection aUser aSmallSlot =>
    simp only [McnConnections.next]
    split
    · exact h
    · apply h.modify
      intro i _
      exact resetFatalError_address
    · dsimp only
      refine h.getCQI ?_
      intro i
      rfl
  | onDownloadRunning aSource =>
    simp only [McnConnections.next]
    split
    · exact h
    · split
      · exact h
      · split
        all_goals
          apply h.modify
          intro i _
          rfl
  | createNewMCN aUser =>
    simp only [McnConnections.next]
    split
    · dsimp only
      refine h.getCQI ?_
      intro i
      rfl
    · exact h
  | failDownload aToken aFatalError =>
    simp only [McnConnections.next]
    split
    · exact h
    · apply h.removeExtraMCN.modify
      intro i _
      exact setFailed_address
  | onIdle aSource =>
    simp only [McnConnections.next]
    split
    · exact h
    · split
      · apply Distinct.removeExtraMCN
        apply h.modify
        intro i _
        rfl
      · exact h
  | addDownloadConnection uc =>
    simp only [McnConnections.next]
    split
    · exact h
    · split
      · exact h
      · apply h.modify
        intro i _
        exact setConnected_address
  | attemptDownload address =>
    simp only [McnConnections.next]
    split
    · exact h
    · rename_i cqi hcqi
      have haddress : cqi.address = address := by simpa using List.find?_some hcqi
      apply h.modify
      intro i hi
      rw [attempted.address, haddress, hi]
  | removeDownload token =>
    simp only [McnConnections.next]
    split
    · exact h
    · exact h.putCQI

/-- Each section that meets the condition leaves a user at most one waiting item. -/
theorem waiting_next (h : Distinct m) (hm : ∀ u, m.waiting u ≤ 1) (halone : Alone m ts t x)
    (u : UserPtr) : (next m t x).1.waiting u ≤ 1 := by
  cases t with
  | getDownloadConnection aUser aSmallSlot =>
    simp only [next]
    split
    · exact hm u
    · rw [waiting_modify_eq]
      · exact hm u
      · intro i
        exact waits_resetFatalError
    · -- the item becomes an MCN one when it joins
      simp only [Manager.getCQI, Manager.waiting, List.countP_append]
      have hnew := hm u
      simpa [waits, Manager.waiting] using hnew
  | onDownloadRunning aSource =>
    simp only [next]
    split
    · exact hm u
    · rename_i cqi hcqi
      have hle : ∀ u, (m.modify cqi.address fun c => { c with running := true }).waiting u ≤ 1 := by
        refine waiting_modify_le h (findDownload_mem hcqi) rfl (.inl ?_) hm
        simp [waits]
      split
      · exact hm u
      · split
        · exact hle u
        · exact hle u
  | createNewMCN aUser =>
    simp only [next]
    split
    · rename_i hdownload
      refine le_trans (waiting_getCQI (by intro i; rfl)) ?_
      split
      · rename_i hu
        rw [← hu, halone hdownload]
      · exact hm u
    · exact hm u
  | failDownload aToken aFatalError =>
    simp only [next]
    split
    · exact hm u
    · rename_i cqi hcqi
      have hmem : cqi ∈ (m.removeExtraMCN cqi).downloads :=
        mem_removeExtraMCN (List.mem_of_find?_eq_some hcqi) rfl
      refine waiting_modify_le h.removeExtraMCN hmem setFailed_user ?_ ?_ u
      · rw [waits_setFailed]
        exact halone cqi hcqi
      · intro u
        exact le_trans waiting_removeExtraMCN_le (hm u)
  | onIdle aSource =>
    simp only [next]
    split
    · exact hm u
    · rename_i cqi hcqi
      split
      · rename_i hrunning
        have hmem : cqi ∈ (m.removeExtraMCN cqi).downloads :=
          mem_removeExtraMCN (findDownload_mem hcqi) rfl
        rw [removeExtraMCN_modify (by intro i; rfl)]
        refine waiting_modify_le h.removeExtraMCN hmem rfl ?_ ?_ u
        · rcases halone cqi hcqi with hidle | hfree | hzero
          · exact absurd hrunning (by simp [hidle])
          · exact .inl hfree
          · exact .inr (.inr hzero)
        · intro u
          exact le_trans waiting_removeExtraMCN_le (hm u)
      · exact hm u
  | addDownloadConnection uc =>
    simp only [next]
    split
    · exact hm u
    · rename_i cqi hcqi
      split
      · exact hm u
      · rename_i hactive
        refine waiting_modify_le h (findDownload_mem hcqi) setConnected_user ?_ hm u
        rcases halone cqi hcqi with hjoined | hfree
        · exact absurd hjoined hactive
        · exact hfree
  | attemptDownload address =>
    simp only [next]
    split
    · exact hm u
    · rename_i cqi hcqi
      have haddress : cqi.address = address := by simpa using List.find?_some hcqi
      have hattempted := @attempted x cqi m.downloads
      rw [← haddress]
      refine waiting_modify_le h (List.mem_of_find?_eq_some hcqi) hattempted.user ?_ hm u
      rw [hattempted.waits_eq]
      cases waits cqi.user cqi with
      | false => exact .inl rfl
      | true => exact .inr (.inl rfl)
  | removeDownload token =>
    simp only [next]
    split
    · exact hm u
    · exact le_trans waiting_putCQI_le (hm u)

/-! ## Runs -/

end McnConnections
end Airdcpp
