import Airdcpp.Lib.ListOps
import Airdcpp.Transfer.UploadSlots

/-!
# `Transfer/SlotAccounting` — the slot counters are right until one of them is full

What each counter of `UploadManager` counts is a number of connections (`CountsOf`). A slot that is
lost takes a connection out of the list and one out of its counter (`CountsOf.release`), a slot
that is gained puts one in (`CountsOf.grant`); `updateSlotCounts` is the one after the other. The
bytes the counters are kept in hold no more than 255, and a 256th slot makes them wrap around.
-/

namespace Airdcpp
namespace UploadManager

/-! ## What the counters count -/

/-- The multi connections of `u` that hold a slot. -/
def userSlots (cs : List UploadConnection) (u : UserPtr) : Nat :=
  cs.countP fun c => c.isMCN && c.user == u && c.getSlotType == .userSlot

/-- The other connections that hold a slot. -/
def plainSlots (cs : List UploadConnection) : Nat :=
  cs.countP fun c => !c.isMCN && c.getSlotType == .userSlot

/-- The connections that hold a file slot of some source. -/
def fileSlots (cs : List UploadConnection) (aSource : Str) : Nat :=
  cs.countP fun c => c.hasSlot .fileSlot aSource

/-- The counters of `s` are right if the connections are `cs`. -/
structure CountsOf (cs : List UploadConnection) (s : UploadManager) : Prop where
  users : (s.multiUploads.map Prod.fst).Nodup
  multi : ∀ u, (s.multiUploads.lookup u).map UInt16.toNat =
    if userSlots cs u = 0 then none else some (userSlots cs u)
  mcn : s.mcnConnections.toNat = (s.multiUploads.map fun x => x.2.toNat).sum
  running : s.runningUsers.toNat = plainSlots cs + s.multiUploads.length
  extra : s.extra.toNat = fileSlots cs SLOT_SOURCE_MINISLOT
  small : s.smallFileConnections.toNat = fileSlots cs SLOT_SOURCE_MCN

/-- The counters are right. -/
def Accounted (s : UploadManager) : Prop := CountsOf s.connections s

theorem CountsOf.perm {cs cs' : List UploadConnection} {s : UploadManager} (h : CountsOf cs s)
    (hperm : cs.Perm cs') : CountsOf cs' s := by
  constructor
  · exact h.users
  · intro u
    rw [h.multi u, userSlots, userSlots, hperm.countP_eq]
  · exact h.mcn
  · rw [h.running, plainSlots, plainSlots, hperm.countP_eq]
  · rw [h.extra, fileSlots, fileSlots, hperm.countP_eq]
  · rw [h.small, fileSlots, fileSlots, hperm.countP_eq]

/-- The connections of a manager do not matter to its counters. -/
theorem CountsOf.congr {cs : List UploadConnection} {s s' : UploadManager} (h : CountsOf cs s)
    (hs : s' = { s with connections := s'.connections }) : CountsOf cs s' := by
  rw [hs]
  exact ⟨h.users, h.multi, h.mcn, h.running, h.extra, h.small⟩

theorem userSlots_cons (c : UploadConnection) (cs : List UploadConnection) (u : UserPtr) :
    userSlots (c :: cs) u = userSlots cs u +
      if c.isMCN = true ∧ c.user = u ∧ c.getSlotType = .userSlot then 1 else 0 := by
  simp only [userSlots, List.countP_cons, Bool.and_eq_true, beq_iff_eq, and_assoc]

theorem plainSlots_cons (c : UploadConnection) (cs : List UploadConnection) :
    plainSlots (c :: cs) = plainSlots cs +
      if c.isMCN = false ∧ c.getSlotType = .userSlot then 1 else 0 := by
  simp only [plainSlots, List.countP_cons, Bool.and_eq_true, Bool.not_eq_true', beq_iff_eq]

theorem hasSlot_fileSlot (c : UploadConnection) (aSource : Str) :
    c.hasSlot .fileSlot aSource = true ↔
      c.getSlotType = .fileSlot ∧ c.hasSlotSource aSource = true := by
  cases hslot : c.slot with
  | none => simp [UploadConnection.hasSlot, UploadConnection.hasSlotSource, hslot]
  | some slot =>
    simp [UploadConnection.hasSlot, UploadConnection.hasSlotSource, UploadConnection.getSlotType,
      TransferSlot.toType, hslot]

theorem fileSlots_cons (c : UploadConnection) (cs : List UploadConnection) (aSource : Str) :
    fileSlots (c :: cs) aSource = fileSlots cs aSource +
      if c.getSlotType = .fileSlot ∧ c.hasSlotSource aSource = true then 1 else 0 := by
  simp only [fileSlots, List.countP_cons, hasSlot_fileSlot]

/-- A connection counts for at most one of the two sources. -/
theorem hasSlotSource_unique {c : UploadConnection} {a b : Str} (ha : c.hasSlotSource a = true)
    (hb : c.hasSlotSource b = true) : a = b := by
  cases hslot : c.slot with
  | none => simp [UploadConnection.hasSlotSource, hslot] at ha
  | some slot =>
    simp only [UploadConnection.hasSlotSource, hslot, Option.any_some, beq_iff_eq] at ha hb
    exact ha.symm.trans hb

/-- A connection without a slot counts for nothing. -/
theorem CountsOf.slotless {cs : List UploadConnection} {s : UploadManager} {c : UploadConnection}
    (hc : c.getSlotType = .noSlot) : CountsOf (c :: cs) s ↔ CountsOf cs s := by
  have huser : ∀ u, userSlots (c :: cs) u = userSlots cs u := by
    intro u
    simp [userSlots_cons, hc]
  have hplain : plainSlots (c :: cs) = plainSlots cs := by simp [plainSlots_cons, hc]
  have hfile : ∀ a, fileSlots (c :: cs) a = fileSlots cs a := by
    intro a
    simp [fileSlots_cons, hc]
  constructor
  · intro h
    exact ⟨h.users, fun u => by rw [h.multi u, huser], h.mcn, by rw [h.running, hplain],
      by rw [h.extra, hfile], by rw [h.small, hfile]⟩
  · intro h
    exact ⟨h.users, fun u => by rw [h.multi u, huser], h.mcn, by rw [h.running, hplain],
      by rw [h.extra, hfile], by rw [h.small, hfile]⟩

/-! ## Slots that come and go -/

theorem toNat_add_one {b : UInt8} (h : b.toNat < 255) : (b + 1).toNat = b.toNat + 1 := by
  rw [UInt8.toNat_add]
  change (b.toNat + 1) % 256 = _
  omega

theorem toNat_sub_one {b : UInt8} (h : 0 < b.toNat) : (b - 1).toNat = b.toNat - 1 :=
  UInt8.toNat_sub_of_le _ _ (UInt8.le_iff_toNat_le.mpr h)

/-- The entry of a user one of whose multi connections holds a slot. -/
theorem CountsOf.entry {c : UploadConnection} {cs : List UploadConnection} {s : UploadManager}
    (h : CountsOf (c :: cs) s) (hmcn : c.isMCN = true) (hslot : c.getSlotType = .userSlot) :
    ∃ count l₁ l₂, s.multiUploads.lookup c.user = some count ∧
      count.toNat = userSlots cs c.user + 1 ∧ s.multiUploads = l₁ ++ (c.user, count) :: l₂ ∧
      (∀ x ∈ l₁, x.1 ≠ c.user) ∧ ∀ x ∈ l₂, x.1 ≠ c.user := by
  have hu : userSlots (c :: cs) c.user = userSlots cs c.user + 1 := by
    rw [userSlots_cons, if_pos ⟨hmcn, rfl, hslot⟩]
  have hmulti := h.multi c.user
  rw [hu, if_neg (Nat.succ_ne_zero _), Option.map_eq_some_iff] at hmulti
  obtain ⟨count, hlookup, hcount⟩ := hmulti
  obtain ⟨l₁, l₂, hl, h₁, h₂⟩ := Lib.lookup_split h.users hlookup
  exact ⟨count, l₁, l₂, hlookup, hcount, hl, h₁, h₂⟩

/-- `multiUploads` when a connection of `u` loses its slot. -/
theorem CountsOf.release_multi {c : UploadConnection} {cs : List UploadConnection}
    {s : UploadManager} (h : CountsOf (c :: cs) s) (hmcn : c.isMCN = true)
    (hslot : c.getSlotType = .userSlot) : CountsOf cs (s.changeMultiConnSlot c.user true) := by
  have hother : ∀ u, u ≠ c.user → userSlots (c :: cs) u = userSlots cs u := by
    intro u hne
    rw [userSlots_cons, if_neg fun h => hne h.2.1.symm, Nat.add_zero]
  have hplain : plainSlots (c :: cs) = plainSlots cs := by simp [plainSlots_cons, hmcn]
  have hfile : ∀ a, fileSlots (c :: cs) a = fileSlots cs a := by
    intro a
    simp [fileSlots_cons, hslot]
  obtain ⟨count, l₁, l₂, hlookup, hcount, hl, h₁, h₂⟩ := h.entry hmcn hslot
  have hsum := h.mcn
  have hrunning := h.running
  simp only [hl, List.map_append, List.map_cons, List.sum_append, List.sum_cons, hcount] at hsum
  rw [hl, List.length_append, List.length_cons, hplain] at hrunning
  have hsub : (count - 1).toNat = userSlots cs c.user := by
    rw [UInt16.toNat_sub_of_le _ _ (UInt16.le_iff_toNat_le.mpr (by change 1 ≤ _; omega)), hcount]
    rfl
  have hlookupOther : ∀ u, u ≠ c.user → ((l₁ ++ l₂).lookup u).map UInt16.toNat =
      if userSlots cs u = 0 then none else some (userSlots cs u) := by
    intro u hne
    have hu' := h.multi u
    rwa [hl, Lib.lookup_middle h₁, if_neg (by simpa using hne), hother u hne] at hu'
  have hkeys := h.users
  rw [hl] at hkeys
  unfold changeMultiConnSlot
  rw [hlookup]
  simp only [if_true]
  by_cases hzero : count - 1 = 0
  · have hcs : userSlots cs c.user = 0 := by rw [← hsub, hzero]; rfl
    rw [if_pos hzero, hl, Lib.filter_ne_split h₁ h₂]
    constructor
    · exact hkeys.sublist (((List.sublist_cons_self _ _).append_left _).map _)
    · intro u
      by_cases hne : u = c.user
      · subst hne
        rw [hcs, if_pos rfl, Lib.lookup_eq_none_of_ne]
        · rfl
        · intro x hx
          exact (List.mem_append.mp hx).elim (h₁ x) (h₂ x)
      · exact hlookupOther u hne
    · simp only [toNat_sub_one (b := s.mcnConnections) (by omega), List.map_append,
        List.sum_append]
      omega
    · simp only [toNat_sub_one (b := s.runningUsers) (by omega), List.length_append]
      omega
    · rw [← hfile]
      exact h.extra
    · rw [← hfile]
      exact h.small
  · have hcs : userSlots cs c.user ≠ 0 := by
      intro hcs
      exact hzero (UInt16.toNat_inj.mp (hsub.trans hcs))
    rw [if_neg hzero, hl, Lib.map_update_split h₁ h₂]
    constructor
    · simpa using hkeys
    · intro u
      rw [Lib.lookup_middle h₁]
      by_cases hne : u = c.user
      · subst hne
        rw [if_pos (beq_self_eq_true _), Option.map_some, hsub, if_neg hcs]
      · rw [if_neg (by simpa using hne)]
        exact hlookupOther u hne
    · simp only [toNat_sub_one (b := s.mcnConnections) (by omega), List.map_append, List.map_cons,
        List.sum_append, List.sum_cons, hsub]
      omega
    · simp only [List.length_append, List.length_cons]
      omega
    · rw [← hfile]
      exact h.extra
    · rw [← hfile]
      exact h.small

/-- `multiUploads` when a connection of `u` gets a slot. -/
theorem CountsOf.grant_multi {c : UploadConnection} {cs : List UploadConnection}
    {s : UploadManager} (h : CountsOf cs s) (hmcn : c.isMCN = true)
    (hslot : c.getSlotType = .userSlot) (hconns : s.mcnConnections.toNat < 255)
    (hrunning : s.runningUsers.toNat < 255) :
    CountsOf (c :: cs) (s.changeMultiConnSlot c.user false) := by
  have hu : userSlots (c :: cs) c.user = userSlots cs c.user + 1 := by
    rw [userSlots_cons, if_pos ⟨hmcn, rfl, hslot⟩]
  have hother : ∀ u, u ≠ c.user → userSlots (c :: cs) u = userSlots cs u := by
    intro u hne
    rw [userSlots_cons, if_neg fun h => hne h.2.1.symm, Nat.add_zero]
  have hplain : plainSlots (c :: cs) = plainSlots cs := by simp [plainSlots_cons, hmcn]
  have hfile : ∀ a, fileSlots (c :: cs) a = fileSlots cs a := by
    intro a
    simp [fileSlots_cons, hslot]
  have hmulti := h.multi c.user
  unfold changeMultiConnSlot
  cases hlookup : s.multiUploads.lookup c.user with
  | some count =>
    obtain ⟨l₁, l₂, hl, h₁, h₂⟩ := Lib.lookup_split h.users hlookup
    have hcount : count.toNat = userSlots cs c.user := by
      rw [hlookup, Option.map_some] at hmulti
      split at hmulti
      · cases hmulti
      · exact Option.some.inj hmulti
    have hsum := h.mcn
    have hlength := h.running
    simp only [hl, List.map_append, List.map_cons, List.sum_append, List.sum_cons] at hsum
    rw [hl, List.length_append, List.length_cons] at hlength
    have hadd : (count + 1).toNat = userSlots (c :: cs) c.user := by
      rw [UInt16.toNat_add, hu]
      change (count.toNat + 1) % 65536 = _
      omega
    have hkeys := h.users
    rw [hl] at hkeys
    simp only [Bool.false_eq_true, if_false]
    rw [hl, Lib.map_update_split h₁ h₂]
    constructor
    · simpa using hkeys
    · intro u
      rw [Lib.lookup_middle h₁]
      by_cases hne : u = c.user
      · subst hne
        rw [if_pos (beq_self_eq_true _), Option.map_some, hadd, if_neg (by omega)]
      · have hu' := h.multi u
        rw [hl, Lib.lookup_middle h₁, if_neg (by simpa using hne)] at hu'
        rw [if_neg (by simpa using hne), hother u hne]
        exact hu'
    · simp only [toNat_add_one hconns, List.map_append, List.map_cons, List.sum_append,
        List.sum_cons, hadd]
      omega
    · simp only [List.length_append, List.length_cons, hplain]
      omega
    · rw [hfile]
      exact h.extra
    · rw [hfile]
      exact h.small
  | none =>
    have hcs : userSlots cs c.user = 0 := by
      rw [hlookup, Option.map_none] at hmulti
      by_contra hne
      rw [if_neg hne] at hmulti
      cases hmulti
    have hnot := Lib.notMem_keys_of_lookup hlookup
    have hfirst : ∀ x ∈ s.multiUploads, x.1 ≠ c.user := by
      intro x hx hk
      exact hnot (List.mem_map.mpr ⟨x, hx, hk⟩)
    have hsum := h.mcn
    have hlength := h.running
    simp only [Bool.false_eq_true, if_false]
    constructor
    · simp only [List.map_append, List.map_cons, List.map_nil]
      exact List.nodup_append.mpr ⟨h.users, List.nodup_singleton _, by
        intro a ha b hb
        rw [List.mem_singleton.mp hb]
        rintro rfl
        exact hnot ha⟩
    · intro u
      rw [Lib.lookup_middle hfirst, List.append_nil]
      by_cases hne : u = c.user
      · subst hne
        rw [if_pos (beq_self_eq_true _), hu, hcs]
        rfl
      · rw [if_neg (by simpa using hne), hother u hne]
        exact h.multi u
    · simp only [toNat_add_one hconns, List.map_append, List.map_cons, List.map_nil,
        List.sum_append, List.sum_cons, List.sum_nil]
      change _ = _ + (1 + 0)
      omega
    · simp only [toNat_add_one hrunning, List.length_append, List.length_cons, List.length_nil,
        hplain]
      omega
    · rw [hfile]
      exact h.extra
    · rw [hfile]
      exact h.small

/-- The counters after a slot is lost. -/
theorem CountsOf.release {c : UploadConnection} {cs : List UploadConnection} {s : UploadManager}
    (h : CountsOf (c :: cs) s) : CountsOf cs (s.removeSlot c) := by
  unfold removeSlot
  cases hslot : c.getSlotType with
  | noSlot => exact (CountsOf.slotless hslot).mp h
  | userSlot =>
    simp only
    cases hmcn : c.isMCN with
    | true =>
      rw [if_pos rfl]
      exact h.release_multi hmcn hslot
    | false =>
      rw [if_neg Bool.false_ne_true]
      have hu : ∀ u, userSlots (c :: cs) u = userSlots cs u := by
        intro u
        simp [userSlots_cons, hmcn]
      have hrunning := h.running
      rw [plainSlots_cons, if_pos ⟨hmcn, hslot⟩] at hrunning
      constructor
      · exact h.users
      · intro u
        rw [← hu]
        exact h.multi u
      · exact h.mcn
      · simp only [toNat_sub_one (b := s.runningUsers) (by omega)]
        omega
      · simpa [fileSlots_cons, hslot] using h.extra
      · simpa [fileSlots_cons, hslot] using h.small
  | fileSlot =>
    have hu : ∀ u, userSlots (c :: cs) u = userSlots cs u := by
      intro u
      simp [userSlots_cons, hslot]
    have hplain : plainSlots (c :: cs) = plainSlots cs := by simp [plainSlots_cons, hslot]
    have hextra := h.extra
    have hsmall := h.small
    rw [fileSlots_cons] at hextra hsmall
    simp only [hslot, true_and] at hextra hsmall ⊢
    by_cases hmini : c.hasSlotSource SLOT_SOURCE_MINISLOT = true
    · have hne : ¬ c.hasSlotSource SLOT_SOURCE_MCN = true := fun hmcn =>
        absurd (hasSlotSource_unique hmini hmcn) (by decide)
      rw [if_pos hmini] at hextra ⊢
      rw [if_neg hne, Nat.add_zero] at hsmall
      refine ⟨h.users, fun u => by rw [← hu]; exact h.multi u, h.mcn, ?_, ?_, hsmall⟩
      · rw [← hplain]
        exact h.running
      · simp only [toNat_sub_one (b := s.extra) (by omega)]
        omega
    · rw [if_neg hmini, Nat.add_zero] at hextra
      rw [if_neg hmini]
      by_cases hmcn : c.hasSlotSource SLOT_SOURCE_MCN = true
      · rw [if_pos hmcn] at hsmall ⊢
        refine ⟨h.users, fun u => by rw [← hu]; exact h.multi u, h.mcn, ?_, hextra, ?_⟩
        · rw [← hplain]
          exact h.running
        · simp only [toNat_sub_one (b := s.smallFileConnections) (by omega)]
          omega
      · rw [if_neg hmcn, Nat.add_zero] at hsmall
        rw [if_neg hmcn]
        refine ⟨h.users, fun u => by rw [← hu]; exact h.multi u, h.mcn, ?_, hextra, hsmall⟩
        rw [← hplain]
        exact h.running

/-- No counter is at its end. -/
structure BelowLimit (s : UploadManager) : Prop where
  running : s.runningUsers.toNat < 255
  mcn : s.mcnConnections.toNat < 255
  extra : s.extra.toNat < 255
  small : s.smallFileConnections.toNat < 255

/-- The counters after a slot is gained. -/
theorem CountsOf.grant {c : UploadConnection} {cs : List UploadConnection} {s : UploadManager}
    (h : CountsOf cs s) (hlimit : BelowLimit s) : CountsOf (c :: cs) (s.addSlot c) := by
  unfold addSlot
  cases hslot : c.getSlotType with
  | noSlot => exact (CountsOf.slotless hslot).mpr h
  | userSlot =>
    simp only
    cases hmcn : c.isMCN with
    | true =>
      rw [if_pos rfl]
      exact h.grant_multi hmcn hslot hlimit.mcn hlimit.running
    | false =>
      rw [if_neg Bool.false_ne_true]
      have hu : ∀ u, userSlots (c :: cs) u = userSlots cs u := by
        intro u
        simp [userSlots_cons, hmcn]
      have hrunning := h.running
      constructor
      · exact h.users
      · intro u
        rw [hu]
        exact h.multi u
      · exact h.mcn
      · simp only [toNat_add_one hlimit.running, plainSlots_cons, if_pos (And.intro hmcn hslot)]
        omega
      · simpa [fileSlots_cons, hslot] using h.extra
      · simpa [fileSlots_cons, hslot] using h.small
  | fileSlot =>
    have hu : ∀ u, userSlots (c :: cs) u = userSlots cs u := by
      intro u
      simp [userSlots_cons, hslot]
    have hplain : plainSlots (c :: cs) = plainSlots cs := by simp [plainSlots_cons, hslot]
    have hfile : ∀ a, fileSlots (c :: cs) a =
        fileSlots cs a + if c.hasSlotSource a = true then 1 else 0 := by
      intro a
      simp [fileSlots_cons, hslot]
    have hextra := h.extra
    have hsmall := h.small
    simp only
    by_cases hmini : c.hasSlotSource SLOT_SOURCE_MINISLOT = true
    · have hne : ¬ c.hasSlotSource SLOT_SOURCE_MCN = true := fun hmcn =>
        absurd (hasSlotSource_unique hmini hmcn) (by decide)
      rw [if_pos hmini]
      refine ⟨h.users, fun u => by rw [hu]; exact h.multi u, h.mcn, ?_, ?_, ?_⟩
      · rw [hplain]
        exact h.running
      · rw [hfile, if_pos hmini, toNat_add_one hlimit.extra, hextra]
      · rw [hfile, if_neg hne]
        exact hsmall
    · rw [if_neg hmini]
      by_cases hmcn : c.hasSlotSource SLOT_SOURCE_MCN = true
      · rw [if_pos hmcn]
        refine ⟨h.users, fun u => by rw [hu]; exact h.multi u, h.mcn, ?_, ?_, ?_⟩
        · rw [hplain]
          exact h.running
        · rw [hfile, if_neg hmini]
          exact hextra
        · rw [hfile, if_pos hmcn, toNat_add_one hlimit.small, hsmall]
      · rw [if_neg hmcn]
        refine ⟨h.users, fun u => by rw [hu]; exact h.multi u, h.mcn, ?_, ?_, ?_⟩
        · rw [hplain]
          exact h.running
        · rw [hfile, if_neg hmini]
          exact hextra
        · rw [hfile, if_neg hmcn]
          exact hsmall

theorem sub_one_lt {b : UInt8} (hpos : 0 < b.toNat) (hlt : b.toNat < 255) :
    (b - 1).toNat < 255 := by
  rw [toNat_sub_one hpos]
  omega

/-- Losing a slot brings no counter to its end. -/
theorem BelowLimit.release {c : UploadConnection} {cs : List UploadConnection} {s : UploadManager}
    (hlimit : BelowLimit s) (h : CountsOf (c :: cs) s) : BelowLimit (s.removeSlot c) := by
  unfold removeSlot
  cases hslot : c.getSlotType with
  | noSlot => exact hlimit
  | userSlot =>
    simp only
    cases hmcn : c.isMCN with
    | true =>
      rw [if_pos rfl]
      obtain ⟨count, l₁, l₂, hlookup, hcount, hl, -, -⟩ := h.entry hmcn hslot
      have hsum := h.mcn
      have hrunning := h.running
      simp only [hl, List.map_append, List.map_cons, List.sum_append, List.sum_cons, hcount] at hsum
      rw [hl, List.length_append, List.length_cons] at hrunning
      unfold changeMultiConnSlot
      rw [hlookup]
      simp only [if_true]
      split
      · exact ⟨sub_one_lt (by omega) hlimit.running, sub_one_lt (by omega) hlimit.mcn,
          hlimit.extra, hlimit.small⟩
      · exact ⟨hlimit.running, sub_one_lt (by omega) hlimit.mcn, hlimit.extra, hlimit.small⟩
    | false =>
      rw [if_neg Bool.false_ne_true]
      have hrunning := h.running
      rw [plainSlots_cons, if_pos ⟨hmcn, hslot⟩] at hrunning
      exact ⟨sub_one_lt (by omega) hlimit.running, hlimit.mcn, hlimit.extra, hlimit.small⟩
  | fileSlot =>
    have hextra := h.extra
    have hsmall := h.small
    rw [fileSlots_cons] at hextra hsmall
    simp only [hslot, true_and] at hextra hsmall ⊢
    split
    · next hmini =>
      rw [if_pos hmini] at hextra
      exact ⟨hlimit.running, hlimit.mcn, sub_one_lt (by omega) hlimit.extra, hlimit.small⟩
    · split
      · next hmcn =>
        rw [if_pos hmcn] at hsmall
        exact ⟨hlimit.running, hlimit.mcn, hlimit.extra, sub_one_lt (by omega) hlimit.small⟩
      · exact hlimit

/-! ## One operation -/

@[simp] theorem changeMultiConnSlot_connections (s : UploadManager) (u : UserPtr) (r : Bool) :
    (s.changeMultiConnSlot u r).connections = s.connections := by
  unfold changeMultiConnSlot
  repeat' split
  all_goals rfl

@[simp] theorem removeSlot_connections (s : UploadManager) (c : UploadConnection) :
    (s.removeSlot c).connections = s.connections := by
  unfold removeSlot
  repeat' split
  all_goals simp

@[simp] theorem addSlot_connections (s : UploadManager) (c : UploadConnection) :
    (s.addSlot c).connections = s.connections := by
  unfold addSlot
  repeat' split
  all_goals simp

/-- The connections are different ones, and the counters are right. -/
structure Tracked (s : UploadManager) : Prop where
  tokens : (s.connections.map UploadConnection.token).Nodup
  counts : Accounted s

/-- Where a connection stands. -/
theorem find_split {s : UploadManager} (h : (s.connections.map UploadConnection.token).Nodup)
    {token : Nat} {c : UploadConnection} (hfind : s.find token = some c) :
    ∃ l₁ l₂, s.connections = l₁ ++ c :: l₂ ∧ ∀ x ∈ l₁ ++ l₂, x.token ≠ c.token := by
  obtain ⟨l₁, l₂, hl⟩ := List.append_of_mem (List.mem_of_find?_eq_some hfind)
  refine ⟨l₁, l₂, hl, ?_⟩
  have hperm : (c :: (l₁ ++ l₂)).Perm s.connections := by
    rw [hl]
    exact List.perm_middle.symm
  have hnodup := (hperm.map UploadConnection.token).nodup_iff.mpr h
  intro x hx hc
  exact (List.nodup_cons.mp hnodup).1 (List.mem_map.mpr ⟨x, hx, hc⟩)

theorem setSlot_connections {s : UploadManager} {c : UploadConnection}
    {l₁ l₂ : List UploadConnection} (hl : s.connections = l₁ ++ c :: l₂)
    (hne : ∀ x ∈ l₁ ++ l₂, x.token ≠ c.token) (slot : Option TransferSlot) :
    (s.setSlot c.token slot).connections = l₁ ++ { c with slot := slot } :: l₂ := by
  have hkeep : ∀ l : List UploadConnection, (∀ x ∈ l, x.token ≠ c.token) →
      (l.map fun x => if x.token = c.token then { x with slot := slot } else x) = l := by
    intro l hl
    conv => rhs; rw [← List.map_id l]
    apply List.map_congr_left
    intro x hx
    rw [if_neg (hl x hx)]
    rfl
  simp only [setSlot, hl, List.map_append, List.map_cons, if_true]
  rw [hkeep l₁ fun x hx => hne x (List.mem_append_left _ hx),
    hkeep l₂ fun x hx => hne x (List.mem_append_right _ hx)]

theorem Tracked.updateSlotCounts {s : UploadManager} (h : Tracked s) (hlimit : BelowLimit s)
    {token : Nat} {c : UploadConnection} (hfind : s.find token = some c) (slot : TransferSlot) :
    Tracked (s.updateSlotCounts c slot) := by
  unfold UploadManager.updateSlotCounts
  split
  · exact h
  · obtain ⟨l₁, l₂, hl, hne⟩ := find_split h.tokens hfind
    have hcounts : CountsOf (c :: (l₁ ++ l₂)) s :=
      h.counts.perm (by rw [hl]; exact List.perm_middle)
    have hconns : (((s.removeSlot c).setSlot c.token (some slot)).addSlot
        { c with slot := some slot }).connections = l₁ ++ { c with slot := some slot } :: l₂ := by
      rw [addSlot_connections]
      exact setSlot_connections (by rw [removeSlot_connections, hl]) hne _
    have hbelow := hlimit.release hcounts
    have hreleased : CountsOf (l₁ ++ l₂) ((s.removeSlot c).setSlot c.token (some slot)) :=
      hcounts.release.congr rfl
    have hgranted := hreleased.grant (c := { c with slot := some slot })
      ⟨hbelow.running, hbelow.mcn, hbelow.extra, hbelow.small⟩
    constructor
    · have htokens := h.tokens
      rw [hl] at htokens
      rw [hconns]
      simpa using htokens
    · refine CountsOf.perm hgranted ?_
      rw [hconns]
      exact List.perm_middle.symm

theorem Tracked.removeConnection {s : UploadManager} (h : Tracked s) {token : Nat}
    {c : UploadConnection} (hfind : s.find token = some c) : Tracked (s.removeConnection c) := by
  obtain ⟨l₁, l₂, hl, hne⟩ := find_split h.tokens hfind
  have hcounts : CountsOf (c :: (l₁ ++ l₂)) s := h.counts.perm (by rw [hl]; exact List.perm_middle)
  have hconns : (s.removeConnection c).connections = l₁ ++ l₂ := by
    have hset := setSlot_connections (s := s.removeSlot c) (by rw [removeSlot_connections, hl]) hne
      none
    simp only [UploadManager.removeConnection, hset]
    rw [List.filter_append, List.filter_cons_of_neg (by simp), ← List.filter_append,
      List.filter_eq_self.mpr]
    intro x hx
    simpa using hne x hx
  constructor
  · have htokens := h.tokens
    rw [hl] at htokens
    rw [hconns]
    exact htokens.sublist (((List.sublist_cons_self _ _).append_left _).map _)
  · unfold Accounted
    rw [hconns]
    exact hcounts.release.congr rfl

theorem Tracked.addConnection {s : UploadManager} (h : Tracked s) {conn : UploadConnection}
    (hallowed : Allowed s (.addConnection conn)) : Tracked (s.next (.addConnection conn)) := by
  obtain ⟨hslot, hne⟩ := hallowed
  have hperm : (s.connections ++ [conn]).Perm (conn :: s.connections) :=
    List.perm_append_singleton _ _
  constructor
  · refine ((hperm.map _).nodup_iff).mpr (List.nodup_cons.mpr ⟨?_, h.tokens⟩)
    intro hmem
    obtain ⟨c, hc, heq⟩ := List.mem_map.mp hmem
    exact hne c hc heq
  · have hcounts : CountsOf (conn :: s.connections) s := by
      refine (CountsOf.slotless ?_).mpr h.counts
      simp [UploadConnection.getSlotType, TransferSlot.toType, hslot]
    exact (hcounts.perm hperm.symm).congr rfl

/-- A slot is only assigned while no counter is at its end. -/
def InBounds (s : UploadManager) : Op → Prop
  | .prepareFile _ _ => BelowLimit s
  | _ => True

theorem Tracked.next {s : UploadManager} (h : Tracked s) {o : Op} (ho : Allowed s o)
    (hlimit : InBounds s o) : Tracked (s.next o) := by
  cases o with
  | addConnection conn => exact h.addConnection ho
  | prepareFile token r =>
    simp only [UploadManager.next]
    cases hfind : s.find token with
    | none => exact h
    | some c =>
      simp only [Option.elim, prepareFile]
      split
      · split
        · exact h.updateSlotCounts hlimit hfind _
        · exact h
      · exact h
  | removeConnection token =>
    simp only [UploadManager.next]
    cases hfind : s.find token with
    | none => exact h
    | some c => exact h.removeConnection hfind

theorem tracked_initial {s : UploadManager} (h : Initial s) : Tracked s := by
  subst h
  exact ⟨.nil, ⟨.nil, fun _ => rfl, rfl, rfl, rfl, rfl⟩⟩

/-! ## The configured slots -/

/-- Losing a slot adds no running user. -/
theorem CountsOf.release_running {c : UploadConnection} {cs : List UploadConnection}
    {s : UploadManager} (h : CountsOf (c :: cs) s) :
    (s.removeSlot c).runningUsers.toNat ≤ s.runningUsers.toNat := by
  unfold removeSlot
  cases hslot : c.getSlotType with
  | noSlot => exact Nat.le_refl _
  | userSlot =>
    simp only
    cases hmcn : c.isMCN with
    | true =>
      rw [if_pos rfl]
      obtain ⟨count, l₁, l₂, hlookup, -, hl, -, -⟩ := h.entry hmcn hslot
      have hrunning := h.running
      rw [hl, List.length_append, List.length_cons] at hrunning
      unfold changeMultiConnSlot
      rw [hlookup]
      simp only [if_true]
      split
      · simp only [toNat_sub_one (b := s.runningUsers) (by omega)]
        omega
      · exact Nat.le_refl _
    | false =>
      rw [if_neg Bool.false_ne_true]
      have hrunning := h.running
      rw [plainSlots_cons, if_pos ⟨hmcn, hslot⟩] at hrunning
      simp only [toNat_sub_one (b := s.runningUsers) (by omega)]
      omega
  | fileSlot =>
    simp only
    repeat' split
    all_goals exact Nat.le_refl _

/-- Gaining one adds one at most, and only a permanent slot does. -/
theorem addSlot_running {c : UploadConnection} {s : UploadManager} (hlimit : BelowLimit s) :
    (s.addSlot c).runningUsers.toNat ≤
      s.runningUsers.toNat + if c.getSlotType = .userSlot then 1 else 0 := by
  unfold addSlot
  cases hslot : c.getSlotType with
  | noSlot => exact Nat.le_refl _
  | userSlot =>
    simp only [if_true, changeMultiConnSlot, Bool.false_eq_true, if_false]
    repeat' split
    all_goals simp only [toNat_add_one hlimit.running, Nat.le_refl, Nat.le_add_right]
  | fileSlot =>
    simp only
    repeat' split
    all_goals simp

/-- Neither a hook nor the upload speed grants a slot, and `n` slots are configured. -/
def StandardOnly (n : UInt8) (_ : UploadManager) : Op → Prop
  | .prepareFile _ r => r.slots = n ∧ r.lowSpeedSlotsRemaining = false ∧
      ∀ data, r.hooks = some data → ∀ slot ∈ data, slot = none
  | _ => True

theorem parseAutoGrant_none {data : List (Option TransferSlot)} (h : ∀ slot ∈ data, slot = none) :
    parseAutoGrant data = none := by
  have hfold : ∀ l : List (Option TransferSlot), (∀ slot ∈ l, slot = none) →
      l.foldl (fun a b => if (TransferSlot.toType a).toNat < (TransferSlot.toType b).toNat then b
        else a) none = none := by
    intro l
    induction l with
    | nil => intro _; rfl
    | cons b l ih =>
      intro hl
      rw [List.foldl_cons, hl b List.mem_cons_self]
      exact ih fun x hx => hl x (List.mem_cons_of_mem _ hx)
  cases data with
  | nil => rfl
  | cons slot data =>
    rw [parseAutoGrant, h slot List.mem_cons_self]
    exact hfold data fun x hx => h x (List.mem_cons_of_mem _ hx)

/-- Then a new permanent slot is a free one. -/
theorem freeSlots_of_parseSlot {n : UInt8} {s : UploadManager} {c : UploadConnection} {token : Nat}
    {r : SlotRequest} {slot : TransferSlot} (hr : StandardOnly n s (.prepareFile token r))
    (hparse : s.parseSlotHookedThrow c r = .ok (some slot)) (hc : c.getSlotType ≠ .userSlot)
    (hslot : slot.type = .userSlot) : s.runningUsers.toNat < n.toNat := by
  obtain ⟨rfl, hspeed, hhooks⟩ := hr
  unfold parseSlotHookedThrow at hparse
  rw [if_neg hc] at hparse
  simp only at hparse
  split at hparse
  · cases hparse
  cases hdata : r.hooks with
  | none => rw [hdata] at hparse; cases hparse
  | some data =>
    simp only [hdata, parseAutoGrant_none (hhooks data hdata), TransferSlot.toType] at hparse
    split at hparse
    · cases hparse
      cases hslot
    · simp only [reduceCtorEq, if_false] at hparse
      split at hparse
      · next hfree =>
        simp [standardSlotsRemaining, hspeed, getFreeSlots] at hfree
        omega
      · split at hparse
        · cases hparse
          cases hslot
        · cases hparse

/-- The running users stay within the configured slots. -/
theorem Tracked.running_le {n : UInt8} {s : UploadManager} (h : Tracked s) {o : Op}
    (hlimit : InBounds s o) (hstandard : StandardOnly n s o)
    (hrunning : s.runningUsers.toNat ≤ n.toNat) : (s.next o).runningUsers.toNat ≤ n.toNat := by
  cases o with
  | addConnection conn => exact hrunning
  | removeConnection token =>
    simp only [UploadManager.next]
    cases hfind : s.find token with
    | none => exact hrunning
    | some c =>
      obtain ⟨l₁, l₂, hl, -⟩ := find_split h.tokens hfind
      have hcounts : CountsOf (c :: (l₁ ++ l₂)) s :=
        h.counts.perm (by rw [hl]; exact List.perm_middle)
      exact Nat.le_trans hcounts.release_running hrunning
  | prepareFile token r =>
    simp only [UploadManager.next]
    cases hfind : s.find token with
    | none => exact hrunning
    | some c =>
      simp only [Option.elim, prepareFile]
      split
      · next slot hparse =>
        split
        · unfold UploadManager.updateSlotCounts
          split
          · exact hrunning
          · next hne =>
            obtain ⟨l₁, l₂, hl, -⟩ := find_split h.tokens hfind
            have hcounts : CountsOf (c :: (l₁ ++ l₂)) s :=
              h.counts.perm (by rw [hl]; exact List.perm_middle)
            have hreleased := hcounts.release_running
            have hbelow := hlimit.release hcounts
            have hadded := addSlot_running (c := { c with slot := some slot })
              (s := (s.removeSlot c).setSlot c.token (some slot))
              ⟨hbelow.running, hbelow.mcn, hbelow.extra, hbelow.small⟩
            refine Nat.le_trans hadded ?_
            change (s.removeSlot c).runningUsers.toNat + (if slot.type = .userSlot then 1 else 0) ≤
              _
            by_cases hslot : slot.type = .userSlot
            · have hfree := freeSlots_of_parseSlot hstandard hparse
                (by rw [← hslot]; exact hne) hslot
              rw [if_pos hslot]
              omega
            · rw [if_neg hslot]
              omega
        · exact hrunning
      · exact hrunning

/-! ## The counters over whole runs -/

/-- **The slot counters are right as long as none of them is full.** In every run that assigns slots
    only while no counter is at 255, they are right in every state; and where only configured
    slots are given out, no more users run than there are slots. -/
theorem slots_accounted {s : UploadManager}
    (hs : Lib.Reaches (system.restrict InBounds) Initial s) :
    Accounted s ∧
      ∀ n, Lib.Reaches ((system.restrict InBounds).restrict (StandardOnly n)) Initial s →
        s.runningUsers ≤ n := by
  refine ⟨?_, ?_⟩
  · refine (Lib.Reaches.invariant (I := Tracked) (fun _ h => tracked_initial h) ?_ hs).counts
    intro s o h ho
    exact h.next ho.1 ho.2
  · intro n hs
    refine UInt8.le_iff_toNat_le.mpr (Lib.Reaches.invariant
      (I := fun s => Tracked s ∧ s.runningUsers.toNat ≤ n.toNat) ?_ ?_ hs).2
    · intro s h
      refine ⟨tracked_initial h, ?_⟩
      subst h
      exact Nat.zero_le _
    · intro s o h ho
      exact ⟨h.1.next ho.1.1 ho.1.2, h.1.running_le ho.1.2 ho.2 h.2⟩

/-- A connection without a slot asks for one of five. -/
theorem slots_accounted_first :
    let c : UploadConnection := { token := 0, user := Vector.replicate 24 0, isMCN := true }
    let s := system.run {} [.addConnection c, .prepareFile 0 { slots := 5 }]
    s.mcnConnections = 1 ∧ Accounted s ∧ s.runningUsers ≤ 5 := by
  intro c s
  have hs : Lib.Reaches (system.restrict InBounds) Initial s := by
    refine Lib.Reaches.run (.start rfl) ?_
    refine ⟨⟨⟨rfl, by simp⟩, trivial⟩, ⟨trivial, ?_⟩, trivial⟩
    exact ⟨by decide, by decide, by decide, by decide⟩
  refine ⟨by decide, (slots_accounted hs).1,
    (slots_accounted hs).2 5 (Lib.Reaches.run (.start rfl) ?_)⟩
  · refine ⟨⟨⟨⟨rfl, by simp⟩, trivial⟩, trivial⟩, ⟨⟨trivial, ?_⟩, rfl, rfl, ?_⟩, trivial⟩
    · exact ⟨by decide, by decide, by decide, by decide⟩
    · intro data hdata slot hslot
      cases hdata
      exact absurd hslot (by simp)

/-! Where a counter is full, one more slot takes it back to zero. -/

/-- A connection that keeps a slot granted by a hook. -/
def favorite (token : Nat) (granted : Bool) : UploadConnection where
  token := token
  user := Vector.replicate 24 0
  isMCN := false
  slot := if granted then some ⟨.userSlot, str "favorites"⟩ else none

/-- `k` of them. -/
def favorites (k : Nat) : UploadManager where
  connections := (List.range k).map fun i => favorite i true
  runningUsers := UInt8.ofNat k

def favoriteRequest : SlotRequest where
  slots := 5
  hooks := some [some ⟨.userSlot, str "favorites"⟩]

theorem next_favorites (k : Nat) :
    ((favorites k).next (.addConnection (favorite k false))).next (.prepareFile k favoriteRequest) =
      favorites (k + 1) := by
  have hfresh : ∀ c ∈ (favorites k).connections, c.token ≠ k := by
    intro c hc
    obtain ⟨i, hi, rfl⟩ := List.mem_map.mp hc
    exact Nat.ne_of_lt (List.mem_range.mp hi)
  have hfind : ((favorites k).next (.addConnection (favorite k false))).find k =
      some (favorite k false) := by
    have hnone : (favorites k).connections.find? (fun c => c.token == k) = none := by
      rw [List.find?_eq_none]
      intro c hc
      simpa using hfresh c hc
    simp only [find, UploadManager.next, List.find?_append, hnone]
    simp [favorite]
  have hparse : ((favorites k).next (.addConnection (favorite k false))).parseSlotHookedThrow
      (favorite k false) favoriteRequest = .ok (some ⟨.userSlot, str "favorites"⟩) := rfl
  have hconns : (((favorites k).next (.addConnection (favorite k false))).setSlot k
      (some ⟨.userSlot, str "favorites"⟩)).connections = (favorites (k + 1)).connections := by
    have hset := @setSlot_connections ((favorites k).next (.addConnection (favorite k false)))
      (favorite k false) (favorites k).connections [] rfl
      (by simpa [favorite] using hfresh) (some ⟨.userSlot, str "favorites"⟩)
    refine hset.trans ?_
    simp [favorites, favorite, List.range_succ]
  rw [UploadManager.next.eq_def]
  simp only [hfind, Option.elim, prepareFile, hparse]
  change UploadManager.mk _ [] (UInt8.ofNat k + 1) 0 0 0 = UploadManager.mk _ [] _ 0 0 0
  congr 1
  exact (UInt8.ofNat_add k 1).symm

theorem reaches_favorites (k : Nat) : Lib.Reaches system Initial (favorites k) := by
  induction k with
  | zero => exact .start rfl
  | succ k ih =>
    have hallowed : system.allowed (favorites k) (.addConnection (favorite k false)) := by
      refine ⟨rfl, ?_⟩
      intro c hc
      obtain ⟨i, hi, rfl⟩ := List.mem_map.mp hc
      exact Nat.ne_of_lt (List.mem_range.mp hi)
    rw [← next_favorites]
    exact Lib.Reaches.step (Op.prepareFile k favoriteRequest) (ih.step _ hallowed) trivial

/-- 256 favorite users with a slot, and `runningUsers` is zero. -/
theorem not_accounted_favorites :
    ¬ ∀ s, Lib.Reaches system Initial s → Accounted s := by
  intro h
  have hrunning := (h _ (reaches_favorites 256)).running
  have hplain : plainSlots (favorites 256).connections = 256 := by
    rw [plainSlots, List.countP_eq_length.mpr]
    · simp [favorites]
    · intro c hc
      obtain ⟨i, -, rfl⟩ := List.mem_map.mp hc
      rfl
  have hzero : (favorites 256).runningUsers.toNat = 0 := rfl
  omega

end UploadManager
end Airdcpp
