import Airdcpp.Hub.AdcHub
import Airdcpp.Lib.Keyed

/-!
# `Hub/OnlineUsers` — the hubs' user lists and the list of online users agree

An object is *present* while it is in its hub's map under its SID. The online users are the present
objects that `UserConnected` was fired for. A hub can break this: it can send the `INF` of another
CID for a SID that is online, an `INF` that makes a user a hub after he came online, or bring users
online under the SID of the hub itself. `Orderly` is the condition that it does not.
-/

namespace Airdcpp
namespace Hub
namespace ClientManager

variable {s s' : ClientManager} {a b hub : Nat} {sid : SID} {cid : CID} {c : AdcCommand}

def InRange (i : Int) : Prop := -2 ^ 63 ≤ i ∧ i < 2 ^ 63

instance (i : Int) : Decidable (InRange i) := inferInstanceAs (Decidable (_ ∧ _))

theorem int64_eq {i : Int} (h : InRange i) : int64 i = i := by
  refine Int.bmod_eq_of_le ?_ ?_
  · have := h.1
    norm_num at this ⊢
    exact this
  · have := h.2
    norm_num at this ⊢
    exact this

/-- The shared bytes of the users of a hub. -/
def shared (s : ClientManager) (hub : Nat) : Int :=
  ((s.hubs hub).users.map fun x => OnlineUser.getBytesShared (s.ous x.2).info).sum

def sharedBy (s : ClientManager) (hub : Nat) (sid : SID) : Int :=
  ((s.findSID hub sid).map fun a => OnlineUser.getBytesShared (s.ous a).info).getD 0

/-- The last value of `SS`, if the parameters have one. -/
def lastSS (parameters : List Str) : Option Str :=
  (parameters.reverse.find? fun p => p.take 2 == str "SS").map fun p => p.drop 2

/-- The condition on an event. The sums of the shared bytes stay within `int64_t`. -/
def Orderly (s : ClientManager) : Event → Prop
  | .inf hub c =>
    -- the CID of a SID that is online does not change
    (∀ cid ∈ c.getParam (str "ID") 0, s.findCID hub (CID.ofBase32 cid) = none →
      ∀ a ∈ s.findSID hub c.«from», a ∉ s.onlineUsers ∨
        OnlineUser.isHub (c.parameters.foldl updateParam (0, (s.ous a).info)).2 = true) ∧
    -- the hub's own object is the only one with the zero CID
    (c.getParam (str "ID") 0 = none → c.«from» = AdcCommand.HUB_SID →
      s.findSID hub AdcCommand.HUB_SID = none → s.findCID hub CID.zero = none) ∧
    ∀ v ∈ lastSS c.parameters,
      InRange (s.shared hub - s.sharedBy hub c.«from» + Util.toInt64 v)
  | .qui hub c =>
    ∀ a ∈ s.findSID hub (AdcCommand.toSID (c.parameters.getD 0 [])),
      (OnlineUser.isHub (s.ous a).info = true → a ∉ s.onlineUsers) ∧
      InRange (s.shared hub - OnlineUser.getBytesShared (s.ous a).info)
  | .disconnected hub => ∀ a ∈ s.findSID hub AdcCommand.HUB_SID, a ∉ s.onlineUsers

instance (s : ClientManager) (e : Event) : Decidable (Orderly s e) := by
  cases e <;> simp only [Orderly] <;> infer_instance

def Present (s : ClientManager) (a : Nat) : Prop :=
  s.findSID (s.ous a).hub (s.ous a).sid = some a

instance (s : ClientManager) (a : Nat) : Decidable (Present s a) :=
  inferInstanceAs (Decidable (_ = _))

/-- What is promised of the lists. -/
structure Agree (s : ClientManager) : Prop where
  entries : ∀ a, s.onlineUsers.count a = if a ∈ s.connected ∧ Present s a then 1 else 0
  online : ∀ cid, s.online cid = true ↔ ∃ a ∈ s.onlineUsers, (s.ous a).cid = cid
  cids : ∀ hub sid sid' a a', s.findSID hub sid = some a → s.findSID hub sid' = some a' →
    (s.ous a).cid = (s.ous a').cid → sid = sid'
  bytes : ∀ hub, (s.hubs hub).availableBytes = s.shared hub

/-! ## The invariant -/

/-- The users of the hubs. -/
structure Hubs (s : ClientManager) : Prop where
  keys : ∀ hub, ((s.hubs hub).users.map Prod.fst).Nodup
  owner : ∀ hub x, x ∈ (s.hubs hub).users → (s.ous x.2).hub = hub ∧ (s.ous x.2).sid = x.1 ∧
    x.2 < s.nextAddress
  cids : ∀ hub x y, x ∈ (s.hubs hub).users → y ∈ (s.hubs hub).users →
    (s.ous x.2).cid = (s.ous y.2).cid → x.1 = y.1
  bytes : ∀ hub, (s.hubs hub).availableBytes = s.shared hub ∧ InRange (s.shared hub)

/-- The online users and the flags. -/
structure Online (s : ClientManager) : Prop where
  nodup : s.onlineUsers.Nodup
  flag : ∀ cid, s.online cid = true ↔ ∃ a ∈ s.onlineUsers, (s.ous a).cid = cid

structure Inv (s : ClientManager) : Prop extends Hubs s, Online s where
  mem : ∀ a, a ∈ s.onlineUsers ↔ a ∈ s.connected ∧ Present s a
  fresh : ∀ a ∈ s.connected, a < s.nextAddress

theorem Hubs.lookup_iff (h : Hubs s) :
    s.findSID hub sid = some a ↔ (sid, a) ∈ (s.hubs hub).users :=
  Lib.lookup_eq_some_iff_mem (h.keys hub)

theorem Hubs.present_of_mem (h : Hubs s) (hmem : (sid, a) ∈ (s.hubs hub).users) :
    Present s a := by
  obtain ⟨hhub, hsid, -⟩ := h.owner hub _ hmem
  rw [Present, hhub, hsid]
  exact h.lookup_iff.mpr hmem

theorem Inv.agree (h : Inv s) : Agree s where
  entries a := by
    have hcount := List.nodup_iff_count_le_one.mp h.nodup a
    split
    · rename_i hmem
      have hpos := List.count_pos_iff.mpr ((h.mem a).mpr hmem)
      omega
    · rename_i hmem
      exact List.count_eq_zero_of_not_mem fun hin => hmem ((h.mem a).mp hin)
  online := h.flag
  cids hub sid sid' a a' ha ha' hcid :=
    h.cids hub (sid, a) (sid', a') (h.lookup_iff.mp ha) (h.lookup_iff.mp ha') hcid
  bytes hub := (h.bytes hub).1

/-! ## `putOnline` and `putOffline` -/

theorem Online.putOnline (h : Online s) (ha : a ∉ s.onlineUsers) : Online (s.putOnline a) where
  nodup := List.nodup_cons.mpr ⟨ha, h.nodup⟩
  flag cid := by
    simp only [ClientManager.putOnline, List.exists_mem_cons_iff]
    by_cases hcid : (s.ous a).cid = cid
    · subst hcid
      rw [Function.update_self]
      simp
    · rw [Function.update_of_ne (Ne.symm hcid), h.flag]
      simp [hcid]

theorem Online.putOffline (h : Online s) : Online (s.putOffline a) := by
  unfold ClientManager.putOffline
  split
  · rename_i ha
    refine ⟨h.nodup.erase a, ?_⟩
    intro cid
    have hperm := List.perm_cons_erase ha
    have hcount := hperm.countP_eq fun ou2 => (s.ous ou2).cid == (s.ous a).cid
    rw [List.countP_cons_of_pos (by simp)] at hcount
    have hold := h.flag cid
    simp only [hperm.mem_iff, List.exists_mem_cons_iff] at hold
    dsimp only
    split
    · rename_i hlast
      have hzero : (s.onlineUsers.erase a).countP
          (fun ou2 => (s.ous ou2).cid == (s.ous a).cid) = 0 := by omega
      rw [List.countP_eq_zero] at hzero
      by_cases hcid : (s.ous a).cid = cid
      · subst hcid
        rw [Function.update_self]
        simp only [Bool.false_eq_true, false_iff, not_exists, not_and]
        intro b hb hsame
        exact hzero b hb (by simp [hsame])
      · rw [Function.update_of_ne (Ne.symm hcid), hold]
        simp [hcid]
    · rename_i hrest
      rw [hold]
      constructor
      · rintro (hcid | hother)
        · have hpos : 0 < (s.onlineUsers.erase a).countP
              (fun ou2 => (s.ous ou2).cid == (s.ous a).cid) := by omega
          obtain ⟨b, hb, hsame⟩ := List.countP_pos_iff.mp hpos
          exact ⟨b, hb, (by simpa using hsame : (s.ous b).cid = _).trans hcid⟩
        · exact hother
      · exact .inr
  · exact h

theorem mem_putOffline (h : Online s) :
    b ∈ (s.putOffline a).onlineUsers ↔ b ∈ s.onlineUsers ∧ b ≠ a := by
  unfold ClientManager.putOffline
  split
  · rw [h.nodup.mem_erase_iff, and_comm]
  · rename_i ha
    refine (and_iff_left_of_imp ?_).symm
    rintro hb rfl
    exact ha hb

/-- `putOffline` writes to the list and the flags only. -/
theorem putOffline_same :
    (s.putOffline a).hubs = s.hubs ∧ (s.putOffline a).ous = s.ous ∧
      (s.putOffline a).nextAddress = s.nextAddress ∧
      (s.putOffline a).connected = s.connected := by
  unfold ClientManager.putOffline
  split
  · exact ⟨rfl, rfl, rfl, rfl⟩
  · exact ⟨rfl, rfl, rfl, rfl⟩

theorem present_putOffline : Present (s.putOffline a) b ↔ Present s b := by
  obtain ⟨hhubs, hous, -, -⟩ := @putOffline_same s a
  rw [Present, Present, findSID, findSID, hhubs, hous]

theorem Hubs.putOffline (h : Hubs s) : Hubs (s.putOffline a) := by
  obtain ⟨hhubs, hous, hnext, -⟩ := @putOffline_same s a
  constructor
  · rw [hhubs]
    exact h.keys
  · rw [hhubs, hous, hnext]
    exact h.owner
  · rw [hhubs, hous]
    exact h.cids
  · intro hub
    rw [shared, hhubs, hous]
    exact h.bytes hub

/-! ## The parameters of an `INF` -/

section Update

variable {info : Str → Str} {ab ab' : Int} {ps : List Str} {p : Str}

theorem lastSS_append :
    lastSS (ps ++ [p]) = if p.take 2 = str "SS" then some (p.drop 2) else lastSS ps := by
  unfold lastSS
  rw [List.reverse_append, List.reverse_singleton, List.singleton_append, List.find?_cons]
  split
  · rename_i hp
    rw [if_pos (beq_iff_eq.mp hp)]
    rfl
  · rename_i hp
    rw [if_neg (by simpa using hp)]

/-- The identity does not depend on the sum. -/
theorem foldl_updateParam_info :
    (ps.foldl updateParam (ab, info)).2 = (ps.foldl updateParam (ab', info)).2 := by
  induction ps using List.reverseRecOn with
  | nil => rfl
  | append_singleton ps p ih =>
    rw [List.foldl_append, List.foldl_append, List.foldl_cons, List.foldl_cons, List.foldl_nil,
      List.foldl_nil]
    generalize ps.foldl updateParam (ab, info) = x at ih ⊢
    generalize ps.foldl updateParam (ab', info) = y at ih ⊢
    unfold updateParam
    split
    · exact ih
    · split
      · simp only [ih]
      · split
        · exact ih
        · simp only [ih]

theorem foldl_updateParam :
    OnlineUser.getBytesShared (ps.foldl updateParam (ab, info)).2 =
      ((lastSS ps).map Util.toInt64).getD (OnlineUser.getBytesShared info) ∧
    (ps.foldl updateParam (ab, info)).1 =
      if lastSS ps = none then ab
      else int64 (ab - OnlineUser.getBytesShared info +
        OnlineUser.getBytesShared (ps.foldl updateParam (ab, info)).2) := by
  induction ps using List.reverseRecOn with
  | nil => exact ⟨rfl, rfl⟩
  | append_singleton ps p ih =>
    obtain ⟨hinfo, hsum⟩ := ih
    rw [List.foldl_append, List.foldl_cons, List.foldl_nil, lastSS_append]
    generalize ps.foldl updateParam (ab, info) = x at hinfo hsum
    unfold updateParam
    by_cases hSS : p.take 2 = str "SS"
    · have hlen : ¬ p.length < 2 := by
        intro hlt
        have hlength := congrArg List.length hSS
        rw [List.length_take] at hlength
        have htwo : (str "SS").length = 2 := rfl
        omega
      rw [if_neg hlen, if_pos hSS, if_pos hSS]
      refine ⟨?_, ?_⟩
      · simp only [OnlineUser.getBytesShared, Function.update_self, Option.map_some,
          Option.getD_some]
      · rw [if_neg (by simp)]
        simp only [int64, Int.bmod_add_bmod]
        split at hsum
        · rename_i hnone
          rw [hsum, hinfo, hnone]
          rfl
        · rw [hsum, int64, Int.sub_eq_add_neg, Int.add_assoc, Int.bmod_add_bmod]
          congr 1
          ring
    · rw [if_neg hSS, if_neg hSS]
      split
      · exact ⟨hinfo, hsum⟩
      · split
        · exact ⟨hinfo, hsum⟩
        · have hkept : OnlineUser.getBytesShared (Function.update x.2 (p.take 2) (p.drop 2)) =
              OnlineUser.getBytesShared x.2 := by
            rw [OnlineUser.getBytesShared, Function.update_of_ne (Ne.symm hSS),
              ← OnlineUser.getBytesShared]
          exact ⟨hkept.trans hinfo, hkept ▸ hsum⟩

end Update

/-! ## A new object -/

theorem findCID_eq_none (h : s.findCID hub cid = none) {x : SID × Nat}
    (hx : x ∈ (s.hubs hub).users) : (s.ous x.2).cid ≠ cid := by
  have hnot := List.find?_eq_none.mp h x.2 (List.mem_map.mpr ⟨x, hx, rfl⟩)
  simpa using hnot

theorem Inv.mem_lt (h : Inv s) (ha : a ∈ s.onlineUsers) : a < s.nextAddress :=
  h.fresh a ((h.mem a).mp ha).1

theorem Inv.emplaceUser (h : Inv s) (hsid : s.findSID hub sid = none)
    (hcid : s.findCID hub cid = none) : Inv (s.emplaceUser hub sid cid) := by
  have hold : ∀ b, b < s.nextAddress → (s.emplaceUser hub sid cid).ous b = s.ous b := by
    intro b hb
    exact Function.update_of_ne hb.ne ..
  have hnew : (s.emplaceUser hub sid cid).ous s.nextAddress = { cid, hub, sid } :=
    Function.update_self ..
  have husers : ∀ hub', ((s.emplaceUser hub sid cid).hubs hub').users =
      if hub' = hub then (sid, s.nextAddress) :: (s.hubs hub).users else (s.hubs hub').users := by
    intro hub'
    by_cases hh : hub' = hub
    · subst hh
      simp only [ClientManager.emplaceUser, Function.update_self, if_true]
    · simp only [ClientManager.emplaceUser, Function.update_of_ne hh, if_neg hh]
  have hbytes : ∀ hub', ((s.emplaceUser hub sid cid).hubs hub').availableBytes =
      (s.hubs hub').availableBytes := by
    intro hub'
    by_cases hh : hub' = hub
    · subst hh
      simp only [ClientManager.emplaceUser, Function.update_self]
    · simp only [ClientManager.emplaceUser, Function.update_of_ne hh]
  have hmem : ∀ hub' x, x ∈ ((s.emplaceUser hub sid cid).hubs hub').users ↔
      x ∈ (s.hubs hub').users ∨ (hub' = hub ∧ x = (sid, s.nextAddress)) := by
    intro hub' x
    rw [husers]
    split
    · rename_i hh
      subst hh
      rw [List.mem_cons, or_comm]
      simp
    · rename_i hh
      simp [hh]
  have hhubs : Hubs (s.emplaceUser hub sid cid) := by
    refine ⟨?_, ?_, ?_, ?_⟩
    · intro hub'
      rw [husers]
      split
      · refine List.nodup_cons.mpr ⟨?_, h.keys hub⟩
        exact Lib.notMem_keys_of_lookup hsid
      · exact h.keys hub'
    · intro hub' x hx
      rcases (hmem hub' x).mp hx with hx | ⟨rfl, rfl⟩
      · obtain ⟨hhub, hsid', hlt⟩ := h.owner hub' x hx
        rw [hold _ hlt]
        exact ⟨hhub, hsid', Nat.lt_succ_of_lt hlt⟩
      · rw [hnew]
        exact ⟨rfl, rfl, Nat.lt_succ_self _⟩
    · intro hub' x y hx hy hcids
      rcases (hmem hub' x).mp hx with hxold | ⟨rfl, rfl⟩
      · rw [hold _ (h.owner hub' x hxold).2.2] at hcids
        rcases (hmem hub' y).mp hy with hyold | ⟨rfl, rfl⟩
        · rw [hold _ (h.owner hub' y hyold).2.2] at hcids
          exact h.cids hub' x y hxold hyold hcids
        · rw [hnew] at hcids
          exact absurd hcids (findCID_eq_none hcid hxold)
      · rcases (hmem hub' y).mp hy with hyold | ⟨-, rfl⟩
        · rw [hnew, hold _ (h.owner hub' y hyold).2.2] at hcids
          exact absurd hcids.symm (findCID_eq_none hcid hyold)
        · rfl
    · intro hub'
      have hsum : (s.emplaceUser hub sid cid).shared hub' = s.shared hub' := by
        have hrest : ((s.hubs hub').users.map fun x =>
            OnlineUser.getBytesShared ((s.emplaceUser hub sid cid).ous x.2).info).sum =
              s.shared hub' := by
          refine congrArg List.sum (List.map_congr_left ?_)
          intro x hx
          rw [hold _ (h.owner hub' x hx).2.2]
        rw [shared, husers]
        split
        · rename_i hh
          subst hh
          rw [List.map_cons, List.sum_cons, hnew, hrest]
          exact zero_add _
        · exact hrest
      rw [hsum, hbytes]
      exact h.bytes hub'
  refine ⟨hhubs, ⟨h.nodup, ?_⟩, ?_, ?_⟩
  · intro cid'
    have hflag := h.flag cid'
    have hsame : (∃ a ∈ s.onlineUsers, ((s.emplaceUser hub sid cid).ous a).cid = cid') ↔
        ∃ a ∈ s.onlineUsers, (s.ous a).cid = cid' := by
      refine exists_congr fun a => and_congr_right fun ha => ?_
      rw [hold a (h.mem_lt ha)]
    exact hflag.trans hsame.symm
  · intro b
    have hconnected : b ∈ s.connected →
        (Present (s.emplaceUser hub sid cid) b ↔ Present s b) := by
      intro hb
      have hlt := h.fresh b hb
      rw [Present, Present, hhubs.lookup_iff, h.lookup_iff, hold b hlt, hmem]
      refine or_iff_left ?_
      rintro ⟨-, heq⟩
      exact hlt.ne (congrArg Prod.snd heq)
    exact (h.mem b).trans (and_congr_right fun hb => (hconnected hb).symm)
  · intro b hb
    exact Nat.lt_succ_of_lt (h.fresh b hb)

/-! ## A new identity -/

theorem Hubs.nodup_values (h : Hubs s) (hub : Nat) :
    ((s.hubs hub).users.map Prod.snd).Nodup := by
  refine (List.nodup_map_iff_inj_on (List.Nodup.of_map _ (h.keys hub))).mpr ?_
  intro x hx y hy heq
  have hsids : x.1 = y.1 := by
    rw [← (h.owner hub x hx).2.1, ← (h.owner hub y hy).2.1, heq]
  exact Prod.ext hsids heq

theorem shared_eq_values :
    s.shared hub = (((s.hubs hub).users.map Prod.snd).map fun b =>
      OnlineUser.getBytesShared (s.ous b).info).sum := by
  rw [shared, List.map_map]
  rfl

/-- The condition on the sum, for the user that the parameters are about. -/
theorem Inv.update {ps : List Str} (h : Inv s) (ha : (sid, a) ∈ (s.hubs hub).users)
    (hrange : ∀ v ∈ lastSS ps, InRange (s.shared hub -
      OnlineUser.getBytesShared (s.ous a).info + Util.toInt64 v)) :
    Inv (s.updateInfUserProperties hub a ps) := by
  have hous : ∀ b, ((s.updateInfUserProperties hub a ps).ous b).cid = (s.ous b).cid ∧
      ((s.updateInfUserProperties hub a ps).ous b).hub = (s.ous b).hub ∧
      ((s.updateInfUserProperties hub a ps).ous b).sid = (s.ous b).sid := by
    intro b
    by_cases hb : b = a
    · subst hb
      simp only [updateInfUserProperties, Function.update_self, and_self]
    · simp only [updateInfUserProperties, Function.update_of_ne hb, and_self]
  have husers : ∀ hub', ((s.updateInfUserProperties hub a ps).hubs hub').users =
      (s.hubs hub').users := by
    intro hub'
    by_cases hh : hub' = hub
    · subst hh
      simp only [updateInfUserProperties, Function.update_self]
    · simp only [updateInfUserProperties, Function.update_of_ne hh]
  have hother : ∀ b, b ≠ a →
      OnlineUser.getBytesShared ((s.updateInfUserProperties hub a ps).ous b).info =
        OnlineUser.getBytesShared (s.ous b).info := by
    intro b hb
    simp only [updateInfUserProperties, Function.update_of_ne hb]
  have hhub := (h.owner hub _ ha).1
  have hbytes : ∀ hub', ((s.updateInfUserProperties hub a ps).hubs hub').availableBytes =
      (s.updateInfUserProperties hub a ps).shared hub' ∧
      InRange ((s.updateInfUserProperties hub a ps).shared hub') := by
    intro hub'
    rw [shared_eq_values, husers]
    by_cases hh : hub' = hub
    · subst hh
      have hin : a ∈ (s.hubs hub').users.map Prod.snd := List.mem_map.mpr ⟨_, ha, rfl⟩
      rw [Lib.sum_map_of_eq_off (h.nodup_values hub') hin hother, ← shared_eq_values]
      obtain ⟨hinfo, hsum⟩ := @foldl_updateParam (s.ous a).info (s.hubs hub').availableBytes ps
      have hself : ((s.updateInfUserProperties hub' a ps).ous a).info =
          (ps.foldl updateParam ((s.hubs hub').availableBytes, (s.ous a).info)).2 := by
        simp only [updateInfUserProperties, Function.update_self]
      have havailable : ((s.updateInfUserProperties hub' a ps).hubs hub').availableBytes =
          (ps.foldl updateParam ((s.hubs hub').availableBytes, (s.ous a).info)).1 := by
        simp only [updateInfUserProperties, Function.update_self]
      obtain ⟨hold, hin64⟩ := h.bytes hub'
      rw [havailable, hsum, hself, hinfo, hold]
      cases hlast : lastSS ps with
      | none =>
        simp only [if_true, Option.map_none, Option.getD_none, sub_self, add_zero]
        exact ⟨trivial, hin64⟩
      | some v =>
        have hfits := hrange v hlast
        simp only [reduceCtorEq, if_false, Option.map_some, Option.getD_some]
        rw [int64_eq hfits, add_sub_assoc', add_sub_right_comm]
        exact ⟨rfl, hfits⟩
    · have hnot : a ∉ (s.hubs hub').users.map Prod.snd := by
        intro hin
        obtain ⟨x, hx, rfl⟩ := List.mem_map.mp hin
        exact hh ((h.owner hub' x hx).1.symm.trans hhub)
      rw [Lib.sum_map_of_notMem hnot hother, ← shared_eq_values]
      have hsame : ((s.updateInfUserProperties hub a ps).hubs hub').availableBytes =
          (s.hubs hub').availableBytes := by
        simp only [updateInfUserProperties, Function.update_of_ne hh]
      rw [hsame]
      exact h.bytes hub'
  refine ⟨⟨?_, ?_, ?_, hbytes⟩, ⟨h.nodup, ?_⟩, ?_, h.fresh⟩
  · intro hub'
    rw [husers]
    exact h.keys hub'
  · intro hub' x hx
    rw [husers] at hx
    rw [(hous x.2).2.1, (hous x.2).2.2]
    exact h.owner hub' x hx
  · intro hub' x y hx hy
    rw [husers] at hx hy
    rw [(hous x.2).1, (hous y.2).1]
    exact h.cids hub' x y hx hy
  · intro cid'
    simp only [hous]
    exact h.flag cid'
  · intro b
    rw [Present, findSID, (hous b).2.1, (hous b).2.2, husers]
    exact h.mem b

/-! ## `INF` -/

theorem Inv.putOnline (h : Inv s) (ha : (sid, a) ∈ (s.hubs hub).users)
    (hoff : a ∉ s.onlineUsers) : Inv (s.putOnline a) := by
  have hpresent := h.present_of_mem ha
  refine ⟨⟨h.keys, h.owner, h.cids, h.bytes⟩, h.toOnline.putOnline hoff, ?_, ?_⟩
  · intro b
    have hsame : Present (s.putOnline a) b ↔ Present s b := Iff.rfl
    simp only [ClientManager.putOnline, List.mem_cons]
    rw [h.mem b]
    constructor
    · rintro (rfl | ⟨hb, hp⟩)
      · exact ⟨.inl rfl, hpresent⟩
      · exact ⟨.inr hb, hp⟩
    · rintro ⟨rfl | hb, hp⟩
      · exact .inl rfl
      · exact .inr ⟨hb, hp⟩
  · intro b hb
    rcases List.mem_cons.mp hb with rfl | hb
    · exact (h.owner hub _ ha).2.2
    · exact h.fresh b hb

/-- What `parseInfUser` leads to: the user has the SID of the command. -/
structure Parsed (s s' : ClientManager) (hub : Nat) (c : AdcCommand) (u : Nat) : Prop where
  inv : Inv s'
  mem : (c.«from», u) ∈ (s'.hubs hub).users
  online : u ∉ s'.onlineUsers ∨ u ∈ s.onlineUsers
  shared : s'.shared hub - OnlineUser.getBytesShared (s'.ous u).info =
    s.shared hub - s.sharedBy hub c.«from»

theorem parsed_existing (h : Inv s) (hmem : (c.«from», a) ∈ (s.hubs hub).users) :
    Parsed s s hub c a where
  inv := h
  mem := hmem
  online := (em (a ∈ s.onlineUsers)).symm
  shared := by
    rw [sharedBy, h.lookup_iff.mpr hmem]
    rfl

theorem parsed_new (h : Inv s) (hsid : s.findSID hub c.«from» = none)
    (hcid : s.findCID hub cid = none) :
    Parsed s (s.emplaceUser hub c.«from» cid) hub c s.nextAddress := by
  have hinv := h.emplaceUser hsid hcid
  refine ⟨hinv, ?_, .inl ?_, ?_⟩
  · simp only [ClientManager.emplaceUser, Function.update_self]
    exact List.mem_cons_self
  · intro hmem
    exact absurd (h.mem_lt hmem) (lt_irrefl _)
  · have hnew : (s.emplaceUser hub c.«from» cid).ous s.nextAddress =
        { cid, hub, sid := c.«from» } := Function.update_self ..
    have hbytes : ((s.emplaceUser hub c.«from» cid).hubs hub).availableBytes =
        (s.hubs hub).availableBytes := by
      simp only [ClientManager.emplaceUser, Function.update_self]
    rw [← (hinv.bytes hub).1, hbytes, (h.bytes hub).1, hnew, sharedBy, hsid]
    rfl

theorem getUser_eq (h : Inv s) (hcid : s.findSID hub c.«from» = none → s.findCID hub cid = none) :
    Parsed s (s.getUser hub c.«from» cid).1 hub c (s.getUser hub c.«from» cid).2 := by
  unfold getUser
  split
  · rename_i ou hou
    exact parsed_existing h (h.lookup_iff.mp hou)
  · rename_i hnone
    exact parsed_new h hnone (hcid hnone)

/-- An `INF` is ignored, or it is about a user. A new one is not online, or becomes a hub. -/
theorem parseInfUser_cases (h : Inv s) (horderly : Orderly s (.inf hub c)) :
    s.parseInfUser hub c = (s, none) ∨
      ∃ s' u newUser, s.parseInfUser hub c = (s', some (u, newUser)) ∧ Parsed s s' hub c u ∧
        (newUser = true → u ∉ s'.onlineUsers ∨
          OnlineUser.isHub (c.parameters.foldl updateParam (0, (s'.ous u).info)).2 = true) := by
  obtain ⟨hsame, hzero, -⟩ := horderly
  unfold parseInfUser
  cases hID : c.getParam (str "ID") 0 with
  | some cid =>
    simp only
    cases hfind : s.findCID hub (CID.ofBase32 cid) with
    | some u =>
      by_cases hfrom : (s.ous u).sid = c.«from»
      · obtain ⟨⟨sid, u'⟩, hx, rfl⟩ := List.mem_map.mp (List.mem_of_find?_eq_some hfind)
        have hsid : sid = c.«from» := (h.owner hub _ hx).2.1.symm.trans hfrom
        rw [hsid] at hx
        exact .inr ⟨s, u', false, by simp [hfrom], parsed_existing h hx, by simp⟩
      · exact .inl (by simp [hfrom])
    | none =>
      have hparsed := getUser_eq (c := c) h fun _ => hfind
      refine .inr ⟨_, _, true, rfl, hparsed, fun _ => ?_⟩
      rcases hparsed.online with hoff | hon
      · exact .inl hoff
      · cases hfound : s.findSID hub c.«from» with
        | none =>
          have hlt := h.mem_lt hon
          simp only [getUser, hfound] at hlt
          exact absurd hlt (lt_irrefl _)
        | some a =>
          have hcond := hsame cid hID hfind a hfound
          simpa only [getUser, hfound] using hcond
  | none =>
    by_cases hhub : c.«from» = AdcCommand.HUB_SID
    · have hparsed : Parsed s (s.getUser hub c.«from» CID.zero).1 hub c
          (s.getUser hub c.«from» CID.zero).2 :=
        getUser_eq h fun hnone => hzero hID hhub (hhub ▸ hnone)
      exact .inr ⟨_, _, false, if_pos hhub, hparsed, by simp⟩
    · cases hfound : s.findSID hub c.«from» with
      | none => exact .inl (by simp [hhub])
      | some a =>
        exact .inr ⟨s, a, false, by simp [hhub], parsed_existing h (h.lookup_iff.mp hfound),
          by simp⟩

theorem Inv.inf (h : Inv s) (horderly : Orderly s (.inf hub c)) : Inv (s.inf hub c) := by
  unfold ClientManager.inf
  split
  · exact h
  · rcases parseInfUser_cases h horderly with hnone | ⟨s', u, newUser, heq, hparsed, hnew⟩
    · rw [hnone]
      exact h
    · rw [heq]
      have hinv : Inv (s'.updateInfUserProperties hub u c.parameters) :=
        hparsed.inv.update hparsed.mem (by
        intro v hv
        rw [hparsed.shared]
        exact horderly.2.2 v hv)
      dsimp only
      split
      · exact hinv
      · rename_i hhub
        cases newUser with
        | false => exact hinv
        | true =>
          have husers : (c.«from», u) ∈
              ((s'.updateInfUserProperties hub u c.parameters).hubs hub).users := by
            simp only [updateInfUserProperties, Function.update_self]
            exact hparsed.mem
          refine hinv.putOnline husers ?_
          rcases hnew rfl with hoff | hbecomes
          · exact hoff
          · refine absurd ?_ hhub
            simp only [updateInfUserProperties, Function.update_self]
            rw [foldl_updateParam_info]
            exact hbecomes

/-! ## `QUI` and disconnecting -/

/-- Objects that are not present any more are not online any more. -/
theorem Inv.removed (h : Inv s) (hhubs : Hubs s') (honline : Online s')
    (hconnected : s'.connected = s.connected) (hnext : s'.nextAddress = s.nextAddress)
    (hpresent : ∀ b, Present s' b → Present s b)
    (hmem : ∀ b, b ∈ s'.onlineUsers ↔ b ∈ s.onlineUsers ∧ Present s' b) : Inv s' where
  toHubs := hhubs
  toOnline := honline
  mem b := by
    rw [hmem, h.mem, hconnected]
    constructor
    · rintro ⟨⟨hb, -⟩, hp⟩
      exact ⟨hb, hp⟩
    · rintro ⟨hb, hp⟩
      exact ⟨⟨hb, hpresent b hp⟩, hp⟩
  fresh := by
    rw [hconnected, hnext]
    exact h.fresh

/-- The map of one hub is another one, with some of its users. -/
theorem Hubs.setHub {users : List (SID × Nat)} {bytes : Int} (h : Hubs s)
    (hsub : users.Sublist (s.hubs hub).users)
    (hbytes : bytes = (users.map fun x => OnlineUser.getBytesShared (s.ous x.2).info).sum)
    (hrange : InRange bytes) :
    Hubs (s.setHub hub { users, availableBytes := bytes }) := by
  have husers : ∀ hub', ((s.setHub hub { users, availableBytes := bytes }).hubs hub').users.Sublist
      (s.hubs hub').users := by
    intro hub'
    by_cases hh : hub' = hub
    · subst hh
      simp only [ClientManager.setHub, Function.update_self]
      exact hsub
    · simp only [ClientManager.setHub, Function.update_of_ne hh]
      exact List.Sublist.refl _
  refine ⟨?_, ?_, ?_, ?_⟩
  · intro hub'
    exact (h.keys hub').sublist ((husers hub').map _)
  · intro hub' x hx
    exact h.owner hub' x ((husers hub').subset hx)
  · intro hub' x y hx hy
    exact h.cids hub' x y ((husers hub').subset hx) ((husers hub').subset hy)
  · intro hub'
    by_cases hh : hub' = hub
    · subst hh
      simp only [ClientManager.setHub, shared, Function.update_self]
      exact ⟨hbytes, hbytes ▸ hrange⟩
    · simp only [ClientManager.setHub, shared, Function.update_of_ne hh]
      exact h.bytes hub'

theorem Online.setHub {x : AdcHub} (h : Online s) : Online (s.setHub hub x) := ⟨h.nodup, h.flag⟩

theorem Inv.putUser (h : Inv s) (hcond : ∀ a ∈ s.findSID hub sid,
      (OnlineUser.isHub (s.ous a).info = true → a ∉ s.onlineUsers) ∧
      InRange (s.shared hub - OnlineUser.getBytesShared (s.ous a).info)) :
    Inv (s.putUser hub sid) := by
  unfold ClientManager.putUser
  split
  · exact h
  · rename_i ou hou
    extract_lets s₁
    obtain ⟨hhubOff, hrange⟩ := hcond ou hou
    have hmem := h.lookup_iff.mp hou
    obtain ⟨hbytes, -⟩ := h.bytes hub
    have hperm := Lib.Keyed.remove_perm (h.keys hub) hmem
    have hsum : (((s.hubs hub).users.filter fun x => x.1 ≠ sid).map fun x =>
        OnlineUser.getBytesShared (s.ous x.2).info).sum =
          s.shared hub - OnlineUser.getBytesShared (s.ous ou).info := by
      have htotal := (hperm.map fun x => OnlineUser.getBytesShared (s.ous x.2).info).sum_eq
      rw [List.map_cons, List.sum_cons] at htotal
      exact eq_sub_of_add_eq' htotal.symm
    have hhubs₁ : Hubs s₁ := by
      refine h.setHub List.filter_sublist ?_ ?_
      · rw [hbytes, int64_eq hrange, hsum]
      · rw [hbytes, int64_eq hrange]
        exact hrange
    have hpresent : ∀ b, Present s₁ b ↔ Present s b ∧ b ≠ ou := by
      intro b
      have hous : s₁.ous b = s.ous b := rfl
      rw [Present, Present, hhubs₁.lookup_iff, h.lookup_iff, hous]
      obtain ⟨hhub, hsid, -⟩ := h.owner hub _ hmem
      by_cases hh : (s.ous b).hub = hub
      · simp only [s₁, ClientManager.setHub, hh, Function.update_self, List.mem_filter,
          decide_eq_true_eq]
        refine and_congr_right fun hb => not_congr ⟨?_, ?_⟩
        · intro hbsid
          have hsame := List.inj_on_of_nodup_map (h.keys hub) hb hmem hbsid
          exact congrArg Prod.snd hsame
        · rintro rfl
          exact hsid
      · simp only [s₁, ClientManager.setHub, Function.update_of_ne hh]
        refine (and_iff_left ?_).symm
        rintro rfl
        exact hh hhub
    have honline : ∀ b, b ∈ s.onlineUsers → Present s b := fun b hb => ((h.mem b).mp hb).2
    split
    · rename_i hhub
      refine h.removed hhubs₁ h.toOnline.setHub rfl rfl (fun b hb => ((hpresent b).mp hb).1) ?_
      intro b
      refine (and_iff_left_of_imp fun hb => (hpresent b).mpr ⟨honline b hb, ?_⟩).symm
      rintro rfl
      exact hhubOff hhub hb
    · have honline₁ : Online s₁ := h.toOnline.setHub
      refine h.removed hhubs₁.putOffline honline₁.putOffline putOffline_same.2.2.2
        putOffline_same.2.2.1
        (fun b hb => ((hpresent b).mp (present_putOffline.mp hb)).1) ?_
      intro b
      rw [mem_putOffline honline₁, present_putOffline, hpresent]
      exact and_congr_right fun hb => (and_iff_right (honline b hb)).symm

/-- The loop of `clearUsers`. -/
def putAllOffline (s : ClientManager) (users : List (SID × Nat)) : ClientManager :=
  users.foldl (fun s x => if x.1 ≠ AdcCommand.HUB_SID then s.putOffline x.2 else s) s

theorem putAllOffline_spec {users : List (SID × Nat)} (hhubs : Hubs s) (honline : Online s) :
    Hubs (s.putAllOffline users) ∧ Online (s.putAllOffline users) ∧
      (s.putAllOffline users).connected = s.connected ∧
      (s.putAllOffline users).nextAddress = s.nextAddress ∧
      (∀ b, Present (s.putAllOffline users) b ↔ Present s b) ∧
      ∀ b, b ∈ (s.putAllOffline users).onlineUsers ↔
        b ∈ s.onlineUsers ∧ ∀ x ∈ users, x.1 ≠ AdcCommand.HUB_SID → b ≠ x.2 := by
  induction users generalizing s with
  | nil =>
    refine ⟨hhubs, honline, rfl, rfl, fun b => Iff.rfl, fun b => ?_⟩
    simp [putAllOffline]
  | cons x users ih =>
    by_cases hx : x.1 = AdcCommand.HUB_SID
    · have hcons : s.putAllOffline (x :: users) = s.putAllOffline users := by
        simp [putAllOffline, hx]
      rw [hcons]
      obtain ⟨h₁, h₂, h₃, h₄, h₅, h₆⟩ := ih hhubs honline
      refine ⟨h₁, h₂, h₃, h₄, h₅, fun b => ?_⟩
      rw [h₆, List.forall_mem_cons]
      simp [hx]
    · have hcons : s.putAllOffline (x :: users) = (s.putOffline x.2).putAllOffline users := by
        simp [putAllOffline, hx]
      rw [hcons]
      obtain ⟨h₁, h₂, h₃, h₄, h₅, h₆⟩ := ih hhubs.putOffline (honline.putOffline (a := x.2))
      refine ⟨h₁, h₂, h₃.trans putOffline_same.2.2.2, h₄.trans putOffline_same.2.2.1,
        fun b => (h₅ b).trans present_putOffline, fun b => ?_⟩
      rw [h₆, mem_putOffline honline, List.forall_mem_cons]
      simp [hx, and_assoc]

theorem Inv.clearUsers (h : Inv s) (hcond : ∀ a ∈ s.findSID hub AdcCommand.HUB_SID,
      a ∉ s.onlineUsers) : Inv (s.clearUsers hub) := by
  have hhubs₁ : Hubs (s.setHub hub {}) := h.setHub (List.nil_sublist _) rfl (by decide)
  have honline₁ : Online (s.setHub hub {}) := h.toOnline.setHub
  obtain ⟨hhubs, honline, hconnected, hnext, hp, hmem⟩ :=
    @putAllOffline_spec _ (s.hubs hub).users hhubs₁ honline₁
  have hpresent : ∀ b, Present (s.setHub hub {}) b ↔ Present s b ∧ (s.ous b).hub ≠ hub := by
    intro b
    by_cases hh : (s.ous b).hub = hub
    · simp [Present, findSID, ClientManager.setHub, hh]
    · simp [Present, findSID, ClientManager.setHub, hh]
  refine h.removed hhubs honline hconnected hnext
    (fun b hb => ((hpresent b).mp ((hp b).mp hb)).1) ?_
  intro b
  have hset : (s.setHub hub {}).onlineUsers = s.onlineUsers := rfl
  rw [ClientManager.clearUsers, ← putAllOffline, hp, hpresent, hmem, hset]
  refine and_congr_right fun hb => ?_
  have hb' := ((h.mem b).mp hb).2
  rw [and_iff_right hb']
  constructor
  · intro hoff hhub
    have hin := h.lookup_iff.mp hb'
    rw [hhub] at hin
    by_cases hsid : (s.ous b).sid = AdcCommand.HUB_SID
    · rw [hsid] at hin
      exact hcond b (h.lookup_iff.mpr hin) hb
    · exact hoff _ hin hsid rfl
  · rintro hhub x hx - rfl
    exact hhub (h.owner hub x hx).1

/-! ## Runs -/

theorem inv_initial : Inv {} where
  keys _ := List.nodup_nil
  owner _ _ hx := absurd hx List.not_mem_nil
  cids _ _ _ hx := absurd hx List.not_mem_nil
  bytes _ := ⟨rfl, (by decide : InRange 0)⟩
  nodup := List.nodup_nil
  flag _ := by simp
  mem _ := by simp
  fresh _ hb := absurd hb List.not_mem_nil

/-- **The lists agree** in every run of events that meet the condition. -/
theorem users_agree {s : ClientManager} (h : Lib.Reaches (system.restrict Orderly) Initial s) :
    Agree s := by
  have hinv : Inv s := by
    refine @Lib.Reaches.invariant _ _ _ _ Inv ?_ ?_ s h
    · intro s hs
      subst hs
      exact inv_initial
    · intro s e hs he
      cases e with
      | inf hub c => exact hs.inf he.2
      | qui hub c => exact hs.putUser he.2
      | disconnected hub => exact hs.clearUsers he.2
  exact hinv.agree

/-- An `INF` of a user. -/
def infOf (sid : String) (parameters : List String) : AdcCommand :=
  { AdcCommand.header AdcCommand.TYPE_BROADCAST (chr 'I') (chr 'N') (chr 'F') with
    «from» := AdcCommand.toSID (str sid)
    parameters := parameters.map str }

/-- Two users on a hub, the first one on another hub too; then he leaves the first hub. -/
theorem users_agree_quit :
    let s := system.run {} [.inf 0 (infOf "AAAB" ["IDAAAB", "SS100"]),
      .inf 0 (infOf "AAAC" ["IDAAAC", "SS20"]), .inf 1 (infOf "AAAH" ["IDAAAB"]),
      .inf 0 (infOf "AAAB" ["SS50"]), .qui 0
        { AdcCommand.header AdcCommand.TYPE_INFO (chr 'Q') (chr 'U') (chr 'I') with
          parameters := [str "AAAB"] }]
    (s.onlineUsers = [2, 1] ∧ (s.hubs 0).availableBytes = 20) ∧ Agree s := by
  intro s
  refine ⟨by decide +kernel, users_agree ?_⟩
  exact Lib.Reaches.run (.start rfl) (by decide +kernel)

/-- A hub sends the `INF` of another CID for the SID of a user that is online. -/
theorem not_agree_sid : ¬ ∀ s, Lib.Reaches system Initial s → Agree s := by
  intro h
  have hagree := h (system.run {} [.inf 0 (infOf "AAAB" ["IDAAAB"]),
    .inf 0 (infOf "AAAB" ["IDAAAC"])]) (Lib.Reaches.run (.start rfl) (by decide +kernel))
  exact absurd (hagree.entries 0) (by decide +kernel)

end ClientManager
end Hub
end Airdcpp
