import Airdcpp.Lib.ListOps
import Airdcpp.Transfer.UploadBundleInfoSender

/-!
# `Transfer/UploadReports` — which reports an info object holds, and what it has told its users

`Reported` is the content of `uploadReports`, and `lastMode` the mode that the receiver of a user
was told last for a bundle. `addRunningUser` and `removeRunningUser` change the reports by one
connection, and leave every reported user with the object's mode (`Told`).
-/

namespace Airdcpp
namespace UBNBundle

open UploadBundleInfo (lastParam)

variable {o : UBNBundle} {p : UBNProgress} {c : UBNConnection} {u v : UserPtr} {t b : Str}
  {sent msgs : List UBNMessage}

/-- A connection of a user is in a list of reports. -/
def Has (reports : List (UserPtr × List Str)) (u : UserPtr) (t : Str) : Prop :=
  ∃ tokens, (u, tokens) ∈ reports ∧ t ∈ tokens

def Reported (o : UBNBundle) (u : UserPtr) (t : Str) : Prop := Has o.uploadReports u t

/-- The reported users. -/
def users (o : UBNBundle) : List UserPtr := o.uploadReports.map Prod.fst

structure Wf (o : UBNBundle) : Prop where
  nodup : o.users.Nodup
  nonempty : ∀ r ∈ o.uploadReports, r.2 ≠ []
  tokens : ∀ r ∈ o.uploadReports, r.2.Nodup
  single : o.singleUser = decide (o.uploadReports.length ≤ 1)

/-- What a command tells a user of his mode for a bundle. -/
def modeTold (u : UserPtr) (b : Str) (m : UBNMessage) : Option Bool :=
  if m.1 = u ∧ lastParam (str "BU") m.2.parameters = some b then
    if (lastParam (str "SU") m.2.parameters).isSome then some true
    else if (lastParam (str "MU") m.2.parameters).isSome then some false
    else none
  else none

def lastMode (sent : List UBNMessage) (u : UserPtr) (b : Str) : Option Bool :=
  sent.reverse.findSome? (modeTold u b)

/-- Every reported user was told the mode of the object. -/
def Told (o : UBNBundle) (sent : List UBNMessage) : Prop :=
  ∀ u ∈ o.users, lastMode sent u o.getStringToken = some o.singleUser

/-! ## Messages -/

theorem lastMode_append :
    lastMode (sent ++ msgs) u b = (lastMode msgs u b).or (lastMode sent u b) := by
  simp only [lastMode, List.reverse_append, List.findSome?_append]

theorem lastMode_nil : lastMode [] u b = none := rfl

theorem lastMode_singleton {m : UBNMessage} : lastMode [m] u b = modeTold u b m := by
  simp only [lastMode, List.reverse_singleton, List.findSome?_singleton]

theorem modeTold_ite {m : AdcCommand} {mode : Option Bool} {b' : Str}
    (hBU : lastParam (str "BU") m.parameters = some b')
    (hmode : (if (lastParam (str "SU") m.parameters).isSome then some true
      else if (lastParam (str "MU") m.parameters).isSome then some false else none) = mode) :
    modeTold u b (v, m) = if v = u ∧ b' = b then mode else none := by
  simp only [modeTold, hmode, hBU, Option.some.injEq]

theorem modeTold_userMode :
    modeTold u b (v, o.getUserModeCommand p) =
      if v = u ∧ o.getStringToken = b then some o.singleUser else none := by
  unfold getUserModeCommand
  cases o.singleUser with
  | true => exact modeTold_ite rfl rfl
  | false => exact modeTold_ite rfl rfl

theorem modeTold_add :
    modeTold u b (v, o.getAddCommand p t true) =
      if v = u ∧ o.getStringToken = b then some o.singleUser else none := by
  unfold getAddCommand
  cases o.singleUser with
  | true => exact modeTold_ite rfl rfl
  | false => exact modeTold_ite rfl rfl

theorem modeTold_change : modeTold u b (v, o.getAddCommand p t false) = none := by
  have hnone : modeTold u b (v, o.getAddCommand p t false) =
      if v = u ∧ o.getStringToken = b then none else none := modeTold_ite rfl rfl
  rw [hnone, ite_self]

theorem modeTold_finished : modeTold u b (v, o.getBundleFinishedCommand) = none := by
  have hnone : modeTold u b (v, o.getBundleFinishedCommand) =
      if v = u ∧ o.getStringToken = b then none else none := modeTold_ite rfl rfl
  rw [hnone, ite_self]

theorem modeTold_remove : modeTold u b (v, getRemoveCommand t) = none := by
  have hnone : lastParam (str "BU") (getRemoveCommand t).parameters = none := rfl
  rw [modeTold, hnone, if_neg (by simp)]

/-- What `setUserMode` sends. -/
theorem setUserMode_eq {m : Bool} :
    (o.setUserMode p m).1.uploadReports = o.uploadReports ∧
    (o.setUserMode p m).1.bundle = o.bundle ∧
      (o.setUserMode p m).1.singleUser = m ∧
      (o.setUserMode p m).2 = o.uploadReports.head?.toList.map fun report =>
        (report.1, (o.setUserMode p m).1.getUserModeCommand p) := by
  unfold setUserMode
  cases m <;> exact ⟨rfl, rfl, rfl, rfl⟩

/-! ## One report more -/

section Reports

variable {reports : List (UserPtr × List Str)}

theorem has_modify {f : List Str → List Str} :
    Has (Lib.Keyed.modify Prod.fst u (fun r => (r.1, f r.2)) reports) v b ↔
      if v = u then ∃ tokens, (v, tokens) ∈ reports ∧ b ∈ f tokens else Has reports v b := by
  unfold Has Lib.Keyed.modify
  split
  · rename_i hv
    constructor
    · rintro ⟨tokens, hmem, hb⟩
      obtain ⟨r, hr, heq⟩ := List.mem_map.mp hmem
      by_cases hru : r.1 = u
      · rw [if_pos hru] at heq
        obtain ⟨rfl, rfl⟩ := Prod.mk.inj heq
        exact ⟨r.2, hr, hb⟩
      · rw [if_neg hru] at heq
        subst heq
        exact absurd hv hru
    · rintro ⟨tokens, hmem, hb⟩
      refine ⟨f tokens, List.mem_map.mpr ⟨_, hmem, ?_⟩, hb⟩
      rw [if_pos hv]
  · rename_i hv
    constructor
    · rintro ⟨tokens, hmem, hb⟩
      obtain ⟨r, hr, heq⟩ := List.mem_map.mp hmem
      by_cases hru : r.1 = u
      · rw [if_pos hru] at heq
        obtain ⟨rfl, rfl⟩ := Prod.mk.inj heq
        exact absurd hru hv
      · rw [if_neg hru] at heq
        subst heq
        exact ⟨tokens, hr, hb⟩
    · rintro ⟨tokens, hmem, hb⟩
      refine ⟨tokens, List.mem_map.mpr ⟨_, hmem, ?_⟩, hb⟩
      rw [if_neg hv]

theorem has_insertReport :
    Has (insertReport u t reports) v b ↔ Has reports v b ∨ (v = u ∧ b = t) := by
  unfold insertReport
  split
  · rename_i hu
    obtain ⟨r, hr, hru⟩ := List.mem_map.mp hu
    rw [has_modify]
    split
    · rename_i hv
      simp only [List.mem_insert_iff]
      constructor
      · rintro ⟨tokens, hmem, rfl | hb⟩
        · exact .inr ⟨hv, rfl⟩
        · exact .inl ⟨tokens, hmem, hb⟩
      · rintro (⟨tokens, hmem, hb⟩ | ⟨-, rfl⟩)
        · exact ⟨tokens, hmem, .inr hb⟩
        · rw [hv, ← hru]
          exact ⟨r.2, hr, .inl rfl⟩
    · rename_i hv
      simp [hv]
  · simp only [Has, List.mem_cons, Prod.mk.injEq]
    constructor
    · rintro ⟨tokens, ⟨rfl, rfl⟩ | hmem, hb⟩
      · exact .inr ⟨rfl, List.mem_singleton.mp hb⟩
      · exact .inl ⟨tokens, hmem, hb⟩
    · rintro (⟨tokens, hmem, hb⟩ | ⟨rfl, rfl⟩)
      · exact ⟨tokens, .inr hmem, hb⟩
      · exact ⟨[b], .inl ⟨rfl, rfl⟩, List.mem_singleton_self _⟩

theorem users_insertReport :
    (insertReport u t reports).map Prod.fst =
      if u ∈ reports.map Prod.fst then reports.map Prod.fst else u :: reports.map Prod.fst := by
  unfold insertReport
  split
  · apply Lib.Keyed.map_key_modify
    intro r _
    rfl
  · rfl

theorem length_insertReport :
    (insertReport u t reports).length =
      if u ∈ reports.map Prod.fst then reports.length else reports.length + 1 := by
  unfold insertReport
  split
  · exact List.length_map ..
  · rfl

theorem forall_insertReport {P : List Str → Prop} (h : ∀ r ∈ reports, P r.2)
    (hnew : P [t]) (hinsert : ∀ l, P l → P (l.insert t)) :
    ∀ r ∈ insertReport u t reports, P r.2 := by
  unfold insertReport
  split
  · intro r hr
    obtain ⟨r', hr', rfl⟩ := List.mem_map.mp hr
    split
    · exact hinsert _ (h r' hr')
    · exact h r' hr'
  · intro r hr
    rcases List.mem_cons.mp hr with rfl | hr
    · exact hnew
    · exact h r hr

end Reports

theorem addRunningUser_uploadReports :
    (o.addRunningUser p c).1.uploadReports =
      insertReport c.user c.connectToken o.uploadReports := by
  unfold addRunningUser
  extract_lets newBundle mode base o' add
  have hmode : mode.1.uploadReports = o.uploadReports := by
    simp only [mode]
    split
    · exact setUserMode_eq.1
    · rfl
  have ho' : o'.uploadReports = insertReport c.user c.connectToken o.uploadReports := by
    simp only [o', hmode]
  split
  · exact ho'
  · exact ho'

theorem addRunningUser_bundle : (o.addRunningUser p c).1.bundle = o.bundle := by
  unfold addRunningUser
  extract_lets newBundle mode base o' add
  have hmode : mode.1.bundle = o.bundle := by
    simp only [mode]
    split
    · exact setUserMode_eq.2.1
    · rfl
  split
  · exact hmode
  · exact hmode

theorem addRunningUser_singleUser :
    (o.addRunningUser p c).1.singleUser =
      (o.singleUser && !(decide (c.user ∉ o.users) && o.uploadReports.length == 1)) := by
  unfold addRunningUser
  extract_lets newBundle mode base o' add
  have hmode : mode.1.singleUser = (o.singleUser &&
      !(newBundle && o.uploadReports.length == 1)) := by
    simp only [mode]
    split
    · rename_i hnew
      rw [setUserMode_eq.2.2.1, hnew, Bool.not_true, Bool.and_false]
    · rename_i hnew
      rw [Bool.eq_false_of_not_eq_true hnew, Bool.not_false, Bool.and_true]
  split
  · exact hmode
  · exact hmode

theorem addRunningUser_reported :
    (o.addRunningUser p c).1.Reported u t ↔ o.Reported u t ∨ (u = c.user ∧ t = c.connectToken) := by
  rw [Reported, addRunningUser_uploadReports, has_insertReport, ← Reported]

theorem mem_users_addRunningUser :
    u ∈ (o.addRunningUser p c).1.users ↔ u ∈ o.users ∨ u = c.user := by
  rw [users, addRunningUser_uploadReports, users_insertReport, ← users]
  split
  · rename_i hmem
    constructor
    · exact .inl
    · rintro (h | rfl)
      · exact h
      · exact hmem
  · rw [List.mem_cons, or_comm]

theorem Wf.addRunningUser (h : Wf o) : Wf (o.addRunningUser p c).1 where
  nodup := by
    rw [users, addRunningUser_uploadReports, users_insertReport, ← users]
    split
    · exact h.nodup
    · exact List.nodup_cons.mpr ⟨‹_›, h.nodup⟩
  nonempty := by
    rw [addRunningUser_uploadReports]
    refine forall_insertReport (P := fun l => l ≠ []) h.nonempty (List.cons_ne_nil _ _) ?_
    intro l _
    exact List.ne_nil_of_mem List.mem_insert_self
  tokens := by
    rw [addRunningUser_uploadReports]
    refine forall_insertReport (P := List.Nodup) h.tokens (List.nodup_singleton _) ?_
    intro l hl
    exact hl.insert
  single := by
    rw [addRunningUser_singleUser, addRunningUser_uploadReports, length_insertReport, ← users,
      h.single]
    by_cases hmem : c.user ∈ o.users
    · simp [hmem]
    · rw [if_neg hmem, Bool.eq_iff_iff]
      simp only [hmem, not_false_eq_true, decide_true, Bool.true_and, Bool.and_eq_true,
        Bool.not_eq_true', beq_eq_false_iff_ne, decide_eq_true_eq]
      omega

theorem addRunningUser_messages :
    (o.addRunningUser p c).2 =
      (if decide (c.user ∉ o.users) && o.uploadReports.length == 1 then (o.setUserMode p false).2
        else []) ++
      [(c.user, (o.addRunningUser p c).1.getAddCommand p c.connectToken
        (decide (c.user ∉ o.users)))] := by
  unfold addRunningUser
  extract_lets newBundle mode base o' add
  have hmode : mode.2 = if newBundle && o.uploadReports.length == 1 then (o.setUserMode p false).2
      else [] := by
    simp only [mode]
    split
    · rfl
    · rfl
  split
  · exact congrArg (· ++ [add]) hmode
  · exact congrArg (· ++ [add]) hmode

/-- Commands about other bundles, and those without a mode, change no mode. -/
theorem lastMode_append_of_none (h : ∀ m ∈ msgs, modeTold u b m = none) :
    lastMode (sent ++ msgs) u b = lastMode sent u b := by
  have hnone : lastMode msgs u b = none := by
    rw [lastMode, List.findSome?_eq_none_iff]
    intro m hm
    exact h m (List.mem_reverse.mp hm)
  rw [lastMode_append, hnone, Option.none_or]

theorem modeTold_setUserMode_other {m : Bool} (hb : b ≠ o.getStringToken) :
    ∀ msg ∈ (o.setUserMode p m).2, modeTold u b msg = none := by
  obtain ⟨-, hbundle, -, hsent⟩ := @setUserMode_eq o p m
  rw [hsent]
  intro msg hmsg
  obtain ⟨r, -, rfl⟩ := List.mem_map.mp hmsg
  rw [modeTold_userMode, if_neg]
  rintro ⟨-, rfl⟩
  exact hb (by rw [getStringToken, hbundle, getStringToken])

theorem modeTold_addRunningUser_other (hb : b ≠ o.getStringToken) :
    ∀ msg ∈ (o.addRunningUser p c).2, modeTold u b msg = none := by
  rw [addRunningUser_messages]
  intro msg hmsg
  rcases List.mem_append.mp hmsg with hmsg | hmsg
  · split at hmsg
    · exact modeTold_setUserMode_other hb msg hmsg
    · exact absurd hmsg List.not_mem_nil
  · rw [List.mem_singleton.mp hmsg]
    cases decide (c.user ∉ o.users) with
    | true =>
      rw [modeTold_add, if_neg]
      rintro ⟨-, rfl⟩
      exact hb (by rw [getStringToken, addRunningUser_bundle, getStringToken])
    | false => exact modeTold_change

theorem Told.addRunningUser (h : Told o sent) :
    Told (o.addRunningUser p c).1 (sent ++ (o.addRunningUser p c).2) := by
  have htoken : (o.addRunningUser p c).1.getStringToken = o.getStringToken := by
    rw [getStringToken, addRunningUser_bundle, getStringToken]
  intro u hu
  rw [addRunningUser_messages, htoken]
  by_cases hnew : c.user ∈ o.users
  · -- another connection of a user that is told already
    have hu' : u ∈ o.users := by
      rcases mem_users_addRunningUser.mp hu with hold | rfl
      · exact hold
      · exact hnew
    rw [addRunningUser_singleUser, lastMode_append_of_none, h u hu']
    · simp [hnew]
    · simp only [hnew, not_true_eq_false, decide_false, Bool.false_and, Bool.false_eq_true,
        if_false, List.nil_append, List.mem_singleton]
      rintro m rfl
      exact modeTold_change
  · simp only [hnew, not_false_eq_true, decide_true, Bool.true_and]
    rw [lastMode_append, lastMode_append, lastMode_singleton, modeTold_add, htoken]
    by_cases huc : c.user = u
    · rw [if_pos ⟨huc, rfl⟩]
      rfl
    · rw [if_neg fun hboth => huc hboth.1, Option.none_or]
      have hu' : u ∈ o.users := (mem_users_addRunningUser.mp hu).resolve_right fun heq =>
        huc heq.symm
      rw [addRunningUser_singleUser]
      by_cases hone : o.uploadReports.length = 1
      · -- the only user so far is told that he is not the only one
        obtain ⟨r, hr⟩ := List.length_eq_one_iff.mp hone
        obtain ⟨-, -, hmode, hsent⟩ := @setUserMode_eq o p false
        have hru : r.1 = u := by
          rw [users, hr] at hu'
          exact (List.mem_singleton.mp hu').symm
        have htold : lastMode (o.setUserMode p false).2 u o.getStringToken = some false := by
          rw [hsent, hr]
          simp only [List.head?_cons, Option.toList_some, List.map_cons, List.map_nil]
          rw [lastMode_singleton, modeTold_userMode, hmode, if_pos ⟨hru, rfl⟩]
        simp [hone, hnew, htold]
      · have hu'' := h u hu'
        simp [hone, lastMode_nil, hu'']

/-! ## One report less -/

/-- The reports after a removal, and whether the user was reported for this connection only. -/
def erased (o : UBNBundle) (c : UBNConnection) (tokens : List Str) : List (UserPtr × List Str) :=
  if (tokens.erase c.connectToken).isEmpty then Lib.Keyed.remove Prod.fst c.user o.uploadReports
  else Lib.Keyed.modify Prod.fst c.user (fun r => (r.1, r.2.erase c.connectToken)) o.uploadReports

theorem Wf.unique {tokens tokens' : List Str} (h : Wf o) (hmem : (u, tokens) ∈ o.uploadReports)
    (hmem' : (u, tokens') ∈ o.uploadReports) : tokens' = tokens := by
  have hsame := List.inj_on_of_nodup_map h.nodup hmem hmem' rfl
  exact (congrArg Prod.snd hsame).symm

theorem has_erased {tokens : List Str} (h : Wf o) (hmem : (c.user, tokens) ∈ o.uploadReports) :
    Has (erased o c tokens) u t ↔ o.Reported u t ∧ ¬ (u = c.user ∧ t = c.connectToken) := by
  unfold erased
  split
  · rename_i hempty
    have hall : ∀ b ∈ tokens, b = c.connectToken := by
      intro b hb
      by_contra hne
      rw [List.isEmpty_iff] at hempty
      have hin := (List.mem_erase_of_ne hne).mpr hb
      rw [hempty] at hin
      exact List.not_mem_nil hin
    constructor
    · rintro ⟨tokens', hin, ht⟩
      obtain ⟨hin, hne⟩ := Lib.Keyed.mem_remove.mp hin
      exact ⟨⟨tokens', hin, ht⟩, fun hboth => hne hboth.1⟩
    · rintro ⟨⟨tokens', hin, ht⟩, hne⟩
      refine ⟨tokens', Lib.Keyed.mem_remove.mpr ⟨hin, ?_⟩, ht⟩
      rintro rfl
      rw [h.unique hmem hin] at ht
      exact hne ⟨rfl, hall t ht⟩
  · rw [has_modify (f := fun l => l.erase c.connectToken)]
    split
    · rename_i hu
      constructor
      · rintro ⟨tokens', hin, ht⟩
        obtain ⟨hne, ht⟩ := (h.tokens _ hin).mem_erase_iff.mp ht
        exact ⟨⟨tokens', hin, ht⟩, fun hboth => hne hboth.2⟩
      · rintro ⟨⟨tokens', hin, ht⟩, hne⟩
        refine ⟨tokens', hin, (h.tokens _ hin).mem_erase_iff.mpr ⟨?_, ht⟩⟩
        rintro rfl
        exact hne ⟨hu, rfl⟩
    · rename_i hu
      constructor
      · intro hin
        exact ⟨hin, fun hboth => hu hboth.1⟩
      · exact And.left

theorem length_erased {tokens : List Str} (h : Wf o) (hmem : (c.user, tokens) ∈ o.uploadReports) :
    (erased o c tokens).length + (if (tokens.erase c.connectToken).isEmpty then 1 else 0) =
      o.uploadReports.length := by
  unfold erased
  split
  · exact (Lib.Keyed.remove_perm h.nodup hmem).length_eq.symm
  · exact List.length_map ..

theorem users_erased_subset {tokens : List Str} :
    (erased o c tokens).map Prod.fst ⊆ o.users := by
  unfold erased
  split
  · exact (List.filter_sublist.map _).subset
  · rw [Lib.Keyed.map_key_modify]
    · exact List.Subset.refl _
    · intro r _
      rfl

/-- What `removeRunningUser` does to an object that reports the connection. -/
theorem removeRunningUser_eq {tokens : List Str} {m : Bool} (h : Wf o)
    (hmem : (c.user, tokens) ∈ o.uploadReports) :
    o.removeRunningUser p c m =
      let finished := (tokens.erase c.connectToken).isEmpty
      let o' := { o with uploadReports := erased o c tokens }
      let mode := if finished && (erased o c tokens).length == 1 then o'.setUserMode p true
        else (o', [])
      (mode.1, mode.2 ++
        (if finished then [(c.user, mode.1.getBundleFinishedCommand)]
        else if m then [(c.user, getRemoveCommand c.connectToken)] else []),
        (erased o c tokens).isEmpty) := by
  rw [removeRunningUser, (Lib.lookup_eq_some_iff_mem h.nodup).mpr hmem]
  rfl

theorem removeRunningUser_fields {tokens : List Str} {m : Bool} (h : Wf o)
    (hmem : (c.user, tokens) ∈ o.uploadReports) :
    (o.removeRunningUser p c m).1.bundle = o.bundle ∧
      (o.removeRunningUser p c m).1.uploadReports = erased o c tokens ∧
      (o.removeRunningUser p c m).1.singleUser =
        (o.singleUser || (tokens.erase c.connectToken).isEmpty &&
          (erased o c tokens).length == 1) ∧
      (o.removeRunningUser p c m).2.2 = (erased o c tokens).isEmpty := by
  rw [removeRunningUser_eq h hmem]
  extract_lets finished o' mode
  have hmode : mode.1.bundle = o.bundle ∧ mode.1.uploadReports = erased o c tokens ∧
      mode.1.singleUser = (o.singleUser || finished && (erased o c tokens).length == 1) := by
    simp only [mode]
    split
    · rename_i hlast
      obtain ⟨hreports, hbundle, hsingle, -⟩ := @setUserMode_eq o' p true
      refine ⟨hbundle, hreports, ?_⟩
      rw [hsingle, hlast, Bool.or_true]
    · rename_i hlast
      refine ⟨rfl, rfl, ?_⟩
      rw [Bool.eq_false_of_not_eq_true hlast, Bool.or_false]
  exact ⟨hmode.1, hmode.2.1, hmode.2.2, rfl⟩

theorem removeRunningUser_reported {m : Bool} (h : Wf o)
    (hc : o.Reported c.user c.connectToken) :
    (o.removeRunningUser p c m).1.Reported u t ↔
      o.Reported u t ∧ ¬ (u = c.user ∧ t = c.connectToken) := by
  obtain ⟨tokens, hmem, -⟩ := hc
  rw [Reported, (removeRunningUser_fields h hmem).2.1]
  exact has_erased h hmem

theorem Wf.removeRunningUser {m : Bool} (h : Wf o) (hc : o.Reported c.user c.connectToken) :
    Wf (o.removeRunningUser p c m).1 := by
  obtain ⟨tokens, hmem, ht⟩ := hc
  obtain ⟨-, hreports, hsingle, -⟩ := removeRunningUser_fields (p := p) (m := m) h hmem
  constructor
  · rw [users, hreports, erased]
    split
    · exact Lib.Keyed.nodup_remove h.nodup
    · rw [Lib.Keyed.map_key_modify]
      · exact h.nodup
      · intro r _
        rfl
  · rw [hreports, erased]
    split
    · intro r hr
      exact h.nonempty r (Lib.Keyed.mem_remove.mp hr).1
    · rename_i hrest
      intro r hr
      obtain ⟨r', hr', rfl⟩ := List.mem_map.mp hr
      split
      · rename_i hu
        have htokens : r'.2 = tokens := h.unique hmem (u := c.user) (hu ▸ hr')
        intro hnil
        rw [← htokens] at hrest
        exact hrest (List.isEmpty_iff.mpr hnil)
      · exact h.nonempty r' hr'
  · rw [hreports, erased]
    split
    · intro r hr
      exact h.tokens r (Lib.Keyed.mem_remove.mp hr).1
    · intro r hr
      obtain ⟨r', hr', rfl⟩ := List.mem_map.mp hr
      split
      · exact (h.tokens r' hr').erase _
      · exact h.tokens r' hr'
  · have hlength := length_erased h hmem
    rw [hsingle, hreports, h.single, Bool.eq_iff_iff]
    simp only [Bool.or_eq_true, Bool.and_eq_true, decide_eq_true_eq, beq_iff_eq]
    split at hlength
    · rename_i hfinished
      simp only [hfinished, true_and]
      omega
    · rename_i hfinished
      rw [or_iff_left fun hboth => hfinished hboth.1]
      omega

theorem removeRunningUser_isEmpty {m : Bool} (h : Wf o)
    (hc : o.Reported c.user c.connectToken) :
    (o.removeRunningUser p c m).2.2 = (o.removeRunningUser p c m).1.uploadReports.isEmpty := by
  obtain ⟨tokens, hmem, -⟩ := hc
  obtain ⟨-, hreports, -, hempty⟩ := removeRunningUser_fields (p := p) (m := m) h hmem
  rw [hempty, hreports]

theorem modeTold_removeRunningUser_other {m : Bool} (h : Wf o)
    (hc : o.Reported c.user c.connectToken) (hb : b ≠ o.getStringToken) :
    ∀ msg ∈ (o.removeRunningUser p c m).2.1, modeTold u b msg = none := by
  obtain ⟨tokens, hmem, -⟩ := hc
  rw [removeRunningUser_eq h hmem]
  extract_lets finished o' mode
  intro msg hmsg
  rcases List.mem_append.mp hmsg with hmsg | hmsg
  · simp only [mode] at hmsg
    split at hmsg
    · exact modeTold_setUserMode_other (o := o') hb msg hmsg
    · exact absurd hmsg List.not_mem_nil
  · split at hmsg
    · rw [List.mem_singleton.mp hmsg]
      exact modeTold_finished
    · split at hmsg
      · rw [List.mem_singleton.mp hmsg]
        exact modeTold_remove
      · exact absurd hmsg List.not_mem_nil

theorem Told.removeRunningUser {m : Bool} (hwf : Wf o) (h : Told o sent)
    (hc : o.Reported c.user c.connectToken) :
    Told (o.removeRunningUser p c m).1 (sent ++ (o.removeRunningUser p c m).2.1) := by
  obtain ⟨tokens, hmem, -⟩ := hc
  obtain ⟨hbundle, hreports, hsingle, -⟩ := removeRunningUser_fields (p := p) (m := m) hwf hmem
  have htoken : (o.removeRunningUser p c m).1.getStringToken = o.getStringToken := by
    rw [getStringToken, hbundle, getStringToken]
  intro u hu
  rw [users, hreports] at hu
  rw [htoken, hsingle, removeRunningUser_eq hwf hmem]
  extract_lets finished o' mode
  have hquiet : ∀ msg ∈ (if finished then [(c.user, mode.1.getBundleFinishedCommand)]
      else if m then [(c.user, getRemoveCommand c.connectToken)] else []),
      modeTold u o.getStringToken msg = none := by
    intro msg hmsg
    split at hmsg
    · rw [List.mem_singleton.mp hmsg]
      exact modeTold_finished
    · split at hmsg
      · rw [List.mem_singleton.mp hmsg]
        exact modeTold_remove
      · exact absurd hmsg List.not_mem_nil
  rw [← List.append_assoc, lastMode_append_of_none hquiet]
  by_cases hlast : finished && (erased o c tokens).length == 1
  · -- the user that remains is told that he is the only one
    obtain ⟨-, -, hmode, hsent⟩ := @setUserMode_eq o' p true
    obtain ⟨r, hr⟩ := List.length_eq_one_iff.mp (by simpa using (Bool.and_eq_true_iff.mp hlast).2)
    have hru : r.1 = u := by
      rw [hr] at hu
      exact (List.mem_singleton.mp hu).symm
    have htold : lastMode (o'.setUserMode p true).2 u o.getStringToken = some true := by
      have hhead : o'.uploadReports.head?.toList = [r] := by simp [o', hr]
      rw [hsent, hhead, List.map_cons, List.map_nil, lastMode_singleton, modeTold_userMode, hmode,
        if_pos ⟨hru, rfl⟩]
    simp only [mode, hlast, if_true]
    rw [lastMode_append, htold]
    simp [finished] at hlast
    simp [hlast]
  · have hmode : mode = (o', []) := if_neg hlast
    have hsame : (o.singleUser || finished && (erased o c tokens).length == 1) = o.singleUser := by
      rw [Bool.eq_false_of_not_eq_true hlast, Bool.or_false]
    rw [hmode, hsame, List.append_nil]
    exact h u (users_erased_subset hu)

end UBNBundle
end Airdcpp
