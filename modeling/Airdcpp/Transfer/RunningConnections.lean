import Airdcpp.Transfer.UploadReports

/-!
# `Transfer/RunningConnections` — each running connection is reported to one info object

The info object of a connection is the registered one of its bundle, and reports the connection; no
other object does. What a handler looked up may be out of date when it uses it: another handler may
have registered an object for the bundle, dropped the object found, or moved the connection.
`Current` is the condition that this does not happen.
-/

namespace Airdcpp
namespace UploadBundleInfoSender

open UBNBundle (Told lastMode)

variable {getUser : Str → UserPtr} {s : UploadBundleInfoSender} {ts : List Call} {x : Bundles}
  {a : Nat} {c : UBNConnection} {b : QueueToken} {m : Bool}

/-- What was looked up is still so. -/
def Current (s : UploadBundleInfoSender) (_ : List Call) : Call → Bundles → Prop
  | .register _ bundle, _ => s.bundleTokenMap bundle = none
  | .insert _ bundle ubnBundle, _ => s.bundleTokenMap bundle = some ubnBundle
  | .removeRunning aSource ubnBundle _, _ =>
    s.connectionTokenMap aSource.connectToken = some ubnBundle
  | _, _ => True

instance (s : UploadBundleInfoSender) (ts : List Call) (t : Call) (x : Bundles) :
    Decidable (Current s ts t x) := by
  cases t <;> simp only [Current] <;> infer_instance

/-- What is promised of the maps and the objects, with the calls that run. An object that was just
    registered has no report yet. -/
structure Tracked (getUser : Str → UserPtr) (s : UploadBundleInfoSender) (ts : List Call) :
    Prop where
  mapped : ∀ t a, s.connectionTokenMap t = some a →
    s.bundleTokenMap (s.infos a).bundle = some a ∧ (s.infos a).Reported (getUser t) t
  only : ∀ a u t, (s.infos a).Reported u t → s.connectionTokenMap t = some a ∧ u = getUser t
  registered : ∀ a, (s.infos a).uploadReports ≠ [] → s.bundleTokenMap (s.infos a).bundle = some a
  reported : ∀ b a, s.bundleTokenMap b = some a → (s.infos a).bundle = b ∧
    ((s.infos a).uploadReports ≠ [] ∨ ∃ c, Call.insert c b a ∈ ts)
  told : ∀ a, (s.infos a).Told s.sent
  single : ∀ a, (s.infos a).singleUser = true ↔ (s.infos a).users.length ≤ 1

/-- `Tracked`, and what keeps it. -/
structure Inv (getUser : Str → UserPtr) (s : UploadBundleInfoSender) (ts : List Call) : Prop
    extends Tracked getUser s ts where
  wf : ∀ a, (s.infos a).Wf
  fresh : ∀ b a, s.bundleTokenMap b = some a → a < s.nextAddress
  users : ∀ t ∈ ts, t.connection.user = getUser t.connection.connectToken

theorem single_of_wf {o : UBNBundle} (h : o.Wf) : o.singleUser = true ↔ o.users.length ≤ 1 := by
  rw [h.single, decide_eq_true_eq, UBNBundle.users, List.length_map]

theorem reported_nonempty {o : UBNBundle} {u : UserPtr} {t : Str} (h : o.Reported u t) :
    o.uploadReports ≠ [] := by
  obtain ⟨tokens, hmem, -⟩ := h
  exact List.ne_nil_of_mem hmem

theorem reported_of_nonempty {o : UBNBundle} (hwf : o.Wf) (h : o.uploadReports ≠ []) :
    ∃ u t, o.Reported u t := by
  obtain ⟨r, hr⟩ := List.exists_mem_of_ne_nil _ h
  obtain ⟨t, ht⟩ := List.exists_mem_of_ne_nil _ (hwf.nonempty r hr)
  exact ⟨r.1, t, r.2, hr, ht⟩

/-! ## One object changes -/

/-- One object is another one, of the same bundle, and has sent `msgs`. -/
structure Changed (s s' : UploadBundleInfoSender) (a : Nat) (o : UBNBundle)
    (msgs : List UBNMessage) : Prop where
  infos : s'.infos = Function.update s.infos a o
  sent : s'.sent = s.sent ++ msgs
  bundle : o.bundle = (s.infos a).bundle
  wf : o.Wf
  told : o.Told s'.sent
  quiet : ∀ u b, b ≠ (s.infos a).getStringToken → ∀ msg ∈ msgs, UBNBundle.modeTold u b msg = none

section Changed

variable {s' : UploadBundleInfoSender} {o : UBNBundle} {msgs : List UBNMessage} {a' : Nat}

theorem Changed.self (h : Changed s s' a o msgs) : s'.infos a = o := by
  rw [h.infos, Function.update_self]

theorem Changed.other (h : Changed s s' a o msgs) (hne : a' ≠ a) : s'.infos a' = s.infos a' := by
  rw [h.infos, Function.update_of_ne hne]

theorem Changed.bundle_eq (h : Changed s s' a o msgs) (a' : Nat) :
    (s'.infos a').bundle = (s.infos a').bundle := by
  by_cases hne : a' = a
  · rw [hne, h.self, h.bundle]
  · rw [h.other hne]

theorem Changed.wf_all (h : Changed s s' a o msgs) (hs : ∀ a', (s.infos a').Wf) (a' : Nat) :
    (s'.infos a').Wf := by
  by_cases hne : a' = a
  · rw [hne, h.self]
    exact h.wf
  · rw [h.other hne]
    exact hs a'

/-- Two registered objects are of different bundles, and what is sent about one tells the users of
    the other nothing. -/
theorem Changed.told_all (h : Changed s s' a o msgs) (hs : Tracked getUser s ts)
    (ha : s.bundleTokenMap (s.infos a).bundle = some a) (a' : Nat) :
    (s'.infos a').Told s'.sent := by
  by_cases hne : a' = a
  · rw [hne, h.self]
    exact h.told
  · rw [h.other hne]
    intro u hu
    have hreports : (s.infos a').uploadReports ≠ [] := by
      obtain ⟨r, hr, -⟩ := List.mem_map.mp hu
      exact List.ne_nil_of_mem hr
    have ha' := hs.registered a' hreports
    have htoken : (s.infos a').getStringToken ≠ (s.infos a).getStringToken := by
      intro heq
      rw [Util.natText_inj heq, ha] at ha'
      exact hne (Option.some.inj ha').symm
    rw [h.sent, UBNBundle.lastMode_append_of_none (h.quiet u _ htoken)]
    exact hs.told a' u hu

end Changed

theorem changed_addRunningUser (hwf : (s.infos a).Wf) (htold : (s.infos a).Told s.sent) :
    Changed s (s.addRunningUserUnsafe x a c) a
      ((s.infos a).addRunningUser (x (s.infos a).bundle) c).1
      ((s.infos a).addRunningUser (x (s.infos a).bundle) c).2 where
  infos := rfl
  sent := rfl
  bundle := UBNBundle.addRunningUser_bundle
  wf := hwf.addRunningUser
  told := htold.addRunningUser
  quiet _ _ hb := UBNBundle.modeTold_addRunningUser_other hb

/-- The connection is removed from an object and from the map. -/
def dropConnection (s : UploadBundleInfoSender) (x : Bundles) (a : Nat) (c : UBNConnection)
    (m : Bool) : UploadBundleInfoSender :=
  (s.removeRunningUserUnsafe x a c m).eraseConnection c.connectToken

theorem changed_dropConnection (hwf : (s.infos a).Wf) (htold : (s.infos a).Told s.sent)
    (hc : (s.infos a).Reported c.user c.connectToken) :
    Changed s (s.dropConnection x a c m) a
      ((s.infos a).removeRunningUser (x (s.infos a).bundle) c m).1
      ((s.infos a).removeRunningUser (x (s.infos a).bundle) c m).2.1 where
  infos := rfl
  sent := rfl
  bundle := by
    obtain ⟨tokens, hmem, -⟩ := hc
    exact (UBNBundle.removeRunningUser_fields hwf hmem).1
  wf := hwf.removeRunningUser hc
  told := htold.removeRunningUser hwf hc
  quiet _ _ hb := UBNBundle.modeTold_removeRunningUser_other hwf hc hb

/-! ## Adding a connection -/

theorem Inv.add (h : Inv getUser s (.insert c b a :: ts)) (hb : s.bundleTokenMap b = some a)
    (hfree : s.connectionTokenMap c.connectToken = none) :
    Inv getUser (s.addRunningUserUnsafe x a c) ts := by
  have huser : c.user = getUser c.connectToken := h.users _ List.mem_cons_self
  obtain ⟨hbundle, -⟩ := h.reported b a hb
  have hchanged := changed_addRunningUser (x := x) (c := c) (h.wf a) (h.told a)
  have ha : s.bundleTokenMap (s.infos a).bundle = some a := hbundle ▸ hb
  have hwf := hchanged.wf_all h.wf
  have hmaps : (s.addRunningUserUnsafe x a c).connectionTokenMap =
      Function.update s.connectionTokenMap c.connectToken (some a) := rfl
  -- the connection is reported to `a` now, and what was reported before still is
  have hreported : ∀ a' u t, ((s.addRunningUserUnsafe x a c).infos a').Reported u t ↔
      (s.infos a').Reported u t ∨ (a' = a ∧ u = c.user ∧ t = c.connectToken) := by
    intro a' u t
    by_cases hne : a' = a
    · rw [hne, hchanged.self, UBNBundle.addRunningUser_reported]
      simp
    · rw [hchanged.other hne]
      simp [hne]
  refine ⟨⟨?_, ?_, ?_, ?_, hchanged.told_all h.toTracked ha, fun a' => single_of_wf (hwf a')⟩,
    hwf, h.fresh, fun t ht => h.users t (List.mem_cons_of_mem _ ht)⟩
  · intro t a' hmap
    rw [hchanged.bundle_eq, hreported]
    rw [hmaps] at hmap
    by_cases ht : t = c.connectToken
    · subst ht
      rw [Function.update_self] at hmap
      obtain rfl := Option.some.inj hmap
      exact ⟨ha, .inr ⟨rfl, huser.symm, rfl⟩⟩
    · rw [Function.update_of_ne ht] at hmap
      obtain ⟨hreg, hrep⟩ := h.mapped t a' hmap
      exact ⟨hreg, .inl hrep⟩
  · intro a' u t hrep
    rcases (hreported a' u t).mp hrep with hold | ⟨rfl, rfl, rfl⟩
    · obtain ⟨hmap, hu⟩ := h.only a' u t hold
      have ht : t ≠ c.connectToken := by
        rintro rfl
        exact absurd (hfree.symm.trans hmap) (by simp)
      rw [hmaps, Function.update_of_ne ht]
      exact ⟨hmap, hu⟩
    · rw [hmaps, Function.update_self]
      exact ⟨rfl, huser⟩
  · intro a' hne
    obtain ⟨u, t, hrep⟩ := reported_of_nonempty (hwf a') hne
    rw [hchanged.bundle_eq]
    rcases (hreported a' u t).mp hrep with hold | ⟨rfl, -, -⟩
    · exact h.registered a' (reported_nonempty hold)
    · exact ha
  · intro b' a' hreg
    obtain ⟨hb', hrest⟩ := h.reported b' a' hreg
    refine ⟨(hchanged.bundle_eq a').trans hb', ?_⟩
    by_cases hne : a' = a
    · subst hne
      exact .inl (reported_nonempty ((hreported a' c.user c.connectToken).mpr
        (.inr ⟨rfl, rfl, rfl⟩)))
    · rw [hchanged.other hne]
      refine hrest.imp_right ?_
      rintro ⟨c', hmem⟩
      refine ⟨c', (List.mem_cons.mp hmem).resolve_left ?_⟩
      intro heq
      exact hne (Call.insert.inj heq).2.2

/-! ## Removing a connection -/

theorem Inv.drop (h : Inv getUser s ts) (huser : c.user = getUser c.connectToken)
    (hmap : s.connectionTokenMap c.connectToken = some a) :
    Inv getUser (s.dropConnection x a c m) ts := by
  obtain ⟨ha, hc⟩ := h.mapped _ _ hmap
  rw [← huser] at hc
  have hchanged := changed_dropConnection (x := x) (m := m) (h.wf a) (h.told a) hc
  have hwf := hchanged.wf_all h.wf
  have hreported : ∀ a' u t, ((s.dropConnection x a c m).infos a').Reported u t ↔
      (s.infos a').Reported u t ∧ t ≠ c.connectToken := by
    intro a' u t
    by_cases hne : a' = a
    · rw [hne, hchanged.self, UBNBundle.removeRunningUser_reported (h.wf a) hc]
      refine and_congr_right fun hrep => not_congr ⟨And.right, ?_⟩
      rintro rfl
      exact ⟨(h.only a u _ hrep).2.trans huser.symm, rfl⟩
    · rw [hchanged.other hne]
      refine (and_iff_left_of_imp ?_).symm
      rintro hrep rfl
      have hmap' := (h.only a' u _ hrep).1
      rw [hmap] at hmap'
      exact hne (Option.some.inj hmap').symm
  -- the object is dropped when its last report goes
  have hbundles : ∀ b a', (s.dropConnection x a c m).bundleTokenMap b = some a' ↔
      s.bundleTokenMap b = some a' ∧
        (a' = a → ((s.dropConnection x a c m).infos a).uploadReports ≠ []) := by
    intro b a'
    have hempty := UBNBundle.removeRunningUser_isEmpty (p := x (s.infos a).bundle) (m := m)
      (h.wf a) hc
    rw [hchanged.self, ← List.isEmpty_eq_false_iff, ← hempty]
    have hmapEq : (s.dropConnection x a c m).bundleTokenMap =
        if ((s.infos a).removeRunningUser (x (s.infos a).bundle) c m).2.2 then
          Function.update s.bundleTokenMap (s.infos a).bundle none else s.bundleTokenMap := rfl
    rw [hmapEq]
    split
    · rename_i hlast
      rw [hlast]
      by_cases hb : b = (s.infos a).bundle
      · subst hb
        rw [Function.update_self, ha]
        simp
        exact fun heq => heq ▸ rfl
      · rw [Function.update_of_ne hb]
        refine (and_iff_left_of_imp ?_).symm
        rintro hreg rfl
        exact absurd (h.reported b a' hreg).1.symm hb
    · rename_i hlast
      rw [Bool.eq_false_of_not_eq_true hlast]
      simp
  have hmaps : (s.dropConnection x a c m).connectionTokenMap =
      Function.update s.connectionTokenMap c.connectToken none := rfl
  refine ⟨⟨?_, ?_, ?_, ?_, hchanged.told_all h.toTracked ha, fun a' => single_of_wf (hwf a')⟩,
    hwf, ?_, h.users⟩
  · intro t a' hmap'
    rw [hmaps] at hmap'
    have ht : t ≠ c.connectToken := by
      rintro rfl
      exact absurd hmap' (by simp)
    rw [Function.update_of_ne ht] at hmap'
    obtain ⟨hreg, hrep⟩ := h.mapped t a' hmap'
    have hrep' := (hreported a' _ t).mpr ⟨hrep, ht⟩
    refine ⟨?_, hrep'⟩
    rw [hchanged.bundle_eq, hbundles]
    refine ⟨hreg, ?_⟩
    rintro rfl
    exact reported_nonempty hrep'
  · intro a' u t hrep
    obtain ⟨hold, ht⟩ := (hreported a' u t).mp hrep
    obtain ⟨hmap', hu⟩ := h.only a' u t hold
    rw [hmaps, Function.update_of_ne ht]
    exact ⟨hmap', hu⟩
  · intro a' hne
    obtain ⟨u, t, hrep⟩ := reported_of_nonempty (hwf a') hne
    rw [hchanged.bundle_eq, hbundles]
    refine ⟨h.registered a' (reported_nonempty ((hreported a' u t).mp hrep).1), ?_⟩
    rintro rfl
    exact hne
  · intro b' a' hreg
    obtain ⟨hreg, hrest⟩ := (hbundles b' a').mp hreg
    obtain ⟨hb', hreports⟩ := h.reported b' a' hreg
    refine ⟨(hchanged.bundle_eq a').trans hb', ?_⟩
    by_cases hne : a' = a
    · subst hne
      exact .inl (hrest rfl)
    · rw [hchanged.other hne]
      exact hreports
  · intro b' a' hreg
    exact h.fresh b' a' ((hbundles b' a').mp hreg).1

/-! ## Registering an object -/

theorem Inv.register (h : Inv getUser s (.register c b :: ts)) (hb : s.bundleTokenMap b = none) :
    Inv getUser (s.registerInfo b) (.insert c b s.nextAddress :: ts) := by
  have hself : (s.registerInfo b).infos s.nextAddress = { bundle := b } :=
    Function.update_self ..
  have hold : ∀ a, a ≠ s.nextAddress → (s.registerInfo b).infos a = s.infos a := by
    intro a hne
    exact Function.update_of_ne hne ..
  have hempty : ∀ u t, ¬ ((s.registerInfo b).infos s.nextAddress).Reported u t := by
    intro u t hrep
    exact reported_nonempty hrep (by rw [hself])
  have hmaps : (s.registerInfo b).bundleTokenMap =
      Function.update s.bundleTokenMap b (some s.nextAddress) := rfl
  have hne_of_registered : ∀ b' a, s.bundleTokenMap b' = some a → a ≠ s.nextAddress ∧ b' ≠ b := by
    intro b' a hreg
    refine ⟨(h.fresh b' a hreg).ne, ?_⟩
    rintro rfl
    exact absurd (hb.symm.trans hreg) (by simp)
  have hwf : ∀ a, ((s.registerInfo b).infos a).Wf := by
    intro a
    by_cases hne : a = s.nextAddress
    · rw [hne, hself]
      exact ⟨List.nodup_nil, by simp, by simp, rfl⟩
    · rw [hold a hne]
      exact h.wf a
  refine ⟨⟨?_, ?_, ?_, ?_, ?_, fun a => single_of_wf (hwf a)⟩, hwf, ?_, ?_⟩
  · intro t a hmap
    obtain ⟨hreg, hrep⟩ := h.mapped t a hmap
    obtain ⟨hne, hb'⟩ := hne_of_registered _ _ hreg
    rw [hold a hne, hmaps, Function.update_of_ne hb']
    exact ⟨hreg, hrep⟩
  · intro a u t hrep
    have hne : a ≠ s.nextAddress := by
      rintro rfl
      exact hempty u t hrep
    rw [hold a hne] at hrep
    exact h.only a u t hrep
  · intro a hreports
    have hne : a ≠ s.nextAddress := by
      rintro rfl
      exact hreports (by rw [hself])
    rw [hold a hne] at hreports ⊢
    have hreg := h.registered a hreports
    rw [hmaps, Function.update_of_ne (hne_of_registered _ _ hreg).2]
    exact hreg
  · intro b' a hreg
    rw [hmaps] at hreg
    by_cases hb' : b' = b
    · subst hb'
      rw [Function.update_self] at hreg
      obtain rfl := Option.some.inj hreg
      refine ⟨by rw [hself], .inr ⟨c, List.mem_cons_self⟩⟩
    · rw [Function.update_of_ne hb'] at hreg
      obtain ⟨hbundle, hrest⟩ := h.reported b' a hreg
      rw [hold a (hne_of_registered _ _ hreg).1]
      refine ⟨hbundle, hrest.imp_right ?_⟩
      rintro ⟨c', hmem⟩
      refine ⟨c', List.mem_cons_of_mem _ ?_⟩
      exact (List.mem_cons.mp hmem).resolve_left Call.noConfusion
  · intro a
    by_cases hne : a = s.nextAddress
    · rw [hne, hself]
      intro u hu
      exact absurd hu List.not_mem_nil
    · rw [hold a hne]
      exact h.told a
  · intro b' a hreg
    rw [hmaps] at hreg
    by_cases hb' : b' = b
    · subst hb'
      rw [Function.update_self] at hreg
      obtain rfl := Option.some.inj hreg
      exact Nat.lt_succ_self _
    · rw [Function.update_of_ne hb'] at hreg
      exact Nat.lt_succ_of_lt (h.fresh b' a hreg)
  · intro t ht
    rcases List.mem_cons.mp ht with rfl | ht
    · exact h.users (.register c b) List.mem_cons_self
    · exact h.users t (List.mem_cons_of_mem _ ht)

/-! ## The sections -/

/-- Only calls that are about to insert a connection matter to the objects. -/
theorem Inv.mono {ts' : List Call} (h : Inv getUser s ts)
    (hinsert : ∀ c b a, Call.insert c b a ∈ ts → Call.insert c b a ∈ ts')
    (husers : ∀ t ∈ ts', t.connection.user = getUser t.connection.connectToken) :
    Inv getUser s ts' where
  mapped := h.mapped
  only := h.only
  registered := h.registered
  reported b a hreg := by
    obtain ⟨hbundle, hrest⟩ := h.reported b a hreg
    refine ⟨hbundle, hrest.imp_right ?_⟩
    rintro ⟨c, hmem⟩
    exact ⟨c, hinsert c b a hmem⟩
  told := h.told
  single := h.single
  wf := h.wf
  fresh := h.fresh
  users := husers

/-- A call that does not insert goes on to another one of its connection, or returns. -/
theorem Inv.go {t : Call} {t' : Option Call} (h : Inv getUser s (t :: ts))
    (ht : ∀ c b a, t ≠ .insert c b a) (ht' : ∀ r ∈ t', r.connection = t.connection) :
    Inv getUser s (t'.toList ++ ts) := by
  refine h.mono ?_ ?_
  · intro c b a hmem
    refine List.mem_append_right _ ((List.mem_cons.mp hmem).resolve_left ?_)
    exact fun heq => ht c b a heq.symm
  · intro r hr
    rcases List.mem_append.mp hr with hr | hr
    · rw [ht' r (Option.mem_toList.mp hr)]
      exact h.users t List.mem_cons_self
    · exact h.users r (List.mem_cons_of_mem _ hr)

theorem Inv.returned {t : Call} (h : Inv getUser s (t :: ts)) (ht : ∀ c b a, t ≠ .insert c b a) :
    Inv getUser s ((none : Option Call).toList ++ ts) :=
  h.go ht fun _ hr => absurd hr (by simp)

/-- A connection that is reported already is not inserted. -/
theorem Inv.kept (h : Inv getUser s (.insert c b a :: ts))
    (hmap : s.connectionTokenMap c.connectToken = some a) : Inv getUser s ts where
  mapped := h.mapped
  only := h.only
  registered := h.registered
  reported b' a' hreg := by
    obtain ⟨hbundle, hrest⟩ := h.reported b' a' hreg
    refine ⟨hbundle, ?_⟩
    rcases hrest with hreports | ⟨c', hmem⟩
    · exact .inl hreports
    · rcases List.mem_cons.mp hmem with heq | hmem
      · obtain ⟨-, -, rfl⟩ := Call.insert.inj heq
        exact .inl (reported_nonempty (h.mapped _ _ hmap).2)
      · exact .inr ⟨c', hmem⟩
  told := h.told
  single := h.single
  wf := h.wf
  fresh := h.fresh
  users t ht := h.users t (List.mem_cons_of_mem _ ht)

theorem moved_eq {i : Nat} :
    (s.removeRunningUserUnsafe x i c m).addRunningUserUnsafe x a c =
      (s.dropConnection x i c m).addRunningUserUnsafe x a c := by
  simp only [dropConnection, eraseConnection, addRunningUserUnsafe, Function.update_idem]

theorem dropConnection_bundleTokenMap {i : Nat} (hb : b ≠ (s.infos i).bundle) :
    (s.dropConnection x i c m).bundleTokenMap b = s.bundleTokenMap b := by
  simp only [dropConnection, eraseConnection, removeRunningUserUnsafe]
  split
  · exact Function.update_of_ne hb ..
  · rfl

/-- The connection leaves the object of another bundle. -/
theorem Inv.moved {i : Nat} (h : Inv getUser s (.insert c b a :: ts))
    (hb : s.bundleTokenMap b = some a) (hmap : s.connectionTokenMap c.connectToken = some i)
    (hne : i ≠ a) :
    Inv getUser ((s.removeRunningUserUnsafe x i c m).addRunningUserUnsafe x a c) ts := by
  have huser : c.user = getUser c.connectToken := h.users _ List.mem_cons_self
  have hbundle : b ≠ (s.infos i).bundle := by
    rintro rfl
    rw [(h.mapped _ _ hmap).1] at hb
    exact hne (Option.some.inj hb)
  rw [moved_eq]
  refine (h.drop huser hmap).add ?_ (Function.update_self ..)
  rw [dropConnection_bundleTokenMap hbundle]
  exact hb

theorem Inv.findRunning {t : Call} (h : Inv getUser s (t :: ts)) (ht : ∀ c b a, t ≠ .insert c b a)
    (hc : t.connection = c) :
    Inv getUser (s.findRunning c).1 ((s.findRunning c).2.toList ++ ts) := by
  unfold UploadBundleInfoSender.findRunning
  split
  · exact h.go ht (by simp)
  · split
    · exact h.go ht (by simp)
    · refine h.go ht ?_
      rintro r ⟨⟩
      exact hc.symm

theorem Inv.next {t : Call} (h : Inv getUser s (t :: ts)) (hcurrent : Current s ts t x) :
    Inv getUser (next s t x).1 ((next s t x).2.toList ++ ts) := by
  have huser := h.users t List.mem_cons_self
  cases t with
  | starting c bundle =>
    cases bundle with
    | none =>
      simp only [UploadBundleInfoSender.next]
      split
      · exact h.go (by simp) (by simp)
      · split
        · exact h.go (by simp) (by simp)
        · rename_i i hmap
          exact (h.drop huser hmap).returned (by simp)
    | some b =>
      simp only [UploadBundleInfoSender.next]
      split
      · exact h.go (by simp) (by simp)
      · split
        · refine h.go (by simp) ?_
          rintro r ⟨⟩
          rfl
        · refine h.go (by simp) ?_
          rintro r ⟨⟩
          rfl
  | register c b => exact h.register hcurrent
  | insert c b a =>
    simp only [UploadBundleInfoSender.next]
    split
    · rename_i hfree
      exact h.add hcurrent hfree
    · rename_i i hmap
      split
      · rename_i hsame
        subst hsame
        exact h.kept hmap
      · rename_i hmoved
        exact h.moved hcurrent hmap hmoved
  | idle c => exact h.findRunning (by simp) rfl
  | remove c => exact h.findRunning (by simp) rfl
  | failed c bundle =>
    cases bundle with
    | none => exact h.returned (by simp)
    | some b => exact h.findRunning (by simp) rfl
  | removeRunning c a m => exact (h.drop huser hcurrent).returned (by simp)

/-! ## Runs -/

theorem inv_initial : Inv getUser {} [] where
  mapped _ _ hmap := absurd hmap (by simp)
  only _ _ _ hrep := absurd rfl (reported_nonempty hrep)
  registered _ hreports := absurd rfl hreports
  reported _ _ hreg := absurd hreg (by simp)
  told _ _ hu := absurd hu List.not_mem_nil
  single _ := single_of_wf ⟨List.nodup_nil, by simp, by simp, rfl⟩
  wf _ := ⟨List.nodup_nil, by simp, by simp, rfl⟩
  fresh _ _ hreg := absurd hreg (by simp)
  users _ ht := absurd ht List.not_mem_nil

end UploadBundleInfoSender
end Airdcpp
