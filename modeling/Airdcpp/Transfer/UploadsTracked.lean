import Airdcpp.Lib.ListOps
import Airdcpp.Transfer.UploadConnections

/-!
# `Transfer/UploadsTracked` — each upload in the bundle of its connection

`Inv` is what every step keeps whose condition holds. It has a lemma for each function of the
receiver; a command is put together from those of `handleAddBundleConnection` and
`handleRemoveBundleConnection`, and a callback keeps what the command that left it was allowed to
assume (`Inv.adds`).
-/

namespace Airdcpp
namespace UploadConnections

open UploadBundleInfo (lastParam)
open UploadBundleInfoReceiver (numberParam updateBundle)

/-- What is kept between two steps. A callback that adds an upload keeps the condition that the
    command had. -/
structure Inv (s : Receiver) : Prop where
  mapped : ∀ p u, u ∈ (s.objects p).uploads → ∃ c, (u, c) ∈ s.uploads ∧ s.connections c = some p
  registered : ∀ c p, s.connections c = some p → s.Registered p
  adds : ∀ u p c, .add u p ∈ s.callbacks → (u, c) ∈ s.uploads →
    s.Registered p ∧
      (∀ q, s.connections c = some q → q ≠ p → u ∉ (s.objects q).uploads) ∧
      ∀ q, .add u q ∈ s.callbacks → q = p
  token_eq : ∀ t p, s.bundles t = some p → s.tokens p = t
  below : ∀ p, s.Referenced p → p < s.nextAddress
  unused : ∀ p, s.nextAddress ≤ p → (s.objects p).uploads = ∅
  distinct : ∀ p q, s.Referenced p → s.Referenced q → s.tokens p = s.tokens q → p = q
  uploads_nodup : (s.uploads.map Prod.fst).Nodup
  connections_nodup : (s.uploads.map Prod.snd).Nodup
  uploads_lt : ∀ e ∈ s.uploads, e.1 < s.nextUpload
  callbacks_lt : ∀ c ∈ s.callbacks, c.upload < s.nextUpload

/-! ## Single operations -/

@[simp] theorem uploads_removeUpload (b : UploadBundle) (u : BundleUpload) :
    (b.removeUpload u).2.uploads = b.uploads.erase u.token := by
  simp only [UploadBundle.removeUpload]
  split
  · simp only [UploadBundle.addUploadedSegment]
    split <;> rfl
  · exact (Finset.erase_eq_of_notMem ‹_›).symm

@[simp] theorem uploads_updateBundle (parameters : List Str) (b : UploadBundle) :
    (updateBundle parameters b).uploads = b.uploads := by
  simp only [updateBundle, UploadBundle.setSingleUser]
  split
  · rfl
  · split
    · rfl
    · split <;> rfl

@[simp] theorem uploads_checkDelaySecond (b : UploadBundle) :
    b.checkDelaySecond.2.uploads = b.uploads := by
  obtain ⟨delayTime, h⟩ := b.checkDelaySecond_eq
  rw [h]

variable {s : Receiver}

theorem Inv.tracked (h : Inv s) : Tracked s where
  mapped := h.mapped
  registered := h.registered
  single p q u hp hq := by
    obtain ⟨c, hc, hconnection⟩ := h.mapped p u hp
    obtain ⟨d, hd, hconnection'⟩ := h.mapped q u hq
    have heq : c = d := by
      have hsame := List.inj_on_of_nodup_map h.uploads_nodup hc hd rfl
      exact congrArg Prod.snd hsame
    subst heq
    exact Option.some.inj (hconnection.symm.trans hconnection')

theorem Inv.findUpload_iff (h : Inv s) {c : Str} {u : Nat} :
    s.findUpload c = some u ↔ (u, c) ∈ s.uploads := by
  simp only [Receiver.findUpload, Option.map_eq_some_iff]
  constructor
  · rintro ⟨e, hfind, rfl⟩
    have hc : e.2 = c := by simpa using List.find?_some hfind
    rw [← hc]
    exact List.mem_of_find?_eq_some hfind
  · intro hmem
    have hsome : (s.uploads.find? fun u => u.2 = c).isSome := by
      rw [List.find?_isSome]
      exact ⟨(u, c), hmem, by simp⟩
    obtain ⟨e, he⟩ := Option.isSome_iff_exists.mp hsome
    have hc : e.2 = c := by simpa using List.find?_some he
    have hsame :=
      List.inj_on_of_nodup_map h.connections_nodup (List.mem_of_find?_eq_some he) hmem hc
    exact ⟨e, he, by rw [hsame]⟩

theorem Inv.lookup_iff (h : Inv s) {c : Str} {u : Nat} :
    s.uploads.lookup u = some c ↔ (u, c) ∈ s.uploads :=
  Lib.lookup_eq_some_iff_mem h.uploads_nodup

theorem Inv.registered_of_bundles (h : Inv s) {t : Str} {p : Nat} (hp : s.bundles t = some p) :
    s.Registered p := by
  rw [Receiver.Registered, h.token_eq t p hp]
  exact hp

/-- Bundles lose uploads, and callbacks are done with. -/
theorem Inv.shrink (h : Inv s) {objects : Nat → UploadBundle} {callbacks : List Callback}
    (hobjects : ∀ p, (objects p).uploads ⊆ (s.objects p).uploads)
    (hcallbacks : callbacks ⊆ s.callbacks) :
    Inv { s with objects := objects, callbacks := callbacks } := by
  have hreferenced : ∀ p,
      Receiver.Referenced { s with objects := objects, callbacks := callbacks } p →
        s.Referenced p := by
    rintro p (hreg | hconn | hcall)
    · exact Or.inl hreg
    · exact Or.inr (Or.inl hconn)
    · obtain ⟨c, hc, rfl⟩ := List.mem_map.mp hcall
      exact Or.inr (Or.inr (List.mem_map_of_mem (hcallbacks hc)))
  exact {
    mapped := fun p u hu => h.mapped p u (hobjects p hu)
    registered := h.registered
    adds := fun u p c hadd hc => by
      obtain ⟨hreg, hother, hsame⟩ := h.adds u p c (hcallbacks hadd) hc
      exact ⟨hreg, fun q hq hne hu => hother q hq hne (hobjects q hu),
        fun q hq => hsame q (hcallbacks hq)⟩
    token_eq := h.token_eq
    below := fun p hp => h.below p (hreferenced p hp)
    unused := fun p hp => by
      have hsubset := hobjects p
      rw [h.unused p hp] at hsubset
      exact Finset.subset_empty.mp hsubset
    distinct := fun p q hp hq => h.distinct p q (hreferenced p hp) (hreferenced q hq)
    uploads_nodup := h.uploads_nodup
    connections_nodup := h.connections_nodup
    uploads_lt := h.uploads_lt
    callbacks_lt := fun c hc => h.callbacks_lt c (hcallbacks hc) }

theorem Inv.removeBundleConnectionUnsafe (h : Inv s) (u : BundleUpload) (p : Nat) :
    Inv (s.removeBundleConnectionUnsafe u p) := by
  refine h.shrink (fun q => ?_) (List.Subset.refl _)
  by_cases hq : q = p
  · subst hq
    rw [Function.update_self, uploads_removeUpload]
    exact Finset.erase_subset _ _
  · rw [Function.update_of_ne hq]

/-- A callback that removes an upload is left. -/
theorem Inv.callRemove (h : Inv s) {u p : Nat} (hu : u < s.nextUpload) (hp : s.Referenced p) :
    Inv (s.callAsync (.remove u p)) := by
  have hreferenced : ∀ q, (s.callAsync (.remove u p)).Referenced q → s.Referenced q := by
    rintro q (hreg | hconn | hcall)
    · exact Or.inl hreg
    · exact Or.inr (Or.inl hconn)
    · obtain ⟨c, hc, rfl⟩ := List.mem_map.mp hcall
      rcases List.mem_append.mp hc with hc | hc
      · exact Or.inr (Or.inr (List.mem_map_of_mem hc))
      · rw [List.mem_singleton.mp hc]
        exact hp
  have hadd : ∀ v q, .add v q ∈ (s.callAsync (.remove u p)).callbacks → .add v q ∈ s.callbacks := by
    intro v q hmem
    simpa [Receiver.callAsync] using hmem
  exact {
    mapped := h.mapped
    registered := h.registered
    adds := fun v q c hq hc => by
      obtain ⟨hreg, hother, hsame⟩ := h.adds v q c (hadd v q hq) hc
      exact ⟨hreg, hother, fun r hr => hsame r (hadd v r hr)⟩
    token_eq := h.token_eq
    below := fun q hq => h.below q (hreferenced q hq)
    unused := h.unused
    distinct := fun q r hq hr => h.distinct q r (hreferenced q hq) (hreferenced r hr)
    uploads_nodup := h.uploads_nodup
    connections_nodup := h.connections_nodup
    uploads_lt := h.uploads_lt
    callbacks_lt := fun c hc => by
      rcases List.mem_append.mp hc with hc | hc
      · exact h.callbacks_lt c hc
      · rw [List.mem_singleton.mp hc]
        exact hu }

/-- A callback that adds an upload is left. -/
theorem Inv.callAdd (h : Inv s) {u p : Nat} {c : Str} (hu : (u, c) ∈ s.uploads)
    (hp : s.Registered p)
    (hother : ∀ q, s.connections c = some q → q ≠ p → u ∉ (s.objects q).uploads)
    (hsame : ∀ q, .add u q ∈ s.callbacks → q = p) : Inv (s.callAsync (.add u p)) := by
  have hreferenced : ∀ q, (s.callAsync (.add u p)).Referenced q → s.Referenced q := by
    rintro q (hreg | hconn | hcall)
    · exact Or.inl hreg
    · exact Or.inr (Or.inl hconn)
    · obtain ⟨c, hc, rfl⟩ := List.mem_map.mp hcall
      rcases List.mem_append.mp hc with hc | hc
      · exact Or.inr (Or.inr (List.mem_map_of_mem hc))
      · rw [List.mem_singleton.mp hc]
        exact Or.inl hp
  have hadd : ∀ v q, .add v q ∈ (s.callAsync (.add u p)).callbacks →
      .add v q ∈ s.callbacks ∨ (v = u ∧ q = p) := by
    intro v q hmem
    simpa [Receiver.callAsync] using hmem
  exact {
    mapped := h.mapped
    registered := h.registered
    adds := fun v q d hq hd => by
      rcases hadd v q hq with hold | ⟨rfl, rfl⟩
      · obtain ⟨hreg, hother', hsame'⟩ := h.adds v q d hold hd
        refine ⟨hreg, hother', fun r hr => ?_⟩
        rcases hadd v r hr with hr | ⟨rfl, rfl⟩
        · exact hsame' r hr
        · exact (hsame q hold).symm
      · have heq := congrArg Prod.snd (List.inj_on_of_nodup_map h.uploads_nodup hd hu rfl)
        simp only at heq
        subst heq
        refine ⟨hp, hother, fun r hr => ?_⟩
        rcases hadd v r hr with hr | ⟨-, rfl⟩
        · exact hsame r hr
        · rfl
    token_eq := h.token_eq
    below := fun q hq => h.below q (hreferenced q hq)
    unused := h.unused
    distinct := fun q r hq hr => h.distinct q r (hreferenced q hq) (hreferenced r hr)
    uploads_nodup := h.uploads_nodup
    connections_nodup := h.connections_nodup
    uploads_lt := h.uploads_lt
    callbacks_lt := fun c hc => by
      rcases List.mem_append.mp hc with hc | hc
      · exact h.callbacks_lt c hc
      · rw [List.mem_singleton.mp hc]
        exact h.uploads_lt _ hu }

/-- An upload is added to the bundle of its connection. -/
theorem Inv.addBundleConnectionUnsafe (h : Inv s) {u : BundleUpload} {c : Str} {p : Nat}
    (hu : (u.token, c) ∈ s.uploads) (hp : s.Registered p)
    (hother : ∀ q, s.connections c = some q → q ≠ p → u.token ∉ (s.objects q).uploads)
    (hsame : ∀ q, .add u.token q ∈ s.callbacks → q = p) :
    Inv (s.addBundleConnectionUnsafe u c p) := by
  have hconnections : ∀ d, (s.addBundleConnectionUnsafe u c p).connections d =
      if d = c then some p else s.connections d := fun d => by
    simp [Receiver.addBundleConnectionUnsafe, Function.update_apply]
  have hobjects : ∀ q, ((s.addBundleConnectionUnsafe u c p).objects q).uploads =
      if q = p then insert u.token (s.objects q).uploads else (s.objects q).uploads := fun q => by
    by_cases hq : q = p
    · subst hq
      simp [Receiver.addBundleConnectionUnsafe, UploadBundle.addUpload]
    · simp [Receiver.addBundleConnectionUnsafe, hq]
  have huc : ∀ d, (u.token, d) ∈ s.uploads → d = c := fun d hd =>
    congrArg Prod.snd (List.inj_on_of_nodup_map h.uploads_nodup hd hu rfl)
  have hcu : ∀ v, (v, c) ∈ s.uploads → v = u.token := fun v hv =>
    congrArg Prod.fst (List.inj_on_of_nodup_map h.connections_nodup hv hu rfl)
  have hreferenced : ∀ q, (s.addBundleConnectionUnsafe u c p).Referenced q → s.Referenced q := by
    rintro q (hreg | ⟨t, ht⟩ | hcall)
    · exact Or.inl hreg
    · rw [hconnections] at ht
      split at ht
      · obtain rfl := Option.some.inj ht
        exact Or.inl hp
      · exact Or.inr (Or.inl ⟨t, ht⟩)
    · exact Or.inr (Or.inr hcall)
  exact {
    mapped := fun q x hx => by
      rw [hobjects] at hx
      by_cases hq : q = p
      · rw [if_pos hq] at hx
        rcases Finset.mem_insert.mp hx with rfl | hx
        · exact ⟨c, hu, by rw [hconnections, if_pos rfl, hq]⟩
        · obtain ⟨d, hd, hconnection⟩ := h.mapped q x hx
          refine ⟨d, hd, ?_⟩
          rw [hconnections]
          split
          · rw [hq]
          · exact hconnection
      · rw [if_neg hq] at hx
        obtain ⟨d, hd, hconnection⟩ := h.mapped q x hx
        have hdc : d ≠ c := by
          rintro rfl
          rw [hcu x hd] at hx
          exact hother q hconnection hq hx
        exact ⟨d, hd, by rw [hconnections, if_neg hdc, hconnection]⟩
    registered := fun d q hd => by
      rw [hconnections] at hd
      split at hd
      · rw [← Option.some.inj hd]
        exact hp
      · exact h.registered d q hd
    adds := fun v q d hv hd => by
      obtain ⟨hreg, hothers, hsames⟩ := h.adds v q d hv hd
      refine ⟨hreg, fun r hr hne => ?_, hsames⟩
      rw [hconnections] at hr
      rw [hobjects]
      by_cases hdc : d = c
      · rw [hdc] at hd
        rw [hcu v hd] at hv
        rw [if_pos hdc] at hr
        exact absurd ((Option.some.inj hr).symm.trans (hsame q hv).symm) hne
      · rw [if_neg hdc] at hr
        have hvu : v ≠ u.token := by
          rintro rfl
          exact hdc (huc d hd)
        split
        · rw [Finset.mem_insert, not_or]
          exact ⟨hvu, hothers r hr hne⟩
        · exact hothers r hr hne
    token_eq := h.token_eq
    below := fun q hq => h.below q (hreferenced q hq)
    unused := fun q hq => by
      have hne : q ≠ p := (ne_of_lt ((h.below p (Or.inl hp)).trans_le hq)).symm
      rw [hobjects, if_neg hne]
      exact h.unused q hq
    distinct := fun q r hq hr => h.distinct q r (hreferenced q hq) (hreferenced r hr)
    uploads_nodup := h.uploads_nodup
    connections_nodup := h.connections_nodup
    uploads_lt := h.uploads_lt
    callbacks_lt := h.callbacks_lt }

/-- The bundle of a connection without an upload. -/
theorem Inv.connect (h : Inv s) {c : Str} {p : Nat} (hc : s.findUpload c = none)
    (hp : s.Registered p) :
    Inv { s with connections := Function.update s.connections c (some p) } := by
  have hnone : ∀ u, (u, c) ∉ s.uploads := fun u hu => by
    exact Option.some_ne_none u ((h.findUpload_iff.mpr hu).symm.trans hc)
  have hupdate : ∀ u d, (u, d) ∈ s.uploads →
      Function.update s.connections c (some p) d = s.connections d := fun u d hd => by
    refine Function.update_of_ne ?_ _ _
    rintro rfl
    exact hnone u hd
  have hreferenced : ∀ q, Receiver.Referenced
      { s with connections := Function.update s.connections c (some p) } q → s.Referenced q := by
    rintro q (hreg | ⟨t, ht⟩ | hcall)
    · exact Or.inl hreg
    · simp only [Function.update_apply] at ht
      split at ht
      · obtain rfl := Option.some.inj ht
        exact Or.inl hp
      · exact Or.inr (Or.inl ⟨t, ht⟩)
    · exact Or.inr (Or.inr hcall)
  exact {
    mapped := fun q u hu => by
      obtain ⟨d, hd, hconnection⟩ := h.mapped q u hu
      exact ⟨d, hd, (hupdate u d hd).trans hconnection⟩
    registered := fun d q hd => by
      simp only [Function.update_apply] at hd
      split at hd
      · obtain rfl := Option.some.inj hd
        exact hp
      · exact h.registered d q hd
    adds := fun u q d hq hd => by
      obtain ⟨hreg, hother, hsame⟩ := h.adds u q d hq hd
      exact ⟨hreg, fun r hr => hother r ((hupdate u d hd).symm.trans hr), hsame⟩
    token_eq := h.token_eq
    below := fun q hq => h.below q (hreferenced q hq)
    unused := h.unused
    distinct := fun q r hq hr => h.distinct q r (hreferenced q hq) (hreferenced r hr)
    uploads_nodup := h.uploads_nodup
    connections_nodup := h.connections_nodup
    uploads_lt := h.uploads_lt
    callbacks_lt := h.callbacks_lt }

theorem Inv.handleRemoveBundleConnection (h : Inv s) {c : Str} {p : Nat} (hp : s.Referenced p) :
    Inv (s.handleRemoveBundleConnection c p) := by
  simp only [Receiver.handleRemoveBundleConnection]
  split
  case h_1 u hu => exact h.callRemove (h.uploads_lt _ (h.findUpload_iff.mp hu)) hp
  case h_2 => exact h

theorem removePrevious_eq (s : Receiver) (c : Str) (p : Nat) :
    s.removePrevious c p = s ∨
      ∃ u, s.findUpload c = some u ∧ s.removePrevious c p = s.callAsync (.remove u p) := by
  have hremove : s.handleRemoveBundleConnection c p = s ∨
      ∃ u, s.findUpload c = some u ∧
        s.handleRemoveBundleConnection c p = s.callAsync (.remove u p) := by
    simp only [Receiver.handleRemoveBundleConnection]
    split
    case h_1 u hu => exact Or.inr ⟨u, hu, rfl⟩
    case h_2 => exact Or.inl rfl
  simp only [Receiver.removePrevious]
  split
  · split
    · exact hremove
    · exact Or.inl rfl
  · exact Or.inl rfl

theorem Inv.handleAddBundleConnection (h : Inv s) {c : Str} {p : Nat} (hp : s.Registered p)
    (hmovable : Movable s c p) : Inv (s.handleAddBundleConnection c p) := by
  rcases removePrevious_eq s c p with heq | ⟨u, hu, heq⟩
  · simp only [Receiver.handleAddBundleConnection, heq]
    split
    case h_1 u hu =>
      obtain ⟨hother, hsame⟩ := hmovable u hu
      exact h.callAdd (h.findUpload_iff.mp hu) hp hother hsame
    case h_2 hnone => exact h.connect hnone hp
  · obtain ⟨hother, hsame⟩ := hmovable u hu
    have hfind : (s.callAsync (.remove u p)).findUpload c = some u := hu
    have hmem := h.findUpload_iff.mp hu
    simp only [Receiver.handleAddBundleConnection, heq, hfind]
    refine (h.callRemove (h.uploads_lt _ hmem) (Or.inl hp)).callAdd hmem hp hother fun q hq => ?_
    exact hsame q (by simpa [Receiver.callAsync] using hq)

/-! ## Commands -/

theorem Inv.changeBundle (h : Inv s) {parameters : List Str}
    (hmovable : ∀ p, s.bundles ((lastParam (str "BU") parameters).getD []) = some p →
      (lastParam (str "BU") parameters).getD [] ≠ [] →
      (lastParam (str "TO") parameters).getD [] ≠ [] →
      Movable s ((lastParam (str "TO") parameters).getD []) p) :
    Inv (s.changeBundle parameters) := by
  simp only [Receiver.changeBundle]
  split
  case isTrue => exact h
  case isFalse hvalid =>
    rw [not_or] at hvalid
    split
    case h_1 b hb =>
      have hreg := h.registered_of_bundles hb
      exact h.handleAddBundleConnection hreg (hmovable b hb hvalid.1 hvalid.2)
    case h_2 => exact h

/-- A bundle with a new token. -/
theorem Inv.emplaceBundle (h : Inv s) {t : Str} {b : UploadBundle} (hb : b.uploads = ∅)
    (hnone : s.bundles t = none) (hnew : ∀ p, s.Referenced p → s.tokens p ≠ t) :
    Inv (s.emplaceBundle t b) := by
  have hold : ∀ p, s.Referenced p → p ≠ s.nextAddress := fun p hp => (h.below p hp).ne
  have htokens : ∀ p, s.Referenced p → (s.emplaceBundle t b).tokens p = s.tokens p :=
    fun p hp => Function.update_of_ne (hold p hp) _ _
  have hself : (s.emplaceBundle t b).tokens s.nextAddress = t := Function.update_self _ _ _
  have hreg : ∀ p, s.Registered p → (s.emplaceBundle t b).Registered p := fun p hp => by
    rw [Receiver.Registered, htokens p (Or.inl hp)]
    exact (Function.update_of_ne (hnew p (Or.inl hp)) _ _).trans hp
  have hreg' : ∀ t' p, (s.emplaceBundle t b).bundles t' = some p →
      (t' = t ∧ p = s.nextAddress) ∨ (s.bundles t' = some p ∧ s.Registered p) := by
    intro t' p hp
    simp only [Receiver.emplaceBundle, Function.update_apply] at hp
    split at hp
    case isTrue heq => exact Or.inl ⟨heq, (Option.some.inj hp).symm⟩
    case isFalse =>
      exact Or.inr ⟨hp, h.registered_of_bundles hp⟩
  have hreferenced : ∀ p, (s.emplaceBundle t b).Referenced p →
      p = s.nextAddress ∨ s.Referenced p := by
    rintro p (hp | hp | hp)
    · rcases hreg' _ p hp with ⟨-, heq⟩ | ⟨-, hp⟩
      · exact Or.inl heq
      · exact Or.inr (Or.inl hp)
    · exact Or.inr (Or.inr (Or.inl hp))
    · exact Or.inr (Or.inr (Or.inr hp))
  have hobjects : ∀ p, ((s.emplaceBundle t b).objects p).uploads = (s.objects p).uploads := by
    intro p
    by_cases hp : p = s.nextAddress
    · rw [hp, h.unused _ (le_refl _)]
      exact (congrArg UploadBundle.uploads (Function.update_self _ _ _)).trans hb
    · exact congrArg UploadBundle.uploads (Function.update_of_ne hp _ _)
  exact {
    mapped := fun p u hu => h.mapped p u (hobjects p ▸ hu)
    registered := fun c p hc => hreg p (h.registered c p hc)
    adds := fun u p c hadd hc => by
      obtain ⟨hp, hother, hsame⟩ := h.adds u p c hadd hc
      refine ⟨hreg p hp, fun q hq hne => ?_, hsame⟩
      rw [hobjects]
      exact hother q hq hne
    token_eq := fun t' p hp => by
      rcases hreg' t' p hp with ⟨rfl, rfl⟩ | ⟨hp, hregistered⟩
      · exact hself
      · rw [htokens p (Or.inl hregistered)]
        exact h.token_eq t' p hp
    below := fun p hp => by
      rcases hreferenced p hp with rfl | hp
      · exact Nat.lt_succ_self _
      · exact Nat.lt_succ_of_lt (h.below p hp)
    unused := fun p hp => by
      rw [hobjects]
      exact h.unused p (Nat.le_of_succ_le hp)
    distinct := fun p q hp hq htoken => by
      rcases hreferenced p hp with rfl | hp' <;> rcases hreferenced q hq with rfl | hq'
      · rfl
      · rw [hself, htokens q hq'] at htoken
        exact absurd htoken.symm (hnew q hq')
      · rw [hself, htokens p hp'] at htoken
        exact absurd htoken (hnew p hp')
      · rw [htokens p hp', htokens q hq'] at htoken
        exact h.distinct p q hp' hq' htoken
    uploads_nodup := h.uploads_nodup
    connections_nodup := h.connections_nodup
    uploads_lt := h.uploads_lt
    callbacks_lt := h.callbacks_lt }

theorem Inv.createBundle (h : Inv s) {parameters : List Str} {added : Bool}
    (hadded : added → ∀ p, s.Referenced p →
      s.tokens p ≠ (lastParam (str "BU") parameters).getD [])
    (hmovable : (lastParam (str "BU") parameters).getD [] ≠ [] →
      (lastParam (str "NA") parameters).getD [] ≠ [] →
      0 < numberParam (str "SI") parameters → (lastParam (str "TO") parameters).getD [] ≠ [] →
      (∀ p, s.bundles ((lastParam (str "BU") parameters).getD []) = some p →
        Movable s ((lastParam (str "TO") parameters).getD []) p) ∧
      (s.bundles ((lastParam (str "BU") parameters).getD []) = none → added →
        Movable s ((lastParam (str "TO") parameters).getD []) s.nextAddress)) :
    Inv (s.createBundle parameters added) := by
  simp only [Receiver.createBundle]
  split
  case isTrue => exact h
  case isFalse hvalid =>
    simp only [not_or, not_le] at hvalid
    obtain ⟨hbundle, hname, hsize, htoken⟩ := hvalid
    obtain ⟨hold, hnew⟩ := hmovable hbundle hname hsize htoken
    split
    case h_1 => exact h.changeBundle fun p hp _ _ => hold p hp
    case h_2 hnone =>
      cases added with
      | false => exact h
      | true =>
        have hempty : (UploadBundle.new (numberParam (str "SI") parameters)
            (lastParam (str "SU") parameters).isSome
            (numberParam (str "DL") parameters)).uploads = ∅ := rfl
        have hemplaced := h.emplaceBundle hempty hnone (hadded rfl)
        refine hemplaced.handleAddBundleConnection ?_ ?_
        · simp [Receiver.Registered, Receiver.emplaceBundle]
        · intro u hu
          obtain ⟨hother, hsame⟩ := hnew hnone rfl u hu
          refine ⟨fun q hq hne => ?_, hsame⟩
          have hobject := Function.update_of_ne hne (UploadBundle.new
            (numberParam (str "SI") parameters) (lastParam (str "SU") parameters).isSome
            (numberParam (str "DL") parameters)) s.objects
          simp only [Receiver.emplaceBundle, hobject]
          exact hother q hq hne

theorem Inv.onUBD (h : Inv s) {cmd : AdcCommand} {added : Bool}
    (hadded : added → ∀ p, s.Referenced p →
      s.tokens p ≠ (lastParam (str "BU") cmd.parameters).getD [])
    (hmeets : ∀ e ∈ target s cmd added, Movable s e.1 e.2) : Inv (s.onUBD cmd added) := by
  simp only [Receiver.onUBD]
  split
  case isTrue had =>
    refine h.createBundle hadded fun hbundle hname hsize htoken => ?_
    constructor
    · intro p hp
      have htarget : target s cmd added =
          some ((lastParam (str "TO") cmd.parameters).getD [], p) := by
        simp [target, hbundle, htoken, had, hname, not_le.mpr hsize, hp]
      rw [htarget] at hmeets
      exact hmeets _ rfl
    · intro hnone hadd
      have htarget : target s cmd added =
          some ((lastParam (str "TO") cmd.parameters).getD [], s.nextAddress) := by
        simp [target, hbundle, htoken, had, hname, not_le.mpr hsize, hnone, hadd]
      rw [htarget] at hmeets
      exact hmeets _ rfl
  case isFalse hnot =>
    split
    case isTrue hch =>
      refine h.changeBundle fun p hp hbundle htoken => ?_
      have htarget : target s cmd added =
          some ((lastParam (str "TO") cmd.parameters).getD [], p) := by
        simp [target, hbundle, htoken, hnot, hch, hp]
      rw [htarget] at hmeets
      exact hmeets _ rfl
    case isFalse =>
      split
      case isTrue =>
        simp only [Receiver.updateBundleInfo]
        split
        · exact h
        · split
          case h_1 b _ =>
            refine h.shrink (fun p => ?_) (List.Subset.refl _)
            by_cases hp : p = b
            · rw [hp, Function.update_self, uploads_updateBundle]
            · rw [Function.update_of_ne hp]
          case h_2 => exact h
      case isFalse =>
        split
        · exact h
        · split
          · simp only [Receiver.removeBundleConnection]
            split
            · exact h
            · split
              case h_1 b hb => exact h.handleRemoveBundleConnection (Or.inr (Or.inl ⟨_, hb⟩))
              case h_2 => exact h
          · exact h

/-! ## Uploads and callbacks -/

theorem Inv.created (h : Inv s) {u : BundleUpload} {c : Str} (hnew : s.nextUpload ≤ u.token)
    (hc : s.findUpload c = none) : Inv (s.created u c) := by
  have hnone : ∀ v, (v, c) ∉ s.uploads := fun v hv => by
    exact Option.some_ne_none v ((h.findUpload_iff.mpr hv).symm.trans hc)
  have hupload : ∀ e ∈ s.uploads, e.1 ≠ u.token := fun e he =>
    ((h.uploads_lt e he).trans_le hnew).ne
  have hcallback : ∀ d ∈ s.callbacks, d.upload ≠ u.token := fun d hd =>
    ((h.callbacks_lt d hd).trans_le hnew).ne
  have hbegun : Inv { s with uploads := (u.token, c) :: s.uploads, nextUpload := u.token + 1 } := {
    mapped := fun p v hv => by
      obtain ⟨d, hd, hconnection⟩ := h.mapped p v hv
      exact ⟨d, List.mem_cons_of_mem _ hd, hconnection⟩
    registered := h.registered
    adds := fun v p d hv hd => by
      rcases List.mem_cons.mp hd with heq | hd
      · exact absurd (congrArg Prod.fst heq) (hcallback _ hv)
      · exact h.adds v p d hv hd
    token_eq := h.token_eq
    below := h.below
    unused := h.unused
    distinct := h.distinct
    uploads_nodup := by
      refine List.nodup_cons.mpr ⟨fun hmem => ?_, h.uploads_nodup⟩
      obtain ⟨e, he, heq⟩ := List.mem_map.mp hmem
      exact hupload e he heq
    connections_nodup := by
      refine List.nodup_cons.mpr ⟨fun hmem => ?_, h.connections_nodup⟩
      obtain ⟨⟨v, d⟩, he, rfl⟩ := List.mem_map.mp hmem
      exact hnone v he
    uploads_lt := fun e he => by
      rcases List.mem_cons.mp he with rfl | he
      · exact Nat.lt_succ_self _
      · exact ((h.uploads_lt e he).trans_le hnew).trans (Nat.lt_succ_self _)
    callbacks_lt := fun d hd =>
      ((h.callbacks_lt d hd).trans_le hnew).trans (Nat.lt_succ_self _) }
  simp only [Receiver.created]
  split
  case h_1 p hp =>
    refine hbegun.addBundleConnectionUnsafe List.mem_cons_self (h.registered c p hp) ?_ ?_
    · intro q hq hne
      exact absurd (Option.some.inj (hq.symm.trans hp)) hne
    · intro q hq
      exact absurd rfl (hcallback _ hq)
  case h_2 => exact hbegun

theorem Inv.removed (h : Inv s) (u : BundleUpload) : Inv (s.removed u) := by
  simp only [Receiver.removed]
  split
  case h_1 => exact h
  case h_2 c hlookup =>
    have hc := h.lookup_iff.mp hlookup
    have hgone : ∀ v d, (v, d) ∈ s.uploads → v ≠ u.token →
        (v, d) ∈ s.uploads.filter fun e => e.1 ≠ u.token := fun v d hv hne => by
      simpa using ⟨hv, hne⟩
    -- the bundle of the connection loses the upload, and no other bundle has it
    have hcleared : ∀ objects : Nat → UploadBundle,
        (∀ p, (objects p).uploads ⊆ (s.objects p).uploads) →
        (∀ p, s.connections c = some p → u.token ∉ (objects p).uploads) →
        Inv { s with
          uploads := s.uploads.filter fun e => e.1 ≠ u.token
          objects := objects } := by
      intro objects hsubset hcleared
      have hshrunk := h.shrink hsubset (List.Subset.refl _)
      exact {
        mapped := fun p v hv => by
          obtain ⟨d, hd, hconnection⟩ := hshrunk.mapped p v hv
          refine ⟨d, hgone v d hd ?_, hconnection⟩
          rintro rfl
          have heq := congrArg Prod.snd (List.inj_on_of_nodup_map h.uploads_nodup hd hc rfl)
          simp only at heq
          subst heq
          exact hcleared p hconnection hv
        registered := h.registered
        adds := fun v p d hv hd => hshrunk.adds v p d hv (List.mem_of_mem_filter hd)
        token_eq := h.token_eq
        below := h.below
        unused := hshrunk.unused
        distinct := h.distinct
        uploads_nodup := h.uploads_nodup.sublist (List.filter_sublist.map _)
        connections_nodup := h.connections_nodup.sublist (List.filter_sublist.map _)
        uploads_lt := fun e he => h.uploads_lt e (List.mem_of_mem_filter he)
        callbacks_lt := h.callbacks_lt }
    split
    case h_1 p hp =>
      refine hcleared _ (fun q => ?_) fun q hq => ?_
      · by_cases hqp : q = p
        · rw [hqp, Function.update_self, uploads_removeUpload]
          exact Finset.erase_subset _ _
        · rw [Function.update_of_ne hqp]
      · obtain rfl := Option.some.inj (hq.symm.trans hp)
        rw [Function.update_self, uploads_removeUpload]
        exact Finset.notMem_erase _ _
    case h_2 hnone =>
      refine hcleared _ (fun q => Finset.Subset.refl _) fun q hq => ?_
      exact absurd (hq.symm.trans hnone) (Option.some_ne_none q)

theorem Inv.runCallback (h : Inv s) {i : Nat} {u : BundleUpload}
    (hi : (s.callbacks[i]?).map Callback.upload = some u.token) : Inv (s.runCallback i u) := by
  simp only [Receiver.runCallback]
  split
  case h_1 d hd =>
    have hmem : d ∈ s.callbacks := List.mem_of_getElem? hd
    have hupload : d.upload = u.token := by
      rw [hd] at hi
      exact Option.some.inj hi
    have hrest : s.callbacks.eraseIdx i ⊆ s.callbacks := (List.eraseIdx_sublist _ _).subset
    have hdone := h.shrink (fun p => Finset.Subset.refl (s.objects p).uploads) hrest
    simp only [Receiver.handler]
    split
    case h_1 c _ p hlookup =>
      simp only [Callback.upload] at hupload
      subst hupload
      have hc := h.lookup_iff.mp hlookup
      obtain ⟨hreg, hother, hsame⟩ := h.adds _ p c hmem hc
      exact hdone.addBundleConnectionUnsafe hc hreg hother fun q hq => hsame q (hrest hq)
    case h_2 p hlookup => exact hdone.removeBundleConnectionUnsafe u p
    case h_3 => exact hdone
  case h_2 => exact h

/-! ## Idle bundles -/

theorem uploads_of_idle {p : Nat} (h : s.Idle p) : (s.objects p).uploads = ∅ := by
  have hdelay := h.2
  simp only [UploadBundle.checkDelaySecond] at hdelay
  split at hdelay
  case isTrue => exact Bool.noConfusion hdelay
  case isFalse hempty => exact Finset.not_nonempty_iff_eq_empty.mp hempty

@[simp] theorem uploads_removeIdleBundles (s : Receiver) (p : Nat) :
    (s.removeIdleBundles.objects p).uploads = (s.objects p).uploads := by
  simp only [Receiver.removeIdleBundles]
  split <;> simp

theorem bundles_removeIdleBundles {t : Str} {p : Nat} :
    s.removeIdleBundles.bundles t = some p ↔ s.bundles t = some p ∧ ¬ s.Idle p := by
  simp [Receiver.removeIdleBundles, Option.filter_eq_some_iff]

theorem connections_removeIdleBundles {t : Str} {p : Nat} :
    s.removeIdleBundles.connections t = some p ↔ s.connections t = some p ∧ ¬ s.Idle p := by
  simp [Receiver.removeIdleBundles, Option.filter_eq_some_iff]

theorem registered_removeIdleBundles {p : Nat} :
    s.removeIdleBundles.Registered p ↔ s.Registered p ∧ ¬ s.Idle p := bundles_removeIdleBundles

theorem Inv.removeIdleBundles (h : Inv s)
    (hmeets : ∀ p, s.Idle p → ∀ u, .add u p ∈ s.callbacks → s.uploads.lookup u = none) :
    Inv s.removeIdleBundles := by
  have hreferenced : ∀ p, s.removeIdleBundles.Referenced p → s.Referenced p := by
    rintro p (hp | ⟨t, ht⟩ | hp)
    · exact Or.inl (registered_removeIdleBundles.mp hp).1
    · exact Or.inr (Or.inl ⟨t, (connections_removeIdleBundles.mp ht).1⟩)
    · exact Or.inr (Or.inr hp)
  exact {
    mapped := fun p u hu => by
      rw [uploads_removeIdleBundles] at hu
      obtain ⟨c, hc, hconnection⟩ := h.mapped p u hu
      refine ⟨c, hc, connections_removeIdleBundles.mpr ⟨hconnection, fun hidle => ?_⟩⟩
      rw [uploads_of_idle hidle] at hu
      exact absurd hu (Finset.notMem_empty u)
    registered := fun c p hc => by
      obtain ⟨hc, hidle⟩ := connections_removeIdleBundles.mp hc
      exact registered_removeIdleBundles.mpr ⟨h.registered c p hc, hidle⟩
    adds := fun u p c hadd hc => by
      obtain ⟨hreg, hother, hsame⟩ := h.adds u p c hadd hc
      refine ⟨registered_removeIdleBundles.mpr ⟨hreg, fun hidle => ?_⟩, fun q hq hne => ?_, hsame⟩
      · have hnone := hmeets p hidle u hadd
        rw [h.lookup_iff.mpr hc] at hnone
        exact Option.some_ne_none c hnone
      · rw [uploads_removeIdleBundles]
        exact hother q (connections_removeIdleBundles.mp hq).1 hne
    token_eq := fun t p hp => h.token_eq t p (bundles_removeIdleBundles.mp hp).1
    below := fun p hp => h.below p (hreferenced p hp)
    unused := fun p hp => by
      rw [uploads_removeIdleBundles]
      exact h.unused p hp
    distinct := fun p q hp hq => h.distinct p q (hreferenced p hp) (hreferenced q hq)
    uploads_nodup := h.uploads_nodup
    connections_nodup := h.connections_nodup
    uploads_lt := h.uploads_lt
    callbacks_lt := h.callbacks_lt }

/-- The seconds of a bundle without uploads are counted as long as it is there. -/
theorem delayTime_removeIdleBundles {p : Nat} (hempty : (s.objects p).uploads = ∅)
    (hp : s.removeIdleBundles.Registered p) :
    (s.removeIdleBundles.objects p).delayTime = (s.objects p).delayTime + 1 ∧
      (s.removeIdleBundles.objects p).delayTime ≤ UploadBundle.BUNDLE_DELAY_SECONDS := by
  obtain ⟨hreg, hidle⟩ := registered_removeIdleBundles.mp hp
  have hdelay : (s.removeIdleBundles.objects p).delayTime = (s.objects p).delayTime + 1 := by
    simp [Receiver.removeIdleBundles, hreg, UploadBundle.checkDelaySecond, hempty]
  refine ⟨hdelay, ?_⟩
  rw [hdelay]
  by_contra hlt
  refine hidle ⟨hreg, ?_⟩
  simp only [UploadBundle.checkDelaySecond, hempty, Finset.not_nonempty_empty, if_false]
  exact decide_eq_true (not_le.mp hlt)

theorem delayTime_iterate {p : Nat} (hempty : (s.objects p).uploads = ∅) (n : Nat) :
    ((Receiver.removeIdleBundles^[n] s).objects p).uploads = ∅ ∧
      ((Receiver.removeIdleBundles^[n] s).Registered p →
        n ≤ ((Receiver.removeIdleBundles^[n] s).objects p).delayTime ∧
        (0 < n → ((Receiver.removeIdleBundles^[n] s).objects p).delayTime ≤
          UploadBundle.BUNDLE_DELAY_SECONDS)) := by
  induction n with
  | zero => exact ⟨hempty, fun _ => ⟨Nat.zero_le _, fun h => absurd h (lt_irrefl 0)⟩⟩
  | succ n ih =>
    obtain ⟨hnone, hdelay⟩ := ih
    rw [Function.iterate_succ_apply']
    refine ⟨(uploads_removeIdleBundles _ p).trans hnone, fun hreg => ?_⟩
    obtain ⟨hcount, hle⟩ := delayTime_removeIdleBundles hnone hreg
    have hbefore := (hdelay (registered_removeIdleBundles.mp hreg).1).1
    exact ⟨by omega, fun _ => hle⟩

/-- Without callbacks, nothing new refers to a bundle while idle bundles are removed. -/
theorem Inv.iterate_removeIdleBundles (h : Inv s) (hnone : s.callbacks = []) (n : Nat) :
    Inv (Receiver.removeIdleBundles^[n] s) ∧ (Receiver.removeIdleBundles^[n] s).callbacks = [] ∧
      (Receiver.removeIdleBundles^[n] s).tokens = s.tokens ∧
      ∀ p, (Receiver.removeIdleBundles^[n] s).Referenced p → s.Referenced p := by
  induction n with
  | zero => exact ⟨h, hnone, rfl, fun p hp => hp⟩
  | succ n ih =>
    obtain ⟨hinv, hcallbacks, htokens, hreferenced⟩ := ih
    rw [Function.iterate_succ_apply']
    refine ⟨hinv.removeIdleBundles (by simp [hcallbacks]), hcallbacks, htokens, ?_⟩
    rintro p (hp | ⟨t, ht⟩ | hp)
    · exact hreferenced p (Or.inl (registered_removeIdleBundles.mp hp).1)
    · exact hreferenced p (Or.inr (Or.inl ⟨t, (connections_removeIdleBundles.mp ht).1⟩))
    · exact hreferenced p (Or.inr (Or.inr hp))

/-- A bundle without uploads is destroyed, and no other one has its token. -/
def Released (s : Receiver) (p : Nat) : Prop :=
  ¬ (Receiver.removeIdleBundles^[UploadBundle.BUNDLE_DELAY_SECONDS + 1] s).Referenced p ∧
    ∀ q, (Receiver.removeIdleBundles^[UploadBundle.BUNDLE_DELAY_SECONDS + 1] s).Referenced q →
      (Receiver.removeIdleBundles^[UploadBundle.BUNDLE_DELAY_SECONDS + 1] s).tokens q ≠ s.tokens p

theorem Inv.released (h : Inv s) (hnone : s.callbacks = []) {p : Nat} (hp : s.Registered p)
    (hempty : (s.objects p).uploads = ∅) : Released s p := by
  obtain ⟨hinv, hcallbacks, htokens, hreferenced⟩ :=
    h.iterate_removeIdleBundles hnone (UploadBundle.BUNDLE_DELAY_SECONDS + 1)
  obtain ⟨-, hdelay⟩ :=
    delayTime_iterate hempty (UploadBundle.BUNDLE_DELAY_SECONDS + 1)
  have hreg : ¬ (Receiver.removeIdleBundles^[UploadBundle.BUNDLE_DELAY_SECONDS + 1] s).Registered
      p := fun hreg => by
    obtain ⟨hge, hle⟩ := hdelay hreg
    have := hle (Nat.succ_pos _)
    omega
  have hgone : ¬ (Receiver.removeIdleBundles^[UploadBundle.BUNDLE_DELAY_SECONDS + 1] s).Referenced
      p := by
    rintro (hp | ⟨t, ht⟩ | hp)
    · exact hreg hp
    · exact hreg (hinv.registered t p ht)
    · rw [hcallbacks] at hp
      exact absurd hp List.not_mem_nil
  refine ⟨hgone, fun q hq htoken => hgone ?_⟩
  rw [htokens] at htoken
  rwa [← h.distinct q p (hreferenced q hq) (Or.inl hp) htoken]

/-! ## All runs -/

/-- Nothing has been received. -/
def Fresh (s : Receiver) : Prop := s = {}

theorem Inv.of_fresh (h : Fresh s) : Inv s := by
  subst h
  have hreferenced : ∀ p, ¬ Receiver.Referenced {} p := by
    rintro p (hp | ⟨t, ht⟩ | hp)
    · exact Option.some_ne_none p hp.symm
    · exact Option.some_ne_none p ht.symm
    · exact absurd hp List.not_mem_nil
  exact {
    mapped := fun p u hu => absurd hu (Finset.notMem_empty u)
    registered := fun c p hc => absurd (Or.inr (Or.inl ⟨c, hc⟩)) (hreferenced p)
    adds := fun u p c hadd => absurd hadd List.not_mem_nil
    token_eq := fun t p hp => absurd hp.symm (Option.some_ne_none p)
    below := fun p hp => absurd hp (hreferenced p)
    unused := fun p _ => rfl
    distinct := fun p q hp => absurd hp (hreferenced p)
    uploads_nodup := List.nodup_nil
    connections_nodup := List.nodup_nil
    uploads_lt := fun e he => absurd he List.not_mem_nil
    callbacks_lt := fun c hc => absurd hc List.not_mem_nil }

theorem Inv.next (h : Inv s) {o : Op} (hpossible : Possible s o) (hmeets : Meets s o) :
    Inv (next s o) := by
  cases o with
  | onUBD cmd added => exact h.onUBD (fun hadd p hp => hpossible hadd p (h.below p hp) hp) hmeets
  | created u c => exact h.created hpossible.1 hpossible.2
  | removed u => exact h.removed u
  | runCallback i u => exact h.runCallback hpossible
  | removeIdleBundles => exact h.removeIdleBundles hmeets

/-- **Each upload belongs to the bundle of its connection.** This holds in every state that a run
    reaches whose steps all meet the condition. In such a state, when all callbacks have been run, a
    bundle without uploads is gone after a minute of idling, and its token is free. -/
theorem uploads_tracked (s : Receiver) (h : Lib.Reaches (system.restrict Meets) Fresh s) :
    Tracked s ∧
      (s.callbacks = [] → ∀ p, s.Registered p → (s.objects p).uploads = ∅ → Released s p) := by
  have hinv : Inv s := by
    refine Lib.Reaches.invariant (I := Inv) (fun s h => Inv.of_fresh h) ?_ h
    intro s o hinv ho
    exact hinv.next ho.1 ho.2
  exact ⟨hinv.tracked, fun hnone p hp hempty => hinv.released hnone hp hempty⟩

/-! ## Two runs -/

def firstUpload : BundleUpload := ⟨1, 0, 0, 0⟩

/-- The first bundle, with a connection. -/
def createFirst : AdcCommand :=
  UploadBundleInfo.CMD_UBD [str "HIfav", str "BU5", str "TOconn", str "SI10", str "NAname",
    str "AD1"]

/-- Another bundle, with the same connection. -/
def createSecond : AdcCommand :=
  UploadBundleInfo.CMD_UBD [str "HIfav", str "BU6", str "TOconn", str "SI10", str "NAother",
    str "AD1"]

/-- The connection is moved before its upload begins. -/
def movedBefore : List Op :=
  [.onUBD createFirst true, .onUBD createSecond true, .created firstUpload (str "conn")]

/-- The connection is moved while its upload is there. -/
def movedAfter : List Op :=
  [.onUBD createFirst true, .created firstUpload (str "conn"), .onUBD createSecond true,
    .runCallback 0 firstUpload, .runCallback 0 firstUpload, .removed firstUpload]

theorem uploads_tracked_before : Tracked (system.run {} movedBefore) := by
  have hallowed : (system.restrict Meets).AllowedAlong {} movedBefore := by
    refine ⟨⟨?_, ?_⟩, ⟨?_, ?_⟩, ⟨by decide +kernel, trivial⟩, trivial⟩
    · exact fun _ p hp => absurd hp (Nat.not_lt_zero p)
    · rintro e - u hu
      exact absurd hu.symm (Option.some_ne_none u)
    · rintro - p hp -
      obtain rfl : p = 0 := Nat.lt_one_iff.mp hp
      decide +kernel
    · rintro e - u hu
      have hnone : ((system.restrict Meets).next {} (.onUBD createFirst true)).uploads = [] := by
        decide +kernel
      simp [Receiver.findUpload, hnone] at hu
  exact (uploads_tracked _ (Lib.Reaches.run (Lib.Reaches.start rfl) hallowed)).1

/-- The first bundle keeps an upload that is gone. -/
theorem upload_kept :
    ¬ ∀ s, Lib.Reaches system Fresh s → s.callbacks = [] → Tracked s := by
  intro hall
  have hallowed : system.AllowedAlong {} movedAfter := by
    refine ⟨?_, by decide +kernel, ?_, by decide +kernel, by decide +kernel, by decide +kernel,
      trivial⟩
    · exact fun _ p hp => absurd hp (Nat.not_lt_zero p)
    · rintro - p hp -
      obtain rfl : p = 0 := Nat.lt_one_iff.mp hp
      decide +kernel
  have htracked := hall _ (Lib.Reaches.run (Lib.Reaches.start rfl) hallowed) (by decide +kernel)
  obtain ⟨c, hc, -⟩ := htracked.mapped 0 1 (by decide +kernel)
  have hnone : (system.run {} movedAfter).uploads = [] := by decide +kernel
  rw [hnone] at hc
  exact absurd hc List.not_mem_nil

end UploadConnections
end Airdcpp
