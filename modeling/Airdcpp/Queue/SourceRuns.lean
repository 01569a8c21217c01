import Airdcpp.Queue.SourcesAgree

/-!
# `Queue/SourceRuns` — the runs of the queue manager

The operations of `Queue/QueueOperations` as one system. What the callers see to is in `allowed`: an
item that is added is new, and the others are in the queue. `addPartialSource` does not look at
whether the item has been downloaded in the meantime, so this is asked of its caller.
-/

namespace Airdcpp

open Lib ListMap

namespace SourceQueues

variable {locale : Locale} {st : Settings} {s t : SourceQueues} {L : List Link}
  {q : QueueItemPtr} {b : BundlePtr} {u : HintedUser} {v : UserPtr}

/-! ## Items that come, finish and come back -/

theorem setItem_idem {w w' : QueueItem} : (s.setItem q w).setItem q w' = s.setItem q w' := by
  unfold setItem Heap.setItem
  rw [Function.update_idem]

theorem setItem_eq_self {w : QueueItem} (h : s.item q = w) : s.setItem q w = s := by
  unfold setItem Heap.setItem
  rw [← h, Function.update_eq_self]

theorem others_addBundleItem (hn : s.fileQueue.Nodup) :
    (s.addBundleItem q b).others q = s.others q :=
  others_congr hn rfl fun _ hx => Heap.joinBundle_item_ne hx

theorem item_addBundleItem_self :
    (s.addBundleItem q b).item q = { s.item q with bundle := some b } := Heap.joinBundle_item_self

theorem Inv.addBundleFile (h : Inv s) (hq : q ∉ s.fileQueue) {w : QueueItem} (hw : w.sources = [])
    (b : BundlePtr) : Inv (s.addBundleFile q w b) := by
  have hnew : ∀ w' : QueueItem, w'.sources = [] → Inv ((s.addFile q w').addBundleItem q b) := by
    intro w' hw'
    have hmem : q ∈ (s.addFile q w').fileQueue := List.mem_append_right _ List.mem_cons_self
    have hp : Placed (s.addFile q w') {q} := by
      refine h.placed.addFile hq ?_
      rw [sourceUsers, hw']
      exact List.nodup_nil
    refine Inv.of_no_sources (q := q) (hp.addBundleItem hmem b) ?_ ?_
    · rw [others_addBundleItem hp.nodup]
      exact (h.registered.addFile_links hq w').addBundleItem (fun _ => notMem_others hp.nodup) b
    · rw [item_addBundleItem_self]
      change ((s.setItem q w').item q).sources = []
      rw [item_setItem_self]
      exact hw'
  unfold SourceQueues.addBundleFile
  dsimp only
  split
  · exact hnew _ hw
  · exact hnew _ hw

theorem Inv.finishFile (h : Inv s) (hq : q ∈ s.fileQueue) (time : Int) :
    Inv (s.finishFile q time) := by
  unfold SourceQueues.finishFile
  by_cases hd : (s.item q).isDownloaded = true
  · rw [if_pos hd]
    exact h
  · rw [if_neg hd]
    dsimp only
    have hw : s.waiting q = true := by
      rw [waiting, Bool.eq_false_iff.mpr hd]
      rfl
    generalize hdone : { s.item q with timeFinished := time, status := .downloaded } = w
    have hwb : w.bundle = (s.item q).bundle := by rw [← hdone]
    have hwu : sourceUsers w = sourceUsers (s.item q) := by rw [← hdone]; rfl
    have hwd : w.isDownloaded = true := by rw [← hdone]; rfl
    have hlink : SameLink (s.item q) w := by rw [← hdone]; exact ⟨rfl, rfl, fun _ => rfl⟩
    have hreg : Registered ((s.setItem q w).removeQIs q) (s.others q) := by
      refine Registered.removeAll ?_
      rw [item_setItem_self, hwu]
      exact (h.registered.perm (links_perm hq hw)).setItem_same hlink
    have hsame : SameItems (s.setItem q w) ((s.setItem q w).removeQIs q) := sameItems_removeQIs
    have hself : ((s.setItem q w).removeQIs q).item q = w := by
      rw [hsame.item]
      exact item_setItem_self
    have hoff : ∀ x, x ≠ q → ((s.setItem q w).removeQIs q).item x = s.item x := fun x hx => by
      rw [hsame.item]
      exact item_setItem_ne hx
    have hsources : ((sourceUsers w).map (·.user)).Nodup := by
      rw [hwu]
      exact h.placed.sources q
    cases hb : (s.item q).bundle with
    | none =>
      rw [if_pos (by rw [hself, hwb, hb]; rfl)]
      exact h.of_removeFile (((h.placed.out_of_none hb).setItem (w := w) (Or.inl rfl)
        hsources).sameItems hsame) hreg hsame.fileQueue hoff
    | some b =>
      rw [if_neg (by rw [hself, hwb, hb]; exact Bool.false_ne_true)]
      -- the lists as they are after `removeQIs`, with the item as it was
      have hback : SameItems s (((s.setItem q w).removeQIs q).setItem q (s.item q)) := by
        refine ⟨?_, hsame.fileQueue, hsame.queueItems, hsame.finishedFiles⟩
        funext x
        rcases eq_or_ne x q with rfl | hx
        · exact item_setItem_self
        · rw [item_setItem_ne hx, hoff x hx]
      have hold : (((s.setItem q w).removeQIs q).setItem q (s.item q)).item q = s.item q :=
        item_setItem_self
      have hp := (h.placed.sameItems hback).finishItem (q := q) (b := b) (w := w)
        (hback.fileQueue ▸ hq) (by rw [waiting, hold]; exact hw) (by rw [hold, hb])
        (hwb.trans hb) hwd hsources
      rw [setItem_idem, setItem_eq_self hself] at hp
      refine Inv.of_others (q := q) hp ?_ fun _ => ?_
      · have hothers : (((s.setItem q w).removeQIs q).removeBundleItem q true).others q =
            s.others q := by
          refine others_congr h.placed.nodup ?_ fun x hx => ?_
          · rw [fileQueue_removeBundleItem, hsame.fileQueue]
            rfl
          · rw [item_removeBundleItem, hoff x hx]
        rw [hothers]
        exact hreg.removeBundleItem q true
      · rw [waiting, item_removeBundleItem, hself, hwd]
        rfl

theorem Inv.requeue (h : Inv s) (hq : q ∈ s.fileQueue) (hw : s.waiting q = false) (b : BundlePtr)
    (rand : UserPtr → Nat) : Inv (s.requeue locale st q b rand) := by
  unfold SourceQueues.requeue
  dsimp only
  rw [item_removeBundleItem]
  generalize hnew : { s.item q with status := .queued, bundle := none, timeFinished := 0 } = w
  have hwu : sourceUsers w = sourceUsers (s.item q) := by rw [← hnew]; rfl
  have hwd : w.isDownloaded = false := by rw [← hnew]; rfl
  have hout := h.placed.removeBundleItem hq
  have hset := hout.setItem (w := w) (Or.inl rfl) (by rw [hwu]; exact h.placed.sources q)
  have hmem : q ∈ ((s.removeBundleItem q false).setItem q w).fileQueue := by
    change q ∈ (s.removeBundleItem q false).fileQueue
    rw [fileQueue_removeBundleItem]
    exact hq
  have hin := hset.addBundleItem hmem b
  have hreg : Registered (((s.removeBundleItem q false).setItem q w).addBundleItem q b)
      (s.others q) := by
    have hold := (h.registered.perm (links_perm_others fun _ => hw)).removeBundleItem q false
    exact (hold.setItem (fun _ => notMem_others h.placed.nodup) w).addBundleItem
      (fun _ => notMem_others h.placed.nodup) b
  have hsame : SameItems (((s.removeBundleItem q false).setItem q w).addBundleItem q b)
      ((((s.removeBundleItem q false).setItem q w).addBundleItem q b).addQIs locale st q rand) :=
    sameItems_addQIs
  have hfile : (((s.removeBundleItem q false).setItem q w).addBundleItem q b).fileQueue =
      s.fileQueue := fileQueue_removeBundleItem
  refine Inv.of_waiting (q := q) (hin.sameItems hsame) ?_ ?_ ?_
  · have hothers : (((s.removeBundleItem q false).setItem q w).addBundleItem q b).others q =
        s.others q := by
      rw [others_addBundleItem hset.nodup, others_setItem hout.nodup]
      refine others_congr h.placed.nodup (by rw [fileQueue_removeBundleItem]) fun x _ => ?_
      rw [item_removeBundleItem]
    have hlinks := hreg.addQIs locale st q rand
    rw [others_sameItems hsame, hothers, itemLinks, hsame.item]
    exact hlinks
  · rw [hsame.fileQueue, hfile]
    exact hq
  · rw [waiting, hsame.item, item_addBundleItem_self, item_setItem_self]
    change (!w.isDownloaded) = true
    rw [hwd]
    rfl

theorem Inv.removeBundleItems (h : Inv s) (b : BundlePtr) : Inv (s.removeBundleItems b) := by
  unfold SourceQueues.removeBundleItems
  have hperm : ((s.bundle b).finishedFiles ++ (s.bundle b).queueItems).Perm (s.bundle b).items :=
    List.perm_append_comm
  have hnodup := hperm.nodup_iff.mpr (h.placed.filed b).nodup
  have hqueued : ∀ x ∈ (s.bundle b).finishedFiles ++ (s.bundle b).queueItems, x ∈ s.fileQueue :=
    fun x hx => ((h.placed.agree b x).mp (hperm.mem_iff.mp hx)).1
  clear hperm
  generalize (s.bundle b).finishedFiles ++ (s.bundle b).queueItems = l at hnodup hqueued
  induction l generalizing s with
  | nil => exact h
  | cons x l ih =>
    rw [List.nodup_cons] at hnodup
    have hfile : (s.removeItem x).fileQueue = s.fileQueue.erase x := by
      unfold SourceQueues.removeItem
      dsimp only
      rw [fileQueue_removeBundleItem]
      split
      · exact congrArg (List.erase · x) sameItems_removeQIs.fileQueue
      · rfl
    refine ih (h.removeItem (hqueued x List.mem_cons_self)) hnodup.2 fun y hy => ?_
    rw [hfile]
    refine (List.mem_erase_of_ne ?_).mpr (hqueued y (List.mem_cons_of_mem x hy))
    rintro rfl
    exact hnodup.1 hy

/-! ## Users that come and go -/

/-- The users of an item. -/
def users (v : QueueItem) : List UserPtr := (sourceUsers v).map (·.user)

theorem mem_users {w : QueueItem} : v ∈ users w ↔ w.isSource v = true := by
  unfold users sourceUsers QueueItem.isSource QueueItem.getSource
  rw [List.find?_isSome, List.map_map, List.mem_map]
  simp only [Function.comp_apply, beq_iff_eq]

theorem users_addSource (w : QueueItem) : users (w.addSource u) = users w ++ [u.user] := by
  unfold users sourceUsers QueueItem.addSource QueueItem.getBadSource
  cases hbad : w.badSources.find? fun s => s.user.user == u.user with
  | none =>
    dsimp only
    rw [List.map_append, List.map_append]
    rfl
  | some i =>
    dsimp only
    have hi : (i.user.user == u.user) = true := by
      have hfound := List.find?_some hbad
      exact hfound
    rw [beq_iff_eq] at hi
    rw [List.map_append, List.map_append, List.map_singleton, List.map_singleton, hi]

theorem users_removeSource (w : QueueItem) (reason : MaskType) :
    users (w.removeSource v reason) = (users w).erase v := by
  have herase : ∀ l : List QueueItem.Source,
      ((l.eraseP fun s => s.user.user == v).map (·.user)).map (·.user) =
        ((l.map (·.user)).map (·.user)).erase v := by
    intro l
    induction l with
    | nil => rfl
    | cons i l ih =>
      rw [List.map_cons, List.map_cons, List.erase_cons, List.eraseP_cons]
      by_cases hi : (i.user.user == v) = true
      · rw [if_pos hi, hi, cond_true]
      · rw [if_neg hi, Bool.eq_false_iff.mpr hi, cond_false, List.map_cons, List.map_cons, ih]
  unfold users sourceUsers QueueItem.removeSource
  cases hsource : w.getSource v with
  | none =>
    have hnot : v ∉ users w := by
      rw [mem_users, QueueItem.isSource, hsource]
      exact Bool.false_ne_true
    exact (List.erase_of_not_mem hnot).symm
  | some i => exact herase w.sources

theorem sameLink_addSource (w : QueueItem) : SameLink w (w.addSource u) := by
  unfold QueueItem.addSource
  cases w.getBadSource u.user <;> exact ⟨rfl, rfl, fun _ => rfl⟩

theorem isDownloaded_addSource (w : QueueItem) :
    (w.addSource u).isDownloaded = w.isDownloaded := by
  unfold QueueItem.addSource
  cases w.getBadSource u.user <;> rfl

theorem sameLink_removeSource (w : QueueItem) (reason : MaskType) :
    SameLink w (w.removeSource v reason) := by
  unfold QueueItem.removeSource
  cases w.getSource v <;> exact ⟨rfl, rfl, fun _ => rfl⟩

theorem isDownloaded_removeSource (w : QueueItem) (reason : MaskType) :
    (w.removeSource v reason).isDownloaded = w.isDownloaded := by
  unfold QueueItem.removeSource
  cases w.getSource v <;> rfl

theorem map_user_modifySource {f : QueueItem.Source → QueueItem.Source}
    (hf : ∀ i, (f i).user = i.user) (l : List QueueItem.Source) :
    (QueueItem.modifySource f v l).map (·.user) = l.map (·.user) := by
  rw [QueueItem.modifySource, List.map_map]
  refine List.map_congr_left fun i _ => ?_
  dsimp only [Function.comp_apply]
  split
  · exact hf i
  · rfl

theorem itemLinks_eq : s.itemLinks q = (users (s.item q)).map fun u => (q, u) := linksWith_eq

/-- One user more: the record first, and then the lists. -/
theorem Inv.addSource (h : Inv s) (hq : q ∈ s.fileQueue) (hw : s.waiting q = true)
    (hu : u.user ∉ users (s.item q)) {w : QueueItem} (hlink : SameLink (s.item q) w)
    (hdown : w.isDownloaded = (s.item q).isDownloaded)
    (husers : users w = users (s.item q) ++ [u.user]) (bad : Bool) (rand : Nat) :
    Inv ((s.setItem q w).addQI locale st q u bad rand) := by
  have hnodup : (users w).Nodup := by
    rw [husers]
    exact List.nodup_append'.mpr ⟨h.placed.sources q, List.nodup_singleton _,
      List.disjoint_singleton.mpr hu⟩
  have hp := h.placed.setItem (q := q) (w := w) (Or.inr (Or.inr ⟨hlink.bundle, hdown⟩)) hnodup
  have hsame : SameItems (s.setItem q w) ((s.setItem q w).addQI locale st q u bad rand) :=
    sameItems_addQI
  have hreg : Registered ((s.setItem q w).addQI locale st q u bad rand)
      ((q, u.user) :: (s.itemLinks q ++ s.others q)) :=
    ((h.registered.perm (links_perm hq hw)).setItem_same hlink).addQI u q bad rand
  refine Inv.of_waiting (q := q) (hp.sameItems hsame) (hreg.perm ?_) (hsame.fileQueue ▸ hq) ?_
  · have hlinks : itemLinks ((s.setItem q w).addQI locale st q u bad rand) q =
        s.itemLinks q ++ [(q, u.user)] := by
      rw [itemLinks_eq, hsame.item, item_setItem_self, husers, List.map_append, itemLinks_eq]
      rfl
    rw [others_sameItems hsame, others_setItem h.placed.nodup, hlinks, List.append_assoc]
    exact List.perm_middle.symm
  · rw [waiting, hsame.item, item_setItem_self, hdown]
    exact hw

/-- One user less: the lists first, and then the record. -/
theorem Inv.removeSource (h : Inv s) (hq : q ∈ s.fileQueue) (hw : s.waiting q = true)
    (hv : v ∈ users (s.item q)) (reason reason' : MaskType) :
    Inv ((s.removeQI q v reason).setItem q
      (((s.removeQI q v reason).item q).removeSource v reason')) := by
  have hsame : SameItems s (s.removeQI q v reason) := sameItems_removeQI
  rw [hsame.item]
  generalize hnew : (s.item q).removeSource v reason' = w
  have husers : users w = (users (s.item q)).erase v := hnew ▸ users_removeSource _ _
  have hlink : SameLink (s.item q) w := hnew ▸ sameLink_removeSource _ _
  have hdown : w.isDownloaded = (s.item q).isDownloaded := hnew ▸ isDownloaded_removeSource _ _
  have hperm : s.links.Perm ((q, v) :: ((users w).map (fun u => (q, u)) ++ s.others q)) := by
    refine (links_perm hq hw).trans ?_
    rw [itemLinks_eq, husers]
    exact ((List.perm_cons_erase hv).map _).append_right _
  have hreg := (h.registered.perm hperm).removeQI reason
  have hitem : (s.removeQI q v reason).item q = s.item q := congrFun hsame.item q
  have hp := (h.placed.sameItems hsame).setItem (q := q) (w := w)
    (Or.inr (Or.inr (hitem.symm ▸ ⟨hlink.bundle, hdown⟩))) (by
      change (users w).Nodup
      rw [husers]
      exact (h.placed.sources q).erase v)
  refine Inv.of_waiting (q := q) hp ?_ (hsame.fileQueue ▸ hq) ?_
  · rw [others_setItem (h.placed.sameItems hsame).nodup, others_sameItems hsame, itemLinks_eq,
      item_setItem_self]
    exact hreg.setItem_same (hitem.symm ▸ hlink)
  · rw [waiting_setItem_self, hdown]
    exact hw

theorem Inv.addValidatedSource (h : Inv s) (hq : q ∈ s.fileQueue) (u : HintedUser)
    (aAddBad : MaskType) (rand : Nat) :
    ∀ t ∈ s.addValidatedSource locale st q u aAddBad rand, Inv t := by
  intro t ht
  unfold SourceQueues.addValidatedSource at ht
  dsimp only at ht
  split at ht
  · cases ht
  · rename_i hd
    split at ht
    · split at ht
      · cases ht
        exact h
      · cases ht
    · rename_i hsource
      split at ht
      · cases ht
      · cases ht
        have hw : s.waiting q = true := by
          rw [waiting, Bool.eq_false_iff.mpr hd]
          rfl
        exact (h.addSource hq hw (fun hm => hsource (mem_users.mp hm)) (sameLink_addSource _)
          (isDownloaded_addSource _) (users_addSource _) _ rand).setDirty

theorem SameState.refl (w : QueueItem) : SameState w w := ⟨rfl, rfl, rfl⟩

theorem sameState_sources {w : QueueItem} {f : QueueItem.Source → QueueItem.Source}
    (hf : ∀ i, (f i).user = i.user) :
    SameState w { w with sources := QueueItem.modifySource f v w.sources } :=
  ⟨rfl, rfl, congrArg (List.map (·.user)) (map_user_modifySource hf w.sources)⟩

theorem Inv.addPartialSource (h : Inv s) (hq : q ∈ s.fileQueue) (hw : s.waiting q = true)
    (u : HintedUser) (info : PartsInfo) (blockSize : Int) (rand : Nat) :
    Inv (s.addPartialSource locale st q u info blockSize rand) := by
  unfold SourceQueues.addPartialSource
  dsimp only
  split
  · exact h.setItem (sameState_sources fun _ => rfl) fun _ _ => ⟨rfl, rfl, fun _ => rfl⟩
  · rename_i hsource
    split
    · exact h
    · split
      · refine Inv.setItem ?_ (sameState_sources fun _ => rfl) fun _ _ => ⟨rfl, rfl, fun _ => rfl⟩
        refine h.addSource hq hw (fun hm => hsource (mem_users.mp hm)) ?_ ?_ ?_ false rand
        · obtain ⟨hb, hp, hsize⟩ := sameLink_addSource (u := u) (s.item q)
          exact ⟨hb, hp, hsize⟩
        · exact isDownloaded_addSource (s.item q)
        · have hmarked := sameState_sources (w := (s.item q).addSource u) (v := u.user)
            (f := fun i => { i with flags := setFlag i.flags QueueItem.FLAG_PARTIAL }) fun _ => rfl
          exact hmarked.users.trans (users_addSource (s.item q))
      · split
        · exact h.setItem ⟨rfl, rfl, rfl⟩ fun _ _ => ⟨rfl, rfl, fun _ => rfl⟩
        · exact h

theorem Inv.removePartialSource (h : Inv s) (hq : q ∈ s.fileQueue) (hw : s.waiting q = true)
    (hv : (s.item q).isSource v = true) : Inv (s.removePartialSource q v) :=
  h.removeSource hq hw (mem_users.mpr hv) 0 _

theorem Inv.removeFileSource (h : Inv s) (hq : q ∈ s.fileQueue) (v : UserPtr)
    (reason : MaskType) : Inv (s.removeFileSource q v reason) := by
  unfold SourceQueues.removeFileSource
  dsimp only
  generalize hmark : { s.item q with
    sources := QueueItem.modifySource (fun i => { i with flags := setFlag i.flags reason }) v
      (s.item q).sources } = marked
  have hstate : SameState (s.item q) marked := hmark ▸ sameState_sources fun _ => rfl
  have hlink : SameLink (s.item q) marked := hmark ▸ ⟨rfl, rfl, fun _ => rfl⟩
  have hset : Inv (s.setItem q marked) := h.setItem hstate fun _ _ => hlink
  split
  · exact h
  · rename_i hsource
    split
    · exact h
    · rename_i hd
      split
      · exact hset.removeItem hq
      · split
        · exact hset
        · have hw : s.waiting q = true := by
            rw [waiting, Bool.eq_false_iff.mpr hd]
            rfl
          have hmem : v ∈ users (s.item q) := by
            rw [mem_users]
            simpa using hsource
          refine Inv.setDirty ?_
          split
          · refine hset.removeSource hq ?_ ?_ reason reason
            · rw [waiting_setItem_self, hstate.downloaded]
              exact hw
            · have husers : users marked = users (s.item q) := hstate.users
              rw [item_setItem_self, husers]
              exact hmem
          · rw [setItem_eq_self rfl]
            exact h.removeSource hq hw hmem reason reason

/-! ## Priorities and orders -/

/-- An item is taken out of the lists and put back with another record. -/
theorem Inv.relist (h : Inv s) (hq : q ∈ s.fileQueue) (hw : s.waiting q = true) {w : QueueItem}
    (hstate : SameState (s.item q) w) (rand : UserPtr → Nat) :
    Inv (((s.removeQIs q).setItem q w).addQIs locale st q rand) := by
  have hout : SameItems s (s.removeQIs q) := sameItems_removeQIs
  have hback : SameItems ((s.removeQIs q).setItem q w)
      (((s.removeQIs q).setItem q w).addQIs locale st q rand) := sameItems_addQIs
  have hitem : (s.removeQIs q).item q = s.item q := congrFun hout.item q
  have hp := (h.placed.sameItems hout).setItem_same (q := q) (w := w) (hitem.symm ▸ hstate)
  have hreg := ((h.removeQIs hq hw).setItem (fun _ => notMem_others h.placed.nodup) w).addQIs
    locale st q rand
  refine Inv.of_waiting (q := q) (hp.sameItems hback) ?_ ?_ ?_
  · rw [others_sameItems hback, others_setItem (h.placed.sameItems hout).nodup,
      others_sameItems hout, itemLinks, hback.item]
    exact hreg
  · rw [hback.fileQueue]
    exact hout.fileQueue.symm ▸ hq
  · rw [waiting, hback.item, item_setItem_self, hstate.downloaded]
    exact hw

theorem Inv.setQIPriority (h : Inv s) (hq : q ∈ s.fileQueue) (hw : s.waiting q = true)
    (p : Priority) (rand : UserPtr → Nat) : Inv (s.setQIPriority locale st q p rand) := by
  have hitem : (s.removeQIs q).item = s.item := sameItems_removeQIs.item
  unfold SourceQueues.setQIPriority
  dsimp only
  rw [hitem]
  exact h.relist (w := { s.item q with priority := p }) hq hw ⟨rfl, rfl, rfl⟩ rand

theorem Inv.changeBundlePriority (h : Inv s) (b : BundlePtr) (p : Priority) (keep : Bool)
    (resumeTime : Int) (rand : UserPtr → Nat) :
    Inv (s.changeBundlePriority locale st b p keep resumeTime rand) := by
  unfold SourceQueues.changeBundlePriority
  dsimp only
  split
  · exact h
  · split
    · exact h.setBundle ⟨rfl, rfl⟩ ⟨rfl, rfl⟩ rfl rfl
    · split
      · exact h
      · have hmoved : Inv (s.setBundlePriority b p) :=
          h.sameItems sameItems_setBundlePriority h.registered.setBundlePriority
        generalize s.setBundlePriority b p = t at hmoved ⊢
        have hset : Inv (t.setBundle b { t.bundle b with
            autoPriority := keep && (t.bundle b).autoPriority, resumeTime := resumeTime }) :=
          hmoved.setBundle ⟨rfl, rfl⟩ ⟨rfl, rfl⟩ rfl rfl
        generalize t.setBundle b { t.bundle b with
          autoPriority := keep && (t.bundle b).autoPriority, resumeTime := resumeTime } = t'
          at hset ⊢
        split
        · rename_i qi _ _ hitems
          obtain ⟨hqi, hw⟩ := hset.placed.queued (b := b) (q := qi) (by
            rw [hitems]
            exact List.mem_cons_self)
          exact (hset.setQIPriority hqi hw p rand).setItem ⟨rfl, rfl, rfl⟩
            fun _ _ => ⟨rfl, rfl, fun _ => rfl⟩
        · exact hset

theorem Inv.changeItemPriority (h : Inv s) (hq : q ∈ s.fileQueue) (p : Priority) (keep : Bool)
    (rand : UserPtr → Nat) : Inv (s.changeItemPriority locale st q p keep rand) := by
  unfold SourceQueues.changeItemPriority
  split
  · exact h
  · split
    · exact h.changeBundlePriority _ p false 0 rand
    · dsimp only
      refine Inv.setDirty ?_
      split
      · rename_i hp
        have hset : Inv (s.setItem q
            { s.item q with autoPriority := keep && (s.item q).autoPriority }) :=
          h.setItem ⟨rfl, rfl, rfl⟩ fun _ _ => ⟨rfl, rfl, fun _ => rfl⟩
        refine hset.setQIPriority hq ?_ p rand
        rw [waiting_setItem_self]
        change (!(s.item q).isDownloaded) = true
        rw [hp.2]
        rfl
      · exact h

theorem Inv.onUseSeqOrder (h : Inv s) (b : BundlePtr) (rand : QueueItemPtr → UserPtr → Nat) :
    Inv (s.onUseSeqOrder locale st b rand) := by
  unfold SourceQueues.onUseSeqOrder
  dsimp only
  have hset : Inv (s.setBundle b { s.bundle b with seqOrder := !(s.bundle b).seqOrder }) :=
    h.setBundle ⟨rfl, rfl⟩ ⟨rfl, rfl⟩ rfl rfl
  generalize s.setBundle b { s.bundle b with seqOrder := !(s.bundle b).seqOrder } = t at hset ⊢
  have hqueued : ∀ x ∈ (t.bundle b).queueItems, x ∈ t.fileQueue ∧ t.waiting x = true :=
    fun x hx => hset.placed.queued hx
  -- the items that are still to come are waiting all the time
  generalize (t.bundle b).queueItems = l at hqueued ⊢
  induction l generalizing t with
  | nil => exact hset
  | cons x l ih =>
    rw [List.foldl_cons]
    obtain ⟨hx, hw⟩ := hqueued x List.mem_cons_self
    split
    · exact ih t hset fun y hy => hqueued y (List.mem_cons_of_mem x hy)
    · have hsame : SameItems t ((t.removeQIs x).addQIs locale st x (rand x)) :=
        sameItems_removeQIs.trans sameItems_addQIs
      have hitem : (t.removeQIs x).item x = t.item x := congrFun sameItems_removeQIs.item x
      have hstep : Inv (((t.removeQIs x).setItem x (t.item x)).addQIs locale st x (rand x)) :=
        hset.relist hx hw (SameState.refl _) (rand x)
      rw [setItem_eq_self hitem] at hstep
      refine ih _ hstep fun y hy => ?_
      rw [hsame.fileQueue, waiting, hsame.item]
      exact hqueued y (List.mem_cons_of_mem x hy)

/-- The lists of a bundle in another order. -/
theorem Registered.setLists (h : Registered s L) {d : Bundle}
    (hsources : d.sources = (s.bundle b).sources) (horder : SameOrder (s.bundle b) d)
    (hfilled : ∀ p, Filled (d.userQueue p))
    (hcount : ∀ p u x, (listAt (d.userQueue p) u).count x =
      (listAt ((s.bundle b).userQueue p) u).count x) : Registered (s.setBundle b d) L where
  filled c p := setBundle_cases (P := fun d e => Filled (d.userQueue p) → Filled (e.userQueue p))
    (fun _ => id) (fun _ => hfilled p) c (h.filled c p)
  count c p u x := (setBundle_cases
    (P := fun d e => (listAt (e.userQueue p) u).count x = (listAt (d.userQueue p) u).count x)
    (fun _ => rfl) (hcount p u x) c).trans (h.count c p u x)
  sources c := by
    have hc := setBundle_cases (P := fun d e => e.sources = d.sources) (fun _ => rfl) hsources c
    exact hc.symm ▸ h.sources c
  bundles := by
    refine h.bundles.congr (fun c u => ?_) fun _ _ => sortOrder_setBundle horder
    exact congrArg (fun l => (Bundle.findSource l u).isSome)
      (setBundle_cases (P := fun d e => e.sources = d.sources) (fun _ => rfl) hsources c)
  prio := h.prio
  queued := h.queued

theorem Registered.rotate (h : Registered s L) : Registered (s.rotate q v) L := by
  unfold SourceQueues.rotate
  cases hb : (s.item q).bundle with
  | none => exact h
  | some b =>
    dsimp only
    unfold Bundle.rotateUserQueue
    dsimp only
    cases hl : (s.bundle b).userQueue (s.item q).priority v with
    | none => exact h.setBundle (SameLists.refl _) (SameOrder.refl _)
    | some l =>
      dsimp only
      split
      · rename_i hmem
        have hat : listAt ((s.bundle b).userQueue (s.item q).priority) v = l := by
          rw [listAt, hl, Option.getD_some]
        have hperm : (l.erase q ++ [q]).Perm l :=
          (List.perm_append_singleton q _).trans (List.perm_cons_erase hmem.2).symm
        refine h.setLists rfl ⟨rfl, rfl⟩
          ((Function.forall_update_iff _ fun _ m => Filled m).mpr ⟨?_, fun p _ => h.filled b p⟩)
          ((Function.forall_update_iff _ fun p m => ∀ u x, (listAt m u).count x =
            (listAt ((s.bundle b).userQueue p) u).count x).mpr ⟨fun u x => ?_, fun _ _ _ _ => rfl⟩)
        · exact (h.filled b _).put (List.append_ne_nil_of_right_ne_nil _ (List.cons_ne_nil _ _))
        · rcases eq_or_ne u v with rfl | hu
          · rw [listAt_put_self, hat, hperm.count_eq]
          · rw [listAt_put_ne hu]
      · exact h.setBundle (SameLists.refl _) (SameOrder.refl _)

theorem sameItems_rotate : SameItems s (s.rotate q v) := by
  unfold SourceQueues.rotate
  cases (s.item q).bundle with
  | none => exact SameItems.refl s
  | some b =>
    dsimp only
    unfold Bundle.rotateUserQueue
    dsimp only
    cases (s.bundle b).userQueue (s.item q).priority v with
    | none => exact SameItems.setBundle rfl rfl
    | some l =>
      dsimp only
      split
      · exact SameItems.setBundle rfl rfl
      · exact SameItems.setBundle rfl rfl

/-! ## The runs -/

/-- What is done to the queue. -/
inductive Op
  | addFile (q : QueueItemPtr) (v : QueueItem)
  | addBundleFile (q : QueueItemPtr) (v : QueueItem) (b : BundlePtr)
  | removeItem (q : QueueItemPtr)
  | removeBundleItems (b : BundlePtr)
  | addValidatedSource (q : QueueItemPtr) (aUser : HintedUser) (aAddBad : MaskType) (rand : Nat)
  | addPartialSource (q : QueueItemPtr) (aUser : HintedUser) (aInPartialInfo : PartsInfo)
    (blockSize : Int) (rand : Nat)
  | removeFileSource (q : QueueItemPtr) (aUser : UserPtr) (aReason : MaskType)
  | removePartialSource (q : QueueItemPtr) (aUser : UserPtr)
  | finishFile (q : QueueItemPtr) (time : Int)
  | requeue (q : QueueItemPtr) (b : BundlePtr) (rand : UserPtr → Nat)
  | changeBundlePriority (b : BundlePtr) (p : Priority) (aKeepAutoPrio : Bool) (aResumeTime : Int)
    (rand : UserPtr → Nat)
  | changeItemPriority (q : QueueItemPtr) (p : Priority) (aKeepAutoPrio : Bool)
    (rand : UserPtr → Nat)
  | onUseSeqOrder (b : BundlePtr) (rand : QueueItemPtr → UserPtr → Nat)
  | rotate (q : QueueItemPtr) (aUser : UserPtr)
  | addFinishedSegment (q : QueueItemPtr) (aSegment : Segment)
  | resetDownloaded (q : QueueItemPtr)
  | setStatus (q : QueueItemPtr) (status : QueueItem.Status)
  | setBundleStatus (b : BundlePtr) (status : Bundle.Status)
  /-- `loadSegment` of the queue loader, where it sets the automatic priority -/
  | loadPriority (q : QueueItemPtr) (p : Priority)
  | setFileListSize (q : QueueItemPtr) (aNewSize : Int)

variable (locale st) in
def next (s : SourceQueues) : Op → SourceQueues
  | .addFile q v => s.addFile q v
  | .addBundleFile q v b => s.addBundleFile q v b
  | .removeItem q => s.removeItem q
  | .removeBundleItems b => s.removeBundleItems b
  | .addValidatedSource q aUser aAddBad rand =>
    (s.addValidatedSource locale st q aUser aAddBad rand).getD s
  | .addPartialSource q aUser aInPartialInfo blockSize rand =>
    s.addPartialSource locale st q aUser aInPartialInfo blockSize rand
  | .removeFileSource q aUser aReason => s.removeFileSource q aUser aReason
  | .removePartialSource q aUser => s.removePartialSource q aUser
  | .finishFile q time => s.finishFile q time
  | .requeue q b rand => s.requeue locale st q b rand
  | .changeBundlePriority b p aKeepAutoPrio aResumeTime rand =>
    s.changeBundlePriority locale st b p aKeepAutoPrio aResumeTime rand
  | .changeItemPriority q p aKeepAutoPrio rand =>
    s.changeItemPriority locale st q p aKeepAutoPrio rand
  | .onUseSeqOrder b rand => s.onUseSeqOrder locale st b rand
  | .rotate q aUser => s.rotate q aUser
  | .addFinishedSegment q aSegment => { s with heap := s.heap.addFinishedSegment q aSegment }
  | .resetDownloaded q => { s with heap := s.heap.resetDownloaded q }
  | .setStatus q status => s.setItem q { s.item q with status := status }
  | .setBundleStatus b status => s.setBundle b { s.bundle b with status := status }
  | .loadPriority q p => s.setItem q { s.item q with priority := p }
  | .setFileListSize q aNewSize => s.setItem q { s.item q with size := aNewSize }

/-- What the callers see to. -/
def Allowed (s : SourceQueues) : Op → Prop
  | .addFile q v => q ∉ s.fileQueue ∧ v.sources = [] ∧ v.bundle = none
  | .addBundleFile q v _ => q ∉ s.fileQueue ∧ v.sources = []
  | .removeItem q => q ∈ s.fileQueue
  | .addValidatedSource q _ _ _ => q ∈ s.fileQueue
  | .addPartialSource q _ _ _ _ => q ∈ s.fileQueue ∧ (s.item q).isDownloaded = false
  | .removeFileSource q _ _ => q ∈ s.fileQueue
  | .removePartialSource q aUser =>
    q ∈ s.fileQueue ∧ (s.item q).isDownloaded = false ∧ (s.item q).isSource aUser = true
  | .finishFile q _ => q ∈ s.fileQueue
  | .requeue q _ _ => q ∈ s.fileQueue ∧ (s.item q).isDownloaded = true
  | .changeItemPriority q _ _ _ => q ∈ s.fileQueue
  | .setStatus q status =>
    ({ s.item q with status := status } : QueueItem).isDownloaded = (s.item q).isDownloaded
  | .loadPriority q _ => (s.item q).sources = []
  | .setFileListSize q _ => (s.item q).bundle = none
  | _ => True

variable (locale st) in
def operations : System SourceQueues Op := ⟨next locale st, Allowed⟩

/-- Nothing is queued. -/
structure Empty (s : SourceQueues) : Prop where
  fileQueue : s.fileQueue = []
  userBundleQueue : s.userBundleQueue = fun _ => none
  userPrioQueue : s.userPrioQueue = fun _ => none
  queued : s.queued = fun _ => 0
  items : ∀ b, (s.bundle b).items = []
  sources : ∀ b, (s.bundle b).sources = []
  userQueue : ∀ b, (s.bundle b).userQueue = fun _ _ => none
  users : ∀ q, (users (s.item q)).Nodup

theorem Empty.inv (h : Empty s) : Inv s := by
  have hlinks : s.links = [] := by
    rw [links, h.fileQueue]
    rfl
  refine ⟨⟨by rw [h.fileQueue]; exact List.nodup_nil, h.users, fun b => ?_, fun b x => ?_⟩, ?_⟩
  · have hitems := h.items b
    rw [Bundle.items, List.append_eq_nil_iff] at hitems
    refine ⟨by rw [h.items b]; exact List.nodup_nil, ?_, ?_⟩
    · rw [hitems.1]
      exact fun _ hx => absurd hx List.not_mem_nil
    · rw [hitems.2]
      exact fun _ hx => absurd hx List.not_mem_nil
  · rw [h.items b, h.fileQueue]
    exact iff_of_false List.not_mem_nil fun hl => List.not_mem_nil hl.1
  · rw [hlinks]
    exact
      { filled := fun b p => by
          rw [h.userQueue]
          exact filled_empty
        count := fun b p u q => by
          rw [h.userQueue, List.count_nil, ite_self]
          rfl
        sources := fun b => by
          rw [h.sources]
          exact Bundle.countsFiles_nil
        bundles := by
          refine ⟨?_, fun u b => ?_, fun u => ?_⟩
          · rw [h.userBundleQueue]
            exact filled_empty
          · rw [h.userBundleQueue, Bundle.isSource, h.sources]
            rfl
          · rw [h.userBundleQueue]
            exact List.Pairwise.nil
        prio := by
          refine ⟨?_, fun u q => ?_⟩
          · rw [h.userPrioQueue]
            exact filled_empty
          · rw [h.userPrioQueue, List.count_nil, ite_self]
            rfl
        queued := fun u => by
          rw [h.queued]
          rfl }

/-- The priority of an item without sources is free. -/
theorem Inv.setItem_free (h : Inv s) {w : QueueItem} (hstate : SameState (s.item q) w)
    (hw : w.sources = []) (hq : (s.item q).sources = []) : Inv (s.setItem q w) := by
  have hlinks : s.links.Perm (s.others q) := by
    by_cases hwait : q ∈ s.fileQueue ∧ s.waiting q = true
    · have hnil : s.itemLinks q = [] := by
        rw [itemLinks, sourceUsers, hq]
        rfl
      have hperm := links_perm hwait.1 hwait.2
      rwa [hnil] at hperm
    · exact links_perm_others fun hmem => Bool.eq_false_iff.mpr fun hq' => hwait ⟨hmem, hq'⟩
  refine Inv.of_no_sources (q := q) (h.placed.setItem_same hstate) ?_ ?_
  · rw [others_setItem h.placed.nodup]
    exact (h.registered.perm hlinks).setItem (fun _ => notMem_others h.placed.nodup) w
  · rw [item_setItem_self]
    exact hw

theorem Inv.addFinishedSegment (h : Inv s) (aSegment : Segment) :
    Inv { s with heap := s.heap.addFinishedSegment q aSegment } := by
  have hset : Inv (s.setItem q ((s.item q).addFinishedSegment aSegment).1) :=
    h.setItem ⟨rfl, rfl, rfl⟩ fun _ _ => ⟨rfl, rfl, fun _ => rfl⟩
  exact hset.onBundle (q := q)
    (f := fun b => b.addFinishedSegment ((s.item q).addFinishedSegment aSegment).2)
    (fun _ => listed_setDirty _) (fun _ => Bundle.setDirty_queueItems _)
    fun _ => Bundle.setDirty_finishedFiles _

theorem Inv.resetDownloaded (h : Inv s) : Inv { s with heap := s.heap.resetDownloaded q } := by
  have hset := h.onBundle (q := q)
    (f := fun b => b.removeFinishedSegment (s.item q).getDownloadedSegments)
    (fun _ => rfl) (fun _ => rfl) fun _ => rfl
  exact hset.setItem (q := q) ⟨rfl, rfl, rfl⟩ fun _ _ => ⟨rfl, rfl, fun _ => rfl⟩

theorem Inv.next (h : Inv s) (o : Op) (ho : Allowed s o) : Inv (s.next locale st o) := by
  have hwait : ∀ q, (s.item q).isDownloaded = false → s.waiting q = true := fun q hd => by
    rw [waiting, hd]
    rfl
  cases o with
  | addFile q v => exact h.addFile ho.1 ho.2.1 ho.2.2
  | addBundleFile q v b => exact h.addBundleFile ho.1 ho.2 b
  | removeItem q => exact h.removeItem ho
  | removeBundleItems b => exact h.removeBundleItems b
  | addValidatedSource q aUser aAddBad rand =>
    change Inv ((s.addValidatedSource locale st q aUser aAddBad rand).getD s)
    cases hr : s.addValidatedSource locale st q aUser aAddBad rand with
    | none => exact h
    | some t => exact h.addValidatedSource ho aUser aAddBad rand t hr
  | addPartialSource q aUser info blockSize rand =>
    exact h.addPartialSource ho.1 (hwait q ho.2) aUser info blockSize rand
  | removeFileSource q aUser aReason => exact h.removeFileSource ho aUser aReason
  | removePartialSource q aUser => exact h.removePartialSource ho.1 (hwait q ho.2.1) ho.2.2
  | finishFile q time => exact h.finishFile ho time
  | requeue q b rand =>
    refine h.requeue ho.1 ?_ b rand
    rw [waiting, ho.2]
    rfl
  | changeBundlePriority b p keep time rand => exact h.changeBundlePriority b p keep time rand
  | changeItemPriority q p keep rand => exact h.changeItemPriority ho p keep rand
  | onUseSeqOrder b rand => exact h.onUseSeqOrder b rand
  | rotate q aUser => exact h.sameItems sameItems_rotate h.registered.rotate
  | addFinishedSegment q aSegment => exact h.addFinishedSegment aSegment
  | resetDownloaded q => exact h.resetDownloaded
  | setStatus q status => exact h.setItem ⟨rfl, ho, rfl⟩ fun _ _ => ⟨rfl, rfl, fun _ => rfl⟩
  | setBundleStatus b status => exact h.setBundle ⟨rfl, rfl⟩ ⟨rfl, rfl⟩ rfl rfl
  | loadPriority q p => exact h.setItem_free ⟨rfl, rfl, rfl⟩ ho ho
  | setFileListSize q aNewSize =>
    refine h.setItem ⟨rfl, rfl, rfl⟩ fun _ _ => ⟨rfl, rfl, fun hb => ?_⟩
    rw [ho] at hb
    cases hb

end SourceQueues
end Airdcpp
