import Airdcpp.Queue.BundleAccounting
import Airdcpp.Queue.BundleQueue

/-!
# `Queue/PathStatistics` — what the path infos count

For every directory of a directory bundle the queue keeps the number of queued and of finished
files below it and the sum of their sizes, and it keeps nothing for a directory without files.
`dirInfo` says this of a list of items. The loop of `forEachPath` is a point-wise change of the
map from paths to infos (`forEachPath_find`), so each operation on an item comes down to what
one handler does to one `dirInfo` (`settle_countAdded`, `settle_countRemoved`).
-/

namespace Airdcpp

open Lib
open PathUtil

namespace BundleQueue

variable {foldCase : Str → Str}

/-! ## The walk -/

/-- The infos under one key of `bundlePaths`. -/
def infosAt (bq : BundleQueue) (key : Str) : PathInfos :=
  (bq.bundlePaths key).getD SortedVector.empty

theorem infosAt_update (bq : BundleQueue) {dirs : Str → List (BundlePtr × Str)} {key k : Str}
    {v : Option PathInfos} :
    infosAt { bq with dirNameMap := dirs, bundlePaths := Function.update bq.bundlePaths key v } k =
      if k = key then v.getD SortedVector.empty else bq.infosAt k := by
  unfold infosAt
  simp only [Function.update_apply]
  split
  · rfl
  · rfl

/-- What one round does to the info of its path. -/
def settle (aHandler : PathCounts → PathCounts) (b : BundlePtr) (p : Str) (o : Option PathInfo) :
    Option PathInfo :=
  let info := o.getD ⟨p, b, {}⟩
  let count := aHandler info.count
  if count.finishedFiles = 0 ∧ count.queuedFiles =
    0 then none else some { info with count := count }

theorem findPathInfo_eq (bq : BundleQueue) (t p : Str) :
    bq.findPathInfo foldCase t p = (bq.infosAt (foldCase t)).find p := rfl

variable {aBundle : BundlePtr} {aTarget : Str} {aHandler : PathCounts → PathCounts}

theorem removePathInfo_infosAt (bq : BundleQueue) (info : PathInfo) (k : Str) :
    (bq.removePathInfo foldCase aTarget info).infosAt k =
      if k = foldCase aTarget then (bq.infosAt (foldCase aTarget)).erase info.path
      else bq.infosAt k := by
  unfold removePathInfo
  rw [infosAt_update]
  have hvec : pathInfos foldCase bq aTarget = bq.infosAt (foldCase aTarget) := rfl
  rw [hvec]
  by_cases hempty : ((bq.infosAt (foldCase aTarget)).erase info.path).toList.isEmpty
  · rw [if_pos hempty, Option.getD_none]
    have hnil := List.isEmpty_iff.mp hempty
    congr 1
    exact (SortedVector.eq_empty hnil).symm
  · rw [if_neg hempty, Option.getD_some]

theorem addPathInfo_infosAt (bq : BundleQueue) (p k : Str) :
    (bq.addPathInfo foldCase p aBundle aTarget).infosAt k =
      if k = foldCase aTarget then (bq.infosAt (foldCase aTarget)).insert ⟨p, aBundle, {}⟩
      else bq.infosAt k := by
  unfold addPathInfo
  rw [infosAt_update]
  rfl

theorem handlePathInfo_infosAt (bq : BundleQueue) (p k : Str) :
    (bq.handlePathInfo foldCase aTarget p aHandler).infosAt k =
      if k = foldCase aTarget then (bq.infosAt (foldCase aTarget)).modify p
        (fun info => { info with count := aHandler info.count }) (fun _ => rfl)
      else bq.infosAt k := by
  unfold handlePathInfo
  exact infosAt_update bq

/-- The info of the path is there before it is handled. -/
theorem ensured_find (bq : BundleQueue) (k p p' : Str) :
    ((if (bq.findPathInfo foldCase aTarget p).isNone then
        bq.addPathInfo foldCase p aBundle aTarget else bq).infosAt k).find p' =
      if k = foldCase aTarget ∧ p' = p then
        some (((bq.infosAt k).find p').getD ⟨p, aBundle, {}⟩)
      else (bq.infosAt k).find p' := by
  rw [findPathInfo_eq]
  cases hfind : (bq.infosAt (foldCase aTarget)).find p with
  | none =>
    rw [Option.isNone_none, if_pos rfl, addPathInfo_infosAt]
    by_cases hk : k = foldCase aTarget
    · subst hk
      rw [if_pos rfl]
      by_cases hp : p' = p
      · subst hp
        rw [if_pos ⟨rfl, rfl⟩, hfind, Option.getD_none]
        exact SortedVector.find_insert_self hfind
      · rw [if_neg fun h => hp h.2]
        exact SortedVector.find_insert_ne hfind hp
    · rw [if_neg hk, if_neg fun h => hk h.1]
  | some info =>
    rw [Option.isNone_some, if_neg Bool.false_ne_true]
    split
    · rename_i h
      rw [h.1, h.2, hfind, Option.getD_some]
    · rfl

/-- **One round changes one info.** -/
theorem visitPath_find (bq : BundleQueue) (k p p' : Str) :
    ((bq.visitPath foldCase aBundle aTarget aHandler p).infosAt k).find p' =
      if k = foldCase aTarget ∧ p' = p then
        settle aHandler aBundle p ((bq.infosAt k).find p')
      else (bq.infosAt k).find p' := by
  unfold visitPath
  have hensured := fun k p' =>
    @ensured_find foldCase aBundle aTarget bq k p p'
  generalize (if (bq.findPathInfo foldCase aTarget p).isNone then
    bq.addPathInfo foldCase p aBundle aTarget else bq) = bq₁ at hensured ⊢
  -- the info that is handled is the old one, or a new one with all counters zero
  have hold : (bq₁.infosAt (foldCase aTarget)).find p =
      some (((bq.infosAt (foldCase aTarget)).find p).getD ⟨p, aBundle, {}⟩) := by
    rw [hensured, if_pos ⟨rfl, rfl⟩]
  have hhandled : ∀ k p', ((bq₁.handlePathInfo foldCase aTarget p aHandler).infosAt k).find p' =
      if k = foldCase aTarget ∧ p' = p then
        some { ((bq.infosAt k).find p').getD ⟨p, aBundle, {}⟩ with
          count := aHandler (((bq.infosAt k).find p').getD ⟨p, aBundle, {}⟩).count }
      else (bq.infosAt k).find p' := by
    intro k p'
    rw [handlePathInfo_infosAt]
    by_cases hk : k = foldCase aTarget
    · subst hk
      rw [if_pos rfl]
      by_cases hp : p' = p
      · subst hp
        rw [if_pos ⟨rfl, rfl⟩, SortedVector.find_modify_self, hold]
        rfl
      · rw [if_neg fun h => hp h.2, SortedVector.find_modify_ne _ _ hp, hensured,
          if_neg fun h => hp h.2]
    · rw [if_neg hk, if_neg fun h => hk h.1, hensured, if_neg fun h => hk h.1]
  have hpath : (((bq.infosAt (foldCase aTarget)).find p).getD ⟨p, aBundle, {}⟩).path = p := by
    cases h : (bq.infosAt (foldCase aTarget)).find p with
    | none => rfl
    | some info => exact (SortedVector.find_eq_some_iff.mp h).2
  have hinfo := hhandled (foldCase aTarget) p
  rw [if_pos ⟨rfl, rfl⟩] at hinfo
  unfold settle
  simp only [findPathInfo_eq, hinfo]
  split
  · rename_i hzero
    rw [removePathInfo_infosAt]
    by_cases hk : k = foldCase aTarget
    · subst hk
      rw [if_pos rfl]
      simp only [hpath, true_and]
      by_cases hp : p' = p
      · subst hp
        rw [if_pos rfl, if_pos hzero]
        exact SortedVector.find_erase_self _ _
      · rw [if_neg hp, SortedVector.find_erase_ne _ hp, hhandled, if_neg fun h => hp h.2]
    · rw [if_neg hk, if_neg fun h => hk h.1, hhandled, if_neg fun h => hk h.1]
  · rename_i hzero
    rw [hhandled]
    by_cases h : k = foldCase aTarget ∧ p' = p
    · rw [if_pos h, if_pos h]
      obtain ⟨rfl, rfl⟩ := h
      rw [if_neg hzero]
    · rw [if_neg h, if_neg h]

theorem foldl_visitPath_find {paths : List Str} (hnodup : paths.Nodup) (bq : BundleQueue)
    (k p : Str) :
    ((paths.foldl (visitPath foldCase aBundle aTarget aHandler) bq).infosAt k).find p =
      if k = foldCase aTarget ∧ p ∈ paths then
        settle aHandler aBundle p ((bq.infosAt k).find p)
      else (bq.infosAt k).find p := by
  induction paths generalizing bq with
  | nil => rw [if_neg fun h => absurd h.2 List.not_mem_nil]; rfl
  | cons currentPath paths ih =>
    obtain ⟨hnew, hrest⟩ := List.nodup_cons.mp hnodup
    rw [List.foldl_cons, ih hrest, visitPath_find]
    by_cases hk : k = foldCase aTarget
    · by_cases hp : p = currentPath
      · subst hp
        rw [if_neg fun h => hnew h.2, if_pos ⟨hk, rfl⟩, if_pos ⟨hk, List.mem_cons_self⟩]
      · rw [if_neg (c := k = foldCase aTarget ∧ p = currentPath) fun h => hp h.2]
        simp only [List.mem_cons, hp, false_or]
    · rw [if_neg fun h => hk h.1, if_neg fun h => hk h.1, if_neg fun h => hk h.1]

theorem foldl_visitPath_rest (paths : List Str) (bq : BundleQueue) :
    (paths.foldl (visitPath foldCase aBundle aTarget aHandler) bq).bundles = bq.bundles ∧
      (paths.foldl (visitPath foldCase aBundle aTarget aHandler) bq).queueSize = bq.queueSize := by
  induction paths generalizing bq with
  | nil => exact ⟨rfl, rfl⟩
  | cons currentPath paths ih =>
    have hround : (bq.visitPath foldCase aBundle aTarget aHandler currentPath).bundles =
          bq.bundles ∧
        (bq.visitPath foldCase aBundle aTarget aHandler currentPath).queueSize = bq.queueSize := by
      have hensured : (if (bq.findPathInfo foldCase aTarget currentPath).isNone then
            bq.addPathInfo foldCase currentPath aBundle aTarget else bq).bundles = bq.bundles ∧
          (if (bq.findPathInfo foldCase aTarget currentPath).isNone then
            bq.addPathInfo foldCase currentPath aBundle aTarget else bq).queueSize =
            bq.queueSize := by
        split
        · exact ⟨rfl, rfl⟩
        · exact ⟨rfl, rfl⟩
      unfold visitPath
      simp only
      split
      · split
        · exact hensured
        · exact hensured
      · exact hensured
    obtain ⟨h₁, h₂⟩ := ih (bq.visitPath foldCase aBundle aTarget aHandler currentPath)
    exact ⟨h₁.trans hround.1, h₂.trans hround.2⟩

/-- A file in the bundle's directory: the loop ends, and changes the infos of the directories
    from the file's own to the target. -/
theorem forEachPath_find (aBundle : BundlePtr) (aHandler : PathCounts → PathCounts)
    (bq : BundleQueue) {aFilePath : Str}
    (ht : isDirectoryPath aTarget = true) (hin : aTarget <+: getFilePath aFilePath)
    (hfile : isDirectoryPath (getFilePath aFilePath) = true) :
    ∃ bq', bq.forEachPath foldCase aBundle aTarget aFilePath aHandler = some bq' ∧
      bq'.bundles = bq.bundles ∧ bq'.queueSize = bq.queueSize ∧
      ∀ k p, (bq'.infosAt k).find p =
        if k = foldCase aTarget ∧ isDirectoryPath p = true ∧ p <+: getFilePath aFilePath ∧
            aTarget <+: p then
          settle aHandler aBundle p ((bq.infosAt k).find p)
        else (bq.infosAt k).find p := by
  obtain ⟨paths, hpaths, hmem, horder⟩ := pathsUp_of_prefix ht hfile hin
  have hnodup : paths.Nodup := horder.imp fun hlt e => absurd (e ▸ hlt) (lt_irrefl _)
  refine ⟨paths.foldl (visitPath foldCase aBundle aTarget aHandler) bq, ?_,
    (foldl_visitPath_rest paths bq).1, (foldl_visitPath_rest paths bq).2, fun k p => ?_⟩
  · unfold forEachPath
    rw [hpaths]
    rfl
  · rw [foldl_visitPath_find hnodup]
    simp only [hmem]

/-! ## The statistics of a list of items -/

section Items

variable (item : QueueItemPtr → QueueItem)

/-- The item's file is in the directory `p` or below it. -/
def Below (p : Str) (q : QueueItemPtr) : Prop := p <+: getFilePath (item q).target

instance (p : Str) : DecidablePred (Below item p) :=
  fun q => inferInstanceAs (Decidable (p <+: getFilePath (item q).target))

/-- The files below `p`: how many are queued, how many finished, and their size. -/
def dirCounts (items : List QueueItemPtr) (p : Str) : PathCounts where
  queuedFiles := ((items.filter fun q => Below item p q).countP fun q =>
    !(item q).isDownloaded : Nat)
  finishedFiles := ((items.filter fun q => Below item p q).countP fun q =>
    (item q).isDownloaded : Nat)
  size := totalSize item (items.filter fun q => Below item p q)

/-- What the queue should know about a directory: nothing if there is no file below it. -/
def dirInfo (b : BundlePtr) (items : List QueueItemPtr) (p : Str) : Option PathInfo :=
  if ∃ q ∈ items, Below item p q then some ⟨p, b, dirCounts item items p⟩ else none

variable {item} {items items' : List QueueItemPtr} {q : QueueItemPtr} {b : BundlePtr} {p : Str}

theorem dirCounts_perm (h : items.Perm items') :
    dirCounts item items p = dirCounts item items' p := by
  have hfilter := h.filter fun q => decide (Below item p q)
  unfold dirCounts
  rw [hfilter.countP_eq, hfilter.countP_eq, totalSize_perm item hfilter]

theorem dirInfo_perm (h : items.Perm items') :
    dirInfo item b items p = dirInfo item b items' p := by
  unfold dirInfo
  rw [dirCounts_perm h]
  simp only [h.mem_iff]

theorem dirCounts_cons_of_not_below (h : ¬ Below item p q) :
    dirCounts item (q :: items) p = dirCounts item items p := by
  unfold dirCounts
  rw [List.filter_cons_of_neg (by simpa using h)]

theorem dirInfo_cons_of_not_below (h : ¬ Below item p q) :
    dirInfo item b (q :: items) p = dirInfo item b items p := by
  unfold dirInfo
  rw [dirCounts_cons_of_not_below h]
  simp only [List.mem_cons, exists_eq_or_imp, h, false_or]

theorem dirCounts_cons (h : Below item p q) :
    dirCounts item (q :: items) p = countAdded (item q) (dirCounts item items p) := by
  unfold dirCounts countAdded
  rw [List.filter_cons_of_pos (by simpa using h)]
  cases hd : (item q).isDownloaded with
  | true => simp [hd, add_comm]
  | false => simp [hd, add_comm]

theorem countRemoved_dirCounts_cons (h : Below item p q) :
    countRemoved (item q) false (dirCounts item (q :: items) p) = dirCounts item items p := by
  rw [dirCounts_cons h]
  unfold countAdded countRemoved
  cases hd : (item q).isDownloaded with
  | true => simp
  | false => simp

/-- A directory without files has no counts; one with files has some. -/
theorem dirInfo_eq : dirInfo item b items p =
    if (dirCounts item items p).finishedFiles = 0 ∧
      (dirCounts item items p).queuedFiles = 0 then none
    else some ⟨p, b, dirCounts item items p⟩ := by
  have hzero : ((dirCounts item items p).finishedFiles = 0 ∧
      (dirCounts item items p).queuedFiles = 0) ↔ ¬ ∃ q ∈ items, Below item p q := by
    simp only [dirCounts, Nat.cast_eq_zero, List.countP_eq_zero, List.mem_filter, decide_eq_true_eq,
      Bool.not_eq_true', not_exists, not_and]
    constructor
    · intro ⟨h₁, h₂⟩ q hq hbelow
      have hnot := h₁ q ⟨hq, hbelow⟩
      have hyes := h₂ q ⟨hq, hbelow⟩
      cases hd : (item q).isDownloaded with
      | true => exact hnot hd
      | false => exact hyes hd
    · intro h
      exact ⟨fun q hq => absurd hq.2 (h q hq.1), fun q hq => absurd hq.2 (h q hq.1)⟩
  unfold dirInfo
  by_cases h : ∃ q ∈ items, Below item p q
  · rw [if_pos h, if_neg fun hz => hzero.mp hz h]
  · rw [if_neg h, if_pos (hzero.mpr h)]

theorem dirInfo_getD : (dirInfo item b items p).getD ⟨p, b, {}⟩ =
    ⟨p, b, dirCounts item items p⟩ := by
  unfold dirInfo
  split
  · rfl
  · rename_i h
    have hnil : items.filter (fun q => decide (Below item p q)) = [] := by
      rw [List.filter_eq_nil_iff]
      intro q hq
      simpa using fun hbelow => h ⟨q, hq, hbelow⟩
    simp [dirCounts, hnil, totalSize]

theorem settle_dirInfo {f : PathCounts → PathCounts}
    (hf : f (dirCounts item items p) = dirCounts item items' p) :
    settle f b p (dirInfo item b items p) = dirInfo item b items' p := by
  unfold settle
  simp only [dirInfo_getD, hf]
  exact dirInfo_eq.symm

/-- **What adding an item does to the info of a directory it is below.** -/
theorem settle_countAdded (h : Below item p q) :
    settle (countAdded (item q)) b p (dirInfo item b items p) = dirInfo item b (q :: items) p :=
  settle_dirInfo (dirCounts_cons h).symm

theorem settle_countRemoved (h : Below item p q) :
    settle (countRemoved (item q) false) b p (dirInfo item b (q :: items) p) =
      dirInfo item b items p :=
  settle_dirInfo (countRemoved_dirCounts_cons h)

/-- The statistics see of an item its target, its size and whether it is downloaded. -/
def SameFields (item' item : QueueItemPtr → QueueItem) (q : QueueItemPtr) : Prop :=
  (item' q).target = (item q).target ∧ (item' q).size = (item q).size ∧
    (item' q).isDownloaded = (item q).isDownloaded

theorem dirCounts_congr {item' : QueueItemPtr → QueueItem}
    (h : ∀ q ∈ items, SameFields item' item q) :
    dirCounts item' items p = dirCounts item items p := by
  have hfilter : items.filter (fun q => decide (Below item' p q)) =
      items.filter fun q => decide (Below item p q) := by
    apply List.filter_congr
    intro q hq
    apply decide_eq_decide.mpr
    unfold Below
    rw [(h q hq).1]
  unfold dirCounts totalSize
  rw [hfilter]
  congr 1
  · congr 1
    apply List.countP_congr
    intro q hq
    rw [(h q (List.mem_of_mem_filter hq)).2.2]
  · congr 1
    apply List.countP_congr
    intro q hq
    rw [(h q (List.mem_of_mem_filter hq)).2.2]
  · congr 1
    apply List.map_congr_left
    intro q hq
    exact (h q (List.mem_of_mem_filter hq)).2.1

theorem dirInfo_congr {item' : QueueItemPtr → QueueItem}
    (h : ∀ q ∈ items, SameFields item' item q) :
    dirInfo item' b items p = dirInfo item b items p := by
  have hex : (∃ q ∈ items, Below item' p q) ↔ ∃ q ∈ items, Below item p q := by
    refine exists_congr fun q => and_congr_right fun hq => ?_
    unfold Below
    rw [(h q hq).1]
  unfold dirInfo
  rw [dirCounts_congr h]
  simp only [hex]

end Items

end BundleQueue

end Airdcpp
