import Airdcpp.Hash.Maintenance

/-!
# `Hash/MaintenanceRuns` — what maintenance leaves of the hash databases

The first scan keeps the roots of shared files (`mem_keepShared`), the second deletes trees that
nobody needs or that cannot be read, and a root whose tree it has deleted stays in `usedRoots`
(`keepNeeded_keeps`), so that the third deletes its files (`keepComplete_deletes`).

What a batch deletes was decided on the snapshots. `Harmless` says when nothing is deleted that has
been put since; without it a tree that is put between the two snapshots is deleted as unused.
-/

namespace Airdcpp
namespace HashStore

variable {h : Hasher TTHValue} {shared : Str → Bool}

/-! ## Records of files -/

theorem loadFileInfo_saveFileInfo (fi : HashedFile) :
    ∃ fi', loadFileInfo (saveFileInfo fi) = some fi' ∧ fi'.root = fi.root := by
  have htime := Bytes.length_write 8 fi.timeStamp
  have hroot : fi.root.toList.length = BYTES := Vector.length_toList
  have hlen : (saveFileInfo fi).length = 1 + 8 + BYTES + 8 := by
    unfold saveFileInfo
    simp [htime, Bytes.length_writeInt, BYTES]
  have hpart : ((saveFileInfo fi).drop 9).take BYTES = fi.root.toList := by
    unfold saveFileInfo
    rw [List.drop_succ_cons, List.append_assoc, List.drop_left' htime, List.take_left' hroot]
  unfold loadFileInfo
  rw [if_neg (not_not_intro hlen), if_neg (by exact lt_irrefl (1 : UInt8))]
  refine ⟨_, rfl, ?_⟩
  apply Vector.ext
  intro j hj
  simp only [hpart]
  rw [Vector.getElem_ofFn, List.getD_eq_getElem _ _ (lt_of_lt_of_eq hj hroot.symm),
    Vector.getElem_toList]

/-! ## The scans -/

theorem deleteAll_of_notMem {κ : Type} [DecidableEq κ] {db : Db κ} {keys : List κ} {key : κ}
    (hk : key ∉ keys) : deleteAll db keys key = db key := if_neg hk

theorem deleteAll_eq_some {κ : Type} [DecidableEq κ] {db : Db κ} {keys : List κ} {key : κ}
    {value : Str} : deleteAll db keys key = some value ↔ key ∉ keys ∧ db key = some value := by
  unfold deleteAll
  by_cases hk : key ∈ keys
  · rw [if_pos hk]
    simp [hk]
  · rw [if_neg hk]
    simp [hk]

/-- What the first scan deletes. -/
theorem keepShared_deletes {entries : List (Str × Str)} {s : Finset TTHValue × HashedFile}
    {path : Str} (hp : path ∈ (scan (keepShared shared) entries s).2) :
    ∃ value, (path, value) ∈ entries ∧ (shared path = false ∨ loadFileInfo value = none) := by
  induction entries generalizing s with
  | nil => cases hp
  | cons entry rest ih =>
    obtain ⟨key, value⟩ := entry
    simp only [scan] at hp
    by_cases hdel : (keepShared shared s key value).2 = true
    · rw [if_pos hdel] at hp
      rcases List.mem_cons.mp hp with rfl | hp
      · refine ⟨value, List.mem_cons_self, ?_⟩
        unfold keepShared at hdel
        split at hdel
        · split at hdel
          · next hnone => exact Or.inr hnone
          · cases hdel
        · next hs => exact Or.inl (Bool.not_eq_true _ ▸ hs)
      · obtain ⟨v, hv, hwhy⟩ := ih hp
        exact ⟨v, List.mem_cons_of_mem _ hv, hwhy⟩
    · rw [if_neg hdel] at hp
      obtain ⟨v, hv, hwhy⟩ := ih hp
      exact ⟨v, List.mem_cons_of_mem _ hv, hwhy⟩

theorem keepShared_mono {entries : List (Str × Str)} {s : Finset TTHValue × HashedFile}
    {root : TTHValue} (hr : root ∈ s.1) : root ∈ (scan (keepShared shared) entries s).1.1 := by
  induction entries generalizing s with
  | nil => exact hr
  | cons entry rest ih =>
    obtain ⟨key, value⟩ := entry
    simp only [scan]
    apply ih
    unfold keepShared
    split
    · split
      · exact hr
      · exact Finset.mem_insert_of_mem hr
    · exact hr

/-- The others are deleted, or their roots are kept. -/
theorem mem_keepShared {entries : List (Str × Str)} {s : Finset TTHValue × HashedFile}
    {path value : Str} (he : (path, value) ∈ entries)
    (hkept : path ∉ (scan (keepShared shared) entries s).2) :
    ∃ fi, loadFileInfo value = some fi ∧
      fi.root ∈ (scan (keepShared shared) entries s).1.1 := by
  induction entries generalizing s with
  | nil => cases he
  | cons entry rest ih =>
    obtain ⟨key, v⟩ := entry
    simp only [scan] at hkept ⊢
    by_cases hdel : (keepShared shared s key v).2 = true
    · rw [if_pos hdel, List.mem_cons, not_or] at hkept
      obtain heq | he := List.mem_cons.mp he
      · exact absurd (Prod.mk.inj heq).1 hkept.1
      · exact ih he hkept.2
    · rw [if_neg hdel] at hkept
      obtain heq | he := List.mem_cons.mp he
      · obtain ⟨rfl, rfl⟩ := Prod.mk.inj heq
        unfold keepShared at hdel
        split at hdel
        · next hs =>
          split at hdel
          · exact absurd rfl hdel
          · next fi hfi =>
            refine ⟨fi, hfi, keepShared_mono ?_⟩
            unfold keepShared
            rw [if_pos hs, hfi]
            exact Finset.mem_insert_self _ _
        · exact absurd rfl hdel
      · exact ih he hkept

/-- What the second scan deletes. -/
theorem keepNeeded_deletes {doVerify : Bool} {queued : TTHValue → Bool}
    {entries : List (TTHValue × Str)} {usedRoots : Finset TTHValue} {root : TTHValue}
    (hnodup : (entries.map Prod.fst).Nodup)
    (hr : root ∈ (scan (keepNeeded h doVerify queued) entries usedRoots).2) :
    ∃ value, (root, value) ∈ entries ∧ ((root ∉ usedRoots ∧ queued root = false) ∨
      (doVerify = true ∧ treeLoads h value root = false)) := by
  induction entries generalizing usedRoots with
  | nil => cases hr
  | cons entry rest ih =>
    obtain ⟨key, value⟩ := entry
    rw [List.map_cons, List.nodup_cons] at hnodup
    simp only [scan] at hr
    have hrest : root ∈ (scan (keepNeeded h doVerify queued) rest
        (keepNeeded h doVerify queued usedRoots key value).1).2 →
        ∃ value', (root, value') ∈ (key, value) :: rest ∧
          ((root ∉ usedRoots ∧ queued root = false) ∨
            (doVerify = true ∧ treeLoads h value' root = false)) := by
      intro hmem
      obtain ⟨v, hv, hwhy⟩ := ih hnodup.2 hmem
      refine ⟨v, List.mem_cons_of_mem _ hv, ?_⟩
      have hne : root ≠ key := by
        rintro rfl
        exact hnodup.1 (List.mem_map.mpr ⟨_, hv, rfl⟩)
      refine hwhy.imp_left fun hunused => ⟨?_, hunused.2⟩
      intro hmem'
      apply hunused.1
      unfold keepNeeded
      split
      · exact hmem'
      · split
        · exact Finset.mem_erase.mpr ⟨hne, hmem'⟩
        · exact hmem'
    by_cases hdel : (keepNeeded h doVerify queued usedRoots key value).2 = true
    · rw [if_pos hdel] at hr
      rcases List.mem_cons.mp hr with rfl | hr
      · refine ⟨value, List.mem_cons_self, ?_⟩
        unfold keepNeeded at hdel
        split at hdel
        · next hunused => exact Or.inl (by simpa using hunused)
        · split at hdel
          · cases hdel
          · next hfail => exact Or.inr (by simpa using hfail)
      · exact hrest hr
    · rw [if_neg hdel] at hr
      exact hrest hr

theorem keepNeeded_subset {doVerify : Bool} {queued : TTHValue → Bool}
    {entries : List (TTHValue × Str)} {usedRoots : Finset TTHValue} {root : TTHValue}
    (hr : root ∉ entries.map Prod.fst) (hu : root ∈ usedRoots) :
    root ∈ (scan (keepNeeded h doVerify queued) entries usedRoots).1 := by
  induction entries generalizing usedRoots with
  | nil => exact hu
  | cons entry rest ih =>
    obtain ⟨key, value⟩ := entry
    rw [List.map_cons, List.mem_cons, not_or] at hr
    simp only [scan]
    apply ih hr.2
    unfold keepNeeded
    split
    · exact hu
    · split
      · exact Finset.mem_erase.mpr ⟨hr.1, hu⟩
      · exact hu

/-- A used root whose tree is deleted stays. -/
theorem keepNeeded_keeps {doVerify : Bool} {queued : TTHValue → Bool}
    {entries : List (TTHValue × Str)} {usedRoots : Finset TTHValue} {root : TTHValue}
    (hnodup : (entries.map Prod.fst).Nodup) (hu : root ∈ usedRoots)
    (hr : root ∈ (scan (keepNeeded h doVerify queued) entries usedRoots).2) :
    root ∈ (scan (keepNeeded h doVerify queued) entries usedRoots).1 := by
  induction entries generalizing usedRoots with
  | nil => exact hu
  | cons entry rest ih =>
    obtain ⟨key, value⟩ := entry
    rw [List.map_cons, List.nodup_cons] at hnodup
    simp only [scan] at hr ⊢
    by_cases hkey : root = key
    · subst hkey
      have hsame : (keepNeeded h doVerify queued usedRoots root value).1 = usedRoots := by
        by_cases hdel : (keepNeeded h doVerify queued usedRoots root value).2 = true
        · unfold keepNeeded at hdel ⊢
          split at hdel
          · next hc => rw [if_pos hc]
          · next hc =>
            split at hdel
            · cases hdel
            · next hv => rw [if_neg hc, if_neg hv]
        · rw [if_neg hdel] at hr
          obtain ⟨v, hv, -⟩ := keepNeeded_deletes hnodup.2 hr
          exact absurd (List.mem_map.mpr ⟨_, hv, rfl⟩) hnodup.1
      rw [hsame]
      exact keepNeeded_subset hnodup.1 hu
    · have hmem : root ∈ (keepNeeded h doVerify queued usedRoots key value).1 := by
        unfold keepNeeded
        split
        · exact hu
        · split
          · exact Finset.mem_erase.mpr ⟨hkey, hu⟩
          · exact hu
      apply ih hnodup.2 hmem
      split at hr
      · exact (List.mem_cons.mp hr).resolve_left hkey
      · exact hr

/-- `fi` when the third scan is at a path. -/
def infoAt (fi : HashedFile) : List (Str × Str) → Str → HashedFile
  | [], _ => fi
  | (key, value) :: rest, path =>
    let fi' := (loadFileInfo value).getD fi
    if key = path then fi' else infoAt fi' rest path

/-- What the third scan deletes. -/
theorem keepComplete_deletes {usedRoots : Finset TTHValue} {entries : List (Str × Str)}
    {fi : HashedFile} {path : Str} (hnodup : (entries.map Prod.fst).Nodup) :
    path ∈ (scan (keepComplete usedRoots) entries fi).2 ↔
      path ∈ entries.map Prod.fst ∧ (infoAt fi entries path).root ∈ usedRoots := by
  induction entries generalizing fi with
  | nil => simp [scan]
  | cons entry rest ih =>
    obtain ⟨key, value⟩ := entry
    rw [List.map_cons, List.nodup_cons] at hnodup
    have hrest := @ih ((loadFileInfo value).getD fi) hnodup.2
    simp only [scan, infoAt, keepComplete, List.map_cons, List.mem_cons]
    by_cases hkey : key = path
    · subst hkey
      have hlater : key ∉ (scan (keepComplete usedRoots) rest ((loadFileInfo value).getD fi)).2 :=
        fun hmem => hnodup.1 (hrest.mp hmem).1
      by_cases hused : ((loadFileInfo value).getD fi).root ∈ usedRoots
      · simp [hused]
      · simp [hused, hlater]
    · by_cases hused : ((loadFileInfo value).getD fi).root ∈ usedRoots
      · simp [hused, hkey, Ne.symm hkey, hrest]
      · simp [hused, hkey, Ne.symm hkey, hrest]

theorem infoAt_of_mem {entries : List (Str × Str)} {fi fi' : HashedFile} {path value : Str}
    (hnodup : (entries.map Prod.fst).Nodup) (he : (path, value) ∈ entries)
    (hv : loadFileInfo value = some fi') : infoAt fi entries path = fi' := by
  induction entries generalizing fi with
  | nil => cases he
  | cons entry rest ih =>
    obtain ⟨key, v⟩ := entry
    rw [List.map_cons, List.nodup_cons] at hnodup
    obtain heq | he := List.mem_cons.mp he
    · obtain ⟨rfl, rfl⟩ := Prod.mk.inj heq
      rw [infoAt, if_pos rfl, hv]
      rfl
    · have hne : key ≠ path := by
        rintro rfl
        exact hnodup.1 (List.mem_map.mpr ⟨_, he, rfl⟩)
      rw [infoAt, if_neg hne]
      exact ih hnodup.2 he

/-! ## Runs -/

/-- The tree of the file in a record, if it can be read, is there. -/
def HasTree (hashDb : Db TTHValue) (value : Str) : Prop :=
  ∀ fi, loadFileInfo value = some fi → hashDb fi.root ≠ none

/-- Every file has its tree. -/
def Complete (s : Store) : Prop := ∀ path value, s.fileDb path = some value → HasTree s.hashDb value

/-- Nothing has been put since the snapshot but what has been put. -/
def Follows (s : Store) (fileSnapshot : DbSnapshot Str) : Prop :=
  ∀ path value, path ∉ s.putFiles → s.fileDb path = some value →
    (path, value) ∈ fileSnapshot.entries

/-- What is known of the files in each phase. -/
def PhaseOk (s : Store) : Phase → Prop
  | .idle => Complete s
  | .files _ fileSnapshot => Complete s ∧ Follows s fileSnapshot
  | .trees _ fileSnapshot _ => Complete s ∧ Follows s fileSnapshot
  | .used _ fileSnapshot _ usedRoots _ => Complete s ∧ Follows s fileSnapshot ∧
      ∀ path value, path ∉ s.putFiles → s.fileDb path = some value →
        ∃ fi, loadFileInfo value = some fi ∧ fi.root ∈ usedRoots
  | .missing fileSnapshot usedRoots _ => Follows s fileSnapshot ∧
      ∀ path value, s.fileDb path = some value → HasTree s.hashDb value ∨
        path ∉ s.putFiles ∧ ∃ fi, loadFileInfo value = some fi ∧ fi.root ∈ usedRoots

structure Invariant (shared : Str → Bool) (s : Store) : Prop where
  pending_shared : ∀ p ∈ s.pending, shared p.1 = true
  pending_tree : ∀ p ∈ s.pending, p.2.root ∈ s.putTrees
  put_shared : ∀ path ∈ s.putFiles, shared path = true
  put_file : ∀ path ∈ s.putFiles, ∃ fi, s.fileDb path = some (saveFileInfo fi) ∧
    fi.root ∈ s.putTrees
  put_tree : ∀ root ∈ s.putTrees, s.hashDb root ≠ none
  phase : PhaseOk s s.phase

/-- Before any maintenance: every file has its tree, and nothing is being hashed. -/
structure Initial (s : Store) : Prop where
  idle : s.phase = .idle
  pending : s.pending = []
  putFiles : s.putFiles = []
  putTrees : s.putTrees = []
  complete : Complete s

/-- A step of the maintenance that deletes nothing that has been put since it began: the first scan
    no path whose old record could not be read, the second no tree that is unused or was stored
    badly before, the third no path whose old file has lost its tree. -/
def Harmless (h : Hasher TTHValue) (s : Store) : Op → Prop
  | .removeUnshared => ∀ doVerify fileSnapshot hashSnapshot,
      s.phase = .trees doVerify fileSnapshot hashSnapshot →
      ∀ path ∈ s.putFiles, ∀ value, (path, value) ∈ fileSnapshot.entries →
        loadFileInfo value ≠ none
  | .removeUnused isFileQueued => ∀ doVerify fileSnapshot hashSnapshot usedRoots fi,
      s.phase = .used doVerify fileSnapshot hashSnapshot usedRoots fi →
      ∀ root ∈ s.putTrees, ∀ value, (root, value) ∈ hashSnapshot.entries →
        (root ∈ usedRoots ∨ isFileQueued root = true) ∧
          (doVerify = true → treeLoads h value root = true)
  | .removeMissing => ∀ fileSnapshot usedRoots fi, s.phase = .missing fileSnapshot usedRoots fi →
      ∀ path ∈ s.putFiles, path ∈ fileSnapshot.entries.map Prod.fst →
        (infoAt fi fileSnapshot.entries path).root ∉ usedRoots
  | _ => True

/-- What maintenance has to keep: the files their trees, and everything that is put meanwhile. -/
structure NothingLost (s : Store) : Prop where
  complete : s.phase = .idle → Complete s
  files : ∀ path ∈ s.putFiles, s.fileDb path ≠ none
  trees : ∀ root ∈ s.putTrees, s.hashDb root ≠ none

theorem HasTree.mono {hashDb hashDb' : Db TTHValue} {value : Str}
    (hsub : ∀ root, hashDb root ≠ none → hashDb' root ≠ none) (ht : HasTree hashDb value) :
    HasTree hashDb' value := fun fi hfi => hsub _ (ht fi hfi)

theorem put_ne_none {κ : Type} [DecidableEq κ] {db : Db κ} {key key' : κ} {value : Str}
    (hk : db key' ≠ none) : put db key value key' ≠ none := by
  unfold put
  split
  · simp
  · exact hk

theorem put_self {κ : Type} [DecidableEq κ] (db : Db κ) (key : κ) (value : Str) :
    put db key value key = some value := if_pos rfl

theorem put_of_ne {κ : Type} [DecidableEq κ] {db : Db κ} {key key' : κ} {value : Str}
    (hne : key' ≠ key) : put db key value key' = db key' := if_neg hne

/-! ## Hashing -/

theorem addTree_invariant {s : Store} {tt : TigerTree} {path : Str} {fi : HashedFile}
    (hs : Invariant shared s) (hshared : shared path = true) (hroot : fi.root = tt.root) :
    Invariant shared (s.next h shared (.addTree tt path fi)) := by
  have hmono : ∀ root, s.hashDb root ≠ none → addTree s.hashDb tt root ≠ none :=
    fun root hr => put_ne_none hr
  have hcomplete : Complete s → Complete (s.next h shared (.addTree tt path fi)) :=
    fun hc p v hv => (hc p v hv).mono hmono
  constructor
  case pending_shared =>
    intro p hp
    rcases List.mem_cons.mp hp with rfl | hp
    · exact hshared
    · exact hs.pending_shared p hp
  case pending_tree =>
    intro p hp
    rcases List.mem_cons.mp hp with rfl | hp
    · exact List.mem_cons.mpr (Or.inl hroot)
    · exact List.mem_cons_of_mem _ (hs.pending_tree p hp)
  case put_shared => exact hs.put_shared
  case put_file =>
    intro p hp
    obtain ⟨f, hf, hr⟩ := hs.put_file p hp
    exact ⟨f, hf, List.mem_cons_of_mem _ hr⟩
  case put_tree =>
    intro root hr
    rcases List.mem_cons.mp hr with rfl | hr
    · change put s.hashDb tt.root (saveTree tt) tt.root ≠ none
      rw [put_self]
      simp
    · exact hmono root (hs.put_tree root hr)
  case phase =>
    have hp := hs.phase
    change PhaseOk _ s.phase
    cases hphase : s.phase with
    | idle => rw [hphase] at hp; exact hcomplete hp
    | files v F => rw [hphase] at hp; exact ⟨hcomplete hp.1, hp.2⟩
    | trees v F H => rw [hphase] at hp; exact ⟨hcomplete hp.1, hp.2⟩
    | used v F H U f => rw [hphase] at hp; exact ⟨hcomplete hp.1, hp.2⟩
    | missing F U f =>
      rw [hphase] at hp
      exact ⟨hp.1, fun p v hv => (hp.2 p v hv).imp_left fun ht => ht.mono hmono⟩

theorem addFile_invariant {s : Store} {path : Str} {fi : HashedFile} (hs : Invariant shared s)
    (hpending : (path, fi) ∈ s.pending) :
    Invariant shared (s.next h shared (.addFile path fi)) := by
  have hroot := hs.pending_tree _ hpending
  have hput : ∀ p ∈ path :: s.putFiles, ∃ f,
      put s.fileDb path (saveFileInfo fi) p = some (saveFileInfo f) ∧ f.root ∈ s.putTrees := by
    intro p hp
    by_cases hne : p = path
    · subst hne
      exact ⟨fi, put_self _ _ _, hroot⟩
    · rw [put_of_ne hne]
      exact hs.put_file p ((List.mem_cons.mp hp).resolve_left hne)
  -- what has not been put is what it was
  have hold : ∀ p v, p ∉ path :: s.putFiles → put s.fileDb path (saveFileInfo fi) p = some v →
      p ∉ s.putFiles ∧ s.fileDb p = some v := by
    intro p v hp hv
    rw [List.mem_cons, not_or] at hp
    rw [put_of_ne hp.1] at hv
    exact ⟨hp.2, hv⟩
  have hnew : HasTree s.hashDb (saveFileInfo fi) := by
    intro fi' hfi'
    obtain ⟨fi'', hload, heq⟩ := loadFileInfo_saveFileInfo fi
    rw [hload] at hfi'
    obtain rfl := Option.some.inj hfi'
    rw [heq]
    exact hs.put_tree _ hroot
  have hcomplete : Complete s → Complete (s.next h shared (.addFile path fi)) := by
    intro hc p v hv
    change put s.fileDb path (saveFileInfo fi) p = some v at hv
    by_cases hne : p = path
    · subst hne
      rw [put_self] at hv
      obtain rfl := Option.some.inj hv
      exact hnew
    · rw [put_of_ne hne] at hv
      exact hc p v hv
  have hfollows : ∀ F, Follows s F → Follows (s.next h shared (.addFile path fi)) F := by
    intro F hF p v hp hv
    obtain ⟨hp', hv'⟩ := hold p v hp hv
    exact hF p v hp' hv'
  constructor
  case pending_shared => exact fun p hp => hs.pending_shared p (List.mem_of_mem_erase hp)
  case pending_tree => exact fun p hp => hs.pending_tree p (List.mem_of_mem_erase hp)
  case put_shared =>
    intro p hp
    rcases List.mem_cons.mp hp with rfl | hp
    · exact hs.pending_shared _ hpending
    · exact hs.put_shared p hp
  case put_file => exact hput
  case put_tree => exact hs.put_tree
  case phase =>
    have hp := hs.phase
    change PhaseOk _ s.phase
    cases hphase : s.phase with
    | idle => rw [hphase] at hp; exact hcomplete hp
    | files v F => rw [hphase] at hp; exact ⟨hcomplete hp.1, hfollows F hp.2⟩
    | trees v F H => rw [hphase] at hp; exact ⟨hcomplete hp.1, hfollows F hp.2⟩
    | used v F H U f =>
      rw [hphase] at hp
      refine ⟨hcomplete hp.1, hfollows F hp.2.1, ?_⟩
      intro p v' hp' hv
      obtain ⟨hp'', hv'⟩ := hold p v' hp' hv
      exact hp.2.2 p v' hp'' hv'
    | missing F U f =>
      rw [hphase] at hp
      refine ⟨hfollows F hp.1, ?_⟩
      intro p v hv
      change put s.fileDb path (saveFileInfo fi) p = some v at hv
      by_cases hne : p = path
      · subst hne
        rw [put_self] at hv
        obtain rfl := Option.some.inj hv
        exact Or.inl hnew
      · rw [put_of_ne hne] at hv
        refine (hp.2 p v hv).imp_right fun hlost => ⟨?_, hlost.2⟩
        intro hmem
        exact hlost.1 ((List.mem_cons.mp hmem).resolve_left hne)

/-! ## Maintenance -/

theorem takeFileSnapshot_invariant {s : Store} {doVerify : Bool} {fileSnapshot : DbSnapshot Str}
    (hs : Invariant shared s) (hidle : s.phase = .idle) (hshows : fileSnapshot.Shows s.fileDb) :
    Invariant shared (s.next h shared (.takeFileSnapshot doVerify fileSnapshot)) := by
  have hcomplete := hs.phase
  rw [hidle] at hcomplete
  constructor
  case pending_shared => exact hs.pending_shared
  case pending_tree => exact fun p hp => List.mem_map.mpr ⟨p, hp, rfl⟩
  case put_shared => exact fun p hp => absurd hp List.not_mem_nil
  case put_file => exact fun p hp => absurd hp List.not_mem_nil
  case put_tree =>
    intro root hr
    obtain ⟨p, hp, rfl⟩ := List.mem_map.mp hr
    exact hs.put_tree _ (hs.pending_tree p hp)
  case phase => exact ⟨hcomplete, fun p v _ hv => (hshows p v).mpr hv⟩

theorem removeUnshared_invariant {s : Store} {doVerify : Bool} {fileSnapshot : DbSnapshot Str}
    {hashSnapshot : DbSnapshot TTHValue} (hs : Invariant shared s)
    (hphase : s.phase = .trees doVerify fileSnapshot hashSnapshot)
    (hharmless : Harmless h s .removeUnshared) :
    Invariant shared (s.next h shared .removeUnshared) := by
  have hp := hs.phase
  rw [hphase] at hp
  simp only [Store.next, hphase]
  generalize hfound : scan (keepShared shared) fileSnapshot.entries (∅, ⟨default, 0, 0⟩) = found
  have hkept : ∀ path ∈ s.putFiles, path ∉ found.2 := by
    intro path hput hdel
    rw [← hfound] at hdel
    obtain ⟨value, he, hwhy⟩ := keepShared_deletes hdel
    rcases hwhy with hunshared | hbad
    · rw [hs.put_shared path hput] at hunshared
      cases hunshared
    · exact hharmless _ _ _ hphase path hput value he hbad
  have hsub : ∀ path value, deleteAll s.fileDb found.2 path = some value →
      path ∉ found.2 ∧ s.fileDb path = some value := fun path value => deleteAll_eq_some.mp
  constructor
  case pending_shared => exact hs.pending_shared
  case pending_tree => exact hs.pending_tree
  case put_shared => exact hs.put_shared
  case put_file =>
    intro path hput
    obtain ⟨fi, hfile, hroot⟩ := hs.put_file path hput
    exact ⟨fi, deleteAll_eq_some.mpr ⟨hkept path hput, hfile⟩, hroot⟩
  case put_tree => exact hs.put_tree
  case phase =>
    refine ⟨?_, ?_, ?_⟩
    · intro path value hv
      exact hp.1 path value (hsub path value hv).2
    · intro path value hput hv
      exact hp.2 path value hput (hsub path value hv).2
    · intro path value hput hv
      obtain ⟨hdel, hv'⟩ := hsub path value hv
      subst hfound
      exact mem_keepShared (hp.2 path value hput hv') hdel

theorem removeUnused_invariant {s : Store} {doVerify : Bool} {fileSnapshot : DbSnapshot Str}
    {hashSnapshot : DbSnapshot TTHValue} {usedRoots : Finset TTHValue} {fi : HashedFile}
    {queued : TTHValue → Bool} (hs : Invariant shared s)
    (hphase : s.phase = .used doVerify fileSnapshot hashSnapshot usedRoots fi)
    (hharmless : Harmless h s (.removeUnused queued)) :
    Invariant shared (s.next h shared (.removeUnused queued)) := by
  have hp := hs.phase
  rw [hphase] at hp
  obtain ⟨hcomplete, hfollows, hused⟩ := hp
  simp only [Store.next, hphase]
  generalize hfound : scan (keepNeeded h doVerify queued) hashSnapshot.entries usedRoots = found
  have hkept : ∀ root ∈ s.putTrees, root ∉ found.2 := by
    intro root hput hdel
    rw [← hfound] at hdel
    obtain ⟨value, he, hwhy⟩ := keepNeeded_deletes hashSnapshot.nodup hdel
    obtain ⟨hneeded, hgood⟩ := hharmless _ _ _ _ _ hphase root hput value he
    rcases hwhy with ⟨hunused, hunqueued⟩ | ⟨hverify, hbad⟩
    · rcases hneeded with hmem | hqueued
      · exact hunused hmem
      · rw [hunqueued] at hqueued
        cases hqueued
    · rw [hgood hverify] at hbad
      cases hbad
  have htrees : ∀ root ∈ s.putTrees, deleteAll s.hashDb found.2 root ≠ none := by
    intro root hput
    rw [deleteAll_of_notMem (hkept root hput)]
    exact hs.put_tree root hput
  constructor
  case pending_shared => exact hs.pending_shared
  case pending_tree => exact hs.pending_tree
  case put_shared => exact hs.put_shared
  case put_file => exact hs.put_file
  case put_tree => exact htrees
  case phase =>
    refine ⟨hfollows, ?_⟩
    intro path value hv
    by_cases hput : path ∈ s.putFiles
    · left
      obtain ⟨fi₀, hfile, hroot⟩ := hs.put_file path hput
      obtain rfl : saveFileInfo fi₀ = value := Option.some.inj (hfile.symm.trans hv)
      obtain ⟨fi₁, hload, heq⟩ := loadFileInfo_saveFileInfo fi₀
      intro fi₂ hfi₂
      obtain rfl : fi₁ = fi₂ := Option.some.inj (hload.symm.trans hfi₂)
      rw [heq]
      exact htrees _ hroot
    · obtain ⟨fi₀, hload, hroot⟩ := hused path value hput hv
      by_cases hdel : fi₀.root ∈ found.2
      · right
        refine ⟨hput, fi₀, hload, ?_⟩
        subst hfound
        exact keepNeeded_keeps hashSnapshot.nodup hroot hdel
      · left
        intro fi₂ hfi₂
        obtain rfl : fi₀ = fi₂ := Option.some.inj (hload.symm.trans hfi₂)
        change deleteAll s.hashDb found.2 fi₀.root ≠ none
        rw [deleteAll_of_notMem hdel]
        exact hcomplete path value hv fi₀ hload

theorem removeMissing_invariant {s : Store} {fileSnapshot : DbSnapshot Str}
    {usedRoots : Finset TTHValue} {fi : HashedFile} (hs : Invariant shared s)
    (hphase : s.phase = .missing fileSnapshot usedRoots fi)
    (hharmless : Harmless h s .removeMissing) :
    Invariant shared (s.next h shared .removeMissing) := by
  have hp := hs.phase
  rw [hphase] at hp
  obtain ⟨hfollows, hlost⟩ := hp
  simp only [Store.next, hphase]
  by_cases hempty : usedRoots = ∅
  · rw [if_pos hempty]
    refine ⟨hs.pending_shared, hs.pending_tree, hs.put_shared, hs.put_file, hs.put_tree, ?_⟩
    intro path value hv
    refine (hlost path value hv).resolve_right ?_
    rintro ⟨-, fi', -, hmem⟩
    rw [hempty] at hmem
    exact absurd hmem (Finset.notMem_empty _)
  · rw [if_neg hempty]
    have hdeletes : ∀ path, path ∈ (scan (keepComplete usedRoots) fileSnapshot.entries fi).2 ↔
        path ∈ fileSnapshot.entries.map Prod.fst ∧
          (infoAt fi fileSnapshot.entries path).root ∈ usedRoots :=
      fun path => keepComplete_deletes fileSnapshot.nodup
    generalize scan (keepComplete usedRoots) fileSnapshot.entries fi = found at hdeletes
    have hkept : ∀ path ∈ s.putFiles, path ∉ found.2 := by
      intro path hput hdel
      obtain ⟨hmem, hroot⟩ := (hdeletes path).mp hdel
      exact hharmless _ _ _ hphase path hput hmem hroot
    constructor
    case pending_shared => exact hs.pending_shared
    case pending_tree => exact hs.pending_tree
    case put_shared => exact hs.put_shared
    case put_file =>
      intro path hput
      obtain ⟨fi', hfile, hroot⟩ := hs.put_file path hput
      exact ⟨fi', deleteAll_eq_some.mpr ⟨hkept path hput, hfile⟩, hroot⟩
    case put_tree => exact hs.put_tree
    case phase =>
      intro path value hv
      obtain ⟨hdel, hv'⟩ := deleteAll_eq_some.mp hv
      refine (hlost path value hv').resolve_right ?_
      rintro ⟨hput, fi', hload, hroot⟩
      apply hdel
      have he := hfollows path value hput hv'
      rw [hdeletes, infoAt_of_mem fileSnapshot.nodup he hload]
      exact ⟨List.mem_map.mpr ⟨_, he, rfl⟩, hroot⟩

theorem next_invariant {s : Store} {o : Op} (hs : Invariant shared s)
    (ho : s.Allowed h shared o) (hharmless : Harmless h s o) :
    Invariant shared (s.next h shared o) := by
  cases o with
  | addTree tt path fi => exact addTree_invariant hs ho.1 ho.2
  | addFile path fi => exact addFile_invariant hs ho
  | takeFileSnapshot doVerify fileSnapshot => exact takeFileSnapshot_invariant hs ho.1 ho.2
  | takeHashSnapshot hashSnapshot =>
    obtain ⟨⟨doVerify, fileSnapshot, hphase⟩, -⟩ := ho
    have hp := hs.phase
    rw [hphase] at hp
    simp only [Store.next, hphase]
    exact ⟨hs.pending_shared, hs.pending_tree, hs.put_shared, hs.put_file, hs.put_tree, hp⟩
  | removeUnshared =>
    obtain ⟨doVerify, fileSnapshot, hashSnapshot, hphase⟩ := ho
    exact removeUnshared_invariant hs hphase hharmless
  | removeUnused queued =>
    obtain ⟨doVerify, fileSnapshot, hashSnapshot, usedRoots, fi, hphase, -⟩ := ho
    exact removeUnused_invariant hs hphase hharmless
  | removeMissing =>
    obtain ⟨fileSnapshot, usedRoots, fi, hphase⟩ := ho
    exact removeMissing_invariant hs hphase hharmless

theorem initial_invariant {s : Store} (hs : Initial s) : Invariant shared s := by
  obtain ⟨hidle, hpending, hfiles, htrees, hcomplete⟩ := hs
  constructor
  case phase =>
    rw [hidle]
    exact hcomplete
  all_goals simp [hpending, hfiles, htrees]

/-! ## A file that is hashed meanwhile -/

def noFiles : Store := ⟨fun _ => none, fun _ => none, [], .idle, [], []⟩

theorem noFiles_initial : Initial noFiles :=
  ⟨rfl, rfl, rfl, rfl, fun _ _ hv => absurd hv (by simp [noFiles])⟩

def noEntries {κ : Type} : DbSnapshot κ := ⟨[], List.nodup_nil⟩

def smallTree : TigerTree := ⟨0, 1024, [default], default⟩

def smallTreeEntry : DbSnapshot TTHValue :=
    ⟨[(default, saveTree smallTree)], List.nodup_singleton _⟩

theorem smallTreeEntry_shows {db : Db TTHValue} (hdb : db = fun _ => none) :
    smallTreeEntry.Shows (addTree db smallTree) := by
  intro key value
  unfold addTree put
  by_cases hk : key = smallTree.root
  · rw [if_pos hk, hk]
    simp [smallTreeEntry, smallTree, eq_comm]
  · rw [if_neg hk, hdb]
    simpa [smallTreeEntry, smallTree] using fun hc => absurd hc hk

/-- The tree is put before the snapshot of the trees, the file after that of the files. -/
def betweenSnapshots : List Op :=
  [.takeFileSnapshot false noEntries, .addTree smallTree [97] ⟨default, 0, 0⟩,
    .takeHashSnapshot smallTreeEntry, .removeUnshared, .removeUnused fun _ => false,
    .addFile [97] ⟨default, 0, 0⟩, .removeMissing]

/-- It is deleted as unused. -/
theorem not_nothingLost_betweenSnapshots : ¬ ∀ (h : Hasher TTHValue) (shared : Str → Bool)
    (s : Store), Lib.Reaches (maintenance h shared) Initial s → NothingLost s := by
  intro hall
  let h : Hasher TTHValue := ⟨fun _ => default, Vector.toList⟩
  let S := maintenance h fun _ => true
  have hallowed : S.AllowedAlong noFiles betweenSnapshots := by
    refine ⟨⟨rfl, ?_⟩, ⟨rfl, rfl⟩, ⟨⟨_, _, rfl⟩, smallTreeEntry_shows rfl⟩, ⟨_, _, _, rfl⟩,
      ⟨_, _, _, _, _, rfl, ?_⟩, List.mem_cons_self, ⟨_, _, _, rfl⟩, trivial⟩
    · intro key value
      simp [noEntries, noFiles]
    · intro hverify
      cases hverify
  have hlost := (hall h _ _ ((Lib.Reaches.start noFiles_initial).run hallowed)).complete rfl
  exact hlost [97] _ rfl ⟨default, 0, 0⟩ (by decide) rfl

/-- **Maintenance beside hashing.** Over any run of harmless steps nothing that is put meanwhile is
    deleted, and after it every file has its tree. -/
theorem maintenance_keeps {s : Store}
    (hs : Lib.Reaches ((maintenance h shared).restrict (Harmless h)) Initial s) :
    NothingLost s := by
  have hinv : Invariant shared s := by
    refine Lib.Reaches.invariant (I := Invariant shared) (fun s h0 => initial_invariant h0) ?_ hs
    intro s o hs ho
    exact next_invariant hs ho.1 ho.2
  constructor
  case complete =>
    intro hidle
    have hp := hinv.phase
    rw [hidle] at hp
    exact hp
  case files =>
    intro path hput
    obtain ⟨fi, hfile, -⟩ := hinv.put_file path hput
    rw [hfile]
    simp
  case trees => exact hinv.put_tree

theorem maintenance_keeps_afterSnapshots : ∃ s : Store, s.phase = .idle ∧ s.putFiles = [[97]] ∧
    NothingLost s := by
  let h : Hasher TTHValue := ⟨fun _ => default, Vector.toList⟩
  let S := (maintenance h fun _ => true).restrict (Harmless h)
  let ops : List Op := [.takeFileSnapshot false noEntries, .takeHashSnapshot noEntries,
    .addTree smallTree [97] ⟨default, 0, 0⟩, .removeUnshared, .removeUnused fun _ => false,
    .addFile [97] ⟨default, 0, 0⟩, .removeMissing]
  have hallowed : S.AllowedAlong noFiles ops := by
    refine ⟨⟨⟨rfl, ?_⟩, trivial⟩, ⟨⟨⟨_, _, rfl⟩, ?_⟩, trivial⟩, ⟨⟨rfl, rfl⟩, trivial⟩,
      ⟨⟨_, _, _, rfl⟩, ?_⟩, ⟨⟨_, _, _, _, _, rfl, ?_⟩, ?_⟩, ⟨List.mem_cons_self, trivial⟩,
      ⟨⟨_, _, _, rfl⟩, ?_⟩, trivial⟩
    · intro key value
      simp [noEntries, noFiles]
    · intro key value
      simp [noEntries, noFiles, S, maintenance, Lib.System.restrict, Store.next]
    · intro v F H _ path hput
      cases hput
    · intro hverify
      cases hverify
    · intro v F H U fi hphase root hput value he
      cases hphase
      cases he
    · intro F U fi hphase path hput he
      cases hphase
      cases he
  exact ⟨S.run noFiles ops, rfl, rfl,
    maintenance_keeps ((Lib.Reaches.start noFiles_initial).run hallowed)⟩

end HashStore
end Airdcpp
