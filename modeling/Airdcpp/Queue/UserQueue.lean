import Airdcpp.Lib.ListMap
import Airdcpp.Queue.Heap
import Airdcpp.Queue.NextSegment
import Airdcpp.Queue.SortOrders

/-!
# `Queue/UserQueue` — what can be downloaded from whom

The users an item can be downloaded from are written down three times: in the item (`sources`), in
the item's bundle (`userQueue`, by priority and user, and `sources` with the numbers of files), and
in the user queue, which has the bundles of a user and the items that have the highest priority.
`addQI` and `removeQI` put one item into the lists of one user and take it out again, and everything
else that changes the priorities and sources goes through them.

The downloads of an item are not part of its record here, so `removeRunning` has nothing to do. A
random position is drawn where a list has no order: `rand` is what the generator gives for a user.
-/

namespace Airdcpp

open Lib

def isAnySet (flags aFlag : MaskType) : Bool := flags &&& aFlag != 0

theorem Priority.toInt_injective {p p' : Priority} (h : p.toInt = p'.toInt) : p = p' := by
  have hof := ofInt?_toInt p
  rw [h, ofInt?_toInt] at hof
  exact (Option.some.inj hof).symm

/-! ## Users of a bundle -/

namespace Bundle

/-- `find(l, aUser, &BundleSource::getUser)` -/
def findSource (l : List BundleSource) (aUser : UserPtr) : Option BundleSource :=
  l.find? fun s => s.user.user == aUser

def isSource (b : Bundle) (aUser : UserPtr) : Bool := (findSource b.sources aUser).isSome

/-- `(*i).files++` and `(*i).size += aSize`, with some flags set. -/
def countFile (aUser : UserPtr) (aSize : Int) (reason : MaskType) :
    List BundleSource → List BundleSource
  | [] => []
  | i :: l =>
    if i.user.user == aUser then
      { i with files := i.files + 1, size := i.size + aSize, flags := setFlag i.flags reason } :: l
    else i :: countFile aUser aSize reason l

/-- `(*i).files--` and `(*i).size -= aSize`; a source without files is erased. -/
def uncountFile (aUser : UserPtr) (aSize : Int) : List BundleSource → List BundleSource
  | [] => []
  | i :: l =>
    if i.user.user == aUser then
      if i.files - 1 = 0 then l else { i with files := i.files - 1, size := i.size - aSize } :: l
    else i :: uncountFile aUser aSize l

section Queues

variable (locale : Locale) (item : QueueItemPtr → QueueItem)

/-- Where an item goes in the list of a user and a priority. -/
def insertQueued (b : Bundle) (qi : QueueItemPtr) (rand : Nat) (l : List QueueItemPtr) :
    List QueueItemPtr :=
  if l.length ≥ 1 then
    if !b.seqOrder then insertAt (rand % (l.length + 1)) qi l
    else insertAt (upperBound (fun x y => QueueItem.AlphaSortOrder locale (item x) (item y)) qi l) qi l
  else l ++ [qi]

/-- Whether the user is new to the bundle is the second component. -/
def addUserQueue (b : Bundle) (qi : QueueItemPtr) (aUser : HintedUser) (isBad : Bool)
    (rand : Nat) : Bundle × Bool :=
  let p := (item qi).priority
  let b :=
    { b with
      userQueue := Function.update b.userQueue p
        (ListMap.put (b.userQueue p) aUser.user (b.insertQueued locale item qi rand))
      badSources :=
        if isBad then uncountFile aUser.user (item qi).size b.badSources else b.badSources }
  if b.isSource aUser.user then
    ({ b with sources := countFile aUser.user (item qi).size 0 b.sources }, false)
  else
    ({ b with
        sources := b.sources ++
          [BundleSource.ofUser aUser ((item qi).size - (item qi).getDownloadedSegments) 0] }, true)

/-- Another file that the user of a source does not have. -/
def countBad (m : BundleSource) (aSize : Int) (reason : MaskType) (l : List BundleSource) :
    List BundleSource :=
  if (findSource l m.user.user).isSome then countFile m.user.user aSize reason l
  else l ++ [BundleSource.ofUser m.user aSize reason]

/-- Whether the user has left the bundle is the second component. Nothing is behind the end of the
    sources: a user without an entry would be an undefined access. -/
def removeUserQueue (b : Bundle) (qi : QueueItemPtr) (aUser : UserPtr) (reason : MaskType) :
    Bundle × Bool :=
  let p := (item qi).priority
  match b.userQueue p aUser with
  | none => (b, false)
  | some _ =>
    let b :=
      { b with
        userQueue := Function.update b.userQueue p (ListMap.takeOut (b.userQueue p) aUser qi) }
    match findSource b.sources aUser with
    | none => (b, false)
    | some m =>
      ({ b with
          badSources :=
            if reason > 0 then countBad m (item qi).size reason b.badSources else b.badSources
          sources := uncountFile aUser (item qi).size b.sources }, m.files - 1 == 0)

/-- An item that has been tried goes to the end of the user's list. -/
def rotateUserQueue (b : Bundle) (qi : QueueItemPtr) (aUser : UserPtr) : Bundle :=
  let p := (item qi).priority
  match b.userQueue p aUser with
  | none => b
  | some l =>
    if l.length > 1 ∧ qi ∈ l then
      { b with
        userQueue := Function.update b.userQueue p
          (ListMap.put (b.userQueue p) aUser fun l => l.erase qi ++ [qi]) }
    else b

def getSourceUsers (b : Bundle) : List HintedUser := b.sources.map (·.user)

end Queues

/-- Bundles of a higher priority come first, and the oldest of those first. -/
def SortOrder (left right : Bundle) : Bool :=
  if left.priority = right.priority then decide (left.timeAdded < right.timeAdded)
  else decide (left.priority.toInt > right.priority.toInt)

section Order

variable {x y z : Bundle}

theorem sortOrder_iff : SortOrder x y = true ↔
    y.priority.toInt < x.priority.toInt ∨
      x.priority.toInt = y.priority.toInt ∧ x.timeAdded < y.timeAdded := by
  unfold SortOrder
  by_cases h : x.priority = y.priority
  · rw [if_pos h, decide_eq_true_eq, h]
    simp
  · have hne : x.priority.toInt ≠ y.priority.toInt := fun he => h (Priority.toInt_injective he)
    rw [if_neg h, decide_eq_true_eq]
    exact ⟨Or.inl, fun hor => hor.elim id fun he => absurd he.1 hne⟩

theorem SortOrder.asymm (h : SortOrder x y = true) : ¬ SortOrder y x = true := by
  rw [sortOrder_iff] at h ⊢
  omega

/-- What is not behind something that is behind `x` is behind `x` too. -/
theorem SortOrder.of_not (h : SortOrder x y = true) (hz : ¬ SortOrder z y = true) :
    SortOrder x z = true := by
  rw [sortOrder_iff] at h hz ⊢
  omega

end Order

section Specs

variable {locale : Locale} {item : QueueItemPtr → QueueItem} {b : Bundle} {qi : QueueItemPtr}
  {aUser : HintedUser} {isBad : Bool} {rand : Nat} {reason : MaskType} {m : BundleSource}
  {l : List QueueItemPtr}

theorem insertQueued_perm : (b.insertQueued locale item qi rand l).Perm (qi :: l) := by
  unfold insertQueued
  split
  · split
    · exact insertAt_perm
    · exact insertAt_perm
  · exact List.perm_append_singleton _ _

theorem addUserQueue_eq :
    b.addUserQueue locale item qi aUser isBad rand =
      ({ b with
          userQueue := Function.update b.userQueue (item qi).priority
            (ListMap.put (b.userQueue (item qi).priority) aUser.user
              (b.insertQueued locale item qi rand))
          badSources :=
            if isBad then uncountFile aUser.user (item qi).size b.badSources else b.badSources
          sources :=
            if b.isSource aUser.user then countFile aUser.user (item qi).size 0 b.sources
            else b.sources ++
              [BundleSource.ofUser aUser ((item qi).size - (item qi).getDownloadedSegments) 0] },
        !b.isSource aUser.user) := by
  unfold addUserQueue
  have hsame : isSource { b with
      userQueue := Function.update b.userQueue (item qi).priority
        (ListMap.put (b.userQueue (item qi).priority) aUser.user
          (b.insertQueued locale item qi rand))
      badSources :=
        if isBad then uncountFile aUser.user (item qi).size b.badSources else b.badSources }
      aUser.user = b.isSource aUser.user := rfl
  dsimp only
  rw [hsame]
  cases b.isSource aUser.user <;> rfl

theorem addUserQueue_snd :
    (b.addUserQueue locale item qi aUser isBad rand).2 = !b.isSource aUser.user := by
  rw [addUserQueue_eq]

/-- The item is in the list of the user, and the user has an entry. -/
theorem removeUserQueue_eq {v : UserPtr} (hl : b.userQueue (item qi).priority v = some l)
    (hm : findSource b.sources v = some m) :
    b.removeUserQueue item qi v reason =
      ({ b with
          userQueue := Function.update b.userQueue (item qi).priority
            (ListMap.takeOut (b.userQueue (item qi).priority) v qi)
          badSources :=
            if reason > 0 then countBad m (item qi).size reason b.badSources else b.badSources
          sources := uncountFile v (item qi).size b.sources },
        m.files - 1 == 0) := by
  unfold removeUserQueue
  dsimp only
  rw [hl]
  dsimp only
  rw [hm]

end Specs

end Bundle

/-! ## Numbers of files -/

namespace Bundle

/-- The number of files of a user, if it has an entry. -/
def filesOf (l : List BundleSource) (u : UserPtr) : Option Int := (findSource l u).map (·.files)

/-- Every user has one entry, with its number of files, and none when there are no files. -/
structure CountsFiles (l : List BundleSource) (n : UserPtr → Nat) : Prop where
  nodup : (l.map fun i => i.user.user).Nodup
  files : ∀ u, filesOf l u = if n u = 0 then none else some (n u : Int)

variable {l : List BundleSource} {n : UserPtr → Nat} {u v : UserPtr} {aSize : Int}
  {reason : MaskType}

theorem filesOf_cons (i : BundleSource) :
    filesOf (i :: l) u = if i.user.user = u then some i.files else filesOf l u := by
  rw [filesOf, findSource, List.find?_cons]
  by_cases h : i.user.user = u
  · rw [beq_iff_eq.mpr h, if_pos h]
    rfl
  · rw [beq_eq_false_iff_ne.mpr h, if_neg h]
    rfl

theorem isSome_filesOf : (filesOf l u).isSome = (findSource l u).isSome := Option.isSome_map

theorem filesOf_eq_none_iff : filesOf l u = none ↔ u ∉ l.map fun i => i.user.user := by
  induction l with
  | nil => exact iff_of_true rfl List.not_mem_nil
  | cons i l ih =>
    rw [filesOf_cons, List.map_cons, List.mem_cons, not_or, ← ih]
    by_cases h : i.user.user = u
    · rw [if_pos h]
      exact iff_of_false nofun fun hne => hne.1 h.symm
    · rw [if_neg h]
      exact (and_iff_right (Ne.symm h)).symm

theorem map_user_countFile :
    (countFile v aSize reason l).map (fun i => i.user.user) = l.map fun i => i.user.user := by
  induction l with
  | nil => rfl
  | cons i l ih =>
    rw [countFile]
    split
    · rfl
    · rw [List.map_cons, ih, List.map_cons]

theorem filesOf_countFile :
    filesOf (countFile v aSize reason l) u =
      if u = v then (filesOf l u).map (· + 1) else filesOf l u := by
  induction l with
  | nil => rw [countFile]; split <;> rfl
  | cons i l ih =>
    rw [countFile, beq_eq_decide]
    by_cases hi : i.user.user = v
    · rw [if_pos (decide_eq_true hi), filesOf_cons, filesOf_cons]
      by_cases hu : i.user.user = u
      · rw [if_pos hu, if_pos hu, if_pos (hu.symm.trans hi)]
        rfl
      · rw [if_neg hu, if_neg hu, if_neg fun h => hu (hi.trans h.symm)]
    · rw [if_neg (by simpa using hi), filesOf_cons, ih, filesOf_cons]
      by_cases hu : i.user.user = u
      · rw [if_pos hu, if_pos hu, if_neg fun h => hi (hu.trans h)]
      · rw [if_neg hu, if_neg hu]

theorem sublist_uncountFile :
    ((uncountFile v aSize l).map fun i => i.user.user).Sublist (l.map fun i => i.user.user) := by
  induction l with
  | nil => exact List.Sublist.refl _
  | cons i l ih =>
    rw [uncountFile]
    split
    · split
      · exact List.sublist_cons_self _ _
      · exact List.Sublist.refl _
    · rw [List.map_cons, List.map_cons]
      exact ih.cons_cons _

theorem filesOf_uncountFile (hl : (l.map fun i => i.user.user).Nodup) :
    filesOf (uncountFile v aSize l) u =
      if u = v then (filesOf l u).bind fun k => if k - 1 = 0 then none else some (k - 1)
      else filesOf l u := by
  induction l with
  | nil => rw [uncountFile]; split <;> rfl
  | cons i l ih =>
    rw [List.map_cons, List.nodup_cons] at hl
    rw [uncountFile, beq_eq_decide]
    by_cases hi : i.user.user = v
    · rw [if_pos (decide_eq_true hi), filesOf_cons]
      by_cases hu : i.user.user = u
      · rw [if_pos hu, if_pos (hu.symm.trans hi), Option.bind_some]
        split
        · rw [filesOf_eq_none_iff]
          exact hu ▸ hl.1
        · rw [filesOf_cons, if_pos hu]
      · have hne : u ≠ v := fun h => hu (hi.trans h.symm)
        rw [if_neg hu, if_neg hne]
        split
        · rfl
        · rw [filesOf_cons, if_neg hu]
    · rw [if_neg (by simpa using hi), filesOf_cons, ih hl.2, filesOf_cons]
      by_cases hu : i.user.user = u
      · rw [if_pos hu, if_pos hu, if_neg fun h => hi (hu.trans h)]
      · rw [if_neg hu, if_neg hu]

theorem filesOf_concat (i : BundleSource) (hi : filesOf l i.user.user = none) :
    filesOf (l ++ [i]) u = if u = i.user.user then some i.files else filesOf l u := by
  induction l with
  | nil =>
    rw [List.nil_append, filesOf_cons]
    exact if_congr eq_comm rfl rfl
  | cons j l ih =>
    rw [filesOf_cons] at hi
    by_cases hj : j.user.user = i.user.user
    · rw [if_pos hj] at hi
      cases hi
    · rw [if_neg hj] at hi
      rw [List.cons_append, filesOf_cons, ih hi, filesOf_cons]
      by_cases hu : j.user.user = u
      · rw [if_pos hu, if_neg fun h => hj (hu.trans h), if_pos hu]
      · rw [if_neg hu, if_neg hu]

theorem countsFiles_nil : CountsFiles [] fun _ => 0 := ⟨List.nodup_nil, fun _ => rfl⟩

theorem CountsFiles.congr {m : UserPtr → Nat} (h : CountsFiles l n) (hn : ∀ u, m u = n u) :
    CountsFiles l m := ⟨h.nodup, fun u => by rw [h.files, hn]⟩

theorem CountsFiles.isSome_iff (h : CountsFiles l n) : (findSource l u).isSome = true ↔ n u ≠ 0 := by
  rw [← isSome_filesOf, h.files]
  split <;> simp [*]

/-- One more file of a user that is there. -/
theorem CountsFiles.countFile (h : CountsFiles l n) (hv : n v ≠ 0) :
    CountsFiles (countFile v aSize reason l) (Function.update n v (n v + 1)) := by
  refine ⟨by rw [map_user_countFile]; exact h.nodup, fun u => ?_⟩
  rw [filesOf_countFile, h.files]
  by_cases hu : u = v
  · subst hu
    rw [if_pos rfl, if_neg hv, Function.update_self, if_neg (Nat.succ_ne_zero _)]
    rfl
  · rw [if_neg hu, Function.update_of_ne hu]

/-- The first file of a user. -/
theorem CountsFiles.concat (h : CountsFiles l n) {i : BundleSource} (hi : n i.user.user = 0)
    (hfiles : i.files = 1) : CountsFiles (l ++ [i]) (Function.update n i.user.user 1) := by
  have hnone : filesOf l i.user.user = none := by rw [h.files, if_pos hi]
  refine ⟨?_, fun u => ?_⟩
  · rw [List.map_append, List.map_singleton]
    exact List.Nodup.append h.nodup (List.nodup_singleton _)
      (List.disjoint_singleton.mpr (filesOf_eq_none_iff.mp hnone))
  · rw [filesOf_concat i hnone, h.files]
    by_cases hu : u = i.user.user
    · rw [if_pos hu, hu, Function.update_self, hfiles]
      rfl
    · rw [if_neg hu, Function.update_of_ne hu]

/-- One file less. -/
theorem CountsFiles.uncountFile (h : CountsFiles l n) :
    CountsFiles (uncountFile v aSize l) (Function.update n v (n v - 1)) := by
  refine ⟨h.nodup.sublist sublist_uncountFile, fun u => ?_⟩
  rw [filesOf_uncountFile h.nodup, h.files]
  by_cases hu : u = v
  · subst hu
    rw [if_pos rfl, Function.update_self]
    rcases Nat.eq_zero_or_pos (n u) with hz | hpos
    · rw [hz]
      rfl
    · rw [if_neg (Nat.pos_iff_ne_zero.mp hpos), Option.bind_some]
      have hcast : ((n u - 1 : Nat) : Int) = (n u : Int) - 1 := by omega
      by_cases hone : n u - 1 = 0
      · rw [if_pos hone, if_pos (by omega)]
      · rw [if_neg hone, if_neg (by omega), hcast]
  · rw [if_neg hu, Function.update_of_ne hu]

end Bundle

/-! ## The user queue -/

/-- The items and bundles, the items that are in the file queue, the user queue, and the bytes that
    each user has for us (`User::queued`). -/
structure SourceQueues where
  heap : Heap
  fileQueue : List QueueItemPtr
  userBundleQueue : UserPtr → Option (List BundlePtr)
  userPrioQueue : UserPtr → Option (List QueueItemPtr)
  queued : UserPtr → Int

namespace SourceQueues

abbrev item (s : SourceQueues) (q : QueueItemPtr) : QueueItem := s.heap.item q
abbrev bundle (s : SourceQueues) (b : BundlePtr) : Bundle := s.heap.bundle b

def setItem (s : SourceQueues) (q : QueueItemPtr) (v : QueueItem) : SourceQueues :=
  { s with heap := s.heap.setItem q v }

def setBundle (s : SourceQueues) (b : BundlePtr) (v : Bundle) : SourceQueues :=
  { s with heap := s.heap.setBundle b v }

section Updates

variable {s : SourceQueues} {q x : QueueItemPtr} {w : QueueItem} {b c : BundlePtr} {d : Bundle}

@[simp] theorem item_setItem_self : (s.setItem q w).item q = w := Heap.setItem_item_self ..

@[simp] theorem item_setItem_ne (h : x ≠ q) : (s.setItem q w).item x = s.item x :=
  Heap.setItem_item_ne _ _ h

@[simp] theorem bundle_setBundle_self : (s.setBundle b d).bundle b = d :=
  Heap.setBundle_bundle_self ..

@[simp] theorem bundle_setBundle_ne (h : c ≠ b) : (s.setBundle b d).bundle c = s.bundle c :=
  Heap.setBundle_bundle_ne _ _ h

end Updates

def addBundle (s : SourceQueues) (aBundle : BundlePtr) (aUser : UserPtr) : SourceQueues :=
  { s with
    userBundleQueue := ListMap.put s.userBundleQueue aUser fun l =>
      insertAt (upperBound (fun x y => Bundle.SortOrder (s.bundle x) (s.bundle y)) aBundle l)
        aBundle l }

def removeBundle (s : SourceQueues) (aBundle : BundlePtr) (aUser : UserPtr) : SourceQueues :=
  { s with userBundleQueue := ListMap.takeOut s.userBundleQueue aUser aBundle }

variable (locale : Locale) (st : Settings)

/-- The items of the highest priority are kept beside the bundles. -/
def addPrio (s : SourceQueues) (qi : QueueItemPtr) (aUser : UserPtr) : SourceQueues :=
  if (s.item qi).priority = .highest then
    { s with
      userPrioQueue := ListMap.put s.userPrioQueue aUser fun l =>
        insertAt (upperBound (fun x y => QueueItem.SizeSortOrder st (s.item x) (s.item y)) qi l)
          qi l }
  else s

def removePrio (s : SourceQueues) (qi : QueueItemPtr) (aUser : UserPtr) : SourceQueues :=
  if (s.item qi).priority = .highest then
    { s with userPrioQueue := ListMap.takeOut s.userPrioQueue aUser qi }
  else s

/-- `addQI` of one user -/
def addQI (s : SourceQueues) (qi : QueueItemPtr) (aUser : HintedUser) (aIsBadSource : Bool)
    (rand : Nat) : SourceQueues :=
  let s := s.addPrio st qi aUser.user
  match (s.item qi).bundle with
  | none => s
  | some b =>
    let s :=
      { s with
        queued := Function.update s.queued aUser.user (s.queued aUser.user + (s.item qi).size) }
    let r := (s.bundle b).addUserQueue locale s.item qi aUser aIsBadSource rand
    let s := s.setBundle b r.1
    if r.2 then s.addBundle b aUser.user else s

/-- `removeQI` of one user -/
def removeQI (s : SourceQueues) (qi : QueueItemPtr) (aUser : UserPtr) (reason : MaskType) :
    SourceQueues :=
  match (s.item qi).bundle with
  | none => s.removePrio qi aUser
  | some b =>
    if !(s.bundle b).isSource aUser then s
    else
      let s :=
        { s with queued := Function.update s.queued aUser (s.queued aUser - (s.item qi).size) }
      let r := (s.bundle b).removeUserQueue s.item qi aUser reason
      let s := s.setBundle b r.1
      let s := if r.2 then s.removeBundle b aUser else s
      s.removePrio qi aUser

/-- The users of an item. -/
def sourceUsers (q : QueueItem) : List HintedUser := q.sources.map (·.user)

/-- `addQI` of all users -/
def addQIs (s : SourceQueues) (qi : QueueItemPtr) (rand : UserPtr → Nat) : SourceQueues :=
  (sourceUsers (s.item qi)).foldl (fun s u => s.addQI locale st qi u false (rand u.user)) s

/-- `removeQI` of all users -/
def removeQIs (s : SourceQueues) (qi : QueueItemPtr) : SourceQueues :=
  (sourceUsers (s.item qi)).foldl (fun s u => s.removeQI qi u.user 0) s

def setQIPriority (s : SourceQueues) (qi : QueueItemPtr) (p : Priority) (rand : UserPtr → Nat) :
    SourceQueues :=
  let s := s.removeQIs qi
  let s := s.setItem qi { s.item qi with priority := p }
  s.addQIs locale st qi rand

def setBundlePriority (s : SourceQueues) (aBundle : BundlePtr) (p : Priority) : SourceQueues :=
  let sources := (s.bundle aBundle).getSourceUsers
  let s := sources.foldl (fun s u => s.removeBundle aBundle u.user) s
  let s := s.setBundle aBundle { s.bundle aBundle with priority := p }
  sources.foldl (fun s u => s.addBundle aBundle u.user) s

end SourceQueues
end Airdcpp
