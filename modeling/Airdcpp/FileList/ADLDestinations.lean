import Airdcpp.FileList.ADLMatching
import Airdcpp.Util.Folding

/-!
# `FileList/ADLDestinations` — destinations, and changes of the searches

A search begins with a destination for each name that the searches ask for and ends with those that
have got something in the list (`matchListing_spec`). It returns if the names have no null byte, so
that a number makes a name new, and each match returns (`matchListing_isSome`).

`updateCollection` prepares the search that it was given when the collection has its copy already;
the copy matches its pattern only if the search did before (`updateCollection_iff`). `addCollection`
prepares it first.
-/

namespace Airdcpp

open DirectoryListing Lib

namespace ADLSearchManager

variable {ρ : Type} {locale : Locale} {rx : Regex ρ} {c : List (ADLSearch ρ)}
  {m : ADLSearchManager ρ} {l l' : List DestDir} {i : Nat} {name : Str}

open DestDir

/-! ## The destinations -/

/-- A destination as it is made: empty, with a name that the list does not have yet. -/
structure Made (locale : Locale) (root : DirTree) (dd : DestDir) : Prop where
  subdir : dd.subdir = none
  dir : ∃ name, dd.dir = newDir ADC_ROOT_STR name ∧
    NamedAfter (str "<<<" ++ dd.name ++ str ">>>") name ∧
    Util.foldCase locale name ∉ keysOf locale root.children

/-- The destination of a search has the name that the search asks for. -/
def AssignedTo (locale : Locale) (is : ADLSearch ρ) (i : Nat) (dd : DestDir) : Prop :=
  is.getDestDir = [] ∧ i = 0 ∨ dd.name = is.getDestDir ∨
    Util.sameNoCase locale is.getDestDir dd.name = true

theorem addRootDirectory_spec {root : DirTree} (h : addRootDirectory locale name l root = some l') :
    ∃ dd, l' = l ++ [dd] ∧ dd.name = name ∧ Made locale root dd := by
  rw [addRootDirectory] at h
  obtain ⟨⟨v, aParent⟩, hcreate, h⟩ := Option.bind_eq_some_iff.mp h
  obtain ⟨name', hafter, rfl, hfree, -, -⟩ := create_spec hcreate
  obtain rfl := Option.some.inj h
  exact ⟨_, rfl, rfl, ⟨rfl, name', rfl, hafter, hfree⟩⟩

theorem findDestination_spec {root : DirTree} {is : ADLSearch ρ} (hne : l ≠ [])
    (hmade : ∀ dd ∈ l, Made locale root dd)
    (h : findDestination locale is l root = some (i, l')) :
    l <+: l' ∧ (∀ dd ∈ l', Made locale root dd) ∧
      ∃ dd, l'[i]? = some dd ∧ AssignedTo locale is i dd := by
  rw [findDestination] at h
  split at h
  · next hempty =>
    obtain ⟨rfl, rfl⟩ := Prod.mk.inj (Option.some.inj h)
    obtain ⟨dd, l, rfl⟩ := List.exists_cons_of_ne_nil hne
    exact ⟨List.prefix_refl _, hmade, dd, rfl, .inl ⟨List.isEmpty_iff.mp hempty, rfl⟩⟩
  · split at h
    · next j hj =>
      obtain ⟨rfl, rfl⟩ := Prod.mk.inj (Option.some.inj h)
      obtain ⟨hlt, hsame, -⟩ := List.findIdx?_eq_some_iff_getElem.mp hj
      exact ⟨List.prefix_refl _, hmade, _, List.getElem?_eq_getElem hlt, .inr (.inr hsame)⟩
    · obtain ⟨l₁, hl₁, h⟩ := Option.map_eq_some_iff.mp h
      obtain ⟨rfl, rfl⟩ := Prod.mk.inj h
      obtain ⟨dd, rfl, hname, hdd⟩ := addRootDirectory_spec hl₁
      refine ⟨List.prefix_append _ _, ?_, dd, List.getElem?_concat_length, .inr (.inl hname)⟩
      simpa [or_imp, forall_and] using ⟨hmade, hdd⟩

/-- A search with the index of its destination. -/
def Indexed (locale : Locale) (l : List DestDir) (is is' : ADLSearch ρ) : Prop :=
  is' = { is with ddIndex := is'.ddIndex } ∧
    ∃ dd, l[is'.ddIndex]? = some dd ∧ AssignedTo locale is is'.ddIndex dd

theorem prepareSearches_spec {root : DirTree} {c' : List (ADLSearch ρ)} (hne : l ≠ [])
    (hmade : ∀ dd ∈ l, Made locale root dd)
    (h : prepareSearches locale root c l = some (c', l')) :
    l <+: l' ∧ (∀ dd ∈ l', Made locale root dd) ∧ List.Forall₂ (Indexed locale l') c c' := by
  induction c generalizing l c' with
  | nil =>
    obtain ⟨rfl, rfl⟩ := Prod.mk.inj (Option.some.inj h)
    exact ⟨List.prefix_refl _, hmade, .nil⟩
  | cons is c ih =>
    rw [prepareSearches] at h
    obtain ⟨⟨j, l₁⟩, hl₁, h⟩ := Option.bind_eq_some_iff.mp h
    obtain ⟨⟨c₂, l₂⟩, hl₂, h⟩ := Option.bind_eq_some_iff.mp h
    obtain ⟨rfl, rfl⟩ := Prod.mk.inj (Option.some.inj h)
    obtain ⟨hfront, hmade₁, dd, hdd, hassigned⟩ := findDestination_spec hne hmade hl₁
    have hne₁ : l₁ ≠ [] := fun hnil => hne (List.prefix_nil.mp (hnil ▸ hfront))
    obtain ⟨hfront₁, hmade₂, hall⟩ := ih hne₁ hmade₁ hl₂
    refine ⟨hfront.trans hfront₁, hmade₂, .cons ⟨rfl, dd, ?_, hassigned⟩ hall⟩
    obtain ⟨rest, rfl⟩ := hfront₁
    rw [List.getElem?_append_left (List.getElem?_eq_some_iff.mp hdd).1, hdd]

/-- **What is added to the list**: destinations with something in them, whose names are new. -/
structure Finalized (locale : Locale) (dests : List DestDir) (root root' : DirTree)
    (added : List DirTree) : Prop where
  list : root' = root.extend id added
  sublist : added.Sublist ((dests.filter (isAdded locale)).map DestDir.dir)
  nodup : (keysOf locale added).Nodup
  complete : ∀ dd ∈ dests, isAdded locale dd = true →
    Util.foldCase locale dd.dir.getName ∈ keysOf locale added

theorem FinalizeDestinationDirectories_spec {root : DirTree} {dests : List DestDir}
    (hnew : ∀ dd ∈ dests, Util.foldCase locale dd.dir.getName ∉ keysOf locale root.children) :
    ∃ added, Finalized locale dests root (FinalizeDestinationDirectories locale dests root)
      added := by
  induction dests using List.reverseRecOn with
  | nil => exact ⟨[], by simp [FinalizeDestinationDirectories], .slnil, .nil, by simp⟩
  | append_singleton dests dd ih =>
    obtain ⟨added, hroot, hsub, hnodup, hcomplete⟩ :=
      ih fun e he => hnew e (List.mem_append_left _ he)
    have hlast := hnew dd (List.mem_append_right _ List.mem_cons_self)
    rw [FinalizeDestinationDirectories] at hroot
    rw [FinalizeDestinationDirectories, List.foldl_append, List.foldl_cons, List.foldl_nil, hroot]
    have hfilter (b : Bool) (hb : isAdded locale dd = b) :
        ((dests ++ [dd]).filter (isAdded locale)).map DestDir.dir =
          (dests.filter (isAdded locale)).map DestDir.dir ++ if b then [dd.dir] else [] := by
      cases b <;> simp [hb]
    by_cases hadd : isAdded locale dd = true
    · rw [if_pos hadd]
      by_cases hmem : Util.foldCase locale dd.dir.getName ∈ keysOf locale added
      · refine ⟨added, ?_, ?_, hnodup, ?_⟩
        · rw [DirTree.tryEmplace, if_pos]
          rw [contains_eq_true_iff]
          simpa using .inr (by simpa using hmem)
        · rw [hfilter true hadd]
          exact hsub.trans (List.sublist_append_left _ _)
        · simp only [List.mem_append, List.mem_singleton]
          rintro e (he | rfl) hadd'
          · exact hcomplete e he hadd'
          · exact hmem
      · refine ⟨added ++ [dd.dir], ?_, ?_, ?_, ?_⟩
        · rw [tryEmplace_of_new]
          · rw [RoseTree.extend_extend]
            rfl
          · rw [RoseTree.children_extend, keysOf, List.map_append, List.mem_append]
            exact not_or.mpr ⟨hlast, hmem⟩
        · rw [hfilter true hadd]
          exact hsub.append (List.Sublist.refl _)
        · rw [keysOf, List.map_append]
          refine List.nodup_append.mpr ⟨hnodup, List.nodup_singleton _, ?_⟩
          rintro k hk k' hk' rfl
          obtain rfl := List.mem_singleton.mp hk'
          exact hmem hk
        · simp only [List.mem_append, List.mem_singleton, keysOf, List.map_append]
          rintro e (he | rfl) hadd'
          · exact .inl (hcomplete e he hadd')
          · exact .inr List.mem_cons_self
    · rw [if_neg hadd]
      refine ⟨added, rfl, ?_, hnodup, ?_⟩
      · rw [hfilter false (by simpa using hadd)]
        simpa using hsub
      · simp only [List.mem_append, List.mem_singleton]
        rintro e (he | rfl) hadd'
        · exact hcomplete e he hadd'
        · exact absurd hadd' hadd

/-! ## A whole search -/

/-- **What a destination has after a search**: each matched file once, and for each topmost matched
    directory a copy, under a name that no other one has. -/
structure Collected (locale : Locale) (rx : Regex ρ) (c : List (ADLSearch ρ)) (root : DirTree)
    (i : Nat) (dest : DirTree) : Prop where
  files : dest.value.files = matchedFiles locale rx c i root.getName root
  directories : List.Forall₂ CopiedAs (topmost locale rx c i root.getName root) dest.children
  unique : (keysOf locale dest.children).Nodup

/-- What `matchListing` leaves behind: the searches are those of before, with their destinations;
    the destinations have what the searches match; and the list has got some destinations. -/
structure Matched (locale : Locale) (rx : Regex ρ) (m m' : ADLSearchManager ρ)
    (root root' : DirTree)
    (dests : List DestDir) : Prop where
  searches : List.Forall₂ (Indexed locale dests) m.collection m'.collection
  collected : ∀ i dd, dests[i]? = some dd → Collected locale rx m'.collection root i dd.dir
  finalized : ∃ added, Finalized locale dests root root' added

theorem Made.ready {root : DirTree} {dd : DestDir} (h : Made locale root dd) (ds : List DirTree) :
    Ready locale dd ds [] := by
  obtain ⟨hclosed, name, hdir, -, -⟩ := h
  refine ⟨by simp [Inside, hclosed], ?_, List.nodup_nil, fun hopen => absurd hclosed hopen⟩
  rw [DestDir.keys, DestDir.place, hclosed, hdir]
  rfl

/-- The traversal, begun with destinations as they are made. -/
theorem matchRecurse_made {root : DirTree} {dd : DestDir} (hbreak : m.breakOnFirst = false)
    (hdistinct : root.Distinct locale) (hmade : ∀ dd ∈ l, Made locale root dd)
    (h : m.matchRecurse locale rx root.getName root l = some l') (hdd : l'[i]? = some dd) :
    (∃ dd₀, l[i]? = some dd₀ ∧ dd.name = dd₀.name) ∧
      Collected locale rx m.collection root i dd.dir ∧
      Util.foldCase locale dd.dir.getName ∉ keysOf locale root.children := by
  have hi : i < l.length := by
    rw [← matchRecurse_length _ _ _ _ h]
    exact (List.getElem?_eq_some_iff.mp hdd).1
  obtain ⟨hclosed, name, hdir, -, hnew⟩ := hmade l[i] (List.getElem_mem hi)
  have hready := (hmade l[i] (List.getElem_mem hi)).ready root.children
  obtain ⟨dd₂, vs, hdd₂, hgain, hcollects⟩ :=
    matchRecurse_spec hbreak _ root l l' hdistinct h i l[i]
    (List.getElem?_eq_getElem hi) [] hready
  have hup : dd₂.stepUp = dd₂ := by rw [stepUp, hgain.subdir, hclosed]
  obtain rfl : dd = dd₂ := Option.some.inj (hdd.symm.trans (hup ▸ hdd₂))
  rw [Collects, hclosed] at hcollects
  obtain ⟨hcopies, hnodup⟩ : _ ∧ _ := hcollects
  have hfinal := hgain.dir
  rw [hgain.closed hclosed, DestDir.place, hclosed, hdir] at hfinal
  rw [hfinal]
  refine ⟨⟨l[i], List.getElem?_eq_getElem hi, hgain.name⟩, ⟨rfl, ?_, hnodup⟩, hnew⟩
  cases root
  exact hcopies

theorem matchListing_spec {m' : ADLSearchManager ρ} {root root' : DirTree} {dests : List DestDir}
    (hdistinct : root.Distinct locale)
    (h : m.matchListing locale rx false root = some (m', dests, root')) :
    Matched locale rx m m' root root' dests := by
  rw [matchListing] at h
  obtain ⟨⟨m₁, l₁⟩, hprepare, h⟩ := Option.bind_eq_some_iff.mp h
  obtain ⟨l₂, hrecurse, h⟩ := Option.bind_eq_some_iff.mp h
  obtain ⟨rfl, hdests⟩ := Prod.mk.inj (Option.some.inj h)
  obtain ⟨rfl, rfl⟩ := Prod.mk.inj hdests
  rw [PrepareDestinationDirectories] at hprepare
  obtain ⟨l₀, hl₀, hprepare⟩ := Option.bind_eq_some_iff.mp hprepare
  obtain ⟨⟨c', l⟩, hl, hprepare⟩ := Option.bind_eq_some_iff.mp hprepare
  obtain ⟨rfl, rfl⟩ := Prod.mk.inj (Option.some.inj hprepare)
  obtain ⟨dd₀, rfl, -, hdd₀⟩ := addRootDirectory_spec hl₀
  obtain ⟨-, hmade, hindexed⟩ := prepareSearches_spec (by simp) (by simpa using hdd₀) hl
  have hall (j : Nat) (dd : DestDir) (hdd : l₂[j]? = some dd) :=
    matchRecurse_made rfl hdistinct hmade hrecurse hdd
  refine ⟨hindexed.imp ?_, fun j dd hdd => (hall j dd hdd).2.1, ?_⟩
  · rintro is is' ⟨heq, dd, hdd, hassigned⟩
    have hlt : is'.ddIndex < l₂.length := by
      rw [matchRecurse_length _ _ _ _ hrecurse]
      exact (List.getElem?_eq_some_iff.mp hdd).1
    obtain ⟨⟨dd₀, hdd₀, hname⟩, -, -⟩ := hall _ _ (List.getElem?_eq_getElem hlt)
    obtain rfl := Option.some.inj (hdd₀.symm.trans hdd)
    refine ⟨heq, _, List.getElem?_eq_getElem hlt, ?_⟩
    rwa [AssignedTo, hname]
  · refine FinalizeDestinationDirectories_spec fun dd hdd => ?_
    obtain ⟨j, hj⟩ := List.getElem?_of_mem hdd
    exact (hall j dd hj).2.2

/-! ## Searches that return -/

/-- The digits have no other lower case. -/
def DigitsKept (locale : Locale) : Prop :=
  ∀ c : UInt8, (Util.digit? 10 c).isSome → locale.towlower c.toNat = c.toNat

/-- The key of a name with a number. -/
theorem foldCase_numbered (hdigits : DigitsKept locale) (h0 : 0 ∉ name) (num : Nat) :
    Util.foldCase locale (VirtualDirectory.numbered name num) =
      Util.foldCase locale name ++ ((str " (").map fun c => locale.towlower c.toNat) ++
        ((Util.natText num).map fun c => c.toNat) ++
          (str ")").map fun c => locale.towlower c.toNat := by
  have hdigit (c : UInt8) (hc : (Util.digit? 10 c).isSome) : c.toNat < 0x80 ∧ c ≠ 0 := by
    have hall : ∀ c : UInt8, (Util.digit? 10 c).isSome → c.toNat < 0x80 ∧ c ≠ 0 := by decide +kernel
    exact hall c hc
  have htext : ∀ c ∈ str " (" ++ Util.toString num ++ str ")", c.toNat < 0x80 ∧ c ≠ 0 := by
    simp only [List.mem_append]
    rintro c ((hc | hc) | hc)
    · exact (by decide +kernel : ∀ c ∈ str " (", c.toNat < 0x80 ∧ c ≠ 0) c hc
    · exact hdigit c (Util.natText_digit hc)
    · exact (by decide +kernel : ∀ c ∈ str ")", c.toNat < 0x80 ∧ c ≠ 0) c hc
  have hkept : (Util.natText num).map (fun c => locale.towlower c.toNat) =
      (Util.natText num).map fun c => c.toNat :=
    List.map_congr_left fun c hc => hdigits c (Util.natText_digit hc)
  have hsplit : VirtualDirectory.numbered name num =
      name ++ (str " (" ++ Util.toString num ++ str ")") := by
    simp [VirtualDirectory.numbered]
  have hspace : Text.tailBits ((str " (" ++ Util.toString num ++ str ")").getD 0 0) = none := by
    have hhead : (str " (" ++ Util.toString num ++ str ")").getD 0 0 = chr ' ' := rfl
    rw [hhead]
    decide
  rw [hsplit, Util.foldCase_append h0 hspace, Util.foldCase_ascii htext]
  simp only [List.map_append, List.append_assoc]
  rw [show Util.toString num = Util.natText num from rfl, hkept]

theorem numbered_inj (hdigits : DigitsKept locale) (h0 : 0 ∉ name) {a b : Nat}
    (h : Util.foldCase locale (VirtualDirectory.numbered name a) =
      Util.foldCase locale (VirtualDirectory.numbered name b)) : a = b := by
  rw [foldCase_numbered hdigits h0, foldCase_numbered hdigits h0] at h
  have hdigit := List.append_cancel_left (List.append_cancel_right h)
  exact Util.natText_inj (List.map_injective_iff.mpr (fun _ _ => UInt8.toNat.inj) hdigit)

theorem contains_of_freeName {aParent : DirTree} {fuel num : Nat}
    (h : VirtualDirectory.freeName locale aParent name fuel num = none) :
    ∀ j < fuel, aParent.contains locale (VirtualDirectory.numbered name (num + j)) = true := by
  induction fuel generalizing num with
  | zero => simp
  | succ fuel ih =>
    rw [VirtualDirectory.freeName] at h
    split at h
    · next hin =>
      intro j hj
      cases j with
      | zero => exact hin
      | succ j =>
        have hnext := ih h j (Nat.lt_of_succ_lt_succ hj)
        rwa [Nat.add_right_comm] at hnext
    · cases h

/-- **A number makes a name new**, so the loop of `create` ends. -/
theorem uniqueName_isSome (hdigits : DigitsKept locale) (h0 : 0 ∉ name) (aParent : DirTree) :
    (VirtualDirectory.uniqueName locale aParent name).isSome := by
  rw [VirtualDirectory.uniqueName]
  split
  · by_contra hnone
    have hall := contains_of_freeName (Option.not_isSome_iff_eq_none.mp hnone)
    have hnodup : ((List.range (aParent.children.length + 1)).map fun j =>
        Util.foldCase locale (VirtualDirectory.numbered name (1 + j))).Nodup :=
      List.nodup_range.map fun a b hab => Nat.add_left_cancel (numbered_inj hdigits h0 hab)
    have hsub : ((List.range (aParent.children.length + 1)).map fun j =>
        Util.foldCase locale (VirtualDirectory.numbered name (1 + j))) ⊆
          keysOf locale aParent.children := by
      intro k hk
      obtain ⟨j, hj, rfl⟩ := List.mem_map.mp hk
      exact contains_eq_true_iff.mp (hall j (List.mem_range.mp hj))
    have hlen := (List.subperm_of_subset hnodup hsub).length_le
    simp only [List.length_map, List.length_range] at hlen
    omega
  · rfl

theorem createIn_isSome (hdigits : DigitsKept locale) (h0 : 0 ∉ name) {dd : DestDir} {p : Path}
    {aAdcPath : Str} {v : DirTree} (hv : RoseTree.at? (DirTree.nameKey locale) p dd.dir = some v) :
    (dd.createIn locale aAdcPath name p).isSome := by
  obtain ⟨name', hname⟩ := Option.isSome_iff_exists.mp (uniqueName_isSome hdigits h0 v)
  rw [createIn, hv, Option.bind_eq_bind, Option.bind_some, VirtualDirectory.create, hname]
  rfl

/-- The searches have matches that end, and destinations. -/
structure Answers (m : ADLSearchManager ρ) (n : Nat) : Prop where
  ends : ∀ is ∈ m.collection, is.stringMatch.Ends
  index : ∀ is ∈ m.collection, is.ddIndex < n

theorem matchesFile_isSome {is : ADLSearch ρ} (h : is.stringMatch.Ends) (f fp : Str) (size : Int) :
    (is.matchesFile locale rx f fp size).isSome := by
  rw [ADLSearch.matchesFile]
  split
  · rfl
  · split
    · rfl
    · split
      · rfl
      · exact StringMatch.matchStr_isSome h f
      · exact StringMatch.matchStr_isSome h fp

theorem matchesDirectory_isSome {is : ADLSearch ρ} (h : is.stringMatch.Ends) (d : Str) :
    (is.matchesDirectory locale rx d).isSome := by
  rw [ADLSearch.matchesDirectory]
  split
  · rfl
  · split
    · rfl
    · exact StringMatch.matchStr_isSome h d

theorem matchFileSearches_isSome {b : Bool} {f : File} {nmdcPath : Str}
    (hends : ∀ is ∈ c, is.stringMatch.Ends) (hindex : ∀ is ∈ c, is.ddIndex < l.length) :
    (matchFileSearches locale rx b f nmdcPath c l).isSome := by
  induction c generalizing l with
  | nil => rfl
  | cons is c ih =>
    have hindex' (l' : List DestDir) (hlen : l'.length = l.length) : ∀ is ∈ c,
        is.ddIndex < l'.length :=
      fun j hj => hlen ▸ hindex j (List.mem_cons_of_mem _ hj)
    have ih (l' : List DestDir) (hlen : l'.length = l.length) :=
      ih (fun j hj => hends j (List.mem_cons_of_mem _ hj)) (hindex' l' hlen)
    obtain ⟨found, hfound⟩ := Option.isSome_iff_exists.mp
      (@matchesFile_isSome _ locale rx is (hends is List.mem_cons_self) f.name nmdcPath f.size)
    rw [matchFileSearches, List.getElem?_eq_getElem (hindex is List.mem_cons_self), hfound]
    simp only [Option.bind_eq_bind, Option.bind_some]
    split
    · exact ih l rfl
    · split
      · split
        · rfl
        · exact ih _ (List.length_set ..)
      · exact ih l rfl

theorem matchDirectorySearches_isSome {b : Bool} {aAdcPath : Str} (hdigits : DigitsKept locale)
    (h0 : 0 ∉ name) (hends : ∀ is ∈ c, is.stringMatch.Ends)
    (hindex : ∀ is ∈ c, is.ddIndex < l.length) :
    (matchDirectorySearches locale rx b aAdcPath name c l).isSome := by
  induction c generalizing l with
  | nil => rfl
  | cons is c ih =>
    have hindex' (l' : List DestDir) (hlen : l'.length = l.length) : ∀ is ∈ c,
        is.ddIndex < l'.length :=
      fun j hj => hlen ▸ hindex j (List.mem_cons_of_mem _ hj)
    have ih (l' : List DestDir) (hlen : l'.length = l.length) :=
      ih (fun j hj => hends j (List.mem_cons_of_mem _ hj)) (hindex' l' hlen)
    have hlt := hindex is List.mem_cons_self
    obtain ⟨found, hfound⟩ := Option.isSome_iff_exists.mp
      (@matchesDirectory_isSome _ locale rx is (hends is List.mem_cons_self) name)
    obtain ⟨id', hid'⟩ := Option.isSome_iff_exists.mp (@createIn_isSome locale name hdigits h0
      l[is.ddIndex] [] aAdcPath l[is.ddIndex].dir rfl)
    rw [matchDirectorySearches, List.getElem?_eq_getElem hlt, hfound]
    simp only [Option.bind_eq_bind, Option.bind_some]
    split
    · exact ih l rfl
    · split
      · rw [hid', Option.bind_some]
        split
        · rfl
        · exact ih _ (List.length_set ..)
      · exact ih l rfl

theorem MatchesDirectory_isSome {aAdcPath : Str} (hdigits : DigitsKept locale) (h0 : 0 ∉ name)
    (hanswers : m.Answers l.length) (hkeys : ∀ dd ∈ l, dd.keys locale ≠ none) :
    (m.MatchesDirectory locale rx l name aAdcPath).isSome := by
  have hfirst : (l.mapM (createInSubdir locale aAdcPath name)).isSome := by
    refine Lib.isSome_mapM fun dd hdd => ?_
    rw [createInSubdir]
    cases hs : dd.subdir with
    | none => rfl
    | some p =>
      obtain ⟨ks, hks⟩ := Option.ne_none_iff_exists'.mp (hkeys dd hdd)
      rw [DestDir.keys, DestDir.place, hs] at hks
      obtain ⟨v, hv, -⟩ := Option.map_eq_some_iff.mp hks
      exact createIn_isSome hdigits h0 hv
  obtain ⟨l₁, hl₁⟩ := Option.isSome_iff_exists.mp hfirst
  have hlen := (Lib.forall₂_of_mapM hl₁).length_eq
  rw [MatchesDirectory, hl₁, Option.bind_eq_bind, Option.bind_some]
  split
  · rfl
  · exact matchDirectorySearches_isSome hdigits h0 hanswers.ends fun is his =>
      hlen ▸ hanswers.index is his

theorem foldlM_isSome {files : List File} {aAdcPath : Str} (hanswers : m.Answers l.length) :
    (files.foldlM (fun l file => m.MatchesFile locale rx l file aAdcPath) l).isSome := by
  induction files generalizing l with
  | nil => rfl
  | cons f files ih =>
    have hfirst : (m.MatchesFile locale rx l f aAdcPath).isSome := by
      rw [MatchesFile]
      dsimp only
      split
      · rfl
      · exact matchFileSearches_isSome hanswers.ends fun is his => by
          rw [List.length_map]
          exact hanswers.index is his
    obtain ⟨l₁, hl₁⟩ := Option.isSome_iff_exists.mp hfirst
    rw [List.foldlM_cons, hl₁]
    exact ih (MatchesFile_length hl₁ ▸ hanswers)

/-- No directory below the root has a name with a null byte. -/
inductive NulFree : DirTree → Prop
  | intro {t : DirTree} (names : ∀ d ∈ t.children, 0 ∉ DirTree.getName d)
      (sub : ∀ d ∈ t.children, NulFree d) : NulFree t

/-- In front of what is in a subdirectory the destinations are ready for it. -/
theorem ready_of_entered {dd dd₁ : DestDir} {d : DirTree} {ds : List DirTree} {ks : List (List Nat)}
    {aAdcPath : Str} (hd : d.Distinct locale) (hready : Ready locale dd (d :: ds) ks)
    (h : Entered locale rx c i aAdcPath d.getName dd dd₁) : ∃ ks,
    Ready locale dd₁ d.children ks := by
  rw [Entered] at h
  split at h
  · exact ⟨[], ready_of_createIn hd h⟩
  · next henter =>
    have hs : dd.subdir = none := by
      simp only [Bool.or_eq_true, not_or] at henter
      simpa using henter.1
    rw [h]
    exact ⟨ks, hready.inside, hready.keys, hready.nodup, fun hopen => absurd hs hopen⟩

mutual

/-- **The traversal ends.** -/
theorem matchRecurse_isSome (hbreak : m.breakOnFirst = false) (hdigits : DigitsKept locale)
    (aAdcPath : Str) : ∀ (t : DirTree) (l : List DestDir), t.Distinct locale → NulFree t →
      m.Answers l.length →
      (∀ (i : Nat) (dd : DestDir), l[i]? = some dd → ∃ ks, Ready locale dd t.children ks) →
      (m.matchRecurse locale rx aAdcPath t l).isSome
  | .node a directories, l, hdistinct, hnul, hanswers, hready => by
    have hsub : ∀ d ∈ directories, DirTree.Distinct locale d := by
      cases hdistinct with
      | intro names sub => exact sub
    have hnul : ∀ d ∈ directories, 0 ∉ DirTree.getName d ∧ NulFree d := by
      cases hnul with
      | intro names sub => exact fun d hd => ⟨names d hd, sub d hd⟩
    obtain ⟨l₁, hl₁⟩ := Option.isSome_iff_exists.mp
      (matchSubdirectories_isSome hbreak hdigits aAdcPath directories l hsub hnul hanswers hready)
    have hlen := matchSubdirectories_length _ _ _ _ hl₁
    obtain ⟨l₂, hl₂⟩ := Option.isSome_iff_exists.mp
      (@foldlM_isSome _ locale rx m l₁ a.files aAdcPath (hlen ▸ hanswers))
    rw [matchRecurse, hl₁, Option.bind_eq_bind, Option.bind_some, hl₂]
    rfl

theorem matchSubdirectories_isSome (hbreak : m.breakOnFirst = false) (hdigits : DigitsKept locale)
    (aAdcPath : Str) : ∀ (directories : List DirTree) (l : List DestDir),
      (∀ d ∈ directories, DirTree.Distinct locale d) →
      (∀ d ∈ directories, 0 ∉ d.getName ∧ NulFree d) → m.Answers l.length →
      (∀ (i : Nat) (dd : DestDir), l[i]? = some dd → ∃ ks, Ready locale dd directories ks) →
      (m.matchSubdirectories locale rx aAdcPath directories l).isSome
  | [], l, _, _, _, _ => rfl
  | d :: directories, l, hsub, hnul, hanswers, hready => by
    have hd := hsub d List.mem_cons_self
    have hkeys : ∀ dd ∈ l, dd.keys locale ≠ none := by
      intro dd hdd
      obtain ⟨i, hi⟩ := List.getElem?_of_mem hdd
      obtain ⟨ks, hks⟩ := hready i dd hi
      simp [hks.keys]
    obtain ⟨l₁, hl₁⟩ := Option.isSome_iff_exists.mp
      (@MatchesDirectory_isSome _ locale rx m l d.getName
        (joinAdcDirectory aAdcPath d.getName) hdigits
        (hnul d List.mem_cons_self).1 hanswers hkeys)
    have hlen₁ := MatchesDirectory_length hl₁
    have hentered (i : Nat) (dd₁ : DestDir) (hdd₁ : l₁[i]? = some dd₁) : ∃ dd ks, l[i]? = some dd ∧
        Ready locale dd (d :: directories) ks ∧ Entered locale rx m.collection i
          (joinAdcDirectory aAdcPath d.getName) d.getName dd dd₁ := by
      have hi : i < l.length := hlen₁ ▸ (List.getElem?_eq_some_iff.mp hdd₁).1
      have hget := List.getElem?_eq_getElem hi
      obtain ⟨ks, hks⟩ := hready i _ hget
      obtain ⟨dd₂, hdd₂, hspec⟩ := MatchesDirectory_spec hbreak hl₁ hget
      obtain rfl := Option.some.inj (hdd₁.symm.trans hdd₂)
      exact ⟨_, ks, hget, hks, hspec⟩
    obtain ⟨l₂, hl₂⟩ := Option.isSome_iff_exists.mp
      (matchRecurse_isSome hbreak hdigits (joinAdcDirectory aAdcPath d.getName) d l₁ hd
        (hnul d List.mem_cons_self).2 (hlen₁ ▸ hanswers) fun i dd₁ hdd₁ => by
          obtain ⟨dd, ks, -, hks, hspec⟩ := hentered i dd₁ hdd₁
          exact ready_of_entered hd hks hspec)
    have hlen₂ := matchRecurse_length _ _ _ _ hl₂
    rw [matchSubdirectories]
    simp only [hl₁, hl₂, Option.bind_eq_bind, Option.bind_some]
    refine matchSubdirectories_isSome hbreak hdigits aAdcPath directories l₂
      (fun e he => hsub e (List.mem_cons_of_mem _ he))
      (fun e he => hnul e (List.mem_cons_of_mem _ he)) ((hlen₂.trans hlen₁) ▸ hanswers) ?_
    intro i dd₃ hdd₃
    have hi : i < l₁.length := hlen₂ ▸ (List.getElem?_eq_some_iff.mp hdd₃).1
    obtain ⟨dd, ks, -, hks, hspec⟩ := hentered i _ (List.getElem?_eq_getElem hi)
    obtain ⟨dd', vs, hdd', -, hready', -⟩ :=
      gains_subdirectory (P := fun dd => l₂[i]? = some dd) hd hks hspec fun ks' hready₁ =>
        matchRecurse_spec hbreak _ d l₁ l₂ hd hl₂ i _ (List.getElem?_eq_getElem hi) ks' hready₁
    obtain rfl := Option.some.inj (hdd₃.symm.trans hdd')
    exact ⟨_, hready'⟩

end

theorem addRootDirectory_isSome (hdigits : DigitsKept locale) (h0 : 0 ∉ name) (root : DirTree) :
    (addRootDirectory locale name l root).isSome := by
  have hname : 0 ∉ str "<<<" ++ name ++ str ">>>" := by
    simp only [List.mem_append, not_or]
    exact ⟨⟨by decide, h0⟩, by decide⟩
  obtain ⟨name', hname'⟩ := Option.isSome_iff_exists.mp (uniqueName_isSome hdigits hname root)
  rw [addRootDirectory, VirtualDirectory.create, hname']
  rfl

theorem prepareSearches_isSome (hdigits : DigitsKept locale) {root : DirTree}
    (h0 : ∀ is ∈ c, 0 ∉ is.getDestDir) : (prepareSearches locale root c l).isSome := by
  induction c generalizing l with
  | nil => rfl
  | cons is c ih =>
    have hfind : (findDestination locale is l root).isSome := by
      rw [findDestination]
      split
      · rfl
      · split
        · rfl
        · rw [Option.isSome_map]
          exact addRootDirectory_isSome hdigits (h0 is List.mem_cons_self) root
    obtain ⟨⟨j, l₁⟩, hl₁⟩ := Option.isSome_iff_exists.mp hfind
    obtain ⟨⟨c', l₂⟩, hl₂⟩ := Option.isSome_iff_exists.mp
      (@ih l₁ fun is his => h0 is (List.mem_cons_of_mem _ his))
    simp only [prepareSearches, hl₁, Option.bind_eq_bind, Option.bind_some, hl₂]
    rfl

/-- What a search needs in order to return: names that are text, and matches that end. -/
structure CanMatch (locale : Locale) (m : ADLSearchManager ρ) (root : DirTree) : Prop where
  digits : DigitsKept locale
  names : NulFree root
  destDirs : ∀ is ∈ m.collection, 0 ∉ is.getDestDir
  ends : ∀ is ∈ m.collection, is.stringMatch.Ends

/-- **A search returns.** -/
theorem matchListing_isSome {root : DirTree} (hdistinct : root.Distinct locale)
    (h : m.CanMatch locale root) : (m.matchListing locale rx false root).isSome := by
  obtain ⟨l₀, hl₀⟩ := Option.isSome_iff_exists.mp
    (@addRootDirectory_isSome locale [] (str "ADLSearch") h.digits (by decide) root)
  obtain ⟨⟨c', l⟩, hl⟩ := Option.isSome_iff_exists.mp
    (@prepareSearches_isSome _ locale m.collection l₀ h.digits root h.destDirs)
  obtain ⟨dd₀, rfl, -, hdd₀⟩ := addRootDirectory_spec hl₀
  obtain ⟨-, hmade, hindexed⟩ := prepareSearches_spec (by simp) (by simpa using hdd₀) hl
  have hanswers : ({ m with collection := c', breakOnFirst := false } : ADLSearchManager ρ).Answers
      l.length := by
    have hsearch : ∀ is' ∈ c', ∃ is ∈ m.collection, Indexed locale l is is' := by
      intro is' his'
      obtain ⟨j, hj, rfl⟩ := List.getElem_of_mem his'
      obtain ⟨hlen, hall⟩ := List.forall₂_iff_get.mp hindexed
      exact ⟨_, List.getElem_mem (hlen ▸ hj), hall j (hlen ▸ hj) hj⟩
    constructor
    · intro is' his'
      obtain ⟨is, his, heq, -⟩ := hsearch is' his'
      rw [heq]
      exact h.ends is his
    · intro is' his'
      obtain ⟨is, -, -, dd, hdd, -⟩ := hsearch is' his'
      exact (List.getElem?_eq_some_iff.mp hdd).1
  have hready (j : Nat) (dd : DestDir) (hdd : l[j]? = some dd) :
      ∃ ks, Ready locale dd root.children ks :=
    ⟨[], (hmade dd (List.mem_of_getElem? hdd)).ready root.children⟩
  have hrun :
      (({ m with collection := c', breakOnFirst := false } : ADLSearchManager ρ).matchRecurse
      locale rx root.getName root l).isSome :=
    matchRecurse_isSome rfl h.digits root.getName root l hdistinct h.names hanswers hready
  obtain ⟨l', hl'⟩ := Option.isSome_iff_exists.mp hrun
  simp only [matchListing, PrepareDestinationDirectories, hl₀, hl, hl', Option.bind_eq_bind,
    Option.bind_some, Option.pure_def, Option.isSome_some]

/-! ## Changing the searches -/

/-- Every search of the collection matches what is made of its pattern. -/
def AllPrepared (locale : Locale) (rx : Regex ρ) (m : ADLSearchManager ρ) : Prop :=
  ∀ is ∈ m.collection, is.stringMatch.MatchesPattern locale rx

/-- **`updateCollection` puts the search into the collection as it is**: every entry matches its
    pattern afterwards if nothing is changed, because a matching runs, or the search matches its
    pattern already. -/
theorem updateCollection_iff {m' : ADLSearchManager ρ} {search search' : ADLSearch ρ} {index : Nat}
    {ok : Bool} (h : m.AllPrepared locale rx)
    (hupdate : m.updateCollection locale rx search index = some (ok, m', search')) :
    m'.AllPrepared locale rx ↔ 0 < m.running ∨ search.stringMatch.MatchesPattern locale rx := by
  rw [updateCollection] at hupdate
  split at hupdate
  · next hrunning =>
    obtain ⟨-, heq⟩ := Prod.mk.inj (Option.some.inj hupdate)
    obtain ⟨rfl, -⟩ := Prod.mk.inj heq
    exact iff_of_true h (.inl hrunning)
  · next hrunning =>
    split at hupdate
    · next hindex =>
      obtain ⟨-, heq⟩ := Prod.mk.inj (Option.some.inj hupdate)
      obtain ⟨rfl, -⟩ := Prod.mk.inj heq
      rw [or_iff_right hrunning]
      constructor
      · intro hall
        exact hall search (List.mem_set hindex search)
      · intro hsearch is his
        rcases List.mem_or_eq_of_mem_set his with his | rfl
        · exact h is his
        · exact hsearch
    · cases hupdate

/-- No letter has another case. -/
def caseless : Locale where
  towlower c := c
  convert s _ := s

/-- No pattern is a regular expression. -/
def noRegex : Regex Unit where
  assign _ _ := none
  search _ _ := false

/-- A search for directories or files with a word in their names, as it is made. -/
def wordSearch (sourceType : ADLSearch.SourceType) (word : String) : ADLSearch Unit where
  sourceType := sourceType
  stringMatch := { pattern := str word, search := .stringSearch {} }

/-- A collection with a directory search. -/
def oneSearch : ADLSearchManager Unit where
  collection := [(wordSearch .onlyDirectory "b").prepare caseless noRegex]

/-- A list with a directory in a directory. -/
def nestedList : DirTree :=
  .node ⟨str "/", .normal, [], []⟩
    [.node ⟨str "a", .normal, [], []⟩ [.node ⟨str "b", .normal, [], []⟩ []]]

end ADLSearchManager
end Airdcpp
