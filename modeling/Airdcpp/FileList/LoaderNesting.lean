import Airdcpp.FileList.PartialLists

/-!
# `FileList/LoaderNesting` — where the loader of a list ends

The callbacks of a document are nested: every end tag is that of the innermost open element
(`opened`). `ListLoader` has no stack of its own. It goes down with a `Directory` start tag and up
with an end tag of that name, as long as the listing is open, and any `FileListing` end tag closes
the listing, also that of an element inside of it whose start tag did nothing.

So `cur` is never null and never above the directory where the listing began: as long as the listing
is open, the element that opened it is too, and so is a `Directory` element for each that the loader
went down into after it (`Within`). But a `Directory` element that contains a `FileListing` element
is closed when the listing is not open any more, and the loader never comes up again. `unclosed`
counts those on the tags, and it is zero exactly for the documents that leave the loader at the
directory it began in (`staysInBase`).
-/

namespace Airdcpp

open DirectoryListing
open SimpleXMLReader (Result)

namespace ListLoader

variable (locale : Locale)

/-- The callbacks one after another, as long as none throws. -/
def feed (l : ListLoader) : List Event → Outcome
  | [] => some (.ok l)
  | e :: es =>
    match l.callBack locale e with
    | some (.ok l') => feed l' es
    | x => x

/-- The open elements after some callbacks, the innermost first; `none` when an end tag is not that
    of the innermost element. -/
def opened : (stack : List Str) → List Event → Option (List Str)
  | stack, [] => some stack
  | stack, .startTag name _ simple :: es => opened (if simple then stack else name :: stack) es
  | stack, .data _ :: es => opened stack es
  | top :: stack, .endTag name :: es => if top = name then opened stack es else none
  | [], .endTag _ :: _ => none

/-- Whether the listing is open, and how many `Directory` elements have been opened and not closed
    while it was. -/
def count (updating : Bool) : Bool × Nat → Event → Bool × Nat
  | (on, n), .startTag name _ simple =>
    if on then (true, if name = str "Directory" ∧ simple = false then n + 1 else n)
    else if name = str "FileListing" then (!simple, if updating then 0 else n)
    else (false, n)
  | s, .data _ => s
  | (on, n), .endTag name =>
    if on then
      if name = str "Directory" then (true, n - 1)
      else if name = str "FileListing" then (false, n)
      else (true, n)
    else (false, n)

/-- The `Directory` elements between the tags of a `FileListing` element that are not closed in
    it. -/
def unclosed (updating : Bool) (inner : List Event) : Nat :=
  (inner.foldl (count updating) (true, 0)).2

theorem count_endListing (updating : Bool) (state : Bool × Nat) :
    (count updating state (.endTag (str "FileListing"))).2 = state.2 := by
  have hne : str "FileListing" ≠ str "Directory" := by decide
  obtain ⟨on, n⟩ := state
  cases on <;> simp [count, hne]

/-! ## Runs of callbacks -/

section
variable {locale}

theorem feed_append {l : ListLoader} {es es' : List Event} :
    l.feed locale (es ++ es') =
      match l.feed locale es with
      | some (.ok l') => l'.feed locale es'
      | x => x := by
  induction es generalizing l with
  | nil => rfl
  | cons e es ih =>
    simp only [List.cons_append, feed]
    cases h : l.callBack locale e with
    | none => rfl
    | some r =>
      cases r with
      | error e' => rfl
      | ok l' => exact ih

theorem feed_append_ok {l l' : ListLoader} {es es' : List Event}
    (h : l.feed locale es = some (.ok l')) : l.feed locale (es ++ es') = l'.feed locale es' := by
  rw [feed_append, h]

theorem opened_append {stack : List Str} {es es' : List Event} :
    opened stack (es ++ es') = (opened stack es).bind fun stack' => opened stack' es' := by
  induction es generalizing stack with
  | nil => rfl
  | cons e es ih =>
    cases e with
    | startTag name attribs simple => exact ih
    | data d => exact ih
    | endTag name =>
      cases stack with
      | nil => rfl
      | cons top stack =>
        simp only [List.cons_append, opened]
        split_ifs
        · exact ih
        · rfl

/-- More open elements below do not matter. -/
theorem opened_below {stack stack' rest : List Str} {es : List Event}
    (h : opened stack es = some stack') : opened (stack ++ rest) es = some (stack' ++ rest) := by
  induction es generalizing stack with
  | nil =>
    cases h
    rfl
  | cons e es ih =>
    cases e with
    | startTag name attribs simple =>
      rw [opened] at h ⊢
      have := ih h
      cases simple <;> simpa using this
    | data d => exact ih h
    | endTag name =>
      cases stack with
      | nil => cases h
      | cons top stack =>
        simp only [List.cons_append, opened] at h ⊢
        split_ifs at h ⊢
        exact ih h

end

/-! ## What a callback does to the position -/

/-- No null pointer is used, and the loader that goes on is as told. -/
def Leads (P : ListLoader → Prop) : Outcome → Prop
  | none => False
  | some (.error _) => True
  | some (.ok l) => P l

theorem Leads.mono {P Q : ListLoader → Prop} (h : ∀ l, P l → Q l) {o : Outcome} (ho : Leads P o) :
    Leads Q o := by
  cases o with
  | none => exact ho
  | some r =>
    cases r with
    | error e => trivial
    | ok l => exact h l ho

/-- The loader is in another directory, and the listing open or not; the rest stays. -/
structure Moved (l : ListLoader) (cur : Path) (inListing : Bool) (l' : ListLoader) : Prop where
  cur : l'.cur = some cur
  listing : l'.inListing = inListing
  updating : l'.updating = l.updating
  base : l'.base = l.base

section
variable {locale} {l : ListLoader} {c : Path}

theorem Moved.refl (hcur : l.cur = some c) : Moved l c l.inListing l := ⟨hcur, rfl, rfl, rfl⟩

theorem Moved.trans {l' l'' : ListLoader} {c' c'' : Path} {b b' : Bool} (h : Moved l c' b l')
    (h' : Moved l' c'' b' l'') : Moved l c'' b' l'' :=
  ⟨h'.cur, h'.listing, h'.updating.trans h.updating, h'.base.trans h.base⟩

theorem loadFile_moves (hcur : l.cur = some c) (attribs : List (Str × Str)) :
    Leads (Moved l c l.inListing) (l.loadFile attribs) := by
  simp only [loadFile]
  cases validateName (getAttrib attribs (str "Name") 0) with
  | error e => trivial
  | ok u =>
    simp only [hcur]
    split_ifs
    · exact Moved.refl hcur
    · exact Moved.refl hcur
    · exact ⟨rfl, rfl, rfl, rfl⟩

theorem loadDirectory_moves (hcur : l.cur = some c) (attribs : List (Str × Str)) :
    Leads (fun l' => ∃ key, Moved l (c ++ [key]) l.inListing l')
      (l.loadDirectory locale attribs) := by
  simp only [loadDirectory]
  cases validateName (getAttrib attribs (str "Name") 0) with
  | error e => trivial
  | ok u =>
    simp only [hcur, Option.bind_eq_bind, Option.bind_some]
    cases l.list (c ++ [Util.foldCase locale (getAttrib attribs (str "Name") 0)]) with
    | none => exact ⟨_, rfl, rfl, rfl, rfl⟩
    | some d =>
      by_cases hupdating : l.updating = true
      · simp only [if_pos hupdating]
        exact ⟨_, rfl, rfl, rfl, rfl⟩
      · simp only [if_neg hupdating]
        trivial

theorem createBase_path (names : List Str) (dirs : Directories) (cur : Path) :
    (createBase locale cur names dirs).1 = cur ++ names.map (Util.foldCase locale) := by
  induction names generalizing dirs cur with
  | nil => simp [createBase]
  | cons name names ih =>
    simp only [createBase]
    split_ifs <;> simp [ih]

theorem loadListing_moves (hcur : l.cur = some c) (attribs : List (Str × Str)) :
    Leads (Moved l (if l.updating then basePath locale l.base else c) true)
      (some (l.loadListing locale attribs)) := by
  simp only [loadListing]
  by_cases hupdating : l.updating = true
  · simp only [if_pos hupdating]
    split_ifs
    · refine ⟨?_, rfl, rfl, rfl⟩
      simp only [createBaseDirectory, createBase_path, basePath, List.nil_append]
    · trivial
  · simp only [if_neg hupdating]
    exact ⟨hcur, rfl, rfl, rfl⟩

theorem endTag_closed (hin : l.inListing = false) (name : Str) :
    l.endTag name = some (.ok l) := by simp [endTag, hin]

theorem endTag_other (hin : l.inListing = true) {name : Str} (hdir : name ≠ str "Directory")
    (hlist : name ≠ str "FileListing") : l.endTag name = some (.ok l) := by
  simp [endTag, hin, hdir, hlist]

theorem endTag_directory (hcur : l.cur = some c) (hin : l.inListing = true) (hne : c ≠ []) :
    Leads (Moved l c.dropLast true) (l.endTag (str "Directory")) := by
  simp only [endTag, hin, hcur, if_true, Option.bind_eq_bind, Option.bind_some, if_neg hne]
  exact ⟨rfl, rfl, rfl, rfl⟩

theorem endTag_listing (hcur : l.cur = some c) (hin : l.inListing = true) :
    Leads (Moved l c false) (l.endTag (str "FileListing")) := by
  have hne : str "FileListing" ≠ str "Directory" := by decide
  simp only [endTag, hin, hcur, if_true, if_neg hne, Option.bind_eq_bind, Option.bind_some]
  exact ⟨rfl, rfl, rfl, rfl⟩

/-- A tag without content does what its start and its end do. -/
theorem endSimple_leads {P Q : ListLoader → Prop} {name : Str} {simple : Bool} {o : Outcome}
    (ho : Leads P o) (hno : simple = false → ∀ l, P l → Q l)
    (hyes : simple = true → ∀ l, P l → Leads Q (l.endTag name)) :
    Leads Q (endSimple name simple o) := by
  cases o with
  | none => exact ho
  | some r =>
    cases r with
    | error e => trivial
    | ok l =>
      rw [endSimple]
      cases simple with
      | false => exact hno rfl l ho
      | true => exact hyes rfl l ho

end

/-! ## Inside the first directory -/

/-- The loader is inside the directory where the listing began, `n` levels down. While the listing
    is open, so is the element that opened it, and at most `n` `Directory` elements within that. -/
structure Within (start : Path) (updating : Bool) (stack : List Str) (state : Bool × Nat)
    (l : ListLoader) : Prop where
  cur : ∃ ks, l.cur = some (start ++ ks) ∧ ks.length = state.2
  listing : l.inListing = state.1
  mode : l.updating = updating
  base : updating = true → start = basePath locale l.base
  nested : state.1 = true → ∃ inner outer, stack = inner ++ str "FileListing" :: outer ∧
    inner.count (str "Directory") ≤ state.2

section
variable {locale} {start : Path} {updating : Bool} {stack stack' : List Str} {state : Bool × Nat}
  {l : ListLoader}

/-- Above the directory where it began the loader never is. -/
theorem Within.start_prefix (h : Within locale start updating stack state l) :
    ∃ c, l.cur = some c ∧ start <+: c := by
  obtain ⟨ks, hcur, -⟩ := h.cur
  exact ⟨_, hcur, List.prefix_append _ _⟩

theorem Within.at_start_iff (h : Within locale start updating stack state l) :
    l.cur = some start ↔ state.2 = 0 := by
  obtain ⟨ks, hcur, hlen⟩ := h.cur
  rw [hcur, ← hlen]
  simp

/-- Other directories at the same depth, below other open elements. -/
theorem Within.moved {l' : ListLoader} {ks : Path} {s : Bool × Nat}
    (h : Within locale start updating stack state l) (hmoved : Moved l (start ++ ks) s.1 l')
    (hlen : ks.length = s.2)
    (hnested : s.1 = true → ∃ inner outer, stack' = inner ++ str "FileListing" :: outer ∧
      inner.count (str "Directory") ≤ s.2) :
    Within locale start updating stack' s l' where
  cur := ⟨ks, hmoved.cur, hlen⟩
  listing := hmoved.listing
  mode := hmoved.updating.trans h.mode
  base hupdating := by
    rw [hmoved.base]
    exact h.base hupdating
  nested := hnested

/-- An element inside of that of the listing. -/
theorem inner_of_ne {top : Str} {stack inner outer : List Str} (hne : top ≠ str "FileListing")
    (h : top :: stack = inner ++ str "FileListing" :: outer) :
    ∃ inner', inner = top :: inner' ∧ stack = inner' ++ str "FileListing" :: outer := by
  cases inner with
  | nil => exact absurd (List.cons.inj h).1 hne
  | cons name inner' =>
    obtain ⟨rfl, hrest⟩ := List.cons.inj h
    exact ⟨inner', rfl, hrest⟩

/-- An end tag. -/
theorem Within.endTag {top : Str} (h : Within locale start updating (top :: stack) state l) :
    Leads (Within locale start updating stack (count updating state (.endTag top)))
      (l.endTag top) := by
  obtain ⟨ks, hcur, hlen⟩ := h.cur
  obtain ⟨on, n⟩ := state
  have hlisting := h.listing
  have hsame : Moved l (start ++ ks) on l := ⟨hcur, hlisting, rfl, rfl⟩
  simp only at hlen hlisting
  cases on with
  | false =>
    rw [endTag_closed hlisting]
    exact h.moved (s := (false, n)) hsame hlen (by simp)
  | true =>
    obtain ⟨inner, outer, hstack, hcount⟩ := h.nested rfl
    simp only at hcount
    by_cases hdir : top = str "Directory"
    · -- it is not the element of the listing, so the loader went down into it
      subst hdir
      obtain ⟨inner', rfl, hrest⟩ := inner_of_ne (by decide) hstack
      rw [List.count_cons_self] at hcount
      have hks : ks ≠ [] := fun hks => by
        simp only [hks, List.length_nil] at hlen
        omega
      refine (endTag_directory hcur hlisting (by simp [hks])).mono fun l' hmoved => ?_
      rw [List.dropLast_append_of_ne_nil hks] at hmoved
      refine h.moved (s := (true, n - 1)) hmoved ?_ fun _ => ⟨inner', outer, hrest, ?_⟩
      · simp [hlen]
      · simp only
        omega
    · by_cases hlist : top = str "FileListing"
      · subst hlist
        exact (endTag_listing hcur hlisting).mono fun l' hmoved =>
          h.moved (s := (false, n)) hmoved hlen (by simp)
      · obtain ⟨inner', rfl, hrest⟩ := inner_of_ne hlist hstack
        rw [List.count_cons_of_ne hdir] at hcount
        rw [endTag_other hlisting hdir hlist, count, if_pos rfl, if_neg hdir, if_neg hlist]
        exact h.moved (s := (true, n)) hsame hlen fun _ => ⟨inner', outer, hrest, hcount⟩

/-- The start tag of an element of the listing. -/
theorem Within.startTag_open {n : Nat} (h : Within locale start updating stack (true, n) l)
    (name : Str)
    (attribs : List (Str × Str)) (simple : Bool) :
    Leads (Within locale start updating (if simple then stack else name :: stack)
      (count updating (true, n) (.startTag name attribs simple)))
      (l.startTag locale name attribs simple) := by
  obtain ⟨ks, hcur, hlen⟩ := h.cur
  obtain ⟨inner, outer, hstack, hcount⟩ := h.nested rfl
  have hlisting : l.inListing = true := h.listing
  have hsame : Moved l (start ++ ks) true l := ⟨hcur, hlisting, rfl, rfl⟩
  simp only at hlen hcount
  rw [startTag, if_pos hlisting]
  by_cases hdir : name = str "Directory"
  · have hfile : name ≠ str "File" := by
      rw [hdir]
      decide
    rw [if_neg hfile, if_pos hdir]
    subst hdir
    refine endSimple_leads (loadDirectory_moves hcur attribs) ?_ ?_
    · rintro rfl l' ⟨key, hmoved⟩
      rw [hlisting, List.append_assoc] at hmoved
      refine h.moved (s := (true, n + 1)) hmoved (by simp [hlen]) fun _ =>
        ⟨str "Directory" :: inner, outer, by simp [hstack], ?_⟩
      rw [List.count_cons_self]
      exact Nat.succ_le_succ hcount
    · rintro rfl l' ⟨key, hmoved⟩
      rw [hlisting] at hmoved
      refine (endTag_directory hmoved.cur hmoved.listing (by simp)).mono fun l'' hback => ?_
      rw [List.dropLast_concat] at hback
      exact h.moved (s := (true, n)) (hmoved.trans hback) hlen fun _ =>
        ⟨inner, outer, hstack, hcount⟩
  · have hpush (l' : ListLoader) (hmoved : Moved l (start ++ ks) true l') :
        Within locale start updating (if simple then stack else name :: stack)
          (count updating (true, n) (.startTag name attribs simple)) l' := by
      simp only [count, hdir, false_and, if_false, if_true]
      refine h.moved (s := (true, n)) hmoved hlen fun _ => ?_
      cases simple with
      | true => exact ⟨inner, outer, hstack, hcount⟩
      | false =>
        refine ⟨name :: inner, outer, by simp [hstack], ?_⟩
        rwa [List.count_cons_of_ne hdir]
    rw [if_neg hdir]
    by_cases hname : name = str "File"
    · have hfile := loadFile_moves hcur attribs
      rw [hlisting] at hfile
      rw [if_pos hname]
      exact hfile.mono hpush
    · rw [if_neg hname]
      exact hpush l hsame

/-- The start tag of an element outside of the listing. -/
theorem Within.startTag_closed {n : Nat} (h : Within locale start updating stack (false, n) l)
    (name : Str)
    (attribs : List (Str × Str)) (simple : Bool) :
    Leads (Within locale start updating (if simple then stack else name :: stack)
      (count updating (false, n) (.startTag name attribs simple)))
      (l.startTag locale name attribs simple) := by
  obtain ⟨ks, hcur, hlen⟩ := h.cur
  have hlisting : l.inListing = false := h.listing
  have hin : ¬ l.inListing = true := by simp [hlisting]
  simp only at hlen
  rw [startTag, if_neg hin]
  by_cases hlist : name = str "FileListing"
  · subst hlist
    rw [if_pos rfl, count, if_neg Bool.false_ne_true, if_pos rfl]
    -- a list that is updated begins at its base directory again
    have hbegin : ∃ ks', (if updating then basePath locale l.base else start ++ ks) =
        start ++ ks' ∧ ks'.length = if updating then 0 else n := by
      split_ifs with hupdating
      · exact ⟨[], by rw [← h.base hupdating, List.append_nil], rfl⟩
      · exact ⟨ks, rfl, hlen⟩
    obtain ⟨ks', hpath, hlen'⟩ := hbegin
    have hload := @loadListing_moves locale l _ hcur attribs
    rw [h.mode, hpath] at hload
    refine endSimple_leads hload ?_ ?_
    · rintro rfl l' hmoved
      exact h.moved (s := (true, _)) hmoved hlen' fun _ => ⟨[], stack, rfl, Nat.zero_le _⟩
    · rintro rfl l' hmoved
      exact (endTag_listing hmoved.cur hmoved.listing).mono fun l'' hclosed =>
        h.moved (s := (false, _)) (hmoved.trans hclosed) hlen' (by simp)
  · rw [if_neg hlist, count, if_neg Bool.false_ne_true, if_neg hlist]
    exact h.moved (s := (false, n)) ⟨hcur, hlisting, rfl, rfl⟩ hlen (by simp)

/-- **One callback** keeps the loader inside. -/
theorem Within.callBack (h : Within locale start updating stack state l) {e : Event}
    (he : opened stack [e] = some stack') :
    Leads (Within locale start updating stack' (count updating state e)) (l.callBack locale e) := by
  cases e with
  | startTag name attribs simple =>
    rw [opened, opened, Option.some.injEq] at he
    rw [← he]
    obtain ⟨on, n⟩ := state
    cases on with
    | true => exact h.startTag_open name attribs simple
    | false => exact h.startTag_closed name attribs simple
  | data d =>
    cases he
    exact h
  | endTag name =>
    cases stack with
    | nil => cases he
    | cons top stack =>
      rw [opened] at he
      split_ifs at he with hname
      cases he
      subst hname
      exact h.endTag

/-- **Any number of callbacks.** -/
theorem Within.feed {es : List Event} (h : Within locale start updating stack state l)
    (hes : opened stack es = some stack') :
    Leads (Within locale start updating stack' (es.foldl (count updating) state))
      (l.feed locale es) := by
  induction es generalizing l stack state with
  | nil =>
    cases hes
    exact h
  | cons e es ih =>
    rw [← List.singleton_append, opened_append] at hes
    obtain ⟨stack₁, he, hes⟩ := Option.bind_eq_some_iff.mp hes
    have hstep := h.callBack he
    rw [ListLoader.feed]
    cases hcall : l.callBack locale e with
    | none =>
      rw [hcall] at hstep
      exact hstep
    | some r =>
      cases r with
      | error e' => trivial
      | ok l' =>
        rw [hcall] at hstep
        exact ih hstep hes

/-! ## From the root -/

/-- The tag of a `FileListing` element. -/
def opensListing : Event → Bool
  | .startTag name _ _ => name == str "FileListing"
  | _ => false

/-- In front of the listing nothing is done. -/
theorem feed_before (hin : l.inListing = false) {pre : List Event}
    (hpre : ∀ e ∈ pre, opensListing e = false) : l.feed locale pre = some (.ok l) := by
  induction pre with
  | nil => rfl
  | cons e pre ih =>
    have he := hpre e List.mem_cons_self
    have hsame : l.callBack locale e = some (.ok l) := by
      cases e with
      | startTag name attribs simple =>
        have hname : name ≠ str "FileListing" := by simpa [opensListing] using he
        simp [ListLoader.callBack, startTag, hin, hname]
      | data d => rfl
      | endTag name => exact endTag_closed hin name
    rw [ListLoader.feed, hsame]
    exact ih fun e' he' => hpre e' (List.mem_cons_of_mem _ he')

theorem feed_before_append (hin : l.inListing = false) {pre : List Event}
    (hpre : ∀ e ∈ pre, opensListing e = false) (es : List Event) :
    l.feed locale (pre ++ es) = l.feed locale es :=
  feed_append_ok (feed_before hin hpre)

/-- The listing begins. -/
theorem within_begins {c : Path} (hcur : l.cur = some c) (hin : l.inListing = false)
    (attribs : List (Str × Str)) (simple : Bool) (stack : List Str) :
    Leads (Within locale (if l.updating then basePath locale l.base else c) l.updating
        (if simple then stack else str "FileListing" :: stack) (!simple, 0))
      (l.callBack locale (.startTag (str "FileListing") attribs simple)) := by
  have hload := @loadListing_moves locale l _ hcur attribs
  have hbase {l' : ListLoader} {b : Bool}
      (hmoved : Moved l (if l.updating then basePath locale l.base else c) b l')
      (hupdating : l.updating = true) :
      (if l.updating then basePath locale l.base else c) = basePath locale l'.base := by
    rw [if_pos hupdating, hmoved.base]
  have hclosed : ¬ l.inListing = true := by simp [hin]
  rw [ListLoader.callBack, startTag, if_neg hclosed, if_pos (rfl : str "FileListing" = _)]
  refine endSimple_leads hload ?_ ?_
  · rintro rfl l' hmoved
    exact ⟨⟨[], by rw [List.append_nil]; exact hmoved.cur, rfl⟩, hmoved.listing, hmoved.updating,
      hbase hmoved, fun _ => ⟨[], stack, rfl, Nat.zero_le _⟩⟩
  · rintro rfl l' hmoved
    refine (endTag_listing hmoved.cur hmoved.listing).mono fun l'' hclosed => ?_
    have hboth := hmoved.trans hclosed
    exact ⟨⟨[], by rw [List.append_nil]; exact hboth.cur, rfl⟩, hboth.listing, hboth.updating,
      hbase hboth, by simp⟩

/-- From the first tag of a listing on the loader is inside the directory where it begins. -/
theorem within_from_listing {c : Path} (hcur : l.cur = some c) (hin : l.inListing = false)
    {pre : List Event} (hpre : ∀ e ∈ pre, opensListing e = false) {attribs : List (Str × Str)}
    {simple : Bool} {es : List Event}
    (hes : opened (if simple then stack else str "FileListing" :: stack) es = some stack') :
    Leads (Within locale (if l.updating then basePath locale l.base else c) l.updating stack'
        (es.foldl (count l.updating) (!simple, 0)))
      (l.feed locale (pre ++ .startTag (str "FileListing") attribs simple :: es)) := by
  have hbegin := @within_begins locale l _ hcur hin attribs simple stack
  rw [feed_before_append hin hpre, ListLoader.feed]
  cases hcall : l.callBack locale (.startTag (str "FileListing") attribs simple) with
  | none =>
    rw [hcall] at hbegin
    exact hbegin
  | some r =>
    cases r with
    | error e => trivial
    | ok l' =>
      rw [hcall] at hbegin
      exact hbegin.feed hes

theorem opened_of_prefix {es sofar : List Event} (h : sofar <+: es)
    (hes : (opened stack es).isSome) :
    ∃ stack', opened stack sofar = some stack' := by
  obtain ⟨rest, rfl⟩ := h
  rw [opened_append] at hes
  obtain ⟨stack'', h⟩ := Option.isSome_iff_exists.mp hes
  obtain ⟨stack', hsofar, -⟩ := Option.bind_eq_some_iff.mp h
  exact ⟨stack', hsofar⟩

/-- **The loader never leaves its base directory, and returns to it exactly from the documents
    without an unclosed directory.** In every nested sequence of callbacks no null pointer is used;
    from the first `FileListing` tag on the loader is never above the directory where the listing
    began; and the end of that element finds it there if and only if no `Directory` element of it is
    unclosed. -/
theorem staysInBase (hroot : l.cur = some []) (hin : l.inListing = false) {es : List Event}
    (hes : (opened [] es).isSome) :
    (∀ sofar, sofar <+: es → Leads (fun l' => l'.cur ≠ none) (l.feed locale sofar)) ∧
    ∀ pre attribs simple rest l₁,
      es = pre ++ .startTag (str "FileListing") attribs simple :: rest →
      (∀ e ∈ pre, opensListing e = false) → l.loadListing locale attribs = .ok l₁ →
      ∃ start, l₁.cur = some start ∧
        (∀ sofar, sofar <+: rest →
          Leads (fun l' => ∃ c, l'.cur = some c ∧ ¬ (c <+: start ∧ c ≠ start))
            (l.feed locale (pre ++ .startTag (str "FileListing") attribs simple :: sofar))) ∧
        (simple = true → Leads (fun l' => l'.cur = some start)
          (l.feed locale (pre ++ [.startTag (str "FileListing") attribs simple]))) ∧
        (simple = false → ∀ inner after, rest = inner ++ .endTag (str "FileListing") :: after →
          opened [] inner = some [] →
          Leads (fun l' => l'.cur = some start ↔ unclosed l.updating inner = 0)
            (l.feed locale (pre ++ .startTag (str "FileListing") attribs simple ::
              (inner ++ [.endTag (str "FileListing")])))) := by
  constructor
  · intro sofar hsofar
    cases hfirst : sofar.find? opensListing with
    | none =>
      have hbefore : ∀ e ∈ sofar, opensListing e = false := by simpa using hfirst
      rw [feed_before hin hbefore]
      simp [Leads, hroot]
    | some e =>
      obtain ⟨he, pre, rest, rfl, hpre⟩ := List.find?_eq_some_iff_append.mp hfirst
      cases e with
      | data d => cases he
      | endTag name => cases he
      | startTag name attribs simple =>
        have hname : name = str "FileListing" := by simpa [opensListing] using he
        subst hname
        obtain ⟨stack', hopened⟩ := opened_of_prefix hsofar hes
        rw [opened_append] at hopened
        obtain ⟨stack, -, hrest⟩ := Option.bind_eq_some_iff.mp hopened
        rw [opened] at hrest
        refine (within_from_listing hroot hin (by simpa using hpre) hrest).mono fun l' h => ?_
        obtain ⟨c, hc, -⟩ := h.start_prefix
        simp [hc]
  · rintro pre attribs simple rest l₁ rfl hpre hload
    have hmoved := @loadListing_moves locale l _ hroot attribs
    rw [hload] at hmoved
    refine ⟨_, hmoved.cur, ?_, ?_, ?_⟩
    · intro sofar hsofar
      have hlist : pre ++ .startTag (str "FileListing") attribs simple :: sofar <+:
          pre ++ .startTag (str "FileListing") attribs simple :: rest :=
        (List.prefix_append_right_inj _).mpr ((List.prefix_cons_inj _).mpr hsofar)
      obtain ⟨stack', hopened⟩ := opened_of_prefix hlist hes
      rw [opened_append] at hopened
      obtain ⟨stack, -, hrest⟩ := Option.bind_eq_some_iff.mp hopened
      rw [opened] at hrest
      refine (within_from_listing hroot hin hpre hrest).mono fun l' h => ?_
      obtain ⟨c, hc, hstart⟩ := h.start_prefix
      exact ⟨c, hc, fun habove => habove.2 (habove.1.eq_of_length_le hstart.length_le)⟩
    · rintro rfl
      have hopened : opened (if true then [] else [str "FileListing"]) [] = some [] := rfl
      exact (within_from_listing hroot hin hpre hopened).mono fun l' h => h.at_start_iff.mpr rfl
    · rintro rfl inner after rfl hinner
      have hclosed : opened (if false then [] else [str "FileListing"])
        (inner ++ [.endTag (str "FileListing")]) =
          some [] := by
        have hbelow : opened [str "FileListing"] inner = some [str "FileListing"] :=
          opened_below hinner
        rw [if_neg Bool.false_ne_true, opened_append, hbelow]
        rfl
      refine (within_from_listing hroot hin hpre hclosed).mono fun l' h => ?_
      rw [h.at_start_iff, List.foldl_append, unclosed]
      exact Eq.congr_left (count_endListing l.updating _)

/-- A listing with one directory and nothing in it. -/
def oneDirectory : List Event :=
  [.startTag (str "FileListing") [] false,
    .startTag (str "Directory") [(str "Name", str "a")] false,
    .endTag (str "Directory"), .endTag (str "FileListing")]

def newLoader : ListLoader :=
  { list := DirectoryListing.empty, cur := some [], base := ADC_ROOT_STR, updating := false }

/-- The theorem on that listing. -/
theorem staysInBase_oneDirectory :
    Leads (fun l' => l'.cur ≠ none) (newLoader.feed plainLocale oneDirectory) :=
  (@staysInBase plainLocale newLoader rfl rfl oneDirectory (by decide)).1 oneDirectory
    (List.prefix_refl _)

/-- **A listing within a directory of the listing**: the end of the inner element closes the
    listing, the end of the directory does nothing, and the end of the outer element finds the
    loader in the directory. -/
theorem nested_listing_remains : ∃ l',
    newLoader.feed plainLocale
      [.startTag (str "FileListing") [] false,
        .startTag (str "Directory") [(str "Name", str "a")] false,
        .startTag (str "FileListing") [] false, .endTag (str "FileListing"),
        .endTag (str "Directory"), .endTag (str "FileListing")] = some (.ok l') ∧
      newLoader.cur = some [] ∧ ∃ k, l'.cur = some [k] :=
  ⟨_, rfl, rfl, _, rfl⟩

end

end ListLoader
end Airdcpp
