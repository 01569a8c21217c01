import Airdcpp.Hub.NmdcHub
import Airdcpp.Lib.Substitute

/-!
# `Hub/MessageEscapes` — what may not be in a message

`validateMessage` goes over a message five times to escape it, and three times to undo that. Every
pass finds a text, replaces it in place and goes on with an offset that is written next to it. No
pass takes what it has written for what it looks for, so it is a substitution (`replaceEach_eq`).

An ampersand is only marked where the text behind it would make it an escape. Nothing a pass writes
begins with a character that may stand behind such an ampersand, so all passes see the same escapes
(`prefix_substitute_iff`), and undoing them gives the message back (`unescape_escape`).
-/

namespace Airdcpp

open Lib

/-- `while ((i = tmp.find(needle, i)) != npos) { tmp.replace(i, count, by_); i += step; }` -/
def replaceEach (needle by_ : Str) (count step : Nat) : (fuel : Nat) → (tmp : Str) → (i : Nat) → Str
  | 0, tmp, _ => tmp
  | fuel + 1, tmp, i =>
    match find tmp needle i with
    | none => tmp
    | some i =>
      replaceEach needle by_ count step fuel (tmp.take i ++ by_ ++ tmp.drop (i + count)) (i + step)

namespace NmdcHub

/-- `validateMessage` forwards -/
def escape (tmp : Str) : Str :=
  let tmp := replaceEach (str "&amp;") (str "&amp;") 1 4 (tmp.length + 1) tmp 0
  let tmp := replaceEach (str "&#36;") (str "&amp;") 1 4 (tmp.length + 1) tmp 0
  let tmp := replaceEach (str "&#124;") (str "&amp;") 1 4 (tmp.length + 1) tmp 0
  let tmp := replaceEach (str "$") (str "&#36;") 1 4 (tmp.length + 1) tmp 0
  replaceEach (str "|") (str "&#124;") 1 5 (tmp.length + 1) tmp 0

def validateMessage (tmp : Str) (reverse : Bool) : Str :=
  if reverse then unescape tmp else escape tmp

end NmdcHub

/-! ## One pass -/

variable {s t u needle by_ : Str} {a : UInt8} {count step fuel pos i : Nat}

/-- `find` one place at a time. -/
theorem find_succ (h : pos ≤ s.length) :
    find s needle pos = if needle <+: s.drop pos then some pos else find s needle (pos + 1) := by
  have hlength : s.length + 1 - pos = s.length + 1 - (pos + 1) + 1 := by omega
  rw [find, find, hlength, List.range'_succ]
  split
  · rename_i hpre
    exact List.find?_cons_of_pos (List.isPrefixOf_iff_prefix.mpr hpre)
  · rename_i hpre
    exact List.find?_cons_of_neg fun hfound => hpre (List.isPrefixOf_iff_prefix.mp hfound)

theorem substitute_of_find_none (h : find s needle pos = none) (hpos : pos ≤ s.length)
    (ht : s.drop pos = t) :
    substitute needle by_ count t = t := by
  induction t generalizing pos with
  | nil => rfl
  | cons x t ih =>
    rw [find_succ hpos, ht] at h
    split at h
    · cases h
    · rename_i hpre
      have hlength := congrArg List.length ht
      rw [List.length_drop, List.length_cons] at hlength
      have htail : s.drop (pos + 1) = t := by rw [← List.tail_drop, ht, List.tail_cons]
      rw [substitute_cons hpre, ih h (by omega) htail]

theorem substitute_of_find_some (hcount : 0 < count) (hne : needle ≠ [])
    (h : find s needle pos = some i)
    (hpos : pos ≤ s.length) :
    ∃ u r, s.drop pos = u ++ r ∧ i = pos + u.length ∧ needle <+: r ∧
      substitute needle by_ count (s.drop pos) = u ++
        (by_ ++ substitute needle by_ count (r.drop count)) := by
  induction ht : s.drop pos generalizing pos with
  | nil =>
    have hend : s.length ≤ pos := List.drop_eq_nil_iff.mp ht
    have hzero : s.length + 1 - (pos + 1) = 0 := by omega
    rw [find_succ hpos, ht, if_neg fun hpre => hne (List.prefix_nil.mp hpre), find, hzero] at h
    cases h
  | cons x t ih =>
    rw [find_succ hpos, ht] at h
    split at h
    · rename_i hpre
      refine ⟨[], x :: t, rfl, (Option.some.inj h).symm, hpre, ?_⟩
      exact substitute_of_front (List.cons_ne_nil x t) hcount hpre
    · rename_i hpre
      have hlength := congrArg List.length ht
      rw [List.length_drop, List.length_cons] at hlength
      have htail : s.drop (pos + 1) = t := by rw [← List.tail_drop, ht, List.tail_cons]
      obtain ⟨u, r, rfl, rfl, hr, hsub⟩ := ih h (by omega) htail
      refine ⟨x :: u, r, rfl, ?_, hr, ?_⟩
      · rw [List.length_cons]
        omega
      · rw [substitute_cons hpre, hsub, List.cons_append]

/-- **A pass is a substitution**, if what it leaves of the text that it writes does not begin as
    what it looks for. -/
theorem replaceEach_eq (hcount : 0 < count) (hstep : step ≤ by_.length) (hby : a ∉ by_.drop step)
    (hi : i ≤ s.length) (hu : a ∉ u) (ht : s.drop i = u ++ t) (hfuel : t.length < fuel) :
    replaceEach (a :: needle) by_ count step fuel s i =
      s.take i ++ substitute (a :: needle) by_ count (s.drop i) := by
  induction fuel generalizing s i u t with
  | zero => exact absurd hfuel (Nat.not_lt_zero _)
  | succ fuel ih =>
    rw [replaceEach]
    cases hfind : find s (a :: needle) i with
    | none => rw [substitute_of_find_none hfind hi rfl, List.take_append_drop]
    | some j =>
      obtain ⟨v, r, hsplit, rfl, hpre, hsub⟩ :=
        @substitute_of_find_some s (a :: needle) by_ count i j hcount
          (List.cons_ne_nil _ _) hfind hi
      have hlength := congrArg List.length hsplit
      have hlength' := congrArg List.length ht
      rw [List.length_drop, List.length_append] at hlength hlength'
      -- what is found begins behind `u`, which has no first element of it
      have hlong : u.length ≤ v.length := by
        by_contra hshort
        obtain ⟨r', rfl⟩ := hpre
        rw [ht] at hsplit
        have hget := congrArg (fun l => l[v.length]?) hsplit
        simp only [List.getElem?_append_left (Nat.not_le.mp hshort),
          List.getElem?_append_right (le_refl v.length), Nat.sub_self] at hget
        exact hu (List.mem_of_getElem? hget)
      have hpos := hpre.length_le
      rw [List.length_cons] at hpos
      have htake : s.take (i + v.length) = s.take i ++ v := by
        rw [List.take_add, hsplit, List.take_left]
      have hdrop : s.drop (i + v.length + count) = r.drop count := by
        rw [← List.drop_drop, ← List.drop_drop, hsplit, List.drop_left]
      have hfront : (s.take i ++ v).length = i + v.length := by
        rw [List.length_append, List.length_take, Nat.min_eq_left hi]
      have hrest : (s.take i ++ v ++ by_ ++ r.drop count).drop (i + v.length + step) =
          by_.drop step ++ r.drop count := by
        rw [← List.drop_drop, ← hfront, List.append_assoc, List.drop_left,
          List.drop_append_of_le_length hstep]
      have hbefore : (s.take i ++ v ++ by_ ++ r.drop count).take (i + v.length + step) =
          s.take i ++ v ++ by_.take step := by
        rw [List.take_add, ← hfront, List.append_assoc (s.take i ++ v), List.take_left,
          List.drop_left, List.take_append_of_le_length hstep]
      simp only
      rw [htake, hdrop, ih ?_ hby hrest ?_, hrest, hbefore, substitute_append hby, hsub]
      · simp only [List.append_assoc]
        rw [← List.append_assoc (by_.take step), List.take_append_drop]
      · rw [List.append_assoc, List.length_append, hfront, List.length_append]
        omega
      · rw [List.length_drop]
        omega

/-- The loops of the reverse direction are passes, too. -/
theorem replaceLoop_eq_replaceEach (needle by_ : Str) (step fuel : Nat) (s : Str) (i : Nat) :
    replaceLoop needle by_ step fuel s i = replaceEach needle by_ needle.length step fuel s i := by
  induction fuel generalizing s i with
  | zero => rfl
  | succ fuel ih =>
    rw [replaceLoop, replaceEach]
    cases find s needle i with
    | none => rfl
    | some i => exact ih _ _

/-- A whole pass. -/
theorem replaceEach_start (hcount : 0 < count) (hstep : step ≤ by_.length) (hby : a ∉ by_.drop step)
    (s : Str) :
    replaceEach (a :: needle) by_ count step (s.length + 1) s 0 =
      substitute (a :: needle) by_ count s := by
  have hpass := @replaceEach_eq s s [] needle by_ a count step (s.length + 1) 0 hcount hstep hby
    (Nat.zero_le _)
    List.not_mem_nil rfl (Nat.lt_succ_self _)
  rwa [List.take_zero, List.nil_append, List.drop_zero] at hpass

namespace NmdcHub

/-! ## Both directions -/

/-- The pass that marks the ampersand before a word. -/
def mark (word : Str) : Str → Str := substitute (chr '&' :: word) (str "&amp;") 1

/-- The pass that writes a separator as a word. -/
def hide (separator : UInt8) (word : Str) : Str → Str := substitute [separator] (chr '&' :: word) 1

/-- The pass that reads a word. -/
def reveal (word : Str) (separator : UInt8) : Str → Str :=
  substitute (chr '&' :: word) [separator] (word.length + 1)

theorem escape_eq (s : Str) :
    escape s = hide (chr '|') (str "#124;") (hide (chr '$') (str "#36;")
      (mark (str "#124;") (mark (str "#36;") (mark (str "amp;") s)))) := by
  have hmark : ∀ word tmp,
      replaceEach (chr '&' :: word) (str "&amp;") 1 4 (tmp.length + 1) tmp 0 = mark word tmp :=
    fun word => replaceEach_start Nat.one_pos (by decide) (by decide)
  have hdollar : ∀ tmp, replaceEach (str "$") (str "&#36;") 1 4 (tmp.length + 1) tmp 0 =
      hide (chr '$') (str "#36;") tmp := replaceEach_start Nat.one_pos (by decide) (by decide)
  have hbar : ∀ tmp, replaceEach (str "|") (str "&#124;") 1 5 (tmp.length + 1) tmp 0 =
      hide (chr '|') (str "#124;") tmp := replaceEach_start Nat.one_pos (by decide) (by decide)
  rw [escape, hbar, hdollar]
  have hmarks := (hmark (str "#36;") _).trans (congrArg _ (hmark (str "amp;") s))
  exact congrArg _ (congrArg _ ((hmark (str "#124;") _).trans (congrArg _ hmarks)))

theorem unescape_eq (s : Str) :
    unescape s = reveal (str "amp;") (chr '&')
      (reveal (str "#124;") (chr '|') (reveal (str "#36;") (chr '$') s)) := by
  have hreveal : ∀ word separator tmp, chr '&' ∉ (List.drop 1 [separator]) →
      replaceLoop (chr '&' :: word) [separator] 1 (tmp.length + 1) tmp 0 =
        reveal word separator tmp := by
    intro word separator tmp hrest
    rw [replaceLoop_eq_replaceEach]
    exact replaceEach_start (Nat.succ_pos _) (le_refl _) hrest tmp
  rw [unescape]
  exact (hreveal (str "amp;") (chr '&') _ List.not_mem_nil).trans (congrArg _
    ((hreveal (str "#124;") (chr '|') _ List.not_mem_nil).trans (congrArg _
      (hreveal (str "#36;") (chr '$') s List.not_mem_nil))))

variable {word : Str} {x separator : UInt8}

theorem mark_of_ne (h : x ≠ chr '&') (word s : Str) : mark word (x :: s) = x :: mark word s :=
  substitute_cons_of_ne h

theorem mark_of_front (h : word <+: s) : mark word (chr '&' :: s) = str "&amp;" ++ mark word s := by
  have hpre := List.cons_prefix_cons.mpr ⟨@rfl _ (chr '&'), h⟩
  rw [mark, substitute_of_front (List.cons_ne_nil _ _) Nat.one_pos hpre]
  rfl

theorem mark_of_not_front (h : ¬ word <+: s) : mark word (chr '&' :: s) = chr '&' :: mark word s :=
  substitute_cons fun hpre => h (List.cons_prefix_cons.mp hpre).2

/-- What is marked already is left alone. -/
theorem mark_marked (h : ¬ word <+: str "amp;" ++ s) :
    mark word (str "&amp;" ++ s) = str "&amp;" ++ mark word s := by
  have hrest : mark word (str "amp;" ++ s) = str "amp;" ++ mark word s :=
    substitute_append (by decide) s
  exact (mark_of_not_front h).trans (congrArg _ hrest)

theorem hide_self (separator : UInt8) (word s : Str) :
    hide separator word (separator :: s) = chr '&' :: word ++ hide separator word s :=
  substitute_of_front (List.cons_ne_nil _ _) Nat.one_pos ⟨s, rfl⟩

theorem hide_append (h : separator ∉ t) (word s : Str) :
    hide separator word (t ++ s) = t ++ hide separator word s :=
  substitute_append h s

theorem hide_of_ne (h : x ≠ separator) (word s : Str) :
    hide separator word (x :: s) = x :: hide separator word s :=
  substitute_cons_of_ne h

theorem reveal_of_ne (h : x ≠ chr '&') (word : Str) (separator : UInt8) (s : Str) :
    reveal word separator (x :: s) = x :: reveal word separator s := substitute_cons_of_ne h

theorem reveal_append (h : chr '&' ∉ t) (word : Str) (separator : UInt8) (s : Str) :
    reveal word separator (t ++ s) = t ++ reveal word separator s := substitute_append h s

theorem reveal_word (word : Str) (separator : UInt8) (s : Str) :
    reveal word separator (chr '&' :: word ++ s) = separator :: reveal word separator s := by
  have hpass := @substitute_of_front _ _ (chr '&' :: word) [separator] (chr '&' :: word ++ s)
    (word.length + 1)
    (List.cons_ne_nil _ _) (Nat.succ_pos _) ⟨s, rfl⟩
  rwa [List.cons_append, List.drop_succ_cons, List.drop_left] at hpass

theorem reveal_of_not_front (h : ¬ word <+: s) (separator : UInt8) :
    reveal word separator (chr '&' :: s) = chr '&' :: reveal word separator s :=
  substitute_cons fun hpre => h (List.cons_prefix_cons.mp hpre).2

/-- A text that no pass looks for the beginning of. -/
structure Plain (word : Str) : Prop where
  ampersand : chr '&' ∉ word
  dollar : chr '$' ∉ word
  bar : chr '|' ∉ word

theorem Plain.prefix_mark_iff (hword : Plain word) (needle s : Str) :
    word <+: mark needle s ↔ word <+: s :=
  prefix_substitute_iff Nat.one_pos hword.ampersand hword.ampersand

/-- **All passes see the same words behind an ampersand.** -/
theorem Plain.prefix_escape_iff (hword : Plain word) (s : Str) :
    word <+: escape s ↔ word <+: s := by
  rw [escape_eq, hide, hide, prefix_substitute_iff Nat.one_pos hword.bar hword.ampersand,
    prefix_substitute_iff Nat.one_pos hword.dollar hword.ampersand, hword.prefix_mark_iff,
    hword.prefix_mark_iff, hword.prefix_mark_iff]

theorem plain_amp : Plain (str "amp;") := ⟨by decide, by decide, by decide⟩
theorem plain_36 : Plain (str "#36;") := ⟨by decide, by decide, by decide⟩
theorem plain_124 : Plain (str "#124;") := ⟨by decide, by decide, by decide⟩

/-- Two different words are not there at once. -/
theorem not_prefix_append {v w : Str} (h : v.isPrefixOf w = false) (h' : w.isPrefixOf v = false)
    (s : Str) :
    ¬ v <+: w ++ s := by
  intro hpre
  rcases List.prefix_or_prefix_of_prefix hpre (List.prefix_append w s) with hpre | hpre
  · exact absurd (List.isPrefixOf_iff_prefix.mpr hpre) (by simp [h])
  · exact absurd (List.isPrefixOf_iff_prefix.mpr hpre) (by simp [h'])

/-! ## An element at a time -/

/-- The escapes begin with an ampersand and one of these. -/
def Escapes (s : Str) : Prop := str "amp;" <+: s ∨ str "#36;" <+: s ∨ str "#124;" <+: s

theorem escapes_escape_iff (s : Str) : Escapes (escape s) ↔ Escapes s :=
  or_congr (plain_amp.prefix_escape_iff s)
    (or_congr (plain_36.prefix_escape_iff s) (plain_124.prefix_escape_iff s))

theorem escape_nil : escape [] = [] := rfl

theorem escape_cons (hamp : x ≠ chr '&') (hdollar : x ≠ chr '$') (hbar : x ≠ chr '|') (s : Str) :
    escape (x :: s) = x :: escape s := by
  rw [escape_eq, mark_of_ne hamp, mark_of_ne hamp, mark_of_ne hamp, hide_of_ne hdollar,
    hide_of_ne hbar, escape_eq]

theorem escape_dollar (s : Str) : escape (chr '$' :: s) = str "&#36;" ++ escape s := by
  have hamp : chr '$' ≠ chr '&' := by decide
  rw [escape_eq, mark_of_ne hamp, mark_of_ne hamp, mark_of_ne hamp, hide_self,
    hide_append (by decide), escape_eq]
  rfl

theorem escape_bar (s : Str) : escape (chr '|' :: s) = str "&#124;" ++ escape s := by
  have hamp : chr '|' ≠ chr '&' := by decide
  rw [escape_eq, mark_of_ne hamp, mark_of_ne hamp, mark_of_ne hamp, hide_of_ne (by decide),
    hide_self, escape_eq]
  rfl

/-- An ampersand is marked where it would be read as an escape. -/
theorem escape_ampersand (h : Escapes s) : escape (chr '&' :: s) = str "&amp;" ++ escape s := by
  have hhide : ∀ t, hide (chr '|') (str "#124;") (hide (chr '$') (str "#36;") (str "&amp;" ++ t)) =
      str "&amp;" ++ hide (chr '|') (str "#124;") (hide (chr '$') (str "#36;") t) := by
    intro t
    rw [hide_append (by decide), hide_append (by decide)]
  have h36 : ∀ t, mark (str "#36;") (str "&amp;" ++ t) = str "&amp;" ++ mark (str "#36;") t :=
    fun t => mark_marked (not_prefix_append (by decide) (by decide) t)
  have h124 : ∀ t, mark (str "#124;") (str "&amp;" ++ t) = str "&amp;" ++ mark (str "#124;") t :=
    fun t => mark_marked (not_prefix_append (by decide) (by decide) t)
  rw [escape_eq, escape_eq]
  by_cases hamp : str "amp;" <+: s
  · rw [mark_of_front hamp, h36, h124, hhide]
  by_cases hdollar : str "#36;" <+: s
  · rw [mark_of_not_front hamp, mark_of_front ((plain_36.prefix_mark_iff _ s).mpr hdollar), h124,
      hhide]
  have hbar : str "#124;" <+: s := (h.resolve_left hamp).resolve_left hdollar
  rw [mark_of_not_front hamp, mark_of_not_front ?_, mark_of_front ?_, hhide]
  · rwa [plain_124.prefix_mark_iff, plain_124.prefix_mark_iff]
  · rwa [plain_36.prefix_mark_iff]

theorem escape_ampersand_of_not (h : ¬ Escapes s) :
    escape (chr '&' :: s) = chr '&' :: escape s := by
  obtain ⟨hamp, hdollar, hbar⟩ : ¬ str "amp;" <+: s ∧ ¬ str "#36;" <+: s ∧ ¬ str "#124;" <+: s := by
    rwa [Escapes, not_or, not_or] at h
  rw [escape_eq, mark_of_not_front hamp, mark_of_not_front ?_, mark_of_not_front ?_,
    hide_of_ne (by decide), hide_of_ne (by decide), escape_eq]
  · rwa [plain_124.prefix_mark_iff, plain_124.prefix_mark_iff]
  · rwa [plain_36.prefix_mark_iff]

theorem unescape_nil : unescape [] = [] := rfl

theorem unescape_cons (h : x ≠ chr '&') (s : Str) : unescape (x :: s) = x :: unescape s := by
  rw [unescape_eq, reveal_of_ne h, reveal_of_ne h, reveal_of_ne h, unescape_eq]

theorem unescape_dollar (s : Str) : unescape (str "&#36;" ++ s) = chr '$' :: unescape s := by
  have hword := reveal_word (str "#36;") (chr '$') s
  have hne : chr '$' ≠ chr '&' := by decide
  rw [unescape_eq, unescape_eq, ← reveal_of_ne hne, ← reveal_of_ne hne, ← hword]
  rfl

theorem unescape_bar (s : Str) : unescape (str "&#124;" ++ s) = chr '|' :: unescape s := by
  have hkept : reveal (str "#36;") (chr '$') (chr '&' :: (str "#124;" ++ s)) =
      chr '&' :: str "#124;" ++ reveal (str "#36;") (chr '$') s := by
    rw [reveal_of_not_front (not_prefix_append (by decide) (by decide) s),
      reveal_append (by decide), List.cons_append]
  have hne : chr '|' ≠ chr '&' := by decide
  rw [unescape_eq, unescape_eq, ← reveal_of_ne hne, ← reveal_word, ← hkept]
  rfl

theorem unescape_ampersand (s : Str) : unescape (str "&amp;" ++ s) = chr '&' :: unescape s := by
  have hkept : ∀ word separator t,
      word.isPrefixOf (str "amp;") = false → (str "amp;").isPrefixOf word = false →
      reveal word separator (chr '&' :: (str "amp;" ++ t)) =
        chr '&' :: (str "amp;" ++ reveal word separator t) := by
    intro word separator t h h'
    rw [reveal_of_not_front (not_prefix_append h h' t), reveal_append (by decide)]
  rw [unescape_eq, unescape_eq, ← reveal_word, List.cons_append,
    ← hkept _ _ _ (by decide) (by decide), ← hkept _ _ _ (by decide) (by decide)]
  rfl

theorem unescape_ampersand_of_not (h : ¬ Escapes s) :
    unescape (chr '&' :: s) = chr '&' :: unescape s := by
  obtain ⟨hamp, hdollar, hbar⟩ : ¬ str "amp;" <+: s ∧ ¬ str "#36;" <+: s ∧ ¬ str "#124;" <+: s := by
    rwa [Escapes, not_or, not_or] at h
  rw [unescape_eq, reveal_of_not_front hdollar, reveal_of_not_front ?_, reveal_of_not_front ?_,
    unescape_eq]
  · rwa [reveal, reveal, prefix_substitute_iff (Nat.succ_pos _) plain_amp.ampersand plain_amp.bar,
      prefix_substitute_iff (Nat.succ_pos _) plain_amp.ampersand plain_amp.dollar]
  · rwa [reveal, prefix_substitute_iff (Nat.succ_pos _) plain_124.ampersand plain_124.dollar]

/-! ## A whole message -/

/-- **Undoing the escapes** gives the message back. -/
theorem unescape_escape (s : Str) : unescape (escape s) = s := by
  induction s with
  | nil => rfl
  | cons x s ih =>
    by_cases hdollar : x = chr '$'
    · rw [hdollar, escape_dollar, unescape_dollar, ih]
    by_cases hbar : x = chr '|'
    · rw [hbar, escape_bar, unescape_bar, ih]
    by_cases hamp : x = chr '&'
    · subst hamp
      by_cases hescapes : Escapes s
      · rw [escape_ampersand hescapes, unescape_ampersand, ih]
      · rw [escape_ampersand_of_not hescapes,
          unescape_ampersand_of_not fun h => hescapes ((escapes_escape_iff s).mp h), ih]
    · rw [escape_cons hamp hdollar hbar, unescape_cons hamp, ih]

theorem dollar_notMem_escape (s : Str) : chr '$' ∉ escape s := by
  rw [escape_eq]
  exact notMem_substitute_of_notMem (notMem_substitute (by decide) _) (by decide) Nat.one_pos

theorem bar_notMem_escape (s : Str) : chr '|' ∉ escape s := by
  rw [escape_eq]
  exact notMem_substitute (by decide) _

/-- **Escaping a message**: it can be undone, and no command can be in the result. -/
theorem validateMessage_reversible (x : Str) :
    validateMessage (validateMessage x false) true = x ∧
      chr '$' ∉ validateMessage x false ∧ chr '|' ∉ validateMessage x false :=
  ⟨unescape_escape x, dollar_notMem_escape x, bar_notMem_escape x⟩

end NmdcHub

end Airdcpp
