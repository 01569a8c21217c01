import Airdcpp.Util.PathCleaning

/-!
# `Util/PathStability` — dots at the end of a path

A clean path without control characters is a fixed point of `cleanPathChars`
(`cleanPathChars_of_isClean`), so validating without a separator at the end is stable. With it
the separator comes behind the cleaning: a dot at the end of the path is then a dot in front of
a separator, which the next validation masks. The same dot is all that can be left of a `..`:
the loops know the component by the separator behind it, and at the end of the path there is
none.

So everything hangs on the last byte (`validated_iff`).
-/

namespace Airdcpp
namespace PathUtil

/-- `validateFileName` -/
def validateFileName (aFileName : Str) : Str := cleanPathChars aFileName true

def isSeparator (c : UInt8) : Bool := c == PATH_SEPARATOR || c == BACKSLASH

/-- The components of a path, whichever separator is between them. -/
def components (p : Str) : List Str := p.splitOnP isSeparator

def DOTDOT : Str := [DOT, DOT]

theorem isSeparator_iff {c : UInt8} : isSeparator c = true ↔ IsSeparator c := by
  simp [isSeparator, IsSeparator]

/-! ## The loops on a path that is clean -/

theorem eraseDots_of_plain {s : UInt8} (hs : IsSeparator s) :
    ∀ {after : Bool} {t : Str}, t.IsChain Plain → eraseDots s after t = t
  | after, c :: d :: rest, h => by
    obtain ⟨hcd, hrest⟩ := List.isChain_cons_cons.mp h
    rw [eraseDots, if_neg, eraseDots_of_plain hs hrest]
    have hnot := hcd.not_dot hs
    simp only [Bool.and_eq_true, beq_iff_eq]
    tauto
  | _, [], _ => rfl
  | _, [_], _ => rfl

theorem eraseDoubles_of_plain {s : UInt8} (hs : IsSeparator s) :
    ∀ {x : UInt8} {t : Str}, (x :: t).IsChain Plain → eraseDoubles s (x == s) t = t
  | _, [], _ => rfl
  | x, c :: t, h => by
    obtain ⟨hxc, ht⟩ := List.isChain_cons_cons.mp h
    rw [eraseDoubles, if_neg, eraseDoubles_of_plain hs ht]
    have hnot := hxc.not_double hs
    simp only [Bool.and_eq_true, beq_iff_eq]
    exact hnot

theorem eraseDoubles_false_of_plain {s : UInt8} (hs : IsSeparator s) {t : Str}
    (h : t.IsChain Plain) : eraseDoubles s false t = t := by
  cases t with
  | nil => rfl
  | cons c t => rw [eraseDoubles_false_cons, eraseDoubles_of_plain hs h]

theorem replaceDotDot_of_plain {s : UInt8} (hs : IsSeparator s) :
    ∀ {after : Bool} {t : Str}, t.IsChain Plain → replaceDotDot s after t = t
  | after, c :: d :: e :: rest, h => by
    obtain ⟨-, hrest⟩ := List.isChain_cons_cons.mp h
    have hnot := (List.isChain_cons_cons.mp hrest).1.not_dot hs
    rw [replaceDotDot, if_neg, replaceDotDot_of_plain hs hrest]
    simp only [Bool.and_eq_true, beq_iff_eq]
    tauto
  | _, [], _ => rfl
  | _, [_], _ => rfl
  | _, [_, _], _ => rfl

theorem replaceEndDots_of_plain {s : UInt8} (hs : IsSeparator s) :
    ∀ {t : Str}, t.IsChain Plain → replaceEndDots s false t = t
  | c :: d :: rest, h => by
    obtain ⟨hcd, hrest⟩ := List.isChain_cons_cons.mp h
    have hnot := hcd.not_dot hs
    rw [replaceEndDots, if_neg, replaceEndDots_of_plain hs hrest]
    simp only [Bool.not_false, Bool.and_true, Bool.and_eq_true, beq_iff_eq]
    exact hnot
  | [], _ => rfl
  | [_], _ => rfl

theorem replaceBadChars_of_none {p : Str} (h : ∀ c ∈ p, isBadChar c = false) :
    replaceBadChars p = p := by
  unfold replaceBadChars
  conv_rhs => rw [← List.map_id p]
  exact List.map_congr_left fun c hc => by simp [h c hc]

/-- **A clean path is not edited.** -/
theorem cleanPathChars_of_isClean {p : Str} (h : IsClean p) (hbad : ∀ c ∈ p, isBadChar c = false) :
    cleanPathChars p false = p := by
  have hb := isSeparator_backslash
  have hs := isSeparator_slash
  unfold cleanPathChars
  rw [replaceBadChars_of_none hbad]
  simp only [Bool.false_eq_true, if_false]
  cases p with
  | nil => rfl
  | cons c t =>
    have ht : t.IsChain Plain := h
    simp only [eraseDots_false_cons, eraseDoublesFrom_cons, replaceDotDot_false_cons,
      replaceEndDots_true_cons, eraseDots_of_plain hb ht, eraseDots_of_plain hs ht,
      eraseDoubles_false_of_plain hb ht, eraseDoubles_false_of_plain hs ht,
      replaceDotDot_of_plain hb ht, replaceDotDot_of_plain hs ht,
      replaceEndDots_of_plain hb ht, replaceEndDots_of_plain hs ht]

/-! ## A dot at the end -/

theorem replaceBadChars_getLast?_dot {p : Str} :
    (replaceBadChars p).getLast? = some DOT ↔ p.getLast? = some DOT := by
  unfold replaceBadChars
  rw [List.getLast?_map, Option.map_eq_some_iff]
  constructor
  · intro h
    obtain ⟨c, hc, hdot⟩ := h
    split at hdot
    · exact absurd hdot (by decide)
    · rw [hc, hdot]
  · intro h
    exact ⟨DOT, h, by decide⟩

theorem replaceDotDot_getLast? {s : UInt8} (hs : IsSeparator s) :
    ∀ {after : Bool} {p : Str}, p.getLast? = some DOT →
      (replaceDotDot s after p).getLast? = some DOT
  | after, c :: d :: e :: rest, h => by
    rw [List.getLast?_cons_cons, List.getLast?_cons_cons] at h
    rw [replaceDotDot]
    split
    · next hc =>
      simp only [Bool.and_eq_true, beq_iff_eq] at hc
      cases rest with
      | nil =>
        rw [hc.2, List.getLast?_singleton, Option.some.injEq] at h
        exact absurd h hs.ne_dot
      | cons f rest =>
        rw [List.getLast?_cons_cons] at h
        have hrest : (replaceDotDot s false (f :: rest)).getLast? = some DOT :=
          replaceDotDot_getLast? hs h
        rw [List.getLast?_cons_cons, List.getLast?_cons_cons, List.getLast?_cons, hrest]
        rfl
    · have hrest : (replaceDotDot s (c == s) (d :: e :: rest)).getLast? = some DOT :=
        replaceDotDot_getLast? hs (by rwa [List.getLast?_cons_cons])
      rw [List.getLast?_cons, hrest]
      rfl
  | _, [], h => h
  | _, [_], h => h
  | _, [_, _], h => h

theorem replaceEndDots_getLast? {s : UInt8} :
    ∀ {first : Bool} {p : Str}, (replaceEndDots s first p).getLast? = p.getLast?
  | first, c :: d :: rest => by
    rw [replaceEndDots, List.getLast?_cons, replaceEndDots_getLast?, List.getLast?_cons_cons,
      List.getLast?_cons]
    rfl
  | _, [] => rfl
  | _, [_] => rfl

/-- No loop makes a dot. -/
theorem getLast?_dot_of_cleanPathChars {p : Str} {isFileName : Bool}
    (h : (cleanPathChars p isFileName).getLast? = some DOT) : p.getLast? = some DOT := by
  obtain ⟨l, -, hlast, hmask⟩ := cleanPathChars_masked p isFileName
  apply replaceBadChars_getLast?_dot.mp
  cases hl : l.getLast? with
  | none =>
    rw [List.getLast?_eq_none_iff.mp hl] at hmask
    rw [List.forall₂_nil_left_iff.mp hmask] at h
    cases h
  | some c =>
    rw [← hlast, hl]
    rcases hmask.getLast? hl with hc | hc
    · rw [← hc, h]
    · rw [h] at hc
      exact absurd hc (by decide)

/-- The loops leave a dot that is the last byte. -/
theorem cleanPathChars_getLast?_dot {p : Str} (h : p.getLast? = some DOT) :
    (cleanPathChars p false).getLast? = some DOT := by
  unfold cleanPathChars
  simp only [Bool.false_eq_true, if_false, replaceEndDots_getLast?]
  apply replaceDotDot_getLast? isSeparator_slash
  apply replaceDotDot_getLast? isSeparator_backslash
  rw [eraseDoublesFrom_getLast?, eraseDoublesFrom_getLast?, eraseDots_false_getLast?,
    eraseDots_false_getLast?]
  exact replaceBadChars_getLast?_dot.mpr h

theorem eraseDots_eq_dot {s : UInt8} (hs : IsSeparator s) {p : Str}
    (h : eraseDots s false p = [DOT]) : p = [DOT] := by
  cases p with
  | nil => cases h
  | cons c p =>
    rw [eraseDots_false_cons, List.cons.injEq] at h
    obtain ⟨rfl, h⟩ := h
    rw [beq_eq_false_iff_ne.mpr hs.ne_dot.symm] at h
    cases p with
    | nil => rfl
    | cons d p =>
      rw [eraseDots_false_cons] at h
      cases h

theorem eraseDoublesFrom_eq_dot {s : UInt8} {p : Str} (h : eraseDoublesFrom s false p = [DOT]) :
    p = [DOT] := by
  cases p with
  | nil => cases h
  | cons c p =>
    rw [eraseDoublesFrom_cons, List.cons.injEq] at h
    cases p with
    | nil => rw [h.1]
    | cons d p =>
      rw [eraseDoubles_false_cons] at h
      cases h.2

/-- Only the path of a single dot is cleaned to one. -/
theorem cleanPathChars_eq_dot {p : Str} (h : cleanPathChars p false = [DOT]) : p = [DOT] := by
  have hmask := masked_loops (eraseDoublesFrom PATH_SEPARATOR false (eraseDoublesFrom BACKSLASH
    false (eraseDots PATH_SEPARATOR false (eraseDots BACKSLASH false (replaceBadChars p)))))
    true false
  unfold cleanPathChars at h
  simp only [Bool.false_eq_true, if_false] at h
  rw [h] at hmask
  have hl : eraseDoublesFrom PATH_SEPARATOR false (eraseDoublesFrom BACKSLASH false
      (eraseDots PATH_SEPARATOR false (eraseDots BACKSLASH false (replaceBadChars p)))) =
      [DOT] := by
    generalize eraseDoublesFrom PATH_SEPARATOR false _ = l at hmask
    cases hmask with
    | cons hc hnil =>
      cases hnil
      rcases hc with hc | hc
      · rw [hc]
      · exact absurd hc (by decide)
  have hmap := eraseDots_eq_dot isSeparator_backslash (eraseDots_eq_dot isSeparator_slash
    (eraseDoublesFrom_eq_dot (eraseDoublesFrom_eq_dot hl)))
  have hlast := replaceBadChars_getLast?_dot.mp (congrArg List.getLast? hmap)
  obtain ⟨c, rfl⟩ : ∃ c, p = [c] := by
    apply List.length_eq_one_iff.mp
    rw [← List.length_map, ← replaceBadChars, hmap]
    rfl
  rw [List.getLast?_singleton, Option.some.injEq] at hlast
  rw [hlast]

/-! ## Components -/

theorem components_head {y : Str} {ys : List Str} : ∀ {p : Str}, components p = y :: ys →
    ∃ v, p = y ++ v ∧ (v = [] ∨ ∃ s w, v = s :: w ∧ IsSeparator s)
  | [], h => by
    rw [components, List.splitOnP_nil, List.cons.injEq] at h
    exact ⟨[], by rw [← h.1]; rfl, Or.inl rfl⟩
  | c :: p, h => by
    rw [components, List.splitOnP_cons_eq_if_modifyHead] at h
    split at h
    · next hc =>
      rw [List.cons.injEq] at h
      exact ⟨c :: p, by rw [← h.1]; rfl, Or.inr ⟨c, p, rfl, isSeparator_iff.mp hc⟩⟩
    · cases hp : components p with
      | nil => exact absurd hp (List.splitOnP_ne_nil _ _)
      | cons z zs =>
        obtain ⟨v, hv, hsep⟩ := components_head hp
        rw [components] at hp
        rw [hp, List.modifyHead_cons, List.cons.injEq] at h
        exact ⟨v, by rw [← h.1, hv]; rfl, hsep⟩

/-- A component ends at a separator, or with the path. -/
theorem mem_components {x : Str} : ∀ {p : Str}, x ∈ components p →
    ∃ u v, p = u ++ x ++ v ∧ (v = [] ∨ ∃ s w, v = s :: w ∧ IsSeparator s)
  | [], h => by
    rw [components, List.splitOnP_nil, List.mem_singleton] at h
    exact ⟨[], [], by rw [h]; rfl, Or.inl rfl⟩
  | c :: p, h => by
    cases hp : components (c :: p) with
    | nil => rw [hp] at h; cases h
    | cons y ys =>
      rw [hp, List.mem_cons] at h
      rcases h with rfl | hx
      · obtain ⟨v, hv, hsep⟩ := components_head hp
        exact ⟨[], v, hv, hsep⟩
      · have htail : x ∈ components p := by
          rw [components, List.splitOnP_cons_eq_if_modifyHead] at hp
          split at hp
          · rw [List.cons.injEq] at hp
            rw [components, hp.2]
            exact hx
          · cases hq : p.splitOnP isSeparator with
            | nil => exact absurd hq (List.splitOnP_ne_nil _ _)
            | cons z zs =>
              rw [hq, List.modifyHead_cons, List.cons.injEq] at hp
              rw [components, hq, hp.2]
              exact List.mem_cons_of_mem z hx
        obtain ⟨u, v, hv, hsep⟩ := mem_components htail
        exact ⟨c :: u, v, by rw [hv]; rfl, hsep⟩

/-- A clean path that does not end in a dot has no component `..`: a separator behind it would
    make a pair that is not plain. -/
theorem IsClean.dotdot_notMem {p : Str} (h : IsClean p) (hlast : p.getLast? ≠ some DOT) :
    DOTDOT ∉ components p := by
  intro hmem
  obtain ⟨u, v, rfl, hv⟩ := mem_components hmem
  rcases hv with rfl | ⟨s, w, rfl, hs⟩
  · apply hlast
    rw [List.append_nil, List.getLast?_append]
    rfl
  · have hplain : Plain DOT s := by
      cases u with
      | nil => exact (List.isChain_cons_cons.mp h).1
      | cons c u =>
        have hchain : (u ++ [DOT] ++ DOT :: s :: w).IsChain Plain := by
          simpa [IsClean, DOTDOT] using h
        exact (List.isChain_cons_cons.mp (List.isChain_append.mp hchain).2.1).1
    exact hplain.1 ⟨rfl, hs⟩

/-- A separator may follow a clean path that does not end in a dot or a separator. -/
theorem IsClean.concat_separator {p : Str} (h : IsClean p) (hdot : p.getLast? ≠ some DOT)
    (hslash : p.getLast? ≠ some PATH_SEPARATOR) : IsClean (p ++ [PATH_SEPARATOR]) := by
  cases p with
  | nil => exact List.isChain_nil
  | cons c t =>
    refine List.isChain_append.mpr ⟨h, List.isChain_singleton _, ?_⟩
    intro x hx y hy
    obtain rfl : PATH_SEPARATOR = y := by simpa using hy
    cases t with
    | nil => cases hx
    | cons d t =>
      rw [List.getLast?_cons_cons, hx, ne_eq, Option.some.injEq] at hdot hslash
      exact ⟨fun h => hdot h.1, fun h => hslash h.1⟩

/-- What `validatePath` returns for a path that does not end in a dot. -/
theorem validatePath_spec {p : Str} (hlast : p.getLast? ≠ some DOT) (r : Bool) :
    IsClean (validatePath p r) ∧ (validatePath p r).getLast? ≠ some DOT ∧
      (∀ c ∈ validatePath p r, isBadChar c = false) ∧
      (r = true → ensureTrailingSlash (validatePath p r) = validatePath p r) := by
  have hclean := isClean_cleanPathChars p
  have hdot : (cleanPathChars p false).getLast? ≠ some DOT :=
    fun h => hlast (getLast?_dot_of_cleanPathChars h)
  have hbad := isBadChar_cleanPathChars p false
  unfold validatePath
  cases r with
  | false => exact ⟨hclean, hdot, hbad, fun h => absurd h Bool.false_ne_true⟩
  | true =>
    rw [if_pos rfl]
    generalize cleanPathChars p false = q at hclean hdot hbad
    cases hq : q.getLast? with
    | none =>
      obtain rfl := List.getLast?_eq_none_iff.mp hq
      exact ⟨hclean, hdot, hbad, fun _ => rfl⟩
    | some c =>
      by_cases hc : c = PATH_SEPARATOR
      · rw [hc] at hq
        rw [ensureTrailingSlash_of_directory hq]
        exact ⟨hclean, hdot, hbad, fun _ => ensureTrailingSlash_of_directory hq⟩
      · rw [ensureTrailingSlash_append hq hc]
        refine ⟨hclean.concat_separator hdot ?_, ?_, ?_, fun _ => ?_⟩
        · rw [hq]
          exact fun h => hc (Option.some.inj h)
        · rw [List.getLast?_concat]
          decide
        · intro d hd
          rcases List.mem_append.mp hd with hd | hd
          · exact hbad d hd
          · rw [List.mem_singleton.mp hd]
            decide
        · exact ensureTrailingSlash_of_directory List.getLast?_concat

theorem validatePath_validatePath {p : Str} (hlast : p.getLast? ≠ some DOT) (r : Bool) :
    validatePath (validatePath p r) r = validatePath p r := by
  obtain ⟨hclean, -, hbad, hslash⟩ := validatePath_spec hlast r
  conv_lhs => rw [validatePath, cleanPathChars_of_isClean hclean hbad]
  split
  · next hr => exact hslash hr
  · rfl

/-- The separator `validatePath` puts behind a dot is seen by the next validation. -/
theorem validatePath_unstable {p : Str} (hlast : p.getLast? = some DOT) (hp : p ≠ [DOT]) :
    validatePath (validatePath p true) true ≠ validatePath p true := by
  intro heq
  have hdot := cleanPathChars_getLast?_dot hlast
  have hval : validatePath p true = cleanPathChars p false ++ [PATH_SEPARATOR] := by
    rw [validatePath, if_pos rfl, ensureTrailingSlash_append hdot (by decide)]
  have hclean : IsClean (validatePath p true) := by
    rw [← heq]
    exact (validatePath_directory (by rw [hval, List.getLast?_concat])).1
  have hne : cleanPathChars p false ≠ [DOT] := fun h => hp (cleanPathChars_eq_dot h)
  rw [hval] at hclean
  generalize cleanPathChars p false = q at hdot hne hclean
  cases q with
  | nil => cases hdot
  | cons c t =>
    cases t with
    | nil =>
      rw [List.getLast?_singleton, Option.some.injEq] at hdot
      exact hne (by rw [hdot])
    | cons d t =>
      rw [List.getLast?_cons_cons] at hdot
      have hplain := (List.isChain_append.mp (show ((d :: t) ++ [PATH_SEPARATOR]).IsChain Plain from
        hclean)).2.2 DOT hdot PATH_SEPARATOR rfl
      exact hplain.1 ⟨rfl, Or.inl rfl⟩

/-! ## File names -/

theorem cleanPathSeparators_of_none {p : Str} (h : ∀ c ∈ p, isSeparator c = false) :
    cleanPathSeparators p = p := by
  unfold cleanPathSeparators
  conv_rhs => rw [← List.map_id p]
  exact List.map_congr_left fun c hc => by
    have hsep := h c hc
    rw [isSeparator] at hsep
    rw [hsep]
    rfl

theorem isSeparator_validateFileName (p : Str) :
    ∀ c ∈ validateFileName p, isSeparator c = false := by
  intro c hc
  unfold validateFileName cleanPathChars at hc
  dsimp only at hc
  rw [if_pos rfl] at hc
  obtain ⟨d, -, rfl⟩ := List.mem_map.mp hc
  split
  · decide
  · next h =>
    rw [isSeparator]
    simpa using h

/-- A name without separators is not edited either. -/
theorem validateFileName_of_none {p : Str} (hsep : ∀ c ∈ p, isSeparator c = false)
    (hbad : ∀ c ∈ p, isBadChar c = false) : validateFileName p = p := by
  have hchain : p.IsChain Plain := by
    apply List.isChain_iff_forall_rel_of_append_cons_cons.mpr
    intro x y u v hp
    have hx : isSeparator x = false := hsep x (by rw [hp]; simp)
    have hy : isSeparator y = false := hsep y (by rw [hp]; simp)
    refine ⟨fun h => ?_, fun h => ?_⟩
    · rw [isSeparator_iff.mpr h.2] at hy
      cases hy
    · rw [isSeparator_iff.mpr h.2] at hx
      cases hx
  have hb := isSeparator_backslash
  have hs := isSeparator_slash
  have hends : ∀ s, IsSeparator s → replaceEndDots s true p = p := by
    intro s hs
    cases p with
    | nil => rfl
    | cons c t =>
      have htail : t.IsChain Plain := hchain.tail
      rw [replaceEndDots_true_cons, replaceEndDots_of_plain hs htail]
  unfold validateFileName cleanPathChars
  rw [replaceBadChars_of_none hbad]
  simp only [if_true, eraseDoublesFrom, eraseDots_of_plain hb hchain, eraseDots_of_plain hs hchain,
    eraseDoubles_false_of_plain hb hchain, eraseDoubles_false_of_plain hs hchain,
    replaceDotDot_of_plain hb hchain, replaceDotDot_of_plain hs hchain, hends _ hb, hends _ hs]
  exact cleanPathSeparators_of_none hsep

theorem validateFileName_validateFileName (p : Str) :
    validateFileName (validateFileName p) = validateFileName p :=
  validateFileName_of_none (isSeparator_validateFileName p) (isBadChar_cleanPathChars p true)

/-- A name has no separator, so it is its only component. -/
theorem validateFileName_dotdot_notMem {p : Str} (hlast : p.getLast? ≠ some DOT) :
    DOTDOT ∉ components (validateFileName p) := by
  intro hmem
  obtain ⟨u, v, hp, hv⟩ := mem_components hmem
  have hsep := isSeparator_validateFileName p
  rcases hv with rfl | ⟨s, w, rfl, hs⟩
  · apply hlast
    apply getLast?_dot_of_cleanPathChars
    rw [show cleanPathChars p true = u ++ DOTDOT from hp.trans (List.append_nil _),
      List.getLast?_append]
    rfl
  · have hfalse := hsep s (by rw [hp]; simp)
    rw [isSeparator_iff.mpr hs] at hfalse
    cases hfalse

/-! ## Validation -/

/-- Neither function leaves a `..` component, a name has no separator, and both functions are
    stable at `p`. -/
structure Validated (p : Str) : Prop where
  path_dotdot : ∀ r, DOTDOT ∉ components (validatePath p r)
  name_dotdot : DOTDOT ∉ components (validateFileName p)
  name_separator : ∀ c ∈ validateFileName p, c ≠ PATH_SEPARATOR ∧ c ≠ BACKSLASH
  path_stable : ∀ r, validatePath (validatePath p r) r = validatePath p r
  name_stable : validateFileName (validateFileName p) = validateFileName p

theorem validateFileName_separator (p : Str) :
    ∀ c ∈ validateFileName p, c ≠ PATH_SEPARATOR ∧ c ≠ BACKSLASH := by
  intro c hc
  have hsep := isSeparator_validateFileName p c hc
  simpa [isSeparator] using hsep

/-- The path `..` below a directory: the component is left alone, with or without the separator
    behind it, and the separator changes what a second validation makes of it. -/
theorem not_validated_dotdot :
    validatePath (str "foo/..") true = str "foo/../" ∧
      DOTDOT ∈ components (validatePath (str "foo/..") true) ∧
      validatePath (validatePath (str "foo/..") true) true = str "foo/___/" ∧
      validateFileName DOTDOT = DOTDOT ∧ ¬ Validated (str "foo/..") :=
  ⟨by decide, by decide, by decide, by decide,
    fun h =>
      h.path_dotdot true (by decide : DOTDOT ∈ components (validatePath (str "foo/..") true))⟩

/-- **Validation removes traversal and is stable for exactly the paths that do not end in a dot**,
    and for the path of a single one. -/
theorem validated_iff (p : Str) : Validated p ↔ p = [DOT] ∨ p.getLast? ≠ some DOT := by
  constructor
  · intro h
    by_cases hlast : p.getLast? = some DOT
    · refine Or.inl (Classical.byContradiction fun hp => ?_)
      exact validatePath_unstable hlast hp (h.path_stable true)
    · exact Or.inr hlast
  · intro h
    rcases h with rfl | hlast
    · exact ⟨by decide, by decide, validateFileName_separator _, by decide,
        validateFileName_validateFileName _⟩
    · refine ⟨?_, validateFileName_dotdot_notMem hlast, validateFileName_separator p,
        validatePath_validatePath hlast, validateFileName_validateFileName p⟩
      intro r
      obtain ⟨hclean, hdot, -⟩ := validatePath_spec hlast r
      exact hclean.dotdot_notMem hdot

end PathUtil
end Airdcpp
