import Airdcpp.Util.PathUtil

/-!
# `Queue/PathWalk` — the directories `forEachPath` visits

`BundleQueue::forEachPath` starts at a file's directory and goes up one directory at a time
until the length of the path is that of the bundle's target. `pathsUp` is the list of the paths
it visits. `getParentDir` of a topmost directory is that directory, so a walk that has not met
the length by then goes round there for ever: `pathsUp` is `none` (`pathsUp_eq_none_iff`).

Inside the bundle's directory the walk is what it should be (`pathsUp_of_prefix`): it visits
every directory between the two, each once, and stops at the bundle's target.
-/

namespace Airdcpp

open PathUtil

namespace PathUtil

/-- A directory path is one component, or has a parent. -/
theorem directory_cases {p : Str} (h : isDirectoryPath p = true) :
    (∃ r, p = r ++ [PATH_SEPARATOR] ∧ PATH_SEPARATOR ∉ r) ∨
    ∃ q r, p = q ++ PATH_SEPARATOR :: (r ++ [PATH_SEPARATOR]) ∧ PATH_SEPARATOR ∉ r := by
  obtain ⟨p, rfl⟩ : ∃ p', p = p' ++ [PATH_SEPARATOR] :=
    List.getLast?_eq_some_iff.mp (by simpa [isDirectoryPath] using h)
  by_cases hp : PATH_SEPARATOR ∈ p
  · obtain ⟨q, r, rfl, hr⟩ := exists_last_separator hp
    exact Or.inr ⟨q, r, by simp, hr⟩
  · exact Or.inl ⟨p, rfl, hp⟩

theorem getParentDir_eq_or_length_lt (p : Str) :
    getParentDir p = p ∨ (getParentDir p).length < p.length := by
  by_cases hp : PATH_SEPARATOR ∈ p
  · obtain ⟨q, r, rfl, hr⟩ := exists_last_separator hp
    unfold getParentDir
    rw [rfind_append_cons q hr]
    simp only
    cases hj : rfindBefore PATH_SEPARATOR (q ++ PATH_SEPARATOR :: r) q.length with
    | none => exact Or.inl rfl
    | some j =>
      simp only [List.length_take]
      rcases Nat.lt_or_ge (j + 1) (q ++ PATH_SEPARATOR :: r).length with hlt | hge
      · exact Or.inr (by omega)
      · exact Or.inl (List.take_of_length_le hge)
  · unfold getParentDir
    rw [rfind_eq_none hp]
    exact Or.inl rfl

/-- The directories above a directory are it and those above its parent. -/
theorem prefix_parent {d q r : Str} (hr : PATH_SEPARATOR ∉ r) (hd : isDirectoryPath d = true)
    (h : d <+: q ++ PATH_SEPARATOR :: (r ++ [PATH_SEPARATOR])) :
    d = q ++ PATH_SEPARATOR :: (r ++ [PATH_SEPARATOR]) ∨ d <+: q ++ [PATH_SEPARATOR] := by
  have hsplit : q ++ PATH_SEPARATOR :: (r ++ [PATH_SEPARATOR]) =
      (q ++ [PATH_SEPARATOR]) ++ (r ++ [PATH_SEPARATOR]) := by simp
  rw [hsplit] at h ⊢
  rcases Nat.lt_or_ge (q ++ [PATH_SEPARATOR]).length d.length with hlt | hle
  · -- `d` goes on into the last component, and ends at its separator
    obtain ⟨e, rfl⟩ := List.prefix_of_prefix_length_le (List.prefix_append _ _) h hlt.le
    obtain ⟨e, rfl⟩ : ∃ e', e = e' ++ [PATH_SEPARATOR] := by
      have hne : e ≠ [] := by rintro rfl; simp at hlt
      have hlast : (q ++ [PATH_SEPARATOR] ++ e).getLast? = some PATH_SEPARATOR := beq_iff_eq.mp hd
      rw [List.getLast?_append_of_ne_nil _ hne] at hlast
      exact List.getLast?_eq_some_iff.mp hlast
    have hpre : e ++ [PATH_SEPARATOR] <+: r ++ [PATH_SEPARATOR] :=
      (List.prefix_append_right_inj _).mp h
    left
    rcases Nat.lt_or_ge e.length r.length with hlt' | hge
    · -- the separator would be inside the component
      have := (List.prefix_iff_getElem?.mp hpre) e.length (by simp)
      rw [List.getElem?_append_left hlt'] at this
      refine absurd (List.mem_of_getElem? this) ?_
      simpa using hr
    · rw [hpre.eq_of_length (by
        have := hpre.length_le
        simp only [List.length_append, List.length_singleton] at this ⊢
        omega)]
  · exact Or.inr (List.prefix_of_prefix_length_le h (List.prefix_append _ _) hle)

end PathUtil

namespace BundleQueue

/-- The paths `forEachPath` visits for a bundle with this target, starting at `currentPath`;
    `none` if it never stops. -/
def pathsUp (aTarget currentPath : Str) : Option (List Str) :=
  if currentPath.length = aTarget.length then some [currentPath]
  else if (getParentDir currentPath).length < currentPath.length then
    (pathsUp aTarget (getParentDir currentPath)).map (currentPath :: ·)
  else none
termination_by currentPath.length

/-- **No list means no end**: no path on the way up has the length the loop waits for. -/
theorem pathsUp_eq_none_iff (aTarget currentPath : Str) : pathsUp aTarget currentPath = none ↔
    ∀ n, (getParentDir^[n] currentPath).length ≠ aTarget.length := by
  fun_induction pathsUp aTarget currentPath with
  | case1 p h =>
    exact ⟨fun hn => absurd hn (by simp), fun hn => absurd h (hn 0)⟩
  | case2 p h hlt ih =>
    rw [Option.map_eq_none_iff, ih]
    constructor
    · rintro hn (_ | n)
      · exact h
      · exact hn n
    · exact fun hn n => hn (n + 1)
  | case3 p h hlt =>
    refine ⟨fun _ n => ?_, fun _ => rfl⟩
    have hfix : getParentDir p = p := (getParentDir_eq_or_length_lt p).resolve_right hlt
    rw [Function.iterate_fixed hfix]
    exact h

/-- The directories from `dir` up to `aTarget`, each once, the deepest first. -/
structure VisitsExactly (aTarget dir : Str) (dirs : List Str) : Prop where
  mem : ∀ d, d ∈ dirs ↔ isDirectoryPath d = true ∧ d <+: dir ∧ aTarget <+: d
  order : dirs.Pairwise fun a b => b.length < a.length

/-- **Inside the bundle's directory the walk goes up to the bundle's target.** -/
theorem pathsUp_of_prefix {aTarget p : Str} (ht : isDirectoryPath aTarget = true)
    (hp : isDirectoryPath p = true) (h : aTarget <+: p) :
    ∃ dirs, pathsUp aTarget p = some dirs ∧ VisitsExactly aTarget p dirs := by
  rw [pathsUp]
  by_cases hlen : p.length = aTarget.length
  · obtain rfl := h.eq_of_length hlen.symm
    rw [if_pos rfl]
    refine ⟨_, rfl, fun d => ?_, List.pairwise_singleton _ _⟩
    rw [List.mem_singleton]
    constructor
    · rintro rfl
      exact ⟨hp, List.prefix_rfl, List.prefix_rfl⟩
    · intro h
      obtain ⟨-, h₁, h₂⟩ := h
      exact h₁.eq_of_length (le_antisymm h₁.length_le h₂.length_le)
  · rw [if_neg hlen]
    rcases directory_cases hp with ⟨r, rfl, hr⟩ | ⟨q, r, rfl, hr⟩
    · -- a topmost directory has no directory path in front of it
      obtain ⟨e, he⟩ := h
      obtain ⟨t, rfl⟩ : ∃ t', aTarget = t' ++ [PATH_SEPARATOR] :=
        List.getLast?_eq_some_iff.mp (by simpa [isDirectoryPath] using ht)
      refine absurd ?_ hr
      cases List.eq_nil_or_concat e with
      | inl hnil => exact absurd (by rw [← he, hnil, List.append_nil]) hlen
      | inr hcat =>
        obtain ⟨e, x, rfl⟩ := hcat
        rw [List.concat_eq_append, ← List.append_assoc] at he
        have := (List.append_inj_left' he rfl)
        rw [← this]
        simp
    · have hparent := getParentDir_append (q := q) hr
      have hlt : (q ++ [PATH_SEPARATOR]).length <
          (q ++ PATH_SEPARATOR :: (r ++ [PATH_SEPARATOR])).length := by simp
      rw [hparent, if_pos hlt]
      have hup : aTarget <+: q ++ [PATH_SEPARATOR] :=
        (prefix_parent hr ht h).resolve_left fun heq => hlen (by rw [heq])
      obtain ⟨dirs, hdirs, hmem, hord⟩ :=
        pathsUp_of_prefix ht (show isDirectoryPath (q ++ [PATH_SEPARATOR]) = true by
          simp [isDirectoryPath]) hup
      refine ⟨_, by rw [hdirs]; rfl, fun d => ?_, List.pairwise_cons.mpr ⟨fun d hd => ?_, hord⟩⟩
      · rw [List.mem_cons, hmem]
        constructor
        · rintro (rfl | ⟨hd, h₁, h₂⟩)
          · exact ⟨hp, List.prefix_rfl, h⟩
          · exact ⟨hd, h₁.trans ⟨r ++ [PATH_SEPARATOR], by simp⟩, h₂⟩
        · intro h
          obtain ⟨hd, h₁, h₂⟩ := h
          exact (prefix_parent hr hd h₁).imp id fun h₁ => ⟨hd, h₁, h₂⟩
      · exact lt_of_le_of_lt ((hmem d).mp hd).2.1.length_le hlt
termination_by p.length

end BundleQueue
end Airdcpp
