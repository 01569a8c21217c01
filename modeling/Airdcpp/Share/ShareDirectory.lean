import Airdcpp.Lib.Loop
import Airdcpp.Lib.SortedVector
import Airdcpp.Util.DualString
import Airdcpp.Util.Positions

/-!
# `Share/ShareDirectory` — shared directories, and how one is found by its path

A directory has its files and its subdirectories in vectors that are sorted by the names in lower
case. The ones of a tree are `Formed`.

`findDirectoryByPath` goes down the tree with what is left of the path. The last component is known
by the separator behind it. Without one, the search goes on in the directory that the whole path has
led to, with the path as it was, until there is no such name any more (`findDirectoryByPath_iff`).
-/

namespace Airdcpp

open Lib Loop

/-- `ShareDirectory::File` -/
structure ShareFile where
  name : DualString
  size : Int := 0
  lastWrite : Int := 0
  tth : TTHValue := Vector.replicate 24 0
deriving DecidableEq, Repr

inductive ShareDirectory
  /-- `virtualName` is that of the root, if the directory is one. -/
  | mk (realName : DualString) (virtualName : Option DualString) (lastWrite : Int)
    (files : List ShareFile) (directories : List ShareDirectory)

namespace ShareDirectory

def realName : ShareDirectory → DualString
  | mk name _ _ _ _ => name

def virtualName : ShareDirectory → Option DualString
  | mk _ name _ _ _ => name

def lastWrite : ShareDirectory → Int
  | mk _ _ time _ _ => time

def files : ShareDirectory → List ShareFile
  | mk _ _ _ files _ => files

def directories : ShareDirectory → List ShareDirectory
  | mk _ _ _ _ directories => directories

/-- `NameLower` -/
def nameLower (d : ShareDirectory) : Str := d.realName.getLower

def getVirtualNameLower (d : ShareDirectory) : Str := (d.virtualName.getD d.realName).getLower

/-- The vectors of the tree are sorted. -/
inductive Formed : ShareDirectory → Prop
  | mk {d : ShareDirectory}
    (directories : d.directories.Pairwise fun x y => x.nameLower < y.nameLower)
    (files : d.files.Pairwise fun x y => x.name.getLower < y.name.getLower)
    (below : ∀ c ∈ d.directories, Formed c) : Formed d

/-! ## Directories by path -/

def findDirectoryLower (d : ShareDirectory) (aNameLower : Str) : Option ShareDirectory :=
  SortedVector.findIn nameLower d.directories aNameLower

/-- Whether the first separator, at `p`, ends the path. Behind `npos` nothing is compared with it:
    `size() - 1` is `npos` for an empty path. -/
def isEnd (aPath : Str) (p : Option Nat) : Bool :=
  p.elim aPath.isEmpty fun p => p == aPath.length || p == aPath.length - 1

/-- One call of `findDirectoryByPath`: it returns, or it calls itself. `npos + 1` is zero. -/
def findRound (locale : Locale) (aSeparator : UInt8) (s : ShareDirectory × Str) :
    Option (Option ShareDirectory ⊕ (ShareDirectory × Str)) :=
  let p := find s.2 [aSeparator] 0
  (s.1.findDirectoryLower (Text.toLower locale (p.elim s.2 s.2.take))).elim (some (.inl none))
    fun c =>
      if isEnd s.2 p then some (.inl (some c))
      else (substrFrom s.2 (p.elim 0 (· + 1))).map fun rest => .inr (c, rest)

/-- What `findDirectoryByPath` returns. -/
def FindsByPath (locale : Locale) (aSeparator : UInt8) (d : ShareDirectory) (aPath : Str)
    (r : Option ShareDirectory) : Prop :=
  Returns (findRound locale aSeparator) (d, aPath) r

/-! ## Following components -/

/-- The directory the components lead to. -/
def descend (locale : Locale) : ShareDirectory → List Str → Option ShareDirectory
  | d, [] => some d
  | d, name :: names =>
    (d.directories.find? fun c => c.nameLower == Text.toLower locale name).bind fun c =>
      descend locale c names

/-- The components with separators between them, and one behind them if `trailing`. -/
def joinNames (aSeparator : UInt8) (trailing : Bool) : List Str → Str
  | [] => []
  | [name] => name ++ if trailing then [aSeparator] else []
  | name :: names => name ++ aSeparator :: joinNames aSeparator trailing names

/-- A component of a path. -/
structure IsName (aSeparator : UInt8) (name : Str) : Prop where
  ne_nil : name ≠ []
  no_separator : aSeparator ∉ name

variable {locale : Locale} {aSeparator : UInt8} {d c : ShareDirectory} {name path : Str}
  {names : List Str} {trailing : Bool}

theorem findDirectoryLower_eq (hd : d.Formed) (key : Str) :
    d.findDirectoryLower key = d.directories.find? fun c => c.nameLower == key := by
  cases hd with
  | mk hdirectories _ _ =>
    exact SortedVector.findIn_eq_find? hdirectories fun c => beq_iff_eq

theorem Formed.child (hd : d.Formed) {key : Str} (hc : d.findDirectoryLower key = some c) :
    c.Formed ∧ c ∈ d.directories := by
  rw [findDirectoryLower_eq hd] at hc
  have hmem := List.mem_of_find?_eq_some hc
  cases hd with
  | mk _ _ hbelow => exact ⟨hbelow c hmem, hmem⟩

theorem sizeOf_lt_of_mem (h : c ∈ d.directories) : sizeOf c < sizeOf d := by
  cases d with
  | mk _ _ _ _ directories =>
    have hlt := List.sizeOf_lt_of_mem (show c ∈ directories from h)
    rw [mk.sizeOf_spec]
    omega

/-! ## The calls -/

theorem find_separator_none (h : aSeparator ∉ path) : find path [aSeparator] 0 = none := by
  rw [find, List.find?_eq_none]
  intro i hi hat
  rw [char_isPrefixOf_iff] at hat
  exact h (List.mem_of_getElem? hat)

theorem find_separator (h : aSeparator ∉ name) (rest : Str) :
    find (name ++ aSeparator :: rest) [aSeparator] 0 = some name.length := by
  rw [find, List.find?_range'_eq_some]
  refine ⟨?_, ?_, fun i _ hi => ?_⟩
  · rw [char_isPrefixOf_iff]
    simp
  · simp
  · rw [Bool.not_eq_true', Bool.eq_false_iff, ne_eq, char_isPrefixOf_iff]
    intro hat
    rw [List.getElem?_append_left hi] at hat
    exact h (List.mem_of_getElem? hat)

/-- **Without a separator nothing is ever returned**: the call goes on with the same path. -/
theorem findsByPath_none (hd : d.Formed) (hne : path ≠ []) (hpath : aSeparator ∉ path) :
    FindsByPath locale aSeparator d path none := by
  induction hsize : sizeOf d using Nat.strong_induction_on generalizing d with
  | _ n ih =>
    have hround : findRound locale aSeparator (d, path) =
        (d.findDirectoryLower (Text.toLower locale path)).elim (some (.inl none)) fun c =>
          some (.inr (c, path)) := by
      rw [findRound]
      simp only [find_separator_none hpath, Option.elim_none, isEnd,
        List.isEmpty_eq_false_iff.mpr hne, Bool.false_eq_true, if_false, substrFrom,
        substr_of_le (Nat.zero_le _), List.drop_zero, List.take_length, Option.map_some]
    cases hc : d.findDirectoryLower (Text.toLower locale path) with
    | none =>
      rw [hc] at hround
      exact returns_of_return hround
    | some c =>
      rw [hc] at hround
      obtain ⟨hformed, hmem⟩ := hd.child hc
      refine (returns_iff_of_next hround).mpr (ih (sizeOf c) ?_ hformed rfl)
      rw [← hsize]
      exact sizeOf_lt_of_mem hmem

/-- One component with a separator behind it. -/
theorem findRound_name (hname : IsName aSeparator name) (rest : Str) :
    findRound locale aSeparator (d, name ++ aSeparator :: rest) =
      (d.findDirectoryLower (Text.toLower locale name)).elim (some (.inl none)) fun c =>
        if rest = [] then some (.inl (some c)) else some (.inr (c, rest)) := by
  have hend : isEnd (name ++ aSeparator :: rest) (some name.length) = decide (rest = []) := by
    rw [Bool.eq_iff_iff]
    simp only [isEnd, Option.elim_some, List.length_append, List.length_cons, Bool.or_eq_true,
      beq_iff_eq, decide_eq_true_iff, ← List.length_eq_zero_iff]
    omega
  rw [findRound]
  simp only [find_separator hname.no_separator, Option.elim_some, List.take_left, hend,
    decide_eq_true_eq, substrFrom]
  rw [substr_of_le (by simp)]
  have hdrop : (name ++ aSeparator :: rest).drop (name.length + 1) = rest := by
    rw [← List.drop_drop, List.drop_left]
    rfl
  have htake : rest.take (name ++ aSeparator :: rest).length = rest :=
    List.take_of_length_le (by simp; omega)
  simp only [hdrop, htake, Option.map_some]

theorem joinNames_ne_nil (hne : names ≠ []) (hnames : ∀ name ∈ names, IsName aSeparator name) :
    joinNames aSeparator trailing names ≠ [] := by
  obtain ⟨name, names, rfl⟩ := List.exists_cons_of_ne_nil hne
  have hname := (hnames name List.mem_cons_self).ne_nil
  cases names with
  | nil => simp [joinNames, hname]
  | cons next names => simp [joinNames, hname]

theorem joinNames_cons (hne : names ≠ []) : joinNames aSeparator trailing (name :: names) =
    name ++ aSeparator :: joinNames aSeparator trailing names := by
  cases names with
  | nil => exact absurd rfl hne
  | cons next names => rfl

/-- **With a separator at the end the components are followed**; without one nothing is found. -/
theorem findsByPath_joinNames (hd : d.Formed) (hne : names ≠ [])
    (hnames : ∀ name ∈ names, IsName aSeparator name) :
    FindsByPath locale aSeparator d (joinNames aSeparator trailing names)
      (if trailing then descend locale d names else none) := by
  induction names generalizing d with
  | nil => exact absurd rfl hne
  | cons name names ih =>
    obtain ⟨hname, hnames⟩ := List.forall_mem_cons.mp hnames
    rcases eq_or_ne names [] with rfl | hrest
    · cases trailing with
      | false =>
        rw [joinNames, if_neg Bool.false_ne_true, List.append_nil, if_neg Bool.false_ne_true]
        exact findsByPath_none hd hname.ne_nil hname.no_separator
      | true =>
        refine returns_of_return ?_
        rw [joinNames, if_pos rfl, findRound_name hname, if_pos rfl, descend,
          findDirectoryLower_eq hd]
        cases d.directories.find? fun c => c.nameLower == Text.toLower locale name <;> rfl
    · rw [joinNames_cons hrest, descend]
      have hround := @findRound_name locale _ d _ hname (joinNames aSeparator trailing names)
      cases hc : d.findDirectoryLower (Text.toLower locale name) with
      | none =>
        rw [hc] at hround
        rw [← findDirectoryLower_eq hd, hc, Option.bind_none, ite_self]
        exact returns_of_return hround
      | some c =>
        rw [hc, Option.elim_some, if_neg (joinNames_ne_nil hrest hnames)] at hround
        rw [← findDirectoryLower_eq hd, hc, Option.bind_some]
        exact (returns_iff_of_next hround).mpr (ih (hd.child hc).1 hrest hnames)

/-- **`findDirectoryByPath` always returns, and returns the directory the components lead to exactly
    when the path ends with a separator**, or there is no such directory. -/
theorem findDirectoryByPath_iff (hd : d.Formed) (hne : names ≠ [])
    (hnames : ∀ name ∈ names, IsName aSeparator name) :
    ∃ r, FindsByPath locale aSeparator d (joinNames aSeparator trailing names) r ∧
      (r = descend locale d names ↔ trailing = true ∨ descend locale d names = none) := by
  refine ⟨_, findsByPath_joinNames hd hne hnames, ?_⟩
  cases trailing with
  | false =>
    rw [if_neg Bool.false_ne_true]
    simp [eq_comm]
  | true =>
    rw [if_pos rfl]
    simp

/-- A directory with a subdirectory `a`, and nothing else. -/
def sampleDirectory : ShareDirectory :=
  mk { str := str "share" } none 0 [] [mk { str := str "a" } none 0 [] []]

/-- Code points as they are. -/
def sameLocale : Locale where
  towlower c := c
  convert s _ := s

theorem formed_sampleDirectory : sampleDirectory.Formed :=
  .mk (by simp [sampleDirectory, directories]) (by simp [sampleDirectory, files]) fun c hc => by
    obtain rfl : c = mk { str := str "a" } none 0 [] [] := by
      simpa [sampleDirectory, directories] using hc
    exact .mk (by simp [directories]) (by simp [files]) (by simp [directories])

theorem isName_a : IsName (chr '/') (str "a") := ⟨by decide, by decide⟩

theorem findDirectoryByPath_trailing :
    ∃ r, FindsByPath sameLocale (chr '/') sampleDirectory
        (joinNames (chr '/') true [str "a"]) r ∧
      (r = descend sameLocale sampleDirectory [str "a"] ↔
        true = true ∨ descend sameLocale sampleDirectory [str "a"] = none) :=
  findDirectoryByPath_iff formed_sampleDirectory (by decide) (by simpa using isName_a)

/-- The path `a`. -/
theorem findDirectoryByPath_bare :
    ¬ ∀ (locale : Locale) (aSeparator : UInt8) (d : ShareDirectory) (names : List Str)
      (trailing : Bool), d.Formed → names ≠ [] → (∀ name ∈ names, IsName aSeparator name) →
      FindsByPath locale aSeparator d (joinNames aSeparator trailing names)
        (descend locale d names) := by
  intro h
  have hfound := h sameLocale (chr '/') sampleDirectory [str "a"] false formed_sampleDirectory
    (by decide) (by simpa using isName_a)
  have hnone : FindsByPath sameLocale (chr '/') sampleDirectory (str "a") none :=
    findsByPath_none formed_sampleDirectory (by decide) (by decide)
  have hsome : (descend sameLocale sampleDirectory [str "a"]).isSome = true := by decide +kernel
  rw [hfound.unique hnone] at hsome
  cases hsome

end ShareDirectory
end Airdcpp
