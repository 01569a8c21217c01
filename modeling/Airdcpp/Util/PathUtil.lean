import Airdcpp.Core.Types

/-!
# `Util/PathUtil` — paths as bytes

`PathUtil` of a build with `/` for `PATH_SEPARATOR`. Paths are byte strings; nothing in here
knows about components except through the separators it searches for.

The search loops of `cleanPathChars` are written as one walk over the path each: a loop
`while ((i = tmp.find(pattern, i)) != npos)` that edits at `i` and goes on from there is a
recursion that carries what it needs to know about the byte before.
-/

namespace Airdcpp
namespace PathUtil

def PATH_SEPARATOR : UInt8 := 47
def BACKSLASH : UInt8 := 92
def DOT : UInt8 := 46
def UNDERSCORE : UInt8 := 95

/-! ## `cleanPathChars` -/

/-- In `badChars`: the control characters, up to the null that ends the list. -/
def isBadChar (c : UInt8) : Bool := decide (0 < c) && decide (c < 32)

def replaceBadChars (tmp : Str) : Str := tmp.map fun c => if isBadChar c then UNDERSCORE else c

/-- Erase `.s` behind every `s`; `after` says that the byte before is an `s`. -/
def eraseDots (s : UInt8) : Bool → Str → Str
  | after, c :: d :: rest =>
    if after && c == DOT && d == s then eraseDots s true rest
    else c :: eraseDots s (c == s) (d :: rest)
  | _, tmp => tmp

/-- Erase every `s` behind an `s`. -/
def eraseDoubles (s : UInt8) : Bool → Str → Str
  | after, c :: rest =>
    if after && c == s then eraseDoubles s true rest else c :: eraseDoubles s (c == s) rest
  | _, [] => []

/-- Doubled separators may stand at the beginning of a path, where the search starts at the
    second byte. -/
def eraseDoublesFrom (s : UInt8) (isFileName : Bool) (tmp : Str) : Str :=
  if isFileName then eraseDoubles s false tmp
  else match tmp with
    | [] => []
    | c :: rest => c :: eraseDoubles s false rest

/-- Every `s..s` becomes `s___`. -/
def replaceDotDot (s : UInt8) : Bool → Str → Str
  | after, c :: d :: e :: rest =>
    if after && c == DOT && d == DOT && e == s then
      UNDERSCORE :: UNDERSCORE :: UNDERSCORE :: replaceDotDot s false rest
    else c :: replaceDotDot s (c == s) (d :: e :: rest)
  | _, tmp => tmp

/-- A dot in front of an `s` becomes `_`, unless it is the first byte of the path. -/
def replaceEndDots (s : UInt8) : Bool → Str → Str
  | first, c :: d :: rest =>
    (if c == DOT && d == s && !first then UNDERSCORE else c) :: replaceEndDots s false (d :: rest)
  | _, tmp => tmp

def cleanPathSeparators (str : Str) : Str :=
  str.map fun c => if c == PATH_SEPARATOR || c == BACKSLASH then UNDERSCORE else c

def cleanPathChars (tmp : Str) (isFileName : Bool) : Str :=
  let tmp := replaceBadChars tmp
  let tmp := eraseDots PATH_SEPARATOR false (eraseDots BACKSLASH false tmp)
  let tmp := eraseDoublesFrom PATH_SEPARATOR isFileName (eraseDoublesFrom BACKSLASH isFileName tmp)
  let tmp := replaceDotDot PATH_SEPARATOR false (replaceDotDot BACKSLASH false tmp)
  let tmp := replaceEndDots PATH_SEPARATOR true (replaceEndDots BACKSLASH true tmp)
  if isFileName then cleanPathSeparators tmp else tmp

/-! ## Directories and file names -/

def isDirectoryPath (aPath : Str) : Bool := aPath.getLast? == some PATH_SEPARATOR

def ensureTrailingSlash (aPath : Str) : Str :=
  if !aPath.isEmpty && !isDirectoryPath aPath then aPath ++ [PATH_SEPARATOR] else aPath

def validatePath (aPath : Str) (aRequireEndSeparator : Bool) : Str :=
  let path := cleanPathChars aPath false
  if aRequireEndSeparator then ensureTrailingSlash path else path

def joinDirectory (aPath aDirectoryName : Str) : Str := aPath ++ aDirectoryName ++ [PATH_SEPARATOR]

/-- `rfind(c)` -/
def rfind (c : UInt8) : Str → Option Nat
  | [] => none
  | x :: p =>
    match rfind c p with
    | some i => some (i + 1)
    | none => if x = c then some 0 else none

/-- `path.rfind(c, i - 1)`. For `i = 0` the position wraps around to `npos`, and the whole path
    is searched. -/
def rfindBefore (c : UInt8) (path : Str) (i : Nat) : Option Nat :=
  if i = 0 then rfind c path else rfind c (path.take i)

def getFilePath (path : Str) : Str :=
  match rfind PATH_SEPARATOR path with
  | some i => path.take (i + 1)
  | none => path

def getFileName (path : Str) : Str :=
  match rfind PATH_SEPARATOR path with
  | some i => path.drop (i + 1)
  | none => path

/-- `getParentDir` with `allowEmpty` off. -/
def getParentDir (path : Str) : Str :=
  match rfind PATH_SEPARATOR path with
  | none => path
  | some i =>
    match rfindBefore PATH_SEPARATOR path i with
    | some j => path.take (j + 1)
    | none => path

/-- The name of the directory a directory path leads to. When the only separator is in front, it is
    found twice, and `i-j-1` wraps around to `npos`. -/
def getLastDir (path : Str) : Str :=
  match rfind PATH_SEPARATOR path with
  | none => path
  | some i =>
    match rfindBefore PATH_SEPARATOR path i with
    | none => path.take i
    | some j => if i = j then path.drop (j + 1) else (path.take i).drop (j + 1)

/-! ## Where the last separator is -/

theorem rfind_eq_none {c : UInt8} {p : Str} (h : c ∉ p) : rfind c p = none := by
  induction p with
  | nil => rfl
  | cons x p ih =>
    rw [rfind, ih fun hp => h (List.mem_cons_of_mem _ hp), if_neg]
    intro hx
    exact h (hx ▸ List.mem_cons_self ..)

theorem rfind_append_cons {c : UInt8} (q : Str) {r : Str} (h : c ∉ r) :
    rfind c (q ++ c :: r) = some q.length := by
  induction q with
  | nil => rw [List.nil_append, rfind, rfind_eq_none h, if_pos rfl]; rfl
  | cons x q ih => rw [List.cons_append, rfind, ih]; rfl

theorem rfind_getD {c : UInt8} {p : Str} {i : Nat} (h : rfind c p = some i) : p.getD i 0 = c := by
  induction p generalizing i with
  | nil => cases h
  | cons x p ih =>
    rw [rfind] at h
    cases hp : rfind c p with
    | some j =>
      rw [hp, Option.some.injEq] at h
      subst h
      exact ih hp
    | none =>
      rw [hp] at h
      simp only at h
      split at h
      · cases h
        assumption
      · cases h

theorem rfind_lt {c : UInt8} {p : Str} {i : Nat} (h : rfind c p = some i) : i < p.length := by
  induction p generalizing i with
  | nil => cases h
  | cons x p ih =>
    rw [rfind] at h
    cases hp : rfind c p with
    | some j =>
      rw [hp, Option.some.injEq] at h
      subst h
      exact Nat.succ_lt_succ (ih hp)
    | none =>
      rw [hp] at h
      simp only at h
      split at h
      · cases h
        exact Nat.succ_pos _
      · cases h

/-- The last occurrence. -/
theorem exists_last {c : UInt8} {p : Str} (h : c ∈ p) : ∃ q r, p = q ++ c :: r ∧ c ∉ r := by
  induction p with
  | nil => exact absurd h (by simp)
  | cons x p ih =>
    by_cases hp : c ∈ p
    · obtain ⟨q, r, rfl, hr⟩ := ih hp
      exact ⟨x :: q, r, rfl, hr⟩
    · rcases List.mem_cons.mp h with rfl | h
      · exact ⟨[], p, rfl, hp⟩
      · exact absurd h hp

/-- Behind its last separator a path has none. -/
theorem exists_last_separator {p : Str} (h : PATH_SEPARATOR ∈ p) :
    ∃ q r, p = q ++ PATH_SEPARATOR :: r ∧ PATH_SEPARATOR ∉ r := exists_last h

theorem getFilePath_append {q r : Str} (hr : PATH_SEPARATOR ∉ r) :
    getFilePath (q ++ PATH_SEPARATOR :: r) = q ++ [PATH_SEPARATOR] := by
  unfold getFilePath
  rw [rfind_append_cons q hr]
  simp only
  rw [show q ++ PATH_SEPARATOR :: r = (q ++ [PATH_SEPARATOR]) ++ r by simp]
  exact List.take_left' (by simp)

/-- What lies in a directory has a directory for its file path. -/
theorem isDirectoryPath_getFilePath {d p : Str} (hd : isDirectoryPath d = true)
    (h : d <+: getFilePath p) : isDirectoryPath (getFilePath p) = true := by
  by_cases hp : PATH_SEPARATOR ∈ p
  · obtain ⟨q, r, rfl, hr⟩ := exists_last_separator hp
    rw [getFilePath_append hr]
    simp [isDirectoryPath]
  · have hfile : getFilePath p = p := by
      unfold getFilePath
      rw [rfind_eq_none hp]
    rw [hfile] at h
    have hlast : d.getLast? = some PATH_SEPARATOR := by simpa [isDirectoryPath] using hd
    exact absurd (h.subset (List.mem_of_getLast? hlast)) hp

/-- The parent of a directory is what is left without its last component. -/
theorem getParentDir_append {q r : Str} (hr : PATH_SEPARATOR ∉ r) :
    getParentDir (q ++ PATH_SEPARATOR :: (r ++ [PATH_SEPARATOR])) = q ++ [PATH_SEPARATOR] := by
  have hlast : q ++ PATH_SEPARATOR :: (r ++ [PATH_SEPARATOR]) =
      (q ++ PATH_SEPARATOR :: r) ++ PATH_SEPARATOR :: [] := by simp
  unfold getParentDir
  rw [hlast, rfind_append_cons _ (by simp)]
  simp only
  unfold rfindBefore
  rw [if_neg (by simp), List.take_left, rfind_append_cons q hr]
  simp only
  rw [show q ++ PATH_SEPARATOR :: r ++ [PATH_SEPARATOR] =
    (q ++ [PATH_SEPARATOR]) ++ (r ++ [PATH_SEPARATOR]) by simp]
  exact List.take_left' (by simp)

end PathUtil
end Airdcpp
