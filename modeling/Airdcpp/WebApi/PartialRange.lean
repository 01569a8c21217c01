import Airdcpp.Util.NumberText
import Airdcpp.Util.Splitting

/-!
# `WebApi/PartialRange` — ranges of the files that the web server sends

A client may ask for a part of a file by a `Range` header. The header is split at the minus, and the
numbers are read by `strtoll`, which also reads a number from a text that is none. Then the file is
read from the first position on; how much is read is taken from the last position alone.

`rangeAsked` is the range that a header asks for. `serveFile_consistent_iff` says which answers are
consistent with it. A call of `read` gives what it is asked for as far as the file goes; errors, the
way from the request to the file and the conversion of `.nfo` files are left out.
-/

namespace Airdcpp
namespace HttpUtil

open Util (toInt64 natText)

def formatPartialRange (aStartPos aEndPos aFileSize : Int) : Str :=
  str "bytes " ++ Util.toString aStartPos ++ str "-" ++ Util.toString aEndPos ++ str "/" ++
    Util.toString aFileSize

/-- `parsePartialRange`: the positions if the header is accepted. -/
def parsePartialRange (aHeaderData : Str) (start_ end_ : Int) : Option (Int × Int) :=
  if find aHeaderData (str "bytes=") 0 ≠ some 0 then none
  else
    match tokens (aHeaderData.drop 6) [chr '-'] true with
    | [startToken, endToken] =>
      let parsedStart := toInt64 startToken
      if end_ < parsedStart ∨ parsedStart < 0 then none
      else if endToken = [] then some (parsedStart, end_ - start_)
      else
        let parsedEnd := toInt64 endToken
        if end_ < parsedEnd ∨ parsedEnd ≤ parsedStart then none else some (parsedStart, parsedEnd)
    | _ => none

inductive FileStatus
  | ok
  | partialContent
deriving DecidableEq, Repr

/-- What `handleGetRequest` answers. -/
structure FileResponse where
  status : FileStatus
  headers : List (Str × Str)
  output : Str

/-- `handleGetRequest` from where the size of the file is known. `type` is its MIME type. -/
def serveFile (content range : Str) (type : Option Str) : FileResponse :=
  let fileSize : Int := content.length
  let parsed := parsePartialRange range 0 (fileSize - 1)
  let startPos := (parsed.map Prod.fst).getD 0
  let endPos := (parsed.map Prod.snd).getD (fileSize - 1)
  let output := (content.drop startPos.toNat).take ((endPos + 1) % 2 ^ 64).toNat
  let headers := type.toList.map fun type => (str "Content-Type", type)
  if parsed.isSome then
    { status := .partialContent
      headers := headers ++
        [(str "Content-Range", formatPartialRange startPos endPos fileSize),
          (str "Accept-Ranges", str "bytes")]
      output := output }
  else { status := .ok, headers := headers, output := output }

/-! ## What is asked for -/

/-- A number of decimal digits. -/
def IsNumber (s : Str) : Prop := s ≠ [] ∧ ∀ c ∈ s, (Util.digit? 10 c).isSome

instance (s : Str) : Decidable (IsNumber s) := inferInstanceAs (Decidable (_ ∧ _))

def number (s : Str) : Nat := Util.digits 10 0 s

/-- The range of a file of `n` bytes that a header asks for, the last position included: from a
    first to a last position, from a first position on, or the last bytes. -/
def rangeAsked (range : Str) (n : Nat) : Option (Nat × Nat) :=
  if ¬ (str "bytes=").isPrefixOf range then none
  else
    match (range.drop 6).splitOn (chr '-') with
    | [first, last] =>
      if IsNumber first ∧ IsNumber last then
        if number first ≤ number last ∧ number first <
          n then some (number first, min (number last) (n - 1))
        else none
      else if IsNumber first ∧ last = [] then
        if number first < n then some (number first, n - 1) else none
      else if first = [] ∧ IsNumber last then
        if 0 < number last ∧ 0 < n then some (n - number last, n - 1) else none
      else none
    | _ => none

/-- A partial answer sends the range that it announces and that was asked for, and any other answer
    sends the file. -/
def Consistent (content range : Str) (r : FileResponse) : Prop :=
  match r.status with
  | .partialContent => ∃ s e : Nat, s ≤ e ∧ e < content.length ∧
      (str "Content-Range", str "bytes " ++ natText s ++ str "-" ++ natText e ++ str "/" ++
        natText content.length) ∈ r.headers ∧
      r.output = (content.drop s).take (e - s + 1) ∧ rangeAsked range content.length = some (s, e)
  | .ok => r.output = content

/-- The positions of a header are accepted for a file of `n` bytes. -/
def Accepted (n : Nat) (first last : Str) : Prop :=
  0 ≤ toInt64 first ∧ toInt64 first < n ∧
    (last = [] ∨ (toInt64 first < toInt64 last ∧ toInt64 last < n))

/-- When a header is answered consistently: where its positions are accepted, they are numbers, and
    the range starts with the file or ends with it. -/
def RangeFits (range : Str) (n : Nat) : Prop :=
  ∀ first last, range = str "bytes=" ++ (first ++ chr '-' :: last) → chr '-' ∉ first →
    chr '-' ∉ last →
    Accepted n first last →
    IsNumber first ∧ (last = [] ∨ IsNumber last) ∧
      (toInt64 first = 0 ∨ last = [] ∨ toInt64 last = n - 1)

/-! ## The header -/

variable {content range first last : Str} {n : Nat}

/-- The last position of an accepted header. -/
def lastPosition (n : Nat) (last : Str) : Int := if last = [] then (n : Int) - 1 else toInt64 last

theorem parsePartialRange_of_accepted (hfirst : chr '-' ∉ first) (hlast : chr '-' ∉ last)
    (h : Accepted n first last) :
    parsePartialRange (str "bytes=" ++ (first ++ chr '-' :: last)) 0 ((n : Int) - 1) =
      some (toInt64 first, lastPosition n last) := by
  obtain ⟨hnonneg, hlt, hend⟩ := h
  have htokens : tokens ((str "bytes=" ++ (first ++ chr '-' :: last)).drop 6) [chr '-'] true =
      [first, last] := by
    rw [tokens_char]
    exact splitOn_pair hfirst hlast
  rw [parsePartialRange, if_neg (not_not.mpr (find_append_front _ _)), htokens, lastPosition]
  simp only
  rw [if_neg (by omega)]
  rcases hend with rfl | hend
  · simp
  · split
    case isTrue => simp
    case isFalse => rw [if_neg (by omega)]

/-- The headers that are accepted. -/
theorem accepted_of_parsePartialRange {p : Int × Int}
    (h : parsePartialRange range 0 ((n : Int) - 1) = some p) :
    ∃ first last, range = str "bytes=" ++ (first ++ chr '-' :: last) ∧ chr '-' ∉ first ∧
      chr '-' ∉ last ∧
      Accepted n first last := by
  rw [parsePartialRange] at h
  split at h
  case isTrue => exact absurd h (by simp)
  case isFalse hfind =>
    obtain ⟨rest, rfl⟩ := find_prefix (not_not.mp hfind)
    have hdrop : (str "bytes=" ++ rest).drop 6 = rest := rfl
    rw [hdrop, tokens_char] at h
    split at h
    case h_2 => exact absurd h (by simp)
    case h_1 first last htokens =>
      obtain ⟨rfl, hfirst, hlast⟩ := eq_of_splitOn_pair htokens
      refine ⟨first, last, rfl, hfirst, hlast, ?_⟩
      simp only at h
      split at h
      case isTrue => exact absurd h (by simp)
      case isFalse hstart =>
        split at h
        case isTrue hempty => exact ⟨by omega, by omega, Or.inl hempty⟩
        case isFalse =>
          split at h
          case isTrue => exact absurd h (by simp)
          case isFalse hend => exact ⟨by omega, by omega, Or.inr ⟨by omega, by omega⟩⟩

theorem digit_plain : ∀ c : UInt8, (Util.digit? 10 c).isSome →
    Util.isSpace c = false ∧ c ≠ chr '-' ∧ c ≠ chr '+' ∧ c ≠ chr '/' := by
  decide +kernel

/-- A number is read as what it is, as far as it is in the range of the type. -/
theorem toInt64_number {s : Str} (h : IsNumber s) :
    toInt64 s = min (number s : Int) (2 ^ 63 - 1) := by
  obtain ⟨hne, hdigits⟩ := h
  cases s with
  | nil => exact absurd rfl hne
  | cons c s =>
    obtain ⟨hspace, hminus, hplus, -⟩ := digit_plain c (hdigits c List.mem_cons_self)
    have hsign : Util.sign (c :: s) = (false, c :: s) := by
      simp [Util.sign, hspace, hminus, hplus]
    simp [toInt64, hsign, number]

theorem notMem_natText (m : Nat) : chr '-' ∉ natText m ∧ chr '/' ∉ natText m := by
  constructor
  · intro hmem
    exact (digit_plain _ (Util.natText_digit hmem)).2.1 rfl
  · intro hmem
    exact (digit_plain _ (Util.natText_digit hmem)).2.2.2 rfl

/-- Different ranges are announced differently. -/
theorem rangeText_inj {s e s' e' : Nat} {x y : Str}
    (h : str "bytes " ++ natText s ++ str "-" ++ natText e ++ str "/" ++ x =
      str "bytes " ++ natText s' ++ str "-" ++ natText e' ++ str "/" ++ y) : s = s' ∧ e = e' := by
  have hminus : str "-" = [chr '-'] := by decide
  have hslash : str "/" = [chr '/'] := by decide
  simp only [hminus, hslash, List.append_assoc, List.singleton_append,
    List.append_cancel_left_eq] at h
  obtain ⟨hs, hrest⟩ := split_char_inj (notMem_natText s).1 (notMem_natText s').1 h
  obtain ⟨he, -⟩ := split_char_inj (notMem_natText e).2 (notMem_natText e').2 hrest
  exact ⟨Util.natText_inj hs, Util.natText_inj he⟩

/-! ## The answer -/

/-- The answer to a header that is not accepted. -/
theorem serveFile_of_none (type : Option Str) (hcontent : content.length < 2 ^ 63)
    (h : parsePartialRange range 0 ((content.length : Int) - 1) = none) :
    (serveFile content range type).status = .ok ∧
    (serveFile content range type).output = content := by
  have hsize : ((((content.length : Int) - 1) + 1) % 2 ^ 64).toNat = content.length := by omega
  simp only [serveFile, h]
  refine ⟨rfl, ?_⟩
  simp only [Option.map_none, Option.getD_none, Int.toNat_zero, List.drop_zero, hsize,
    List.take_length]
  rfl

/-- The answer to a header that is accepted. -/
theorem serveFile_of_some (type : Option Str) {s e : Nat} (hcontent : content.length < 2 ^ 63)
    (he : e < content.length)
    (h : parsePartialRange range 0 ((content.length : Int) - 1) = some ((s : Int), (e : Int))) :
    (serveFile content range type).status = .partialContent ∧
      (serveFile content range type).output = (content.drop s).take (e + 1) ∧
      ∀ t, (str "Content-Range", t) ∈ (serveFile content range type).headers ↔
        t = str "bytes " ++ natText s ++ str "-" ++ natText e ++ str "/" ++
          natText content.length := by
  have hsize : (((e : Int) + 1) % 2 ^ 64).toNat = e + 1 := by omega
  simp only [serveFile, h]
  refine ⟨rfl, ?_, fun t => ?_⟩
  · simp only [Option.map_some, Option.getD_some, Int.toNat_natCast, hsize]
    rfl
  have htype : str "Content-Range" ≠ str "Content-Type" := by decide
  have hranges : str "Content-Range" ≠ str "Accept-Ranges" := by decide
  have hmem : ∀ type : Option Str,
      (str "Content-Range", t) ∉ type.toList.map fun type => (str "Content-Type", type) := by
    intro type hmem
    obtain ⟨u, -, heq⟩ := List.mem_map.mp hmem
    exact htype (Prod.mk.inj heq).1.symm
  simp only [Option.isSome_some, if_true, Option.map_some, Option.getD_some, List.mem_append, hmem,
    List.mem_cons, Prod.mk.injEq, hranges, false_and, List.not_mem_nil, or_false, true_and,
    false_or, formatPartialRange]
  rfl

/-- What a header asks for, by its parts. -/
theorem rangeAsked_eq (hfirst : chr '-' ∉ first) (hlast : chr '-' ∉ last) (n : Nat) :
    rangeAsked (str "bytes=" ++ (first ++ chr '-' :: last)) n =
      if IsNumber first ∧ IsNumber last then
        if number first ≤ number last ∧ number first <
          n then some (number first, min (number last) (n - 1))
        else none
      else if IsNumber first ∧ last = [] then
        if number first < n then some (number first, n - 1) else none
      else if first = [] ∧ IsNumber last then
        if 0 < number last ∧ 0 < n then some (n - number last, n - 1) else none
      else none := by
  have hfront : (str "bytes=").isPrefixOf (str "bytes=" ++ (first ++ chr '-' :: last)) = true := by
    rw [List.isPrefixOf_iff_prefix]
    exact List.prefix_append _ _
  have hsplit : ((str "bytes=" ++ (first ++ chr '-' :: last)).drop 6).splitOn (chr '-') =
      [first, last] :=
    splitOn_pair hfirst hlast
  rw [rangeAsked, if_neg (not_not.mpr hfront), hsplit]

/-- Positions that are accepted are asked for exactly if they are numbers. -/
theorem rangeAsked_accepted_iff (hn : n < 2 ^ 63) (hfirst : chr '-' ∉ first)
    (hlast : chr '-' ∉ last)
    (h : Accepted n first last) {s e : Nat} (hs : (s : Int) = toInt64 first)
    (he : (e : Int) = lastPosition n last) :
    rangeAsked (str "bytes=" ++ (first ++ chr '-' :: last)) n = some (s, e) ↔
      IsNumber first ∧ (last = [] ∨ IsNumber last) := by
  obtain ⟨hnonneg, hlt, hend⟩ := h
  rw [rangeAsked_eq hfirst hlast]
  by_cases hf : IsNumber first
  · have hnumber := toInt64_number hf
    have hsame : number first = s := by omega
    by_cases hempty : last = []
    · subst hempty
      have hnone : ¬ IsNumber [] := fun h => h.1 rfl
      rw [lastPosition, if_pos rfl] at he
      rw [if_neg (fun h => hnone h.2), if_pos ⟨hf, rfl⟩, if_pos (by omega), hsame]
      simp only [hf, true_or, and_true, iff_true, Option.some.injEq, Prod.mk.injEq, true_and]
      omega
    · rw [lastPosition, if_neg hempty] at he
      by_cases hl : IsNumber last
      · have hnumber' := toInt64_number hl
        have hend := hend.resolve_left hempty
        have hsame' : number last = e := by omega
        rw [if_pos ⟨hf, hl⟩, if_pos (by omega), hsame, hsame', Nat.min_eq_left (by omega)]
        simp [hf, hl]
      · simp [hf, hl, hempty]
  · rw [if_neg (fun h => hf h.1), if_neg (fun h => hf h.1)]
    simp only [hf, false_and, iff_false]
    split
    case isFalse => simp
    case isTrue hsuffix =>
      -- the header asks for the last bytes, and is taken for a range from the beginning
      obtain ⟨rfl, hl⟩ := hsuffix
      have hnumber' := toInt64_number hl
      have hend := hend.resolve_left hl.1
      have hzero : toInt64 [] = 0 := by decide
      rw [lastPosition, if_neg hl.1] at he
      split
      · intro heq
        rw [Option.some.injEq, Prod.mk.injEq] at heq
        omega
      · simp

/-- **When the answers are consistent**: a header whose positions are accepted has to give numbers,
    and the range has to start with the file or to end with it. -/
theorem serveFile_consistent_iff (content range : Str) (type : Option Str)
    (hsize : content.length < 2 ^ 63) :
    Consistent content range (serveFile content range type) ↔ RangeFits range content.length := by
  cases hparse : parsePartialRange range 0 ((content.length : Int) - 1) with
  | none =>
    obtain ⟨hstatus, houtput⟩ := serveFile_of_none type hsize hparse
    refine iff_of_true (by simp only [Consistent, hstatus, houtput]) ?_
    intro first last hrange hfirst hlast haccepted
    rw [hrange, parsePartialRange_of_accepted hfirst hlast haccepted] at hparse
    exact absurd hparse (Option.some_ne_none _)
  | some p =>
    obtain ⟨first, last, rfl, hfirst, hlast, haccepted⟩ := accepted_of_parsePartialRange hparse
    rw [parsePartialRange_of_accepted hfirst hlast haccepted] at hparse
    have hbounds := haccepted
    obtain ⟨hnonneg, hlt, hend⟩ := hbounds
    have hlastPosition : toInt64 first ≤ lastPosition content.length last ∧
        lastPosition content.length last < content.length := by
      rw [lastPosition]
      split
      · omega
      · have := hend.resolve_left ‹_›
        omega
    obtain ⟨s, hs⟩ : ∃ s : Nat, (s : Int) = toInt64 first := ⟨(toInt64 first).toNat, by omega⟩
    obtain ⟨e, he⟩ : ∃ e : Nat, (e : Int) = lastPosition content.length last :=
      ⟨(lastPosition content.length last).toNat, by omega⟩
    rw [← hs, ← he] at hlastPosition
    have hparsed := parsePartialRange_of_accepted hfirst hlast haccepted
    rw [← hs, ← he] at hparsed
    obtain ⟨hstatus, houtput, hheader⟩ := serveFile_of_some type hsize (by omega) hparsed
    have hasked := rangeAsked_accepted_iff hsize hfirst hlast haccepted hs he
    -- the body ends where it was announced if it starts the file, or if the file ends there
    have hbody : (content.drop s).take (e + 1) = (content.drop s).take (e - s + 1) ↔
        s = 0 ∨ e + 1 = content.length := by
      constructor
      · intro heq
        have hlength := congrArg List.length heq
        simp only [List.length_take, List.length_drop] at hlength
        omega
      · rintro (hzero | hfull)
        · rw [hzero, Nat.sub_zero]
        · rw [List.take_of_length_le,
            List.take_of_length_le] <;> simp only [List.length_drop] <;> omega
    have hreach : s = 0 ∨ e + 1 = content.length ↔
        toInt64 first = 0 ∨ last = [] ∨ toInt64 last = (content.length : Int) - 1 := by
      rw [lastPosition] at he
      by_cases hempty : last = []
      · rw [if_pos hempty] at he
        simp only [hempty, true_or, or_true, iff_true]
        omega
      · rw [if_neg hempty] at he
        simp only [hempty, false_or]
        omega
    constructor
    · intro hconsistent first' last' hrange hfirst' hlast' _
      obtain ⟨rfl, rfl⟩ := split_char_inj hfirst hfirst' (List.append_cancel_left hrange)
      simp only [Consistent, hstatus] at hconsistent
      obtain ⟨s', e', -, -, htext, hsent, hwanted⟩ := hconsistent
      obtain ⟨rfl, rfl⟩ := rangeText_inj ((hheader _).mp htext)
      obtain ⟨hf, hl⟩ := hasked.mp hwanted
      exact ⟨hf, hl, hreach.mp (hbody.mp (houtput.symm.trans hsent))⟩
    · intro hfits
      obtain ⟨hf, hl, hpositions⟩ := hfits first last rfl hfirst hlast haccepted
      simp only [Consistent, hstatus]
      exact ⟨s, e, by omega, by omega, (hheader _).mpr rfl,
        houtput.trans (hbody.mpr (hreach.mpr hpositions)),
        hasked.mpr ⟨hf, hl⟩⟩

theorem serveFile_first_bytes :
    Consistent (str "0123456789") (str "bytes=0-3")
      (serveFile (str "0123456789") (str "bytes=0-3") none) := by
  have hsize : (str "0123456789").length < 2 ^ 63 := by
    rw [show (str "0123456789").length = 10 by decide]
    norm_num
  refine (serveFile_consistent_iff _ _ none hsize).mpr ?_
  intro first last hrange hfirst hlast _
  have hparts : str "bytes=0-3" = str "bytes=" ++ (str "0" ++ chr '-' :: str "3") := by decide
  rw [hparts] at hrange
  obtain ⟨rfl, rfl⟩ := split_char_inj (by decide) hfirst (List.append_cancel_left hrange)
  exact ⟨by decide +kernel, Or.inr (by decide +kernel), Or.inl (by decide)⟩

/-- Two bytes from the middle of a file are announced, and four are sent. -/
theorem serveFile_inconsistent :
    ¬ ∀ (content range : Str) (type : Option Str), 0 < content.length → content.length < 2 ^ 63 →
      Consistent content range (serveFile content range type) := by
  intro hall
  have hlength : (str "0123456789").length = 10 := by decide
  have hpos : 0 < (str "0123456789").length := by
    rw [hlength]
    norm_num
  have hsize : (str "0123456789").length < 2 ^ 63 := by
    rw [hlength]
    norm_num
  have h := hall (str "0123456789") (str "bytes=2-3") none hpos hsize
  have hanswer : (serveFile (str "0123456789") (str "bytes=2-3") none).status = .partialContent ∧
      (serveFile (str "0123456789") (str "bytes=2-3") none).output = str "2345" ∧
      rangeAsked (str "bytes=2-3") 10 = some (2, 3) := by
    decide +kernel
  obtain ⟨hstatus, houtput, hasked⟩ := hanswer
  simp only [Consistent, hstatus] at h
  obtain ⟨s, e, -, -, -, hsent, hwanted⟩ := h
  rw [hlength, hasked, Option.some.injEq, Prod.mk.injEq] at hwanted
  obtain ⟨rfl, rfl⟩ := hwanted
  rw [houtput] at hsent
  exact absurd hsent (by decide)

end HttpUtil
end Airdcpp
