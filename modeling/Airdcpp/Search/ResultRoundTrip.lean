import Airdcpp.Protocol.CommandRoundTrip
import Airdcpp.Search.SharedResult
import Airdcpp.Util.EncoderRoundTrip
import Airdcpp.Util.Splitting

/-!
# `Search/ResultRoundTrip` — results that are read back

The text for NMDC is taken apart at separators that names may contain as well. `onSR` finds its way
because it counts the bytes 5, which names do not contain, and looks for the other separators behind
or in front of them. The path comes back unless it is the name of a file list, which `toAdcFile`
leaves as it is (`onSR_toSR`). The command for ADC comes back as it is, whether it is sent by UDP or
through the hub, except that a date up to 2000 is taken for none (`onRES_toRES`).
-/

namespace Airdcpp

open DirectoryListing

/-! ## Hashes and numbers as text -/

theorem TTHValue.ofBase32_toBase32 (tth : TTHValue) : TTHValue.ofBase32 tth.toBase32 = tth := by
  have hne : tth.toList ≠ [] := by
    intro h
    have hlength := tth.length_toList
    rw [h] at hlength
    simp at hlength
  have hbytes := Encoder.fromBase32_toBase32_of_ne_nil hne
  rw [tth.length_toList] at hbytes
  rw [TTHValue.ofBase32, TTHValue.toBase32, hbytes]
  apply Vector.ext
  intro i hi
  simp

theorem TTHValue.toBase32_digit {tth : TTHValue} {c : UInt8} (hc : c ∈ tth.toBase32) :
    c ∈ Encoder.base32Alphabet := by
  obtain ⟨words, pad, -, htext, hdigits, -⟩ := Encoder.toBase32_bits tth.toList 0 (by decide)
  rw [TTHValue.toBase32, htext] at hc
  obtain ⟨word, hword, rfl⟩ := List.mem_map.mp hc
  have hlt := (Encoder.isDigit32_iff word).mp (hdigits word hword)
  rw [List.getD_eq_getElem _ _ hlt]
  exact List.getElem_mem hlt

theorem TTHValue.toBase32_ne_nil (tth : TTHValue) : tth.toBase32 ≠ [] := by
  have hlength := tth.length_toList
  rw [TTHValue.toBase32]
  cases h : tth.toList with
  | nil =>
    rw [h] at hlength
    simp at hlength
  | cons b rest =>
    rw [Encoder.toBase32]
    simp

theorem Util.toString_nat_digit {n : Nat} {c : UInt8} (hc : c ∈ Util.toString n) :
    c ≠ 5 ∧ c ≠ chr '/' ∧ c ≠ chr ' ' := by
  have hdigit : ∀ c : UInt8, (Util.digit? 10 c).isSome → c ≠ 5 ∧ c ≠ chr '/' ∧ c ≠ chr ' ' := by
    decide +kernel
  exact hdigit c (Util.natText_digit hc)

/-! ## Paths -/

/-- A path: names behind separators, and one more behind a directory. -/
def resultPath (names : List Str) (type : SearchResult.SearchType) : Str :=
  names.flatMap (ADC_SEPARATOR :: ·) ++ if type = .directory then [ADC_SEPARATOR] else []

/-- A name that can be sent. -/
def ResultName (name : Str) : Prop :=
  name ≠ [] ∧ chr '/' ∉ name ∧ chr '\\' ∉ name ∧ 5 ∉ name ∧ 0 ∉ name

instance (name : Str) : Decidable (ResultName name) := inferInstanceAs (Decidable (_ ∧ _))

/-- What results of the share are: 64-bit numbers, counts of 32 bits, and a path of names. -/
structure SharedResult.Sendable (r : SharedResult) : Prop where
  size : 0 ≤ r.size ∧ r.size < 2 ^ 63
  date : -2 ^ 63 ≤ r.date ∧ r.date < 2 ^ 63
  files : -2 ^ 31 ≤ r.files ∧ r.files < 2 ^ 31
  directories : -2 ^ 31 ≤ r.directories ∧ r.directories < 2 ^ 31
  path : ∃ names, names ≠ [] ∧ (∀ name ∈ names, ResultName name) ∧ r.path = resultPath names r.type

/-- The names that `toAdcFile` takes for file lists. -/
def isFileList (file : Str) : Prop := file = str "files.xml.bz2" ∨ file = str "files.xml"

instance (file : Str) : Decidable (isFileList file) := inferInstanceAs (Decidable (_ ∨ _))

variable {names : List Str} {type : SearchResult.SearchType}

theorem notMem_resultPath (hnames : ∀ name ∈ names, ResultName name) :
    chr '\\' ∉ resultPath names type ∧ 5 ∉ resultPath names type := by
  have hnot : ∀ c : UInt8, c ≠ chr '/' → (∀ name ∈ names, c ∉ name) →
      c ∉ resultPath names type := by
    intro c hc hall hmem
    rw [resultPath, List.mem_append] at hmem
    rcases hmem with hmem | hmem
    · obtain ⟨name, hname, hmem⟩ := List.mem_flatMap.mp hmem
      rcases List.mem_cons.mp hmem with hmem | hmem
      · exact hc hmem
      · exact hall name hname hmem
    · split at hmem
      · exact hc (List.mem_singleton.mp hmem)
      · exact absurd hmem List.not_mem_nil
  exact ⟨hnot _ (by decide) fun name hname => (hnames name hname).2.2.1,
    hnot _ (by decide) fun name hname => (hnames name hname).2.2.2.1⟩

theorem resultPath_cons (hne : names ≠ []) (hnames : ∀ name ∈ names, ResultName name) :
    ∃ c s, c ≠ ADC_SEPARATOR ∧ resultPath names type = ADC_SEPARATOR :: c :: s := by
  cases names with
  | nil => exact absurd rfl hne
  | cons name names =>
    have hname := hnames name List.mem_cons_self
    cases name with
    | nil => exact absurd rfl hname.1
    | cons c name =>
      refine ⟨c, name ++ resultPath names type, ?_, by simp [resultPath]⟩
      rintro rfl
      exact hname.2.1 List.mem_cons_self

/-- The type is told by the end of the path. -/
theorem getLast?_resultPath (hne : names ≠ []) (hnames : ∀ name ∈ names, ResultName name) :
    (resultPath names type).getLast? = some ADC_SEPARATOR ↔ type = .directory := by
  cases type with
  | directory => simp [resultPath]
  | file =>
    refine iff_of_false ?_ (by decide)
    obtain ⟨front, name, rfl⟩ := List.eq_nil_or_concat names |>.resolve_left hne
    have hname := hnames name (by simp)
    obtain ⟨name', c, rfl⟩ := List.eq_nil_or_concat name |>.resolve_left hname.1
    have hpath : (resultPath (front.concat (name'.concat c)) .file).getLast? = some c := by
      simp [resultPath, List.getLast?_append, List.getLast?_cons]
    rw [hpath, Option.some.injEq]
    rintro rfl
    exact hname.2.1 (by simp [ADC_SEPARATOR])

/-- `toNmdcFile` behind the root. -/
def nmdcText (s : Str) : Str := s.map fun c => if c = ADC_SEPARATOR then NMDC_SEPARATOR else c

theorem nmdcText_of_notMem {s : Str} (h : ADC_SEPARATOR ∉ s) : nmdcText s = s := by
  rw [nmdcText]
  conv_rhs => rw [← List.map_id s]
  refine List.map_congr_left fun c hc => if_neg ?_
  rintro rfl
  exact h hc

theorem notMem_of_isFileList {s : Str} (h : isFileList s) :
    ADC_SEPARATOR ∉ s ∧ NMDC_SEPARATOR ∉ s := by
  rcases h with rfl | rfl
  · decide +kernel
  · decide +kernel

theorem isFileList_nmdcText (s : Str) : isFileList (nmdcText s) ↔ isFileList s := by
  by_cases hadc : ADC_SEPARATOR ∈ s
  · refine iff_of_false (fun h => (notMem_of_isFileList h).2 ?_) fun h =>
      (notMem_of_isFileList h).1 hadc
    exact List.mem_map.mpr ⟨ADC_SEPARATOR, hadc, if_pos rfl⟩
  · rw [nmdcText_of_notMem hadc]

theorem toAdcFile_eq (file : Str) : Util.toAdcFile file =
    if isFileList file then file
    else (ADC_SEPARATOR :: file).map fun c => if c = NMDC_SEPARATOR then ADC_SEPARATOR else c := rfl

/-- **The conversions undo each other**, but for the names of file lists. -/
theorem toAdcFile_nmdcText {s : Str} (hs : NMDC_SEPARATOR ∉ s) :
    Util.toAdcFile (nmdcText s) = if isFileList s then s else ADC_SEPARATOR :: s := by
  have hback : (nmdcText s).map (fun c => if c = NMDC_SEPARATOR then ADC_SEPARATOR else c) = s := by
    rw [nmdcText, List.map_map]
    conv_rhs => rw [← List.map_id s]
    refine List.map_congr_left fun c hc => ?_
    by_cases hsep : c = ADC_SEPARATOR
    · simp [hsep]
    · have hne : c ≠ NMDC_SEPARATOR := fun h => hs (h ▸ hc)
      simp [hsep, hne]
  rw [toAdcFile_eq]
  by_cases h : isFileList s
  · rw [if_pos ((isFileList_nmdcText s).mpr h), if_pos h,
      nmdcText_of_notMem (notMem_of_isFileList h).1]
  · rw [if_neg (mt (isFileList_nmdcText s).mp h), if_neg h, List.map_cons, hback]
    rfl

/-! ## `onSR` -/

namespace NmdcResult

variable {x : Str} {i j : Nat}

theorem parseSlots_of_split {free total hubName hub b : Str}
    (h : x.drop i = free ++ chr '/' :: (total ++ 5 ::
    (hubName ++ chr ' ' :: ([chr '('] ++ (hub ++ chr ')' :: b)))))
    (hfree : chr '/' ∉ free) (htotal : 5 ∉ total) (hspace : chr ' ' ∉ hub)
    (hb : chr ' ' ∉ b ∧ chr ')' ∉ b) :
    parseSlots x i = some (some (Util.toInt free % 256, Util.toInt total % 256, hubName, hub)) := by
  have htotalAt := drop_of_split h
  have hnameAt := drop_of_split htotalAt
  have hhubAt := drop_of_split hnameAt
  have hopen : rfindLast x (str " (") =
      some (i + free.length + 1 + total.length + 1 + hubName.length) := by
    refine rfindLast_of_split [chr '('] hnameAt ?_
    simp only [List.mem_append, List.mem_cons, not_or]
    exact ⟨by decide, hspace, by decide, hb.1⟩
  have hhub : x.drop (i + free.length + 1 + total.length + 1 + hubName.length + 2) =
      hub ++ chr ')' :: b := by
    rw [← Nat.add_assoc _ 1 1, ← List.drop_drop, hhubAt]
    rfl
  have hclose : rfindLast x (str ")") =
      some (i + free.length + 1 + total.length + 1 + hubName.length + 2 + hub.length) :=
    rfindLast_of_split [] hhub hb.2
  have hslash := find_char_of_split hfree h
  have hfive := find_char_of_split htotal htotalAt
  rw [parseSlots]
  simp only [show str "/" = [chr '/'] from rfl, hslash, substr_of_split h, hfive,
    substr_of_split htotalAt, hopen, substr_of_split hnameAt, hclose, substr_of_split hhub,
    Option.bind_eq_bind, Option.bind_some]

theorem parseFile_of_file {file size rest : Str}
    (h : x.drop i = file ++ 5 :: (size ++ chr ' ' :: rest))
    (hfile : 5 ∉ file) (hsize : chr ' ' ∉ size) :
    parseFile x i j 2 =
      some (some (true, file, Util.toInt64 size, i + file.length + 1 + size.length + 1)) := by
  have hsizeAt := drop_of_split h
  have hfive := find_char_of_split hfile h
  have hspace := find_char_of_split hsize hsizeAt
  rw [parseFile, if_neg (by decide), if_pos rfl]
  simp only [hfive, substr_of_split h, show str " " = [chr ' '] from rfl, hspace,
    substr_of_split hsizeAt, Option.bind_eq_bind, Option.bind_some]

theorem parseFile_of_directory {directory slots rest : Str}
    (h : x.drop i = directory ++ chr ' ' :: (slots ++ 5 :: rest)) (hne : directory ≠ [])
    (hspace : chr ' ' ∉ slots) (hrest : 5 ∉ rest) :
    parseFile x i j 1 = some (some (false, directory ++ str "\\", 0,
      i + directory.length + 1)) := by
  have hpos : 0 < directory.length := List.length_pos_iff.mpr hne
  have hfive : rfindLast x [5] = some (i + (directory ++ chr ' ' :: slots).length) := by
    refine rfindLast_of_split [] ?_ hrest
    rw [h]
    simp
  have hend : subSizeT (i + (directory ++ chr ' ' :: slots).length) 1 =
      i + directory.length + slots.length := by
    rw [subSizeT, if_pos (by simp; omega)]
    simp
    omega
  have hback := rfindAt_char_of_split h hspace
  rw [parseFile, if_pos rfl]
  simp only [hfive, hend, show str " " = [chr ' '] from rfl, hback]
  rw [if_neg (by omega), substr_of_split h]
  rfl

variable {r : SharedResult} {nick ipPort : Str}

/-- What comes behind the file or the directory. -/
def slotText (r : SharedResult) (ipPort : Str) : Str :=
  Util.toString r.freeSlots.toNat ++ chr '/' :: (Util.toString r.totalSlots.toNat ++ 5 ::
    ((str "TTH:" ++ r.tth.toBase32) ++ chr ' ' :: ([chr '('] ++ (ipPort ++ chr ')' :: [chr '|']))))

theorem toSR_file (hfile : r.type = .file) : r.toSR nick ipPort = str "$SR " ++ (nick ++ chr ' ' ::
    (Util.toNmdcFile r.path ++ 5 :: (Util.toString r.size ++ chr ' ' :: slotText r ipPort))) := by
  simp only [SharedResult.toSR, hfile, slotText, show str " " = [chr ' '] from rfl,
    show str "/" = [chr '/'] from rfl,
    show str " (" = [chr ' ', chr '('] from rfl, show str ")|" = [chr ')', chr '|'] from rfl]
  simp

theorem toSR_directory (hdirectory : r.type = .directory) :
    r.toSR nick ipPort = str "$SR " ++ (nick ++ chr ' ' ::
    ((Util.toNmdcFile r.path).dropLast ++ chr ' ' :: slotText r ipPort)) := by
  simp only [SharedResult.toSR, hdirectory, slotText, show str " " = [chr ' '] from rfl,
    show str "/" = [chr '/'] from rfl, show str " (" = [chr ' ', chr '('] from rfl,
    show str ")|" = [chr ')', chr '|'] from rfl]
  simp

theorem notMem_toBase32 (tth : TTHValue) : 5 ∉ str "TTH:" ++ tth.toBase32 := by
  have halphabet : ∀ c ∈ Encoder.base32Alphabet, c ≠ 5 := by decide +kernel
  intro hmem
  rcases List.mem_append.mp hmem with hmem | hmem
  · exact absurd hmem (by decide +kernel)
  · exact halphabet 5 (TTHValue.toBase32_digit hmem) rfl

theorem parseSlots_slotText (h : x.drop i = slotText r ipPort) (hspace : chr ' ' ∉ ipPort) :
    parseSlots x i = some (some
      ((r.freeSlots.toNat : Int), (r.totalSlots.toNat : Int), str "TTH:" ++ r.tth.toBase32,
        ipPort)) := by
  have hslots : ∀ n : UInt8, Util.toInt (Util.toString n.toNat) % 256 = n.toNat := by
    intro n
    have hlt := n.toNat_lt
    rw [Util.toInt_toString (by omega) (by omega)]
    omega
  rw [parseSlots_of_split h (fun h => (Util.toString_nat_digit h).2.1 rfl)
    (fun h => (Util.toString_nat_digit h).1 rfl) hspace ⟨by decide, by decide⟩, hslots, hslots]

/-- The nick, and the rest. -/
theorem onSR_of_split {rest : Str} (connect : Str → Str → Bool)
    (hx : x = str "$SR " ++ (nick ++ chr ' ' :: rest))
    (hnick : chr ' ' ∉ nick) {isFile : Bool} {file : Str} {size : Int} {k : Nat}
    (hfile : parseFile x (4 + nick.length + 1) (4 + nick.length) (rest.count 5) =
      some (some (isFile, file, size, k)))
    (hslots : x.drop k = slotText r ipPort) (hspace : chr ' ' ∉ ipPort) :
    onSR connect x = some (if connect ipPort nick then some
      { nick, isFile, file, size, freeSlots := r.freeSlots.toNat, slots := r.totalSlots.toNat
        hubIpPort := ipPort, tth := r.tth.toBase32 } else none) := by
  have hstart : x.drop 4 = nick ++ chr ' ' :: rest := by
    rw [hx]
    rfl
  have hspaceAt := find_char_of_split hnick hstart
  have hcount : (x.drop (4 + nick.length)).count 5 = rest.count 5 := by
    rw [drop_at_split hstart]
    exact List.count_cons_of_ne (by decide)
  have hnickText : substr x 4 (4 + nick.length - 4) = some nick := by
    have h := substr_of_split hstart
    rwa [subSizeT, if_pos (Nat.le_add_right _ _)] at h
  have hfront : (str "TTH:").isPrefixOf (str "TTH:" ++ r.tth.toBase32) = true := by
    rw [List.isPrefixOf_iff_prefix]
    exact List.prefix_append _ _
  have htth : substrFrom (str "TTH:" ++ r.tth.toBase32) 4 = some r.tth.toBase32 := by
    rw [substrFrom_of_le (by simp [str])]
    rfl
  have hne : r.tth.toBase32.isEmpty = false := by
    simpa using TTHValue.toBase32_ne_nil r.tth
  have hread := parseSlots_slotText hslots hspace
  rw [onSR]
  simp only [show str " " = [chr ' '] from rfl, hspaceAt, hnickText, hcount, hfile, hread,
    Option.bind_eq_bind, Option.bind_some]
  cases connect ipPort nick with
  | false => rfl
  | true =>
    simp only [hfront, htth, hne, Bool.not_true, Bool.false_eq_true, false_and, if_false, if_true,
      Option.bind_some]

theorem count_slotText (hfive : 5 ∉ ipPort) : (slotText r ipPort).count 5 = 1 := by
  have hdigits : ∀ n : Nat, (Util.toString n).count 5 = 0 := fun n =>
    List.count_eq_zero_of_not_mem fun h => (Util.toString_nat_digit h).1 rfl
  have hhub : (chr ' ' :: ([chr '('] ++ (ipPort ++ chr ')' :: [chr '|']))).count 5 = 0 := by
    refine List.count_eq_zero_of_not_mem ?_
    simp only [List.mem_cons, List.mem_append, List.not_mem_nil, not_or, or_false]
    exact ⟨by decide, by decide, hfive, by decide, by decide⟩
  rw [slotText, List.count_append, hdigits, List.count_cons_of_ne (by decide), List.count_append,
    hdigits, List.count_cons_self, List.count_append,
    List.count_eq_zero_of_not_mem (notMem_toBase32 r.tth), hhub]

/-- A file is found by its two bytes 5. -/
theorem onSR_file (htype : r.type = .file) (hsize : 0 ≤ r.size) (hfile : 5 ∉ Util.toNmdcFile r.path)
    (hnick : chr ' ' ∉ nick) (hspace : chr ' ' ∉ ipPort) (hfive : 5 ∉ ipPort)
    (connect : Str → Str → Bool) :
    onSR connect (r.toSR nick ipPort) = some (if connect ipPort nick then some
      { nick, isFile := true, file := Util.toNmdcFile r.path,
        size := Util.toInt64 (Util.toString r.size)
        freeSlots := r.freeSlots.toNat, slots := r.totalSlots.toNat
        hubIpPort := ipPort, tth := r.tth.toBase32 } else none) := by
  obtain ⟨n, hn⟩ := Int.eq_ofNat_of_zero_le hsize
  have hdigits : chr ' ' ∉ Util.toString r.size ∧ 5 ∉ Util.toString r.size := by
    rw [hn]
    exact ⟨fun h => (Util.toString_nat_digit h).2.2 rfl, fun h => (Util.toString_nat_digit h).1 rfl⟩
  have hx := @toSR_file r nick ipPort htype
  have hstart : (r.toSR nick ipPort).drop 4 = nick ++ chr ' ' ::
      (Util.toNmdcFile r.path ++ 5 :: (Util.toString r.size ++ chr ' ' :: slotText r ipPort)) := by
    rw [hx]
    rfl
  have hfileAt := drop_of_split hstart
  have hparse := @parseFile_of_file _ _ (4 + nick.length) _ _ _ hfileAt hfile hdigits.1
  refine onSR_of_split connect hx hnick ?_ (drop_of_split (drop_of_split hfileAt)) hspace
  rw [List.count_append, List.count_eq_zero_of_not_mem hfile, List.count_cons_self,
    List.count_append, List.count_eq_zero_of_not_mem hdigits.2, List.count_cons_of_ne (by decide),
    count_slotText hfive]
  exact hparse

/-- A directory is found by the last space in front of its byte 5. -/
theorem onSR_directory (htype : r.type = .directory) (hne : (Util.toNmdcFile r.path).dropLast ≠ [])
    (hfile : 5 ∉ Util.toNmdcFile r.path) (hnick : chr ' ' ∉ nick) (hspace : chr ' ' ∉ ipPort)
    (hfive : 5 ∉ ipPort)
    (connect : Str → Str → Bool) :
    onSR connect (r.toSR nick ipPort) = some (if connect ipPort nick then some
      { nick, isFile := false, file := (Util.toNmdcFile r.path).dropLast ++ str "\\", size := 0
        freeSlots := r.freeSlots.toNat, slots := r.totalSlots.toNat
        hubIpPort := ipPort, tth := r.tth.toBase32 } else none) := by
  have hx := @toSR_directory r nick ipPort htype
  have hdirectory : 5 ∉ (Util.toNmdcFile r.path).dropLast := fun h =>
    hfile (List.mem_of_mem_dropLast h)
  generalize (Util.toNmdcFile r.path).dropLast = directory at hx hne hdirectory ⊢
  have hstart : (r.toSR nick ipPort).drop 4 =
      nick ++ chr ' ' :: (directory ++ chr ' ' :: slotText r ipPort) := by
    rw [hx]
    rfl
  have hdirectoryAt := drop_of_split hstart
  have hsplit : (r.toSR nick ipPort).drop (4 + nick.length + 1) = directory ++ chr ' ' ::
      ((Util.toString r.freeSlots.toNat ++ chr '/' :: Util.toString r.totalSlots.toNat) ++ 5 ::
        ((str "TTH:" ++ r.tth.toBase32) ++ chr ' ' ::
          ([chr '('] ++ (ipPort ++ chr ')' :: [chr '|'])))) := by
    simp only [hdirectoryAt, slotText, List.append_assoc, List.cons_append]
  have hslots : chr ' ' ∉ Util.toString r.freeSlots.toNat ++ chr '/' ::
      Util.toString r.totalSlots.toNat := by
    simp only [List.mem_append, List.mem_cons, not_or]
    exact ⟨fun h => (Util.toString_nat_digit h).2.2 rfl, by decide,
      fun h => (Util.toString_nat_digit h).2.2 rfl⟩
  have hbehind : 5 ∉ (str "TTH:" ++ r.tth.toBase32) ++ chr ' ' ::
      ([chr '('] ++ (ipPort ++ chr ')' :: [chr '|'])) := by
    refine fun h => (List.mem_append.mp h).elim (notMem_toBase32 r.tth) fun h => ?_
    simp only [List.mem_cons, List.mem_append, List.not_mem_nil, or_false] at h
    rcases h with h | h | h | h | h
    · exact absurd h (by decide)
    · exact absurd h (by decide)
    · exact hfive h
    · exact absurd h (by decide)
    · exact absurd h (by decide)
  have hparse := @parseFile_of_directory _ _ (4 + nick.length) _ _ _ hsplit hne hslots hbehind
  refine onSR_of_split connect hx hnick ?_ (drop_of_split hdirectoryAt) hspace
  rw [List.count_append, List.count_eq_zero_of_not_mem hdirectory,
    List.count_cons_of_ne (by decide), count_slotText hfive]
  exact hparse

/-- What a result for NMDC is taken for. -/
structure Recovered (r : SharedResult) (nick ipPort : Str) (x : NmdcResult) : Prop where
  nick : x.nick = nick
  type : x.isFile = true ↔ r.type = .file
  freeSlots : x.freeSlots = r.freeSlots.toNat
  slots : x.slots = r.totalSlots.toNat
  hubIpPort : x.hubIpPort = ipPort
  path : x.adcPath = if r.type = .file ∧ isFileList (r.path.drop 1) then r.path.drop 1 else r.path
  size : r.type = .file → x.size = r.size
  tthValue : r.type = .file → x.tthValue = r.tth

/-- **A result for NMDC is read back.** -/
theorem onSR_toSR (hr : r.Sendable) (hnick : chr ' ' ∉ nick) (hspace : chr ' ' ∉ ipPort)
    (hfive : 5 ∉ ipPort) (connect : Str → Str → Bool) :
    ∃ x, Recovered r nick ipPort x ∧
      onSR connect (r.toSR nick ipPort) = some (if connect ipPort nick then some x else none) := by
  obtain ⟨names, hne, hnames, hpath⟩ := hr.path
  obtain ⟨hslash, hbyte⟩ := @notMem_resultPath names r.type hnames
  obtain ⟨c, s, hc, hcons⟩ := @resultPath_cons names r.type hne hnames
  have hend := @getLast?_resultPath names r.type hne hnames
  rw [hcons] at hslash hbyte hpath hend
  have hacp : Util.toNmdcFile r.path = nmdcText (c :: s) := by
    rw [hpath]
    rfl
  have hback := @toAdcFile_nmdcText (c :: s) fun h => hslash (List.mem_cons_of_mem _ h)
  have hfile : 5 ∉ Util.toNmdcFile r.path := by
    intro hmem
    rw [hacp] at hmem
    obtain ⟨d, hd, heq⟩ := List.mem_map.mp hmem
    by_cases hsep : d = ADC_SEPARATOR
    · rw [if_pos hsep] at heq
      exact absurd heq (by decide)
    · rw [if_neg hsep] at heq
      exact hbyte (List.mem_cons_of_mem _ (heq ▸ hd))
  cases htype : r.type with
  | file =>
    refine ⟨_, ?_, onSR_file htype hr.size.1 hfile hnick hspace hfive connect⟩
    refine ⟨rfl, by simp [htype], rfl, rfl, rfl, ?_, fun _ => ?_,
      fun _ => TTHValue.ofBase32_toBase32 r.tth⟩
    · rw [adcPath, hacp, hback, hpath]
      simp [htype]
    · exact Util.toInt64_toString (by have := hr.size.1; omega) hr.size.2
  | directory =>
    have hlast : (c :: s).getLast? = some ADC_SEPARATOR := by
      have h := hend.mpr htype
      rwa [List.getLast?_cons_cons] at h
    have hlastText : (nmdcText (c :: s)).getLast? = some NMDC_SEPARATOR := by
      rw [nmdcText, List.getLast?_map, hlast]
      rfl
    have hwhole : (nmdcText (c :: s)).dropLast ++ [NMDC_SEPARATOR] = nmdcText (c :: s) :=
      List.dropLast_append_getLast? _ hlastText
    have hnotNil : (Util.toNmdcFile r.path).dropLast ≠ [] := by
      rw [hacp]
      cases s with
      | nil => exact absurd (Option.some.inj hlast) hc
      | cons d s => simp [nmdcText]
    have hnotList : ¬ isFileList (c :: s) := fun h =>
      (notMem_of_isFileList h).1 (List.mem_of_getLast? hlast)
    have hdirectory : (Util.toNmdcFile r.path).dropLast ++ str "\\" = nmdcText (c :: s) := by
      rw [hacp]
      exact hwhole
    have hread := onSR_directory htype hnotNil hfile hnick hspace hfive connect
    rw [hdirectory] at hread
    refine ⟨_, ?_, hread⟩
    refine ⟨rfl, by simp [htype], rfl, rfl, rfl, ?_, fun h => ?_, fun h => ?_⟩
    · rw [adcPath, hback, if_neg hnotList, hpath, htype]
      rfl
    · rw [htype] at h
      cases h
    · rw [htype] at h
      cases h

end NmdcResult

/-! ## `onRES` -/

namespace AdcResult

variable {r : SharedResult}

/-- What the parameters are read as. -/
def resParams (r : SharedResult) : ResParams :=
  { freeSlots := r.freeSlots.toNat
    size := r.size
    adcPath := r.path
    tth := if r.type = .file then r.tth.toBase32 else []
    date := if r.date ≤ 946684800 then 0 else r.date
    files := if r.type = .file then -1 else r.files
    folders := if r.type = .file then -1 else r.directories }

theorem foldl_toRES (hr : r.Sendable) (aType : UInt8) :
    (r.toRES aType).parameters.foldl ResParams.read {} = resParams r := by
  have hslots : Util.toInt (Util.toString (r.freeSlots.toNat : Int)) = r.freeSlots.toNat := by
    have hlt := r.freeSlots.toNat_lt
    exact Util.toInt_toString (by omega) (by omega)
  have hsize : Util.toInt64 (Util.toString r.size) = r.size :=
    Util.toInt64_toString (by have := hr.size.1; omega) hr.size.2
  have hdate : parseRemoteFileItemDate (Util.toString r.date) =
      if r.date ≤ 946684800 then 0 else r.date := by
    rw [parseRemoteFileItemDate, Util.toInt64_toString hr.date.1 hr.date.2]
  have hfiles := Util.toInt_toString hr.files.1 hr.files.2
  have hfolders := Util.toInt_toString hr.directories.1 hr.directories.2
  cases htype : r.type with
  | file =>
    have hread : (r.toRES aType).parameters.foldl ResParams.read {} =
        { freeSlots := Util.toInt (Util.toString (r.freeSlots.toNat : Int))
          size := Util.toInt64 (Util.toString r.size), adcPath := r.path, tth := r.tth.toBase32
          date := parseRemoteFileItemDate (Util.toString r.date) } := by
      simp only [SharedResult.toRES, htype]
      rfl
    rw [hread, hslots, hsize, hdate]
    simp [resParams, htype]
  | directory =>
    have hread : (r.toRES aType).parameters.foldl ResParams.read {} =
        { freeSlots := Util.toInt (Util.toString (r.freeSlots.toNat : Int))
          size := Util.toInt64 (Util.toString r.size), adcPath := r.path
          date := parseRemoteFileItemDate (Util.toString r.date)
          files := Util.toInt (Util.toString r.files),
            folders := Util.toInt (Util.toString r.directories) } := by
      simp only [SharedResult.toRES, htype]
      rfl
    rw [hread, hslots, hsize, hdate, hfiles, hfolders]
    simp [resParams, htype]

/-- What a result for ADC is taken for. -/
structure Recovered (r : SharedResult) (x : AdcResult) : Prop where
  type : x.type = r.type
  path : x.path = r.path
  size : x.size = r.size
  freeSlots : x.freeSlots = r.freeSlots
  date : x.date = if r.date ≤ 946684800 then 0 else r.date
  tth : r.type = .file → x.tth = r.tth
  files : r.type = .directory → x.files = r.files
  folders : r.type = .directory → x.folders = r.directories

/-- Whatever the `ClientManager` adds and the hooks decide, `onRES` recovers the result. -/
def ReadBack (r : SharedResult) (cmd : AdcCommand) : Prop :=
  ∀ connect generateDirectoryTTH runHooks, ∃ x : ConnectedResult → AdcResult,
    (∀ client, Recovered r (x client) ∧ (x client).client = client) ∧
      onRES connect generateDirectoryTTH runHooks cmd =
        (connect []).bind fun client => if runHooks (x client) then some (x client) else none

/-- **A result for ADC is read back** from its parameters. -/
theorem onRES_of_parameters (hr : r.Sendable) {aType : UInt8} {cmd : AdcCommand}
    (hcmd : cmd.parameters = (r.toRES aType).parameters) : ReadBack r cmd := by
  intro connect generateDirectoryTTH runHooks
  obtain ⟨names, hne, hnames, hpath⟩ := hr.path
  have hend := @getLast?_resultPath names r.type hne hnames
  rw [← hpath] at hend
  have hnil : r.path ≠ [] := by
    obtain ⟨c, s, -, hcons⟩ := @resultPath_cons names r.type hne hnames
    rw [hpath, hcons]
    exact List.cons_ne_nil _ _
  have hslots : (((r.freeSlots.toNat : Int)) % 256).toNat.toUInt8 = r.freeSlots := by
    have hlt := r.freeSlots.toNat_lt
    have hmod : ((r.freeSlots.toNat : Int) % 256).toNat = r.freeSlots.toNat := by omega
    rw [hmod]
    simp
  have hvalid : ¬ ((resParams r).freeSlots = -1 ∨ (resParams r).size = -1 ∨
      (resParams r).adcPath = []) := by
    rintro (h | h | h)
    · have hfree : (r.freeSlots.toNat : Int) = -1 := h
      omega
    · have hsize : r.size = -1 := h
      have := hr.size.1
      omega
    · exact hnil h
  have hkind : (if (resParams r).adcPath.getLast? =
    some ADC_SEPARATOR then SearchResult.SearchType.directory
      else .file) = r.type := by
    cases htype : r.type with
    | directory => exact if_pos (hend.mpr htype)
    | file =>
      refine if_neg fun h => ?_
      rw [hend.mp h] at htype
      cases htype
  rw [onRES]
  simp only [hcmd, foldl_toRES hr, hkind]
  rw [if_neg hvalid]
  cases htype : r.type with
  | file =>
    refine ⟨fun client =>
      { client, type := .file, freeSlots := r.freeSlots, size := r.size, path := r.path
        tth := TTHValue.ofBase32 r.tth.toBase32, token := [],
          date := if r.date ≤ 946684800 then 0 else r.date
        folders := -1, files := -1 }, ?_, ?_⟩
    · intro client
      refine ⟨⟨htype.symm, rfl, rfl, rfl, rfl, fun _ => TTHValue.ofBase32_toBase32 r.tth,
        fun h => ?_, fun h => ?_⟩, rfl⟩
      · rw [htype] at h
        cases h
      · rw [htype] at h
        cases h
    · rw [if_neg (by simp [resParams, htype, TTHValue.toBase32_ne_nil])]
      simp [resParams, htype, hslots]
  | directory =>
    refine ⟨fun client =>
      { client, type := .directory, freeSlots := r.freeSlots, size := r.size, path := r.path
        tth := generateDirectoryTTH (PathUtil.getLastDir r.path) r.size, token := []
        date := if r.date ≤ 946684800 then 0 else r.date, folders := r.directories,
          files := r.files }, ?_, ?_⟩
    · intro client
      refine ⟨⟨htype.symm, rfl, rfl, rfl, rfl, fun h => ?_, fun _ => rfl, fun _ => rfl⟩, rfl⟩
      rw [htype] at h
      cases h
    · rw [if_neg (by simp)]
      simp [resParams, htype, hslots]

end AdcResult

/-! ## The ways of a command -/

namespace SharedResult

open AdcCommand

variable {r : SharedResult}

/-- The tokens of a result do not end with an empty one. -/
theorem dropEmptyEnd_toRES (r : SharedResult) (front : List Str) (aType : UInt8) :
    dropEmptyEnd (front ++ (r.toRES aType).parameters) = front ++ (r.toRES aType).parameters := by
  have hlast : ∀ v : Str, str "DM" ++ v ≠ [] ∧ str "FO" ++ v ≠ [] := by
    intro v
    constructor <;> exact List.append_ne_nil_of_left_ne_nil (by decide) _
  have hne : (front ++ (r.toRES aType).parameters).getLast? ≠ some [] := by
    cases htype : r.type with
    | file => simpa [toRES, htype, List.getLast?_append] using (hlast _).1
    | directory => simpa [toRES, htype, List.getLast?_append] using (hlast _).2
  rw [dropEmptyEnd, if_neg hne]

theorem length_toBase32 (tth : TTHValue) : tth.toBase32.length = 39 := by
  obtain ⟨words, pad, hpad, htext, -, hbits⟩ := Encoder.toBase32_bits tth.toList 0 (by decide)
  have hlength := congrArg List.length hbits
  rw [List.drop_zero, List.length_append, List.length_replicate, Lib.length_flatMap_bits,
    Vector.length_toList, List.length_flatMap] at hlength
  simp only [Encoder.length_digitBits, List.map_const', List.sum_replicate, smul_eq_mul] at hlength
  rw [TTHValue.toBase32, htext, List.length_map]
  omega

theorem toBase32_takeWhile (tth : TTHValue) : tth.toBase32.takeWhile (· ≠ 0) = tth.toBase32 := by
  have halphabet : ∀ c ∈ Encoder.base32Alphabet, c ≠ 0 := by decide +kernel
  rw [List.takeWhile_eq_self_iff]
  intro c hc
  simpa using halphabet c (TTHValue.toBase32_digit hc)

theorem escape_toBase32 (tth : TTHValue) : escape tth.toBase32 false = tth.toBase32 := by
  have halphabet : ∀ c ∈ Encoder.base32Alphabet, escaped false c = [c] := by decide +kernel
  rw [escape_eq_flatMap]
  conv_rhs => rw [← List.flatMap_singleton' tth.toBase32]
  exact List.flatMap_congr fun c hc => halphabet c (TTHValue.toBase32_digit hc)

/-- By UDP, the CID is sent as one more parameter. -/
theorem toUdpString_eq {c : AdcCommand} (htype : c.type = TYPE_UDP) (cid : CID) :
    c.toUdpString cid =
    ({ c with parameters := TTHValue.toBase32 cid :: c.parameters } : AdcCommand).toString 0
    false := by
  have hslots : hasFrom TYPE_UDP = false ∧ hasTo TYPE_UDP = false ∧
      (TYPE_UDP == TYPE_FEATURE) = false := by
    decide
  rw [toUdpString, AdcCommand.toString, getHeaderString, getParamString, getParamString]
  simp only [htype, hslots, List.flatMap_cons, escape_toBase32, show str " " = [SPACE] from rfl]
  simp [cmdChar]

theorem writable_udp {c : AdcCommand} (htype : c.type = TYPE_UDP) : Writable c 0 := by
  refine ⟨?_, fun h => ?_, fun h => ?_, fun h => ?_⟩
  · rw [htype]
    decide
  · rw [htype] at h
    exact absurd h (by decide)
  · rw [htype] at h
    exact absurd h (by decide)
  · rw [htype] at h
    exact absurd h (by decide)

/-- **A result arrives by UDP** with the CID in front, which is taken off. -/
theorem parse_toUdpString (r : SharedResult) (cid : CID) {findUser : CID → Bool}
    (hknown : findUser cid = true) :
    ∃ cmd, (parse ((r.toRES TYPE_UDP).toUdpString cid).dropLast false).toOption.bind
      (UDPServer.handleRES findUser) =
      some cmd ∧ cmd.parameters = (r.toRES TYPE_UDP).parameters := by
  have htype : (r.toRES TYPE_UDP).type = TYPE_UDP := rfl
  have hname : (r.toRES TYPE_UDP).cmd0 ≠ 0 ∧ (r.toRES TYPE_UDP).cmd1 ≠ 0 ∧
      (r.toRES TYPE_UDP).cmd2 ≠ 0 :=
    ⟨show chr 'R' ≠ 0 by decide, show chr 'E' ≠ 0 by decide, show chr 'S' ≠ 0 by decide⟩
  have hparams := r.dropEmptyEnd_toRES [TTHValue.toBase32 cid] TYPE_UDP
  have hcid : CID.ofBase32 (TTHValue.toBase32 cid) = cid := by
    rw [CID.ofBase32, toBase32_takeWhile, TTHValue.ofBase32_toBase32]
  have htext := toUdpString_eq htype cid
  generalize r.toRES TYPE_UDP = c at htype hname hparams htext ⊢
  have htrip : RoundTrips { c with parameters := TTHValue.toBase32 cid :: c.parameters } 0 :=
    roundTrips_of_name (writable_udp htype) hname.1 hname.2.1 hname.2.2
  rw [RoundTrips, ← htext] at htrip
  rw [List.singleton_append] at hparams
  rw [htrip]
  simp only [Except.toOption, Option.bind_some, UDPServer.handleRES, hparams, length_toBase32, hcid,
    hknown]
  exact ⟨_, rfl, rfl⟩

/-- A result arrives through the hub. -/
theorem parse_direct (r : SharedResult) {sid target : SID} (hsid : Plain (fromSID sid))
    (htarget : Plain (fromSID target)) :
    ∃ cmd, parse
      (({ r.toRES TYPE_UDP with type := TYPE_DIRECT, «to» := target } : AdcCommand).toString sid
        false).dropLast false = .ok cmd ∧ cmd.parameters = (r.toRES TYPE_UDP).parameters := by
  have hname : (r.toRES TYPE_UDP).cmd0 ≠ 0 ∧ (r.toRES TYPE_UDP).cmd1 ≠ 0 ∧
      (r.toRES TYPE_UDP).cmd2 ≠ 0 :=
    ⟨show chr 'R' ≠ 0 by decide, show chr 'E' ≠ 0 by decide, show chr 'S' ≠ 0 by decide⟩
  have hparams := r.dropEmptyEnd_toRES [] TYPE_UDP
  generalize r.toRES TYPE_UDP = c at hname hparams ⊢
  have hwritable : Writable { c with type := TYPE_DIRECT, «to» := target } sid :=
    ⟨show isValidType TYPE_DIRECT = true by decide, fun _ => hsid, fun _ => htarget,
      fun h => absurd h (show TYPE_DIRECT ≠ TYPE_FEATURE by decide)⟩
  have htrip := roundTrips_of_name hwritable hname.1 hname.2.1 hname.2.2
  exact ⟨_, htrip, hparams⟩

/-- **Results survive the wire**: as text for NMDC, by UDP and through an ADC hub. -/
theorem results_survive (hr : r.Sendable) {nick ipPort : Str} (hnick : chr ' ' ∉ nick)
    (hspace : chr ' ' ∉ ipPort) (hfive : 5 ∉ ipPort) (cid : CID) {findUser : CID → Bool}
    (hknown : findUser cid = true) {sid target : SID} (hsid : Plain (fromSID sid))
    (htarget : Plain (fromSID target)) :
    (∀ connect, ∃ x, NmdcResult.Recovered r nick ipPort x ∧
    NmdcResult.onSR connect (r.toSR nick ipPort) =
      some (if connect ipPort nick then some x else none)) ∧
    (∃ cmd, (parse ((r.toRES TYPE_UDP).toUdpString cid).dropLast false).toOption.bind
      (UDPServer.handleRES findUser) = some cmd ∧ AdcResult.ReadBack r cmd) ∧
    ∃ cmd, parse
      (({ r.toRES TYPE_UDP with type := TYPE_DIRECT, «to» := target } : AdcCommand).toString sid
        false).dropLast false = .ok cmd ∧ AdcResult.ReadBack r cmd := by
  refine ⟨NmdcResult.onSR_toSR hr hnick hspace hfive, ?_, ?_⟩
  · obtain ⟨cmd, hparse, hparams⟩ := parse_toUdpString r cid hknown
    exact ⟨cmd, hparse, AdcResult.onRES_of_parameters hr hparams⟩
  · obtain ⟨cmd, hparse, hparams⟩ := parse_direct r hsid htarget
    exact ⟨cmd, hparse, AdcResult.onRES_of_parameters hr hparams⟩

/-- A directory with spaces and parentheses in its name -/
def spacedDirectory : SharedResult where
  type := .directory
  path := str "/My Share/a (b) c/"
  size := 5
  freeSlots := 1
  totalSlots := 3
  tth := Vector.replicate 24 7
  date := 1700000000
  files := 2
  directories := 1

/-- It arrives at the users whose SIDs are `AAAB` and `AAAC`. -/
theorem results_survive_spaced :
    (∀ connect, ∃ x, NmdcResult.Recovered spacedDirectory (str "me") (str "1.2.3.4:411") x ∧
      NmdcResult.onSR connect (spacedDirectory.toSR (str "me") (str "1.2.3.4:411")) =
        some (if connect (str "1.2.3.4:411") (str "me") then some x else none)) ∧
    (∃ cmd, (parse ((spacedDirectory.toRES TYPE_UDP).toUdpString (Vector.replicate 24 1)).dropLast
      false).toOption.bind (UDPServer.handleRES fun _ => true) = some cmd ∧
        AdcResult.ReadBack spacedDirectory cmd) ∧
    ∃ cmd, parse
      (({ spacedDirectory.toRES TYPE_UDP with
          type := TYPE_DIRECT, «to» := toSID (str "AAAC") } : AdcCommand).toString (toSID (str "AAAB")) false).dropLast false = .ok cmd ∧
        AdcResult.ReadBack spacedDirectory cmd :=
  results_survive
    ⟨by decide, by decide, by decide, by decide,
      [str "My Share", str "a (b) c"], by decide, by decide +kernel, by decide +kernel⟩
    (by decide +kernel) (by decide +kernel) (by decide +kernel) _ rfl (by decide +kernel)
    (by decide +kernel)

/-- A file under the root whose name is that of a file list, from 1970 -/
def rootFile : SharedResult where
  type := .file
  path := str "/files.xml"
  size := 5
  freeSlots := 1
  totalSlots := 3
  tth := Vector.replicate 24 7
  date := 1
  files := 0
  directories := 0

/-- It loses the root of its path through NMDC, and its date through ADC. -/
theorem results_do_not_survive :
    (∃ x, NmdcResult.onSR (fun _ _ => true) (rootFile.toSR (str "me") (str "1.2.3.4:411")) =
    some (some x) ∧
      x.adcPath = str "files.xml" ∧ x.adcPath ≠ rootFile.path) ∧
    ∃ x, AdcResult.onRES (fun _ => some ⟨[], [], 0⟩) (fun _ _ => rootFile.tth) (fun _ => true)
      (rootFile.toRES TYPE_UDP) = some x ∧ x.date = 0 ∧ 0 < rootFile.date ∧
        x.date ≠ rootFile.date := by
  have hr : rootFile.Sendable :=
    ⟨by decide, by decide, by decide, by decide, [str "files.xml"], by decide, by decide +kernel,
      by decide +kernel⟩
  constructor
  · obtain ⟨x, hx, hread⟩ := @NmdcResult.onSR_toSR rootFile (str "me")
      (str "1.2.3.4:411") hr (by decide +kernel)
      (by decide +kernel) (by decide +kernel) fun _ _ => true
    have hpath : x.adcPath = str "files.xml" := by
      rw [hx.path]
      decide +kernel
    refine ⟨x, hread, hpath, ?_⟩
    rw [hpath]
    decide +kernel
  · obtain ⟨x, hx, hread⟩ := AdcResult.onRES_of_parameters hr rfl (fun _ => some ⟨[], [], 0⟩)
      (fun _ _ => rootFile.tth) fun _ => true
    have hdate : (x ⟨[], [], 0⟩).date = 0 := (hx ⟨[], [], 0⟩).1.date
    refine ⟨x ⟨[], [], 0⟩, hread, hdate, by decide, ?_⟩
    rw [hdate]
    decide

end SharedResult

end Airdcpp
