import Airdcpp.Util.Positions

/-!
# `Search/NmdcResult` — search results of NMDC

`SearchManager::onSR` takes a result apart, from both of its ends:

    $SR <nick> <directory> <free slots>/<total slots><0x05><hub name> (<hub ip:port>)
    $SR <nick> <file><0x05><size> <free slots>/<total slots><0x05><hub name> (<hub ip:port>)
-/

namespace Airdcpp

structure NmdcResult where
  nick : Str
  isFile : Bool
  file : Str
  size : Int
  freeSlots : Int
  slots : Int
  hubIpPort : Str
  tth : Str
deriving DecidableEq, Repr

namespace NmdcResult

/-- The path, the size, and where the slots begin. The inner `none` is the `return`. -/
def parseFile (x : Str) (i j cnt : Nat) : Option (Option (Bool × Str × Int × Nat)) :=
  if cnt = 1 then
    -- the first space before the first 0x05 from the back; directories may have spaces as well
    match rfindLast x [5] with
    | none => some none
    | some j =>
      match rfindAt x (str " ") (subSizeT j 1) with
      | none => some none
      | some j =>
        if j < i + 1 then some none
        else do
          let file ← substr x i (subSizeT j i)
          some (some (false, file ++ str "\\", 0, j + 1))
  else if cnt = 2 then
    match find x [5] i with
    | none => some none
    | some j => do
      let file ← substr x i (subSizeT j i)
      match find x (str " ") (j + 1) with
      | none => some none
      | some k => do
        let size ← substr x (j + 1) (subSizeT k (j + 1))
        some (some (true, file, Util.toInt64 size, k + 1))
  else some (some (true, [], 0, j + 1))

/-- The slots and the hub: the free slots, all slots, the hub's name and its address. -/
def parseSlots (x : Str) (i : Nat) : Option (Option (Int × Int × Str × Str)) :=
  match find x (str "/") i with
  | none => some none
  | some j => do
    let freeSlots ← substr x i (subSizeT j i)
    match find x [5] (j + 1) with
    | none => some none
    | some k => do
      let slots ← substr x (j + 1) (subSizeT k (j + 1))
      -- both are looked for from the back, wherever the slots are
      match rfindLast x (str " (") with
      | none => some none
      | some l => do
        let hubName ← substr x (k + 1) (subSizeT l (k + 1))
        match rfindLast x (str ")") with
        | none => some none
        | some last => do
          let hubIpPort ← substr x (l + 2) (subSizeT last (l + 2))
          some (some (Util.toInt freeSlots % 256, Util.toInt slots % 256, hubName, hubIpPort))

/-- `onSR`. `connectNMDCSearchResult` knows the hub and the nick of a result. -/
def onSR (connectNMDCSearchResult : Str → Str → Bool) (x : Str) : Option (Option NmdcResult) :=
  match find x (str " ") 4 with
  | none => some none
  | some j => do
    let nick ← substr x 4 (j - 4)
    -- a file has two 0x05, a directory only one
    let cnt := (x.drop j).count 5
    match ← parseFile x (j + 1) j cnt with
    | none => some none
    | some (isFile, file, size, i) =>
      match ← parseSlots x i with
      | none => some none
      | some (freeSlots, slots, hubName, hubIpPort) =>
        if !connectNMDCSearchResult hubIpPort nick then some none
        else do
          let tth ← (if (str "TTH:").isPrefixOf hubName then substrFrom hubName 4 else some [])
          if tth.isEmpty ∧ isFile then some none
          else some (some { nick, isFile, file, size, freeSlots, slots, hubIpPort, tth })

/-! ## In range -/

variable {x : Str} {i j cnt : Nat}

theorem inRange_parseFile (hi : i ≤ x.length) : InRange (parseFile x i j cnt) := by
  rw [parseFile]
  refine inRange_ite (fun _ => ?_) fun _ => inRange_ite (fun _ => ?_) fun _ => inRange_some _
  · cases rfindLast x [5] with
    | none => exact inRange_some _
    | some j =>
      simp only
      cases rfindAt x (str " ") (subSizeT j 1) with
      | none => exact inRange_some _
      | some j =>
        refine inRange_ite (fun _ => inRange_some _) fun _ => ?_
        exact (inRange_substr hi).bind fun _ _ => inRange_some _
  · cases hfile : find x [5] i with
    | none => exact inRange_some _
    | some j =>
      have hj := (find_le hfile).2
      refine (inRange_substr hi).bind fun _ _ => ?_
      cases find x (str " ") (j + 1) with
      | none => exact inRange_some _
      | some k => exact (inRange_substr hj).bind fun _ _ => inRange_some _

/-- Where the slots begin. -/
theorem le_of_parseFile {isFile : Bool} {file : Str} {size : Int} {k : Nat}
    (h : parseFile x i j cnt = some (some (isFile, file, size, k))) (hi : i ≤ x.length)
    (hj : j < x.length) : k ≤ x.length := by
  rw [parseFile] at h
  split at h
  · cases hlast : rfindLast x [5] with
    | none => simp [hlast] at h
    | some l =>
      cases hspace : rfindAt x (str " ") (subSizeT l 1) with
      | none => simp [hlast, hspace] at h
      | some m =>
        have hm := (rfindAt_le hspace).2
        simp only [hlast, hspace] at h
        split at h
        · simp at h
        · rw [substr_of_le hi] at h
          simp only [Option.bind_eq_bind, Option.bind_some, Option.some.injEq, Prod.mk.injEq] at h
          exact h.2.2.2 ▸ hm
  · split at h
    · cases hfile : find x [5] i with
      | none => simp [hfile] at h
      | some l =>
        have hl : l + 1 ≤ x.length := (find_le hfile).2
        simp only [hfile, substr_of_le hi, Option.bind_eq_bind, Option.bind_some] at h
        cases hspace : find x (str " ") (l + 1) with
        | none => simp [hspace] at h
        | some m =>
          have hm := (find_le hspace).2
          simp only [hspace, substr_of_le hl, Option.bind_some, Option.some.injEq,
            Prod.mk.injEq] at h
          exact h.2.2.2 ▸ hm
    · simp only [Option.some.injEq, Prod.mk.injEq] at h
      exact h.2.2.2 ▸ hj

theorem inRange_parseSlots (hi : i ≤ x.length) : InRange (parseSlots x i) := by
  rw [parseSlots]
  cases hfree : find x (str "/") i with
  | none => exact inRange_some _
  | some j =>
    have hj := (find_le hfree).2
    refine (inRange_substr hi).bind fun _ _ => ?_
    cases hslots : find x [5] (j + 1) with
    | none => exact inRange_some _
    | some k =>
      have hk := (find_le hslots).2
      refine (inRange_substr hj).bind fun _ _ => ?_
      cases hname : rfindLast x (str " (") with
      | none => exact inRange_some _
      | some l =>
        have hl := (rfindAt_le hname).2
        refine (inRange_substr hk).bind fun _ _ => ?_
        cases rfindLast x (str ")") with
        | none => exact inRange_some _
        | some _ => exact (inRange_substr hl).bind fun _ _ => inRange_some _

/-- **No position in a result is out of range.** -/
theorem inRange_onSR (connect : Str → Str → Bool) (x : Str) : InRange (onSR connect x) := by
  rw [onSR]
  cases hnick : find x (str " ") 4 with
  | none => exact inRange_some _
  | some j =>
    obtain ⟨hfour, hj⟩ := find_le hnick
    have hlt : j < x.length := hj
    refine (inRange_substr (by omega)).bind fun nick _ => ?_
    refine (inRange_parseFile hj).bind fun parsed hparsed => ?_
    rcases parsed with _ | ⟨isFile, file, size, k⟩
    · exact inRange_some _
    · have hk := le_of_parseFile hparsed hj hlt
      refine (inRange_parseSlots hk).bind fun parsed _ => ?_
      rcases parsed with _ | ⟨freeSlots, slots, hubName, hubIpPort⟩
      · exact inRange_some _
      · refine inRange_ite (fun _ => inRange_some _) fun _ => ?_
        refine InRange.bind ?_ fun tth _ => ?_
        · refine inRange_ite (fun hpre => ?_) fun _ => inRange_some _
          rw [List.isPrefixOf_iff_prefix] at hpre
          exact inRange_substrFrom hpre.length_le
        · exact inRange_ite (fun _ => inRange_some _) fun _ => inRange_some _

end NmdcResult
end Airdcpp
