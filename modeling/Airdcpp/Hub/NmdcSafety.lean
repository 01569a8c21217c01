import Airdcpp.Connection.NmdcLines
import Airdcpp.Hub.NmdcHub
import Airdcpp.Search.NmdcResult

/-!
# `Hub/NmdcSafety` — which lines of a hub stay in range

Every handler of `NmdcHub::onLine` stays in range of its strings except two. `$Search` looks two
bytes behind the place where the size mode begins, and `$ConnectToMe` looks at the last byte of a
port that may be empty: when nothing stands between the colon and a space, or when the port is only
the `S` that says that the connection is secure.

`SearchOk` and `ConnectToMeOk` are what their parameters must be, and `inRange_onLine_iff` says that
nothing else is needed of a line.
-/

namespace Airdcpp
namespace NmdcHub

variable {h : NmdcState} {param aLine cmd : Str}

/-! ## Tags -/

theorem inRange_foldlM {α β : Type} {f : β → α → Option β} (hf : ∀ b a, InRange (f b a))
    (l : List α) (b : β) : InRange (l.foldlM f b) := by
  induction l generalizing b with
  | nil => exact inRange_pure b
  | cons a l ih =>
    rw [List.foldlM_cons]
    exact (hf b a).bind fun b _ => ih b

theorem inRange_updateFromToken (tag : NmdcTag) (i : Str) : InRange (updateFromToken tag i) := by
  rw [updateFromToken]
  refine inRange_ite (fun _ => inRange_some _) fun hlength => ?_
  have htwo : 2 ≤ i.length := Nat.le_of_not_lt hlength
  refine inRange_ite (fun _ => ?_) fun _ => inRange_ite (fun _ => ?_) fun _ => ?_
  · exact (inRange_substrFrom htwo).bind fun _ _ => inRange_some _
  · exact (inRange_substrFrom htwo).bind fun _ _ => inRange_some _
  · cases hversion : find i (str "V:") 0 with
    | some j =>
      have hj : j + 2 ≤ i.length := (find_le hversion).2
      refine InRange.bind ?_ fun _ _ => ?_
      · exact inRange_ite (fun _ => (inRange_substr (Nat.zero_le _)).map _) fun _ => inRange_some _
      · exact (inRange_eraseRange (Nat.zero_le _) hj).bind fun _ _ => inRange_some _
    | none =>
      refine inRange_ite (fun _ => inRange_ite (fun hthree => ?_) fun _ => inRange_some _) fun _ =>
        ?_
      · exact (inRange_charAt htwo).bind fun _ _ => inRange_some _
      · cases hlimit : find i (str "L:") 0 with
        | none => exact inRange_some _
        | some j =>
          have hj : j + 2 ≤ i.length := (find_le hlimit).2
          exact (inRange_eraseRange (Nat.le_add_right _ _) hj).bind fun _ _ => inRange_some _

/-- No position in a tag is out of range. -/
theorem inRange_updateFromTag (tag : Str) : InRange (updateFromTag tag) :=
  (inRange_foldlM inRange_updateFromToken _ _).bind fun _ _ => inRange_some _

/-! ## Chat -/

theorem inRange_thirdPerson (hlocale : NulApart h.locale) (text : Str) :
    InRange (thirdPerson h text) := by
  rw [thirdPerson]
  refine inRange_ite (fun hme => ?_) fun _ => inRange_some _
  have hfour := length_of_strnicmp hlocale (by decide +kernel) (by decide) (Nat.lt_succ_self _) hme
  exact (inRange_substrFrom hfour).map _

theorem inRange_onChatLine (hlocale : NulApart h.locale) (line : Str) :
    InRange (onChatLine h line) := by
  rw [onChatLine]
  refine (inRange_charAt (Nat.zero_le _)).bind fun first _ => ?_
  refine inRange_ite (fun _ => inRange_some _) fun _ => ?_
  cases hnick : find line (str ">") 2 with
  | none => exact inRange_some _
  | some i =>
    obtain ⟨htwo, hi⟩ := find_le hnick
    have hlt : i + 1 ≤ line.length := hi
    have hsize : subSizeT line.length 1 = line.length - 1 := if_pos (by omega)
    refine (inRange_substr (by omega)).bind fun nick _ => ?_
    refine InRange.bind ?_ fun next hnext => ?_
    · exact inRange_ite (fun _ => inRange_charAt hlt) fun _ => inRange_some _
    · refine inRange_ite (fun hspace => ?_) fun _ => inRange_some _
      have hmore : i + 2 ≤ line.length := by
        by_contra hend
        -- nothing is behind the nick, so no space is
        rw [hsize, if_neg (by omega), hspace] at hnext
        exact absurd (Option.some.inj hnext) (by decide)
      refine (inRange_substrFrom hmore).bind fun message _ => ?_
      refine inRange_ite (fun _ => inRange_some _) fun _ => ?_
      exact (inRange_thirdPerson hlocale _).bind fun _ _ => inRange_some _

/-! ## Commands -/

theorem inRange_searchTerms {seeker : Str} {isPassive : Bool} {a i : Nat} :
    InRange (searchTerms h param seeker isPassive a i) := by
  rw [searchTerms]
  cases hsize : find param (str "?") i with
  | none => exact inRange_some _
  | some j =>
    obtain ⟨hij, hj⟩ := find_le hsize
    have hlt : j + 1 ≤ param.length := hj
    refine inRange_ite (fun _ => inRange_some _) fun _ => ?_
    refine (inRange_substr (by omega)).bind fun size _ => ?_
    cases htype : find param (str "?") (j + 1) with
    | none => exact inRange_some _
    | some k =>
      have hk : k + 1 ≤ param.length := (find_le htype).2
      refine inRange_ite (fun _ => inRange_some _) fun _ => ?_
      refine (inRange_substr hlt).bind fun type _ => ?_
      refine (inRange_substrFrom hk).bind fun terms _ => ?_
      exact inRange_ite (fun _ => inRange_some _) fun _ => inRange_some _

theorem inRange_splitTag (tmpDesc : Str) : InRange (splitTag tmpDesc) := by
  rw [splitTag]
  refine InRange.bind ?_ fun last _ => ?_
  · exact inRange_ite (fun hpos => inRange_charBack (List.length_pos_iff.mp hpos)) fun _ =>
      inRange_some _
  · refine inRange_ite (fun _ => ?_) fun _ => inRange_some _
    cases htag : rfindLast tmpDesc (str "<") with
    | none => exact inRange_some _
    | some x =>
      have hx : x + 1 ≤ tmpDesc.length := (rfindAt_le htag).2
      refine (inRange_substr hx).bind fun tag _ => ?_
      refine (inRange_updateFromTag tag).bind fun updated _ => ?_
      exact (inRange_eraseFrom (by omega)).bind fun _ _ => inRange_some _

theorem inRange_onMyInfoRest {info : NmdcInfo} {i : Nat} (hi : 0 < i) :
    InRange (onMyInfoRest param info i) := by
  rw [onMyInfoRest]
  cases hconnection : find param (str "$") i with
  | none => exact inRange_some _
  | some j =>
    obtain ⟨hij, hj⟩ := find_le hconnection
    have hlt : j + 1 ≤ param.length := hj
    have hbefore : subSizeT j 1 = j - 1 := if_pos (by omega)
    refine InRange.bind ?_ fun connection _ => ?_
    · exact inRange_ite (fun _ => inRange_some _) fun _ => inRange_substr (by omega)
    · refine (inRange_charAt (by omega)).bind fun status _ => ?_
      cases hemail : find param (str "$") (j + 1) with
      | none => exact inRange_some _
      | some k =>
        have hk : k + 1 ≤ param.length := (find_le hemail).2
        refine (inRange_substr hlt).bind fun email _ => ?_
        cases find param (str "$") (k + 1) with
        | none => exact inRange_some _
        | some l => exact (inRange_substr hk).bind fun _ _ => inRange_some _

theorem inRange_onMyInfo : InRange (onMyInfo param) := by
  rw [onMyInfo]
  cases hnick : find param (str " ") 5 with
  | none => exact inRange_some _
  | some j =>
    obtain ⟨hfive, hj⟩ := find_le hnick
    have hlt : j + 1 ≤ param.length := hj
    refine inRange_ite (fun _ => inRange_some _) fun _ => ?_
    refine (inRange_substr (by omega)).bind fun nick _ => ?_
    refine inRange_ite (fun _ => inRange_some _) fun _ => ?_
    cases find param (str "$") (j + 1) with
    | none => exact inRange_some _
    | some k =>
      refine (inRange_substr hlt).bind fun tmpDesc _ => ?_
      refine (inRange_splitTag _).bind fun split _ => ?_
      exact (inRange_onMyInfoRest (Nat.succ_pos _)).bind fun _ _ => inRange_some _

theorem inRange_onRevConnectToMe : InRange (onRevConnectToMe h param) := by
  rw [onRevConnectToMe]
  refine inRange_ite (fun _ => inRange_some _) fun _ => ?_
  cases find param (str " ") 0 with
  | none => exact inRange_some _
  | some j =>
    refine (inRange_substr (Nat.zero_le _)).bind fun nick _ => ?_
    cases h.findUser nick with
    | none => exact inRange_some _
    | some u =>
      refine inRange_ite (fun _ => inRange_some _) fun _ => ?_
      refine inRange_ite (fun _ => inRange_some _) fun _ => ?_
      exact inRange_ite (fun _ => inRange_some _) fun _ => inRange_some _

theorem inRange_splitName : InRange (splitName param) := by
  rw [splitName]
  cases hdash : find param (str " - ") 0 with
  | some i =>
    have hi : i + 3 ≤ param.length := (find_le hdash).2
    refine (inRange_substr (Nat.zero_le _)).bind fun name _ => ?_
    exact (inRange_substrFrom hi).bind fun _ _ => inRange_some _
  | none =>
    cases hspace : find param (str " ") 0 with
    | none => exact inRange_some _
    | some i =>
      have hi : i + 1 ≤ param.length := (find_le hspace).2
      refine (inRange_substr (Nat.zero_le _)).bind fun name _ => ?_
      exact (inRange_substrFrom hi).bind fun _ _ => inRange_some _

theorem inRange_onUserCommand : InRange (onUserCommand param) := by
  rw [onUserCommand]
  cases htype : find param (str " ") 0 with
  | none => exact inRange_some _
  | some j =>
    have hj : j + 1 ≤ param.length := (find_le htype).2
    refine (inRange_substr (Nat.zero_le _)).bind fun type _ => ?_
    refine inRange_ite (fun _ => ?_) fun _ => inRange_ite (fun _ => ?_) fun _ => inRange_some _
    · exact (inRange_substrFrom hj).bind fun _ _ => inRange_some _
    · cases hctx : find param (str " ") (j + 1) with
      | none => exact inRange_some _
      | some k =>
        have hk : k + 1 ≤ param.length := (find_le hctx).2
        refine (inRange_substrFrom hj).bind fun ctx _ => ?_
        cases hname : find param (str "$") 0 with
        | none => exact inRange_some _
        | some l =>
          have hl : l + 1 ≤ param.length := (find_le hname).2
          refine (inRange_substr hk).bind fun name _ => ?_
          exact (inRange_substr hl).bind fun _ _ => inRange_some _

theorem inRange_onLock : InRange (onLock h aLine) := by
  rw [onLock]
  refine inRange_ite (fun _ => inRange_some _) fun hlength => ?_
  have hsix : 6 ≤ aLine.length := Nat.le_of_not_lt fun hlt => hlength (.inr hlt)
  refine (inRange_substrFrom hsix).bind fun param _ => ?_
  refine inRange_ite (fun _ => inRange_some _) fun _ => ?_
  cases hpk : find param (str " Pk=") 0 with
  | some j =>
    have hj : j + 4 ≤ param.length := (find_le hpk).2
    refine (inRange_substr (Nat.zero_le _)).bind fun lock _ => ?_
    exact (inRange_substrFrom hj).bind fun _ _ => inRange_some _
  | none =>
    cases find param (str " ") 0 with
    | some j => exact (inRange_substr (Nat.zero_le _)).bind fun _ _ => inRange_some _
    | none => exact inRange_some _

theorem inRange_onUserIpToken (it : Str) : InRange (onUserIpToken h it) := by
  rw [onUserIpToken]
  cases hnick : find it (str " ") 0 with
  | none => exact inRange_some _
  | some j =>
    have hj : j + 1 ≤ it.length := (find_le hnick).2
    refine inRange_ite (fun _ => inRange_some _) fun _ => ?_
    refine (inRange_substr (Nat.zero_le _)).bind fun nick _ => ?_
    refine inRange_ite (fun _ => inRange_some _) fun _ => ?_
    exact (inRange_substrFrom hj).bind fun _ _ => inRange_some _

theorem inRange_onUserIp : InRange (onUserIp h param) :=
  inRange_foldlM (fun _ it => (inRange_onUserIpToken it).map _) _ _

theorem inRange_onTo (hlocale : NulApart h.locale) : InRange (onTo h param) := by
  rw [onTo]
  cases find param (str "From:") 0 with
  | none => exact inRange_some _
  | some i =>
    dsimp only
    cases hfrom : find param (str "$") (i + 6) with
    | none => exact inRange_some _
    | some j =>
      obtain ⟨hij, hj⟩ := find_le hfrom
      have hlt : j + 1 ≤ param.length := hj
      refine (inRange_substr (by omega)).bind fun rtNick _ => ?_
      refine inRange_ite (fun _ => inRange_some _) fun hshort => ?_
      have hfour : j + 1 + 3 ≤ param.length := Nat.le_of_not_lt fun hlt => hshort (.inr hlt)
      refine (inRange_charAt hlt).bind fun c _ => ?_
      refine inRange_ite (fun _ => inRange_some _) fun _ => ?_
      cases find param (str ">") (j + 1) with
      | none => exact inRange_some _
      | some k =>
        refine (inRange_substr (by omega)).bind fun fromNick _ => ?_
        refine inRange_ite (fun _ => inRange_some _) fun hshort => ?_
        have hk : k + 2 ≤ param.length := Nat.le_of_not_lt fun hlt => hshort (.inr hlt)
        refine (inRange_substrFrom hk).bind fun message _ => ?_
        exact (inRange_thirdPerson hlocale _).bind fun _ _ => inRange_some _

/-! ## Searches -/

/-- The size mode of a search that is looked at begins with an `F`, or two more bytes follow. -/
def SearchOk (h : NmdcState) (param : Str) : Prop :=
  h.stateNormal = true → ∀ j, find param (str " ") 0 = some j → j ≠ 0 →
    ignoreSearch h (param.take j) (isPassiveSeeker (param.take j)) = false →
      param.getD (j + 1) 0 = chr 'F' ∨ j + 3 ≤ param.length

theorem inRange_onSearch_iff : InRange (onSearch h param) ↔ SearchOk h param := by
  rw [onSearch, SearchOk]
  cases hstate : h.stateNormal with
  | false => exact iff_of_true (inRange_some _) fun hnormal => absurd hnormal Bool.false_ne_true
  | true =>
    rw [if_neg (by simp)]
    cases hseeker : find param (str " ") 0 with
    | none =>
      exact iff_of_true (inRange_some _) fun _ _ hj => absurd hj.symm (Option.some_ne_none _)
    | some j =>
      cases j with
      | zero =>
        refine iff_of_true (inRange_some _) fun _ j hj hne => absurd (Option.some.inj hj).symm hne
      | succ j =>
        have hj : j + 1 + 1 ≤ param.length := (find_le hseeker).2
        simp only [substr_of_le (Nat.zero_le _), charAt_of_le hj, Option.bind_eq_bind,
          Option.bind_some, List.drop_zero]
        cases hignore : ignoreSearch h (param.take (j + 1))
            (isPassiveSeeker (param.take (j + 1))) with
        | true =>
          rw [if_pos rfl]
          refine iff_of_true (inRange_some _) fun _ k hk _ hnot => ?_
          obtain rfl := Option.some.inj hk
          rw [hignore] at hnot
          exact absurd hnot.symm Bool.false_ne_true
        | false =>
          rw [if_neg Bool.false_ne_true]
          by_cases hF : param.getD (j + 1 + 1) 0 = chr 'F'
          · rw [if_pos hF]
            refine iff_of_true inRange_searchTerms fun _ k hk _ _ => ?_
            obtain rfl := Option.some.inj hk
            exact .inl hF
          · rw [if_neg hF]
            by_cases hlong : j + 1 + 1 + 2 ≤ param.length
            · rw [charAt_of_le hlong]
              refine iff_of_true inRange_searchTerms fun _ k hk _ _ => ?_
              obtain rfl := Option.some.inj hk
              exact .inr hlong
            · rw [charAt, if_neg hlong]
              refine iff_of_false not_inRange_none fun hok => ?_
              exact (hok trivial (j + 1) rfl (Nat.succ_ne_zero _) hignore).elim hF hlong

/-! ## Connection requests -/

theorem charBack_eq {s : Str} (hs : s ≠ []) : charBack s = some (s.getD (s.length - 1) 0) := by
  have hpos : 1 ≤ s.length := List.length_pos_iff.mpr hs
  rw [charBack, subSizeT, if_pos hpos, charAt_of_le (Nat.sub_le _ _)]

theorem eraseFrom_back {s : Str} (hs : s ≠ []) :
    eraseFrom s (subSizeT s.length 1) = some s.dropLast := by
  have hpos : 1 ≤ s.length := List.length_pos_iff.mpr hs
  rw [subSizeT, if_pos hpos, eraseFrom, if_pos (Nat.sub_le _ _), List.dropLast_eq_take]

/-- What is left without the `S`. -/
theorem dropLast_ne_nil_iff {s : Str} (hs : s ≠ []) (hS : s.getD (s.length - 1) 0 = chr 'S') :
    s.dropLast ≠ [] ↔ s ≠ str "S" := by
  rcases s with _ | ⟨x, _ | ⟨y, s⟩⟩
  · exact absurd rfl hs
  · obtain rfl : x = chr 'S' := hS
    exact iff_of_false (fun hne => hne rfl) fun hne => hne rfl
  · exact iff_of_true (List.cons_ne_nil _ _) fun heq =>
      by simpa [str] using congrArg List.length heq

theorem inRange_connectWith_iff {server senderNick port : Str} {secure : Bool} :
    InRange (connectWith server senderNick port secure) ↔ port ≠ [] := by
  by_cases hport : port = []
  · subst hport
    exact iff_of_false not_inRange_none fun hne => hne rfl
  · refine iff_of_true ?_ hport
    rw [connectWith, charBack_eq hport, eraseFrom_back hport]
    refine inRange_ite (fun _ => ?_) fun _ => inRange_ite (fun _ => inRange_some _) fun _ => ?_
    · exact inRange_ite (fun _ => inRange_some _) fun _ => inRange_some _
    · exact inRange_ite (fun _ => inRange_some _) fun _ => inRange_some _

/-- The last byte of a port is looked at twice: what is left without an `S` must not be empty if
    the connection is wanted. -/
theorem inRange_connectToMe_iff {server senderNick port : Str} :
    InRange (connectToMe h server senderNick port) ↔
      port ≠ [] ∧ (h.checkIncomingCTM server = true → port ≠ str "S") := by
  by_cases hport : port = []
  · subst hport
    exact iff_of_false not_inRange_none fun hne => hne.1 rfl
  · rw [connectToMe, charBack_eq hport, eraseFrom_back hport]
    simp only [Option.bind_eq_bind, Option.bind_some, Option.map_some]
    by_cases hS : port.getD (port.length - 1) 0 = chr 'S'
    · rw [if_pos hS]
      simp only [Option.bind_some]
      cases hwanted : h.checkIncomingCTM server with
      | false =>
        exact iff_of_true (inRange_some _) ⟨hport, fun hno => absurd hno Bool.false_ne_true⟩
      | true =>
        rw [if_neg (by simp), inRange_connectWith_iff, dropLast_ne_nil_iff hport hS]
        exact ⟨fun hne => ⟨hport, fun _ => hne⟩, fun hok => hok.2 rfl⟩
    · rw [if_neg hS]
      simp only [Option.bind_some]
      have hne : port ≠ str "S" := by
        rintro rfl
        exact hS rfl
      refine iff_of_true ?_ ⟨hport, fun _ => hne⟩
      exact inRange_ite (fun _ => inRange_some _) fun _ => inRange_connectWith_iff.mpr hport

/-- The port ends at the next space. It must not be empty, nor only an `S` if the connection is
    wanted. -/
def ConnectToMeOk (h : NmdcState) (param : Str) : Prop :=
  h.stateNormal = true → ∀ i j, find param (str " ") 0 = some i →
    find param (str ":") (i + 1) = some j → j + 1 < param.length →
      (param.drop (j + 1)).takeWhile (· != chr ' ') ≠ [] ∧
        (h.checkIncomingCTM ((param.drop (i + 1)).take (j - (i + 1))) = true →
          (param.drop (j + 1)).takeWhile (· != chr ' ') ≠ str "S")

theorem inRange_onSenderPort_iff {server : Str} {j : Nat} (hj : j ≤ param.length) :
    InRange (onSenderPort h param server j) ↔
      (param.drop j).takeWhile (· != chr ' ') ≠ [] ∧
        (h.checkIncomingCTM server = true →
          (param.drop j).takeWhile (· != chr ' ') ≠ str "S") := by
  rw [onSenderPort]
  cases hport : find param (str " ") j with
  | none =>
    simp only [substrFrom_of_le hj, Option.bind_eq_bind, Option.bind_some]
    rw [takeWhile_of_find_none (c := chr ' ') hport, inRange_connectToMe_iff]
  | some k =>
    have hk : k + 1 ≤ param.length := (find_le hport).2
    simp only [substr_of_le hj, substrFrom_of_le hk, Option.bind_eq_bind, Option.bind_some]
    rw [takeWhile_of_find (c := chr ' ') hport, inRange_connectToMe_iff]

theorem inRange_onConnectToMe_iff : InRange (onConnectToMe h param) ↔ ConnectToMeOk h param := by
  rw [onConnectToMe, ConnectToMeOk]
  cases hstate : h.stateNormal with
  | false => exact iff_of_true (inRange_some _) fun hnormal => absurd hnormal Bool.false_ne_true
  | true =>
    rw [if_neg (by simp)]
    cases hnick : find param (str " ") 0 with
    | none =>
      exact iff_of_true (inRange_some _) fun _ _ _ hi => absurd hi.symm (Option.some_ne_none _)
    | some i =>
      dsimp only
      cases hserver : find param (str ":") (i + 1) with
      | none =>
        refine iff_of_true (inRange_ite (fun _ => inRange_some _) fun _ => inRange_some _) ?_
        intro _ k j hk hj _
        obtain rfl := Option.some.inj hk
        rw [hserver] at hj
        exact absurd hj.symm (Option.some_ne_none _)
      | some j =>
        obtain ⟨hij, hj⟩ := find_le hserver
        have hlt : j + 1 ≤ param.length := hj
        rw [if_neg (by omega)]
        simp only [substr_of_le (show i + 1 ≤ param.length by omega), Option.bind_eq_bind,
          Option.bind_some]
        have hfound : ∀ k l, some i = some k → find param (str ":") (k + 1) = some l →
            i = k ∧ j = l := by
          intro k l hk hl
          obtain rfl := Option.some.inj hk
          rw [hserver] at hl
          exact ⟨rfl, Option.some.inj hl⟩
        by_cases hend : param.length ≤ j + 1
        · rw [if_pos hend]
          refine iff_of_true (inRange_some _) fun _ k l hk hl hmore => ?_
          obtain ⟨rfl, rfl⟩ := hfound k l hk hl
          exact absurd hmore (Nat.not_lt.mpr hend)
        · rw [if_neg hend, inRange_onSenderPort_iff hlt]
          refine ⟨fun hok _ k l hk hl _ => ?_, fun hok => hok trivial i j rfl hserver (by omega)⟩
          obtain ⟨rfl, rfl⟩ := hfound k l hk hl
          exact hok

/-! ## Lines -/

/-- A line that begins with `$` has a command, and a parameter if it has a space. -/
theorem splitCommand_cases {t : Str} :
    (∃ word rest, chr ' ' ∉ word ∧ t = word ++ chr ' ' :: rest ∧
      splitCommand h (chr '$' :: t) = some (word, toUtf8 h rest)) ∨
    (chr ' ' ∉ t ∧ splitCommand h (chr '$' :: t) = some (t, [])) := by
  have hone : 1 ≤ (chr '$' :: t).length := Nat.succ_pos _
  rw [splitCommand]
  cases hspace : find (chr '$' :: t) (str " ") 0 with
  | none =>
    right
    have hword := takeWhile_of_find_none (c := chr ' ') hspace
    rw [List.drop_zero, List.takeWhile_eq_self_iff] at hword
    refine ⟨fun hmem => ?_, ?_⟩
    · simpa using hword _ (List.mem_cons_of_mem _ hmem)
    · simp [substrFrom_of_le hone]
  | some x =>
    left
    have hx : x + 1 ≤ (chr '$' :: t).length := (find_le hspace).2
    have hdrop := drop_of_find (c := chr ' ') hspace
    cases x with
    | zero => exact absurd (List.cons.inj hdrop).1 (by decide)
    | succ y =>
      have hword := takeWhile_of_find (c := chr ' ') hspace
      rw [List.drop_zero, Nat.sub_zero, List.take_succ_cons] at hword
      rw [List.drop_succ_cons, List.drop_succ_cons] at hdrop
      refine ⟨t.take y, t.drop (y + 1), fun hmem => ?_, ?_, ?_⟩
      · have hne := List.mem_takeWhile_imp (hword ▸ List.mem_cons_of_mem (chr '$') hmem)
        simp at hne
      · rw [← hdrop, List.take_append_drop]
      · have hsize : subSizeT (y + 1) 1 = y := if_pos (Nat.succ_pos _)
        simp only [substr_of_le hone, substrFrom_of_le hx, hsize, Option.bind_eq_bind,
          Option.bind_some, List.drop_succ_cons, List.drop_zero]

theorem inRange_onCommand_iff (hlocale : NulApart h.locale) :
    InRange (onCommand h aLine cmd param) ↔
      (cmd = str "Search" → SearchOk h param) ∧
        (cmd = str "ConnectToMe" → ConnectToMeOk h param) := by
  rw [onCommand]
  by_cases hsearch : cmd = str "Search"
  · subst hsearch
    rw [if_pos rfl, inRange_onSearch_iff]
    exact ⟨fun hok => ⟨fun _ => hok, fun hcmd => absurd hcmd (by decide)⟩, fun hok => hok.1 rfl⟩
  · rw [if_neg hsearch]
    by_cases hconnect : cmd = str "ConnectToMe"
    · subst hconnect
      rw [if_neg (by decide), if_neg (by decide), if_pos rfl, inRange_onConnectToMe_iff]
      exact ⟨fun hok => ⟨fun hcmd => absurd hcmd hsearch, fun _ => hok⟩, fun hok => hok.2 rfl⟩
    · refine iff_of_true ?_ ⟨fun hcmd => absurd hcmd hsearch, fun hcmd => absurd hcmd hconnect⟩
      refine inRange_ite (fun _ => inRange_onMyInfo) fun _ => ?_
      refine inRange_ite (fun _ => inRange_some _) fun _ => ?_
      refine inRange_ite (fun hcmd => absurd hcmd hconnect) fun _ => ?_
      refine inRange_ite (fun _ => inRange_onRevConnectToMe) fun _ => ?_
      refine inRange_ite (fun _ => inRange_some _) fun _ => ?_
      refine inRange_ite (fun _ => inRange_splitName) fun _ => ?_
      refine inRange_ite (fun _ => inRange_some _) fun _ => ?_
      refine inRange_ite (fun _ => inRange_onUserCommand) fun _ => ?_
      refine inRange_ite (fun _ => inRange_onLock) fun _ => ?_
      refine inRange_ite (fun _ => inRange_some _) fun _ => ?_
      refine inRange_ite (fun _ => inRange_some _) fun _ => ?_
      refine inRange_ite (fun _ => inRange_some _) fun _ => ?_
      refine inRange_ite (fun _ => inRange_some _) fun _ => ?_
      refine inRange_ite
        (fun _ => inRange_ite (fun _ => inRange_some _) fun _ => inRange_onUserIp) fun _ => ?_
      refine inRange_ite (fun _ => inRange_some _) fun _ => ?_
      refine inRange_ite (fun _ => inRange_some _) fun _ => ?_
      refine inRange_ite (fun _ => inRange_onTo hlocale) fun _ => ?_
      refine inRange_ite (fun _ => inRange_some _) fun _ => ?_
      refine inRange_ite (fun _ => inRange_some _) fun _ => ?_
      refine inRange_ite (fun _ => inRange_some _) fun _ => ?_
      exact inRange_ite (fun _ => inRange_some _) fun _ => inRange_some _

/-- Searches and connection requests have the parameters they need. -/
def LineOk (h : NmdcState) (aLine : Str) : Prop :=
  (∀ rest, aLine = str "$Search" ++ chr ' ' :: rest → SearchOk h (toUtf8 h rest)) ∧
    ∀ rest, aLine = str "$ConnectToMe" ++ chr ' ' :: rest → ConnectToMeOk h (toUtf8 h rest)

theorem inRange_onLine_iff_lineOk (hlocale : NulApart h.locale) :
    InRange (onLine h aLine) ↔ LineOk h aLine := by
  rw [onLine]
  rcases aLine with _ | ⟨first, t⟩
  · refine iff_of_true (inRange_some _) ⟨fun rest hline => ?_, fun rest hline => ?_⟩
    · exact absurd hline.symm (List.append_ne_nil_of_right_ne_nil _ (List.cons_ne_nil _ _))
    · exact absurd hline.symm (List.append_ne_nil_of_right_ne_nil _ (List.cons_ne_nil _ _))
  · rw [if_neg (by simp), charAt_of_le (Nat.zero_le _)]
    simp only [List.getD_cons_zero, Option.bind_eq_bind, Option.bind_some]
    by_cases hfirst : first = chr '$'
    · subst hfirst
      rw [if_neg (not_not.mpr rfl)]
      rcases splitCommand_cases (h := h)
        (t := t) with ⟨word, rest, hword, rfl, hsplit⟩ | ⟨ht, hsplit⟩
      · rw [hsplit]
        refine (inRange_onCommand_iff hlocale).trans ⟨fun hok => ⟨?_, ?_⟩, fun hok => ⟨?_, ?_⟩⟩
        · intro rest' hline
          obtain ⟨hcmd, rfl⟩ := split_char_inj hword (by decide) (List.cons.inj hline).2
          exact hok.1 hcmd
        · intro rest' hline
          obtain ⟨hcmd, rfl⟩ := split_char_inj hword (by decide) (List.cons.inj hline).2
          exact hok.2 hcmd
        · rintro rfl
          exact hok.1 rest rfl
        · rintro rfl
          exact hok.2 rest rfl
      · -- without a parameter nothing is looked at
        rw [hsplit]
        refine iff_of_true ((inRange_onCommand_iff hlocale).mpr ⟨fun _ => ?_, fun _ => ?_⟩)
          ⟨fun rest hline => ?_, fun rest hline => ?_⟩
        · exact fun _ j hj => absurd hj.symm (Option.some_ne_none j)
        · exact fun _ i _ hi => absurd hi.symm (Option.some_ne_none i)
        · rw [(List.cons.inj hline).2] at ht
          exact absurd (List.mem_append_right _ List.mem_cons_self) ht
        · rw [(List.cons.inj hline).2] at ht
          exact absurd (List.mem_append_right _ List.mem_cons_self) ht
    · rw [if_pos hfirst]
      refine iff_of_true ?_ ⟨fun rest hline => ?_, fun rest hline => ?_⟩
      · refine InRange.bind ?_ fun _ _ => inRange_some _
        exact inRange_ite (fun _ => inRange_some _) fun _ => inRange_onChatLine hlocale _
      · exact absurd (List.cons.inj hline).1 hfirst
      · exact absurd (List.cons.inj hline).1 hfirst

/-- **A line stays in range exactly when its parameters are what it needs; tags, lines of other
    clients and search results always do.** -/
theorem nmdc_text_in_range_iff (hlocale : NulApart h.locale) :
    (InRange (onLine h aLine) ↔ LineOk h aLine) ∧
      (∀ tag, InRange (updateFromTag tag)) ∧
      (∀ locale encoding line,
        InRange (NmdcLines.onNmdcLine locale encoding (chr '$' :: line))) ∧
      ∀ connect x, InRange (NmdcResult.onSR connect x) :=
  ⟨inRange_onLine_iff_lineOk hlocale, inRange_updateFromTag,
    fun _ _ _ => NmdcLines.inRange_onNmdcLine (List.cons_ne_nil _ _), NmdcResult.inRange_onSR⟩

/-- A hub in its normal state. -/
def plainHub : NmdcState := { locale := ⟨id, fun s _ => s⟩ }

theorem nmdc_text_in_range_chat :
    InRange (onLine plainHub (str "<bot> hi")) ↔ LineOk plainHub (str "<bot> hi") :=
  (nmdc_text_in_range_iff fun _ hc => hc).1

/-- The size mode is cut off; the port is missing, or is only the `S`. -/
theorem short_search_out_of_range :
    ¬ InRange (onLine plainHub (str "$Search 1.2.3.4:412 ")) ∧
      ¬ InRange (onLine plainHub (str "$ConnectToMe me 1.2.3.4: x")) ∧
      ¬ InRange (onLine plainHub (str "$ConnectToMe me 1.2.3.4:S")) := by
  decide +kernel

end NmdcHub
end Airdcpp
