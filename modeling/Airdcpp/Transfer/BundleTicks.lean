import Airdcpp.Transfer.UploadBundle
import Airdcpp.Util.DoubleText

/-!
# `Transfer/BundleTicks` — what the users of a bundle are told every second

In multi-user mode, each tick of a bundle compares its speed and its downloaded bytes with what was
told last. A speed that differs by more than a tenth, and bytes that differ by more than one part in
200 of the size, are *due*: they are sent to all users, the speed as text with a unit and two
decimals (`formatSpeed`), the bytes as a percentage.

`getTickParams` writes the two texts through references, and `onDownloadTick` gives it the same
variable for both. So the percentage is never sent as such, and where it is due it takes the place
of the speed. Nor does the receiver read a speed of less than ten bytes. `Meets` asks that neither
happens; then the receiver knows the speed and the bytes (`ticks_arrive`).
-/

namespace Airdcpp

open Util (double IsPoint)

/-! ## The sender -/

namespace UBNBundle

/-- `formatSpeed`; `point` is the decimal point of the locale. -/
def formatSpeed (point : UInt8) (aSpeed : Int) : Str :=
  if aSpeed < 1024 then Util.toString ((aSpeed % 2 ^ 32).bmod (2 ^ 32)) ++ str "b"
  else if aSpeed < 1048576 then Util.fixed2 point (double (double aSpeed / 1024)) ++ str "k"
  else Util.fixed2 point (double (double aSpeed / 1048576)) ++ str "m"

/-- `getPercentage` of the bundle -/
def getPercentage (b : UBNProgress) : ℚ :=
  if 0 < b.size then double (double (double b.downloadedBytes * 100) / double b.size) else 0

/-- `Util::toString` of a `double`; its buffer has 16 characters. -/
def percentText (point : UInt8) (percent : ℚ) : Str := (Util.fixed2 point percent).take 15

/-- Whether the speed is told. -/
def SpeedDue (o : UBNBundle) (speed : Int) : Prop := o.lastSpeed.tdiv 10 < |speed - o.lastSpeed|

/-- Whether the percentage is. -/
def PercentDue (o : UBNBundle) (b : UBNProgress) : Prop :=
  b.size.tdiv 200 < |o.lastDownloaded - b.downloadedBytes|

instance (o : UBNBundle) (speed : Int) : Decidable (o.SpeedDue speed) :=
  inferInstanceAs (Decidable (_ < _))

instance (o : UBNBundle) (b : UBNProgress) : Decidable (o.PercentDue b) :=
  inferInstanceAs (Decidable (_ < _))

/-- `getTickParams`, on the variables `vars` of the caller. The references `percent_` and
    `speedStr_` say which of them is assigned. -/
def getTickParams {σ : Type} (point : UInt8) (o : UBNBundle) (b : UBNProgress) (speed : Int)
    (percent_ speedStr_ : Str → σ → σ) (vars : σ) : UBNBundle × σ :=
  let (o, vars) :=
    if o.SpeedDue speed then
      ({ o with lastSpeed := speed }, speedStr_ (formatSpeed point speed) vars)
    else (o, vars)
  if o.PercentDue b then
    ({ o with lastDownloaded := b.downloadedBytes },
      percent_ (percentText point (getPercentage b)) vars)
  else (o, vars)

def getTickCommand (o : UBNBundle) (aPercent aSpeed : Str) : AdcCommand :=
  UploadBundleInfo.CMD_UBN ([str "BU" ++ o.getStringToken] ++
    (if aSpeed ≠ [] then [str "DS" ++ aSpeed] else []) ++
    (if aPercent ≠ [] then [str "PE" ++ aPercent] else []))

/-- The local variables of `onDownloadTick`. -/
structure TickStrings where
  speedStr : Str := []
  percentStr : Str := []

/-- `onDownloadTick`: both references are to `speedStr`. -/
def onDownloadTick (point : UInt8) (o : UBNBundle) (b : UBNProgress) (speed : Int) :
    UBNBundle × List UBNMessage :=
  if o.singleUser ∨ o.uploadReports = [] then (o, [])
  else
    let (o, vars) := o.getTickParams point b speed
      (fun s (vars : TickStrings) => { vars with speedStr := s })
      (fun s (vars : TickStrings) => { vars with speedStr := s }) {}
    if vars.speedStr ≠ [] ∨ vars.percentStr ≠ [] then
      (o, o.uploadReports.map fun report =>
        (report.1, o.getTickCommand vars.percentStr vars.speedStr))
    else (o, [])

end UBNBundle

/-! ## The receiver -/

namespace UploadBundleInfoReceiver

/-- `parseSpeed` -/
def parseSpeed (point : UInt8) (aSpeedStr : Str) : ℚ :=
  if aSpeedStr.length ≤ 2 then 0
  else
    let downloaded := (Util.toDouble point aSpeedStr.dropLast).getD 0
    if 0 < downloaded then
      if aSpeedStr.getLast? = some (chr 'k') then double (downloaded * 1024)
      else if aSpeedStr.getLast? = some (chr 'm') then double (downloaded * 1048576)
      else if aSpeedStr.getLast? = some (chr 'b') then downloaded
      else 0
    else 0

/-- The floating point numbers of a receiver, by the decimal point of its locale. -/
def doubles (point : UInt8) : FloatingPoint where
  toFloat := Util.toFloat point
  parseSpeed aSpeedStr :=
    if 0 < parseSpeed point aSpeedStr then some ⌊parseSpeed point aSpeedStr⌋ else none
  round := double
  mono := Lib.nearest_mono (by norm_num)
  exact_of m e hm _ := by
    rcases hm.lt_or_eq with hlt | rfl
    · exact Lib.nearest_eq_self (m := m) (e := e) hlt (by rw [zpow_natCast])
    · have hpow : ((2 ^ 53 : ℕ) : ℚ) * 2 ^ e = 2 ^ ((53 + e : ℕ) : ℤ) := by
        rw [zpow_natCast, pow_add]
        push_cast
        rfl
      rw [hpow]
      exact Lib.nearest_two_pow_mul

end UploadBundleInfoReceiver

/-! ## How a speed is rounded -/

namespace BundleTicks

open UBNBundle UploadBundleInfoReceiver
open UploadBundleInfo (lastParam)

/-- The unit of a speed with two decimals. -/
def unit (speed : Int) : ℚ := if speed < 1048576 then 1024 else 1048576

/-- How far the number that is read may be from the speed: half of the second decimal, what the
    operations on `double`s may add, and the fraction that is cut off. -/
def rounding (speed : Int) : ℚ :=
  if speed < 1024 then 0 else unit speed / 200 + speed / 2 ^ 50 + 1

theorem double_sub_le {x : ℚ} (hx : 0 ≤ x) : |double x - x| ≤ x / 2 ^ 53 := by
  have h := Lib.abs_nearest_sub_le 53 x
  rw [abs_of_nonneg hx, zpow_neg, ← div_eq_mul_inv] at h
  exact_mod_cast h

theorem double_natCast {n : Nat} (hn : n < 2 ^ 53) : double n = n :=
  Lib.nearest_eq_self (m := n) (e := 0) hn (by simp)

/-- A speed in a unit, with two decimals. -/
theorem abs_scaled_sub_le {s u : ℚ} (hu : 0 < u) (hs : u ≤ s) :
    0 < double (Util.fixed2Value (double (double s / u))) ∧
      |double (double (Util.fixed2Value (double (double s / u))) * u) - s| ≤
        u / 200 + s / 2 ^ 50 := by
  obtain ⟨y, hy⟩ : ∃ y, double s = y := ⟨_, rfl⟩
  obtain ⟨x, hx⟩ : ∃ x, double (y / u) = x := ⟨_, rfl⟩
  obtain ⟨v, hv⟩ : ∃ v, Util.fixed2Value x = v := ⟨_, rfl⟩
  obtain ⟨w, hw⟩ : ∃ w, double v = w := ⟨_, rfl⟩
  have hspos : 0 < s := hu.trans_le hs
  have hys := double_sub_le hspos.le
  rw [hy, abs_le] at hys
  have hypos : 0 ≤ y / u := div_nonneg (by linarith [hys.1]) hu.le
  have hxy := double_sub_le hypos
  rw [hx] at hxy
  -- times the unit
  have hxu : |x * u - y| ≤ y / 2 ^ 53 := by
    have heq : x * u - y = (x - y / u) * u := by
      rw [sub_mul, div_mul_cancel₀ y hu.ne']
    calc |x * u - y| = |x - y / u| * u := by rw [heq, abs_mul, abs_of_pos hu]
      _ ≤ y / u / 2 ^ 53 * u := mul_le_mul_of_nonneg_right hxy hu.le
      _ = y / 2 ^ 53 := by
        rw [div_right_comm, div_mul_cancel₀ _ hu.ne']
  rw [abs_le] at hxu
  have hxpos : 0 ≤ x := by
    by_contra hneg
    have := mul_neg_of_neg_of_pos (not_le.mp hneg) hu
    linarith [hxu.1, hys.1]
  have hvx := Util.abs_fixed2Value_sub_le hxpos
  rw [hv] at hvx
  have hvu : |v * u - x * u| ≤ u / 200 := by
    rw [← sub_mul, abs_mul, abs_of_pos hu]
    linarith [mul_le_mul_of_nonneg_right hvx hu.le]
  rw [abs_le] at hvu
  have hvpos : 0 < v := by
    by_contra hneg
    have := mul_nonpos_of_nonpos_of_nonneg (not_lt.mp hneg) hu.le
    linarith [hvu.1, hxu.1, hys.1]
  have hwv := double_sub_le hvpos.le
  rw [hw] at hwv
  have hwpos : 0 < w := by
    rw [abs_le] at hwv
    linarith [hwv.1]
  have hwu : |w * u - v * u| ≤ v * u / 2 ^ 53 := by
    rw [← sub_mul, abs_mul, abs_of_pos hu]
    calc |w - v| * u ≤ v / 2 ^ 53 * u := mul_le_mul_of_nonneg_right hwv hu.le
      _ = v * u / 2 ^ 53 := by ring
  have hr := double_sub_le (mul_nonneg hwpos.le hu.le)
  rw [abs_le] at hwu hr
  rw [hy, hx, hv, hw]
  refine ⟨hwpos, ?_⟩
  rw [abs_le]
  constructor <;> linarith [hys.1, hys.2, hxu.1, hxu.2, hvu.1, hvu.2, hwu.1, hwu.2, hr.1, hr.2]

theorem getLast?_append_singleton (t : Str) (c : UInt8) : (t ++ [c]).getLast? = some c := by
  simp

theorem length_fixed2 (point : UInt8) (x : ℚ) : 3 ≤ (Util.fixed2 point x).length := by
  simp only [Util.fixed2, List.length_append, List.length_cons, List.length_nil]
  omega

/-- A text with two decimals is read with its unit. -/
theorem parseSpeed_fixed2 {point point' : UInt8} (hp : IsPoint point) (hp' : IsPoint point')
    {x u : ℚ} {c : UInt8} (hx : 0 ≤ x) (hpos : 0 < double (Util.fixed2Value x))
    (hc : c = chr 'k' ∧ u = 1024 ∨ c = chr 'm' ∧ u = 1048576) :
    parseSpeed point' (Util.fixed2 point x ++ [c]) = double (double (Util.fixed2Value x) * u) := by
  have hlen := length_fixed2 point x
  have hlong : ¬ (Util.fixed2 point x ++ [c]).length ≤ 2 := by
    rw [List.length_append, List.length_singleton]
    omega
  have hread := Util.toDouble_fixed2 hp hp' hx
  rw [parseSpeed, if_neg hlong, List.dropLast_concat, hread, Option.getD_some, if_pos hpos,
    getLast?_append_singleton]
  rcases hc with ⟨rfl, rfl⟩ | ⟨rfl, rfl⟩
  · rw [if_pos rfl]
  · rw [if_neg (by decide), if_pos rfl]

theorem two_le_length_natText : ∀ n < 1024, 10 ≤ n → 2 ≤ (Util.natText n).length := by
  decide +kernel

theorem parseSpeed_bytes (point' : UInt8) {n : Nat} (hlo : 10 ≤ n) (hhi : n < 1024) :
    parseSpeed point' (Util.natText n ++ str "b") = n := by
  have hlen := two_le_length_natText n hhi hlo
  have hlong : ¬ (Util.natText n ++ str "b").length ≤ 2 := by
    rw [List.length_append]
    show ¬ (Util.natText n).length + 1 ≤ 2
    omega
  have hdrop : (Util.natText n ++ str "b").dropLast = Util.natText n :=
    List.dropLast_concat
  have hlast : (Util.natText n ++ str "b").getLast? = some (chr 'b') :=
    getLast?_append_singleton _ _
  have hpos : (0 : ℚ) < n := by
    have : 0 < n := by omega
    exact_mod_cast this
  rw [parseSpeed, if_neg hlong, hdrop, Util.toDouble_natText, Option.getD_some,
    double_natCast (hhi.trans (by norm_num)), if_pos hpos, hlast, if_neg (by decide),
    if_neg (by decide), if_pos rfl]

/-- **A speed of at least ten bytes is read up to its two decimals.** -/
theorem parseSpeed_formatSpeed {point point' : UInt8} (hp : IsPoint point) (hp' : IsPoint point')
    {speed : Int} (hspeed : 10 ≤ speed) :
    0 < parseSpeed point' (formatSpeed point speed) ∧
      |parseSpeed point' (formatSpeed point speed) - speed| ≤ rounding speed ∧
      |(⌊parseSpeed point' (formatSpeed point speed)⌋ : ℚ) - speed| ≤ rounding speed := by
  by_cases hbytes : speed < 1024
  · obtain ⟨n, rfl⟩ := Int.eq_ofNat_of_zero_le (show 0 ≤ speed by omega)
    have hint : ((n : Int) % 2 ^ 32).bmod (2 ^ 32) = (n : Int) := by
      rw [Int.emod_eq_of_lt (by omega) (by omega)]
      exact Int.bmod_eq_of_le (by omega) (by omega)
    have htext : formatSpeed point n = Util.natText n ++ str "b" := by
      rw [formatSpeed, if_pos hbytes, hint]
      rfl
    have hparse : parseSpeed point' (formatSpeed point n) = (n : ℚ) := by
      rw [htext]
      exact parseSpeed_bytes point' (by omega) (by omega)
    have hpos : (0 : ℚ) < n := by
      have : 0 < n := by omega
      exact_mod_cast this
    rw [hparse, rounding, if_pos hbytes]
    exact ⟨hpos, by simp, by simp⟩
  · have hscaled {u : ℚ} {c : UInt8} (hu : 0 < u) (hle : u ≤ speed) (hunit : unit speed = u)
        (hc : c = chr 'k' ∧ u = 1024 ∨ c = chr 'm' ∧ u = 1048576)
        (htext : formatSpeed point speed =
          Util.fixed2 point (double (double speed / u)) ++ [c]) :
        0 < parseSpeed point' (formatSpeed point speed) ∧
          |parseSpeed point' (formatSpeed point speed) - speed| ≤ rounding speed ∧
          |(⌊parseSpeed point' (formatSpeed point speed)⌋ : ℚ) - speed| ≤ rounding speed := by
      obtain ⟨hpos, hclose⟩ := abs_scaled_sub_le hu hle
      have hx : 0 ≤ double (double (speed : ℚ) / u) :=
        Lib.nearest_nonneg (div_nonneg (Lib.nearest_nonneg (hu.le.trans hle)) hu.le)
      have hparse := parseSpeed_fixed2 hp hp' hx hpos hc
      rw [htext, hparse, rounding, if_neg hbytes, hunit]
      have hfloor :=
        Int.floor_le (double (double (Util.fixed2Value (double (double speed / u))) * u))
      have hceil := Int.lt_floor_add_one
        (double (double (Util.fixed2Value (double (double speed / u))) * u))
      rw [abs_le] at hclose
      refine ⟨?_, ?_, ?_⟩
      · linarith [hclose.1]
      · rw [abs_le]
        constructor <;> linarith [hclose.1, hclose.2]
      · rw [abs_le]
        constructor <;> linarith [hclose.1, hclose.2]
    by_cases hk : speed < 1048576
    · refine @hscaled 1024 (chr 'k') (by norm_num) ?_ (if_pos hk) (.inl ⟨rfl, rfl⟩) ?_
      · exact_mod_cast not_lt.mp hbytes
      · rw [formatSpeed, if_neg hbytes, if_pos hk]
        rfl
    · refine @hscaled 1048576 (chr 'm') (by norm_num) ?_ (if_neg hk) (.inr ⟨rfl, rfl⟩) ?_
      · exact_mod_cast not_lt.mp hk
      · rw [formatSpeed, if_neg hbytes, if_neg hk]
        rfl

/-! ## Runs -/

/-- A sender, one of its users, and what the bundle of the sender has come to. -/
structure Link where
  sender : UBNBundle
  receiver : UploadBundles
  progress : UBNProgress
  speed : Int

/-- What the bundle has come to at a tick. -/
structure Tick where
  progress : UBNProgress
  speed : Int

section Runs

variable (point point' : UInt8) (user : UserPtr)

/-- The commands that the user gets. -/
def sent (s : Link) (t : Tick) : List AdcCommand :=
  ((s.sender.onDownloadTick point t.progress t.speed).2.filter (·.1 = user)).map Prod.snd

def next (s : Link) (t : Tick) : Link where
  sender := (s.sender.onDownloadTick point t.progress t.speed).1
  receiver := (sent point user s t).foldl
    (fun bundles cmd => onUBN (doubles point') bundles cmd.parameters) s.receiver
  progress := t.progress
  speed := t.speed

/-- The size stays the same. -/
def allowed (s : Link) (t : Tick) : Prop :=
  t.progress.size = s.progress.size ∧ 0 ≤ t.progress.downloadedBytes ∧
    t.progress.downloadedBytes ≤ t.progress.size

def system : Lib.System Link Tick := ⟨next point point' user, allowed⟩

/-- The user has been added, and has been told the size and the bytes. -/
structure Start (s : Link) : Prop where
  multiUser : s.sender.singleUser = false
  nodup : (s.sender.uploadReports.map Prod.fst).Nodup
  mem : user ∈ s.sender.uploadReports.map Prod.fst
  lastSpeed_eq : s.sender.lastSpeed = 0
  lastDownloaded_eq : s.sender.lastDownloaded = 0
  speed_eq : s.speed = 0
  downloaded_nonneg : 0 ≤ s.progress.downloadedBytes
  downloaded_le : s.progress.downloadedBytes ≤ s.progress.size
  told : s.receiver s.sender.getStringToken =
    some (.new s.progress.size false s.progress.downloadedBytes)

/-- What a command carries is the speed and the percentage of the tick. -/
def Meant (t : Tick) (cmd : AdcCommand) : Prop :=
  (∀ text ∈ lastParam (str "DS") cmd.parameters,
    |parseSpeed point' text - t.speed| ≤ rounding t.speed) ∧
  ∀ text ∈ lastParam (str "PE") cmd.parameters, text = percentText point (getPercentage t.progress)

/-- The receiver has been told a speed that is not more than a tenth from the one of the sender, and
    knows the bytes up to one part in 200 of the size. -/
def InSync (s : Link) : Prop :=
  ∃ b ∈ s.receiver s.sender.getStringToken,
    (∃ told : Int, |(b.totalSpeed : ℚ) - told| ≤ rounding told ∧ 10 * |told - s.speed| ≤ s.speed) ∧
      200 * |b.uploadedSegments - s.progress.downloadedBytes| ≤ s.progress.size

/-- When a tick says what it should: the percentage is not due, a speed that is due is not less than
    ten bytes, and one that is not has not fallen by more than a tenth of itself. -/
def Meets (s : Link) (t : Tick) : Prop :=
  ¬ s.sender.PercentDue t.progress ∧
    if s.sender.SpeedDue t.speed then 10 ≤ t.speed
    else 10 * (s.sender.lastSpeed - t.speed) ≤ t.speed

end Runs

/-! ### One tick -/

section Steps

variable {point point' : UInt8} {user : UserPtr} {o : UBNBundle} {b : UBNProgress} {speed : Int}

/-- The command for a speed. -/
def speedCommand (o : UBNBundle) (text : Str) : AdcCommand :=
  UploadBundleInfo.CMD_UBN [str "BU" ++ o.getStringToken, str "DS" ++ text]

theorem formatSpeed_ne_nil (point : UInt8) (speed : Int) : formatSpeed point speed ≠ [] := by
  unfold formatSpeed
  split_ifs
  · exact List.append_ne_nil_of_right_ne_nil _ (List.cons_ne_nil _ _)
  · exact List.append_ne_nil_of_right_ne_nil _ (List.cons_ne_nil _ _)
  · exact List.append_ne_nil_of_right_ne_nil _ (List.cons_ne_nil _ _)

/-- What is sent while no percentage is due. -/
theorem onDownloadTick_eq (hmulti : o.singleUser = false) (hne : o.uploadReports ≠ [])
    (hpercent : ¬ o.PercentDue b) :
    o.onDownloadTick point b speed =
      if o.SpeedDue speed then
        ({ o with lastSpeed := speed }, o.uploadReports.map fun report =>
          (report.1, speedCommand o (formatSpeed point speed)))
      else (o, []) := by
  have hrun : ¬ (o.singleUser = true ∨ o.uploadReports = []) := by simp [hmulti, hne]
  rw [onDownloadTick, if_neg hrun, getTickParams]
  by_cases hdue : o.SpeedDue speed
  · have hpercent' : ¬ ({ o with lastSpeed := speed } : UBNBundle).PercentDue b := hpercent
    simp only [if_pos hdue, if_neg hpercent']
    rw [if_pos (.inl (formatSpeed_ne_nil point speed))]
    simp only [getTickCommand, ne_eq, formatSpeed_ne_nil, not_false_eq_true, if_true,
      not_true_eq_false, if_false, List.append_nil]
    rfl
  · simp only [if_neg hdue, if_neg hpercent]
    rw [if_neg (by simp)]

/-- Of what is sent to all users, each gets one. -/
theorem filter_reports {α : Type} {reports : List (UserPtr × α)} {cmd : AdcCommand}
    (hnodup : (reports.map Prod.fst).Nodup) (hmem : user ∈ reports.map Prod.fst) :
    ((reports.map fun report => (report.1, cmd)).filter (·.1 = user)).map Prod.snd = [cmd] := by
  have hkeys : (reports.map Prod.fst).filter (· = user) = [user] := by
    rw [List.filter_eq, List.count_eq_one_of_mem hnodup hmem]
    rfl
  calc ((reports.map fun report => (report.1, cmd)).filter (·.1 = user)).map Prod.snd
      = ((reports.map Prod.fst).filter (· = user)).map fun _ => cmd := by
        rw [List.filter_map, List.map_map, List.filter_map, List.map_map]
        rfl
    _ = [cmd] := by rw [hkeys]; rfl

theorem sent_eq {s : Link} {t : Tick} (hmulti : s.sender.singleUser = false)
    (hnodup : (s.sender.uploadReports.map Prod.fst).Nodup)
    (hmem : user ∈ s.sender.uploadReports.map Prod.fst)
    (hpercent : ¬ s.sender.PercentDue t.progress) :
    sent point user s t =
      if s.sender.SpeedDue t.speed then [speedCommand s.sender (formatSpeed point t.speed)]
      else [] := by
  have hne : s.sender.uploadReports ≠ [] := by
    rintro hnil
    rw [hnil] at hmem
    cases hmem
  rw [sent, onDownloadTick_eq hmulti hne hpercent]
  split_ifs
  · exact filter_reports hnodup hmem
  · rfl

theorem lastParam_speedCommand (o : UBNBundle) (text : Str) :
    lastParam (str "BU") (speedCommand o text).parameters = some o.getStringToken ∧
      lastParam (str "DS") (speedCommand o text).parameters = some text ∧
      lastParam (str "PE") (speedCommand o text).parameters = none := by
  refine ⟨?_, ?_, ?_⟩ <;> rfl

/-- What the receiver does with a speed that it can read. -/
theorem onUBN_speedCommand {bundles : UploadBundles} {r : UploadBundle} {text : Str}
    (hr : bundles o.getStringToken = some r) (hmulti : r.singleUser = false) (htext : text ≠ [])
    (hpos : 0 < parseSpeed point' text) :
    onUBN (doubles point') bundles (speedCommand o text).parameters =
      Function.update bundles o.getStringToken
        (some { r with totalSpeed := ⌊parseSpeed point' text⌋ }) := by
  obtain ⟨hbu, hds, hpe⟩ := lastParam_speedCommand o text
  have htoken : o.getStringToken ≠ [] := Util.natText_ne_nil _
  have hspeed : (doubles point').parseSpeed text = some ⌊parseSpeed point' text⌋ := if_pos hpos
  have hguard : ¬ (((percentParam (doubles point') (speedCommand o text).parameters).any (· < 0) ∧
      text = []) ∨ o.getStringToken = []) := by
    rintro (⟨-, h⟩ | h)
    · exact htext h
    · exact htoken h
  simp only [onUBN, hbu, hds, Option.getD_some]
  rw [if_neg hguard]
  simp only [UploadBundleInfoReceiver.modify, hr, notifyBundle, hmulti, Bool.false_eq_true,
    if_false, hds, Option.getD_some, hspeed, percentParam, hpe]
  norm_num

end Steps

/-! ### The invariant -/

/-- What the ticks keep while they meet the condition. -/
structure Inv (user : UserPtr) (s : Link) : Prop where
  multiUser : s.sender.singleUser = false
  nodup : (s.sender.uploadReports.map Prod.fst).Nodup
  mem : user ∈ s.sender.uploadReports.map Prod.fst
  lastDownloaded_eq : s.sender.lastDownloaded = 0
  size_nonneg : 0 ≤ s.progress.size
  downloaded_nonneg : 0 ≤ s.progress.downloadedBytes
  downloaded_le : s.progress.downloadedBytes ≤ s.progress.size.tdiv 200
  lastSpeed_nonneg : 0 ≤ s.sender.lastSpeed
  speed_close : 10 * |s.sender.lastSpeed - s.speed| ≤ s.speed
  told : ∃ r, s.receiver s.sender.getStringToken = some r ∧ r.singleUser = false ∧
    |(r.totalSpeed : ℚ) - s.sender.lastSpeed| ≤ rounding s.sender.lastSpeed ∧
    0 ≤ r.uploadedSegments ∧ r.uploadedSegments ≤ s.progress.size.tdiv 200

section Invariant

variable {point point' : UInt8} {user : UserPtr} {s : Link}

theorem Inv.inSync (h : Inv user s) : InSync s := by
  obtain ⟨r, hr, -, hspeed, hnonneg, hle⟩ := h.told
  refine ⟨r, hr, ⟨s.sender.lastSpeed, hspeed, h.speed_close⟩, ?_⟩
  have hd := h.downloaded_nonneg
  have hd' := h.downloaded_le
  have habs : |r.uploadedSegments - s.progress.downloadedBytes| ≤ s.progress.size.tdiv 200 := by
    rw [abs_le]
    omega
  rw [Int.tdiv_eq_ediv_of_nonneg h.size_nonneg] at habs
  omega

theorem Inv.of_start (h : Start user s) (hpercent : ¬ s.sender.PercentDue s.progress) :
    Inv user s := by
  have hd := h.downloaded_nonneg
  have hle : s.progress.downloadedBytes ≤ s.progress.size.tdiv 200 := by
    have := not_lt.mp hpercent
    rw [h.lastDownloaded_eq, zero_sub, abs_neg, abs_of_nonneg hd] at this
    exact this
  refine ⟨h.multiUser, h.nodup, h.mem, h.lastDownloaded_eq, hd.trans h.downloaded_le, hd, hle,
    h.lastSpeed_eq.ge, ?_, ?_⟩
  · simp [h.lastSpeed_eq, h.speed_eq]
  · refine ⟨_, h.told, rfl, ?_, ?_, ?_⟩
    · simp [h.lastSpeed_eq, UploadBundle.new, rounding]
    · simp only [UploadBundle.new, if_neg (not_lt.mpr h.downloaded_le)]
      exact hd
    · simp only [UploadBundle.new, if_neg (not_lt.mpr h.downloaded_le)]
      exact hle

theorem Inv.tick (hp : IsPoint point) (hp' : IsPoint point') (h : Inv user s) {t : Tick}
    (hallowed : allowed s t) (hmeets : Meets s t) : Inv user (next point point' user s t) := by
  obtain ⟨hsize, hnonneg, hle⟩ := hallowed
  obtain ⟨hpercent, hspeed⟩ := hmeets
  obtain ⟨r, hr, hmulti, hclose, hsegments, hsegments'⟩ := h.told
  have hne : s.sender.uploadReports ≠ [] := by
    intro hnil
    have hmem := h.mem
    rw [hnil] at hmem
    cases hmem
  have hbytes : t.progress.downloadedBytes ≤ t.progress.size.tdiv 200 := by
    have := not_lt.mp hpercent
    rwa [h.lastDownloaded_eq, zero_sub, abs_neg, abs_of_nonneg hnonneg] at this
  have hsender := @onDownloadTick_eq point s.sender t.progress t.speed h.multiUser hne hpercent
  have hsent := @sent_eq point user s t h.multiUser h.nodup h.mem hpercent
  by_cases hdue : s.sender.SpeedDue t.speed
  · rw [if_pos hdue] at hspeed hsender hsent
    obtain ⟨hpos, -, hread⟩ := parseSpeed_formatSpeed hp hp' hspeed
    have hreceiver := onUBN_speedCommand hr hmulti (formatSpeed_ne_nil point t.speed) hpos
    simp only [next, hsender, hsent, List.foldl_cons, List.foldl_nil, hreceiver]
    refine ⟨h.multiUser, h.nodup, h.mem, h.lastDownloaded_eq, hnonneg.trans hle, hnonneg, hbytes,
      ?_, ?_, ?_⟩
    · show 0 ≤ t.speed
      omega
    · show 10 * |t.speed - t.speed| ≤ t.speed
      rw [sub_self, abs_zero]
      omega
    · refine ⟨_, Function.update_self _ _ _, hmulti, hread, hsegments, ?_⟩
      show r.uploadedSegments ≤ t.progress.size.tdiv 200
      rw [hsize]
      exact hsegments'
  · rw [if_neg hdue] at hspeed hsender hsent
    simp only [next, hsender, hsent, List.foldl_nil]
    refine ⟨h.multiUser, h.nodup, h.mem, h.lastDownloaded_eq, hnonneg.trans hle, hnonneg, hbytes,
      h.lastSpeed_nonneg, ?_, ⟨r, hr, hmulti, hclose, hsegments, ?_⟩⟩
    · show 10 * |s.sender.lastSpeed - t.speed| ≤ t.speed
      have hnear := not_lt.mp hdue
      rw [Int.tdiv_eq_ediv_of_nonneg h.lastSpeed_nonneg, abs_sub_comm] at hnear
      rcases abs_cases (s.sender.lastSpeed - t.speed) with ⟨habs, -⟩ | ⟨habs, hneg⟩
      · rw [habs]
        exact hspeed
      · have := h.lastSpeed_nonneg
        omega
    · show r.uploadedSegments ≤ t.progress.size.tdiv 200
      rw [hsize]
      exact hsegments'

/-- What is sent is meant. -/
theorem Inv.meant (hp : IsPoint point) (hp' : IsPoint point') (h : Inv user s) {t : Tick}
    (hmeets : Meets s t) {cmd : AdcCommand} (hcmd : cmd ∈ sent point user s t) :
    Meant point point' t cmd := by
  obtain ⟨hpercent, hspeed⟩ := hmeets
  rw [sent_eq h.multiUser h.nodup h.mem hpercent] at hcmd
  by_cases hdue : s.sender.SpeedDue t.speed
  · rw [if_pos hdue] at hcmd hspeed
    obtain rfl := List.mem_singleton.mp hcmd
    obtain ⟨-, hds, hpe⟩ := lastParam_speedCommand s.sender (formatSpeed point t.speed)
    refine ⟨fun text htext => ?_, fun text htext => ?_⟩
    · rw [hds] at htext
      obtain rfl := Option.some.inj htext
      exact (parseSpeed_formatSpeed hp hp' hspeed).2.1
    · rw [hpe] at htext
      cases htext
  · rw [if_neg hdue] at hcmd
    cases hcmd

/-- **The ticks arrive as they are meant** in every run in which no percentage is due and every
    speed that is due has two digits at least. -/
theorem ticks_arrive (hp : IsPoint point) (hp' : IsPoint point')
    (h : Lib.Reaches ((system point point' user).restrict Meets)
      (fun s => Start user s ∧ ¬ s.sender.PercentDue s.progress) s) :
    InSync s ∧ ∀ t, ((system point point' user).restrict Meets).allowed s t →
      ∀ cmd ∈ sent point user s t, Meant point point' t cmd := by
  have hinv : Inv user s := by
    refine Lib.Reaches.invariant (I := Inv user) ?_ ?_ h
    · rintro s ⟨hstart, hpercent⟩
      exact Inv.of_start hstart hpercent
    · intro s t hs ht
      exact hs.tick hp hp' ht.1 ht.2
  exact ⟨hinv.inSync, fun t ht cmd hcmd => hinv.meant hp hp' ht.2 hcmd⟩

/-- A bundle of 1000 bytes with two users, of which nothing is there yet. -/
def newLink : Link where
  sender := { bundle := 7, singleUser := false, uploadReports :=
    [(Vector.replicate 24 1, [str "c"]), (Vector.replicate 24 2, [str "d"])] }
  receiver := Function.update (fun _ => none) (str "7") (some (.new 1000 false 0))
  progress := { size := 1000 }
  speed := 0

theorem newLink_start : Start (Vector.replicate 24 1) newLink := by
  refine ⟨rfl, by decide, by decide, rfl, rfl, rfl, by decide, by decide, ?_⟩
  have htoken : newLink.sender.getStringToken = str "7" := by decide
  rw [htoken]
  simp [newLink]

/-- Two ticks: the speed of the second is not told. -/
theorem ticks_arrive_twice :
    InSync ((system (chr '.') (chr ',') (Vector.replicate 24 1)).run newLink
      [⟨{ size := 1000, downloadedBytes := 3 }, 3000000⟩,
        ⟨{ size := 1000, downloadedBytes := 5 }, 2900000⟩]) := by
  refine (@ticks_arrive (chr '.') (chr ',') (Vector.replicate 24 1) _ (.inl rfl) (.inr rfl) ?_).1
  refine Lib.Reaches.run (S := (system (chr '.') (chr ',') (Vector.replicate 24 1)).restrict Meets)
    (Lib.Reaches.start ⟨newLink_start, by decide⟩) ⟨⟨?_, ?_⟩, ⟨?_, ?_⟩, trivial⟩
  · exact ⟨rfl, by decide, by decide⟩
  · exact ⟨by decide, by decide⟩
  · exact ⟨rfl, by decide, by decide⟩
  · refine ⟨?_, ?_⟩
    · decide +kernel
    · decide +kernel

/-- Half of the bundle has been downloaded with two megabytes in a second: the command carries
    `50.00` as the speed. -/
theorem ticks_lost :
    ¬ ∀ s t, Lib.Reaches (system (chr '.') (chr '.') (Vector.replicate 24 1))
      (Start (Vector.replicate 24 1)) s → allowed s t →
      InSync (next (chr '.') (chr '.') (Vector.replicate 24 1) s t) ∧
        ∀ cmd ∈ sent (chr '.') (Vector.replicate 24 1) s t, Meant (chr '.') (chr '.') t cmd := by
  intro hall
  obtain ⟨-, hmeant⟩ := hall newLink ⟨{ size := 1000, downloadedBytes := 500 }, 2097152⟩
    (Lib.Reaches.start newLink_start) ⟨rfl, by decide, by decide⟩
  have hsent : (sent (chr '.') (Vector.replicate 24 1) newLink
    ⟨{ size := 1000, downloadedBytes := 500 }, 2097152⟩).map
      AdcCommand.parameters = [[str "BU7", str "DS50.00"]] := by
    decide +kernel
  obtain ⟨cmd, hcmd, hparams⟩ := List.map_eq_singleton_iff.mp hsent
  have hds := (hmeant cmd (by rw [hcmd]; exact List.mem_singleton_self _)).1 (str "50.00") (by
    rw [hparams]
    rfl)
  revert hds
  decide +kernel

end Invariant

end BundleTicks
end Airdcpp
