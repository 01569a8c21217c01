import Mathlib

/-!
# `Search/AutoSearch` — when an auto search item may search

An item may search on some of the weekdays, and there in a window of the day. Every minute
`updateSearchTime` counts when this changes the next time: when the item starts to search, or if it
may search now, when it has to stop.

Times are seconds of the local time, counted from the beginning of a Sunday; days are counted from
there as well, and so are minutes (`minuteOf`). The conversion to a `time_t` is left out, and so is
the status of the item.

`IsSwitch` says in minutes what the next change is. It is counted correctly while the item has to
wait, and while it may search if there is no other window tomorrow that does not join this one
(`updateSearchTime_spec`).
-/

namespace Airdcpp

structure SearchTime where
  hour : Nat
  minute : Nat
deriving DecidableEq, Repr

namespace SearchTime

/-- A time of the clock. -/
structure Valid (time : SearchTime) : Prop where
  hour_lt : time.hour < 24
  minute_lt : time.minute < 60

def toMinutes (time : SearchTime) : Nat := time.hour * 60 + time.minute

end SearchTime

structure AutoSearch where
  startTime : SearchTime := ⟨0, 0⟩
  endTime : SearchTime := ⟨23, 59⟩
  /-- `bitset<7>` -/
  searchDays : BitVec 7 := BitVec.allOnes 7
  nextSearchChange : Nat := 0
  nextIsDisable : Bool := false
deriving DecidableEq

/-! ## `ptime` -/

/-- `date()` -/
def date (t : Nat) : Nat := t / 86400

/-- `day_of_week()` -/
def dayOfWeek (day : Nat) : Nat := day % 7

/-- `time_of_day().hours()` -/
def hours (t : Nat) : Nat := t % 86400 / 3600

/-- `time_of_day().minutes()` -/
def minutes (t : Nat) : Nat := t % 3600 / 60

/-- `ptime(…)` of a date -/
def midnight (day : Nat) : Nat := day * 86400

namespace AutoSearch

/-- The loop of `addTime`: how many days are gone on, at most `n`. -/
def daysUntil (a : AutoSearch) (toEnabled : Bool) : (n p : Nat) → Nat
  | 0, _ => 0
  | n + 1, p =>
    let p := if p = 7 then 0 else p
    if a.searchDays.getLsbD p = toEnabled then 0 else daysUntil a toEnabled n (p + 1) + 1

/-- The second part of `addTime`: go on to a time of the day. -/
def addClock (timeStruct : SearchTime) (nextSearch : Nat) : Nat :=
  if hours nextSearch < timeStruct.hour then
    nextSearch + ((timeStruct.hour * 60 + timeStruct.minute) -
      (hours nextSearch * 60 + minutes nextSearch)) * 60
  else if timeStruct.hour = hours nextSearch ∧ minutes nextSearch < timeStruct.minute then
    nextSearch + (timeStruct.minute - minutes nextSearch) * 60
  else nextSearch

/-- `addTime` of `updateSearchTime` -/
def addTime (a : AutoSearch) (toEnabled : Bool) (nextSearch : Nat) : Nat :=
  let day := date nextSearch
  let nextSearch :=
    if a.searchDays.getLsbD (dayOfWeek day) ≠ toEnabled then
      midnight (day + a.daysUntil toEnabled 6 (if toEnabled then dayOfWeek day else dayOfWeek day +
        1))
    else nextSearch
  addClock (if toEnabled then a.startTime else a.endTime) nextSearch

/-- The setting without limits. -/
def alwaysSearching (a : AutoSearch) : Bool :=
  a.searchDays == BitVec.allOnes 7 && a.startTime == ⟨0, 0⟩ && a.endTime == ⟨23, 59⟩

/-- Where the search for the next time starts: tomorrow if the end time of this day has been
    passed. -/
def firstTime (a : AutoSearch) (now : Nat) : Nat :=
  if a.endTime.hour < hours now ∨ (a.endTime.hour = hours now ∧ a.endTime.minute < minutes now) then
    midnight (date now + 1)
  else now

/-- `updateSearchTime`, and whether there are limits. -/
def updateSearchTime (a : AutoSearch) (now : Nat) : Bool × AutoSearch :=
  if a.alwaysSearching then (false, { a with nextSearchChange := 0 })
  else
    let nextSearch := a.addTime true (a.firstTime now)
    (true,
      if nextSearch = now then
        { a with nextSearchChange := a.addTime false nextSearch, nextIsDisable := true }
      else { a with nextSearchChange := nextSearch, nextIsDisable := false })

/-- `nextAllowedSearch`. `failedMissing` is a status of the item. -/
def nextAllowedSearch (a : AutoSearch) (failedMissing : Bool) : Nat :=
  if a.nextSearchChange = 0 ∨ a.nextIsDisable ∨ failedMissing then 0 else a.nextSearchChange

/-! ## What the next change is -/

/-- The minutes of a time -/
def minuteOf (t : Nat) : Nat := t / 60

/-- The item may search on the day. -/
def Enabled (a : AutoSearch) (day : Nat) : Prop := a.searchDays.getLsbD (day % 7) = true

instance (a : AutoSearch) (day : Nat) : Decidable (a.Enabled day) :=
  inferInstanceAs (Decidable (_ = _))

/-- The minutes in which the item may search. -/
def Allowed (a : AutoSearch) (m : Nat) : Prop :=
  a.Enabled (m / 1440) ∧ a.startTime.toMinutes ≤ m % 1440 ∧ m % 1440 ≤ a.endTime.toMinutes

instance (a : AutoSearch) (m : Nat) : Decidable (a.Allowed m) :=
  inferInstanceAs (Decidable (_ ∧ _))

/-- The last minute of the allowed ones that follow each other from `m` on. -/
structure IsLastOf (a : AutoSearch) (m last : Nat) : Prop where
  le : m ≤ last
  allowed : ∀ k, m ≤ k → k ≤ last → a.Allowed k
  next : ¬ a.Allowed (last + 1)

/-- The change that follows the minute `m`: the end of the time in which the item may search, or the
    first minute of it. -/
def IsSwitch (a : AutoSearch) (m : Nat) (toDisabled : Bool) (change : Nat) : Prop :=
  if a.Allowed m then toDisabled = true ∧ a.IsLastOf m change
  else toDisabled = false ∧ IsLeast {k | m ≤ k ∧ a.Allowed k} change

/-- What the settings make sure of: a daily window, and a weekday. -/
structure Window (a : AutoSearch) : Prop where
  start_valid : a.startTime.Valid
  end_valid : a.endTime.Valid
  start_le : a.startTime.toMinutes ≤ a.endTime.toMinutes
  day : ∃ d < 7, a.searchDays.getLsbD d = true

/-- The window of a day joins the one of the day after it at midnight. -/
def Joins (a : AutoSearch) : Prop := a.startTime.toMinutes = 0 ∧ a.endTime.toMinutes = 1439

/-! ## In minutes -/

variable {a : AutoSearch} {t now : Nat}

theorem minuteOf_midnight (day : Nat) : minuteOf (midnight day) = day * 1440 := by
  simp only [minuteOf, midnight]
  omega

theorem date_eq (t : Nat) : date t = minuteOf t / 1440 := by
  simp only [minuteOf, date]
  omega

theorem addClock_eq {time : SearchTime} (h : time.minute < 60) (t : Nat) :
    addClock time t = t + (time.toMinutes - minuteOf t % 1440) * 60 := by
  have hclock : minuteOf t % 1440 = hours t * 60 + minutes t := by
    simp only [minuteOf, hours, minutes]
    omega
  have hlt : minutes t < 60 := by
    simp only [minutes]
    omega
  simp only [addClock, SearchTime.toMinutes, hclock]
  split
  · rfl
  · split
    · rw [show time.hour * 60 + time.minute - (hours t * 60 + minutes t) =
        time.minute - minutes t by omega]
    · omega

theorem minuteOf_addClock {time : SearchTime} (h : time.minute < 60) (t : Nat) :
    minuteOf (addClock time t) = minuteOf t + (time.toMinutes - minuteOf t % 1440) := by
  rw [addClock_eq h]
  simp only [minuteOf]
  omega

/-- The days that are gone over are of the other kind, and the one that is found is of the right
    one. -/
theorem daysUntil_spec (a : AutoSearch) (toEnabled : Bool) (n : Nat) {p : Nat} (hp : p ≤ 7) :
    a.daysUntil toEnabled n p ≤ n ∧
      (∀ j < a.daysUntil toEnabled n p, a.searchDays.getLsbD ((p + j) % 7) ≠ toEnabled) ∧
      (a.daysUntil toEnabled n p < n →
        a.searchDays.getLsbD ((p + a.daysUntil toEnabled n p) % 7) = toEnabled) := by
  induction n generalizing p with
  | zero => simp [daysUntil]
  | succ n ih =>
    have hwrap : (if p = 7 then 0 else p) = p % 7 := by split <;> omega
    simp only [daysUntil, hwrap]
    split
    case isTrue hfound => simpa using hfound
    case isFalse hother =>
      obtain ⟨hle, hbefore, hfound⟩ := @ih (p % 7 + 1) (by omega)
      have hshift : ∀ j, (p % 7 + 1 + j) % 7 = (p + (j + 1)) % 7 := by omega
      refine ⟨by omega, ?_, ?_⟩
      · intro j hj
        cases j with
        | zero => simpa using hother
        | succ j => exact hshift j ▸ hbefore j (by omega)
      · intro hlt
        exact hshift _ ▸ hfound (by omega)

/-- The day on which the item may search the next time. -/
structure IsNextDay (a : AutoSearch) (day next : Nat) : Prop where
  le : day ≤ next
  enabled : a.Enabled next
  before : ∀ k, day ≤ k → k < next → ¬ a.Enabled k

/-- **Going on to the start.** -/
theorem addTime_true (hstart : a.startTime.Valid) (hday : ∃ d < 7, a.searchDays.getLsbD d = true)
    (t : Nat) :
    ∃ next, a.IsNextDay (minuteOf t / 1440) next ∧
      ((next = minuteOf t / 1440 ∧
          a.addTime true t = t + (a.startTime.toMinutes - minuteOf t % 1440) * 60) ∨
        (minuteOf t / 1440 < next ∧
          minuteOf (a.addTime true t) = next * 1440 + a.startTime.toMinutes)) := by
  simp only [addTime, if_true, ← date_eq, dayOfWeek]
  split
  case isTrue hdisabled =>
    obtain ⟨hle, hbefore, hfound⟩ := daysUntil_spec a true 6 (p := date t % 7) (by omega)
    generalize a.daysUntil true 6 (date t % 7) = n at hle hbefore hfound
    have hmod : ∀ j, (date t % 7 + j) % 7 = (date t + j) % 7 := by omega
    have hearlier : ∀ k, date t ≤ k → k < date t + n → ¬ a.Enabled k := by
      intro k hk hlt
      have := hbefore (k - date t) (by omega)
      rwa [hmod, show date t + (k - date t) = k by omega] at this
    have henabled : a.Enabled (date t + n) := by
      by_cases hn : n < 6
      · rw [Enabled, ← hmod n]
        exact hfound hn
      · -- six days are gone over, so the only one that is left is the one before this day
        obtain ⟨d, hd, hset⟩ := hday
        obtain rfl : n = 6 := by omega
        have hsame : d = (date t + 6) % 7 := by
          by_contra hne
          refine hearlier (date t + (d + 7 - date t % 7) % 7) (by omega) (by omega) ?_
          rw [Enabled, show (date t + (d + 7 - date t % 7) % 7) % 7 = d by omega]
          exact hset
        rw [Enabled, ← hsame]
        exact hset
    have hpos : 0 < n := by
      rcases Nat.eq_zero_or_pos n with rfl | hpos
      · exact absurd henabled hdisabled
      · exact hpos
    refine ⟨date t + n, ⟨by omega, henabled, hearlier⟩, Or.inr ⟨by omega, ?_⟩⟩
    rw [minuteOf_addClock hstart.minute_lt, minuteOf_midnight]
    omega
  case isFalse henabled =>
    refine ⟨date t, ⟨le_refl _, not_not.mp henabled, fun k hk hlt => absurd hk (by omega)⟩,
      Or.inl ⟨rfl, ?_⟩⟩
    exact addClock_eq hstart.minute_lt t

/-- **Going on to the end.** All days that are gone over allow searches. -/
theorem addTime_false (hend : a.endTime.Valid) (h : a.Enabled (minuteOf t / 1440)) :
    ∃ n ≤ 6, (∀ k, minuteOf t / 1440 ≤ k → k ≤ minuteOf t / 1440 + n → a.Enabled k) ∧
      (n < 6 → ¬ a.Enabled (minuteOf t / 1440 + n + 1)) ∧
      minuteOf (a.addTime false t) = (minuteOf t / 1440 + n) * 1440 + a.endTime.toMinutes := by
  simp only [← date_eq] at h ⊢
  obtain ⟨hle, hbefore, hfound⟩ := daysUntil_spec a false 6 (p := date t % 7 + 1) (by omega)
  have hmod : ∀ j, (date t % 7 + 1 + j) % 7 = (date t + j + 1) % 7 := by omega
  refine ⟨_, hle, ?_, ?_, ?_⟩
  · intro k hk hkn
    rcases Nat.lt_or_eq_of_le hk with hlt | rfl
    · have hother := hbefore (k - date t - 1) (by omega)
      rw [hmod, show date t + (k - date t - 1) + 1 = k by omega] at hother
      simpa [Enabled] using hother
    · exact h
  · intro hn
    have hdisabled := hfound hn
    rw [hmod] at hdisabled
    simp [Enabled, hdisabled]
  · have hset : a.searchDays.getLsbD (date t % 7) ≠ false := by
      rw [show a.searchDays.getLsbD (date t % 7) = true from h]
      simp
    simp only [addTime, Bool.false_eq_true, if_false, dayOfWeek, if_pos hset]
    rw [minuteOf_addClock hend.minute_lt, minuteOf_midnight]
    omega

/-! ## The item has to wait -/

theorem Window.start_lt (hw : a.Window) : a.startTime.toMinutes < 1440 := by
  have hhour := hw.start_valid.hour_lt
  have hminute := hw.start_valid.minute_lt
  simp only [SearchTime.toMinutes]
  omega

theorem Window.end_lt (hw : a.Window) : a.endTime.toMinutes < 1440 := by
  have hhour := hw.end_valid.hour_lt
  have hminute := hw.end_valid.minute_lt
  simp only [SearchTime.toMinutes]
  omega

/-- The first minute that is allowed from `b` on, where the end of the day has not been passed. -/
theorem isLeast_of_nextDay (hw : a.Window) {b next : Nat} (hb : b % 1440 ≤ a.endTime.toMinutes)
    (hnext : a.IsNextDay (b / 1440) next) :
    IsLeast {k | b ≤ k ∧ a.Allowed k}
      (if next = b / 1440 then b + (a.startTime.toMinutes - b % 1440)
        else next * 1440 + a.startTime.toMinutes) := by
  have hstart := hw.start_lt
  have hle := hw.start_le
  have hday := hnext.le
  split
  case isTrue heq =>
    have hsame : (b + (a.startTime.toMinutes - b % 1440)) / 1440 = next := by omega
    refine ⟨⟨by omega, hsame ▸ hnext.enabled, by omega, by omega⟩, ?_⟩
    rintro k ⟨hk, -, hkstart, -⟩
    omega
  case isFalse hne =>
    have hsame : (next * 1440 + a.startTime.toMinutes) / 1440 = next := by omega
    refine ⟨⟨by omega, by rw [hsame]; exact hnext.enabled, by omega, by omega⟩, ?_⟩
    rintro k ⟨hk, henabled, hkstart, -⟩
    have hafter : next ≤ k / 1440 := by
      by_contra hlt
      exact hnext.before (k / 1440) (by omega) (by omega) henabled
    omega

/-- The start of the search, in minutes. -/
theorem firstTime_spec (hw : a.Window) (now : Nat) :
    (minuteOf now % 1440 ≤ a.endTime.toMinutes ∧ a.firstTime now = now) ∨
      (a.endTime.toMinutes < minuteOf now % 1440 ∧
        minuteOf (a.firstTime now) = (minuteOf now / 1440 + 1) * 1440) := by
  have hend := hw.end_valid.minute_lt
  have hclock : minuteOf now % 1440 = hours now * 60 + minutes now := by
    simp only [minuteOf, hours, minutes]
    omega
  have hlt : minutes now < 60 := by
    simp only [minutes]
    omega
  simp only [firstTime, SearchTime.toMinutes, hclock]
  split
  case isTrue hpassed =>
    refine Or.inr ⟨by omega, ?_⟩
    rw [minuteOf_midnight, date_eq]
  case isFalse hbefore => exact Or.inl ⟨by omega, rfl⟩

/-- What `addTime` finds from the start of the search on is the first allowed minute. -/
theorem isLeast_addTime (hw : a.Window) (now : Nat) :
    IsLeast {k | minuteOf now ≤ k ∧ a.Allowed k} (minuteOf (a.addTime true (a.firstTime now))) := by
  obtain ⟨next, hnext, hfound⟩ := addTime_true hw.start_valid hw.day (a.firstTime now)
  have hminute : minuteOf (a.addTime true (a.firstTime now)) =
      if next = minuteOf (a.firstTime now) / 1440 then
        minuteOf (a.firstTime now) + (a.startTime.toMinutes - minuteOf (a.firstTime now) % 1440)
      else next * 1440 + a.startTime.toMinutes := by
    rcases hfound with ⟨heq, hadd⟩ | ⟨hlt, hadd⟩
    · rw [if_pos heq, hadd]
      simp only [minuteOf]
      omega
    · rw [if_neg (by omega), hadd]
  rw [hminute]
  rcases firstTime_spec hw now with ⟨hbefore, hfirst⟩ | ⟨hpassed, hfirst⟩
  · rw [hfirst] at hnext ⊢
    exact isLeast_of_nextDay hw hbefore hnext
  · have hleast := isLeast_of_nextDay hw (b := minuteOf (a.firstTime now)) (by omega) hnext
    refine ⟨⟨by have := hleast.1.1; omega, hleast.1.2⟩, ?_⟩
    rintro k ⟨hk, hallowed⟩
    refine hleast.2 ⟨?_, hallowed⟩
    -- the rest of this day is behind the window
    have := hallowed.2.2
    omega

/-- The item may search now exactly if nothing has to be gone on. -/
theorem addTime_eq_now_iff (hw : a.Window) (now : Nat) :
    a.addTime true (a.firstTime now) = now ↔ a.Allowed (minuteOf now) := by
  constructor
  · intro heq
    have hleast := isLeast_addTime hw now
    rw [heq] at hleast
    exact hleast.1.2
  · intro hallowed
    obtain ⟨henabled, hstart, hend⟩ := hallowed
    have hfirst : a.firstTime now = now := by
      rcases firstTime_spec hw now with h | h
      · exact h.2
      · omega
    obtain ⟨next, hnext, ⟨heq, hadd⟩ | ⟨hlt, -⟩⟩ :=
      addTime_true hw.start_valid hw.day (a.firstTime now)
    · rw [hadd, hfirst]
      omega
    · rw [hfirst] at hnext hlt
      exact absurd henabled (hnext.before _ (le_refl _) hlt)

/-! ## The item may search -/

theorem enabled_of_week (h : ∀ k, now ≤ k → k ≤ now + 6 → a.Enabled k) :
    a.searchDays = BitVec.allOnes 7 := by
  apply BitVec.eq_of_getLsbD_eq
  intro i hi
  have := h (now + (i + 7 - now % 7) % 7) (by omega) (by omega)
  rw [Enabled, show (now + (i + 7 - now % 7) % 7) % 7 = i by omega] at this
  rw [this, BitVec.getLsbD_allOnes]
  simp [hi]

theorem toMinutes_inj {x y : SearchTime} (hx : x.Valid) (hy : y.Valid)
    (h : x.toMinutes = y.toMinutes) :
    x = y := by
  obtain ⟨hour, minute⟩ := x
  obtain ⟨hour', minute'⟩ := y
  have h1 := hx.minute_lt
  have h2 := hy.minute_lt
  simp only [SearchTime.toMinutes] at h h1 h2
  rw [SearchTime.mk.injEq]
  omega

theorem alwaysSearching_of (hw : a.Window) (hdays : a.searchDays = BitVec.allOnes 7)
    (hjoins : a.Joins) :
    a.alwaysSearching = true := by
  have hstart : a.startTime = ⟨0, 0⟩ := toMinutes_inj hw.start_valid ⟨by simp, by simp⟩ hjoins.1
  have hend : a.endTime = ⟨23, 59⟩ := toMinutes_inj hw.end_valid ⟨by simp, by simp⟩ hjoins.2
  simp [alwaysSearching, hdays, hstart, hend]

/-- **The end is the right one in two cases**: the windows of the days join, or there is none
    tomorrow. -/
theorem isLastOf_addTime_iff (hw : a.Window) (hlimits : a.alwaysSearching = false)
    (hallowed : a.Allowed (minuteOf now)) :
    a.IsLastOf (minuteOf now) (minuteOf (a.addTime false now)) ↔
      a.Joins ∨ ¬ a.Enabled (minuteOf now / 1440 + 1) := by
  obtain ⟨henabled, hstart, hend⟩ := hallowed
  obtain ⟨n, hn, hdays, hnext, hadd⟩ := addTime_false hw.end_valid henabled
  have hstart_lt := hw.start_lt
  have hend_lt := hw.end_lt
  have hle := hw.start_le
  rw [hadd]
  generalize minuteOf now = m at *
  constructor
  · intro hlast
    by_contra hneither
    obtain ⟨hjoins, htomorrow⟩ := not_or.mp hneither
    have hpos : 0 < n := by
      rcases Nat.eq_zero_or_pos n with rfl | hpos
      · exact absurd (not_not.mp htomorrow) (hnext (by omega))
      · exact hpos
    -- a minute between the window of this day and the one of tomorrow
    by_cases hzero : a.startTime.toMinutes = 0
    · have hgap : a.endTime.toMinutes < 1439 := by
        have : a.endTime.toMinutes ≠ 1439 := fun h => hjoins ⟨hzero, h⟩
        omega
      have := (hlast.allowed (m / 1440 * 1440 + 1439) (by omega) (by omega)).2.2
      omega
    · have := (hlast.allowed ((m / 1440 + 1) * 1440) (by omega) (by omega)).2.1
      omega
  · rintro (hjoins | htomorrow)
    · have hlt : n < 6 := by
        by_contra hge
        have hweek : a.searchDays = BitVec.allOnes 7 :=
          enabled_of_week fun k hk hk6 => hdays k hk (by omega)
        rw [alwaysSearching_of hw hweek hjoins] at hlimits
        exact Bool.noConfusion hlimits
      obtain ⟨hjstart, hjend⟩ := hjoins
      refine ⟨by omega, fun k hk hklast => ⟨hdays _ (by omega) (by omega), by omega, by omega⟩, ?_⟩
      rintro ⟨hafter, -⟩
      refine hnext hlt ?_
      rwa [show ((m / 1440 + n) * 1440 + a.endTime.toMinutes + 1) / 1440 =
        m / 1440 + n + 1 by omega]
        at hafter
    · have hzero : n = 0 := by
        by_contra hne
        exact htomorrow (hdays _ (by omega) (by omega))
      refine ⟨by omega, fun k hk hklast => ⟨hdays _ (by omega) (by omega), by omega, by omega⟩, ?_⟩
      rintro ⟨hafter, -, hbelow⟩
      by_cases hmidnight : a.endTime.toMinutes = 1439
      · rw [show ((m / 1440 + n) * 1440 + a.endTime.toMinutes + 1) / 1440 =
          m / 1440 + 1 by omega] at hafter
        exact htomorrow hafter
      · omega

/-! ## The next change -/

/-- **When the next change is counted correctly.** An item that has to wait is told the first minute
    in which it may search. One that may search is told the end of the last of the following days,
    which is right if the windows of these days join at midnight, or if there is no window
    tomorrow. -/
theorem updateSearchTime_spec (hw : a.Window) (hlimits : a.alwaysSearching = false) (now : Nat) :
    a.IsSwitch (minuteOf now) (a.updateSearchTime now).2.nextIsDisable
        (minuteOf (a.updateSearchTime now).2.nextSearchChange) ↔
      (a.Allowed (minuteOf now) → a.Joins ∨ ¬ a.Enabled (minuteOf now / 1440 + 1)) := by
  simp only [updateSearchTime, hlimits, Bool.false_eq_true, if_false, IsSwitch]
  by_cases hallowed : a.Allowed (minuteOf now)
  case pos =>
    have heq := (addTime_eq_now_iff hw now).mpr hallowed
    simp only [heq, if_true, hallowed, true_and, true_implies]
    exact isLastOf_addTime_iff hw hlimits hallowed
  case neg =>
    have hne := fun heq => hallowed ((addTime_eq_now_iff hw now).mp heq)
    simp only [if_neg hne, true_and, hallowed, false_implies, iff_true]
    exact isLeast_addTime hw now

/-- Searches from Monday to Friday, from nine to five. -/
def officeHours : AutoSearch where
  startTime := ⟨9, 0⟩
  endTime := ⟨17, 0⟩
  searchDays := 0b0111110#7

theorem officeHours_window : officeHours.Window where
  start_valid := ⟨by decide, by decide⟩
  end_valid := ⟨by decide, by decide⟩
  start_le := by decide
  day := ⟨1, by decide, by decide⟩

/-- On Friday at ten, the item may search until five. -/
theorem updateSearchTime_friday :
    officeHours.IsSwitch 7800 true 8220 := by
  have h := (updateSearchTime_spec officeHours_window (by decide +kernel) (7800 * 60)).mpr
    fun _ => Or.inr (by decide +kernel)
  have hstate : officeHours.updateSearchTime (7800 * 60) =
      (true, { officeHours with nextSearchChange := 8220 * 60, nextIsDisable := true }) := by
    decide +kernel
  rw [hstate] at h
  exact h

/-- On Monday at ten, it is told Friday at five as well. -/
theorem updateSearchTime_monday :
    ¬ ∀ (a : AutoSearch) (now : Nat), a.Window → a.alwaysSearching = false →
      a.IsSwitch (minuteOf now) (a.updateSearchTime now).2.nextIsDisable
        (minuteOf (a.updateSearchTime now).2.nextSearchChange) := by
  intro hall
  have h := hall officeHours (2040 * 60) officeHours_window (by decide +kernel)
  have hstate : officeHours.updateSearchTime (2040 * 60) =
      (true, { officeHours with nextSearchChange := 8220 * 60, nextIsDisable := true }) := by
    decide +kernel
  rw [hstate, IsSwitch, if_pos (by decide +kernel)] at h
  have hnight := h.2.allowed 2880 (by decide +kernel) (by decide +kernel)
  revert hnight
  decide +kernel

/-- Searches are made in the window in any case. -/
theorem nextAllowedSearch_le_iff (hw : a.Window) (hlimits : a.alwaysSearching = false) (now : Nat) :
    (a.updateSearchTime now).2.nextAllowedSearch false ≤ now ↔ a.Allowed (minuteOf now) := by
  simp only [updateSearchTime, hlimits, Bool.false_eq_true, if_false, nextAllowedSearch]
  have hiff := addTime_eq_now_iff hw now
  have hleast := isLeast_addTime hw now
  by_cases hallowed : a.Allowed (minuteOf now)
  case pos => simp [hiff.mpr hallowed, hallowed]
  case neg =>
    have hne := fun heq => hallowed (hiff.mp heq)
    have hlater : now < a.addTime true (a.firstTime now) := by
      by_contra hle
      have hminute : minuteOf (a.addTime true (a.firstTime now)) = minuteOf now := by
        have := hleast.1.1
        simp only [minuteOf] at this ⊢
        omega
      exact hallowed (hminute ▸ hleast.1.2)
    have hpos : a.addTime true (a.firstTime now) ≠ 0 := by omega
    simp only [if_neg hne]
    simpa [hallowed, hpos] using hlater

end AutoSearch
end Airdcpp
