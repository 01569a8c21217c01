import Airdcpp.Core.Types

/-!
# `Core/FloodCounter` — how many requests an address has made lately

Each request is judged by the number of requests of the same address that are not older than the
period, and then added itself, whatever it was answered. Requests are pruned when one is judged,
those of all addresses at once.

As time does not go back, what has been pruned before would be pruned now, so a request is judged by
exactly the requests of its address in the period before it (`handleRequest_eq`), and in a period no
more of them are answered `ok` than the limit says (`floodLimits`). Only the number of requests is
put into 32 bits for the comparison.
-/

namespace Airdcpp

/-- What `GET_TICK` gives: the milliseconds since the start, of a signed 64-bit number of
    microseconds. -/
structure Tick where
  ms : Nat
  ms_lt : ms * 1000 < 2 ^ 63

namespace FloodCounter

inductive FloodType
  | ok
  | minor
  | severe
deriving DecidableEq, Repr

structure FloodResult where
  type : FloodType
  hitLimit : Bool
deriving DecidableEq, Repr

structure FloodLimits where
  minorCount : Int
  severeCount : Int
deriving DecidableEq, Repr

end FloodCounter

open FloodCounter

/-- The constructor is given seconds whose milliseconds are an `int`. -/
structure FloodCounter where
  /-- a `multimap<string, time_t>`; nothing that is read of it depends on its order -/
  floodIps : List (Str × Int) := []
  floodPeriod : Nat
  period_lt : floodPeriod * 1000 < 2 ^ 31

/-- A call of `handleRequest`, and what the clock says when it judges and when it adds. -/
structure FloodRequest where
  aIp : Str
  aLimits : FloodLimits
  judged : Tick
  added : Tick

namespace FloodCounter

/-- `static_cast<int>(n)` -/
def toInt (n : Nat) : Int := (n : Int).bmod (2 ^ 32)

/-- `static_cast<uint64_t>(second + (floodPeriod * 1000)) < tick` -/
def expired (floodPeriod : Nat) (tick : Tick) (second : Int) : Bool :=
  decide ((second + (floodPeriod * 1000 : Nat)) % 2 ^ 64 < tick.ms)

def prune (c : FloodCounter) (tick : Tick) : FloodCounter :=
  { c with floodIps := c.floodIps.filter fun e => !expired c.floodPeriod tick e.2 }

/-- The status for a number of requests. -/
def judge (requests : Nat) (aLimits : FloodLimits) : FloodResult :=
  let count := toInt requests
  if aLimits.severeCount ≤ count then ⟨.severe, count == aLimits.severeCount⟩
  else if aLimits.minorCount ≤ count then ⟨.minor, count == aLimits.minorCount⟩
  else ⟨.ok, false⟩

def getFloodStatus (c : FloodCounter) (aIp : Str) (aLimits : FloodLimits) (tick : Tick) :
    FloodResult × FloodCounter :=
  let c := c.prune tick
  (judge (c.floodIps.countP fun e => e.1 == aIp) aLimits, c)

def addRequest (c : FloodCounter) (aIp : Str) (tick : Tick) : FloodCounter :=
  { c with floodIps := c.floodIps ++ [(aIp, (tick.ms : Int).bmod (2 ^ 64))] }

def handleRequest (c : FloodCounter) (r : FloodRequest) : FloodResult × FloodCounter :=
  let s := c.getFloodStatus r.aIp r.aLimits r.judged
  (s.1, s.2.addRequest r.aIp r.added)

/-- The requests with their answers -/
def handled (c : FloodCounter) : List FloodRequest → List (FloodRequest × FloodResult)
  | [] => []
  | r :: rs => (r, (c.handleRequest r).1) :: handled (c.handleRequest r).2 rs

def after (c : FloodCounter) (rs : List FloodRequest) : FloodCounter :=
  rs.foldl (fun c r => (c.handleRequest r).2) c

/-! ## What is counted -/

/-- The clock has not gone back. -/
def InOrder (rs : List FloodRequest) : Prop :=
  (rs.flatMap fun r => [r.judged.ms, r.added.ms]).Pairwise (· ≤ ·)

/-- The request is not older than the period. -/
def inPeriod (floodPeriod tick : Nat) (r : FloodRequest) : Bool :=
  decide (tick ≤ r.added.ms + floodPeriod * 1000)

/-- The number of requests of the address in the period before -/
def recent (floodPeriod : Nat) (earlier : List FloodRequest) (r : FloodRequest) : Nat :=
  earlier.countP fun q => q.aIp == r.aIp && inPeriod floodPeriod r.judged.ms q

variable {c : FloodCounter} {rs rs' earlier : List FloodRequest} {r q : FloodRequest}
  {tick tick' : Tick}
  {floodPeriod : Nat} {second : Int}

def entry (r : FloodRequest) : Str × Int := (r.aIp, (r.added.ms : Int).bmod (2 ^ 64))

theorem time_eq (tick : Tick) : (tick.ms : Int).bmod (2 ^ 64) = tick.ms := by
  have hlt := tick.ms_lt
  exact Int.bmod_eq_of_le (by omega) (by omega)

theorem expired_entry (hperiod : floodPeriod * 1000 < 2 ^ 31) (tick : Tick) (r : FloodRequest) :
    expired floodPeriod tick (entry r).2 = !inPeriod floodPeriod tick.ms r := by
  have hlt := r.added.ms_lt
  rw [entry, expired, inPeriod, time_eq, Int.emod_eq_of_lt (by omega) (by omega), ← decide_not,
    decide_eq_decide]
  omega

/-- What is in the period now was in it before. -/
theorem inPeriod_mono {t t' : Nat} (h : t ≤ t') (hin : inPeriod floodPeriod t' r = true) :
    inPeriod floodPeriod t r = true := by
  simp only [inPeriod, decide_eq_true_eq] at hin ⊢
  exact h.trans hin

theorem InOrder.judged_le (h : InOrder (earlier ++ r :: rs)) :
    (∀ q ∈ earlier, q.judged.ms ≤ r.judged.ms) ∧ InOrder earlier := by
  rw [InOrder, List.flatMap_append, List.pairwise_append] at h
  refine ⟨fun q hq => h.2.2 _ (List.mem_flatMap.mpr ⟨q, hq, List.mem_cons_self⟩) _ ?_, h.1⟩
  exact List.mem_flatMap.mpr ⟨r, List.mem_cons_self, List.mem_cons_self⟩

/-- The counter has what is in the period of the requests since it was empty. -/
def Counts (c : FloodCounter) (earlier : List FloodRequest) : Prop :=
  ∀ tick : Tick, (∀ q ∈ earlier, q.judged.ms ≤ tick.ms) →
    (c.prune tick).floodIps = (earlier.filter (inPeriod c.floodPeriod tick.ms)).map entry

theorem filter_entries (hperiod : floodPeriod * 1000 < 2 ^ 31) (tick : Tick)
    (rs : List FloodRequest) :
    ((rs.map entry).filter fun e => !expired floodPeriod tick e.2) =
      (rs.filter (inPeriod floodPeriod tick.ms)).map entry := by
  rw [List.filter_map]
  refine congrArg (List.map entry) (List.filter_congr fun r _ => ?_)
  rw [Function.comp_apply, expired_entry hperiod, Bool.not_not]

theorem prune_floodIps (c : FloodCounter) (tick : Tick) :
    (c.prune tick).floodIps = c.floodIps.filter fun e => !expired c.floodPeriod tick e.2 := by
  rw [prune]

@[simp] theorem handleRequest_floodPeriod (c : FloodCounter) (r : FloodRequest) :
    (c.handleRequest r).2.floodPeriod = c.floodPeriod := by
  simp only [handleRequest, getFloodStatus, addRequest, prune]

/-- **A request keeps what the counter has.** -/
theorem Counts.handleRequest (h : Counts c earlier)
    (horder : ∀ q ∈ earlier, q.judged.ms ≤ r.judged.ms) :
    Counts (c.handleRequest r).2 (earlier ++ [r]) := by
  intro tick htick
  have hr : r.judged.ms ≤ tick.ms := htick r (by simp)
  have hentries : (c.handleRequest r).2.floodIps =
      (earlier.filter (inPeriod c.floodPeriod r.judged.ms) ++ [r]).map entry := by
    have hpruned := h r.judged horder
    simp only [FloodCounter.handleRequest, getFloodStatus, addRequest, hpruned, List.map_append]
    rfl
  have hsame : (earlier.filter (inPeriod c.floodPeriod r.judged.ms)).filter
      (inPeriod c.floodPeriod tick.ms) = earlier.filter (inPeriod c.floodPeriod tick.ms) := by
    rw [List.filter_filter]
    refine List.filter_congr fun q _ => ?_
    rw [Bool.and_eq_left_iff_imp]
    exact inPeriod_mono hr
  rw [prune_floodIps, hentries, handleRequest_floodPeriod, filter_entries c.period_lt,
    List.filter_append, hsame, List.filter_append]

theorem after_cons (c : FloodCounter) (r : FloodRequest) (rs : List FloodRequest) :
    c.after (r :: rs) = (c.handleRequest r).2.after rs := List.foldl_cons ..

theorem floodPeriod_after (c : FloodCounter) (rs : List FloodRequest) :
    (c.after rs).floodPeriod = c.floodPeriod := by
  induction rs generalizing c with
  | nil => rfl
  | cons r rs ih => rw [after_cons, ih, handleRequest_floodPeriod]

theorem after_append (c : FloodCounter) (rs rs' : List FloodRequest) :
    c.after (rs ++ rs') = (c.after rs).after rs' := List.foldl_append

theorem handled_append (c : FloodCounter) (rs rs' : List FloodRequest) :
    c.handled (rs ++ rs') = c.handled rs ++ (c.after rs).handled rs' := by
  induction rs generalizing c with
  | nil => rfl
  | cons r rs ih => rw [List.cons_append, handled, handled, ih, after_cons, List.cons_append]

theorem handled_concat (c : FloodCounter) (rs : List FloodRequest) (r : FloodRequest) :
    c.handled (rs ++ [r]) = c.handled rs ++ [(r, ((c.after rs).handleRequest r).1)] :=
  handled_append c rs [r]

/-- A run from an empty counter -/
theorem counts_after (hempty : c.floodIps = []) (horder : InOrder rs) : Counts (c.after rs) rs := by
  induction rs using List.reverseRecOn with
  | nil =>
    intro tick _
    simp [after, prune, hempty]
  | append_singleton rs r ih =>
    obtain ⟨hle, hrs⟩ := horder.judged_le
    rw [after_append]
    exact (ih hrs).handleRequest hle

/-- **The answer** comes from the own requests of the period. -/
theorem handleRequest_eq (h : Counts c earlier)
    (horder : ∀ q ∈ earlier, q.judged.ms ≤ r.judged.ms) :
    (c.handleRequest r).1 = judge (recent c.floodPeriod earlier r) r.aLimits := by
  have hpruned := h r.judged horder
  simp only [handleRequest, getFloodStatus, hpruned, recent, List.countP_map, List.countP_filter]
  rfl

/-! ## Limits -/

/-- A request of the address that was answered `ok` under a limit, between two times -/
def accepted (aIp : Str) (minorCount : Int) (start stop : Nat) (x : FloodRequest × FloodResult) :
    Bool :=
  x.2.type == .ok && x.1.aIp == aIp && x.1.aLimits.minorCount == minorCount &&
    decide (start ≤ x.1.added.ms) && decide (x.1.judged.ms ≤ stop)

theorem map_fst_handled (c : FloodCounter) (rs : List FloodRequest) :
    (c.handled rs).map Prod.fst = rs := by
  induction rs generalizing c with
  | nil => rfl
  | cons r rs ih => rw [handled, List.map_cons, ih]

theorem toInt_of_lt {n : Nat} (h : n < 2 ^ 31) : toInt n = n :=
  Int.bmod_eq_of_le (by omega) (by omega)

/-- Fewer are counted than the limit. -/
theorem lt_of_judge_ok {n : Nat} {aLimits : FloodLimits} (h : (judge n aLimits).type = .ok) :
    toInt n < aLimits.minorCount := by
  rw [judge] at h
  split at h
  · cases h
  · split at h
    · cases h
    · next hminor => exact Int.not_le.mp hminor

/-- The requests that a request is accepted besides have been counted for it. -/
theorem countP_accepted_le {aIp : Str} {minorCount : Int} {start : Nat} {x : FloodResult}
    (haccepted : accepted aIp minorCount start (start + floodPeriod * 1000) (r, x) = true) :
    (c.handled earlier).countP (accepted aIp minorCount start (start + floodPeriod * 1000)) ≤
      recent floodPeriod earlier r := by
  simp only [accepted, Bool.and_eq_true, decide_eq_true_eq, beq_iff_eq] at haccepted
  obtain ⟨⟨⟨⟨-, hip⟩, -⟩, -⟩, hstop⟩ := haccepted
  rw [recent]
  conv_rhs => rw [← map_fst_handled c earlier, List.countP_map]
  refine List.countP_mono_left fun y _ hy => ?_
  simp only [accepted, Bool.and_eq_true, decide_eq_true_eq, beq_iff_eq] at hy
  obtain ⟨⟨⟨⟨-, hip'⟩, -⟩, hstart⟩, -⟩ := hy
  simp only [Function.comp_apply, inPeriod, Bool.and_eq_true, decide_eq_true_eq, beq_iff_eq]
  exact ⟨hip'.trans hip.symm, hstop.trans (Nat.add_le_add_right hstart _)⟩

/-- No count is too large for an `int`. -/
def CountsFit (floodPeriod : Nat) (aIp : Str) (rs : List FloodRequest) : Prop :=
  ∀ earlier r later, rs = earlier ++ r :: later → r.aIp = aIp →
    recent floodPeriod earlier r < 2 ^ 31

theorem CountsFit.of_append {aIp : Str} (h : CountsFit floodPeriod aIp (rs ++ rs')) :
    CountsFit floodPeriod aIp rs := by
  intro earlier r later heq
  exact h earlier r (later ++ rs') (by rw [heq, List.append_assoc, List.cons_append])

/-- In a window as long as the period, no more requests are accepted than the limit says. -/
theorem countP_accepted_le_limit {aIp : Str} {minorCount : Int} (hempty : c.floodIps = [])
    (horder : InOrder rs) (hlimit : 0 < minorCount) (hfit : CountsFit c.floodPeriod aIp rs)
    (start : Nat) :
    ((c.handled rs).countP (accepted aIp minorCount start (start + c.floodPeriod * 1000)) : Int) ≤
      minorCount := by
  induction rs using List.reverseRecOn with
  | nil => exact hlimit.le
  | append_singleton rs r ih =>
    obtain ⟨hle, hrs⟩ := horder.judged_le
    have hrest := ih hrs hfit.of_append
    rw [handled_concat, List.countP_append, List.countP_singleton]
    split
    · next haccepted =>
      -- the others have been counted for the last one
      have hcounted := @countP_accepted_le c rs r _ aIp minorCount start _ haccepted
      have hanswer := handleRequest_eq (counts_after hempty hrs) hle
      rw [floodPeriod_after] at hanswer
      rw [hanswer] at haccepted
      simp only [accepted, Bool.and_eq_true, decide_eq_true_eq, beq_iff_eq] at haccepted
      obtain ⟨⟨⟨⟨hok, hip⟩, hminor⟩, -⟩, -⟩ := haccepted
      have hlt := lt_of_judge_ok hok
      rw [toInt_of_lt (hfit rs r [] rfl hip), hminor] at hlt
      omega
    · exact hrest

/-- **Addresses are limited independently.** A request is answered by the requests of its own
    address in the period before it, nothing older is counted then, and in a period no more requests
    of an address are accepted under a limit than it says, as long as the counts fit in an `int`. -/
theorem floodLimits (c : FloodCounter) (hempty : c.floodIps = []) {rs : List FloodRequest}
    (horder : InOrder rs) :
    (∀ earlier r later, rs = earlier ++ r :: later →
      (c.handled rs)[earlier.length]? =
          some (r, judge (recent c.floodPeriod earlier r) r.aLimits) ∧
        ∀ e ∈ ((c.after earlier).prune r.judged).floodIps,
          (r.judged.ms : Int) ≤ e.2 + (c.floodPeriod * 1000 : Nat)) ∧
      ∀ aIp minorCount, 0 < minorCount → CountsFit c.floodPeriod aIp rs → ∀ start : Nat,
        ((c.handled rs).countP (accepted aIp minorCount start (start + c.floodPeriod * 1000)) : Int)
          ≤
          minorCount := by
  refine ⟨fun earlier r later heq => ?_, fun aIp minorCount hlimit hfit start =>
    countP_accepted_le_limit hempty horder hlimit hfit start⟩
  rw [heq] at horder ⊢
  obtain ⟨hle, hearlier⟩ := horder.judged_le
  have hcounts := counts_after hempty hearlier
  constructor
  · have hlength : (c.handled earlier).length = earlier.length := by
      rw [← List.length_map, map_fst_handled]
    rw [handled_append, List.getElem?_append_right hlength.le, hlength, Nat.sub_self, handled,
      handleRequest_eq hcounts hle, floodPeriod_after]
    rfl
  · intro e he
    rw [hcounts r.judged hle, floodPeriod_after] at he
    obtain ⟨q, hq, rfl⟩ := List.mem_map.mp he
    have hin := (List.mem_filter.mp hq).2
    rw [inPeriod, decide_eq_true_eq] at hin
    simp only [entry, time_eq]
    exact_mod_cast hin

/-- A counter of 30 seconds, and a request with a limit of one when it is started -/
def sampleCounter : FloodCounter := { floodPeriod := 30, period_lt := by decide }

def sampleRequest : FloodRequest where
  aIp := str "10.0.0.1"
  aLimits := ⟨1, 1⟩
  judged := ⟨0, by decide⟩
  added := ⟨0, by decide⟩

theorem floodLimits_sample :
    ((sampleCounter.handled [sampleRequest, sampleRequest]).countP
      (accepted (str "10.0.0.1") 1 0 (0 + sampleCounter.floodPeriod * 1000)) : Int) ≤ 1 := by
  refine (@floodLimits sampleCounter rfl [sampleRequest, sampleRequest] ?_).2
    (str "10.0.0.1") 1 (by decide) (fun earlier r later heq _ => ?_) 0
  · simp [InOrder, sampleRequest]
  · have hlength := congrArg List.length heq
    have hle : recent sampleCounter.floodPeriod earlier r ≤ earlier.length := List.countP_le_length
    simp only [List.length_cons, List.length_nil, List.length_append] at hlength
    omega

theorem inOrder_sample (h : ∀ r ∈ rs, r = sampleRequest) : InOrder rs := by
  refine List.pairwise_of_forall_mem_list fun a ha b _ => ?_
  obtain ⟨q, hq, ha⟩ := List.mem_flatMap.mp ha
  rw [h q hq] at ha
  simp only [sampleRequest, List.mem_cons, List.not_mem_nil, or_false, or_self] at ha
  exact ha ▸ Nat.zero_le b

/-- The first of a number of requests at the same time is accepted; and so is the last if the number
    of those before it is put into an `int` below the limit. -/
theorem two_accepted {n : Nat} (hn : judge (n + 1) sampleRequest.aLimits = ⟨.ok, false⟩)
    (hrs : rs = List.replicate n sampleRequest) :
    2 ≤ (sampleCounter.handled (sampleRequest :: rs ++ [sampleRequest])).countP
      (accepted (str "10.0.0.1") 1 0 (0 + sampleCounter.floodPeriod * 1000)) := by
  have hall : ∀ r ∈ sampleRequest :: rs, r = sampleRequest := by
    rw [hrs, ← List.replicate_succ]
    exact fun r hr => List.eq_of_mem_replicate hr
  have hrecent : recent (sampleCounter.after (sampleRequest :: rs)).floodPeriod
      (sampleRequest :: rs) sampleRequest = n + 1 := by
    rw [floodPeriod_after, recent, hrs, ← List.replicate_succ, List.countP_replicate]
    exact if_pos (by decide)
  have hlast := handleRequest_eq (r := sampleRequest)
    (counts_after (c := sampleCounter) rfl (inOrder_sample hall))
    fun q hq => by rw [hall q hq]
  rw [hrecent, hn] at hlast
  have hfirst : (sampleCounter.handleRequest sampleRequest).1 = ⟨.ok, false⟩ := by decide
  rw [handled_concat, hlast, handled, hfirst, List.countP_append,
    List.countP_cons_of_pos (by decide), List.countP_singleton, if_pos (by decide)]
  omega

/-- Two of 2147483649 requests of one time are accepted under a limit of one. -/
theorem floodLimits_overflow : ¬ ∀ (c : FloodCounter) (rs : List FloodRequest), c.floodIps = [] →
    InOrder rs → (∀ r ∈ rs, 0 < r.aLimits.minorCount ∧
      r.aLimits.minorCount ≤ r.aLimits.severeCount) →
      ∀ aIp minorCount, 0 < minorCount → ∀ start : Nat,
        ((c.handled rs).countP (accepted aIp minorCount start (start + c.floodPeriod * 1000)) : Int)
          ≤
          minorCount := by
  intro h
  obtain ⟨rs, hrs⟩ : ∃ rs, rs = List.replicate (2 ^ 31 - 1) sampleRequest := ⟨_, rfl⟩
  have hall : ∀ r ∈ sampleRequest :: rs ++ [sampleRequest], r = sampleRequest := by
    intro r hr
    rcases List.mem_append.mp hr with hr | hr
    · rw [hrs, ← List.replicate_succ] at hr
      exact List.eq_of_mem_replicate hr
    · exact List.mem_singleton.mp hr
  have htwo := two_accepted (by decide) hrs
  have hone := h sampleCounter (sampleRequest :: rs ++ [sampleRequest]) rfl (inOrder_sample hall)
    (fun r hr => by rw [hall r hr]; decide) (str "10.0.0.1") 1 (by decide) 0
  omega

end FloodCounter
end Airdcpp
