import Airdcpp.Core.FilteredStreams

/-!
# `Core/Buffering` — the pieces do not show in a filtered stream

What holds in front of each round of `read`, `write` and `flushBuffers` is that the filter has taken
the beginning of the input, and that what it has produced of it is what stands in the output
(`Standing`, `Written`, `Flushes`). A round takes something from the input, or leaves more in the
output than there was, which is bounded by the room of the caller in one case and by what the filter
makes of its input in the other; so all the loops end, and where they do is a function of the input
alone (`readAll_opened`, `writeAndFlush_opened`). What stands behind the end of the filter's stream
is given to the filter by the write that brings it, and not taken (`write_behind_end`).
-/

namespace Airdcpp

/-! ## Reading gives what the filter makes of the stream -/

namespace FilteredInputStream

variable {φ τ : Type} {F : Filter φ} {S : Source τ} {total : Str → Str} {accepts ends : Str → Prop}
  {whole P : Str} {s : FilteredInputStream φ τ}

/-- What has not been given to the filter. -/
def rest (S : Source τ) (s : FilteredInputStream φ τ) : Str := s.window ++ S.left s.f

/-- The positions are in the buffer, and no buffer is kept that has been used up. -/
def Positions (s : FilteredInputStream φ τ) : Prop :=
  (s.pos < s.valid ∨ s.pos = 0 ∧ s.valid = 0) ∧ s.valid ≤ s.buf.length

/-- The stream in front of a round: `P` is all that has been read from it. -/
inductive Standing (F : Filter φ) (S : Source τ) (total : Str → Str) (whole : Str) :
    FilteredInputStream φ τ → Str → Prop
  | running {s : FilteredInputStream φ τ} {C P : Str} {done : Bool} (hmore : s.more = true)
      (hruns : F.Runs (some []) C P done s.filter) (hrest : C ++ s.rest S = whole)
      (hdone : done = true → s.rest S = []) (hpos : s.Positions) : Standing F S total whole s P
  | ended {s : FilteredInputStream φ τ} {P : Str} (hmore : s.more = false)
      (hP : P = total whole) : Standing F S total whole s P

theorem standing_opened (f : τ) : Standing F S total (S.left f) (opened F f) [] :=
  .running rfl .start rfl (by simp) ⟨.inr ⟨rfl, rfl⟩, Nat.zero_le _⟩

theorem window_length (h : s.valid ≤ s.buf.length) : s.window.length = s.valid - s.pos := by
  simp only [window, List.length_take, List.length_drop]
  omega

/-- Filling the buffer moves bytes into it, and leaves it empty only at the end. -/
structure Filled (S : Source τ) (r r' : Reading φ τ) : Prop where
  rest_eq : r'.rest S = r.rest S
  window_nil : r'.window = [] → r.rest S = []
  pos_le : r'.pos ≤ r'.valid
  valid_le : r'.valid ≤ r'.buf.length
  filter_eq : r'.filter = r.filter
  len_eq : r'.len = r.len
  rbuf_eq : r'.rbuf = r.rbuf

theorem fill_spec (r : Reading φ τ) (hpos : r.Positions) : Filled S r (fill S r) := by
  obtain ⟨hpos, hvalid⟩ := hpos
  by_cases hzero : r.valid = 0
  · have hleft := S.read_left r.f BUF_SIZE
    have hnil := S.read_nil r.f BUF_SIZE (by decide)
    have hp : r.pos = 0 := by omega
    simp only [fill, if_pos hzero]
    refine ⟨?_, ?_, by simp [hp], le_rfl, rfl, rfl, rfl⟩
    · simpa [rest, window, hp, hzero] using hleft
    · intro hx
      simp only [window, hp, List.drop_zero, Nat.sub_zero, List.take_length] at hx
      simpa [rest, window, hzero] using hnil hx
  · have hlt : r.pos < r.valid := by omega
    simp only [fill, if_neg hzero]
    refine ⟨rfl, ?_, hlt.le, hvalid, rfl, rfl, rfl⟩
    intro hwindow
    have hlength := window_length hvalid
    rw [hwindow, List.length_nil] at hlength
    omega

/-- The stream after the filter has taken `k` bytes of the window. -/
def advance (s : FilteredInputStream φ τ) (k : Nat) : FilteredInputStream φ τ :=
  { s with
    pos := if s.pos + k = s.valid then 0 else s.pos + k
    valid := if s.pos + k = s.valid then 0 else s.valid }

theorem advance_spec {k : Nat} (hpos : s.pos ≤ s.valid) (hvalid : s.valid ≤ s.buf.length)
    (hk : k ≤ s.window.length) :
    (s.advance k).window = s.window.drop k ∧ (s.advance k).Positions := by
  rw [window_length hvalid] at hk
  by_cases hend : s.pos + k = s.valid
  · have hdrop : s.window.drop k = [] := by
      rw [List.drop_eq_nil_iff, window_length hvalid]
      omega
    rw [hdrop]
    constructor
    · simp [advance, window, hend]
    · simp [advance, Positions, hend]
  · constructor
    · simp only [advance, window, if_neg hend, List.drop_take, List.drop_drop]
      congr 1
      omega
    · simp only [advance, Positions, if_neg hend]
      omega

/-! ### A call of the filter -/

/-- The filter is given the window `w`, behind which there is `l`. -/
structure Called (F : Filter φ) (total : Str → Str) (whole P w l : Str) (room : Nat)
    (y : Filtered φ) : Prop where
  insize_le : y.insize ≤ w.length
  out_le : y.out.length ≤ room
  ended : y.more = false → P ++ y.out = total whole
  progress : y.more = true → y.insize ≠ 0 ∨ y.out ≠ []
  running : y.more = true → ∃ C done, F.Runs (some []) C (P ++ y.out) done y.filter ∧
    C ++ (w.drop y.insize ++ l) = whole ∧ (done = true → w.drop y.insize ++ l = [])

variable {C w l : Str} {done : Bool} {room : Nat} {q : φ}

theorem call_ok (c : F.Contract (some []) total accepts ends) (h : F.Runs (some []) C P done q)
    (hwhole : C ++ (w ++ l) = whole) (hdone : done = true → w ++ l = []) (hw : w = [] → l = [])
    (hroom : 0 < room) {y : Filtered φ} (hy : F.call q (some w) room = .ok y) :
    Called F total whole P w l room y := by
  by_cases hnil : w = []
  · -- the end of the input is a call without bytes
    subst hnil
    have hl := hw rfl
    subst hl
    have hC : C = whole := by simpa using hwhole
    have hcall := c.finish h hroom hy
    refine ⟨by simp [hcall.insize_eq], hcall.out_le, ?_, ?_, ?_⟩
    · intro hmore
      rw [hcall.ended hmore, hC]
    · intro hmore
      exact .inr (hcall.progress hmore)
    · intro hmore
      exact ⟨C, true, .finish h hroom hy hmore, by simpa using hC, by simp⟩
  · have hfalse : done = false := by
      cases done with
      | false => rfl
      | true => exact absurd (List.append_eq_nil_iff.mp (hdone rfl)).1 hnil
    subst hfalse
    have hcall := c.data h hnil hroom hy
    have hsplit : C ++ w.take y.insize ++ (w.drop y.insize ++ l) = whole := by
      rw [← hwhole, List.append_assoc, ← List.append_assoc (w.take _), List.take_append_drop]
    refine ⟨hcall.insize_le, hcall.out_le, ?_, hcall.progress, ?_⟩
    · intro hmore
      obtain ⟨hends, hout, -⟩ := hcall.ended hmore
      rw [hout, ← hsplit, c.total_ends hends]
    · intro hmore
      exact ⟨_, false, .data h hnil hroom hy hmore, hsplit, by simp⟩

theorem call_error (c : F.Contract (some []) total accepts ends) (h : F.Runs (some []) C P done q)
    (hwhole : C ++ (w ++ l) = whole) (hdone : done = true → w ++ l = []) (hw : w = [] → l = [])
    (hroom : 0 < room) {e : Exception} (hy : F.call q (some w) room = .error e) :
    ¬ accepts whole := by
  by_cases hnil : w = []
  · subst hnil
    have hC : C = whole := by simpa [hw rfl] using hwhole
    exact hC ▸ c.finish_throws h hroom hy
  · have hfalse : done = false := by
      cases done with
      | false => rfl
      | true => exact absurd (List.append_eq_nil_iff.mp (hdone rfl)).1 hnil
    subst hfalse
    rw [← hwhole, ← List.append_assoc]
    exact c.data_throws h hnil hroom hy l

/-! ### The loop -/

/-- What holds in front of a round of a `read` that began when `P` had been read. -/
def Inside (F : Filter φ) (S : Source τ) (total : Str → Str) (whole P : Str) (len : Nat)
    (r : Reading φ τ) : Prop :=
  Standing F S total whole r.toFilteredInputStream (P ++ r.rbuf) ∧ r.rbuf.length ≤ r.len ∧
    r.len = len

/-- What a `read` has done when `P` had been read: it has thrown, which it only does for a stream
    that is not accepted, or it has given as many bytes as there was room for, unless it is at the
    end. -/
def Done (F : Filter φ) (S : Source τ) (total : Str → Str) (accepts : Str → Prop) (whole P : Str)
    (len : Nat) : Answer φ τ → Prop
  | .error _ => ¬ accepts whole
  | .ok (rbuf, _, s) => Standing F S total whole s (P ++ rbuf) ∧ rbuf.length ≤ len ∧
      (s.more = true → rbuf.length = len)

/-- What a round makes smaller before anything else. -/
def remaining (S : Source τ) (r : Reading φ τ) : Nat :=
  if r.more = true then (r.rest S).length + 1 else 0

theorem readRound_spec (c : F.Contract (some []) total accepts ends) {len : Nat}
    {r : Reading φ τ} (h : Inside F S total whole P len r) :
    (∃ x, readRound F S r = some (.inl x) ∧ Done F S total accepts whole P len x) ∨
      ∃ t, Loop.Next (readRound F S) r t ∧ Inside F S total whole P len t ∧
        (remaining S t < remaining S r ∨ remaining S t = remaining S r ∧
          t.len - t.rbuf.length < r.len - r.rbuf.length) := by
  obtain ⟨hstanding, hlen, rfl⟩ := h
  by_cases hgo : r.more = true ∧ r.rbuf.length < r.len
  swap
  · refine .inl ⟨_, if_neg hgo, hstanding, hlen, ?_⟩
    intro hmore
    have hnot : ¬ r.rbuf.length < r.len := fun hlt => hgo ⟨hmore, hlt⟩
    omega
  cases hstanding with
  | ended hmore _ => exact absurd hgo.1 (by simp [hmore])
  | running hmore hruns hrest hdone hpos =>
    have hfill := fill_spec (S := S) r hpos
    generalize hr' : fill S r = r' at hfill
    have hwindow : r'.window = [] → S.left r'.f = [] := by
      intro hnil
      have hnone := hfill.window_nil hnil
      rw [← hfill.rest_eq] at hnone
      exact (List.append_eq_nil_iff.mp hnone).2
    rw [← hfill.rest_eq] at hrest hdone
    rw [← hfill.filter_eq] at hruns
    have hroom : 0 < r'.len - r'.rbuf.length := by
      rw [hfill.len_eq, hfill.rbuf_eq]
      exact Nat.sub_pos_of_lt hgo.2
    cases hy : F.call r'.filter (some r'.window) (r'.len - r'.rbuf.length) with
    | error e =>
      refine .inl ⟨.error e, ?_, call_error c hruns hrest hdone hwindow hroom hy⟩
      simp only [readRound, if_pos hgo, hr', hy]
    | ok y =>
      have hcalled := call_ok c hruns hrest hdone hwindow hroom hy
      obtain ⟨hwin, hposs⟩ := advance_spec hfill.pos_le hfill.valid_le hcalled.insize_le
      have hleft : ((r'.advance y.insize).rest S).length + y.insize = (r'.rest S).length := by
        have hle := hcalled.insize_le
        simp only [rest, hwin, List.length_append, List.length_drop]
        show _ + (S.left r'.f).length + _ = _
        omega
      have hout : P ++ (r'.rbuf ++ y.out) = P ++ r.rbuf ++ y.out := by
        rw [hfill.rbuf_eq, List.append_assoc]
      have hshort : (r'.rbuf ++ y.out).length ≤ r'.len := by
        have hle := hcalled.out_le
        rw [List.length_append]
        omega
      refine .inr ⟨{ r' with
        filter := y.filter
        more := y.more
        pos := if r'.pos + y.insize = r'.valid then 0 else r'.pos + y.insize
        valid := if r'.pos + y.insize = r'.valid then 0 else r'.valid
        rbuf := r'.rbuf ++ y.out }, ?_, ⟨?_, hshort, hfill.len_eq⟩, ?_⟩
      · simp only [Loop.Next, readRound, if_pos hgo, hr', hy]
      · rw [hout]
        cases hm : y.more with
        | false => exact .ended rfl (hcalled.ended hm)
        | true =>
          obtain ⟨C', done', hruns', hwhole, hend⟩ := hcalled.running hm
          rw [← hwin] at hwhole hend
          exact .running rfl hruns' hwhole hend hposs
      · cases hm : y.more with
        | false =>
          left
          simp [remaining, hmore]
        | true =>
          have hr : remaining S r = ((r'.advance y.insize).rest S).length + y.insize + 1 := by
            rw [remaining, if_pos hmore, ← hfill.rest_eq, hleft]
          rw [hr]
          rcases Nat.eq_zero_or_pos y.insize with hzero | hpos
          · right
            have hne : y.out ≠ [] := (hcalled.progress hm).resolve_left (by simp [hzero])
            have hlength := List.length_pos_iff.mpr hne
            refine ⟨by rw [hzero]; rfl, ?_⟩
            rw [List.length_append] at hshort ⊢
            rw [← hfill.len_eq, ← hfill.rbuf_eq]
            show r'.len - _ < _
            omega
          · left
            show ((r'.advance y.insize).rest S).length + 1 < _
            omega

/-- **A `read` ends, and is right.** -/
theorem read_spec (c : F.Contract (some []) total accepts ends) (h : Standing F S total whole s P)
    (len : Nat) : ∃ x n₀, (∀ n, n₀ ≤ n → read F S n s len = some x) ∧
      Done F S total accepts whole P len x := by
  have hstart : Inside F S total whole P len { s with len := len } :=
    ⟨by simpa using h, Nat.zero_le _, rfl⟩
  obtain ⟨x, ⟨n₀, hn₀⟩, hdone⟩ := Loop.exists_returns
    (Loop.wellFounded_lex (remaining S) fun r => r.len - r.rbuf.length)
    (fun r hr => readRound_spec c hr) hstart
  exact ⟨x, n₀, fun n hn => Loop.run_mono hn₀ hn, hdone⟩

theorem Standing.prefix_total (c : F.Contract (some []) total accepts ends)
    (h : Standing F S total whole s P) : P <+: total whole := by
  cases h with
  | running _ hruns hrest hdone _ => exact hrest ▸ c.produced_prefix hruns hdone
  | ended _ hP => exact hP ▸ List.prefix_refl _

/-- What some reads have done when `P` had been read. -/
def AllDone (F : Filter φ) (S : Source τ) (total : Str → Str) (accepts : Str → Prop)
    (whole P : Str) (lens : List Nat) :
    Except Exception (List Str × FilteredInputStream φ τ) → Prop
  | .error _ => ¬ accepts whole
  | .ok (rbufs, s) => Standing F S total whole s (P ++ rbufs.flatten) ∧
      rbufs.flatten.length ≤ lens.sum ∧
      (rbufs.flatten.length = lens.sum ∨ P ++ rbufs.flatten = total whole)

theorem readAll_spec (c : F.Contract (some []) total accepts ends)
    (h : Standing F S total whole s P) (lens : List Nat) :
    ∃ x n₀, (∀ n, n₀ ≤ n → readAll F S n s lens = some x) ∧
      AllDone F S total accepts whole P lens x := by
  induction lens generalizing s P with
  | nil => exact ⟨.ok ([], s), 0, fun n _ => rfl, by simpa using h, by simp, by simp⟩
  | cons len lens ih =>
    obtain ⟨x, n₁, hread, hdone⟩ := read_spec c h len
    cases x with
    | error e =>
      refine ⟨.error e, n₁, ?_, hdone⟩
      intro n hn
      rw [readAll, hread n hn]
    | ok x =>
      obtain ⟨rbuf, totalRead, s₁⟩ := x
      obtain ⟨hstanding, hle, hfull⟩ := hdone
      obtain ⟨y, n₂, hall, hrest⟩ := ih hstanding
      refine ⟨y.map fun x => (rbuf :: x.1, x.2), max n₁ n₂, ?_, ?_⟩
      · intro n hn
        rw [readAll, hread n (le_trans (le_max_left _ _) hn)]
        simp only [hall n (le_trans (le_max_right _ _) hn), Option.map_some]
      cases y with
      | error e => exact hrest
      | ok y =>
        obtain ⟨rbufs, s₂⟩ := y
        obtain ⟨hstands, hle', hor⟩ := hrest
        have hflat : P ++ (rbuf :: rbufs).flatten = P ++ rbuf ++ rbufs.flatten := by simp
        have hlength : (rbuf :: rbufs).flatten.length = rbuf.length + rbufs.flatten.length := by
          simp
        refine ⟨hflat ▸ hstands, by rw [hlength, List.sum_cons]; omega, ?_⟩
        rw [hflat, hlength, List.sum_cons]
        cases hm : s₁.more with
        | true =>
          rw [hfull hm]
          exact hor.imp_left (congrArg (len + ·))
        | false =>
          -- nothing comes after the end
          right
          have hend : P ++ rbuf = total whole := by
            cases hstanding with
            | running hmore => rw [hm] at hmore; cases hmore
            | ended _ hP => exact hP
          have hpre := hstands.prefix_total c
          rw [← hend] at hpre ⊢
          have hnil : rbufs.flatten = [] := by
            have hlen := hpre.length_le
            rw [List.length_append] at hlen
            exact List.length_eq_zero_iff.mp (by omega)
          rw [hnil, List.append_nil]

/-- **Reading gives what the filter makes of the stream**, in whatever lengths it is asked for. -/
theorem readAll_opened (c : F.Contract (some []) total accepts ends) (f : τ) (lens : List Nat) :
    ∃ x n₀, (∀ n, n₀ ≤ n → readAll F S n (opened F f) lens = some x) ∧
      (accepts (S.left f) → ∃ rbufs s, x = .ok (rbufs, s) ∧
        rbufs.flatten = (total (S.left f)).take lens.sum) := by
  have hstart : Standing F S total (S.left f) (opened F f) [] := standing_opened f
  obtain ⟨x, n₀, hall, hdone⟩ := readAll_spec c hstart lens
  refine ⟨x, n₀, hall, ?_⟩
  intro haccepts
  cases x with
  | error e => exact absurd haccepts hdone
  | ok x =>
    obtain ⟨rbufs, s⟩ := x
    obtain ⟨hstanding, hle, hor⟩ := hdone
    refine ⟨rbufs, s, rfl, ?_⟩
    have hpre := hstanding.prefix_total c
    rw [List.nil_append] at hpre hor
    cases hor with
    | inl hlength =>
      rw [← hlength]
      exact List.prefix_iff_eq_take.mp hpre
    | inr htotal => rw [← htotal, List.take_of_length_le hle]

end FilteredInputStream

/-! ## Writing gives what the filter makes of what is written -/

namespace FilteredOutputStream

variable {φ : Type} {F : Filter φ} {total : Str → Str} {accepts ends : Str → Prop} {C W : Str}
  {s : FilteredOutputStream φ Str}

/-- The stream in front of a round or a call, when the filter has taken `C`: what it has made of
    that is what stands in the stream below. -/
inductive Written (F : Filter φ) (total : Str → Str) (ends : Str → Prop) :
    FilteredOutputStream φ Str → Str → Prop
  | running {s : FilteredOutputStream φ Str} {C : Str} (hruns : F.Runs none C s.f false s.filter)
      (hflushed : s.flushed = false) : Written F total ends s C
  | ended {s : FilteredOutputStream φ Str} {C : Str} (hends : ends C) (hf : s.f = total C)
      (hwithin : ∀ C₀, ends C₀ → C₀ <+: C → C₀ = C) (hspent : F.Spent s.filter)
      (hflushed : s.flushed = false) : Written F total ends s C

theorem written_opened : Written F total ends (opened F []) [] := .running .start rfl

theorem Written.flushed (h : Written F total ends s C) : s.flushed = false := by
  cases h with
  | running _ hflushed => exact hflushed
  | ended _ _ _ _ hflushed => exact hflushed

theorem Written.within (c : F.Contract none total accepts ends) (h : Written F total ends s C)
    {C₀ : Str} (hends : ends C₀) (hpre : C₀ <+: C) : C₀ = C := by
  cases h with
  | running hruns _ => exact c.within hruns hends hpre
  | ended _ _ hwithin _ _ => exact hwithin C₀ hends hpre

/-- What a `write` has done that ends when `W` has been written: it has thrown, because the filter
    rejects that or because there is something behind the end, or `W` is written. -/
def Done (F : Filter φ) (total : Str → Str) (accepts ends : Str → Prop) (W : Str) :
    Answer φ Str → Prop
  | (.error _, s) => (∀ t, ¬ accepts (W ++ t)) ∨ ∃ C g, g ≠ [] ∧ W = C ++ g ∧ ends C ∧ s.f = total C
  | (.ok _, s) => Written F total ends s W

/-- What holds in front of a round of a `write`. -/
def Inside (F : Filter φ) (total : Str → Str) (ends : Str → Prop) (W : Str)
    (w : Writing φ Str) : Prop :=
  ∃ C, Written F total ends w.toFilteredOutputStream C ∧ C ++ w.wb = W

/-- What the filter may still produce of what it has taken. -/
def owed (total : Str → Str) (W : Str) (w : Writing φ Str) : Nat :=
  (total (W.take (W.length - w.wb.length))).length - w.f.length

/-- The locals after a call of the filter, when the stream below takes everything. -/
def called (w : Writing φ Str) (y : Filtered φ) : Writing φ Str :=
  { w with
    f := w.f ++ y.out
    filter := y.filter
    more := y.more
    wb := w.wb.drop y.insize
    written := w.written + y.out.length }

theorem writeRound_error {w : Writing φ Str} {e : Exception} (hnil : w.wb ≠ [])
    (hy : F.call w.filter (some w.wb) BUF_SIZE = .error e) :
    writeRound F StringOutputStream w = some (.inl (.error e, w.toFilteredOutputStream)) := by
  rw [writeRound, if_neg hnil, hy]

theorem writeRound_ok {w : Writing φ Str} {y : Filtered φ} (hnil : w.wb ≠ [])
    (hy : F.call w.filter (some w.wb) BUF_SIZE = .ok y) :
    writeRound F StringOutputStream w =
      if y.more = true then some (.inr (called w y))
      else if (called w y).wb ≠ [] then
        some (.inl (.error garbage, (called w y).toFilteredOutputStream))
      else some (.inl (.ok (called w y).written, (called w y).toFilteredOutputStream)) := by
  rw [writeRound, if_neg hnil, hy]
  rfl

theorem writeRound_spec (c : F.Contract none total accepts ends) {w : Writing φ Str}
    (h : Inside F total ends W w) :
    (∃ x, writeRound F StringOutputStream w = some (.inl x) ∧ Done F total accepts ends W x) ∨
      ∃ t, Loop.Next (writeRound F StringOutputStream) w t ∧ Inside F total ends W t ∧
        (t.wb.length < w.wb.length ∨ t.wb.length = w.wb.length ∧
          owed total W t < owed total W w) := by
  obtain ⟨C, hwritten, hW⟩ := h
  by_cases hnil : w.wb = []
  · refine .inl ⟨_, if_pos hnil, ?_⟩
    rw [hnil, List.append_nil] at hW
    exact hW ▸ hwritten
  have hbuf : 0 < BUF_SIZE := by decide
  cases hwritten with
  | ended hends hf hwithin hspent hflushed =>
    left
    cases hy : F.call w.filter (some w.wb) BUF_SIZE with
    | error e =>
      exact ⟨_, writeRound_error hnil hy, Or.inr ⟨C, w.wb, hnil, hW.symm, hends, hf⟩⟩
    | ok y =>
      obtain ⟨hmore, hinsize, hout⟩ := hspent _ _ y hbuf hy
      have hrest : (called w y).wb = w.wb := by simp [called, hinsize]
      refine ⟨(.error garbage, (called w y).toFilteredOutputStream), ?_,
        Or.inr ⟨C, w.wb, hnil, hW.symm, hends, ?_⟩⟩
      · rw [writeRound_ok hnil hy, if_neg (by simp [hmore]), if_pos (by rwa [hrest])]
      · simpa [called, hout] using hf
  | running hruns hflushed =>
    cases hy : F.call w.filter (some w.wb) BUF_SIZE with
    | error e =>
      refine .inl ⟨_, writeRound_error hnil hy, Or.inl ?_⟩
      rw [← hW]
      exact c.data_throws hruns hnil hbuf hy
    | ok y =>
      have hcall := c.data hruns hnil hbuf hy
      have hsplit : C ++ w.wb.take y.insize ++ (called w y).wb = W := by
        rw [← hW, List.append_assoc]
        exact congrArg (C ++ ·) (List.take_append_drop _ _)
      cases hm : y.more with
      | false =>
        obtain ⟨hends, hout, hspent⟩ := hcall.ended hm
        left
        by_cases hlast : (called w y).wb = []
        · rw [hlast, List.append_nil] at hsplit
          refine ⟨(.ok (called w y).written, (called w y).toFilteredOutputStream), ?_,
            Written.ended (hsplit ▸ hends) (hsplit ▸ hout) ?_ hspent hflushed⟩
          · rw [writeRound_ok hnil hy, if_neg (by simp [hm]), if_neg (by simp [hlast])]
          · exact hsplit ▸ hcall.within
        · refine ⟨(.error garbage, (called w y).toFilteredOutputStream), ?_,
            Or.inr ⟨_, _, hlast, hsplit.symm, hends, hout⟩⟩
          rw [writeRound_ok hnil hy, if_neg (by simp [hm]), if_pos hlast]
      | true =>
        right
        have hruns' := Filter.Runs.data hruns hnil hbuf hy hm
        refine ⟨called w y, ?_, ⟨_, .running hruns' hflushed, hsplit⟩, ?_⟩
        · rw [Loop.Next, writeRound_ok hnil hy, if_pos hm]
        · have hdrop : (called w y).wb.length = w.wb.length - y.insize := List.length_drop
          rcases Nat.eq_zero_or_pos y.insize with hzero | hpos
          · right
            rw [hzero, Nat.sub_zero] at hdrop
            refine ⟨hdrop, ?_⟩
            have hne := List.length_pos_iff.mpr ((hcall.progress hm).resolve_left (by simp [hzero]))
            have hbound := (c.produced hruns' []).length_le
            have htaken : W.take (W.length - w.wb.length) = C := by
              rw [← hW, List.length_append, Nat.add_sub_cancel, List.take_left]
            simp only [hzero, List.take_zero, List.append_nil, List.length_append] at hbound
            rw [owed, owed, hdrop, htaken]
            simp only [called, List.length_append]
            omega
          · left
            have hlength := List.length_pos_iff.mpr hnil
            omega

/-- **A `write` ends, and is right.** -/
theorem write_spec (c : F.Contract none total accepts ends) (h : Written F total ends s C)
    (wbuf : Str) : ∃ x n₀, (∀ n, n₀ ≤ n → write F StringOutputStream n s wbuf = some x) ∧
      Done F total accepts ends (C ++ wbuf) x := by
  have hstart : Inside F total ends (C ++ wbuf) { s with wb := wbuf } := ⟨C, h, rfl⟩
  obtain ⟨x, ⟨n₀, hn₀⟩, hdone⟩ := Loop.exists_returns
    (Loop.wellFounded_lex (fun w => w.wb.length) (owed total (C ++ wbuf)))
    (fun w hw => writeRound_spec c hw) hstart
  refine ⟨x, n₀, ?_, hdone⟩
  intro n hn
  rw [write, if_neg (by simp [h.flushed])]
  exact Loop.run_mono hn₀ hn

/-- What some writes have done that end when `W` has been written. -/
def AllDone (F : Filter φ) (total : Str → Str) (accepts ends : Str → Prop) (W : Str) :
    Except Exception Unit × FilteredOutputStream φ Str → Prop
  | (.error _, s) => (∀ t, ¬ accepts (W ++ t)) ∨ ∃ C g, g ≠ [] ∧ W = C ++ g ∧ ends C ∧ s.f = total C
  | (.ok _, s) => Written F total ends s W

theorem writeAll_spec (c : F.Contract none total accepts ends) (h : Written F total ends s C)
    (wbufs : List Str) : ∃ x n₀,
      (∀ n, n₀ ≤ n → writeAll F StringOutputStream n s wbufs = some x) ∧
      AllDone F total accepts ends (C ++ wbufs.flatten) x := by
  induction wbufs generalizing s C with
  | nil => exact ⟨(.ok (), s), 0, fun n _ => rfl, by simpa [AllDone] using h⟩
  | cons wbuf wbufs ih =>
    obtain ⟨x, n₁, hwrite, hdone⟩ := write_spec c h wbuf
    obtain ⟨x, s₁⟩ := x
    have hflat : C ++ (wbuf :: wbufs).flatten = C ++ wbuf ++ wbufs.flatten := by simp
    rw [hflat]
    cases x with
    | error e =>
      refine ⟨(.error e, s₁), n₁, ?_, ?_⟩
      · intro n hn
        rw [writeAll, hwrite n hn]
      cases hdone with
      | inl hrejects =>
        left
        intro t
        rw [List.append_assoc]
        exact hrejects _
      | inr hbehind =>
        obtain ⟨C₀, g, hg, hC, hends, hf⟩ := hbehind
        exact .inr ⟨C₀, g ++ wbufs.flatten, by simp [hg], by rw [hC, List.append_assoc], hends, hf⟩
    | ok k =>
      obtain ⟨y, n₂, hall, hrest⟩ := ih hdone
      refine ⟨y, max n₁ n₂, ?_, hrest⟩
      intro n hn
      rw [writeAll, hwrite n (le_trans (le_max_left _ _) hn)]
      exact hall n (le_trans (le_max_right _ _) hn)

/-! ### The flush -/

/-- What holds in front of a round of `flushBuffers` when `W` has been written. -/
def Flushes (F : Filter φ) (total : Str → Str) (W : Str) (w : Flushing φ Str) : Prop :=
  (∃ done, F.Runs none W w.f done w.filter) ∨ w.f = total W ∧ F.Spent w.filter

/-- The locals after a call of the filter. -/
def drained (w : Flushing φ Str) (y : Filtered φ) : Flushing φ Str :=
  { w with
    f := w.f ++ y.out
    filter := y.filter
    more := y.more
    written := w.written + y.out.length }

theorem flushRound_error {w : Flushing φ Str} {e : Exception}
    (hy : F.call w.filter none BUF_SIZE = .error e) :
    flushRound F StringOutputStream w = some (.inl (.error e, w.toFilteredOutputStream)) := by
  rw [flushRound, hy]

theorem flushRound_ok {w : Flushing φ Str} {y : Filtered φ}
    (hy : F.call w.filter none BUF_SIZE = .ok y) :
    flushRound F StringOutputStream w =
      if y.more = true then some (.inr (drained w y))
      else some (.inl (.ok (drained w y).written, (drained w y).toFilteredOutputStream)) := by
  rw [flushRound, hy]
  rfl

theorem flushRound_spec (c : F.Contract none total accepts ends) {w : Flushing φ Str}
    (h : Flushes F total W w) :
    (∃ x, flushRound F StringOutputStream w = some (.inl x) ∧ (accepts W → x.2.f = total W)) ∨
      ∃ t, Loop.Next (flushRound F StringOutputStream) w t ∧ Flushes F total W t ∧
        (total W).length - t.f.length < (total W).length - w.f.length := by
  have hbuf : 0 < BUF_SIZE := by decide
  cases h with
  | inr hspent =>
    obtain ⟨hf, hspent⟩ := hspent
    left
    cases hy : F.call w.filter none BUF_SIZE with
    | error e => exact ⟨_, flushRound_error hy, fun _ => hf⟩
    | ok y =>
      obtain ⟨hmore, -, hout⟩ := hspent _ _ y hbuf hy
      refine ⟨(.ok (drained w y).written, (drained w y).toFilteredOutputStream), ?_, ?_⟩
      · rw [flushRound_ok hy, if_neg (by simp [hmore])]
      · simpa [drained, hout] using fun _ => hf
  | inl hruns =>
    obtain ⟨done, hruns⟩ := hruns
    cases hy : F.call w.filter none BUF_SIZE with
    | error e =>
      refine .inl ⟨_, flushRound_error hy, ?_⟩
      intro haccepts
      exact absurd haccepts (c.finish_throws hruns hbuf hy)
    | ok y =>
      have hcall := c.finish hruns hbuf hy
      cases hm : y.more with
      | false =>
        refine .inl ⟨(.ok (drained w y).written, (drained w y).toFilteredOutputStream), ?_, ?_⟩
        · rw [flushRound_ok hy, if_neg (by simp [hm])]
        · exact fun _ => hcall.ended hm
      | true =>
        have hruns' := Filter.Runs.finish hruns hbuf hy hm
        refine .inr ⟨drained w y, ?_, .inl ⟨true, hruns'⟩, ?_⟩
        · rw [Loop.Next, flushRound_ok hy, if_pos hm]
        · have hlength := List.length_pos_iff.mpr (hcall.progress hm)
          have hbound := (c.produced_done hruns').length_le
          simp only [drained, List.length_append] at hbound ⊢
          omega

/-- **A flush ends, and leaves all that the filter makes of what has been written.** -/
theorem flushBuffers_spec (c : F.Contract none total accepts ends) (h : Written F total ends s W)
    (aForce : Bool) : ∃ x n₀,
      (∀ n, n₀ ≤ n → flushBuffers F StringOutputStream n s aForce = some x) ∧
      (accepts W → x.2.f = total W) := by
  have hstart : Flushes F total W { s with flushed := true, aForce := aForce } := by
    cases h with
    | running hruns _ => exact .inl ⟨false, hruns⟩
    | ended _ hf _ hspent _ => exact .inr ⟨hf, hspent⟩
  obtain ⟨x, ⟨n₀, hn₀⟩, hdone⟩ := Loop.exists_returns
    (measure fun w : Flushing φ Str => (total W).length - w.f.length).wf
    (fun w hw => flushRound_spec c hw) hstart
  refine ⟨x, n₀, ?_, hdone⟩
  intro n hn
  rw [flushBuffers, if_neg (by simp [h.flushed])]
  exact Loop.run_mono hn₀ hn

/-- **Writing leaves what the filter makes of all that is written**, in whatever pieces. -/
theorem writeAndFlush_opened (c : F.Contract none total accepts ends) (wbufs : List Str)
    (aForce : Bool) : ∃ x n₀,
      (∀ n, n₀ ≤ n →
        writeAndFlush F StringOutputStream n (opened F []) wbufs aForce = some x) ∧
      (accepts wbufs.flatten → x.2.f = total wbufs.flatten) := by
  obtain ⟨x, n₁, hall, hdone⟩ := writeAll_spec c written_opened wbufs
  rw [List.nil_append] at hdone
  obtain ⟨x, s⟩ := x
  cases x with
  | error e =>
    refine ⟨(.error e, s), n₁, ?_, ?_⟩
    · intro n hn
      rw [writeAndFlush, hall n hn]
    intro haccepts
    cases hdone with
    | inl hrejects => exact absurd haccepts (by simpa using hrejects [])
    | inr hbehind =>
      obtain ⟨C, g, -, hW, hends, hf⟩ := hbehind
      rw [hW, c.total_ends hends]
      exact hf
  | ok u =>
    obtain ⟨y, n₂, hflush, hf⟩ := flushBuffers_spec c hdone aForce
    refine ⟨(y.1.map fun _ => (), y.2), max n₁ n₂, ?_, hf⟩
    intro n hn
    rw [writeAndFlush, hall n (le_trans (le_max_left _ _) hn)]
    simp only [hflush n (le_trans (le_max_right _ _) hn), Option.map_some]

/-- **What stands behind the end is rejected** by the write that brings its first byte, and nothing
    before it is. -/
theorem write_behind_end (c : F.Contract none total accepts ends) {wbufs : List Str}
    {wbuf g : Str} (hends : ends C) (hg : g ≠ []) (hW : wbufs.flatten ++ wbuf = C ++ g)
    (hbefore : wbufs.flatten.length ≤ C.length) : ∃ x s n₀,
      (∀ n, n₀ ≤ n → writeAll F StringOutputStream n (opened F []) wbufs = some (x, s)) ∧
      (accepts (C ++ g) → x = .ok ()) ∧
      (x = .ok () → ∃ e s',
        ∀ n, n₀ ≤ n → write F StringOutputStream n s wbuf = some (.error e, s')) := by
  obtain ⟨x, n₁, hall, hdone⟩ := writeAll_spec c written_opened wbufs
  rw [List.nil_append] at hdone
  obtain ⟨x, s⟩ := x
  have hpre : wbufs.flatten <+: C :=
    List.prefix_of_prefix_length_le ⟨wbuf, hW⟩ (List.prefix_append C g) hbefore
  cases x with
  | error e =>
    refine ⟨.error e, s, n₁, hall, ?_, by simp⟩
    intro haccepts
    cases hdone with
    | inl hrejects => exact absurd haccepts (hW ▸ hrejects wbuf)
    | inr hbehind =>
      -- the writes before do not reach the end
      obtain ⟨C₀, g₀, hg₀, hC₀, hends₀, -⟩ := hbehind
      have hfirst := c.ends_first hends hends₀ (.trans ⟨g₀, hC₀.symm⟩ hpre)
      have hlength := congrArg List.length hC₀
      have hpos := List.length_pos_iff.mpr hg₀
      rw [List.length_append, hfirst] at hlength
      omega
  | ok u =>
    obtain ⟨y, n₂, hwrite, hwritten⟩ := write_spec c hdone wbuf
    obtain ⟨y, s'⟩ := y
    cases y with
    | error e =>
      refine ⟨.ok (), s, max n₁ n₂, ?_, fun _ => rfl, fun _ => ⟨e, s', ?_⟩⟩
      · exact fun n hn => hall n (le_trans (le_max_left _ _) hn)
      · exact fun n hn => hwrite n (le_trans (le_max_right _ _) hn)
    | ok k =>
      -- a filter does not take what stands behind its end
      have hwithin := Written.within c hwritten hends (hW ▸ List.prefix_append C g)
      have hlength := congrArg List.length (hwithin.trans hW)
      have hpos := List.length_pos_iff.mpr hg
      rw [List.length_append] at hlength
      omega

end FilteredOutputStream

/-! ## A stream of one byte -/

namespace UnZFilter

/-- The zlib stream of the text `a`, in a stored block. -/
def stored : Str := [0x78, 0x01, 0x01, 0x01, 0x00, 0xfe, 0xff, 0x61, 0x00, 0x62, 0x00, 0x62]

/-- How much of its input the filter takes after `k` bytes. -/
def count (k : Nat) (i : Str) : Nat := min i.length (12 - k)

/-- What it gives for them. -/
def given (k m : Nat) : Str := if k < 8 ∧ 8 ≤ k + m then [0x61] else []

/-- `inflate` when it has taken the first `k` bytes of that stream. -/
def inflateStored (k : Nat) (i : Str) (_room : Nat) : Inflated Nat :=
  let m := count k i
  if i.take m = (stored.drop k).take m then
    { err := if k + m = 12 then Z_STREAM_END else if m = 0 then Z_BUF_ERROR else Z_OK
      insize := m
      out := given k m
      zs := k + m }
  else { err := -3, insize := m, out := [], zs := k }

abbrev filter : Filter Nat := UnZFilter inflateStored 0

/-- What comes out of the beginning of the stream. -/
def text (C : Str) : Str := if C.take 8 = stored.take 8 then [0x61] else []

variable {eoi : Option Str} {C P i : Str} {done : Bool} {k room : Nat} {y : Filtered Nat}

theorem call_eq (k : Nat) (i : Str) (hroom : 0 < room) : filter.call k (some i) room =
    if i.take (count k i) = (stored.drop k).take (count k i) then
      if k + count k i = 12 then .ok ⟨false, count k i, given k (count k i), k + count k i⟩
      else if count k i = 0 then .error COMPRESSION_ERROR
      else .ok ⟨true, count k i, given k (count k i), k + count k i⟩
    else .error COMPRESSION_ERROR := by
  simp only [filter, UnZFilter, if_neg hroom.ne', inflateStored, Option.getD_some]
  by_cases hmatch : i.take (count k i) = (stored.drop k).take (count k i)
  · by_cases hend : k + count k i = 12
    · simp [hmatch, hend, Z_OK, Z_STREAM_END]
    · by_cases hzero : count k i = 0
      · rw [hzero, Nat.add_zero] at hend
        simp [hzero, hend, Z_OK, Z_STREAM_END, Z_BUF_ERROR]
      · simp [hmatch, hend, hzero, Z_OK]
  · simp [hmatch, Z_OK, Z_STREAM_END, Z_BUF_ERROR]

theorem call_none (k : Nat) (hroom : 0 < room) :
    filter.call k none room = .ok ⟨false, 0, given k 0, k⟩ := by
  have hzero : count k [] = 0 := Nat.zero_min _
  simp only [filter, UnZFilter, if_neg hroom.ne', inflateStored, Option.getD_none, hzero,
    List.take_zero]
  by_cases hend : k = 12
  · simp [hend, Z_OK, Z_STREAM_END]
  · simp [hend, Z_OK, Z_STREAM_END, Z_BUF_ERROR]

/-- The filter at work stands between two bytes of the stream. -/
structure At (C P : Str) (done : Bool) (k : Nat) : Prop where
  taken : C = stored.take k
  lt : k < 12
  produced : P = if 8 ≤ k then [0x61] else []
  done_eq : done = false

theorem At.length (h : At C P done k) : C.length = k := by
  rw [h.taken, List.length_take]
  exact min_eq_left h.lt.le

theorem At.given (h : At C P done k) (m : Nat) :
    P ++ given k m = if 8 ≤ k + m then [0x61] else [] := by
  rw [h.produced, UnZFilter.given]
  split_ifs <;> first | rfl | omega

/-- What a call has taken when it has not thrown, and when there was something to take. -/
theorem At.call (h : At C P done k) (hi : i ≠ []) (hroom : 0 < room)
    (hy : filter.call k (some i) room = .ok y) :
    C ++ i.take (count k i) = stored.take (k + count k i) ∧ count k i ≠ 0 ∧
      y = ⟨decide (k + count k i ≠ 12), count k i, UnZFilter.given k (count k i),
        k + count k i⟩ := by
  have hne : count k i ≠ 0 := by
    have hpos := List.length_pos_iff.mpr hi
    have hlt := h.lt
    simp only [count]
    omega
  rw [call_eq k i hroom] at hy
  split_ifs at hy with hmatch hend
  · cases hy
    exact ⟨by rw [h.taken, hmatch, List.take_add], hne, by simp [hend]⟩
  · cases hy
    exact ⟨by rw [h.taken, hmatch, List.take_add], hne, by simp [hend]⟩

theorem at_of_runs (heoi : eoi = none ∨ eoi = some []) (h : filter.Runs eoi C P done k) :
    At C P done k := by
  induction h with
  | start => exact ⟨rfl, by decide, rfl, rfl⟩
  | @data C P i room k y h hi hroom hy hmore ih =>
    obtain ⟨htaken, -, rfl⟩ := ih.call hi hroom hy
    have hlt : k + count k i ≠ 12 := by simpa using hmore
    refine ⟨htaken, ?_, ih.given _, rfl⟩
    have hk := ih.lt
    simp only [count] at hlt ⊢
    omega
  | finish h hroom hy hmore ih =>
    exfalso
    cases heoi with
    | inl hnone =>
      rw [hnone, call_none _ hroom] at hy
      cases hy
      cases hmore
    | inr hsome =>
      have hzero : ∀ k, count k [] = 0 := fun k => Nat.zero_min _
      rw [hsome, call_eq _ _ hroom, hzero] at hy
      simp only [List.take_zero, if_true] at hy
      split_ifs at hy
      cases hy
      cases hmore

theorem text_append (h : At C P done k) (t : Str) : P <+: text (C ++ t) := by
  rw [h.produced]
  split_ifs with hk
  · have hC : (C ++ t).take 8 = stored.take 8 := by
      rw [List.take_append_of_le_length (by rw [h.length]; exact hk), h.taken, List.take_take,
        min_eq_left hk]
    rw [text, if_pos hC]
  · exact List.nil_prefix

theorem spent : filter.Spent 12 := by
  intro i room y hroom hy
  cases i with
  | none =>
    rw [call_none _ hroom] at hy
    cases hy
    exact ⟨rfl, rfl, rfl⟩
  | some i =>
    have hzero : count 12 i = 0 := Nat.min_zero _
    rw [call_eq _ _ hroom, hzero] at hy
    cases hy
    exact ⟨rfl, rfl, rfl⟩

theorem dataCall (h : At C P done k) (hi : i ≠ []) (hroom : 0 < room)
    (hy : filter.call k (some i) room = .ok y) :
    filter.DataCall text (· = stored) C P i room y := by
  obtain ⟨htaken, hne, rfl⟩ := h.call hi hroom hy
  have hk := h.lt
  refine ⟨min_le_left _ _, ?_, fun _ => .inl hne, ?_, ?_⟩
  · simp only [given]
    split_ifs
    · exact hroom
    · exact Nat.zero_le _
  · intro C₀ hends hpre
    have hlen := hpre.length_le
    rw [htaken, hends, List.length_take] at hlen
    rw [htaken, hends, List.take_of_length_le]
    exact le_trans hlen (min_le_left _ _)
  · intro hmore
    have hend : k + count k i = 12 := by simpa using hmore
    rw [htaken, h.given, hend]
    exact ⟨rfl, rfl, spent⟩

/-- The input goes on as the stream does, or ends before that, or goes on behind it. -/
def Agrees (C : Str) : Prop := ∀ m, m ≤ 12 → m ≤ C.length → C.take m = stored.take m

theorem data_throws (h : At C P done k) (hi : i ≠ []) (hroom : 0 < room) {e : Exception}
    (hy : filter.call k (some i) room = .error e) (t : Str) : ¬ Agrees (C ++ i ++ t) := by
  intro hagrees
  have hk := h.lt
  have hpos := List.length_pos_iff.mpr hi
  have hm : count k i ≤ i.length := min_le_left _ _
  have htake := hagrees (k + count k i) (by simp only [count]; omega)
    (by simp only [List.length_append, h.length]; omega)
  have hsplit : (C ++ i ++ t).take (k + count k i) = C ++ i.take (count k i) := by
    rw [List.append_assoc, List.take_append, h.length, Nat.add_sub_cancel_left,
      List.take_of_length_le (by rw [h.length]; omega), List.take_append_of_le_length hm]
  rw [hsplit, List.take_add, ← h.taken, List.append_cancel_left_eq] at htake
  rw [call_eq _ _ hroom, if_pos htake] at hy
  split_ifs at hy with hend hzero
  simp only [count] at hzero
  omega

theorem ends_first {C₀ : Str} (hC : C = stored) (hC₀ : C₀ = stored) (_ : C₀ <+: C) : C₀ = C :=
  hC₀.trans hC.symm

theorem total_ends (hC : C = stored) (t : Str) : text (C ++ t) = text C := by
  rw [hC]
  rfl

/-- The flush ends where it is, for there is nothing left to give. -/
theorem finishCall (h : At C P done k) (hroom : 0 < room) (hy : filter.call k none room = .ok y) :
    filter.FinishCall text C P room y := by
  rw [call_none _ hroom] at hy
  cases hy
  have hgiven : given k 0 = [] := if_neg (by omega)
  rw [hgiven]
  refine ⟨rfl, Nat.zero_le _, by simp, ?_⟩
  intro _
  rw [List.append_nil, h.produced, text]
  congr 1
  rw [eq_iff_iff, h.taken, List.take_take]
  constructor
  · intro hk
    rw [min_eq_left hk]
  · intro htake
    have hlength := congrArg List.length htake
    simp only [List.length_take, show stored.length = 12 from rfl] at hlength
    omega

/-- Reading does not end there. -/
theorem call_nil (h : At C P done k) (hroom : 0 < room) :
    filter.call k (some []) room = .error COMPRESSION_ERROR := by
  have hzero : count k [] = 0 := Nat.zero_min _
  rw [call_eq _ _ hroom, hzero, List.take_zero, List.take_zero, if_pos rfl, Nat.add_zero,
    if_neg h.lt.ne, if_pos rfl]

/-- **The contract, with the flush**, which does not mind that the stream is not complete. -/
theorem contract_none : filter.Contract none text Agrees (· = stored) where
  data h hi hroom hy := dataCall (at_of_runs (.inl rfl) h) hi hroom hy
  finish h hroom hy := finishCall (at_of_runs (.inl rfl) h) hroom hy
  produced h t := text_append (at_of_runs (.inl rfl) h) t
  produced_done h := absurd (at_of_runs (.inl rfl) h).done_eq (by simp)
  total_ends := total_ends
  ends_first := ends_first
  data_throws h hi hroom hy t := data_throws (at_of_runs (.inl rfl) h) hi hroom hy t
  finish_throws h hroom hy := by
    rw [call_none _ hroom] at hy
    cases hy

theorem agrees_of_front (h : stored <+: C) : Agrees C := by
  intro m hm _
  obtain ⟨t, rfl⟩ := h
  exact List.take_append_of_le_length hm

/-- **The contract, with reading**, which does. -/
theorem contract_some : filter.Contract (some []) text (stored <+: ·) (· = stored) where
  data h hi hroom hy := dataCall (at_of_runs (.inr rfl) h) hi hroom hy
  finish h hroom hy := by
    rw [call_nil (at_of_runs (.inr rfl) h) hroom] at hy
    cases hy
  produced h t := text_append (at_of_runs (.inr rfl) h) t
  produced_done h := absurd (at_of_runs (.inr rfl) h).done_eq (by simp)
  total_ends := total_ends
  ends_first := ends_first
  data_throws h hi hroom hy t hpre :=
    data_throws (at_of_runs (.inr rfl) h) hi hroom hy t (agrees_of_front hpre)
  finish_throws h hroom hy hpre := by
    have hat := at_of_runs (.inr rfl) h
    have hlt := hat.lt
    have hle : 12 ≤ _ := hpre.length_le
    rw [hat.length] at hle
    omega

end UnZFilter

/-! ## The pieces do not show -/

/-- **Filtered streams do not depend on buffering.** Whatever the filter is, as long as it keeps its
    contract: all reads and writes end, also where the input ends too early. The reads of an input
    that is not rejected give what the filter makes of it, up to the lengths that were asked for;
    the writes and the flush leave the same bytes as one write and the flush; and what stands behind
    the end of the stream makes the write throw that brings it. -/
theorem buffering_does_not_show {φ : Type} (F : Filter φ) (total : Str → Str)
    (accepts ends : Str → Prop) :
    (F.Contract (some []) total accepts ends →
      ∀ (τ : Type) (S : Source τ) (f : τ) (lens : List Nat), ∃ x n₀,
        (∀ n, n₀ ≤ n → FilteredInputStream.readAll F S n (.opened F f) lens = some x) ∧
        (accepts (S.left f) → ∃ rbufs s, x = .ok (rbufs, s) ∧
          rbufs.flatten = (total (S.left f)).take lens.sum)) ∧
    (F.Contract none total accepts ends →
      (∀ (wbufs : List Str) (aForce : Bool), ∃ x y n₀,
        (∀ n, n₀ ≤ n → FilteredOutputStream.writeAndFlush F StringOutputStream n (.opened F [])
          wbufs aForce = some x) ∧
        (∀ n, n₀ ≤ n → FilteredOutputStream.writeAndFlush F StringOutputStream n (.opened F [])
          [wbufs.flatten] aForce = some y) ∧
        (accepts wbufs.flatten → x.2.f = y.2.f ∧ x.2.f = total wbufs.flatten)) ∧
      ∀ (C g wbuf : Str) (wbufs : List Str), ends C → g ≠ [] →
        wbufs.flatten ++ wbuf = C ++ g → wbufs.flatten.length ≤ C.length → ∃ x s n₀,
          (∀ n, n₀ ≤ n → FilteredOutputStream.writeAll F StringOutputStream n (.opened F [])
            wbufs = some (x, s)) ∧
          (accepts (C ++ g) → x = .ok ()) ∧
          (x = .ok () → ∃ e s', ∀ n, n₀ ≤ n →
            FilteredOutputStream.write F StringOutputStream n s wbuf = some (.error e, s'))) := by
  refine ⟨fun c => ?_, fun c => ⟨?_, ?_⟩⟩
  · intro τ S f lens
    exact FilteredInputStream.readAll_opened c f lens
  · intro wbufs aForce
    obtain ⟨x, n₁, hx, hfx⟩ := FilteredOutputStream.writeAndFlush_opened c wbufs aForce
    obtain ⟨y, n₂, hy, hfy⟩ :=
      FilteredOutputStream.writeAndFlush_opened c [wbufs.flatten] aForce
    refine ⟨x, y, max n₁ n₂, ?_, ?_, ?_⟩
    · exact fun n hn => hx n (le_trans (le_max_left _ _) hn)
    · exact fun n hn => hy n (le_trans (le_max_right _ _) hn)
    · intro haccepts
      have hone : [wbufs.flatten].flatten = wbufs.flatten := by simp
      rw [hone] at hfy
      exact ⟨(hfx haccepts).trans (hfy haccepts).symm, hfx haccepts⟩
  · intro C g wbuf wbufs hends hg hW hbefore
    exact FilteredOutputStream.write_behind_end c hends hg hW hbefore

/-- The stream of one byte, read from a file that gives three bytes at a time, and written in two
    pieces, the second with or without a byte too many. -/
theorem buffering_does_not_show_stored :
    (∃ x n₀, (∀ n, n₀ ≤ n → FilteredInputStream.readAll UnZFilter.filter InputStream.source n
        (.opened UnZFilter.filter (⟨.file UnZFilter.stored 0, trivial⟩, [3, 3, 3, 3]))
          [2, 1] = some x) ∧
      ∃ rbufs s, x = .ok (rbufs, s) ∧ rbufs.flatten = [0x61]) ∧
    (∃ x y n₀,
      (∀ n, n₀ ≤ n → FilteredOutputStream.writeAndFlush UnZFilter.filter StringOutputStream n
        (.opened UnZFilter.filter []) [UnZFilter.stored.take 8, UnZFilter.stored.drop 8] true =
          some x) ∧
      (∀ n, n₀ ≤ n → FilteredOutputStream.writeAndFlush UnZFilter.filter StringOutputStream n
        (.opened UnZFilter.filter []) [UnZFilter.stored] true = some y) ∧ x.2.f = y.2.f ∧
          x.2.f = [0x61]) ∧
    ∃ s n₀, (∀ n, n₀ ≤ n → FilteredOutputStream.writeAll UnZFilter.filter StringOutputStream n
        (.opened UnZFilter.filter []) [UnZFilter.stored.take 8] = some (.ok (), s)) ∧
      ∃ e s', ∀ n, n₀ ≤ n → FilteredOutputStream.write UnZFilter.filter StringOutputStream n s
        (UnZFilter.stored.drop 8 ++ [0]) = some (.error e, s') := by
  have hread := (buffering_does_not_show UnZFilter.filter _ _ _).1 UnZFilter.contract_some
  have hwrite := (buffering_does_not_show UnZFilter.filter _ _ _).2 UnZFilter.contract_none
  refine ⟨?_, ?_, ?_⟩
  · obtain ⟨x, n₀, hx, hgood⟩ := hread _ InputStream.source
      (⟨.file UnZFilter.stored 0, trivial⟩, [3, 3, 3, 3]) [2, 1]
    exact ⟨x, n₀, hx, hgood (List.prefix_refl _)⟩
  · obtain ⟨x, y, n₀, hx, hy, hgood⟩ :=
      hwrite.1 [UnZFilter.stored.take 8, UnZFilter.stored.drop 8] true
    exact ⟨x, y, n₀, hx, hy, hgood (UnZFilter.agrees_of_front (List.prefix_refl _))⟩
  · obtain ⟨x, s, n₀, hall, hok, herror⟩ := hwrite.2 UnZFilter.stored [0]
      (UnZFilter.stored.drop 8 ++ [0]) [UnZFilter.stored.take 8] rfl (by decide) rfl (by decide)
    have hx := hok (UnZFilter.agrees_of_front (List.prefix_append _ _))
    subst hx
    exact ⟨s, n₀, hall, herror rfl⟩

end Airdcpp
