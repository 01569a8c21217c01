import Airdcpp.Core.Types

/-!
# `Connection/SendFile` — a stream is sent over a socket

`BufferedSocket::threadSendFile` fills one buffer from the stream, swaps it with the other one and
writes that to the socket, piece by piece; while a write would block it goes on reading the stream
into the empty buffer. What the stream, the socket and the limiter answer, and whether the socket is
being disconnected, is different in each round (`Answers`), and one round is one step of the model.

A limited transfer is written with `ThrottleManager::write`, which may offer less than it was told
and says so. A transfer that is not limited is not written at all in the first place: the branch
calls `sock->read`. Only when that reports that it would block does the retry write to the socket,
and what it receives in between is taken for sent. So exactly the runs that receive nothing there
send the stream (`sends_iff`), and these do come to the end when the socket takes something often
enough (`done_of_productive`).
-/

namespace Airdcpp
namespace SendFile

/-- What `ThrottleManager::write` finds: the limit, the number of uploads and the tokens left. -/
structure Limits where
  upLimit : Nat
  ups : Nat
  upTokens : Nat
deriving DecidableEq, Repr

/-- What the other parties do in a round. -/
structure Answers where
  disconnecting : Bool
  /-- How much of the room a read of the stream fills, and how much it took from its source. -/
  granted : Nat
  source : Nat
  limits : Limits
  /-- `sock->write`: one byte more than this at most, or `-1`. -/
  write : Option Nat
  /-- `sock->read`: so many bytes, or `-1`. -/
  read : Option Nat
deriving DecidableEq, Repr

/-- The events of the listener. -/
inductive Event
  | bytesSent (bytes actual : Nat)
  | transmitDone
deriving DecidableEq, Repr

/-- Where the function is: in front of the outer loop's or of the inner loop's condition, or it has
    returned. -/
inductive Phase
  | filling
  | writing
  | disconnected
  | done
deriving DecidableEq, Repr

/-- The locals of `threadSendFile`, what the stream still has, and what has gone over the socket.
    The buffers hold what has been put into them: `readPos` is the length of `readBuf`. -/
structure Sending where
  phase : Phase := .filling
  file : Str
  readBuf : Str := []
  readDone : Bool := false
  writeBuf : Str := []
  writePos : Nat := 0
  writeSize : Nat := 0
  written : Int := 0
  events : List Event := []
  accepted : Str := []
  received : Nat := 0
deriving DecidableEq, Repr

/-- A read of the stream into so much room; it gives nothing only at the end. -/
def readFile (room : Nat) (a : Answers) (s : Sending) : Sending :=
  let actual := min (max a.granted 1) (min room s.file.length)
  let x := s.file.take actual
  let events := if 0 < a.source then s.events ++ [.bytesSent a.source 0] else s.events
  if x = [] then { s with events := events, readDone := true }
  else { s with events := events, file := s.file.drop actual, readBuf := s.readBuf ++ x }

/-- `sock->write`: its result and the bytes that were accepted. -/
def sockWrite (a : Answers) (buf : Str) : Int × Str :=
  match a.write with
  | none => if buf = [] then (0, []) else (-1, [])
  | some k => ((buf.take (k + 1)).length, buf.take (k + 1))

/-- `ThrottleManager::write`: the result, the length that was offered, and what was accepted. -/
def throttledWrite (a : Answers) (buf : Str) : Int × Nat × Str :=
  if a.limits.upLimit = 0 ∨ a.limits.ups = 0 then
    let (sent, x) := sockWrite a buf
    (sent, buf.length, x)
  else if 0 < a.limits.upTokens then
    let slice := a.limits.upLimit * 1024 / a.limits.ups
    let len := min slice (min buf.length a.limits.upTokens)
    let (sent, x) := sockWrite a (buf.take len)
    (sent, len, x)
  else (0, buf.length, [])

variable (sockSize : Nat) (useLimiter : Bool)

def bufSize : Nat := max sockSize (64 * 1024)

/-- Fill the read buffer. -/
def fillReadBuf (a : Answers) (s : Sending) : Sending :=
  if s.readDone = false ∧ s.readBuf.length < bufSize sockSize then
    readFile (bufSize sockSize - s.readBuf.length) a s
  else s

/-- The end, or the swap of the buffers. -/
def swap (s : Sending) : Sending :=
  if s.readDone = true ∧ s.readBuf = [] then
    { s with events := s.events ++ [.transmitDone], phase := .done }
  else
    { s with phase := .writing, writeBuf := s.readBuf, readBuf := [], writePos := 0, writeSize := 0
             written := 0 }

/-- The outer loop up to the inner one. -/
def fill (a : Answers) (s : Sending) : Sending :=
  if a.disconnecting then { s with phase := .disconnected } else swap (fillReadBuf sockSize a s)

/-- What has not been written of the buffer. -/
def Sending.unsent (s : Sending) : Str := s.writeBuf.drop s.writePos

/-- A call whose result is put into `written`: also the size that is kept for a retry, and what the
    socket has accepted and given. -/
structure Attempt where
  written : Int
  writeSize : Nat
  accepted : Str := []
  received : Nat := 0
deriving DecidableEq, Repr

/-- The call of a round. -/
def attempt (a : Answers) (s : Sending) : Attempt :=
  if s.written = -1 then
    -- a failed write is tried again with the same size
    let (written, x) := sockWrite a (s.unsent.take s.writeSize)
    { written := written, writeSize := s.writeSize, accepted := x }
  else
    let writeSize := min (sockSize / 2) (s.writeBuf.length - s.writePos)
    if useLimiter then
      let (written, len, x) := throttledWrite a (s.unsent.take writeSize)
      { written := written, writeSize := len, accepted := x }
    else
      match a.read with
      | none => { written := -1, writeSize := writeSize }
      | some n => { written := n, writeSize := writeSize, received := n }

/-- What the result leads to. -/
def account (a : Answers) (s : Sending) (r : Attempt) : Sending :=
  let s := { s with written := r.written, writeSize := r.writeSize
                    accepted := s.accepted ++ r.accepted, received := s.received + r.received }
  if 0 < s.written then
    { s with writePos := s.writePos + s.written.toNat
             events := s.events ++ [.bytesSent 0 s.written.toNat] }
  else if s.written = -1 ∧ s.readDone = false ∧ s.readBuf.length < bufSize sockSize then
    -- read a little, since the socket is blocking anyway
    readFile (min (bufSize sockSize - s.readBuf.length) (bufSize sockSize / 2)) a s
  else s

/-- A round of the inner loop. -/
def write (a : Answers) (s : Sending) : Sending :=
  if s.writePos < s.writeBuf.length then
    if a.disconnecting then { s with phase := .disconnected }
    else account sockSize a s (attempt sockSize useLimiter a s)
  else { s with phase := .filling }

def round (s : Sending) (a : Answers) : Sending :=
  match s.phase with
  | .filling => fill sockSize a s
  | .writing => write sockSize useLimiter a s
  | .disconnected | .done => s

/-- `threadSendFile` with so many rounds. -/
def threadSendFile (stream : Str) (answers : List Answers) : Sending :=
  answers.foldl (round sockSize useLimiter) { file := stream }

/-! ## What the calls give -/

/-- The bytes that have been reported as written. -/
def sentBytes (events : List Event) : Nat :=
  (events.map fun e => match e with
    | .bytesSent _ actual => actual
    | .transmitDone => 0).sum

/-- Events of reading. -/
def OnlyRead (events : List Event) : Prop := sentBytes events = 0 ∧ .transmitDone ∉ events

@[simp] theorem sentBytes_append (es es' : List Event) :
    sentBytes (es ++ es') = sentBytes es + sentBytes es' := by simp [sentBytes]

/-- A read takes a part off the stream and puts it behind what has been read; a read that marks the
    end leaves nothing. -/
theorem readFile_eq {room : Nat} (hroom : 0 < room) (a : Answers) {s : Sending}
    (hend : s.readDone = true → s.file = []) :
    ∃ x rest es done, s.file = x ++ rest ∧ (done = true → rest = []) ∧ OnlyRead es ∧
      readFile room a s = { s with
        events := s.events ++ es, file := rest, readBuf := s.readBuf ++ x, readDone := done } := by
  have hevents : ∃ es, OnlyRead es ∧
      (if 0 < a.source then s.events ++ [.bytesSent a.source 0] else s.events) =
        s.events ++ es := by
    split_ifs
    · exact ⟨[.bytesSent a.source 0], by simp [OnlyRead, sentBytes], rfl⟩
    · exact ⟨[], by simp [OnlyRead, sentBytes], by simp⟩
  obtain ⟨es, hread, hes⟩ := hevents
  simp only [readFile, hes]
  split_ifs with hx
  · have hfile : s.file = [] := by
      rw [List.take_eq_nil_iff] at hx
      rcases hx with hx | hx
      · rw [← List.length_eq_zero_iff]
        omega
      · exact hx
    exact ⟨[], [], es, true, by simp [hfile], by simp, hread, by simp [hfile]⟩
  · refine ⟨_, _, es, s.readDone, (List.take_append_drop _ _).symm, fun hdone => ?_, hread, rfl⟩
    simp [hend hdone]

/-- A write that is not blocked accepts the front of what it is offered. -/
theorem sockWrite_spec (a : Answers) (buf : Str) :
    (sockWrite a buf).2 <+: buf ∧
      ((sockWrite a buf).1 = (sockWrite a buf).2.length ∨
        (sockWrite a buf).1 = -1 ∧ (sockWrite a buf).2 = [] ∧ buf ≠ []) := by
  rw [sockWrite]
  cases a.write with
  | none =>
    dsimp only
    split_ifs with hbuf
    · exact ⟨List.nil_prefix, .inl rfl⟩
    · exact ⟨List.nil_prefix, .inr ⟨rfl, rfl, hbuf⟩⟩
  | some k => exact ⟨List.take_prefix _ _, .inl rfl⟩

/-- Neither does one with a limit. -/
theorem throttledWrite_spec (a : Answers) (buf : Str) :
    (throttledWrite a buf).2.2 <+: buf ∧
      ((throttledWrite a buf).1 = (throttledWrite a buf).2.2.length ∨
        (throttledWrite a buf).1 = -1 ∧ (throttledWrite a buf).2.2 = [] ∧
          0 < (throttledWrite a buf).2.1) := by
  simp only [throttledWrite]
  split_ifs
  · obtain ⟨hpre, hresult⟩ := sockWrite_spec a buf
    exact ⟨hpre, hresult.imp_right fun h => ⟨h.1, h.2.1, List.length_pos_iff.mpr h.2.2⟩⟩
  · generalize min (a.limits.upLimit * 1024 / a.limits.ups) (min buf.length a.limits.upTokens) = len
    obtain ⟨hpre, hresult⟩ := sockWrite_spec a (buf.take len)
    refine ⟨hpre.trans (List.take_prefix _ _), hresult.imp_right fun h => ⟨h.1, h.2.1, ?_⟩⟩
    have hne := h.2.2
    rw [ne_eq, List.take_eq_nil_iff, not_or] at hne
    exact Nat.pos_of_ne_zero hne.1
  · exact ⟨List.nil_prefix, .inl rfl⟩

/-- The step that goes wrong: a transfer that is not limited receives something where it should
    write. -/
def Receives (s : Sending) (a : Answers) : Prop :=
  s.phase = .writing ∧ s.writePos < s.writeBuf.length ∧ a.disconnecting = false ∧ s.written ≠ -1 ∧
    useLimiter = false ∧ ∃ n, 0 < n ∧ a.read = some n

variable {sockSize useLimiter} {s : Sending} {a : Answers}

theorem attempt_retry (h : s.written = -1) :
    attempt sockSize useLimiter a s =
      { written := (sockWrite a (s.unsent.take s.writeSize)).1, writeSize := s.writeSize
        accepted := (sockWrite a (s.unsent.take s.writeSize)).2 } := if_pos h

theorem attempt_limited (h : s.written ≠ -1) :
    attempt sockSize true a s =
      let r := throttledWrite a
        (s.unsent.take (min (sockSize / 2) (s.writeBuf.length - s.writePos)))
      { written := r.1, writeSize := r.2.1, accepted := r.2.2 } := if_neg h

/-- What an attempt accepts is the front of what has not been written. -/
theorem attempt_prefix : (attempt sockSize useLimiter a s).accepted <+: s.unsent := by
  by_cases hblocked : s.written = -1
  · rw [attempt_retry hblocked]
    exact (sockWrite_spec a _).1.trans (List.take_prefix _ _)
  · cases useLimiter with
    | true =>
      rw [attempt_limited hblocked]
      exact (throttledWrite_spec a _).1.trans (List.take_prefix _ _)
    | false =>
      rw [attempt, if_neg hblocked, if_neg Bool.false_ne_true]
      cases a.read <;> exact List.nil_prefix

/-- The result of an attempt that receives nothing: how much was accepted, or that it was
    blocked. -/
theorem attempt_result (hs : s.phase = .writing) (hpos : s.writePos < s.writeBuf.length)
    (ha : a.disconnecting = false) (hreceives : ¬ Receives useLimiter s a) :
    (attempt sockSize useLimiter a s).received = 0 ∧
      ((attempt sockSize useLimiter a s).written =
          ((attempt sockSize useLimiter a s).accepted.length : Int) ∨
        (attempt sockSize useLimiter a s).written = -1 ∧
          (attempt sockSize useLimiter a s).accepted = []) := by
  by_cases hblocked : s.written = -1
  · rw [attempt_retry hblocked]
    exact ⟨rfl, (sockWrite_spec a _).2.imp_right fun h => ⟨h.1, h.2.1⟩⟩
  · cases useLimiter with
    | true =>
      rw [attempt_limited hblocked]
      exact ⟨rfl, (throttledWrite_spec a _).2.imp_right fun h => ⟨h.1, h.2.1⟩⟩
    | false =>
      rw [attempt, if_neg hblocked, if_neg Bool.false_ne_true]
      cases hread : a.read with
      | none => exact ⟨rfl, .inr ⟨rfl, rfl⟩⟩
      | some n =>
        have hn : n = 0 := by
          by_contra hn
          exact hreceives ⟨hs, hpos, ha, hblocked, rfl, n, Nat.pos_of_ne_zero hn, hread⟩
        subst hn
        exact ⟨rfl, .inl rfl⟩

/-- The bytes of an attempt that receives are counted as received. -/
theorem attempt_receives (h : Receives useLimiter s a) :
    0 < (attempt sockSize useLimiter a s).received := by
  obtain ⟨-, -, -, hblocked, rfl, n, hn, hread⟩ := h
  rw [attempt, if_neg hblocked, if_neg Bool.false_ne_true, hread]
  exact hn

/-! ## What has been sent -/

/-- Where the sending is: what was accepted, what is in the two buffers and what the stream has left
    are the stream, nothing was received, as much is reported as was accepted, and the end is
    reported when all of it was accepted. -/
structure Exact (stream : Str) (s : Sending) : Prop where
  whole : s.accepted ++ (s.unsent ++ s.readBuf ++ s.file) = stream
  pos : s.writePos ≤ s.writeBuf.length
  received : s.received = 0
  counted : sentBytes s.events = s.accepted.length
  ended : s.readDone = true → s.file = []
  filling : s.phase = .filling → s.unsent = []
  once : s.events.count .transmitDone = if s.phase = .done then 1 else 0
  finished : s.phase = .done → s.accepted = stream ∧ s.events.getLast? = some .transmitDone

theorem exact_start (stream : Str) : Exact stream { file := stream } where
  whole := rfl
  pos := le_refl _
  received := rfl
  counted := rfl
  ended h := by cases h
  filling _ := rfl
  once := rfl
  finished h := by cases h

variable {stream : Str}

theorem Exact.readFile (h : Exact stream s) (hphase : s.phase ≠ .done) {room : Nat}
    (hroom : 0 < room) (a : Answers) : Exact stream (readFile room a s) := by
  obtain ⟨x, rest, es, done, hfile, hdone, ⟨hsent, hmem⟩, heq⟩ := readFile_eq hroom a h.ended
  rw [heq]
  exact
    { whole := by
        rw [← h.whole, hfile]
        simp [Sending.unsent]
      pos := h.pos
      received := h.received
      counted := by rw [sentBytes_append, hsent, Nat.add_zero, h.counted]
      ended := hdone
      filling := h.filling
      once := by rw [List.count_append, List.count_eq_zero.mpr hmem, Nat.add_zero, h.once]
      finished := fun hend => absurd hend hphase }

theorem readFile_phase (room : Nat) : (SendFile.readFile room a s).phase = s.phase := by
  rw [SendFile.readFile]
  split_ifs <;> rfl

/-- The sending stops. -/
theorem Exact.disconnect (h : Exact stream s) (hphase : s.phase ≠ .done) :
    Exact stream { s with phase := .disconnected } where
  whole := h.whole
  pos := h.pos
  received := h.received
  counted := h.counted
  ended := h.ended
  filling hfilling := by cases hfilling
  once := by rw [h.once, if_neg hphase]; rfl
  finished hdone := by cases hdone

theorem Exact.fillReadBuf (h : Exact stream s) (hs : s.phase = .filling) (a : Answers) :
    Exact stream (fillReadBuf sockSize a s) ∧ (fillReadBuf sockSize a s).phase = .filling := by
  rw [SendFile.fillReadBuf]
  split_ifs with hread
  · have hphase : s.phase ≠ .done := by simp [hs]
    exact ⟨h.readFile hphase (Nat.sub_pos_of_lt hread.2) a, (readFile_phase _).trans hs⟩
  · exact ⟨h, hs⟩

/-- The buffers are swapped, or all has been sent. -/
theorem Exact.swap (h : Exact stream s) (hs : s.phase = .filling) : Exact stream (swap s) := by
  have hunsent := h.filling hs
  have hwhole := h.whole
  have honce := h.once
  rw [hunsent, List.nil_append] at hwhole
  rw [hs] at honce
  rw [SendFile.swap]
  split_ifs with hend
  · have hsent : s.accepted = stream := by
      rw [← hwhole, hend.2, h.ended hend.1]
      simp
    exact
      { whole := h.whole
        pos := h.pos
        received := h.received
        counted := by
          rw [sentBytes_append, h.counted]
          rfl
        ended := h.ended
        filling := by simp
        once := by
          rw [List.count_append, honce]
          rfl
        finished := fun _ => ⟨hsent, by simp⟩ }
  · exact
      { whole := by simpa [Sending.unsent] using hwhole
        pos := Nat.zero_le _
        received := h.received
        counted := h.counted
        ended := h.ended
        filling := by simp
        once := honce
        finished := by simp }

theorem Exact.fill (h : Exact stream s) (hs : s.phase = .filling) (a : Answers) :
    Exact stream (fill sockSize a s) := by
  rw [SendFile.fill]
  split_ifs with hdisconnecting
  · exact h.disconnect (by simp [hs])
  · obtain ⟨h', hs'⟩ := h.fillReadBuf hs a
    exact h'.swap hs'

/-- What an attempt has accepted is accounted for. -/
theorem Exact.account (h : Exact stream s) (hs : s.phase = .writing) {r : Attempt}
    (hpre : r.accepted <+: s.unsent) (hreceived : r.received = 0)
    (hresult : r.written = (r.accepted.length : Int) ∨ r.written = -1 ∧ r.accepted = [])
    (a : Answers) : Exact stream (account sockSize a s r) := by
  have honce := h.once
  rw [hs] at honce
  obtain ⟨rest, hrest⟩ := hpre
  rcases hresult with hwritten | ⟨hwritten, haccepted⟩
  · by_cases hx : r.accepted = []
    · -- nothing was accepted and nothing blocked
      have hzero : r.written = 0 := by simp [hwritten, hx]
      simp only [SendFile.account, hzero, hx, hreceived, List.append_nil, Nat.add_zero,
        lt_self_iff_false, if_false]
      exact { h with finished := by simp [hs] }
    · have hpos : 0 < r.written := by
        rw [hwritten]
        exact_mod_cast List.length_pos_iff.mpr hx
      have hlen : r.written.toNat = r.accepted.length := by simp [hwritten]
      have hunsent : s.writeBuf.drop (s.writePos + r.accepted.length) = rest := by
        rw [← List.drop_drop, show s.writeBuf.drop s.writePos = r.accepted ++ rest from hrest.symm,
          List.drop_left]
      simp only [SendFile.account, if_pos hpos, hlen]
      exact
        { whole := by
            rw [← h.whole, ← hrest]
            simp [Sending.unsent, hunsent]
          pos := by
            have hlength := congrArg List.length hrest
            simp only [Sending.unsent, List.length_append, List.length_drop] at hlength
            have := h.pos
            simp only
            omega
          received := by rw [h.received, hreceived]
          counted := by
            rw [sentBytes_append, h.counted, List.length_append]
            rfl
          ended := h.ended
          filling := by simp [hs]
          once := by
            rw [List.count_append, honce, hs]
            rfl
          finished := by simp [hs] }
  · -- blocked
    have hsame : Exact stream { s with written := r.written, writeSize := r.writeSize
                                       accepted := s.accepted ++ r.accepted
                                       received := s.received + r.received } := by
      simp only [haccepted, hreceived, List.append_nil, Nat.add_zero]
      exact { h with finished := by simp [hs] }
    have hneg : ¬ (0 : Int) < r.written := by simp [hwritten]
    simp only [SendFile.account, if_neg hneg]
    split_ifs with hread
    · refine hsame.readFile (by simp [hs]) ?_ a
      have hhalf : 0 < bufSize sockSize / 2 := by
        simp only [bufSize]
        omega
      exact lt_min (Nat.sub_pos_of_lt hread.2.2) hhalf
    · exact hsame

/-- **A round that receives nothing** where it should write keeps the sending exact. -/
theorem Exact.round (h : Exact stream s) (hreceives : ¬ Receives useLimiter s a) :
    Exact stream (round sockSize useLimiter s a) := by
  rw [SendFile.round]
  split
  · exact h.fill ‹_› a
  · rename_i hs
    rw [SendFile.write]
    split_ifs with hpos hdisconnecting
    · exact h.disconnect (by simp [hs])
    · have ha : a.disconnecting = false := by simpa using hdisconnecting
      obtain ⟨hreceived, hresult⟩ := attempt_result hs hpos ha hreceives
      exact h.account hs attempt_prefix hreceived hresult a
    · have hunsent : s.unsent = [] := List.drop_eq_nil_of_le (Nat.le_of_not_lt hpos)
      have honce := h.once
      rw [hs] at honce
      exact { h with filling := fun _ => hunsent, once := honce, finished := by simp }
  · exact h
  · exact h

/-! ## What a run does not change -/

/-- What a read of the stream leaves as it is. -/
theorem readFile_keeps (room : Nat) (a : Answers) (s : Sending) :
    ∃ file readBuf readDone events, SendFile.readFile room a s = { s with
      file := file, readBuf := readBuf, readDone := readDone, events := events } := by
  simp only [SendFile.readFile]
  split_ifs
  · exact ⟨s.file, s.readBuf, true, _, rfl⟩
  · exact ⟨s.file, s.readBuf, true, s.events, rfl⟩
  · exact ⟨_, _, s.readDone, _, rfl⟩
  · exact ⟨_, _, s.readDone, s.events, rfl⟩

theorem account_keeps (a : Answers) (s : Sending) (r : Attempt) :
    (account sockSize a s r).phase = s.phase ∧
      (account sockSize a s r).accepted = s.accepted ++ r.accepted ∧
      (account sockSize a s r).received = s.received + r.received ∧
      (account sockSize a s r).written = r.written ∧
      (account sockSize a s r).writeSize = r.writeSize ∧
      (¬ 0 < r.written → (account sockSize a s r).unsent = s.unsent) := by
  simp only [account]
  split_ifs with hpos hread
  · exact ⟨rfl, rfl, rfl, rfl, rfl, fun h => absurd hpos h⟩
  · obtain ⟨file, readBuf, readDone, events, heq⟩ := readFile_keeps
      (min (bufSize sockSize - s.readBuf.length) (bufSize sockSize / 2)) a
      { s with written := r.written, writeSize := r.writeSize, accepted := s.accepted ++ r.accepted
               received := s.received + r.received }
    rw [heq]
    exact ⟨rfl, rfl, rfl, rfl, rfl, fun _ => rfl⟩
  · exact ⟨rfl, rfl, rfl, rfl, rfl, fun _ => rfl⟩

theorem fillReadBuf_keeps (a : Answers) (s : Sending) :
    ∃ file readBuf readDone events, SendFile.fillReadBuf sockSize a s = { s with
      file := file, readBuf := readBuf, readDone := readDone, events := events } := by
  rw [SendFile.fillReadBuf]
  split_ifs
  · exact readFile_keeps _ a s
  · exact ⟨s.file, s.readBuf, s.readDone, s.events, rfl⟩

/-- A round in which the loop writes. -/
theorem round_writing (hs : s.phase = .writing) (hpos : s.writePos < s.writeBuf.length)
    (ha : a.disconnecting = false) :
    SendFile.round sockSize useLimiter s a =
      account sockSize a s (attempt sockSize useLimiter a s) := by
  rw [SendFile.round, hs]
  simp [SendFile.write, hpos, ha]

theorem received_of_receives (h : Receives useLimiter s a) :
    0 < (SendFile.round sockSize useLimiter s a).received := by
  rw [round_writing h.1 h.2.1 h.2.2.1, (account_keeps a s _).2.2.1]
  exact Nat.add_pos_right _ (attempt_receives h)

/-! ## Progress -/

/-- The socket would take something, has nothing to give, and the limiter lets something through. -/
def Productive (a : Answers) : Prop :=
  a.write ≠ none ∧ a.read = none ∧ (a.limits.upLimit = 0 ∨ a.limits.ups = 0 ∨
    0 < a.limits.upTokens ∧ 0 < a.limits.upLimit * 1024 / a.limits.ups)

instance (a : Answers) : Decidable (Productive a) := by
  unfold Productive
  infer_instance

/-- A write is only blocked when something was offered. -/
def Blocked (s : Sending) : Prop := s.written = -1 → 0 < s.writeSize

theorem sockWrite_ne_nil {buf : Str} (ha : a.write ≠ none) (hbuf : buf ≠ []) :
    (sockWrite a buf).2 ≠ [] := by
  obtain ⟨k, hk⟩ := Option.ne_none_iff_exists'.mp ha
  rw [sockWrite, hk]
  simpa using hbuf

theorem throttledWrite_ne_nil {buf : Str} (ha : Productive a) (hbuf : buf ≠ []) :
    (throttledWrite a buf).2.2 ≠ [] := by
  obtain ⟨hwrite, -, hlimits⟩ := ha
  have hlen := List.length_pos_iff.mpr hbuf
  simp only [throttledWrite]
  split_ifs with hunlimited htokens
  · exact sockWrite_ne_nil hwrite hbuf
  · have hslice : 0 < a.limits.upLimit * 1024 / a.limits.ups := by
      rcases hlimits with h | h | h
      · exact absurd (.inl h) hunlimited
      · exact absurd (.inr h) hunlimited
      · exact h.2
    refine sockWrite_ne_nil hwrite ?_
    rw [ne_eq, List.take_eq_nil_iff, not_or]
    exact ⟨(lt_min hslice (lt_min hlen htokens)).ne', hbuf⟩
  · rcases hlimits with h | h | h
    · exact absurd (.inl h) hunlimited
    · exact absurd (.inr h) hunlimited
    · exact absurd h.1 htokens

theorem offered_ne_nil (hpos : s.writePos < s.writeBuf.length) {size : Nat} (hsize : 0 < size) :
    s.unsent.take size ≠ [] := by
  rw [ne_eq, List.take_eq_nil_iff, not_or, Sending.unsent, List.drop_eq_nil_iff]
  exact ⟨hsize.ne', Nat.not_le_of_lt hpos⟩

/-- A retry accepts something or is blocked again. -/
theorem attempt_again (hpos : s.writePos < s.writeBuf.length) (hblocked : Blocked s)
    (h : s.written = -1) :
    (attempt sockSize useLimiter a s).accepted ≠ [] ∨
      (attempt sockSize useLimiter a s).written = -1 ∧ a.write = none := by
  have hoffered := offered_ne_nil hpos (hblocked h)
  rw [attempt_retry h]
  by_cases hwrite : a.write = none
  · refine .inr ⟨?_, hwrite⟩
    simp only [sockWrite, hwrite, if_neg hoffered]
  · exact .inl (sockWrite_ne_nil hwrite hoffered)

section
variable (hsock : 2 ≤ sockSize) (hpos : s.writePos < s.writeBuf.length) (hblocked : Blocked s)
include hsock hpos hblocked

theorem attempt_blocked (h : (attempt sockSize useLimiter a s).written = -1) :
    0 < (attempt sockSize useLimiter a s).writeSize := by
  have hsize : 0 < min (sockSize / 2) (s.writeBuf.length - s.writePos) :=
    lt_min (by omega) (Nat.sub_pos_of_lt hpos)
  by_cases hretry : s.written = -1
  · rw [attempt_retry hretry]
    exact hblocked hretry
  · cases useLimiter with
    | true =>
      rw [attempt_limited hretry] at h ⊢
      rcases (throttledWrite_spec a
        (s.unsent.take (min (sockSize / 2) (s.writeBuf.length - s.writePos)))).2 with hw | hw
      · simp only at h
        omega
      · exact hw.2.2
    | false =>
      rw [attempt, if_neg hretry, if_neg Bool.false_ne_true]
      cases a.read <;> exact hsize

/-- A productive attempt accepts something, or finds that it has to be tried again. -/
theorem attempt_productive (ha : Productive a) :
    (attempt sockSize useLimiter a s).accepted ≠ [] ∨
      s.written ≠ -1 ∧ (attempt sockSize useLimiter a s).written = -1 := by
  by_cases hretry : s.written = -1
  · rcases @attempt_again sockSize useLimiter s a hpos hblocked hretry with h | h
    · exact .inl h
    · exact absurd h.2 ha.1
  · have hsize : 0 < min (sockSize / 2) (s.writeBuf.length - s.writePos) :=
      lt_min (by omega) (Nat.sub_pos_of_lt hpos)
    cases useLimiter with
    | true =>
      rw [attempt_limited hretry]
      exact .inl (throttledWrite_ne_nil ha (offered_ne_nil hpos hsize))
    | false =>
      refine .inr ⟨hretry, ?_⟩
      rw [attempt, if_neg hretry, if_neg Bool.false_ne_true, ha.2.1]

end

/-! ## The measure -/

/-- How far the loop is from the next byte that is accepted. -/
def rank (s : Sending) : Nat :=
  match s.phase with
  | .filling => 2
  | .writing => if s.unsent = [] then 3 else if s.written = -1 then 0 else 1
  | .disconnected | .done => 0

/-- Four steps for each byte that is left. -/
def measure (stream : Str) (s : Sending) : Nat :=
  4 * (stream.length - s.accepted.length) + rank s

theorem Exact.accepted_prefix (h : Exact stream s) : s.accepted <+: stream := ⟨_, h.whole⟩

theorem rank_le (s : Sending) : rank s ≤ 3 := by
  rw [rank]
  split
  · omega
  · split_ifs <;> omega
  · omega
  · omega

/-- The buffer that is written after a fill is not empty. -/
theorem readBuf_of_fill
    (hend : ¬ ((SendFile.fillReadBuf sockSize a s).readDone = true ∧
      (SendFile.fillReadBuf sockSize a s).readBuf = [])) :
    (SendFile.fillReadBuf sockSize a s).readBuf ≠ [] := by
  intro hempty
  have hopen : (SendFile.fillReadBuf sockSize a s).readDone = false := by
    simpa [hempty] using hend
  rw [SendFile.fillReadBuf] at hempty hopen
  have hread : s.readDone = false ∧ s.readBuf.length < bufSize sockSize := by
    by_contra hno
    rw [if_neg hno] at hempty hopen
    refine hno ⟨hopen, ?_⟩
    simp only [hempty, List.length_nil, bufSize]
    omega
  rw [if_pos hread, SendFile.readFile] at hempty hopen
  split_ifs at hempty hopen <;> simp_all

/-- The loops have not been left. -/
structure Going (s : Sending) : Prop where
  phase : s.phase = .filling ∨ s.phase = .writing
  blocked : s.phase = .writing → Blocked s

/-- What a round does to the measure. -/
def Advances (stream : Str) (a : Answers) (s s' : Sending) : Prop :=
  s'.phase = .done ∨
    Going s' ∧ measure stream s' ≤ measure stream s ∧
      (Productive a → measure stream s' < measure stream s)

theorem advances_fill (hs : s.phase = .filling) (ha : a.disconnecting = false) :
    Advances stream a s (SendFile.fill sockSize a s) := by
  rw [SendFile.fill, if_neg (by simp [ha]), SendFile.swap]
  split_ifs with hend
  · exact .inl rfl
  · have hne := readBuf_of_fill hend
    obtain ⟨file, readBuf, readDone, events, heq⟩ := @fillReadBuf_keeps sockSize a s
    rw [heq] at hne ⊢
    have hrank : measure stream { s with
        phase := .writing, file := file, readBuf := [], readDone := readDone, writeBuf := readBuf
        writePos := 0, writeSize := 0, written := 0, events := events } < measure stream s := by
      simp only [measure, rank, hs, Sending.unsent, List.drop_zero]
      rw [if_neg hne, if_neg (by decide)]
      omega
    exact .inr ⟨⟨.inr rfl, fun _ hblocked => by simp at hblocked⟩, hrank.le, fun _ => hrank⟩

/-- A round that leads to another one of the inner loop. -/
theorem advances_account (h : Exact stream s) (hs : s.phase = .writing)
    (hpos : s.writePos < s.writeBuf.length) {r : Attempt} (hpre : r.accepted <+: s.unsent)
    (hresult : r.written = (r.accepted.length : Int) ∨ r.written = -1 ∧ r.accepted = [])
    (hsize : r.written = -1 → 0 < r.writeSize)
    (hagain : s.written = -1 → r.accepted ≠ [] ∨ r.written = -1 ∧ a.write = none)
    (hproductive : Productive a → r.accepted ≠ [] ∨ s.written ≠ -1 ∧ r.written = -1) :
    Advances stream a s (account sockSize a s r) := by
  obtain ⟨hphase, haccepted, -, hwritten, hwriteSize, hunsent⟩ := @account_keeps sockSize a s r
  have hne : s.unsent ≠ [] := by
    rw [Sending.unsent, ne_eq, List.drop_eq_nil_iff]
    exact Nat.not_le_of_lt hpos
  refine .inr ⟨⟨.inr (hphase.trans hs), fun _ hblocked => ?_⟩, ?_⟩
  · rw [hwriteSize]
    exact hsize (hwritten ▸ hblocked)
  have hbound : (s.accepted ++ r.accepted).length ≤ stream.length := by
    obtain ⟨rest, hrest⟩ := hpre
    rw [← h.whole, ← hrest]
    simp only [List.length_append]
    omega
  rw [List.length_append] at hbound
  by_cases hx : r.accepted = []
  · -- nothing has been accepted, so only the result may have changed
    have hnot : ¬ 0 < r.written := by
      rcases hresult with hw | hw <;> simp [hw, hx]
    have hsame : measure stream (account sockSize a s r) =
        4 * (stream.length - s.accepted.length) + if r.written = -1 then 0 else 1 := by
      rw [measure, rank, hphase, hs]
      simp only [hunsent hnot, if_neg hne, haccepted, hx, List.append_nil, hwritten]
    have hbefore : measure stream s =
        4 * (stream.length - s.accepted.length) + if s.written = -1 then 0 else 1 := by
      rw [measure, rank, hs]
      simp only [if_neg hne]
    rw [hsame, hbefore]
    constructor
    · by_cases hretry : s.written = -1
      · rcases hagain hretry with h | h
        · exact absurd hx h
        · rw [if_pos h.1, if_pos hretry]
      · rw [if_neg hretry]
        split_ifs <;> omega
    · intro ha
      rcases hproductive ha with h | h
      · exact absurd hx h
      · rw [if_pos h.2, if_neg h.1]
        omega
  · have hpositive := List.length_pos_iff.mpr hx
    have hless : measure stream (account sockSize a s r) < measure stream s := by
      have := rank_le (account sockSize a s r)
      rw [measure, measure, haccepted, List.length_append]
      omega
    exact ⟨hless.le, fun _ => hless⟩

/-- **A round goes on**: the measure does not grow, and a productive round makes it smaller. -/
theorem advances_round (hsock : 2 ≤ sockSize) (h : Exact stream s) (hgoing : Going s)
    (hreceives : ¬ Receives useLimiter s a) (ha : a.disconnecting = false) :
    Advances stream a s (SendFile.round sockSize useLimiter s a) := by
  rcases hgoing.phase with hs | hs
  · rw [SendFile.round, hs]
    exact advances_fill hs ha
  · by_cases hpos : s.writePos < s.writeBuf.length
    · have hblocked := hgoing.blocked hs
      rw [round_writing hs hpos ha]
      exact advances_account h hs hpos attempt_prefix (attempt_result hs hpos ha hreceives).2
        (attempt_blocked hsock hpos hblocked) (attempt_again hpos hblocked)
        (attempt_productive hsock hpos hblocked)
    · have hunsent : s.unsent = [] := List.drop_eq_nil_of_le (Nat.le_of_not_lt hpos)
      have hrank : measure stream { s with phase := .filling } < measure stream s := by
        simp only [measure, rank, hs, if_pos hunsent]
        omega
      rw [SendFile.round, hs]
      simp only [SendFile.write, if_neg hpos]
      exact .inr ⟨⟨.inl rfl, fun hw => by simp at hw⟩, hrank.le, fun _ => hrank⟩

/-! ## Runs -/

/-- What is promised of the sending at any time: the socket has accepted a front part of the stream,
    nothing has been received, and as many bytes are reported as written as were accepted;
    `TransmitDone` is fired once at most, as the last event, and not before all of the stream has
    been accepted; and the function has come to its end exactly when it was fired. -/
structure Sends (stream : Str) (s : Sending) : Prop where
  accepted : s.accepted <+: stream
  received : s.received = 0
  counted : sentBytes s.events = s.accepted.length
  once : s.events.count .transmitDone ≤ 1
  last : .transmitDone ∈ s.events →
    s.accepted = stream ∧ s.events.getLast? = some .transmitDone
  returned : s.phase = .done ↔ .transmitDone ∈ s.events

theorem Exact.sends (h : Exact stream s) : Sends stream s := by
  have hdone : s.phase = .done ↔ .transmitDone ∈ s.events := by
    rw [← List.count_pos_iff, h.once]
    split_ifs with hphase <;> simp [hphase]
  exact
    { accepted := h.accepted_prefix
      received := h.received
      counted := h.counted
      once := by
        rw [h.once]
        split_ifs <;> omega
      last := fun hmem => h.finished (hdone.mpr hmem)
      returned := hdone }

/-- No round of a run receives something where it should write. -/
def NeverReceives (sockSize : Nat) (useLimiter : Bool) (stream : Str) (answers : List Answers) :
    Prop :=
  ∀ sofar a, sofar ++ [a] <+: answers →
    ¬ Receives useLimiter (threadSendFile sockSize useLimiter stream sofar) a

theorem threadSendFile_concat (answers : List Answers) (a : Answers) :
    threadSendFile sockSize useLimiter stream (answers ++ [a]) =
      SendFile.round sockSize useLimiter (threadSendFile sockSize useLimiter stream answers) a := by
  rw [threadSendFile, List.foldl_append]
  rfl

theorem NeverReceives.of_prefix {answers sofar : List Answers}
    (h : NeverReceives sockSize useLimiter stream answers) (hsofar : sofar <+: answers) :
    NeverReceives sockSize useLimiter stream sofar :=
  fun earlier a hpre => h earlier a (hpre.trans hsofar)

/-- **A run that receives nothing is exact.** -/
theorem exact_run {answers : List Answers} (h : NeverReceives sockSize useLimiter stream answers) :
    Exact stream (threadSendFile sockSize useLimiter stream answers) := by
  induction answers using List.reverseRecOn with
  | nil => exact exact_start stream
  | append_singleton answers a ih =>
    rw [threadSendFile_concat]
    exact (ih (h.of_prefix (List.prefix_append _ _))).round (h answers a List.prefix_rfl)

/-- Each productive round of a run has been paid for. -/
theorem measure_run {answers : List Answers} (hsock : 2 ≤ sockSize)
    (h : NeverReceives sockSize useLimiter stream answers)
    (ha : ∀ a ∈ answers, a.disconnecting = false) :
    (threadSendFile sockSize useLimiter stream answers).phase = .done ∨
      Going (threadSendFile sockSize useLimiter stream answers) ∧
        measure stream (threadSendFile sockSize useLimiter stream answers) +
          answers.countP (fun a => decide (Productive a)) ≤ 4 * stream.length + 2 := by
  induction answers using List.reverseRecOn with
  | nil => exact .inr ⟨⟨.inl rfl, fun hs => by cases hs⟩, le_refl _⟩
  | append_singleton answers a ih =>
    have hbefore := h.of_prefix (List.prefix_append answers [a])
    have hlast : a.disconnecting = false := ha a (by simp)
    rw [threadSendFile_concat, List.countP_append, List.countP_singleton]
    rcases ih hbefore fun a' h' => ha a' (by simp [h']) with hdone | ⟨hgoing, hmeasure⟩
    · left
      rw [SendFile.round, hdone]
      exact hdone
    · have hadvances := advances_round hsock (exact_run hbefore) hgoing
        (h answers a List.prefix_rfl) hlast
      rcases hadvances with hdone | ⟨hgoing', hle, hless⟩
      · exact .inl hdone
      · refine .inr ⟨hgoing', ?_⟩
        split_ifs with hproductive
        · have := hless (by simpa using hproductive)
          omega
        · omega

/-- **The stream is sent exactly in the runs that receive nothing where they should write**, which
    are all runs of a limited transfer. In these runs, with a send buffer of two bytes at least and
    no disconnect, `TransmitDone` is fired as soon as enough rounds were productive. -/
theorem sends_iff (sockSize : Nat) (useLimiter : Bool) (stream : Str) (answers : List Answers) :
    ((∀ sofar, sofar <+: answers →
        Sends stream (threadSendFile sockSize useLimiter stream sofar)) ↔
      NeverReceives sockSize useLimiter stream answers) ∧
    (useLimiter = true → NeverReceives sockSize useLimiter stream answers) ∧
    (NeverReceives sockSize useLimiter stream answers → 2 ≤ sockSize →
      (∀ a ∈ answers, a.disconnecting = false) →
      4 * stream.length + 2 < answers.countP (fun a => decide (Productive a)) →
      (threadSendFile sockSize useLimiter stream answers).phase = .done) := by
  refine ⟨⟨fun h sofar a hpre hreceives => ?_, fun h sofar hsofar => ?_⟩, fun hlimiter => ?_,
    fun h hsock ha hcount => ?_⟩
  · have hreceived := (h (sofar ++ [a]) hpre).received
    rw [threadSendFile_concat] at hreceived
    have := @received_of_receives sockSize _ _ _ hreceives
    omega
  · exact (exact_run (h.of_prefix hsofar)).sends
  · intro sofar a _ hreceives
    have hunlimited := hreceives.2.2.2.2.1
    rw [hlimiter] at hunlimited
    cases hunlimited
  · rcases measure_run hsock h ha with hdone | ⟨-, hmeasure⟩
    · exact hdone
    · omega

/-- The answers when nothing is in the way. -/
def freeAnswers : Answers where
  disconnecting := false
  granted := 10
  source := 10
  limits := ⟨0, 1, 0⟩
  write := some 9
  read := none

/-- The theorem on three bytes that are sent with the limiter. -/
theorem sends_iff_three : ∀ sofar, sofar <+: [freeAnswers, freeAnswers, freeAnswers] →
    Sends (str "abc") (threadSendFile 65536 true (str "abc") sofar) := by
  have h := sends_iff 65536 true (str "abc") [freeAnswers, freeAnswers, freeAnswers]
  exact h.1.mpr (h.2.1 rfl)

/-- **Three received bytes are taken for the three bytes of the stream**: without the limiter the
    end is reported, and the socket has accepted nothing. -/
theorem receives_three :
    let s := threadSendFile 65536 false (str "abc")
      (List.replicate 4 { freeAnswers with read := some 3 })
    s.phase = .done ∧ s.events.getLast? = some .transmitDone ∧ s.accepted = [] ∧
      s.received = 3 := by
  decide +kernel

end SendFile
end Airdcpp
