import Airdcpp.Connection.BufferedSocket
import Airdcpp.Lib.ListOps

/-!
# `Connection/Framing` — the same events however the bytes arrive

What `threadRead` is for, said without a buffer: a `Framer` takes one byte at a time. In line mode
the separator ends a line and any other byte belongs to it; in data mode a byte is handed on and
counted down. `feed` is what it has seen (`items`) after some bytes.

Where `threadRead` stands at the head of a loop, some bytes of the buffer are still to come
(`pending` is the framer after them), and no round changes that: a round takes bytes from the
buffer and does with them what the framer does. When the loops end there are none left, so the
connection has seen what the framer has (`received`), whatever the reads were.

A `Data` event hands over as many bytes as there are, so that events are compared as `items`: a
`Data` event is its bytes, one by one.
-/

namespace Airdcpp
namespace BufferedSocket

inductive Item
  | line (aLine : Str)
  | byte (b : UInt8)
  | modeChange
deriving DecidableEq, Repr

def Event.items : Event → List Item
  | .line aLine => [.line aLine]
  | .modeChange => [.modeChange]
  | .data inbuf bufpos aLen => ((inbuf.drop bufpos.toNat).take aLen).map .byte

/-- What the events hand over. -/
def items (events : List Event) : List Item := events.flatMap Event.items

def Item.line? : Item → Option Str
  | .line aLine => some aLine
  | _ => none

def lines (seen : List Item) : List Str := seen.filterMap Item.line?

/-- The bytes of the stream that an item hands over. -/
def Item.carried : Item → Str
  | .line aLine => aLine
  | .byte b => [b]
  | .modeChange => []

/-- A listener that may call `setDataMode` on a line, as `react` says from the lines so far, and
    that remembers all events. -/
def recorder (react : List Str → Option Int) : Listener (List Event) := fun events e =>
  (events ++ [e],
    match e with
    | .line _ => react (lines (items (events ++ [e])))
    | _ => none)

/-! ## The framer -/

structure Framer where
  mode : Modes
  dataBytes : Int
  line : Str
  items : List Item
deriving DecidableEq, Repr

namespace Framer

def setDataMode (f : Framer) (aBytes : Int) : Framer :=
  { f with mode := .data, dataBytes := aBytes }

/-- A line has ended. Empty ones are not worth an event. -/
def endLine (react : List Str → Option Int) (f : Framer) : Framer :=
  if f.line = [] then f
  else
    let seen := f.items ++ [.line f.line]
    let g := { f with line := [], items := seen }
    (react (lines seen)).elim g g.setDataMode

/-- A byte of data. -/
def countDown (f : Framer) (b : UInt8) : Framer :=
  if f.dataBytes = -1 then { f with items := f.items ++ [.byte b] }
  else if f.dataBytes - 1 = 0 then
    { f with mode := .line, dataBytes := 0, items := f.items ++ [.byte b, .modeChange] }
  else { f with dataBytes := f.dataBytes - 1, items := f.items ++ [.byte b] }

def step (separator : UInt8) (react : List Str → Option Int) (f : Framer) (b : UInt8) : Framer :=
  match f.mode with
  | .line => if b = separator then f.endLine react else { f with line := f.line ++ [b] }
  | .data => f.countDown b

def feed (separator : UInt8) (react : List Str → Option Int) (f : Framer) (bytes : Str) : Framer :=
  bytes.foldl (step separator react) f

variable {separator : UInt8} {react : List Str → Option Int} {f : Framer}

@[simp] theorem feed_nil : feed separator react f [] = f := rfl

theorem feed_append (p q : Str) :
    feed separator react f (p ++ q) = feed separator react (feed separator react f p) q :=
  List.foldl_append

theorem feed_cons (b : UInt8) (q : Str) :
    feed separator react f (b :: q) = feed separator react (step separator react f b) q := rfl

theorem step_line {b : UInt8} (hmode : f.mode = .line) (hb : b ≠ separator) :
    step separator react f b = { f with line := f.line ++ [b] } := by
  rw [step, hmode]
  exact if_neg hb

theorem step_separator (hmode : f.mode = .line) :
    step separator react f separator = f.endLine react := by
  rw [step, hmode]
  exact if_pos rfl

theorem step_data (b : UInt8) (hmode : f.mode = .data) :
    step separator react f b = f.countDown b := by
  rw [step, hmode]

/-- Bytes with no separator among them extend the line. -/
theorem feed_line {q : Str} (hmode : f.mode = .line) (hq : separator ∉ q) :
    feed separator react f q = { f with line := f.line ++ q } := by
  induction q generalizing f with
  | nil => rw [feed_nil, List.append_nil]
  | cons b q ih =>
    have hb : b ≠ separator := fun h => hq (h ▸ List.mem_cons_self)
    have hrest := ih (f := { f with line := f.line ++ [b] }) hmode
      fun h => hq (List.mem_cons_of_mem _ h)
    rw [feed_cons, step_line hmode hb, hrest]
    simp only [List.append_assoc, List.singleton_append]

/-- A block that goes on to the end of the stream. -/
theorem feed_data_rest {q : Str} (hmode : f.mode = .data) (hbytes : f.dataBytes = -1) :
    feed separator react f q = { f with items := f.items ++ q.map .byte } := by
  induction q generalizing f with
  | nil => rw [feed_nil, List.map_nil, List.append_nil]
  | cons b q ih =>
    have hrest := ih (f := { f with items := f.items ++ [.byte b] }) hmode hbytes
    rw [feed_cons, step_data b hmode, countDown, if_pos hbytes, hrest]
    simp only [List.append_assoc, List.map_cons, List.singleton_append]

/-- Fewer bytes than a block has. -/
theorem feed_data_part {q : Str} (hmode : f.mode = .data)
    (hlen : (q.length : Int) < f.dataBytes) :
    feed separator react f q =
      { f with dataBytes := f.dataBytes - q.length, items := f.items ++ q.map .byte } := by
  induction q generalizing f with
  | nil => simp
  | cons b q ih =>
    have hlen' : ((q.length : Int) + 1) < f.dataBytes := by simpa using hlen
    have hrest := ih
      (f := { f with dataBytes := f.dataBytes - 1, items := f.items ++ [.byte b] }) hmode
      (by simp only; omega)
    rw [feed_cons, step_data b hmode, countDown, if_neg (by omega), if_neg (by omega), hrest]
    simp only [List.append_assoc, List.map_cons, List.singleton_append, List.length_cons,
      Framer.mk.injEq, and_true, true_and]
    omega

/-- The bytes of a block, to its end. -/
theorem feed_data_block {q : Str} (hmode : f.mode = .data) (hpos : 0 < f.dataBytes)
    (hlen : (q.length : Int) = f.dataBytes) :
    feed separator react f q =
      { f with
        mode := .line, dataBytes := 0, items := f.items ++ (q.map .byte ++ [.modeChange]) } := by
  rcases List.eq_nil_or_concat q with rfl | ⟨p, b, rfl⟩
  · simp only [List.length_nil] at hlen
    omega
  · have hp : (p.length : Int) + 1 = f.dataBytes := by simpa using hlen
    have hlast := @step_data separator react
      { f with dataBytes := f.dataBytes - p.length, items := f.items ++ p.map .byte } b hmode
    rw [List.concat_eq_append, feed_append, feed_data_part hmode (by omega), feed_cons, feed_nil,
      hlast, countDown, if_neg (by simp only; omega), if_pos (by simp only; omega)]
    simp

theorem length_line_endLine : (f.endLine react).line.length ≤ f.line.length := by
  rw [endLine]
  split
  · exact Nat.le_refl _
  · simp only
    cases react _ <;> exact Nat.zero_le _

theorem line_countDown (b : UInt8) : (f.countDown b).line = f.line := by
  rw [countDown]
  split
  · rfl
  · split <;> rfl

theorem length_line_feed_le (bytes : Str) :
    (feed separator react f bytes).line.length ≤ f.line.length + bytes.length := by
  induction bytes generalizing f with
  | nil => exact Nat.le_refl _
  | cons b bytes ih =>
    have hstep : (step separator react f b).line.length ≤ f.line.length + 1 := by
      cases hmode : f.mode with
      | line =>
        by_cases hb : b = separator
        · subst hb
          rw [step_separator hmode]
          exact Nat.le_succ_of_le length_line_endLine
        · rw [step_line hmode hb, List.length_append, List.length_singleton]
      | data =>
        rw [step_data b hmode, line_countDown]
        exact Nat.le_succ _
    have hrest := ih (f := step separator react f b)
    rw [feed_cons, List.length_cons]
    omega

/-! A byte of the stream is handed over once and in its place, or it is a separator. -/

/-- The bytes that have been handed over, and those of the line that has not ended. -/
def carried (f : Framer) : Str := f.items.flatMap Item.carried ++ f.line

theorem carried_endLine (hline : f.mode = .line) :
    (f.endLine react).carried = f.carried ∧
      ((f.endLine react).mode = .data → (f.endLine react).line = []) := by
  rw [endLine]
  split
  · refine ⟨rfl, fun h => ?_⟩
    rw [hline] at h
    cases h
  · simp only
    cases react _ <;> simp [carried, Item.carried, setDataMode]

theorem carried_countDown (b : UInt8) (hline : f.line = []) :
    (f.countDown b).carried = f.carried ++ [b] ∧ (f.countDown b).line = [] := by
  refine ⟨?_, (line_countDown b).trans hline⟩
  rw [countDown]
  split
  · simp [carried, Item.carried, hline]
  · split <;> simp [carried, Item.carried, hline]

theorem carried_step (b : UInt8) (h : f.mode = .data → f.line = []) :
    ((step separator react f b).carried = f.carried ++ [b] ∨
        b = separator ∧ (step separator react f b).carried = f.carried) ∧
      ((step separator react f b).mode = .data → (step separator react f b).line = []) := by
  cases hmode : f.mode with
  | line =>
    by_cases hb : b = separator
    · subst hb
      have hend := @carried_endLine react f hmode
      rw [step_separator hmode]
      exact ⟨Or.inr ⟨rfl, hend.1⟩, hend.2⟩
    · rw [step_line hmode hb]
      refine ⟨Or.inl ?_, fun hdata => ?_⟩
      · simp [carried]
      · rw [show f.mode = .data from hdata] at hmode
        cases hmode
  | data =>
    have hcount := carried_countDown b (h hmode)
    rw [step_data b hmode]
    exact ⟨Or.inl hcount.1, fun _ => hcount.2⟩

theorem carried_feed (bytes : Str) (h : f.mode = .data → f.line = []) :
    ∃ kept, (feed separator react f bytes).carried = f.carried ++ kept ∧ kept.Sublist bytes ∧
      kept.filter (· ≠ separator) = bytes.filter (· ≠ separator) := by
  induction bytes generalizing f with
  | nil => exact ⟨[], (List.append_nil _).symm, List.Sublist.refl _, rfl⟩
  | cons b bytes ih =>
    obtain ⟨hstep, hdata⟩ := @carried_step separator react f b h
    obtain ⟨kept, hkept, hsub, hfilter⟩ := ih hdata
    rw [feed_cons, hkept]
    rcases hstep with hstep | ⟨rfl, hstep⟩
    · refine ⟨b :: kept, ?_, hsub.cons_cons b, ?_⟩
      · rw [hstep, List.append_assoc, List.singleton_append]
      · rw [List.filter_cons, List.filter_cons, hfilter]
    · refine ⟨kept, by rw [hstep], hsub.cons b, ?_⟩
      rw [hfilter, List.filter_cons, if_neg (by simp)]

end Framer
/-! ## Where `threadRead` stands -/

open Framer

variable {react : List Str → Option Int} {c : Connection (List Event)}
  {r r' : Reading (List Event)}

/-- What a connection has seen. -/
def seen (c : Connection (List Event)) : Framer where
  mode := c.socket.mode
  dataBytes := c.socket.dataBytes
  line := c.socket.line
  items := items c.listener

/-- Bytes of a line with no separator among them. -/
theorem feed_unread (react : List Str → Option Int) {q : Str} (hmode : c.socket.mode = .line)
    (hq : c.socket.separator ∉ q) :
    feed c.socket.separator react { seen c with line := [] } q = { seen c with line := q } :=
  feed_line hmode hq

/-- What a connection will have seen when the loops end. -/
def pending (react : List Str → Option Int) (r : Reading (List Event)) : Framer :=
  match r.l with
  | none =>
    feed r.socket.separator react (seen r.toConnection)
      ((r.inbuf.drop r.bufpos.toNat).take r.left.toNat)
  | some l => feed r.socket.separator react { seen r.toConnection with line := [] } l

/-- A socket that knows its separator, between two rounds. -/
structure Known (s : BufferedSocket) : Prop where
  separator : s.separator ≠ 0
  rollback : s.rollback = 0
  data : s.mode = .data → s.dataBytes = -1 ∨ 0 < s.dataBytes
  line : s.separator ∉ s.line

/-- The numbers are what they are for. -/
structure Framed (r : Reading (List Event)) : Prop where
  size : r.total ≤ r.inbuf.length
  int : r.inbuf.length < 2 ^ 31
  left : 0 ≤ r.left ∧ r.left ≤ r.total
  known : Known r.socket
  bufpos : r.l = none → 0 < r.left → 0 ≤ r.bufpos ∧ r.bufpos + r.left = r.total
  -- behind bytes of earlier reads, `l` is what is left of the buffer
  lines : ∀ l, r.l = some l → r.socket.mode = .line ∧ ∃ p, r.socket.separator ∉ p ∧
    l = p ++ (r.inbuf.drop (r.total - r.left).toNat).take r.left.toNat

theorem items_append (es fs : List Event) : items (es ++ fs) = items es ++ items fs :=
  List.flatMap_append

theorem seen_fire_line (l : Str) (hl : l ≠ []) :
    { seen (fire (recorder react) c (.line l)) with line := [] } =
      { seen c with line := l }.endLine react := by
  rw [endLine, if_neg hl]
  have hitems : items (c.listener ++ [.line l]) = items c.listener ++ [.line l] :=
    items_append _ _
  simp only [seen, fire, recorder, hitems]
  cases react (lines (items c.listener ++ [.line l])) <;> rfl

@[simp] theorem separator_fire (on : Listener (List Event)) (e : Event) :
    (fire on c e).socket.separator = c.socket.separator := by
  rw [fire]
  cases (on c.listener e).2 <;> rfl

@[simp] theorem rollback_fire (on : Listener (List Event)) (e : Event) :
    (fire on c e).socket.rollback = c.socket.rollback := by
  rw [fire]
  cases (on c.listener e).2 <;> rfl

@[simp] theorem line_fire (on : Listener (List Event)) (e : Event) :
    (fire on c e).socket.line = c.socket.line := by
  rw [fire]
  cases (on c.listener e).2 <;> rfl

/-- The end of the line `q`, for the socket. -/
def lineEnd (react : List Str → Option Int) (c : Connection (List Event)) (q : Str) :
    Connection (List Event) :=
  if 0 < q.length then fire (recorder react) c (.line q) else c

theorem seen_lineEnd (q : Str) :
    { seen (lineEnd react c q) with line := [] } = { seen c with line := q }.endLine react := by
  rw [lineEnd]
  split
  · rename_i hq
    exact seen_fire_line q (List.length_pos_iff.mp hq)
  · rename_i hq
    have hnil : q = [] := List.eq_nil_of_length_eq_zero (Nat.eq_zero_of_not_pos hq)
    subst hnil
    rw [endLine, if_pos rfl]

theorem separator_lineEnd (q : Str) :
    (lineEnd react c q).socket.separator = c.socket.separator := by
  rw [lineEnd]
  split <;> simp

/-- After a line the mode is data mode only where the listener has said how many bytes. -/
theorem data_lineEnd (hreact : ∀ ls, ∀ n ∈ react ls, n = -1 ∨ 0 < n) (q : Str)
    (h : c.socket.mode = .line) (hmode : (lineEnd react c q).socket.mode = .data) :
    (lineEnd react c q).socket.dataBytes = -1 ∨ 0 < (lineEnd react c q).socket.dataBytes := by
  by_cases hq : 0 < q.length
  · rw [lineEnd, if_pos hq] at hmode ⊢
    simp only [fire, recorder] at hmode ⊢
    cases hn : react (lines (items (c.listener ++ [.line q]))) with
    | none =>
      rw [hn, Option.elim_none, h] at hmode
      cases hmode
    | some n => exact hreact _ n hn
  · rw [lineEnd, if_neg hq, h] at hmode
    cases hmode

theorem known_lineEnd (hreact : ∀ ls, ∀ n ∈ react ls, n = -1 ∨ 0 < n) (q : Str)
    (hmode : c.socket.mode = .line) (h : Known c.socket) :
    Known (lineEnd react c q).socket := by
  refine ⟨?_, ?_, data_lineEnd hreact q hmode, ?_⟩
  · rw [separator_lineEnd]
    exact h.separator
  · rw [lineEnd]
    split <;> simp [h.rollback]
  · rw [separator_lineEnd, lineEnd]
    split <;> simp [h.line]

/-- An upper bound of the rounds to come. -/
def remaining (r : Reading (List Event)) : Nat :=
  match r.l with
  | some l => 2 * l.length + 1
  | none => if 0 < r.left then 2 * (r.socket.line.length + r.left.toNat) + 2 else 0

/-! ## Rounds -/

theorem pending_enterLines (h : Framed r) (hl : r.l = none) (hmode : r.socket.mode = .line) :
    pending react (enterLines r) = pending react r := by
  have hline := feed_unread react hmode h.known.line
  simp only [pending, enterLines, detectSeparator, hl, if_neg h.known.separator, feed_append]
  exact congrArg (fun f => feed _ react f _) hline

theorem Framed.enterLines (h : Framed r) (hl : r.l = none) (hleft : 0 < r.left)
    (hmode : r.socket.mode = .line) : Framed (enterLines r) := by
  have hpos := h.bufpos hl hleft
  refine ⟨h.size, h.int, h.left, ?_, ?_, ?_⟩ <;>
    simp only [BufferedSocket.enterLines, detectSeparator, if_neg h.known.separator]
  · exact h.known
  · intro hnone
    cases hnone
  · intro l hsome
    cases hsome
    refine ⟨hmode, r.socket.line, h.known.line, ?_⟩
    rw [show r.total - r.left = r.bufpos by omega]

/-- The part of the buffer behind the separator that ends the line `q`. -/
theorem drop_suffix {inbuf p q rest : Str} {b : UInt8} {total left : Nat} (hp : b ∉ p)
    (hsize : total ≤ inbuf.length) (hleft : left ≤ total)
    (h : p ++ (inbuf.drop (total - left)).take left = q ++ b :: rest) :
    rest.length < left ∧ rest = (inbuf.drop (total - rest.length)).take rest.length := by
  have hlen : ((inbuf.drop (total - left)).take left).length = left := by
    rw [List.length_take, List.length_drop]
    omega
  have hsum : p.length + left = q.length + (rest.length + 1) := by
    have := congrArg List.length h
    rwa [List.length_append, hlen, List.length_append, List.length_cons] at this
  have hle : p.length ≤ q.length := by
    by_contra hlt
    have hb : (p ++ (inbuf.drop (total - left)).take left)[q.length]? = some b := by
      rw [h, List.getElem?_append_right (Nat.le_refl _), Nat.sub_self]
      rfl
    rw [List.getElem?_append_left (by omega)] at hb
    exact hp (List.mem_of_getElem? hb)
  have hrest : rest = ((inbuf.drop (total - left)).take left).drop (q.length + 1 - p.length) := by
    have := congrArg (List.drop (q.length + 1)) h
    rw [List.drop_append, List.drop_eq_nil_of_le (by omega), List.nil_append, List.drop_append,
      List.drop_eq_nil_of_le (Nat.le_succ _), List.nil_append, Nat.add_sub_cancel_left] at this
    exact this.symm
  refine ⟨by omega, ?_⟩
  conv => lhs; rw [hrest]
  rw [List.drop_take, List.drop_drop]
  congr 1
  · omega
  · congr 1
    omega

/-- Before a separator is found. -/
theorem pending_found {q rest : Str} (hl : r.l = some (q ++ r.socket.separator :: rest))
    (hmode : r.socket.mode = .line) (hq : r.socket.separator ∉ q) :
    pending react r =
      feed r.socket.separator react { seen (lineEnd react r.toConnection q) with line := [] }
        rest := by
  have hline := feed_unread react hmode hq
  rw [pending, hl]
  simp only
  rw [feed_append, hline, feed_cons, step_separator hmode, seen_lineEnd]

theorem lineRound_eq {q rest : Str} (hq : r.socket.separator ∉ q)
    (hleft : (rest.length : Int) ≤ r.left) :
    lineRound (recorder react) r (q ++ r.socket.separator :: rest) =
      if (lineEnd react r.toConnection q).socket.mode ≠ .line then
        { r with
          socket := { (lineEnd react r.toConnection q).socket with line := [] }
          listener := (lineEnd react r.toConnection q).listener
          bufpos := r.total - rest.length, left := rest.length, l := none }
      else
        { r with
          toConnection := lineEnd react r.toConnection q, left := rest.length,
            l := some rest } := by
  have hdrop : (q ++ r.socket.separator :: rest).drop (q.length + 1) = rest := by
    rw [List.drop_append, List.drop_eq_nil_of_le (Nat.le_succ _), List.nil_append,
      Nat.add_sub_cancel_left]
    rfl
  have hmin : (if (rest.length : Int) < r.left then (rest.length : Int) else r.left) =
      rest.length := by
    split <;> omega
  rw [lineRound, Lib.idxOf?_split hq]
  simp only [hdrop, hmin, List.take_left]
  rfl

/-- A round of the loop over the lines. -/
theorem lineRound_keeps {l : Str} (h : Framed r) (hl : r.l = some l)
    (hreact : ∀ ls, ∀ n ∈ react ls, n = -1 ∨ 0 < n) :
    Framed (lineRound (recorder react) r l) ∧
      pending react (lineRound (recorder react) r l) = pending react r := by
  obtain ⟨hmode, p, hp, hlp⟩ := h.lines l hl
  cases hidx : l.idxOf? r.socket.separator with
  | none =>
    have hsep : r.socket.separator ∉ l := List.idxOf?_eq_none_iff.mp hidx
    have hround : lineRound (recorder react) r l =
        { r with left := 0, socket := { r.socket with line := l }, l := none } := by
      rw [lineRound, hidx]
    rw [hround]
    constructor
    · refine ⟨h.size, h.int, ⟨Int.le_refl _, h.left.1.trans h.left.2⟩,
        ⟨h.known.separator, h.known.rollback, h.known.data, hsep⟩, ?_, ?_⟩
      · intro _ hpos
        exact absurd hpos (Int.lt_irrefl _)
      · intro l' hl'
        cases hl'
    · have hline := feed_unread react hmode hsep
      simp only [pending, hl, Int.toNat_zero, List.take_zero, feed_nil]
      exact hline.symm
  | some pos =>
    obtain ⟨q, rest, rfl, hq, -⟩ := Lib.idxOf?_eq_some_split hidx
    have hleft := h.left
    have hsize := h.size
    have hstart : (r.total - r.left).toNat = r.total.toNat - r.left.toNat := by omega
    rw [hstart] at hlp
    have hsuffix := drop_suffix hp (by omega) (by omega) hlp.symm
    obtain ⟨hlt, hrest⟩ := hsuffix
    have hrest' : rest = (r.inbuf.drop (r.total - rest.length).toNat).take rest.length := by
      rwa [show (r.total - (rest.length : Int)).toNat = r.total.toNat - rest.length by omega]
    rw [lineRound_eq hq (by omega), pending_found hl hmode hq]
    split
    · rename_i hdata
      have hdata : (lineEnd react r.toConnection q).socket.mode = .data := by
        cases hm : (lineEnd react r.toConnection q).socket.mode with
        | line => exact absurd hm hdata
        | data => rfl
      constructor
      · refine ⟨h.size, h.int, ⟨Int.natCast_nonneg _, by simp only; omega⟩, ?_, ?_, ?_⟩
        · have hknown := known_lineEnd hreact q hmode h.known
          exact ⟨hknown.separator, hknown.rollback, hknown.data, List.not_mem_nil⟩
        · intro _ _
          simp only
          omega
        · intro l hl
          cases hl
      · simp only [pending, separator_lineEnd, Int.toNat_natCast]
        rw [← hrest']
        rfl
    · rename_i hline
      have hline : (lineEnd react r.toConnection q).socket.mode = .line := not_not.mp hline
      constructor
      · refine ⟨h.size, h.int, ⟨Int.natCast_nonneg _, by simp only; omega⟩,
          known_lineEnd hreact q hmode h.known, ?_, ?_⟩
        · intro hl
          cases hl
        · intro l hl
          cases hl
          refine ⟨hline, [], List.not_mem_nil, ?_⟩
          rwa [List.nil_append, Int.toNat_natCast]
      · simp only [pending, separator_lineEnd]

theorem toSizeT_of_lt {n : Int} (h0 : 0 ≤ n) (h : n < 2 ^ 64) : toSizeT n = n.toNat := by
  rw [toSizeT, Int.emod_eq_of_lt h0 h]

theorem toInt32_of_lt {n : Int} (h0 : 0 ≤ n) (h : n < 2 ^ 31) : toInt32 n = n := by
  rw [toInt32, Int.bmod_eq_of_le] <;> omega

/-- The next `n` bytes of the buffer, and those behind them. -/
theorem take_block (inbuf : Str) {bufpos left n : Int} (hpos : 0 ≤ bufpos) (h0 : 0 ≤ n)
    (hn : n ≤ left) :
    (inbuf.drop bufpos.toNat).take left.toNat =
      (inbuf.drop bufpos.toNat).take n.toNat ++
        (inbuf.drop (bufpos + n).toNat).take (left - n).toNat := by
  have hleft : left.toNat = n.toNat + (left - n).toNat := by omega
  have hdrop : (bufpos + n).toNat = bufpos.toNat + n.toNat := by omega
  rw [hleft, List.take_add, List.drop_drop, hdrop]

theorem dataRound_rest_eq (h : Framed r) (hbytes : r.socket.dataBytes = -1) :
    dataRound (recorder react) r =
      { r with
        socket := { r.socket with rollback := 0 }
        listener := r.listener ++ [.data r.inbuf r.bufpos r.left.toNat]
        bufpos := r.bufpos + (r.left - 0), left := 0 } := by
  have hsize := h.size
  have hint := h.int
  have hbuf := h.left
  rw [dataRound, if_pos hbytes, toSizeT_of_lt h.left.1 (by omega)]
  simp only [fire, recorder, Option.elim_none, h.known.rollback]
  rfl

theorem dataRound_block_eq {n : Int} (h : Framed r) (hbytes : 0 < r.socket.dataBytes)
    (hn : min r.socket.dataBytes r.left = n) :
    dataRound (recorder react) r =
      { r with
        socket := { r.socket with
          mode := if r.socket.dataBytes - n = 0 then .line else r.socket.mode
          dataBytes := r.socket.dataBytes - n }
        listener := r.listener ++ (.data r.inbuf r.bufpos n.toNat ::
          if r.socket.dataBytes - n = 0 then [.modeChange] else [])
        bufpos := r.bufpos + n, left := r.left - n } := by
  have hsize := h.size
  have hint := h.int
  have hbuf := h.left
  have hhigh : toInt32 n = n := toInt32_of_lt (by omega) (by omega)
  have hlen : toSizeT n = n.toNat := toSizeT_of_lt (by omega) (by omega)
  rw [dataRound, if_neg (by omega), hn, hhigh]
  simp only [fire, recorder, Option.elim_none, hlen]
  split <;> simp

/-- A block that has no end takes everything. -/
theorem dataRound_rest (h : Framed r) (hl : r.l = none)
    (hmode : r.socket.mode = .data) (hbytes : r.socket.dataBytes = -1) :
    Framed (dataRound (recorder react) r) ∧
      pending react (dataRound (recorder react) r) = pending react r := by
  rw [dataRound_rest_eq h hbytes]
  constructor
  · refine ⟨h.size, h.int, ⟨Int.le_refl _, h.left.1.trans h.left.2⟩,
      ⟨h.known.separator, rfl, h.known.data, h.known.line⟩, ?_, ?_⟩
    · intro _ hpos
      exact absurd hpos (Int.lt_irrefl _)
    · intro l hl'
      rw [hl] at hl'
      cases hl'
  · have hrest := @feed_data_rest r.socket.separator react (seen r.toConnection)
      ((r.inbuf.drop r.bufpos.toNat).take r.left.toNat) hmode hbytes
    simp only [pending, hl, Int.toNat_zero, List.take_zero, feed_nil]
    rw [hrest]
    simp [seen, items, Event.items]

/-- A block of some bytes. -/
theorem dataRound_block (h : Framed r) (hl : r.l = none) (hleft : 0 < r.left)
    (hmode : r.socket.mode = .data) (hbytes : 0 < r.socket.dataBytes) :
    Framed (dataRound (recorder react) r) ∧
      pending react (dataRound (recorder react) r) = pending react r := by
  have hsize := h.size
  have hbuf := h.left
  have hpos := h.bufpos hl hleft
  obtain ⟨n, hn⟩ : ∃ n, min r.socket.dataBytes r.left = n := ⟨_, rfl⟩
  have hn0 : 0 < n := by omega
  have hnle : n ≤ r.left := by omega
  have hblock := take_block r.inbuf hpos.1 hn0.le hnle
  have hcount : (((r.inbuf.drop r.bufpos.toNat).take n.toNat).length : Int) = n := by
    rw [List.length_take, List.length_drop]
    omega
  rw [dataRound_block_eq h hbytes hn]
  constructor
  · refine ⟨h.size, h.int, ?_, ⟨h.known.separator, h.known.rollback, ?_, h.known.line⟩, ?_, ?_⟩
    · simp only
      omega
    · simp only
      split
      · intro hm
        cases hm
      · intro _
        omega
    · intro _ _
      simp only
      omega
    · intro l hl'
      rw [hl] at hl'
      cases hl'
  · simp only [pending, hl]
    rw [hblock, feed_append]
    congr 1
    split
    · rename_i hend
      rw [feed_data_block hmode hbytes (by rw [hcount]; exact (Int.sub_eq_zero.mp hend).symm)]
      simp [seen, items, Event.items, hend]
    · rename_i hmore
      rw [feed_data_part hmode (by rw [hcount]; simp only [seen]; omega), hcount]
      simp [seen, items, Event.items]

theorem remaining_dataRound (react : List Str → Option Int) (h : Framed r) (hl : r.l = none)
    (hleft : 0 < r.left)
    (hmode : r.socket.mode = .data) :
    remaining (dataRound (recorder react) r) < remaining r ∧
      (dataRound (recorder react) r).socket.separator = r.socket.separator := by
  have hbound : remaining r = 2 * (r.socket.line.length + r.left.toNat) + 2 := by
    rw [remaining, hl]
    exact if_pos hleft
  rcases h.known.data hmode with hbytes | hbytes
  · rw [dataRound_rest_eq h hbytes, hbound]
    refine ⟨?_, rfl⟩
    simp only [remaining, hl]
    rw [if_neg (Int.lt_irrefl 0)]
    exact Nat.succ_pos _
  · obtain ⟨n, hn⟩ : ∃ n, min r.socket.dataBytes r.left = n := ⟨_, rfl⟩
    rw [dataRound_block_eq h hbytes hn, hbound]
    refine ⟨?_, rfl⟩
    simp only [remaining, hl]
    split <;> omega

theorem dataRound_keeps (react : List Str → Option Int) (h : Framed r) (hl : r.l = none)
    (hleft : 0 < r.left)
    (hmode : r.socket.mode = .data) :
    Framed (dataRound (recorder react) r) ∧
      pending react (dataRound (recorder react) r) = pending react r := by
  rcases h.known.data hmode with hbytes | hbytes
  · exact dataRound_rest h hl hmode hbytes
  · exact dataRound_block h hl hleft hmode hbytes

/-! ## The loops -/

/-- What there is between two rounds, and what becomes of it. -/
structure Kept (react : List Str → Option Int) (r r' : Reading (List Event)) : Prop where
  framed : Framed r'
  pending : pending react r' = pending react r
  separator : r'.socket.separator = r.socket.separator

theorem remaining_lineRound (react : List Str → Option Int) {l : Str} (h : Framed r)
    (hl : r.l = some l) :
    remaining (lineRound (recorder react) r l) < 2 * l.length + 1 ∧
      (lineRound (recorder react) r l).socket.separator = r.socket.separator := by
  cases hidx : l.idxOf? r.socket.separator with
  | none =>
    rw [lineRound, hidx]
    exact ⟨Nat.succ_pos _, rfl⟩
  | some pos =>
    obtain ⟨q, rest, rfl, hq, -⟩ := Lib.idxOf?_eq_some_split hidx
    obtain ⟨-, p, hp, hlp⟩ := h.lines _ hl
    have hleft := h.left
    have hsize := h.size
    have hstart : (r.total - r.left).toNat = r.total.toNat - r.left.toNat := by omega
    rw [hstart] at hlp
    have hlt := (drop_suffix hp (by omega) (by omega) hlp.symm).1
    rw [lineRound_eq hq (by omega), List.length_append, List.length_cons]
    split
    · refine ⟨?_, separator_lineEnd q⟩
      simp only [remaining, List.length_nil, Int.toNat_natCast]
      split <;> omega
    · refine ⟨?_, separator_lineEnd q⟩
      simp only [remaining]
      omega

theorem round_keeps (hreact : ∀ ls, ∀ n ∈ react ls, n = -1 ∨ 0 < n) (h : Framed r)
    (hnext : Loop.Next (round (recorder react)) r r') :
    Kept react r r' ∧ remaining r' < remaining r := by
  rw [Loop.Next, round] at hnext
  cases hl : r.l with
  | some l =>
    rw [hl, Option.some.injEq, Sum.inr.injEq] at hnext
    subst hnext
    have hkeeps := lineRound_keeps h hl hreact
    have hdec := remaining_lineRound react h hl
    have hbound : remaining r = 2 * l.length + 1 := by
      rw [remaining, hl]
    exact ⟨⟨hkeeps.1, hkeeps.2, hdec.2⟩, hbound ▸ hdec.1⟩
  | none =>
    rw [hl] at hnext
    simp only at hnext
    split at hnext
    · rename_i hleft
      cases hmode : r.socket.mode with
      | line =>
        have hbound : remaining r = 2 * (r.socket.line.length + r.left.toNat) + 2 := by
          rw [remaining, hl]
          exact if_pos hleft
        rw [hmode, Option.some.injEq, Sum.inr.injEq] at hnext
        subst hnext
        refine ⟨⟨h.enterLines hl hleft hmode, pending_enterLines h hl hmode, ?_⟩, ?_⟩
        · simp only [enterLines, detectSeparator, if_neg h.known.separator]
        · rw [hbound]
          simp only [remaining, enterLines, List.length_append, List.length_take]
          omega
      | data =>
        rw [hmode, Option.some.injEq, Sum.inr.injEq] at hnext
        subst hnext
        have hkeeps := dataRound_keeps react h hl hleft hmode
        have hdec := remaining_dataRound react h hl hleft hmode
        exact ⟨⟨hkeeps.1, hkeeps.2, hdec.2⟩, hdec.1⟩
    · cases hnext

theorem halts_round (hreact : ∀ ls, ∀ n ∈ react ls, n = -1 ∨ 0 < n) (h : Framed r) :
    ∃ n c, Loop.run (round (recorder react)) n r = some c := by
  refine ⟨remaining r + 1, Loop.run_of_not_stuck remaining (fun r => ¬ Framed r) ?_ ?_ ?_
    (Nat.lt_succ_self _)⟩
  · intro s _ hnone
    rw [round] at hnone
    cases hl : s.l with
    | some l =>
      rw [hl] at hnone
      cases hnone
    | none =>
      rw [hl] at hnone
      simp only at hnone
      split at hnone
      · cases hmode : s.socket.mode <;> rw [hmode] at hnone <;> cases hnone
      · cases hnone
  · intro s t hs hnext
    exact (round_keeps hreact (not_not.mp hs) hnext).2
  · intro hstuck
    obtain ⟨t, hsteps, ht⟩ := hstuck
    apply ht
    clear ht
    induction hsteps with
    | refl => exact h
    | tail _ hnext ih => exact (round_keeps hreact ih hnext).1.framed

/-- When the loops end nothing is left to come. -/
theorem seen_of_returns (hreact : ∀ ls, ∀ n ∈ react ls, n = -1 ∨ 0 < n) (h : Framed r)
    (hc : Loop.Returns (round (recorder react)) r c) :
    Known c.socket ∧ c.socket.separator = r.socket.separator ∧ seen c = pending react r := by
  refine hc.induct (P := Kept react r)
    (Q := fun c => Known c.socket ∧ c.socket.separator = r.socket.separator ∧
      seen c = pending react r) ?_ ?_ ⟨h, rfl, rfl⟩
  · intro s t hs hnext
    have hkept := (round_keeps hreact hs.framed hnext).1
    exact ⟨hkept.framed, hkept.pending.trans hs.pending, hkept.separator.trans hs.separator⟩
  · intro s c hs hreturn
    rw [round] at hreturn
    cases hl : s.l with
    | some l =>
      rw [hl] at hreturn
      cases hreturn
    | none =>
      rw [hl] at hreturn
      simp only at hreturn
      split at hreturn
      · cases hmode : s.socket.mode <;> rw [hmode] at hreturn <;> cases hreturn
      · rename_i hleft
        cases hreturn
        refine ⟨hs.framed.known, hs.separator, ?_⟩
        rw [← hs.pending, pending, hl]
        simp only
        rw [Int.toNat_of_nonpos (Int.not_lt.mp hleft), List.take_zero, feed_nil]

/-! ## Reads -/

variable {maxCommandLength : Nat} {read : SocketRead} {reads : List SocketRead} {n : Nat}
  {c' : Connection (List Event)}

theorem framed_start (hc : Known c.socket) (hpos : 0 < read.left) :
    Framed (startReading c read) := by
  refine ⟨read.le, read.size, ⟨hpos.le, Int.le_refl _⟩, hc, ?_, ?_⟩
  · intro _ _
    exact ⟨Int.le_refl _, Int.zero_add _⟩
  · intro l hl
    cases hl

theorem checkLength_eq_ok (h : checkLength maxCommandLength c = .ok c') : c = c' := by
  rw [checkLength] at h
  split at h
  · cases h
  · exact Except.ok.inj h

theorem threadRead_of_pos (on : Listener (List Event)) (hpos : 0 < read.left) :
    threadRead n on maxCommandLength c read =
      (Loop.run (round on) n (startReading c read)).map (checkLength maxCommandLength) := by
  rw [threadRead, if_neg (by omega), if_neg (by omega)]

/-- **One read does with its bytes what the framer does.** -/
theorem threadRead_seen (hreact : ∀ ls, ∀ n ∈ react ls, n = -1 ∨ 0 < n) (hc : Known c.socket)
    (hpos : 0 < read.left)
    (h : threadRead n (recorder react) maxCommandLength c read = some (.ok c')) :
    Known c'.socket ∧ c'.socket.separator = c.socket.separator ∧
      seen c' = feed c.socket.separator react (seen c) read.bytes := by
  rw [threadRead_of_pos _ hpos, Option.map_eq_some_iff] at h
  obtain ⟨d, hd, hok⟩ := h
  have hdc := checkLength_eq_ok hok
  subst hdc
  exact seen_of_returns hreact (framed_start hc hpos) ⟨n, hd⟩

theorem exists_threadRead (hreact : ∀ ls, ∀ n ∈ react ls, n = -1 ∨ 0 < n) (hc : Known c.socket)
    (hpos : 0 < read.left)
    (hlen : (feed c.socket.separator react (seen c) read.bytes).line.length ≤
      maxCommandLength) :
    ∃ n c', threadRead n (recorder react) maxCommandLength c read = some (.ok c') := by
  obtain ⟨n, d, hd⟩ := halts_round hreact (framed_start hc hpos)
  obtain ⟨-, -, hseen⟩ := seen_of_returns hreact (framed_start hc hpos) ⟨n, hd⟩
  refine ⟨n, d, ?_⟩
  rw [threadRead_of_pos _ hpos, hd, Option.map_some, checkLength, if_neg]
  intro hlong
  have hline : d.socket.line = (feed c.socket.separator react (seen c) read.bytes).line :=
    congrArg Framer.line hseen
  rw [hline] at hlong
  exact absurd hlong.2 (Nat.not_lt.mpr hlen)

theorem received (hreact : ∀ ls, ∀ n ∈ react ls, n = -1 ∨ 0 < n) (hc : Known c.socket)
    (hpos : ∀ read ∈ reads, 0 < read.left)
    (h : Receives (recorder react) maxCommandLength c reads c') :
    Known c'.socket ∧ c'.socket.separator = c.socket.separator ∧
      seen c' = feed c.socket.separator react (seen c) (reads.flatMap SocketRead.bytes) := by
  induction h with
  | nil c => exact ⟨hc, rfl, rfl⟩
  | cons n h _ ih =>
    obtain ⟨hknown, hsep, hseen⟩ := threadRead_seen hreact hc (hpos _ List.mem_cons_self) h
    obtain ⟨hknown', hsep', hseen'⟩ := ih hknown fun r hr => hpos r (List.mem_cons_of_mem _ hr)
    refine ⟨hknown', hsep'.trans hsep, ?_⟩
    rw [hseen', hsep, hseen, List.flatMap_cons, feed_append]

theorem exists_receives (hreact : ∀ ls, ∀ n ∈ react ls, n = -1 ∨ 0 < n) (hc : Known c.socket)
    (hpos : ∀ read ∈ reads, 0 < read.left)
    (hlimit : ∀ p, p <+: reads.flatMap SocketRead.bytes →
      (feed c.socket.separator react (seen c) p).line.length ≤ maxCommandLength) :
    ∃ c', Receives (recorder react) maxCommandLength c reads c' := by
  induction reads generalizing c with
  | nil => exact ⟨c, .nil c⟩
  | cons read reads ih =>
    rw [List.flatMap_cons] at hlimit
    have hread := hpos read List.mem_cons_self
    obtain ⟨n, d, hd⟩ := exists_threadRead hreact hc hread (hlimit _ (List.prefix_append _ _))
    obtain ⟨hknown, hsep, hseen⟩ := threadRead_seen hreact hc hread hd
    have hrest : ∀ p, p <+: reads.flatMap SocketRead.bytes →
        (feed d.socket.separator react (seen d) p).line.length ≤ maxCommandLength := by
      intro p hp
      rw [hsep, hseen, ← feed_append]
      exact hlimit _ ((List.prefix_append_right_inj _).mpr hp)
    obtain ⟨c', hc'⟩ := ih hknown (fun r hr => hpos r (List.mem_cons_of_mem _ hr)) hrest
    exact ⟨c', .cons n hd hc'⟩

/-! ## The separator -/

/-- A socket between two reads. One that does not know its separator yet has read nothing. -/
structure Ready (s : BufferedSocket) : Prop where
  rollback : s.rollback = 0
  data : s.mode = .data → (s.dataBytes = -1 ∨ 0 < s.dataBytes) ∧ s.line = []
  line : s.separator ∉ s.line
  fresh : s.separator = 0 → s.mode = .line ∧ s.line = []

/-- The socket when it knows the separator of the stream. -/
def detected (s : BufferedSocket) (stream : Str) : BufferedSocket :=
  { s with separator := detectSeparator s.separator stream }

theorem Ready.known {s : BufferedSocket} (h : Ready s) (stream : Str) :
    Known (s.detected stream) := by
  by_cases hsep : s.separator = 0
  · refine ⟨?_, h.rollback, fun hmode => (h.data hmode).1, ?_⟩
    · simp only [detected, detectSeparator, if_pos hsep]
      split <;> decide
    · simp only [detected, (h.fresh hsep).2]
      exact List.not_mem_nil
  · have heq : s.detected stream = s := by
      rw [detected, detectSeparator, if_neg hsep]
    rw [heq]
    exact ⟨hsep, h.rollback, fun hmode => (h.data hmode).1, h.line⟩

theorem getD_bytes (hpos : 0 < read.left) (rest : Str) :
    (read.bytes ++ rest).getD 0 0 = read.inbuf.getD 0 0 := by
  have hle := read.le
  have hlen : 0 < read.bytes.length := by
    rw [SocketRead.bytes, List.length_take]
    omega
  rw [List.getD_append _ _ _ _ hlen, SocketRead.bytes, List.getD_eq_getElem?_getD,
    List.getElem?_take_of_lt (by omega), List.getD_eq_getElem?_getD]

/-- The first read finds out the separator. -/
theorem threadRead_detected {s : BufferedSocket} (hs : Ready s) {es : List Event}
    (on : Listener (List Event)) (hpos : 0 < read.left) (rest : Str) :
    threadRead n on maxCommandLength ⟨s, es⟩ read =
      threadRead n on maxCommandLength ⟨s.detected (read.bytes ++ rest), es⟩ read := by
  by_cases hsep : s.separator = 0
  · rw [threadRead_of_pos on hpos, threadRead_of_pos on hpos]
    congr 1
    apply Loop.run_congr
    have hmode := (hs.fresh hsep).1
    have hdetect : detectSeparator (detectSeparator s.separator (read.bytes ++ rest)) read.inbuf =
        detectSeparator s.separator read.inbuf := by
      simp only [detectSeparator, if_pos hsep, getD_bytes hpos]
      split
      · exact if_neg (by decide)
      · exact if_neg (by decide)
    simp only [round, startReading, detected, if_pos hpos, hmode, enterLines, hdetect]
  · rw [detected, detectSeparator, if_neg hsep]

theorem receives_detected {s : BufferedSocket} (hs : Ready s) {es : List Event}
    (on : Listener (List Event)) (hpos : ∀ read ∈ reads, 0 < read.left) (hne : reads ≠ []) :
    Receives on maxCommandLength ⟨s, es⟩ reads c ↔
      Receives on maxCommandLength ⟨s.detected (reads.flatMap SocketRead.bytes), es⟩ reads c := by
  cases reads with
  | nil => exact absurd rfl hne
  | cons read reads =>
    have hread := hpos read List.mem_cons_self
    rw [List.flatMap_cons]
    constructor
    · intro h
      cases h with
      | cons n h hs' => exact .cons n (threadRead_detected hs on hread _ ▸ h) hs'
    · intro h
      cases h with
      | cons n h hs' =>
        refine .cons n ?_ hs'
        rw [threadRead_detected hs on hread]
        exact h

/-! ## Partitions of a stream -/

theorem reads_eq_nil_iff (hpos : ∀ read ∈ reads, 0 < read.left) :
    reads = [] ↔ reads.flatMap SocketRead.bytes = [] := by
  constructor
  · intro h
    rw [h, List.flatMap_nil]
  · intro h
    cases reads with
    | nil => rfl
    | cons read reads =>
      have hread := hpos read List.mem_cons_self
      have hle := read.le
      have hlen := congrArg List.length h
      rw [List.flatMap_cons, List.length_append, SocketRead.bytes, List.length_take,
        List.length_nil] at hlen
      omega

/-- What a connection has seen of a stream. -/
structure Received (react : List Str → Option Int) (s : BufferedSocket) (stream : Str)
    (c : Connection (List Event)) : Prop where
  separator : c.socket.separator =
    if stream = [] then s.separator else (s.detected stream).separator
  rollback : c.socket.rollback = 0
  framer : seen c = feed (s.detected stream).separator react (seen ⟨s, []⟩) stream

/-- **Whatever the reads, the connection has seen what the framer sees.** -/
theorem received_stream {s : BufferedSocket} {stream : Str} (hs : Ready s)
    (hreact : ∀ ls, ∀ n ∈ react ls, n = -1 ∨ 0 < n) (hpos : ∀ read ∈ reads, 0 < read.left)
    (hbytes : reads.flatMap SocketRead.bytes = stream)
    (h : Receives (recorder react) maxCommandLength ⟨s, []⟩ reads c) :
    Received react s stream c := by
  by_cases hne : reads = []
  · subst hne
    subst hbytes
    cases h
    exact ⟨(if_pos rfl).symm, hs.rollback, rfl⟩
  · have hstream : stream ≠ [] := fun h => hne ((reads_eq_nil_iff hpos).mpr (hbytes.trans h))
    rw [receives_detected hs _ hpos hne, hbytes] at h
    obtain ⟨hknown, hsep, hseen⟩ := received hreact (hs.known stream) hpos h
    rw [hbytes] at hseen
    exact ⟨by rw [if_neg hstream, hsep], hknown.rollback, hseen⟩

theorem exists_receives_stream {s : BufferedSocket} {stream : Str} (hs : Ready s)
    (hreact : ∀ ls, ∀ n ∈ react ls, n = -1 ∨ 0 < n) (hpos : ∀ read ∈ reads, 0 < read.left)
    (hbytes : reads.flatMap SocketRead.bytes = stream)
    (hlimit : ∀ p, p <+: stream →
      (feed (s.detected stream).separator react (seen ⟨s, []⟩) p).line.length ≤
        maxCommandLength) :
    ∃ c, Receives (recorder react) maxCommandLength ⟨s, []⟩ reads c := by
  by_cases hne : reads = []
  · subst hne
    exact ⟨_, .nil _⟩
  · subst hbytes
    obtain ⟨c, hc⟩ := exists_receives hreact (c := ⟨s.detected _, []⟩) (hs.known _) hpos hlimit
    exact ⟨c, (receives_detected hs _ hpos hne).mpr hc⟩

theorem Received.unique {s : BufferedSocket} {stream : Str} (h : Received react s stream c)
    (h' : Received react s stream c') :
    c.socket = c'.socket ∧ items c.listener = items c'.listener := by
  have hseen : seen c = seen c' := h.framer.trans h'.framer.symm
  have hsep : c.socket.separator = c'.socket.separator := h.separator.trans h'.separator.symm
  have hroll : c.socket.rollback = c'.socket.rollback := h.rollback.trans h'.rollback.symm
  simp only [seen, Framer.mk.injEq] at hseen
  obtain ⟨hmode, hdata, hline, hitems⟩ := hseen
  refine ⟨?_, hitems⟩
  obtain ⟨⟨sep, mode, dataBytes, rollback, line⟩, es⟩ := c
  obtain ⟨⟨sep', mode', dataBytes', rollback', line'⟩, es'⟩ := c'
  simp_all

/-- **A stream is framed in one way, however it arrives.** Any two sequences of reads of the same
    bytes go through, and they end in the same state with the same events: those of the framer,
    which hands over every byte once, in the mode it belongs to, the separators excepted. -/
theorem framing_independent {s : BufferedSocket} {stream : Str} {reads reads' : List SocketRead}
    (hs : Ready s) (hreact : ∀ ls, ∀ n ∈ react ls, n = -1 ∨ 0 < n)
    (hlimit : ∀ p, p <+: stream →
      (feed (s.detected stream).separator react (seen ⟨s, []⟩) p).line.length ≤ maxCommandLength)
    (hpos : ∀ read ∈ reads, 0 < read.left) (hpos' : ∀ read ∈ reads', 0 < read.left)
    (hbytes : reads.flatMap SocketRead.bytes = stream)
    (hbytes' : reads'.flatMap SocketRead.bytes = stream) :
    (∃ c, Receives (recorder react) maxCommandLength ⟨s, []⟩ reads c) ∧
    (∃ c, Receives (recorder react) maxCommandLength ⟨s, []⟩ reads' c) ∧
    ∀ c c', Receives (recorder react) maxCommandLength ⟨s, []⟩ reads c →
      Receives (recorder react) maxCommandLength ⟨s, []⟩ reads' c' →
      c.socket = c'.socket ∧ items c.listener = items c'.listener ∧
      items c.listener =
        (feed (s.detected stream).separator react (seen ⟨s, []⟩) stream).items ∧
      ∃ kept, (items c.listener).flatMap Item.carried ++ c.socket.line = s.line ++ kept ∧
        kept.Sublist stream ∧
        kept.filter (· ≠ (s.detected stream).separator) =
          stream.filter (· ≠ (s.detected stream).separator) := by
  refine ⟨exists_receives_stream hs hreact hpos hbytes hlimit,
    exists_receives_stream hs hreact hpos' hbytes' hlimit, ?_⟩
  intro c c' hc hc'
  have hrec := received_stream hs hreact hpos hbytes hc
  have hrec' := received_stream hs hreact hpos' hbytes' hc'
  obtain ⟨hsocket, hitems⟩ := hrec.unique hrec'
  refine ⟨hsocket, hitems, congrArg Framer.items hrec.framer, ?_⟩
  have hkept := @carried_feed (s.detected stream).separator react (seen ⟨s, []⟩) stream fun hmode =>
    (hs.data hmode).2
  rw [← hrec.framer] at hkept
  exact hkept

/-- A protocol that takes two bytes of data after the first line. -/
def afterFirst (ls : List Str) : Option Int := if ls.length = 1 then some 2 else none

def wholeRead (bytes : Str) (h : bytes.length < 2 ^ 31) : SocketRead :=
  ⟨bytes, bytes.length, by omega, Int.le_refl _, h⟩

/-- `$a|xy|b|` in one read, and in two that cut the data. -/
theorem framing_independent_afterFirst :
    let s : BufferedSocket := { separator := 0 }
    let reads := [wholeRead (str "$a|xy|b|") (by decide)]
    let reads' := [wholeRead (str "$a|x") (by decide), wholeRead (str "y|b|") (by decide)]
    ∃ c c', Receives (recorder afterFirst) 100 ⟨s, []⟩ reads c ∧
      Receives (recorder afterFirst) 100 ⟨s, []⟩ reads' c' ∧
      items c.listener = items c'.listener ∧
      items c.listener = [.line (str "$a"), .byte (chr 'x'), .byte (chr 'y'), .modeChange,
        .line (str "b")] := by
  intro s reads reads'
  have hs : Ready s := by
    refine ⟨rfl, fun h => ?_, List.not_mem_nil, fun _ => ⟨rfl, rfl⟩⟩
    cases h
  have hreact : ∀ ls, ∀ n ∈ afterFirst ls, n = -1 ∨ 0 < n := by
    intro ls n hn
    rw [afterFirst] at hn
    split at hn
    · cases hn
      exact Or.inr (by decide)
    · cases hn
  have hlimit : ∀ p, p <+: str "$a|xy|b|" →
      (feed (s.detected (str "$a|xy|b|")).separator afterFirst (seen ⟨s, []⟩) p).line.length ≤
        100 := by
    intro p hp
    have hlen := hp.length_le
    have hline := @length_line_feed_le (s.detected (str "$a|xy|b|")).separator afterFirst
      (seen ⟨s, []⟩) p
    have hnine : (str "$a|xy|b|").length = 8 := by decide
    have hzero : (seen (⟨s, []⟩ : Connection (List Event))).line.length = 0 := rfl
    omega
  obtain ⟨⟨c, hc⟩, ⟨c', hc'⟩, hsame⟩ := @framing_independent afterFirst 100 s
    (str "$a|xy|b|") reads reads' hs hreact hlimit (by decide) (by decide) (by decide) (by decide)
  obtain ⟨-, hitems, hframer, -⟩ := hsame c c' hc hc'
  refine ⟨c, c', hc, hc', hitems, hframer.trans ?_⟩
  decide

end BufferedSocket
end Airdcpp
