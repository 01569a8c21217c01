import Airdcpp.Core.Types

/-!
# `Core/InputStreams` — the streams an upload is read from

A file with its position, a buffer in memory, and the stream that stops after so many bytes of the
one inside it. `read` is given the room of the caller's buffer and what the operating system is
willing to hand out at once: a file may give less than it is asked for, but it gives nothing only at
its end.

`left` is what a stream has yet to give. One read takes a part off its front and is empty only where
nothing is left (`read_left`, `read_nil`), so reading until nothing comes gives the whole of it, for
every room and every behaviour of the operating system (`readToEnd_left`).
-/

namespace Airdcpp

/-- `InputStream` and its classes: `File`, `MemoryInputStream` and `LimitedInputStream<true>`. -/
inductive InputStream
  | file (content : Str) (pos : Nat)
  | memory (buf : Str) (pos : Nat)
  | limited (s : InputStream) (maxBytes : Int)
deriving DecidableEq, Repr

namespace InputStream

/-- One call of `read`: the room, never empty, and how much of it the operating system grants. -/
structure Round where
  len : Nat
  granted : Nat
  len_pos : 0 < len

/-- `read(buf, len)` -/
def read : InputStream → (len granted : Nat) → Str × InputStream
  | file content pos, len, granted =>
    let k := min (max granted 1) (min len (content.length - pos))
    ((content.drop pos).take k, file content (pos + k))
  | memory buf pos, len, _ =>
    let len := min len (buf.length - pos)
    ((buf.drop pos).take len, memory buf (pos + len))
  | limited s maxBytes, len, granted =>
    -- the cast to `size_t`
    let len := (min maxBytes (len : Int) % 2 ^ 64).toNat
    if len = 0 then ([], limited s maxBytes)
    else
      let (x, s) := s.read len granted
      (x, limited s (maxBytes - x.length))

/-- `setPos`, which only a file has; `lseek` refuses a position before the beginning. -/
def setPos : InputStream → Int → InputStream
  | file content pos, p => file content (if p < 0 then pos else p.toNat)
  | s, _ => s

/-- `releaseRootStream` -/
def releaseRootStream : InputStream → InputStream
  | file content pos => file content pos
  | memory buf pos => memory buf pos
  | limited s _ => s.releaseRootStream

/-- `getSize` -/
def getSize : InputStream → Int
  | file content _ => content.length
  | memory buf _ => buf.length
  | limited s _ => s.getSize

/-- Reading until a read gives nothing; `none` when there are not enough calls for that. -/
def readToEnd : InputStream → List Round → Option Str
  | _, [] => none
  | s, r :: rs =>
    match s.read r.len r.granted with
    | ([], _) => some []
    | (x, s) => (s.readToEnd rs).map (x ++ ·)

/-! ## What is left -/

def left : InputStream → Str
  | file content pos => content.drop pos
  | memory buf pos => buf.drop pos
  | limited s maxBytes => s.left.take maxBytes.toNat

/-- No limit is negative, which is what the assertion of `LimitedInputStream::read` says. -/
def Limits : InputStream → Prop
  | file .. => True
  | memory .. => True
  | limited s maxBytes => 0 ≤ maxBytes ∧ maxBytes < 2 ^ 63 ∧ s.Limits

@[simp] theorem left_file (content : Str) (pos : Nat) :
    (file content pos).left = content.drop pos :=
  rfl

@[simp] theorem left_limited (s : InputStream) (maxBytes : Int) :
    (limited s maxBytes).left = s.left.take maxBytes.toNat := rfl

/-- The room that a limit leaves, when the cast does nothing. -/
theorem room_eq {maxBytes : Int} {len : Nat} (h0 : 0 ≤ maxBytes) (h63 : maxBytes < 2 ^ 63) :
    (min maxBytes (len : Int) % 2 ^ 64).toNat = min maxBytes.toNat len := by
  rw [Int.emod_eq_of_lt (by omega) (by omega)]
  omega

/-- **A read takes a part off the front of what is left.** -/
theorem read_left {s : InputStream} (hs : s.Limits) (len granted : Nat) :
    (s.read len granted).1 ++ (s.read len granted).2.left = s.left ∧
      (s.read len granted).2.Limits ∧ (s.read len granted).1.length ≤ len := by
  induction s generalizing len with
  | file content pos =>
    refine ⟨?_, trivial, ?_⟩
    · simp only [read, left, ← List.drop_drop]
      exact List.take_append_drop _ _
    · simp only [read, List.length_take]
      omega
  | memory buf pos =>
    refine ⟨?_, trivial, ?_⟩
    · simp only [read, left, ← List.drop_drop]
      exact List.take_append_drop _ _
    · simp only [read, List.length_take]
      omega
  | limited s maxBytes ih =>
    obtain ⟨h0, h63, hs⟩ := hs
    simp only [read, room_eq h0 h63]
    split
    · exact ⟨rfl, ⟨h0, h63, hs⟩, Nat.zero_le _⟩
    · obtain ⟨hleft, hlimits, hlen⟩ := ih hs (min maxBytes.toNat len)
      generalize s.read (min maxBytes.toNat len) granted = answer at hleft hlimits hlen ⊢
      obtain ⟨x, s'⟩ := answer
      simp only at hleft hlimits hlen ⊢
      refine ⟨?_, ⟨by omega, by omega, hlimits⟩, by omega⟩
      have hrest : (maxBytes - (x.length : Int)).toNat = maxBytes.toNat - x.length := by omega
      rw [left_limited, left_limited, ← hleft, hrest, List.take_append,
        List.take_of_length_le (by omega : x.length ≤ maxBytes.toNat)]

/-- A read into some room gives nothing only where nothing is left. -/
theorem read_nil {s : InputStream} (hs : s.Limits) {len granted : Nat} (hlen : 0 < len)
    (hread : (s.read len granted).1 = []) : s.left = [] := by
  induction s generalizing len with
  | file content pos =>
    simp only [read, List.take_eq_nil_iff, List.drop_eq_nil_iff] at hread
    simp only [left, List.drop_eq_nil_iff]
    omega
  | memory buf pos =>
    simp only [read, List.take_eq_nil_iff, List.drop_eq_nil_iff] at hread
    simp only [left, List.drop_eq_nil_iff]
    omega
  | limited s maxBytes ih =>
    obtain ⟨h0, h63, hs⟩ := hs
    simp only [read, room_eq h0 h63] at hread
    split at hread
    · rename_i hroom
      have hzero : maxBytes.toNat = 0 := by omega
      simp [hzero]
    · rename_i hroom
      simp [ih hs (Nat.pos_of_ne_zero hroom) hread]

/-- **Reading to the end gives all that is left**, in at most one call more than it has bytes. -/
theorem readToEnd_left {s : InputStream} (hs : s.Limits) {rounds : List Round}
    (hrounds : s.left.length < rounds.length) : s.readToEnd rounds = some s.left := by
  induction rounds generalizing s with
  | nil => simp at hrounds
  | cons r rs ih =>
    obtain ⟨hleft, hlimits, -⟩ := read_left hs r.len r.granted
    have hnil := @read_nil s hs r.len r.granted r.len_pos
    rw [readToEnd]
    generalize s.read r.len r.granted = answer at hleft hlimits hnil ⊢
    obtain ⟨x, s'⟩ := answer
    cases x with
    | nil => simp [hnil rfl]
    | cons b x =>
      have hshort : s'.left.length < rs.length := by
        have hlength := congrArg List.length hleft
        simp only [List.length_append, List.length_cons] at hlength hrounds
        omega
      simp only [ih hlimits hshort, Option.map_some]
      exact congrArg some hleft

/-- Whatever the calls are, reading that came to the end gave all that was left. -/
theorem eq_left_of_readToEnd {s : InputStream} (hs : s.Limits) {rounds : List Round} {out : Str}
    (hout : s.readToEnd rounds = some out) : out = s.left := by
  induction rounds generalizing s out with
  | nil => simp [readToEnd] at hout
  | cons r rs ih =>
    obtain ⟨hleft, hlimits, -⟩ := read_left hs r.len r.granted
    have hnil := @read_nil s hs r.len r.granted r.len_pos
    rw [readToEnd] at hout
    generalize s.read r.len r.granted = answer at hleft hlimits hnil hout
    obtain ⟨x, s'⟩ := answer
    cases x with
    | nil =>
      simp only [Option.some.injEq] at hout
      rw [← hout, hnil rfl]
    | cons b x =>
      simp only [Option.map_eq_some_iff] at hout
      obtain ⟨rest, hrest, rfl⟩ := hout
      rw [ih hlimits hrest]
      exact hleft

/-! ## The file at the bottom -/

/-- The stream reads a file with this content, however it is wrapped. -/
def Over (content : Str) : InputStream → Prop
  | file c _ => c = content
  | memory .. => False
  | limited s _ => s.Over content

theorem over_read {s : InputStream} {content : Str} (h : s.Over content) (len granted : Nat) :
    (s.read len granted).2.Over content := by
  induction s generalizing len with
  | file c pos => exact h
  | memory buf pos => exact h
  | limited s maxBytes ih =>
    simp only [read]
    split
    · exact h
    · exact ih h _

theorem releaseRootStream_over {s : InputStream} {content : Str} (h : s.Over content) :
    ∃ pos, s.releaseRootStream = file content pos := by
  induction s with
  | file c pos => exact ⟨pos, by rw [releaseRootStream, show c = content from h]⟩
  | memory buf pos => exact h.elim
  | limited s maxBytes ih => exact ih h

end InputStream
end Airdcpp
