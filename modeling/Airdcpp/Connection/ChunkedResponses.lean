import Airdcpp.Connection.ChunkedBody
import Airdcpp.Util.Positions

/-!
# `Connection/ChunkedResponses` — responses with a body in chunks

A `Response` is what a server may send: the sizes with any number of digits, extensions behind them,
any headers but the one that would announce the length. It is a sequence of turns that goes with the
phases (`Response.leads_turns`), for a size is read to its end whatever stands behind it
(`SizeLine.chunkSize_line`). So the client decodes it however it arrives, as long as no line is so
long that the socket gives up on it (`chunked_decoded`, `manyZeros_failed`).
-/

namespace Airdcpp
namespace HttpConnection

open BufferedSocket (Event Item SocketRead Framer Answers Reading Connection after items lines
  recorder seen startReading)

variable {k : Phase}

/-! ## Responses -/

/-- The value of a hexadecimal digit. -/
def hexDigit? (c : UInt8) : Option Nat :=
  if chr '0' ≤ c ∧ c ≤ chr '9' then some (c.toNat - 48)
  else if chr 'a' ≤ c ∧ c ≤ chr 'f' then some (c.toNat - 87)
  else if chr 'A' ≤ c ∧ c ≤ chr 'F' then some (c.toNat - 55)
  else none

/-- The number that hexadecimal digits stand for. -/
def hexValue (digits : Str) : Nat := digits.foldl (fun n c => 16 * n + (hexDigit? c).getD 0) 0

/-- Extensions begin with a semicolon, in front of which there may be blanks. -/
def IsExtension (ext : Str) : Prop :=
  10 ∉ ext ∧ (ext = [] ∨ ∃ blanks rest, (∀ c ∈ blanks, c = 32 ∨ c = 9) ∧
    ext = blanks ++ chr ';' :: rest)

/-- The size of a chunk and its extensions, as they are written. -/
structure SizeLine where
  digits : Str
  ext : Str
  ne : digits ≠ []
  hex : ∀ c ∈ digits, (hexDigit? c).isSome
  isExtension : IsExtension ext

def SizeLine.size (s : SizeLine) : Nat := hexValue s.digits

/-- The line without what ends it, but with the CR. -/
def SizeLine.line (s : SizeLine) : Str := s.digits ++ s.ext ++ blank

/-! ### The number in front of a chunk -/

theorem digit?_of_hex {c : UInt8} (h : (hexDigit? c).isSome) : Util.digit? 16 c = hexDigit? c := by
  revert c
  decide +kernel

/-- The characters of a number are no blanks, signs or anything else that means something. -/
theorem hex_ne {c : UInt8} (h : (hexDigit? c).isSome) :
    Util.isSpace c = false ∧ c ≠ chr '-' ∧ c ≠ chr '+' ∧ c ≠ chr 'x' ∧ c ≠ chr 'X' ∧
      c ≠ chr ';' ∧ c ≠ 10 := by
  revert c
  decide +kernel

theorem digits_hex {ds : Str} (hex : ∀ c ∈ ds, (hexDigit? c).isSome) (acc : Nat) (rest : Str) :
    Util.digits 16 acc (ds ++ rest) =
      Util.digits 16 (ds.foldl (fun n c => 16 * n + (hexDigit? c).getD 0) acc) rest := by
  induction ds generalizing acc with
  | nil => rfl
  | cons c ds ih =>
    obtain ⟨d, hd⟩ := Option.isSome_iff_exists.mp (hex c List.mem_cons_self)
    have hdigit := digit?_of_hex (hex c List.mem_cons_self)
    rw [List.cons_append, Util.digits, hdigit, hd, List.foldl_cons, hd]
    simp only [Option.getD_some]
    rw [ih (fun x hx => hex x (List.mem_cons_of_mem _ hx)), Nat.mul_comm]

/-- `strtoul` reads a number to its end. -/
theorem strtoul16_hex {ds blanks : Str} (hne : ds ≠ []) (hex : ∀ c ∈ ds, (hexDigit? c).isSome)
    (hblanks : ∀ c ∈ blanks, c = 32 ∨ c = 9) (hlt : hexValue ds < 2 ^ 31) :
    Util.strtoul16 (ds ++ blanks) = hexValue ds := by
  obtain ⟨d, rest, rfl⟩ := List.exists_cons_of_ne_nil hne
  obtain ⟨hspace, hminus, hplus, -⟩ := hex_ne (hex d List.mem_cons_self)
  have hsign : Util.sign (d :: rest ++ blanks) = (false, d :: rest ++ blanks) := by
    rw [List.cons_append, Util.sign, List.dropWhile_cons_of_neg (by simp [hspace])]
    simp only [if_neg hminus, if_neg hplus]
  have hfront : Util.skipHexPrefix (d :: rest ++ blanks) = d :: rest ++ blanks := by
    have hsecond : ∀ c ∈ rest ++ blanks, c ≠ chr 'x' ∧ c ≠ chr 'X' := by
      intro c hc
      rw [List.mem_append] at hc
      cases hc with
      | inl hc =>
        obtain ⟨-, -, -, hx, hX, -⟩ := hex_ne (hex c (List.mem_cons_of_mem _ hc))
        exact ⟨hx, hX⟩
      | inr hc =>
        rcases hblanks c hc with rfl | rfl
        · decide
        · decide
    rw [List.cons_append]
    generalize rest ++ blanks = behind at hsecond
    match behind with
    | [] => rfl
    | [x] => rfl
    | x :: y :: tail =>
      obtain ⟨hx, hX⟩ := hsecond x List.mem_cons_self
      simp [Util.skipHexPrefix, hx, hX]
  have hdigits : Util.digits 16 0 (d :: rest ++ blanks) = hexValue (d :: rest) := by
    rw [digits_hex hex]
    cases blanks with
    | nil => rfl
    | cons c blanks =>
      have hnone : Util.digit? 16 c = none := by
        rcases hblanks c List.mem_cons_self with rfl | rfl
        · decide
        · decide
      rw [Util.digits, hnone]
      rfl
  rw [Util.strtoul16, hsign, hfront, hdigits, if_neg (by rw [Util.ULONG_MAX]; omega)]
  rfl

/-- **The size of a chunk is what is written in front of it.** -/
theorem SizeLine.chunkSize_line (s : SizeLine) (hlt : s.size < 2 ^ 31) :
    chunkSize s.line = s.size := by
  have hdigits : chr ';' ∉ s.digits := fun hin => (hex_ne (s.hex _ hin)).2.2.2.2.2.1 rfl
  have hsemicolon : str ";" = [chr ';'] := rfl
  obtain ⟨-, hnone | ⟨blanks, rest, hblanks, hext⟩⟩ := s.isExtension
  · -- no semicolon: all but the CR
    have hline : s.line = s.digits ++ blank := by rw [line, hnone, List.append_nil]
    have hfind : find s.line (str ";") 0 = none := by
      cases hfind : find s.line (str ";") 0 with
      | none => rfl
      | some i =>
        obtain ⟨-, rest, hrest⟩ := find_eq_some hfind
        have hin : chr ';' ∈ s.line := by
          rw [hrest, hsemicolon]
          simp
        rw [hline, List.mem_append] at hin
        exact absurd (hin.resolve_left hdigits) (by decide)
    have htake : s.line.take (s.line.length - 1) = s.digits ++ [] := by
      rw [hline]
      simp [blank]
    rw [chunkSize, hfind, Option.getD_none, htake]
    exact strtoul16_hex s.ne s.hex (by simp) hlt
  · have hbefore : chr ';' ∉ s.digits ++ blanks := by
      rw [List.mem_append]
      rintro (hin | hin)
      · exact hdigits hin
      · exact absurd (hblanks _ hin) (by decide)
    have hline : s.line = s.digits ++ blanks ++ chr ';' :: (rest ++ blank) := by
      rw [line, hext]
      simp
    have htake : s.line.take ((find s.line (str ";") 0).getD (s.line.length - 1)) =
        s.digits ++ blanks := by
      cases hfind : find s.line (str ";") 0 with
      | none =>
        refine absurd ⟨s.digits ++ blanks, rest ++ blank, ?_⟩ (find_eq_none hfind)
        rw [hline, hsemicolon, List.append_assoc, List.singleton_append]
      | some i =>
        rw [hsemicolon] at hfind
        have hwhile := takeWhile_of_find hfind
        rw [List.drop_zero, Nat.sub_zero] at hwhile
        rw [Option.getD_some, ← hwhile, hline, List.takeWhile_append_of_pos,
          List.takeWhile_cons_of_neg]
        · rw [List.append_nil]
        · simp
        · intro c hc
          rw [bne_iff_ne]
          rintro rfl
          exact hbefore hc
    rw [chunkSize, htake]
    exact strtoul16_hex s.ne s.hex hblanks hlt

structure Chunk extends SizeLine where
  data : Str
  size_eq : hexValue digits = data.length
  data_ne : data ≠ []
  lt : data.length < 2 ^ 31

/-- A response whose body comes in chunks: no header announces a length, and there are no
    trailers. -/
structure Response where
  status : Str
  headers : List (Str × Str)
  chunks : List Chunk
  last : SizeLine
  status_ok : str "200" <:+: status ∧ 10 ∉ status
  headers_ok : ∀ x ∈ headers, x.1 ≠ [] ∧ Token x.1 ∧ x.1 ≠ str "Content-Length" ∧ 10 ∉ x.2
  last_zero : hexValue last.digits = 0

namespace Response

def crlf : Str := [13, 10]

/-- What the server sends. -/
def bytes (r : Response) : Str :=
  r.status ++ crlf ++ r.headers.flatMap (fun x => x.1 ++ chr ':' :: x.2 ++ crlf) ++ crlf ++
    r.chunks.flatMap (fun c => c.digits ++ c.ext ++ crlf ++ c.data ++ crlf) ++
    r.last.digits ++ r.last.ext ++ crlf ++ crlf

/-- The body. -/
def content (r : Response) : Str := r.chunks.flatMap Chunk.data

/-- All lines, with their CRs. -/
def lines (r : Response) : List Str :=
  (r.status ++ blank) :: r.headers.map (fun x => x.1 ++ chr ':' :: x.2 ++ blank) ++
    r.chunks.map (fun c => c.toSizeLine.line) ++ [r.last.line, blank]

def headTurns (r : Response) : List Turn :=
  ⟨r.status ++ blank, none⟩ ::
    r.headers.map (fun x => ⟨x.1 ++ chr ':' :: x.2 ++ blank, none⟩) ++ [⟨blank, none⟩]

def chunkTurns (c : Chunk) : List Turn := [⟨c.toSizeLine.line, some c.data⟩, ⟨blank, none⟩]

def turns (r : Response) : List Turn :=
  r.headTurns ++ r.chunks.flatMap chunkTurns ++ [⟨r.last.line, none⟩, ⟨blank, none⟩]

theorem bytes_turns (r : Response) : r.turns.flatMap Turn.bytes = r.bytes := by
  have hheaders : (r.headers.map fun x =>
        (⟨x.1 ++ chr ':' :: x.2 ++ blank, none⟩ : Turn)).flatMap Turn.bytes =
      r.headers.flatMap fun x => x.1 ++ chr ':' :: x.2 ++ crlf := by
    rw [List.flatMap_map]
    simp [Turn.bytes, blank, crlf]
  have hchunks : (r.chunks.flatMap chunkTurns).flatMap Turn.bytes =
      r.chunks.flatMap fun c => c.digits ++ c.ext ++ crlf ++ c.data ++ crlf := by
    rw [List.flatMap_assoc]
    simp [chunkTurns, Turn.bytes, SizeLine.line, blank, crlf]
  simp only [turns, headTurns, List.flatMap_append, List.flatMap_cons, List.cons_append, hheaders,
    hchunks, bytes]
  simp [Turn.bytes, SizeLine.line, blank, crlf]

/-- The bytes of the body are those of the blocks. -/
theorem itemBytes_turns (r : Response) : itemBytes (r.turns.flatMap Turn.items) = r.content := by
  have hnone : ∀ l : Str, itemBytes (Turn.items ⟨l, none⟩) = [] := fun _ => rfl
  have hblock : ∀ l d : Str, itemBytes (Turn.items ⟨l, some d⟩) = d := by
    intro l d
    have hline : Turn.items ⟨l, some d⟩ = [.line l] ++ (d.map .byte ++ [.modeChange]) := rfl
    have hend : itemBytes [.modeChange] = [] := rfl
    rw [hline, itemBytes_append, itemBytes_append, itemBytes_map, hend, List.append_nil]
    rfl
  have hflat : ∀ is : List Turn,
      itemBytes (is.flatMap Turn.items) = is.flatMap fun t => itemBytes t.items :=
    fun is => List.filterMap_flatMap
  have hchunk : ∀ c : Chunk, (chunkTurns c).flatMap (fun t => itemBytes t.items) = c.data := by
    intro c
    simp [chunkTurns, hnone, hblock]
  have hheaders : (r.headers.map fun x =>
      (⟨x.1 ++ chr ':' :: x.2 ++ blank, none⟩ : Turn)).flatMap (fun t => itemBytes t.items) =
        [] := by
    rw [List.flatMap_map]
    simp [hnone]
  rw [hflat, turns, headTurns, content]
  simp only [List.flatMap_append, List.flatMap_cons, List.flatMap_nil, List.cons_append, hnone,
    hheaders, List.nil_append, List.append_nil, List.flatMap_assoc, hchunk]

variable {maxCommandLength : Nat}

theorem turnOk_status (r : Response) (hshort : ∀ l ∈ r.lines, l.length ≤ maxCommandLength) :
    TurnOk maxCommandLength .status ⟨r.status ++ blank, none⟩ := by
  obtain ⟨hok, hlf⟩ := r.status_ok
  refine ⟨by simp [blank], ?_, hshort _ (by simp [lines]), ?_, rfl, by simp⟩
  · simpa [blank] using hlf
  · exact hok.trans (List.prefix_append _ _).isInfix

theorem leads_status (r : Response) (hshort : ∀ l ∈ r.lines, l.length ≤ maxCommandLength) :
    Leads maxCommandLength .status [⟨r.status ++ blank, none⟩] .headers :=
  .of_turnOk (turnOk_status r hshort)

theorem leads_header {name value : Str} (hne : name ≠ []) (htoken : Token name)
    (hname : name ≠ str "Content-Length") (hlf : 10 ∉ value)
    (hshort : (name ++ chr ':' :: value ++ blank).length ≤ maxCommandLength) :
    Leads maxCommandLength .headers [⟨name ++ chr ':' :: value ++ blank, none⟩] .headers := by
  have hnot : name ++ chr ':' :: value ++ blank ≠ blank := by
    intro heq
    have hlength := congrArg List.length heq
    simp [blank] at hlength
    omega
  have hnext : Phase.headers.next (name ++ chr ':' :: value ++ blank) = (.headers, none) := by
    rw [Phase.next, if_neg hnot]
  have hin : (10 : UInt8) ∉ name ++ chr ':' :: value ++ blank := by
    have hten : (10 : UInt8) ∉ name := fun hin => absurd (htoken _ hin).2.2 (by decide)
    simp only [List.mem_append, List.mem_cons, hten, hlf, false_or, or_false]
    decide
  have hok : TurnOk maxCommandLength .headers ⟨name ++ chr ':' :: value ++ blank, none⟩ :=
    ⟨by simp, hin, hshort, .inr ⟨name, value, hne, htoken, hname, rfl⟩, by rw [hnext]; rfl, by simp⟩
  have hleads := Leads.of_turnOk hok
  rwa [hnext] at hleads

theorem leads_blank {k : Phase} (hpos : 0 < maxCommandLength) (hk : k ≠ .status) :
    Leads maxCommandLength k [⟨blank, none⟩] (k.next blank).1 := by
  refine .of_turnOk ⟨by decide, by decide, hpos, ?_, ?_, by simp⟩
  · cases k with
    | status => exact absurd rfl hk
    | headers => exact .inl rfl
    | chunks => exact .inl rfl
    | closed => trivial
  · cases k <;> rfl

theorem SizeLine.line_spec (s : SizeLine) : 1 < s.line.length ∧ s.line ≠ blank ∧ 10 ∉ s.line := by
  have hpos := List.length_pos_iff.mpr s.ne
  have hlong : 1 < s.line.length := by
    simp only [SizeLine.line, blank, List.length_append, List.length_singleton]
    omega
  refine ⟨hlong, ?_, ?_⟩
  · intro heq
    rw [heq] at hlong
    exact absurd hlong (by decide)
  · have hten : (10 : UInt8) ∉ s.digits := fun hin => (hex_ne (s.hex _ hin)).2.2.2.2.2.2 rfl
    simp only [SizeLine.line, List.mem_append, hten, s.isExtension.1, false_or]
    decide

theorem leads_chunk (c : Chunk) (hshort : c.toSizeLine.line.length ≤ maxCommandLength) :
    Leads maxCommandLength .chunks (chunkTurns c) .chunks := by
  obtain ⟨hlong, hblank, hlf⟩ := SizeLine.line_spec c.toSizeLine
  have hlt : c.toSizeLine.size < 2 ^ 31 := by
    rw [SizeLine.size, c.size_eq]
    exact c.lt
  have hsize : chunkSize c.toSizeLine.line = c.data.length :=
    (c.toSizeLine.chunkSize_line hlt).trans c.size_eq
  have hpos := List.length_pos_iff.mpr c.data_ne
  have hnext : Phase.chunks.next c.toSizeLine.line = (.chunks, some (c.data.length : Int)) := by
    rw [Phase.next, if_neg hblank, hsize, if_neg (by omega), if_pos c.lt]
  have hok : TurnOk maxCommandLength .chunks ⟨c.toSizeLine.line, some c.data⟩ := by
    refine ⟨?_, hlf, hshort, .inr ⟨hlong, hsize ▸ c.lt⟩, by rw [hnext]; rfl, ?_⟩
    · exact List.ne_nil_of_length_pos (Nat.zero_lt_of_lt hlong)
    · intro d hd
      cases hd
      exact ⟨c.data_ne, by rw [hnext]⟩
  have hleads := Leads.of_turnOk hok
  rw [hnext] at hleads
  exact hleads.append (leads_blank (by omega) (by simp))

theorem leads_last (s : SizeLine) (hzero : s.size = 0)
    (hshort : s.line.length ≤ maxCommandLength) :
    Leads maxCommandLength .chunks [⟨s.line, none⟩, ⟨blank, none⟩] .closed := by
  obtain ⟨hlong, hblank, hlf⟩ := SizeLine.line_spec s
  have hsize : chunkSize s.line = 0 := (s.chunkSize_line (by omega)).trans hzero
  have hnext : Phase.chunks.next s.line = (.closed, none) := by
    rw [Phase.next, if_neg hblank, if_pos hsize]
  have hok : TurnOk maxCommandLength .chunks ⟨s.line, none⟩ :=
    ⟨List.ne_nil_of_length_pos (Nat.zero_lt_of_lt hlong), hlf, hshort,
      .inr ⟨hlong, hsize.trans_lt (by decide)⟩,
      by rw [hnext]; rfl, by simp⟩
  have hleads := Leads.of_turnOk hok
  rw [hnext] at hleads
  exact hleads.append (leads_blank (by omega) (by simp))

/-- **A response goes with the phases**, to its end. -/
theorem leads_turns (r : Response) (hshort : ∀ l ∈ r.lines, l.length ≤ maxCommandLength) :
    Leads maxCommandLength .status r.turns .closed := by
  have hpos : 0 < maxCommandLength := by
    have hline := hshort (r.status ++ blank) (by simp [lines])
    simp only [blank, List.length_append, List.length_singleton] at hline
    omega
  have hheaders : Leads maxCommandLength .headers
      (r.headers.map fun x => ⟨x.1 ++ chr ':' :: x.2 ++ blank, none⟩) .headers := by
    have hflat : r.headers.map (fun x => (⟨x.1 ++ chr ':' :: x.2 ++ blank, none⟩ : Turn)) =
        r.headers.flatMap fun x => [⟨x.1 ++ chr ':' :: x.2 ++ blank, none⟩] := List.map_eq_flatMap
    rw [hflat]
    refine .flatMap fun x hx => ?_
    obtain ⟨hne, htoken, hname, hlf⟩ := r.headers_ok x hx
    refine leads_header hne htoken hname hlf (hshort _ ?_)
    simp only [lines, List.mem_append, List.mem_cons, List.mem_map]
    exact .inl (.inl (.inr ⟨x, hx, rfl⟩))
  have hchunks : Leads maxCommandLength .chunks (r.chunks.flatMap chunkTurns) .chunks := by
    refine .flatMap fun c hc => leads_chunk c (hshort _ ?_)
    simp only [lines, List.mem_append, List.mem_map]
    exact .inl (.inr ⟨c, hc, rfl⟩)
  have hlast := leads_last r.last r.last_zero (hshort _ (by simp [lines]))
  exact (((leads_status r hshort).append hheaders).append (leads_blank hpos (by decide))).append
    hchunks |>.append hlast

end Response

/-! ## The client -/

/-- The operations of some reads: each of them is gone through in `n` rounds at most. -/
def readOps (n : Nat) (reads : List SocketRead) : List ClientOp :=
  reads.flatMap fun read => .received read :: List.replicate n .round

theorem run_idle (env : HttpEnv) (conn : Connection Watch) (n : Nat) :
    (client env).run { conn := conn } (List.replicate n .round) = { conn := conn } := by
  induction n with
  | zero => rfl
  | succ n ih => exact ih

/-- The rounds of a read are the loop of `threadRead`, and what follows it. -/
theorem run_rounds {env : HttpEnv} {c : Client} {r : Reading Watch} {conn : Connection Watch}
    {m n : Nat} (hr : c.reading = some r)
    (h : Loop.run (BufferedSocket.round (listen env)) m r = some conn)
    (hok : BufferedSocket.checkLength env.maxCommandLength conn = .ok conn) (hle : m ≤ n) :
    (client env).run c (List.replicate n .round) = { conn := conn } := by
  induction m generalizing c r n with
  | zero => cases h
  | succ m ih =>
    obtain ⟨n, rfl⟩ := Nat.exists_eq_add_of_le' (Nat.le_trans (Nat.succ_le_succ m.zero_le) hle)
    have hrun : (client env).run c (List.replicate (n + 1) .round) =
        (client env).run (Client.next env c .round) (List.replicate n .round) := rfl
    rw [hrun]
    cases hround : BufferedSocket.round (listen env) r with
    | none =>
      rw [Loop.run_succ_of_none hround] at h
      cases h
    | some x =>
      cases x with
      | inl d =>
        rw [Loop.run_succ_of_return hround, Option.some.injEq] at h
        subst h
        simp only [Client.next, hr, hround, hok]
        exact run_idle env d n
      | inr r' =>
        rw [Loop.run_succ_of_next hround] at h
        simp only [Client.next, hr, hround]
        exact ih rfl h (Nat.le_of_succ_le_succ hle)

/-- **What the client makes of some reads** is what the events make of its listener, when it answers
    them as the recorder does. -/
theorem run_reads (env : HttpEnv) (w : Watch) {c : Connection (List Event)}
    {reads : List SocketRead}
    (hc : BufferedSocket.Known c.socket) (hpos : ∀ read ∈ reads, 0 < read.left)
    (hlimit : ∀ p, p <+: reads.flatMap SocketRead.bytes →
      (Framer.feed c.socket.separator answer (seen c) p).line.length ≤ env.maxCommandLength) :
    ∃ c' n₀, c.listener <+: c'.listener ∧
      seen c' = Framer.feed c.socket.separator answer (seen c)
        (reads.flatMap SocketRead.bytes) ∧
      (Answers (listen env) w answer c'.listener → ∀ n, n₀ ≤ n →
        (client env).run { conn := c.map (after (listen env) w) } (readOps n reads) =
          { conn := c'.map (after (listen env) w) }) := by
  induction reads generalizing c with
  | nil => exact ⟨c, 0, List.prefix_refl _, rfl, fun _ _ _ => rfl⟩
  | cons read reads ih =>
    rw [List.flatMap_cons] at hlimit
    have hread := hpos read List.mem_cons_self
    obtain ⟨m, d, hd⟩ := BufferedSocket.halts_round answer_pos
      (BufferedSocket.framed_start hc hread)
    obtain ⟨hknown, hsep, hseen⟩ := BufferedSocket.seen_of_returns answer_pos
      (BufferedSocket.framed_start hc hread) ⟨m, hd⟩
    have hfeed : seen d = Framer.feed c.socket.separator answer (seen c) read.bytes := hseen
    have hdsep : d.socket.separator = c.socket.separator := hsep
    have hrest : ∀ p, p <+: reads.flatMap SocketRead.bytes →
        (Framer.feed d.socket.separator answer (seen d) p).line.length ≤
          env.maxCommandLength := by
      intro p hp
      rw [hdsep, hfeed, ← Framer.feed_append]
      exact hlimit _ ((List.prefix_append_right_inj _).mpr hp)
    obtain ⟨c', n₁, hpre, hseen', hrun⟩ := ih hknown
      (fun r hr => hpos r (List.mem_cons_of_mem _ hr)) hrest
    refine ⟨c', max m n₁, (BufferedSocket.prefix_run hd).trans hpre, ?_, ?_⟩
    · rw [hseen', hdsep, hfeed, List.flatMap_cons, Framer.feed_append]
    · intro hanswers n hn
      have hloop := BufferedSocket.run_map hd (hanswers.of_prefix hpre)
      have hok : BufferedSocket.checkLength env.maxCommandLength (d.map (after (listen env) w)) =
          .ok (d.map (after (listen env) w)) := by
        have hline : d.socket.line.length ≤ env.maxCommandLength := by
          have hfirst := hlimit read.bytes (List.prefix_append _ _)
          rw [← hfeed] at hfirst
          exact hfirst
        exact if_neg fun hlong => absurd hlong.2 (Nat.not_lt.mpr hline)
      have hnext : Client.next env { conn := c.map (after (listen env) w) } (.received read) =
          { conn := c.map (after (listen env) w)
            reading := some ((startReading c read).map (after (listen env) w)) } := by
        simp only [Client.next]
        rw [if_neg (by omega), if_neg (by omega)]
        rfl
      have hsplit : (client env).run { conn := c.map (after (listen env) w) }
            (readOps n (read :: reads)) =
          (client env).run ((client env).run
            (Client.next env { conn := c.map (after (listen env) w) } (.received read))
            (List.replicate n .round)) (readOps n reads) := by
        rw [readOps, List.flatMap_cons]
        exact List.foldl_append
      rw [hsplit, hnext, run_rounds rfl hloop hok (le_trans (le_max_left _ _) hn)]
      exact hrun hanswers n (le_trans (le_max_right _ _) hn)

theorem prepareServer_alike {env : HttpEnv} {h h' : HttpConnection}
    (hserver : prepareServer env h = some h') : Alike h h' := by
  rw [prepareServer] at hserver
  split at hserver
  · simp only [Option.bind_eq_bind, Option.bind_eq_some_iff] at hserver
    obtain ⟨parts, -, heq⟩ := hserver
    cases heq
    exact ⟨rfl, rfl, rfl, rfl, rfl⟩
  · simp only [Option.bind_eq_bind, Option.bind_eq_some_iff] at hserver
    obtain ⟨parts, -, heq⟩ := hserver
    cases heq
    exact ⟨rfl, rfl, rfl, rfl, rfl⟩

@[simp] theorem fired_release (h : HttpConnection) : h.release.fired = h.fired := by
  rw [release]
  split <;> rfl

/-- A request that nothing has been fired for waits for its connection. -/
theorem prepareRequest_waits {env : HttpEnv} {h h' : HttpConnection} {connType : RequestType}
    (hrequest : prepareRequest env h connType = some h') (hnone : h'.fired = []) :
    h'.connState = .unknown ∧ h'.size = -1 := by
  simp only [prepareRequest, Option.bind_eq_bind, Option.bind_eq_some_iff] at hrequest
  obtain ⟨suffix, -, h₁, hserver, heq⟩ := hrequest
  have halike := prepareServer_alike hserver
  cases heq
  rw [connect] at hnone ⊢
  split
  · exact ⟨halike.connState, halike.size⟩
  · rename_i e herror
    simp only [herror, fired_release] at hnone
    simp [fire] at hnone

/-- The client that has sent its request and waits for the response. -/
theorem stands_connected {env : HttpEnv} {c : Client} (hc : Requested env c)
    (hnone : c.watch.http.fired = []) :
    ∃ w, Client.next env c .connected =
        { conn := { socket := { separator := 0x0a }, listener := w } } ∧
      Stands c.watch.http.currentUrl .status [] w := by
  obtain ⟨aUrl, isUnique, http, -, hrequest, rfl⟩ := hc
  obtain ⟨hunknown, hsize⟩ := prepareRequest_waits hrequest hnone
  have hfired : http.fired = [] := hnone
  refine ⟨_, rfl, rfl, fun _ => ?_, by simp⟩
  exact ⟨rfl, hunknown, hsize, rfl, ⟨by simp [hfired], by simp [hfired]⟩⟩

/-- **A body that comes in chunks is decoded.** Whatever the chunks are, how their sizes and
    extensions are written and how the response is cut into reads: when no line is longer than the
    socket allows, the `Data` events are the body, behind the last of them there is one `Complete`,
    and there is nothing else. -/
theorem chunked_decoded (env : HttpEnv) (c : Client) (hc : Requested env c)
    (hnone : c.watch.http.fired = []) (response : Response)
    (hshort : ∀ l ∈ response.lines, l.length ≤ env.maxCommandLength) (reads : List SocketRead)
    (hpos : ∀ read ∈ reads, 0 < read.left)
    (hbytes : reads.flatMap SocketRead.bytes = response.bytes) :
    ∃ n₀, ∀ n, n₀ ≤ n →
      let c' := (client env).run c (.connected :: readOps n reads)
      c'.reading = none ∧ c'.watch.terminated = false ∧
        ∃ ds, c'.watch.http.fired = ds ++ [.complete c.watch.http.currentUrl] ∧
          (∀ e ∈ ds, ∃ inbuf bufpos aLen, e = .data inbuf bufpos aLen) ∧
          ds.flatMap HttpEvent.bytes = response.content := by
  obtain ⟨w, hconnected, hstands⟩ := stands_connected hc hnone
  have hleads := Response.leads_turns response hshort
  have hfresh : Fresh .status (seen ⟨{ separator := 0x0a }, []⟩) := ⟨rfl, rfl, rfl⟩
  obtain ⟨-, hitems, hlimit⟩ := feed_turns hfresh hleads.1
  rw [Response.bytes_turns, ← hbytes] at hitems hlimit
  have hknown : BufferedSocket.Known { separator := 0x0a } :=
    ⟨by decide, rfl, by simp, by simp⟩
  obtain ⟨d, n₀, -, hseen, hrun⟩ := run_reads env w (c := ⟨{ separator := 0x0a }, []⟩) hknown hpos
    hlimit
  have hd : items d.listener = response.turns.flatMap Turn.items := by
    have hd := congrArg Framer.items hseen
    exact hd.trans hitems
  have hplays : Plays .status (items d.listener) := hd ▸ plays_turns hleads.1
  obtain ⟨hanswers, hend⟩ := stands_events env hstands hplays
  have hclosed : Phase.status.behind (lines (items d.listener)) = .closed := by
    rw [hd, lines_turns]
    exact hleads.2
  rw [hclosed, hd, Response.itemBytes_turns] at hend
  refine ⟨n₀, fun n hn => ?_⟩
  have hsplit : (client env).run c (.connected :: readOps n reads) =
      (client env).run (Client.next env c .connected) (readOps n reads) := rfl
  intro c'
  have hc' : c' = { conn := d.map (after (listen env) w) } := by
    rw [show c' = _ from hsplit, hconnected]
    exact hrun hanswers n hn
  rw [hc']
  obtain ⟨-, ds, hfired, hcarries⟩ := hend.follows.2 rfl
  exact ⟨rfl, hend.terminated, ds, hfired, hcarries.data, hcarries.bytes⟩

instance {name : Str} : Decidable (Token name) := by
  unfold Token
  infer_instance

/-- `hel` and `lo`, the size of the second with zeros in front of it and an extension behind it. -/
def hello : Response where
  status := str "HTTP/1.1 200 OK"
  headers := [(str "Transfer-Encoding", str " chunked")]
  chunks :=
    [{ digits := str "3", ext := [], data := str "hel", ne := by decide +kernel,
       hex := by decide +kernel,
       isExtension := ⟨by decide +kernel, .inl rfl⟩, size_eq := by decide +kernel,
       data_ne := by decide +kernel, lt := by decide +kernel },
     { digits := str "002", ext := str " ;a=b", data := str "lo", ne := by decide +kernel,
       hex := by decide +kernel,
       isExtension := ⟨by decide +kernel, .inr ⟨str " ", str "a=b", by decide +kernel, rfl⟩⟩,
       size_eq := by decide +kernel, data_ne := by decide +kernel, lt := by decide +kernel }]
  last :=
    { digits := str "0", ext := [], ne := by decide +kernel, hex := by decide +kernel
      isExtension := ⟨by decide +kernel, .inl rfl⟩ }
  status_ok := by decide +kernel
  headers_ok := by decide +kernel
  last_zero := by decide +kernel

/-- A read that fills its buffer. -/
def readOf (bytes : Str) (h : bytes.length < 2 ^ 31) :
    SocketRead := BufferedSocket.wholeRead bytes h

/-- The response in three reads: the first ends in a header, the second in the second chunk. -/
theorem chunked_decoded_hello :
    let reads := [readOf (hello.bytes.take 20) (by decide +kernel),
      readOf ((hello.bytes.drop 20).take 42) (by decide +kernel),
      readOf (hello.bytes.drop 62) (by decide +kernel)]
    ∃ n₀, ∀ n, n₀ ≤ n → ∃ ds,
      ((client plainEnv).run requestA (.connected :: readOps n reads)).watch.http.fired =
        ds ++ [.complete (str "http://a/")] ∧ ds.flatMap HttpEvent.bytes = str "hello" := by
  intro reads
  obtain ⟨n₀, hn₀⟩ := chunked_decoded plainEnv requestA requested_requestA (by decide +kernel) hello
    (by decide +kernel) reads (by decide +kernel) (by decide +kernel)
  refine ⟨n₀, fun n hn => ?_⟩
  obtain ⟨-, -, ds, hfired, -, hbytes⟩ := hn₀ n hn
  refine ⟨ds, ?_, hbytes⟩
  have hurl : requestA.watch.http.currentUrl = str "http://a/" := by decide +kernel
  rw [hfired, hurl]

/-- A chunk of three bytes whose size has more digits than a line may have bytes. -/
def manyZeros : Response where
  status := str "HTTP/1.1 200"
  headers := []
  chunks :=
    [{ digits := str "00000000000000000003", ext := [], data := str "abc", ne := by decide +kernel,
       hex := by decide +kernel, isExtension := ⟨by decide +kernel, .inl rfl⟩,
       size_eq := by decide +kernel,
       data_ne := by decide +kernel, lt := by decide +kernel }]
  last :=
    { digits := str "0", ext := [], ne := by decide +kernel, hex := by decide +kernel
      isExtension := ⟨by decide +kernel, .inl rfl⟩ }
  status_ok := by decide +kernel
  headers_ok := by decide +kernel
  last_zero := by decide +kernel

/-- When the first read ends in the size, the socket gives up on the line. -/
theorem manyZeros_failed :
    let env := { plainEnv with maxCommandLength := 16 }
    let reads := [readOf (manyZeros.bytes.take 34) (by decide +kernel),
      readOf (manyZeros.bytes.drop 34) (by decide +kernel)]
    Requested env requestA ∧ requestA.watch.http.fired = [] ∧
      (∀ read ∈ reads, 0 < read.left) ∧ reads.flatMap SocketRead.bytes = manyZeros.bytes ∧
      ((client env).run requestA (.connected :: readOps 10 reads)).reading = none ∧
      ((client env).run requestA (.connected :: readOps 10 reads)).watch.http.fired =
        [.failed (str "Maximum command length exceeded (http://a/)")] := by
  intro env reads
  refine ⟨?_, by decide +kernel, by decide +kernel, by decide +kernel, ?_, by decide +kernel⟩
  · refine ⟨str "http://a/", true, _, ⟨str "http", str "a/", by decide +kernel⟩, ?_, rfl⟩
    cases hsome : downloadFile plainEnv { isUnique := true } (str "http://a/") with
    | none => exact absurd hsome (by decide +kernel)
    | some http => exact hsome
  · have hnone : ((client env).run requestA
        (.connected :: readOps 10 reads)).reading.isNone = true := by decide +kernel
    exact Option.isNone_iff_eq_none.mp hnone

end HttpConnection
end Airdcpp
