import Airdcpp.Connection.HttpSafety
import Airdcpp.Connection.Listeners

/-!
# `Connection/ChunkedBody` — a body that comes in chunks

A chunk is a line with its size, its bytes and the end of a line. The lines and the bytes share one
mode switch in the socket and one handler of lines, which tells a size from the end of a chunk by
the length of the line. A `Phase` is what the handler takes the next line for, and what it answers
is a function of the phase and the line (`Phase.next`).

Of a response `Turn`s are left: a line, and the block that the handler asks for. The framer makes of
them the events that the phases go with (`feed_turns`), and the handler makes of these events the
body and the end of it (`stands_events`).
-/

namespace Airdcpp
namespace HttpConnection

open BufferedSocket (Event Item SocketRead Framer Answers Reading Connection after items lines
  recorder seen startReading)

/-! ## Phases -/

/-- What the next line is taken for. -/
inductive Phase
  | status
  | headers
  | chunks
  | closed
deriving DecidableEq, Repr

/-- The line that is empty but for the CR. -/
def blank : Str := [13]

/-- The next phase, and the argument of `setDataMode`. -/
def Phase.next : Phase → Str → Phase × Option Int
  | .status, _ => (.headers, none)
  | .headers, aLine => (if aLine = blank then .chunks else .headers, none)
  | .chunks, aLine =>
    if aLine = blank then (.chunks, none)
    else if chunkSize aLine = 0 then (.closed, none)
    else (.chunks, if chunkSize aLine < 2 ^ 31 then some (chunkSize aLine) else none)
  | .closed, _ => (.closed, none)

/-- The phase behind some lines. -/
def Phase.behind (k : Phase) (ls : List Str) : Phase := ls.foldl (fun k l => (k.next l).1) k

/-- What the handler answers the last of some lines. -/
def answer (ls : List Str) : Option Int :=
  match ls.getLast? with
  | none => none
  | some l => ((Phase.status.behind ls.dropLast).next l).2

theorem behind_append (k : Phase) (ls ms : List Str) :
    k.behind (ls ++ ms) = (k.behind ls).behind ms := List.foldl_append

theorem answer_concat (ls : List Str) (l : Str) :
    answer (ls ++ [l]) = ((Phase.status.behind ls).next l).2 := by
  simp [answer]

theorem answer_pos (ls : List Str) : ∀ n ∈ answer ls, n = -1 ∨ 0 < n := by
  intro n hn
  right
  rw [answer] at hn
  cases hlast : ls.getLast? with
  | none =>
    rw [hlast] at hn
    cases hn
  | some l =>
    rw [hlast] at hn
    simp only at hn
    cases hk : Phase.status.behind ls.dropLast <;> rw [hk] at hn <;> simp only [Phase.next] at hn
    · cases hn
    · cases hn
    · split at hn
      · cases hn
      · split at hn
        · cases hn
        · rename_i hne
          split at hn
          · cases hn
            omega
          · cases hn
    · cases hn

/-! ## What a line may be -/

/-- The name of a header has no blanks, and no colon but the one behind it. -/
def Token (name : Str) : Prop := ∀ c ∈ name, c ≠ chr ':' ∧ c ≠ 13 ∧ Util.isSpace c = false

/-- A header, with the CR that ends it: any but the one that announces a length. -/
def IsHeader (aLine : Str) : Prop :=
  ∃ name value, name ≠ [] ∧ Token name ∧ name ≠ str "Content-Length" ∧
    aLine = name ++ chr ':' :: value ++ blank

def Takes : Phase → Str → Prop
  | .status, aLine => str "200" <:+: aLine
  | .headers, aLine => aLine = blank ∨ IsHeader aLine
  | .chunks, aLine => aLine = blank ∨ 1 < aLine.length ∧ chunkSize aLine < 2 ^ 31
  | .closed, _ => True

/-- The items that a phase goes with. -/
def Plays : Phase → List Item → Prop
  | _, [] => True
  | k, .line aLine :: is => Takes k aLine ∧ Plays (k.next aLine).1 is
  | k, .byte _ :: is => k = .chunks ∧ Plays k is
  | k, .modeChange :: is => k = .chunks ∧ Plays k is

theorem plays_append (k : Phase) (is js : List Item) :
    Plays k (is ++ js) ↔ Plays k is ∧ Plays (k.behind (lines is)) js := by
  induction is generalizing k with
  | nil => simp [Plays, lines, Phase.behind]
  | cons i is ih =>
    cases i with
    | line aLine =>
      simp only [List.cons_append, Plays, ih, and_assoc]
      rfl
    | byte b =>
      simp only [List.cons_append, Plays, ih, and_assoc]
      rfl
    | modeChange =>
      simp only [List.cons_append, Plays, ih, and_assoc]
      rfl

/-! ## What the handlers make of the events -/

/-- The bytes of a `Data` event. -/
def HttpEvent.bytes : HttpEvent → Str
  | .data inbuf bufpos aLen => (inbuf.drop bufpos.toNat).take aLen
  | _ => []

/-- These are `Data` events, and their bytes are `body`. -/
structure Carries (fired : List HttpEvent) (body : Str) : Prop where
  data : ∀ e ∈ fired, ∃ inbuf bufpos aLen, e = .data inbuf bufpos aLen
  bytes : fired.flatMap HttpEvent.bytes = body

/-- The state of the connection in front of a phase. -/
def Phase.connState : Phase → ConnectionStates
  | .status => .unknown
  | .headers => .ok
  | .chunks => .chunked
  | .closed => .ok

/-- The connection in a phase that has not been closed. -/
structure Open (url : Str) (k : Phase) (body : Str) (h : HttpConnection) : Prop where
  socket : h.socket = .connected
  connState : h.connState = k.connState
  size : h.size = -1
  currentUrl : h.currentUrl = url
  fired : Carries h.fired body

/-- The connection that has got its body. -/
structure Closed (url : Str) (body : Str) (h : HttpConnection) : Prop where
  socket : h.socket ≠ .connected
  fired : ∃ ds, h.fired = ds ++ [.complete url] ∧ Carries ds body

/-- The connection in a phase. -/
def Follows (url : Str) (k : Phase) (body : Str) (h : HttpConnection) : Prop :=
  (k ≠ .closed → Open url k body h) ∧ (k = .closed → Closed url body h)

/-- The listener in a phase. -/
structure Stands (url : Str) (k : Phase) (body : Str) (w : Watch) : Prop where
  terminated : w.terminated = false
  follows : Follows url k body w.http

variable {env : HttpEnv} {h h' : HttpConnection} {w : Watch} {url body aLine : Str} {k : Phase}

theorem listen_handled {e : Event} {aBytes : Option Int} (ht : w.terminated = false)
    (hs : w.http.socket = .connected) (hon : w.http.on env e = some (h', aBytes)) :
    listen env w e = ({ w with events := w.events ++ [e], http := h' }, aBytes) := by
  simp only [listen, ht, hs, hon, Bool.false_eq_true, ne_eq, not_true_eq_false, or_self, if_false]

theorem listen_off (e : Event) (hs : w.http.socket ≠ .connected) :
    listen env w e = ({ w with events := w.events ++ [e] }, none) := by
  simp only [listen, hs, ne_eq, not_false_eq_true, or_true, if_true]

/-- What the events are about is the same. -/
structure Alike (h h' : HttpConnection) : Prop where
  socket : h'.socket = h.socket
  connState : h'.connState = h.connState
  size : h'.size = h.size
  currentUrl : h'.currentUrl = h.currentUrl
  fired : h'.fired = h.fired

theorem Alike.open (ha : Alike h h') (ho : Open url k body h) : Open url k body h' :=
  ⟨ha.socket.trans ho.socket, ha.connState.trans ho.connState, ha.size.trans ho.size,
    ha.currentUrl.trans ho.currentUrl, ha.fired ▸ ho.fired⟩

theorem findFirstOf_append {name rest : Str} {c : UInt8} (hc : c ∉ name) :
    findFirstOf (name ++ c :: rest) [c] 0 = some name.length := by
  rw [findFirstOf, List.find?_range'_eq_some]
  refine ⟨?_, ?_, ?_⟩
  · simp
  · rw [List.mem_range'_1]
    simp
  · intro j _ hj
    have hget : (name ++ c :: rest).getD j 0 = name[j] := by
      rw [List.getD_append _ _ _ _ hj, List.getD_eq_getElem _ _ hj]
    have hne : name[j] ≠ c := fun heq => hc (heq ▸ List.getElem_mem hj)
    rw [hget]
    simpa using hne

theorem trimIf_of_none {p : UInt8 → Bool} {s : Str} (hs : ∀ c ∈ s, p c = false) :
    Util.trimIf p s = s := by
  have hfirst : s.dropWhile p = s := by
    rw [List.dropWhile_eq_self_iff]
    intro hpos
    simp [hs _ (List.getElem_mem hpos)]
  rw [Util.trimIf, hfirst, List.rdropWhile_eq_self_iff]
  intro hne
  simp [hs _ (List.getLast_mem hne)]

/-- Headers do not matter. -/
theorem onHeader_alike (h : HttpConnection) (hl : IsHeader aLine) :
    ∃ h', h.onHeader aLine = some h' ∧ Alike h h' := by
  obtain ⟨name, value, -, htoken, hname, rfl⟩ := hl
  have hcolon : chr ':' ∉ name := fun hin => (htoken _ hin).1 rfl
  have hsep : findFirstOf (name ++ chr ':' :: value ++ blank) [chr ':'] 0 = some name.length := by
    rw [List.append_assoc]
    exact findFirstOf_append hcolon
  have htrim : Util.trimIf Util.isSpace name = name :=
    trimIf_of_none fun c hc => (htoken c hc).2.2
  have htake : ((name ++ chr ':' :: value ++ blank).drop 0).take name.length = name := by simp
  have hvalue : name.length + 1 ≤ (name ++ chr ':' :: value ++ blank).length := by simp
  rw [onHeader, hsep]
  split
  · exact ⟨h, rfl, rfl, rfl, rfl, rfl, rfl⟩
  · simp only [Option.getD_some, Option.elim_some, substr_of_le (Nat.zero_le _),
      substr_of_le hvalue, Option.bind_eq_bind, Option.bind_some, htake, htrim, if_neg hname]
    refine ⟨_, rfl, ?_⟩
    by_cases hmime : h.mimeType = []
    · simp only [if_pos hmime]
      split
      · split <;> exact ⟨rfl, rfl, rfl, rfl, rfl⟩
      · split <;> exact ⟨rfl, rfl, rfl, rfl, rfl⟩
    · simp only [if_neg hmime]
      exact ⟨rfl, rfl, rfl, rfl, rfl⟩

theorem Open.follows (ho : Open url k body h) (hk : k ≠ .closed) : Follows url k body h :=
  ⟨fun _ => ho, fun heq => absurd heq hk⟩

theorem onLine_status (env : HttpEnv) (ho : Open url .status body h) (hl : str "200" <:+: aLine) :
    ∃ h', h.onLine env aLine = some (h', none) ∧ Follows url .headers body h' := by
  have hunknown : h.connState = .unknown := ho.connState
  have hfound : (find aLine (str "200") 0).isSome = true := by
    cases hfind : find aLine (str "200") 0 with
    | none => exact absurd hl (find_eq_none hfind)
    | some i => rfl
  refine ⟨{ h with connState := .ok }, ?_, ?_⟩
  · simp [onLine, hunknown, onStatus, hfound]
  · exact Open.follows ⟨ho.socket, rfl, ho.size, ho.currentUrl, ho.fired⟩ (by simp)

theorem onLine_blank (env : HttpEnv) (ho : Open url k body h) (hk : k = .headers ∨ k = .chunks) :
    ∃ h', h.onLine env blank = some (h', none) ∧ Follows url .chunks body h' := by
  have hsize := ho.size
  have hunknown : h.connState ≠ .unknown := by
    rw [ho.connState]
    cases hk with
    | inl hk => rw [hk]; decide
    | inr hk => rw [hk]; decide
  have hmoved : h.connState ≠ .moved := by
    rw [ho.connState]
    cases hk with
    | inl hk => rw [hk]; decide
    | inr hk => rw [hk]; decide
  refine ⟨{ h with connState := .chunked }, ?_, ?_⟩
  · simp [onLine, hunknown, hmoved, blank, charAt, hsize]
  · exact Open.follows ⟨ho.socket, rfl, ho.size, ho.currentUrl, ho.fired⟩ (by simp)

theorem onLine_header (env : HttpEnv) (ho : Open url .headers body h) (hl : IsHeader aLine) :
    ∃ h', h.onLine env aLine = some (h', none) ∧ Follows url .headers body h' := by
  have hok : h.connState = .ok := ho.connState
  obtain ⟨h', hheader, halike⟩ := onHeader_alike h hl
  obtain ⟨name, value, hne, htoken, -, rfl⟩ := hl
  obtain ⟨c, rest, rfl⟩ := List.exists_cons_of_ne_nil hne
  have hc : c ≠ 13 := (htoken c List.mem_cons_self).2.1
  refine ⟨h', ?_, (halike.open ho).follows (by simp)⟩
  rw [onLine, hok, if_neg (by simp), if_neg (by simp), if_neg (by simp),
    charAt_of_le (Nat.zero_le _)]
  have hfirst : ((c :: rest) ++ chr ':' :: value ++ blank).getD 0 0 = c := rfl
  have hlong : 2 < ((c :: rest) ++ chr ':' :: value ++ blank).length := by
    simp [blank]
    omega
  rw [hfirst, Option.bind_eq_bind, Option.bind_some, if_neg hc, if_pos hlong, hheader]
  rfl

theorem toInt64_of_lt {n : Nat} (h : n < 2 ^ 31) : toInt64 n = n := by
  rw [toInt64, Int.bmod_eq_of_le] <;> omega

theorem onLine_chunkSize (env : HttpEnv) (ho : Open url .chunks body h)
    (hlong : 1 < aLine.length) (hsize : chunkSize aLine < 2 ^ 31) :
    ∃ h', h.onLine env aLine = some (h', (Phase.chunks.next aLine).2) ∧
      Follows url (Phase.chunks.next aLine).1 body h' := by
  have hchunked : h.connState = .chunked := ho.connState
  have hblank : aLine ≠ blank := by
    intro heq
    rw [heq] at hlong
    exact absurd hlong (by decide)
  have hmax : chunkSize aLine ≠ Util.ULONG_MAX := by
    rw [Util.ULONG_MAX]
    omega
  rw [onLine, if_pos ⟨hchunked, hlong⟩, onChunkSize_eq, Phase.next, if_neg hblank]
  by_cases hzero : chunkSize aLine = 0
  · rw [if_pos hzero, if_pos hzero]
    refine ⟨_, rfl, fun hk => absurd rfl hk, fun _ => ?_⟩
    rw [release]
    have hfired : (h.abortRequest.fire (.complete h.currentUrl)).fired =
        h.fired ++ [.complete url] := by
      rw [← ho.currentUrl]
      rfl
    split
    · exact ⟨by simp [abortRequest, fire], h.fired, hfired, ho.fired⟩
    · exact ⟨by simp [abortRequest, fire], h.fired, hfired, ho.fired⟩
  · rw [if_neg hzero, if_neg hzero, if_neg hmax, if_pos hsize, toInt64_of_lt hsize]
    exact ⟨h, rfl, ho.follows (by simp)⟩

theorem onLine_next (env : HttpEnv) (ho : Open url k body h) (hk : k ≠ .closed)
    (ht : Takes k aLine) : ∃ h', h.onLine env aLine = some (h', (k.next aLine).2) ∧
      Follows url (k.next aLine).1 body h' := by
  cases k with
  | status => exact onLine_status env ho ht
  | headers =>
    cases ht with
    | inl hblank =>
      subst hblank
      exact onLine_blank env ho (.inl rfl)
    | inr hheader =>
      have hne : aLine ≠ blank := by
        intro heq
        obtain ⟨name, value, -, -, -, hl⟩ := hheader
        have hlength := congrArg List.length (heq.symm.trans hl)
        simp [blank] at hlength
        omega
      simp only [Phase.next, if_neg hne]
      exact onLine_header env ho hheader
  | chunks =>
    cases ht with
    | inl hblank =>
      subst hblank
      exact onLine_blank env ho (.inr rfl)
    | inr hsize => exact onLine_chunkSize env ho hsize.1 hsize.2
  | closed => exact absurd rfl hk

theorem stands_line (env : HttpEnv) (hs : Stands url k body w) (ht : Takes k aLine) :
    Stands url (k.next aLine).1 body (listen env w (.line aLine)).1 ∧
      (listen env w (.line aLine)).2 = (k.next aLine).2 := by
  by_cases hk : k = .closed
  · subst hk
    have hclosed := hs.follows.2 rfl
    rw [listen_off _ hclosed.socket]
    exact ⟨⟨hs.terminated, fun hne => absurd rfl hne, fun _ => hclosed⟩, rfl⟩
  · have ho := hs.follows.1 hk
    obtain ⟨h', hon, hnext⟩ := onLine_next env ho hk ht
    rw [@listen_handled env h' w (.line aLine) _ hs.terminated ho.socket hon]
    exact ⟨⟨hs.terminated, hnext⟩, rfl⟩

theorem stands_modeChange (env : HttpEnv) (hs : Stands url .chunks body w) :
    Stands url .chunks body (listen env w .modeChange).1 ∧ (listen env w .modeChange).2 = none := by
  have ho := hs.follows.1 (by simp)
  have hon : w.http.on env .modeChange = some (w.http, none) := by
    simp only [on, onModeChange]
    rw [if_neg (by rw [ho.connState]; decide)]
  rw [listen_handled hs.terminated ho.socket hon]
  exact ⟨⟨hs.terminated, hs.follows⟩, rfl⟩

theorem Carries.append {ds : List HttpEvent} (hc : Carries ds body) (inbuf : Str) (bufpos : Int)
    (aLen : Nat) : Carries (ds ++ [.data inbuf bufpos aLen])
      (body ++ (inbuf.drop bufpos.toNat).take aLen) := by
  constructor
  · intro e he
    rw [List.mem_append, List.mem_singleton] at he
    cases he with
    | inl he => exact hc.data e he
    | inr he => exact ⟨_, _, _, he⟩
  · simp [hc.bytes, HttpEvent.bytes]

/-- Data is part of the body; when there is no data any more there is none. -/
theorem stands_data (env : HttpEnv) (hs : Stands url k body w) (inbuf : Str) (bufpos : Int)
    (aLen : Nat) (hk : k = .chunks ∨ (inbuf.drop bufpos.toNat).take aLen = []) :
    Stands url k (body ++ (inbuf.drop bufpos.toNat).take aLen)
      (listen env w (.data inbuf bufpos aLen)).1 ∧
      (listen env w (.data inbuf bufpos aLen)).2 = none := by
  by_cases hclosed : k = .closed
  · have hc := hs.follows.2 hclosed
    have hnil : (inbuf.drop bufpos.toNat).take aLen = [] := by
      refine hk.resolve_left ?_
      rw [hclosed]
      decide
    rw [listen_off _ hc.socket, hnil, List.append_nil]
    exact ⟨⟨hs.terminated, hs.follows⟩, rfl⟩
  · have ho := hs.follows.1 hclosed
    have hon : w.http.on env (.data inbuf bufpos aLen) =
        some ({ w.http.fire (.data inbuf bufpos aLen) with
          done := toInt64 (w.http.done + aLen) }, none) := by
      simp only [on, onData, ho.size, ne_eq, not_true_eq_false, false_and, if_false]
    rw [listen_handled hs.terminated ho.socket hon]
    exact ⟨⟨hs.terminated, Open.follows ⟨ho.socket, ho.connState, ho.size, ho.currentUrl,
      ho.fired.append inbuf bufpos aLen⟩ hclosed⟩, rfl⟩

def itemByte? : Item → Option UInt8
  | .byte b => some b
  | _ => none

/-- The bytes among some items. -/
def itemBytes (is : List Item) : Str := is.filterMap itemByte?

theorem itemBytes_append (is js : List Item) :
    itemBytes (is ++ js) = itemBytes is ++ itemBytes js := List.filterMap_append

theorem itemBytes_map (bytes : Str) : itemBytes (bytes.map .byte) = bytes := by
  rw [itemBytes, List.filterMap_map]
  exact List.filterMap_some

theorem lines_map_byte (bytes : Str) : lines (bytes.map .byte) = [] := by
  simp [lines, Item.line?]

theorem plays_map_byte {bytes : Str} (h : Plays k (bytes.map .byte)) :
    k = .chunks ∨ bytes = [] := by
  cases bytes with
  | nil => exact .inr rfl
  | cons b bytes => exact .inl h.1

/-- **What the handlers make of events that go with the phases**: they answer as the recorder does,
    and what they have fired is the bytes among the items, and `Complete` at the end. -/
theorem stands_events (env : HttpEnv) (hs : Stands url .status [] w) {es : List Event}
    (hplays : Plays .status (items es)) :
    Answers (listen env) w answer es ∧
      Stands url (Phase.status.behind (lines (items es))) (itemBytes (items es))
        (after (listen env) w es) := by
  induction es using List.reverseRecOn with
  | nil =>
    refine ⟨?_, hs⟩
    intro p e hp
    exact absurd (List.prefix_nil.mp hp) (by simp)
  | append_singleton es e ih =>
    have hsplit : items (es ++ [e]) = items es ++ e.items := by
      rw [BufferedSocket.items_append]
      simp [items]
    rw [hsplit, plays_append] at hplays
    obtain ⟨hanswers, hstands⟩ := ih hplays.1
    have hlines : lines (items es ++ e.items) = lines (items es) ++ lines e.items :=
      List.filterMap_append
    have hstep : (listen env (after (listen env) w es) e).2 = (recorder answer es e).2 ∧
        Stands url (Phase.status.behind (lines (items es ++ e.items)))
          (itemBytes (items es ++ e.items)) (listen env (after (listen env) w es) e).1 := by
      rw [hlines, behind_append, itemBytes_append]
      cases e with
      | line aLine =>
        have hlast := stands_line env hstands hplays.2.1
        have hbytes : itemBytes (Event.line aLine).items = [] := rfl
        refine ⟨?_, ?_⟩
        · simp only [hlast.2, recorder, hsplit, hlines]
          exact (answer_concat _ _).symm
        · rw [hbytes, List.append_nil]
          exact hlast.1
      | modeChange =>
        have hk := hplays.2.1
        rw [hk] at hstands
        have hlast := stands_modeChange env hstands
        have hbytes : itemBytes Event.modeChange.items = [] := rfl
        have hnone : lines Event.modeChange.items = [] := rfl
        refine ⟨hlast.2, ?_⟩
        rw [hbytes, hnone, List.append_nil, hk]
        exact hlast.1
      | data inbuf bufpos aLen =>
        have hk := plays_map_byte hplays.2
        have hlast := stands_data env hstands inbuf bufpos aLen hk
        refine ⟨hlast.2, ?_⟩
        rw [Event.items, lines_map_byte, itemBytes_map]
        exact hlast.1
    rw [hsplit, BufferedSocket.after_append]
    refine ⟨?_, hstep.2⟩
    intro p e' hp
    rcases List.prefix_concat_iff.mp hp with heq | hpre
    · have hlast := List.append_inj' heq rfl
      rw [hlast.1, List.singleton_inj.mp hlast.2]
      exact hstep.1
    · exact hanswers p e' hpre

/-! ## Turns -/

/-- A line, its end, and the block that is asked for on it. -/
structure Turn where
  line : Str
  block : Option Str

def Turn.bytes (t : Turn) : Str := t.line ++ 10 :: t.block.getD []

def Turn.items (t : Turn) : List Item :=
  .line t.line :: t.block.elim [] fun d => d.map .byte ++ [.modeChange]

/-- The turn goes with the phase, and the socket does not give up on its line. -/
structure TurnOk (maxCommandLength : Nat) (k : Phase) (t : Turn) : Prop where
  ne : t.line ≠ []
  lf : 10 ∉ t.line
  short : t.line.length ≤ maxCommandLength
  takes : Takes k t.line
  block : (k.next t.line).2 = t.block.map fun d => (d.length : Int)
  data : ∀ d ∈ t.block, d ≠ [] ∧ (k.next t.line).1 = .chunks

def TurnsOk (maxCommandLength : Nat) : Phase → List Turn → Prop
  | _, [] => True
  | k, t :: ts => TurnOk maxCommandLength k t ∧ TurnsOk maxCommandLength (k.next t.line).1 ts

theorem turnsOk_append {maxCommandLength : Nat} (k : Phase) (ts us : List Turn) :
    TurnsOk maxCommandLength k (ts ++ us) ↔ TurnsOk maxCommandLength k ts ∧
      TurnsOk maxCommandLength (k.behind (ts.map Turn.line)) us := by
  induction ts generalizing k with
  | nil => simp [TurnsOk, Phase.behind]
  | cons t ts ih =>
    simp only [List.cons_append, TurnsOk, ih, and_assoc]
    rfl

/-- The turns go with the phases from `k` to `k'`. -/
def Leads (maxCommandLength : Nat) (k : Phase) (ts : List Turn) (k' : Phase) : Prop :=
  TurnsOk maxCommandLength k ts ∧ k.behind (ts.map Turn.line) = k'

theorem Leads.append {maxCommandLength : Nat} {k k' k'' : Phase} {ts us : List Turn}
    (ht : Leads maxCommandLength k ts k') (hu : Leads maxCommandLength k' us k'') :
    Leads maxCommandLength k (ts ++ us) k'' := by
  refine ⟨(turnsOk_append k ts us).mpr ⟨ht.1, ht.2 ▸ hu.1⟩, ?_⟩
  rw [List.map_append, behind_append, ht.2, hu.2]

theorem Leads.of_turnOk {maxCommandLength : Nat} {t : Turn} (h : TurnOk maxCommandLength k t) :
    Leads maxCommandLength k [t] (k.next t.line).1 := ⟨⟨h, trivial⟩, rfl⟩

/-- Turns that stay in a phase. -/
theorem Leads.flatMap {α : Type} {maxCommandLength : Nat} {f : α → List Turn} {xs : List α}
    (h : ∀ x ∈ xs, Leads maxCommandLength k (f x) k) :
    Leads maxCommandLength k (xs.flatMap f) k := by
  induction xs with
  | nil => exact ⟨trivial, rfl⟩
  | cons x xs ih =>
    rw [List.flatMap_cons]
    exact (h x List.mem_cons_self).append (ih fun y hy => h y (List.mem_cons_of_mem _ hy))

theorem lines_turn (t : Turn) : lines t.items = [t.line] := by
  cases hblock : t.block with
  | none =>
    rw [Turn.items, hblock]
    rfl
  | some d =>
    have hlines : lines (d.map .byte ++ [.modeChange]) = [] := by
      have hsplit : lines (d.map Item.byte ++ [.modeChange]) =
          lines (d.map .byte) ++ lines [.modeChange] := List.filterMap_append
      rw [hsplit, lines_map_byte]
      rfl
    rw [Turn.items, hblock]
    exact congrArg (t.line :: ·) hlines

theorem lines_turns (ts : List Turn) : lines (ts.flatMap Turn.items) = ts.map Turn.line := by
  induction ts with
  | nil => rfl
  | cons t ts ih =>
    have hsplit : lines (t.items ++ ts.flatMap Turn.items) =
        lines t.items ++ lines (ts.flatMap Turn.items) := List.filterMap_append
    rw [List.flatMap_cons, hsplit, lines_turn, ih]
    rfl

theorem plays_bytes (bytes : Str) : Plays .chunks (bytes.map .byte) := by
  induction bytes with
  | nil => trivial
  | cons b bytes ih => exact ⟨rfl, ih⟩

theorem TurnOk.plays {maxCommandLength : Nat} {t : Turn} (h : TurnOk maxCommandLength k t) :
    Plays k t.items := by
  cases hblock : t.block with
  | none =>
    rw [Turn.items, hblock]
    exact ⟨h.takes, trivial⟩
  | some d =>
    obtain ⟨-, hk⟩ := h.data d hblock
    rw [Turn.items, hblock]
    refine ⟨h.takes, ?_⟩
    rw [hk]
    refine (plays_append _ _ _).mpr ⟨plays_bytes d, ?_⟩
    rw [lines_map_byte]
    exact ⟨rfl, trivial⟩

/-- The items of the turns go with the phases. -/
theorem plays_turns {maxCommandLength : Nat} {ts : List Turn} (h : TurnsOk maxCommandLength k ts) :
    Plays k (ts.flatMap Turn.items) := by
  induction ts generalizing k with
  | nil => trivial
  | cons t ts ih =>
    rw [List.flatMap_cons, plays_append, lines_turn]
    exact ⟨h.1.plays, ih h.2⟩

/-- A framer between two turns. -/
structure Fresh (k : Phase) (f : Framer) : Prop where
  mode : f.mode = .line
  line : f.line = []
  phase : Phase.status.behind (lines f.items) = k

/-- The framer behind the end of a line. -/
def lineEnded (f : Framer) (t : Turn) : Framer :=
  let g := { f with line := [], items := f.items ++ [.line t.line] }
  t.block.elim g fun d => g.setDataMode d.length

theorem feed_lineEnd {maxCommandLength : Nat} {f : Framer} {t : Turn} (hf : Fresh k f)
    (h : TurnOk maxCommandLength k t) :
    Framer.feed 10 answer f (t.line ++ [10]) = lineEnded f t := by
  have hlines : lines (f.items ++ [.line t.line]) = lines f.items ++ [t.line] :=
    List.filterMap_append
  have hmode := hf.mode
  rw [Framer.feed_append, Framer.feed_line hmode h.lf, hf.line, List.nil_append, Framer.feed_cons,
    Framer.step_separator (by simpa using hmode), Framer.endLine, if_neg h.ne]
  simp only [Framer.feed_nil, hlines, answer_concat, hf.phase, h.block, lineEnded]
  cases t.block <;> rfl

/-- Nothing of a block belongs to a line. -/
theorem line_feed_block {f : Framer} {q : Str} (hmode : f.mode = .data) (hpos : 0 < f.dataBytes)
    (hlen : (q.length : Int) ≤ f.dataBytes) : (Framer.feed 10 answer f q).line = f.line := by
  rcases hlen.lt_or_eq with hlt | heq
  · rw [Framer.feed_data_part hmode hlt]
  · rw [Framer.feed_data_block hmode hpos heq]

/-- **The framer hands a turn over** as a line and a block. -/
theorem feed_turn {maxCommandLength : Nat} {f : Framer} {t : Turn} (hf : Fresh k f)
    (h : TurnOk maxCommandLength k t) :
    Fresh (k.next t.line).1 (Framer.feed 10 answer f t.bytes) ∧
      (Framer.feed 10 answer f t.bytes).items = f.items ++ t.items := by
  have hsplit : t.bytes = t.line ++ [10] ++ t.block.getD [] := by simp [Turn.bytes]
  have hphase : Phase.status.behind (lines (f.items ++ t.items)) = (k.next t.line).1 := by
    have hlines : lines (f.items ++ t.items) = lines f.items ++ lines t.items :=
      List.filterMap_append
    rw [hlines, behind_append, hf.phase, lines_turn]
    rfl
  rw [hsplit, Framer.feed_append, feed_lineEnd hf h, lineEnded]
  cases hblock : t.block with
  | none =>
    have hitems : t.items = [.line t.line] := by rw [Turn.items, hblock]; rfl
    rw [hitems] at hphase ⊢
    exact ⟨⟨hf.mode, rfl, hphase⟩, rfl⟩
  | some d =>
    have hitems : t.items = .line t.line :: (d.map .byte ++ [.modeChange]) := by
      rw [Turn.items, hblock]
      rfl
    have hpos := List.length_pos_iff.mpr (h.data d hblock).1
    simp only [Option.elim_some, Option.getD_some]
    rw [Framer.feed_data_block rfl (by simpa [Framer.setDataMode] using hpos) rfl]
    rw [hitems] at hphase ⊢
    simp only [Framer.setDataMode, List.append_assoc, List.singleton_append]
    exact ⟨⟨rfl, rfl, hphase⟩, trivial⟩

/-- On the way no line is longer than it may be. -/
theorem line_feed_turn {maxCommandLength : Nat} {f : Framer} {t : Turn} (hf : Fresh k f)
    (h : TurnOk maxCommandLength k t) {p : Str} (hp : p <+: t.bytes) :
    (Framer.feed 10 answer f p).line.length ≤ maxCommandLength := by
  have hsplit : t.bytes = t.line ++ [10] ++ t.block.getD [] := by simp [Turn.bytes]
  rw [hsplit] at hp
  rcases List.prefix_or_prefix_of_prefix hp (List.prefix_append _ _) with hshort | hlong
  · rcases List.prefix_concat_iff.mp hshort with heq | hline
    · rw [heq, feed_lineEnd hf h, lineEnded]
      cases t.block <;> exact Nat.zero_le _
    · have hlf : (10 : UInt8) ∉ p := fun hin => h.lf (hline.subset hin)
      rw [Framer.feed_line hf.mode hlf, hf.line, List.nil_append]
      exact hline.length_le.trans h.short
  · obtain ⟨q, rfl⟩ := hlong
    have hq := (List.prefix_append_right_inj _).mp hp
    rw [Framer.feed_append, feed_lineEnd hf h, lineEnded]
    cases hblock : t.block with
    | none =>
      rw [hblock] at hq
      rw [List.prefix_nil.mp hq]
      exact Nat.zero_le _
    | some d =>
      rw [hblock] at hq
      have hle := hq.length_le
      have hpos := List.length_pos_iff.mpr (h.data d hblock).1
      simp only [Option.getD_some, Option.elim_some] at hle ⊢
      rw [line_feed_block rfl (by simpa [Framer.setDataMode] using hpos)
        (by simpa [Framer.setDataMode] using hle)]
      exact Nat.zero_le _

/-- **The framer hands over the turns**, and no line is longer than it may be. -/
theorem feed_turns {maxCommandLength : Nat} {f : Framer} {ts : List Turn} (hf : Fresh k f)
    (h : TurnsOk maxCommandLength k ts) :
    Fresh (k.behind (ts.map Turn.line)) (Framer.feed 10 answer f (ts.flatMap Turn.bytes)) ∧
      (Framer.feed 10 answer f (ts.flatMap Turn.bytes)).items =
        f.items ++ ts.flatMap Turn.items ∧
      ∀ p, p <+: ts.flatMap Turn.bytes →
        (Framer.feed 10 answer f p).line.length ≤ maxCommandLength := by
  induction ts generalizing k f with
  | nil =>
    refine ⟨hf, by simp, ?_⟩
    intro p hp
    rw [List.flatMap_nil] at hp
    rw [List.prefix_nil.mp hp, Framer.feed_nil, hf.line]
    exact Nat.zero_le _
  | cons t ts ih =>
    obtain ⟨hfresh, hitems⟩ := feed_turn hf h.1
    obtain ⟨hfresh', hitems', hshort⟩ := ih hfresh h.2
    rw [List.flatMap_cons, Framer.feed_append]
    refine ⟨hfresh', ?_, ?_⟩
    · rw [hitems', hitems, List.append_assoc, List.flatMap_cons]
    · intro p hp
      rcases List.prefix_or_prefix_of_prefix hp (List.prefix_append _ _) with hfirst | hlong
      · exact line_feed_turn hf h.1 hfirst
      · obtain ⟨q, rfl⟩ := hlong
        rw [Framer.feed_append]
        exact hshort q ((List.prefix_append_right_inj _).mp hp)

end HttpConnection
end Airdcpp
