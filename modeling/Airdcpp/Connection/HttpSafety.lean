import Airdcpp.Connection.HttpConnection

/-!
# `Connection/HttpSafety` — responses the client survives

A line is handled in range and asks for a block that `threadRead` can count down (`Handles`) exactly
when it is `LineOk`: no chunk size of `2 ^ 63` or more, no `Location` without a location that a
request can be made for, and no end of the headers while the size is negative. The size is negative
where `Content-Length` was, or where it has more than 31 bits: it goes through an `int`.

While lines are `LineOk`, `threadRead` never leaves its buffer (`Bounded`) and nothing throws
(`Calm`), so every state of such a run is safe (`responses_safe`).
-/

namespace Airdcpp
namespace HttpConnection

open BufferedSocket (Event Connection Reading SocketRead)
open LinkUtil (SCHEME_END)

variable {env : HttpEnv} {h h' : HttpConnection} {aLine location : Str}

/-- The directory of the current URL. -/
def directory (h : HttpConnection) : Str :=
  h.currentUrl.take ((PathUtil.rfind (chr '/') h.currentUrl).elim 0 (· + 1))

/-- The `Location` of a redirection can be asked for. -/
def LocationOk (h : HttpConnection) (aLine : Str) : Prop :=
  10 ≤ aLine.length ∧ (h.query = [] → LinkUtil.sanitizeUrl (aLine.drop 10) ≠ SCHEME_END ∧
    (LinkUtil.sanitizeUrl (aLine.drop 10) = [] → h.directory ≠ SCHEME_END))

/-- The number in front of a chunk. -/
def chunkSize (aLine : Str) : Nat :=
  Util.strtoul16 (aLine.take ((find aLine (str ";") 0).getD (aLine.length - 1)))

/-- The client survives the line. -/
def LineOk (env : HttpEnv) (h : HttpConnection) (aLine : Str) : Prop :=
  if h.connState = .chunked ∧ 1 < aLine.length then
    chunkSize aLine < 2 ^ 63 ∨ chunkSize aLine = Util.ULONG_MAX
  else if h.connState = .unknown then True
  else if h.connState = .moved ∧ isLocation env aLine then LocationOk h aLine
  else aLine.head? = some 13 → -1 ≤ h.size

/-- A URL as a request leaves it. -/
structure Placed (h : HttpConnection) : Prop where
  scheme : SCHEME_END <:+: h.currentUrl
  clean : LinkUtil.Clean h.currentUrl
  long : 4 ≤ h.currentUrl.length

theorem Placed.congr (hp : Placed h) (heq : h'.currentUrl = h.currentUrl) : Placed h' :=
  ⟨heq ▸ hp.scheme, heq ▸ hp.clean, heq ▸ hp.long⟩

@[simp] theorem currentUrl_fire (e : HttpEvent) : (h.fire e).currentUrl = h.currentUrl := rfl
@[simp] theorem query_fire (e : HttpEvent) : (h.fire e).query = h.query := rfl
@[simp] theorem currentUrl_abortRequest : h.abortRequest.currentUrl = h.currentUrl := rfl
@[simp] theorem query_abortRequest : h.abortRequest.query = h.query := rfl

@[simp] theorem currentUrl_release : h.release.currentUrl = h.currentUrl := by
  rw [release]
  split <;> rfl

/-! ## Requests -/

theorem currentUrl_connect : (connect env h).currentUrl = h.currentUrl := by
  rw [connect]
  split
  · rfl
  · rw [currentUrl_release, currentUrl_fire]

theorem prepareServer_isSome (env : HttpEnv) (h : HttpConnection) :
    ∃ h', prepareServer env h = some h' ∧
    h'.currentUrl = h.currentUrl := by
  rw [prepareServer]
  split
  · obtain ⟨parts, hparts⟩ := LinkUtil.decodeUrl_isSome h.currentUrl
      { host := h.server, port := h.port, path := h.file, query := h.query }
    rw [hparts]
    exact ⟨_, rfl, rfl⟩
  · obtain ⟨parts, hparts⟩ := LinkUtil.decodeUrl_isSome env.httpProxy
      { host := h.server, port := h.port, path := h.file, query := h.query }
    rw [hparts]
    exact ⟨_, rfl, rfl⟩

/-- A request is made where the URL has four characters to compare. -/
theorem prepareRequest_of_le (env : HttpEnv) (connType : RequestType)
    (hlong : 4 ≤ (LinkUtil.sanitizeUrl h.currentUrl).length) :
    ∃ h', prepareRequest env h connType = some h' ∧
      h'.currentUrl = LinkUtil.sanitizeUrl h.currentUrl := by
  rw [prepareRequest, subSizeT, if_pos hlong]
  simp only [substr_of_le (Nat.sub_le _ _), Option.bind_eq_bind, Option.bind_some]
  obtain ⟨h₁, hserver, hurl⟩ := prepareServer_isSome env
    { h with
      currentUrl := LinkUtil.sanitizeUrl h.currentUrl
      size := -1, done := 0, connState := .unknown, connType := connType
      method := if connType = RequestType.post then str "POST" else str "GET"
      mimeType :=
        if Util.stricmp env.locale 5 (((LinkUtil.sanitizeUrl h.currentUrl).drop
            ((LinkUtil.sanitizeUrl h.currentUrl).length - 4)).take
              (LinkUtil.sanitizeUrl h.currentUrl).length) (str ".bz2") = 0 then
          str "application/x-bzip2"
        else [] }
  rw [hserver]
  exact ⟨_, rfl, currentUrl_connect.trans hurl⟩

theorem prepareRequest_of_lt (connType : RequestType)
    (hshort : (LinkUtil.sanitizeUrl h.currentUrl).length < 4) :
    prepareRequest env h connType = none := by
  rw [prepareRequest, subSizeT, if_neg (Nat.not_le.mpr hshort)]
  have hbehind : (LinkUtil.sanitizeUrl h.currentUrl).length <
      (LinkUtil.sanitizeUrl h.currentUrl).length + 2 ^ 64 - 4 := by omega
  simp only [substr_of_lt hbehind]
  rfl

/-- The next URL is as good as the one before. -/
theorem placed_sanitizeUrl {url : Str} (hscheme : SCHEME_END <:+: url)
    (hurl : h'.currentUrl = LinkUtil.sanitizeUrl url)
    (hlong : 4 ≤ (LinkUtil.sanitizeUrl url).length) : Placed h' := by
  refine ⟨?_, ?_, ?_⟩ <;> rw [hurl]
  · exact LinkUtil.scheme_sanitizeUrl hscheme
  · exact LinkUtil.clean_sanitizeUrl _
  · exact hlong

/-! ## Redirections -/

theorem not_trimmed_slash : LinkUtil.isTrimmed (chr '/') = false := by decide
theorem not_trimmed_question : LinkUtil.isTrimmed (chr '?') = false := by decide

/-- The directory of a URL keeps the scheme and what is in front of it. -/
theorem Placed.directory (hp : Placed h) :
    ∃ q r, h.currentUrl = q ++ chr '/' :: r ∧ h.directory = q ++ [chr '/'] ∧
      SCHEME_END <:+: h.directory ∧ LinkUtil.Clean h.directory := by
  obtain ⟨a, b, hab⟩ := hp.scheme
  have hmem : PathUtil.PATH_SEPARATOR ∈ h.currentUrl := by
    rw [← hab]
    simp [SCHEME_END, PathUtil.PATH_SEPARATOR, str]
  obtain ⟨q, r, hqr, hr⟩ := PathUtil.exists_last_separator hmem
  have hdir : h.directory = q ++ [chr '/'] := by
    have hlast : PathUtil.rfind (chr '/') h.currentUrl = some q.length := by
      rw [hqr]
      exact PathUtil.rfind_append_cons q hr
    rw [HttpConnection.directory, hlast, hqr]
    have htake := @List.take_left _ (q ++ [chr '/']) r
    rw [List.length_append, List.length_singleton, List.append_assoc] at htake
    exact htake
  refine ⟨q, r, hqr, hdir, ?_, ?_, ?_⟩
  · -- the last slash is one of the scheme or behind it
    rw [hdir]
    have hsplit : (a ++ SCHEME_END) ++ b = (q ++ [chr '/']) ++ r := by
      rw [hab, hqr, List.append_assoc]
      rfl
    rcases List.append_eq_append_iff.mp hsplit with ⟨c, hc, -⟩ | ⟨c, hc, hrest⟩
    · exact ⟨a, c, hc.symm⟩
    · rcases List.eq_nil_or_concat c with rfl | ⟨d, x, rfl⟩
      · rw [List.append_nil] at hc
        exact ⟨a, [], by rw [List.append_nil, hc]⟩
      · have hx : x = chr '/' := by
          have hlast := congrArg List.getLast? hc
          simp only [List.concat_eq_append, ← List.append_assoc, SCHEME_END,
            List.getLast?_append] at hlast
          exact (Option.some.inj hlast).symm
        refine absurd ?_ hr
        rw [hrest, hx]
        simp [PathUtil.PATH_SEPARATOR, chr]
  · intro c rest hc
    rw [hdir] at hc
    cases q with
    | nil =>
      rw [List.nil_append, List.cons.injEq] at hc
      exact hc.1 ▸ not_trimmed_slash
    | cons x q =>
      rw [List.cons_append, List.cons.injEq] at hc
      exact hc.1 ▸ hp.clean.head x _ (hqr.trans List.cons_append)
  · intro s c hc
    rw [hdir] at hc
    have hlast := List.append_inj_right' hc rfl
    rw [List.cons.injEq] at hlast
    exact hlast.1 ▸ not_trimmed_slash

theorem four_le_of_scheme {s : Str} (h : SCHEME_END <:+: s) : 4 ≤ s.length ↔ s ≠ SCHEME_END := by
  have hlen := h.length_le
  have hthree : SCHEME_END.length = 3 := rfl
  constructor
  · intro hs heq
    rw [heq] at hs
    omega
  · intro hne
    by_contra hlt
    exact hne (h.eq_of_length (by omega)).symm

/-- Where a location leads to. -/
theorem resolve_spec (hp : Placed h) (hclean : LinkUtil.Clean location) :
    ∃ h' loc, h.resolve location = some (h', loc) ∧ h'.currentUrl = h.currentUrl ∧
      h'.query = h.query ∧ SCHEME_END <:+: loc ∧
      (4 ≤ (LinkUtil.sanitizeUrl
          (if h.query = [] then loc else loc ++ chr '?' :: h.query)).length ↔
        (h.query = [] → location ≠ SCHEME_END ∧ (location = [] → h.directory ≠ SCHEME_END))) := by
  rw [resolve]
  cases hfind : find location (str "://") 0 with
  | some i =>
    obtain ⟨-, rest, hrest⟩ := find_eq_some hfind
    have hscheme : SCHEME_END <:+: location := ⟨location.take i, rest, hrest.symm⟩
    refine ⟨h, location, rfl, rfl, rfl, hscheme, ?_⟩
    by_cases hquery : h.query = []
    · have hne : location ≠ [] := by
        intro hnil
        rw [hnil] at hscheme
        exact absurd hscheme.length_le (by decide)
      rw [if_pos hquery, hclean.sanitizeUrl, four_le_of_scheme hscheme]
      simp [hquery, hne]
    · rw [if_neg hquery]
      have hlong := LinkUtil.length_sanitizeUrl_lt hscheme not_trimmed_question h.query
      exact iff_of_true hlong fun hnil => absurd hnil hquery
  | none =>
    have hfree := find_eq_none hfind
    have hne : location ≠ SCHEME_END := fun heq => hfree (heq ▸ List.infix_rfl)
    rw [charAt_of_le (Nat.zero_le _)]
    simp only [Option.isSome_none, Bool.false_eq_true, if_false, Option.bind_eq_bind,
      Option.bind_some]
    by_cases hslash : location.getD 0 0 = chr '/'
    · rw [if_pos hslash]
      obtain ⟨parts, hparts⟩ := LinkUtil.decodeUrl_isSome h.currentUrl
        { host := h.server, port := h.port, path := h.file }
      rw [hparts]
      obtain ⟨rest, rfl⟩ : ∃ rest, location = chr '/' :: rest := by
        cases location with
        | nil => exact absurd hslash (by decide)
        | cons c rest => exact ⟨rest, congrArg (· :: rest) hslash⟩
      have hscheme : SCHEME_END <:+:
          parts.protocol ++ str "://" ++ parts.host ++ chr ':' :: parts.port :=
        ⟨parts.protocol, parts.host ++ chr ':' :: parts.port, (List.append_assoc _ _ _).symm⟩
      refine ⟨_, _, rfl, rfl, rfl, ?_, ?_⟩
      · exact hscheme.trans (List.prefix_append _ _).isInfix
      · have hlong := LinkUtil.length_sanitizeUrl_lt hscheme not_trimmed_slash
          (if h.query = [] then rest else rest ++ chr '?' :: h.query)
        refine iff_of_true ?_ fun _ => ⟨hne, fun hnil => absurd hnil (List.cons_ne_nil _ _)⟩
        split at hlong
        · rename_i hquery
          rw [if_pos hquery]
          exact hlong
        · rename_i hquery
          rw [if_neg hquery, List.append_assoc]
          exact hlong
    · rw [if_neg hslash, substr_of_le (Nat.zero_le _)]
      obtain ⟨-, -, -, -, hscheme, hdir⟩ := hp.directory
      refine ⟨_, _, rfl, rfl, rfl, ?_, ?_⟩
      · exact hscheme.trans (List.prefix_append _ _).isInfix
      · change 4 ≤ (LinkUtil.sanitizeUrl (if h.query = [] then h.directory ++ location
          else h.directory ++ location ++ chr '?' :: h.query)).length ↔ _
        by_cases hquery : h.query = []
        · rw [if_pos hquery]
          rcases List.eq_nil_or_concat location with rfl | ⟨s, c, rfl⟩
          · rw [List.append_nil, hdir.sanitizeUrl, four_le_of_scheme hscheme]
            simp [hquery, hne]
          · rw [List.concat_eq_append] at hclean hne ⊢
            have hlong := LinkUtil.length_sanitizeUrl_lt
              (hscheme.trans (List.prefix_append _ s).isInfix) (hclean.last s c rfl) []
            rw [List.append_assoc] at hlong
            simp [hne, hlong]
        · rw [if_neg hquery]
          have hlong := LinkUtil.length_sanitizeUrl_lt
            (hscheme.trans (List.prefix_append _ location).isInfix) not_trimmed_question h.query
          exact iff_of_true hlong fun hnil => absurd hnil hquery

/-- **A redirection is followed, or found to be a loop, exactly when its location is one.** -/
theorem onLocation_iff (env : HttpEnv) (hp : Placed h) :
    (∃ h', h.onLocation env aLine = some h' ∧ Placed h') ↔ LocationOk h aLine := by
  rw [onLocation, LocationOk]
  by_cases hlen : 10 ≤ aLine.length
  · have htake : (aLine.drop 10).take (aLine.length - 10) = aLine.drop 10 :=
      List.take_of_length_le (by rw [List.length_drop])
    obtain ⟨h₁, loc, hresolve, hurl, hquery, hscheme, hlong⟩ :=
      resolve_spec (h := h.abortRequest) (hp.congr rfl)
        (LinkUtil.clean_sanitizeUrl (aLine.drop 10))
    simp only [substr_of_le hlen, htake, Option.bind_eq_bind, Option.bind_some, hresolve]
    rw [query_abortRequest] at hlong hquery
    rw [currentUrl_abortRequest] at hurl
    have hdir : h.abortRequest.directory = h.directory := rfl
    rw [hdir] at hlong
    rw [← hlong, hurl, hquery]
    simp only [hlen, true_and]
    by_cases hsame : loc = h.currentUrl
    · rw [if_pos hsame]
      refine iff_of_true ⟨_, rfl, hp.congr currentUrl_release⟩ ?_
      rw [hsame]
      split
      · rw [hp.clean.sanitizeUrl]
        exact hp.long
      · exact LinkUtil.length_sanitizeUrl_lt hp.scheme not_trimmed_question h.query
    · rw [if_neg hsame]
      have hscheme' : SCHEME_END <:+: if h.query = [] then loc else loc ++ chr '?' :: h.query := by
        split
        · exact hscheme
        · exact hscheme.trans (List.prefix_append _ _).isInfix
      generalize (if h.query = [] then loc else loc ++ chr '?' :: h.query) = next at *
      rw [downloadFile]
      by_cases hfour : 4 ≤ (LinkUtil.sanitizeUrl next).length
      · obtain ⟨h', hsome, hnext⟩ := prepareRequest_of_le env .get
          (h := { h₁.fire (.redirected next) with currentUrl := next }) hfour
        exact iff_of_true ⟨h', hsome, placed_sanitizeUrl hscheme' hnext hfour⟩ hfour
      · rw [prepareRequest_of_lt .get (Nat.lt_of_not_le hfour)]
        simp [hfour]
  · rw [substr_of_lt (Nat.lt_of_not_le hlen)]
    simp [hlen]

/-! ## Lines -/

/-- The line is handled, and `threadRead` can do what it asks for. -/
def Handles (env : HttpEnv) (h : HttpConnection) (aLine : Str) : Prop :=
  ∃ h' aBytes, h.onLine env aLine = some (h', aBytes) ∧ Placed h' ∧
    ∀ n ∈ aBytes, n = -1 ∨ 0 ≤ n

theorem strtoul16_le (s : Str) : Util.strtoul16 s ≤ Util.ULONG_MAX := by
  rw [Util.strtoul16]
  split
  · exact Nat.le_refl _
  · split
    · have hlt := Nat.mod_lt (2 ^ 64 - Util.digits 16 0 (Util.skipHexPrefix (Util.sign s).2))
        (show 2 ^ 64 > 0 by decide)
      rw [Util.ULONG_MAX]
      omega
    · rename_i hle _
      exact Nat.not_lt.mp hle

theorem onChunkSize_eq (h : HttpConnection) (aLine : Str) :
    h.onChunkSize aLine = some
      (if chunkSize aLine = 0 then
        ({ h.abortRequest.fire (.complete h.currentUrl) with connState := .ok }.release, none)
      else if chunkSize aLine = Util.ULONG_MAX then
        ({ h.abortRequest.fire (.failed (withUrl (str "Transfer-encoding error") h.currentUrl)) with
          connState := .failed }.release, none)
      else (h, some (toInt64 (chunkSize aLine)))) := by
  rw [onChunkSize, chunkSize]
  cases find aLine (str ";") 0 with
  | none =>
    simp only [substr_of_le (Nat.zero_le _), Option.bind_eq_bind, Option.bind_some, List.drop_zero,
      Option.getD_none]
    split
    · rfl
    · split <;> rfl
  | some i =>
    simp only [substr_of_le (Nat.zero_le _), Option.bind_eq_bind, Option.bind_some, List.drop_zero,
      Option.getD_some]
    split
    · rfl
    · split <;> rfl

theorem onChunkSize_iff (hp : Placed h) :
    (∃ h' aBytes, h.onChunkSize aLine = some (h', aBytes) ∧ Placed h' ∧
      ∀ n ∈ aBytes, n = -1 ∨ 0 ≤ n) ↔
      chunkSize aLine < 2 ^ 63 ∨ chunkSize aLine = Util.ULONG_MAX := by
  have hle := strtoul16_le (aLine.take ((find aLine (str ";") 0).getD (aLine.length - 1)))
  rw [onChunkSize_eq]
  rw [← chunkSize] at hle
  generalize chunkSize aLine = n at *
  by_cases h0 : n = 0
  · rw [if_pos h0]
    refine iff_of_true ⟨_, _, rfl, hp.congr currentUrl_release, by simp⟩ (Or.inl ?_)
    omega
  · rw [if_neg h0]
    by_cases hmax : n = Util.ULONG_MAX
    · rw [if_pos hmax]
      exact iff_of_true ⟨_, _, rfl, hp.congr currentUrl_release, by simp⟩ (Or.inr hmax)
    · rw [if_neg hmax]
      have hbmod : toInt64 n = if n < 2 ^ 63 then (n : Int) else n - 2 ^ 64 := by
        rw [Util.ULONG_MAX] at hle hmax
        rw [toInt64]
        split
        · rw [Int.bmod_def, Int.emod_eq_of_lt (by omega) (by omega), if_pos (by omega)]
        · rw [Int.bmod_def, Int.emod_eq_of_lt (by omega) (by omega), if_neg (by omega)]
          rfl
      constructor
      · intro hsome
        obtain ⟨h', aBytes, heq, -, hn⟩ := hsome
        cases heq
        have hval := hn _ rfl
        rw [hbmod] at hval
        rw [Util.ULONG_MAX] at hmax hle
        left
        split at hval <;> omega
      · intro hok
        refine ⟨h, _, rfl, hp, ?_⟩
        intro v hv
        rw [← Option.some.inj hv, hbmod, if_pos (hok.resolve_right hmax)]
        exact Or.inr (Int.natCast_nonneg n)

theorem currentUrl_onStatus : (h.onStatus aLine).currentUrl = h.currentUrl := by
  rw [onStatus]
  split
  · rfl
  · split
    · rfl
    · generalize (if 1 < aLine.length ∧ aLine.getLast? = some 13 then aLine.dropLast else aLine) =
        error
      simp only
      split
      · rw [currentUrl_release]
        rfl
      · rfl

theorem onHeader_isSome (h : HttpConnection) (aLine : Str) :
    ∃ h', h.onHeader aLine = some h' ∧ h'.currentUrl = h.currentUrl := by
  rw [onHeader]
  split
  · exact ⟨h, rfl, rfl⟩
  · have hvalue : (findFirstOf aLine [chr ':'] 0).elim 0 (· + 1) ≤ aLine.length := by
      cases hfind : findFirstOf aLine [chr ':'] 0 with
      | none => exact Nat.zero_le _
      | some i => exact (findFirstOf_eq_some hfind).2
    simp only [substr_of_le (Nat.zero_le _), substr_of_le hvalue, Option.bind_eq_bind,
      Option.bind_some]
    refine ⟨_, rfl, ?_⟩
    simp only
    split
    · rfl
    · split
      · split
        · split <;> rfl
        · split <;> rfl
      · rfl

theorem getD_eq_iff_head? : aLine.getD 0 0 = 13 ↔ aLine.head? = some 13 := by
  cases aLine with
  | nil => simp
  | cons c rest => simp

/-- **What a line may be.** -/
theorem handles_iff (hp : Placed h) : Handles env h aLine ↔ LineOk env h aLine := by
  rw [Handles, LineOk, onLine]
  by_cases hchunk : h.connState = .chunked ∧ 1 < aLine.length
  · rw [if_pos hchunk, if_pos hchunk]
    exact onChunkSize_iff hp
  · rw [if_neg hchunk, if_neg hchunk]
    by_cases hunknown : h.connState = .unknown
    · rw [if_pos hunknown, if_pos hunknown]
      exact iff_of_true ⟨_, _, rfl, hp.congr currentUrl_onStatus, by simp⟩ trivial
    · rw [if_neg hunknown, if_neg hunknown]
      by_cases hmoved : h.connState = .moved ∧ isLocation env aLine = true
      · rw [if_pos hmoved, if_pos hmoved, ← onLocation_iff env hp]
        constructor
        · intro hsome
          obtain ⟨h', aBytes, hsome, hplaced, -⟩ := hsome
          simp only [Option.bind_eq_bind, Option.bind_eq_some_iff] at hsome
          obtain ⟨h₁, h₁some, heq⟩ := hsome
          cases heq
          exact ⟨_, h₁some, hplaced⟩
        · intro hsome
          obtain ⟨h', hsome, hplaced⟩ := hsome
          rw [hsome]
          exact ⟨h', none, rfl, hplaced, by simp⟩
      · rw [if_neg hmoved, if_neg hmoved, charAt_of_le (Nat.zero_le _), ← getD_eq_iff_head?]
        simp only [Option.bind_eq_bind, Option.bind_some]
        by_cases hblank : aLine.getD 0 0 = 13
        · rw [if_pos hblank]
          by_cases hsize : h.size ≠ -1
          · rw [if_pos hsize]
            constructor
            · intro hsome _
              obtain ⟨h', aBytes, heq, -, hn⟩ := hsome
              cases heq
              have := hn _ rfl
              omega
            · intro hge
              have hge := hge hblank
              refine ⟨h, _, rfl, hp, ?_⟩
              intro v hv
              cases hv
              omega
          · rw [if_neg hsize]
            refine iff_of_true ⟨_, _, rfl, hp.congr rfl, by simp⟩ fun _ => ?_
            omega
        · rw [if_neg hblank]
          refine iff_of_true ?_ fun h13 => absurd h13 hblank
          split
          · obtain ⟨h', hsome, hurl⟩ := onHeader_isSome h aLine
            rw [hsome]
            exact ⟨h', none, rfl, hp.congr hurl, by simp⟩
          · exact ⟨h, none, rfl, hp, by simp⟩

/-! ## Events -/

/-- A `Data` event covers bytes of the buffer. -/
def InRange : Event → Prop
  | .data inbuf bufpos aLen => 0 ≤ bufpos ∧ bufpos + aLen ≤ inbuf.length
  | _ => True

instance : DecidablePred InRange := fun e =>
  match e with
  | .data inbuf bufpos aLen =>
    inferInstanceAs (Decidable (0 ≤ bufpos ∧ bufpos + aLen ≤ inbuf.length))
  | .line _ => .isTrue trivial
  | .modeChange => .isTrue trivial

/-- The next event is one that the client survives. -/
def EventOk (env : HttpEnv) (h : HttpConnection) : Event → Prop
  | .line aLine => h.socket = .connected → LineOk env h aLine
  | e => InRange e

/-- Nothing has gone wrong so far. -/
structure Calm (c : Connection Watch) : Prop where
  alive : c.listener.terminated = false
  inRange : ∀ e ∈ c.listener.events, InRange e
  placed : Placed c.listener.http
  rollback : c.socket.rollback = 0
  data : c.socket.mode = .data → c.socket.dataBytes = -1 ∨ 0 ≤ c.socket.dataBytes

theorem currentUrl_onModeChange : h.onModeChange.currentUrl = h.currentUrl := by
  rw [onModeChange]
  split
  · rw [currentUrl_release]
    rfl
  · rfl

theorem currentUrl_onData (inbuf : Str) (bufpos : Int) (aLen : Nat) :
    (h.onData inbuf bufpos aLen).currentUrl = h.currentUrl := by
  rw [onData]
  split
  · rw [currentUrl_release]
    rfl
  · rfl

theorem currentUrl_onFailed : (h.onFailed aLine).currentUrl = h.currentUrl := by
  rw [onFailed, currentUrl_release]
  rfl

/-- A handler survives the event. -/
theorem on_spec (hp : Placed h) (hsocket : h.socket = .connected) {e : Event}
    (he : EventOk env h e) : ∃ h' aBytes, h.on env e = some (h', aBytes) ∧ Placed h' ∧
      ∀ n ∈ aBytes, n = -1 ∨ 0 ≤ n := by
  cases e with
  | line aLine => exact (handles_iff hp).mpr (he hsocket)
  | modeChange => exact ⟨_, none, rfl, hp.congr currentUrl_onModeChange, by simp⟩
  | data inbuf bufpos aLen =>
    exact ⟨_, none, rfl, hp.congr (currentUrl_onData inbuf bufpos aLen), by simp⟩

variable {c : Connection Watch} {r : Reading Watch}

theorem Calm.fire (hc : Calm c) {e : Event} (he : EventOk env c.listener.http e)
    (hrange : InRange e) : Calm (BufferedSocket.fire (listen env) c e) := by
  have hevents : ∀ e' ∈ c.listener.events ++ [e], InRange e' := by
    intro e' he'
    rcases List.mem_append.mp he' with he' | he'
    · exact hc.inRange e' he'
    · rw [List.mem_singleton.mp he']
      exact hrange
  by_cases hsocket : c.listener.http.socket = .connected
  · obtain ⟨h', aBytes, hsome, hplaced, hn⟩ := on_spec hc.placed hsocket he
    have hlisten : listen env c.listener e =
        ({ c.listener with events := c.listener.events ++ [e], http := h' }, aBytes) := by
      simp only [listen, hc.alive, hsocket, hsome]
      rfl
    rw [BufferedSocket.fire, hlisten]
    refine ⟨hc.alive, hevents, hplaced, ?_, ?_⟩
    · cases aBytes with
      | none => exact hc.rollback
      | some n => exact hc.rollback
    · cases aBytes with
      | none => exact hc.data
      | some n => exact fun _ => hn n rfl
  · have hlisten : listen env c.listener e =
        ({ c.listener with events := c.listener.events ++ [e] }, none) := by
      simp only [listen]
      rw [if_pos (Or.inr hsocket)]
    rw [BufferedSocket.fire, hlisten]
    exact ⟨hc.alive, hevents, hc.placed, hc.rollback, hc.data⟩

/-- Only lines are answered with `setDataMode`. -/
theorem socket_fire (env : HttpEnv) (c : Connection Watch) {e : Event}
    (he : ∀ aLine, e ≠ .line aLine) :
    (BufferedSocket.fire (listen env) c e).socket = c.socket := by
  have hnone : (listen env c.listener e).2 = none := by
    rw [listen]
    split
    · rfl
    · cases e with
      | line aLine => exact absurd rfl (he aLine)
      | modeChange => rfl
      | data inbuf bufpos aLen => rfl
  rw [BufferedSocket.fire, hnone]
  rfl

/-- `threadRead` is inside its buffer. -/
structure Bounded (r : Reading Watch) : Prop where
  size : r.total ≤ r.inbuf.length
  int : r.inbuf.length < 2 ^ 31
  left : 0 ≤ r.left ∧ r.left ≤ r.total
  bufpos : r.l = none → 0 < r.left → 0 ≤ r.bufpos ∧ r.bufpos + r.left = r.total
  calm : Calm r.toConnection

/-- The line that the next round hands over. -/
def nextLine (r : Reading Watch) : Option Str :=
  (r.l.bind fun l => (l.idxOf? r.socket.separator).map l.take).filter (· ≠ [])

/-- It is one the client survives, if there is one and somebody listens. -/
def RoundOk (env : HttpEnv) (r : Reading Watch) : Prop :=
  r.listener.http.socket = .connected → ∀ aLine ∈ nextLine r, LineOk env r.listener.http aLine

theorem bounded_lineRound {l : Str} (hr : Bounded r) (hl : r.l = some l)
    (hok : RoundOk env r) : Bounded (BufferedSocket.lineRound (listen env) r l) := by
  have hleft := hr.left
  cases hidx : l.idxOf? r.socket.separator with
  | none =>
    rw [BufferedSocket.lineRound, hidx]
    refine ⟨hr.size, hr.int, ⟨Int.le_refl _, hleft.1.trans hleft.2⟩, ?_, ?_⟩
    · intro _ hpos
      exact absurd hpos (Int.lt_irrefl _)
    · exact ⟨hr.calm.alive, hr.calm.inRange, hr.calm.placed, hr.calm.rollback, hr.calm.data⟩
  | some pos =>
    have hcalm : Calm (if 0 < pos then
        BufferedSocket.fire (listen env) r.toConnection (.line (l.take pos))
        else r.toConnection) := by
      split
      · rename_i hpos
        refine hr.calm.fire (fun hsocket => hok hsocket _ ?_) trivial
        have hne : l ≠ [] := by
          rintro rfl
          cases hidx
        rw [nextLine, hl, Option.bind_some, hidx, Option.map_some]
        simp [hpos.ne', hne]
      · exact hr.calm
    rw [BufferedSocket.lineRound, hidx]
    simp only
    generalize (if 0 < pos then
      BufferedSocket.fire (listen env) r.toConnection (.line (l.take pos))
      else r.toConnection) = c at hcalm
    generalize hlen : (l.drop (pos + 1)).length = n
    have hmin : 0 ≤ (if (n : Int) < r.left then (n : Int) else r.left) ∧
        (if (n : Int) < r.left then (n : Int) else r.left) ≤ r.left := by
      split <;> omega
    generalize (if (n : Int) < r.left then (n : Int) else r.left) = left at hmin
    split
    · refine ⟨hr.size, hr.int, ⟨hmin.1, hmin.2.trans hleft.2⟩, ?_, ?_⟩
      · intro _ _
        simp only
        omega
      · exact ⟨hcalm.alive, hcalm.inRange, hcalm.placed, hcalm.rollback, hcalm.data⟩
    · refine ⟨hr.size, hr.int, ⟨hmin.1, hmin.2.trans hleft.2⟩, ?_, hcalm⟩
      intro hnone
      cases hnone

theorem bounded_enterLines (hr : Bounded r) : Bounded (BufferedSocket.enterLines r) := by
  refine ⟨hr.size, hr.int, hr.left, ?_, ?_⟩
  · intro hnone
    cases hnone
  · exact ⟨hr.calm.alive, hr.calm.inRange, hr.calm.placed, hr.calm.rollback, hr.calm.data⟩

/-- Handing over `n` of the bytes that are left. -/
theorem Bounded.fire_data (env : HttpEnv) {n : Int} (hr : Bounded r) (hl : r.l = none)
    (hleft : 0 < r.left)
    (h0 : 0 ≤ n) (hn : n ≤ r.left) :
    Calm (BufferedSocket.fire (listen env) r.toConnection
      (.data r.inbuf r.bufpos (BufferedSocket.toSizeT n))) := by
  have hbuf := hr.bufpos hl hleft
  have hsize := hr.size
  have hint := hr.int
  have hrange : InRange (.data r.inbuf r.bufpos (BufferedSocket.toSizeT n)) := by
    rw [BufferedSocket.toSizeT, Int.emod_eq_of_lt h0 (by omega)]
    refine ⟨hbuf.1, ?_⟩
    omega
  exact hr.calm.fire hrange hrange

theorem bounded_dataRound (hr : Bounded r) (hl : r.l = none) (hleft : 0 < r.left)
    (hmode : r.socket.mode = .data) : Bounded (BufferedSocket.dataRound (listen env) r) := by
  have hbuf := hr.bufpos hl hleft
  have hint := hr.int
  have hsize := hr.size
  have hle := hr.left
  rw [BufferedSocket.dataRound]
  split
  · have hcalm := hr.fire_data env hl hleft hle.1 (Int.le_refl _)
    generalize BufferedSocket.fire (listen env) r.toConnection
      (.data r.inbuf r.bufpos (BufferedSocket.toSizeT r.left)) = c at hcalm
    simp only [hcalm.rollback]
    refine ⟨hr.size, hr.int, ⟨Int.le_refl _, hle.1.trans hle.2⟩, ?_, ?_⟩
    · intro _ hpos
      exact absurd hpos (Int.lt_irrefl _)
    · exact ⟨hcalm.alive, hcalm.inRange, hcalm.placed, rfl, hcalm.data⟩
  · rename_i hbytes
    have hbytes := (hr.calm.data hmode).resolve_left hbytes
    have hhigh : BufferedSocket.toInt32 (min r.socket.dataBytes r.left) =
        min r.socket.dataBytes r.left := by
      rw [BufferedSocket.toInt32, Int.bmod_eq_of_le] <;> omega
    rw [hhigh]
    obtain ⟨n, hn⟩ : ∃ n, min r.socket.dataBytes r.left = n := ⟨_, rfl⟩
    rw [hn]
    have hcalm := hr.fire_data env hl hleft (n := n) (by omega) (by omega)
    have hsocket := socket_fire env r.toConnection
      (e := .data r.inbuf r.bufpos (BufferedSocket.toSizeT n)) (by simp)
    simp only
    generalize BufferedSocket.fire (listen env) r.toConnection
      (.data r.inbuf r.bufpos (BufferedSocket.toSizeT n)) = c at hcalm hsocket
    refine ⟨hr.size, hr.int, ⟨by simp only; omega, by simp only; omega⟩, ?_, ?_⟩
    · intro _ _
      simp only
      omega
    · simp only [hsocket]
      split
      · have hline : Calm
            { c with
              socket := { r.socket with mode := .line, dataBytes := r.socket.dataBytes - n } } := by
          refine ⟨hcalm.alive, hcalm.inRange, hcalm.placed, hr.calm.rollback, ?_⟩
          intro hm
          cases hm
        exact hline.fire (e := .modeChange) trivial trivial
      · exact ⟨hcalm.alive, hcalm.inRange, hcalm.placed, hr.calm.rollback,
          fun _ => Or.inr (by simp only; omega)⟩

/-- **A round keeps `threadRead` inside its buffer.** -/
theorem round_bounded (hr : Bounded r) (hok : RoundOk env r) :
    BufferedSocket.round (listen env) r = some (.inl r.toConnection) ∨
      ∃ r', BufferedSocket.round (listen env) r = some (.inr r') ∧ Bounded r' := by
  rw [BufferedSocket.round]
  cases hl : r.l with
  | some l => exact Or.inr ⟨_, rfl, bounded_lineRound hr hl hok⟩
  | none =>
    simp only
    split
    · rename_i hleft
      cases hmode : r.socket.mode with
      | line => exact Or.inr ⟨_, rfl, bounded_enterLines hr⟩
      | data => exact Or.inr ⟨_, rfl, bounded_dataRound hr hl hleft hmode⟩
    · exact Or.inl rfl

/-! ## Runs -/

/-- No exception has left a handler, and the bytes of every `Data` event were there. -/
def Safe (c : Client) : Prop :=
  c.watch.terminated = false ∧ ∀ e ∈ c.watch.events, InRange e

/-- The server sends only lines that the client survives. -/
def Survivable (env : HttpEnv) (c : Client) : ClientOp → Prop
  | .round => ∀ r ∈ c.reading, RoundOk env r
  | _ => True

/-- Between operations. -/
structure Sound (c : Client) : Prop where
  calm : c.reading = none → Calm c.conn
  bounded : ∀ r, c.reading = some r → Bounded r

theorem Sound.safe {c : Client} (hc : Sound c) : Safe c := by
  rw [Safe, Client.watch]
  cases hr : c.reading with
  | none => exact ⟨(hc.calm hr).alive, (hc.calm hr).inRange⟩
  | some r => exact ⟨(hc.bounded r hr).calm.alive, (hc.bounded r hr).calm.inRange⟩

theorem sound_idle {conn : Connection Watch} (hc : Calm conn) :
    Sound { conn := conn, reading := none } :=
  ⟨fun _ => hc, fun r hr => by cases hr⟩

theorem sound_fail {conn : Connection Watch} (hc : Calm conn) (e : Str) :
    Sound (Client.fail conn e) := by
  refine sound_idle ?_
  simp only
  split
  · exact ⟨hc.alive, hc.inRange, hc.placed.congr currentUrl_onFailed, hc.rollback, hc.data⟩
  · exact hc

theorem sound_next {c : Client} {o : ClientOp} (hc : Sound c) (ho : (client env).allowed c o)
    (hok : Survivable env c o) : Sound ((client env).next c o) := by
  cases o with
  | connected =>
    have hcalm := hc.calm ho.1
    refine sound_idle ⟨hcalm.alive, hcalm.inRange, hcalm.placed.congr rfl, rfl, ?_⟩
    intro hmode
    cases hmode
  | received read =>
    have hcalm := hc.calm ho.1
    simp only [client, Client.next]
    split
    · exact hc
    · split
      · exact sound_fail hcalm _
      · have hge := read.ge
        refine ⟨?_, ?_⟩
        · intro hnone
          cases hnone
        · intro r hr
          cases hr
          refine ⟨read.le, read.size, ⟨?_, Int.le_refl _⟩, ?_, hcalm⟩
          · simp only [BufferedSocket.startReading]
            omega
          · intro _ _
            exact ⟨Int.le_refl _, Int.zero_add _⟩
  | round =>
    obtain ⟨r, hr⟩ := Option.isSome_iff_exists.mp ho.1
    have hbounded := hc.bounded r hr
    simp only [client, Client.next, hr]
    rcases round_bounded hbounded (hok r hr) with hround | ⟨r', hround, hr'⟩
    · simp only [hround]
      by_cases hlong : r.socket.mode = .line ∧ env.maxCommandLength < r.socket.line.length
      · rw [BufferedSocket.checkLength, if_pos hlong]
        exact sound_fail hbounded.calm _
      · rw [BufferedSocket.checkLength, if_neg hlong]
        exact sound_idle hbounded.calm
    · simp only [hround]
      refine ⟨?_, ?_⟩
      · intro hnone
        cases hnone
      · intro r₁ hr₁
        cases hr₁
        exact hr'

/-- A request that was made is one for a URL with a scheme. -/
theorem sound_requested {c : Client} (hc : Requested env c) : Sound c := by
  obtain ⟨aUrl, isUnique, http, hscheme, hsome, rfl⟩ := hc
  have hlong : 4 ≤ (LinkUtil.sanitizeUrl aUrl).length := by
    by_contra hshort
    rw [downloadFile, prepareRequest_of_lt .get (Nat.lt_of_not_le hshort)] at hsome
    cases hsome
  obtain ⟨http', hsome', hurl⟩ := prepareRequest_of_le env .get
    (h := { isUnique := isUnique, currentUrl := aUrl }) hlong
  have heq : http' = http := Option.some.inj (hsome'.symm.trans hsome)
  refine sound_idle ⟨rfl, ?_, heq ▸ placed_sanitizeUrl hscheme hurl hlong, rfl, ?_⟩
  · intro e he
    cases he
  · intro hdata
    cases hdata

/-- **Responses whose lines are survivable do no harm.** In every state that such a response can
    bring about, over any number of redirections, no exception has left a handler and every `Data`
    event has covered bytes that were read. -/
theorem responses_safe {c : Client}
    (hc : Lib.Reaches ((client env).restrict (Survivable env)) (Requested env) c) : Safe c := by
  refine (Lib.Reaches.invariant (I := Sound) (fun _ h => sound_requested h) ?_ hc).safe
  intro c o hs ho
  exact sound_next hs ho.1 ho.2

/-- The C locale, no proxy. -/
def plainEnv : HttpEnv where
  locale := { towlower := id, convert := fun s _ => s }
  httpProxy := []
  connectError _ _ := none
  maxCommandLength := 1024

/-- A request for `http://a/`. -/
def requestA : Client where
  conn :=
    { socket := { separator := 0x0a }
      listener :=
        { http := (downloadFile plainEnv { isUnique := true } (str "http://a/")).getD
            { isUnique := true } } }

theorem requested_requestA : Requested plainEnv requestA := by
  refine ⟨str "http://a/", true, _, ⟨str "http", str "a/", by decide⟩, ?_, rfl⟩
  cases hsome : downloadFile plainEnv { isUnique := true } (str "http://a/") with
  | none => exact absurd hsome (by decide +kernel)
  | some http => rfl

theorem length_le_self (answer : Str) : (answer.length : Int) ≤ answer.length :=
  Int.le_refl _

/-- What a server sends at once, and the rounds it takes. -/
def answerOps (answer : Str) (h : answer.length < 2 ^ 31) (rounds : Nat) : List ClientOp :=
  [.connected, .received ⟨answer, answer.length, Int.natCast_nonneg _, length_le_self answer, h⟩] ++
    List.replicate rounds .round

/-- An answer of five bytes, and what they are. -/
def shortAnswer : Str := str "HTTP/1.1 200\nContent-Length: 5\n\r\nhello"

instance : Decidable (LocationOk h aLine) := by
  unfold LocationOk
  infer_instance

instance : Decidable (LineOk env h aLine) := by
  unfold LineOk
  infer_instance

instance {r : Reading Watch} : Decidable (RoundOk env r) := by
  unfold RoundOk
  infer_instance

instance {c : Client} {o : ClientOp} :
    Decidable (((client env).restrict (Survivable env)).allowed c o) := by
  cases o <;> simp only [Lib.System.restrict, client, Client.allowed, Survivable] <;> infer_instance

theorem responses_safe_short :
    let c := (client plainEnv).run requestA (answerOps shortAnswer (by decide) 6)
    Safe c ∧ c.watch.events.length = 5 := by
  intro c
  refine ⟨@responses_safe plainEnv _ (Lib.Reaches.run (.start requested_requestA) ?_), ?_⟩
  · decide +kernel
  · decide +kernel

/-- A file of three gigabytes: as an `int` its length is negative. -/
def longAnswer : Str := str "HTTP/1.1 200\nContent-Length: 3000000000\n\r\nx"

instance {c : Client} {o : ClientOp} : Decidable ((client env).allowed c o) := by
  cases o <;> simp only [client, Client.allowed] <;> infer_instance

/-- Its first byte is handed over as `2 ^ 64 - 1294967296` bytes. -/
theorem not_safe_longAnswer :
    ¬ ∀ c, Lib.Reaches (client plainEnv) (Requested plainEnv) c → Safe c := by
  intro h
  have hsafe := h ((client plainEnv).run requestA (answerOps longAnswer (by decide) 7))
    (Lib.Reaches.run (.start requested_requestA) (by decide +kernel))
  have hdata : ∃ e ∈ ((client plainEnv).run requestA
      (answerOps longAnswer (by decide) 7)).watch.events, ¬ InRange e := by decide +kernel
  obtain ⟨e, he, hout⟩ := hdata
  exact hout (hsafe.2 e he)

end HttpConnection
end Airdcpp
