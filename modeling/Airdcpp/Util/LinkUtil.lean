import Airdcpp.Util.PathUtil
import Airdcpp.Util.Strings

/-!
# `Util/LinkUtil` — the parts of a URL

`decodeUrl` finds its positions from both ends of the URL without comparing all of them, so that
the length of a part may wrap around; `substr` then takes what there is. No position is behind the
end of the URL (`decodeUrl_isSome`).

`sanitizeUrl` takes white space, angle brackets and quotes off both ends. A part of a URL between
two other characters stays (`infix_sanitizeUrl`).
-/

namespace Airdcpp
namespace LinkUtil

open PathUtil

/-- `boost::is_space() || boost::is_any_of("<>\"")` -/
def isTrimmed (c : UInt8) : Bool := Util.isSpace c || (str "<>\"").contains c

def sanitizeUrl (url : Str) : Str := Util.trimIf isTrimmed url

/-- What `decodeUrl` returns in its arguments. -/
structure UrlParts where
  protocol : Str := []
  host : Str := []
  port : Str := []
  path : Str := []
  query : Str := []
  fragment : Str := []
deriving DecidableEq, Repr

/-- The port of a host without one. -/
def defaultPort (protocol port : Str) : Str :=
  if protocol = str "http" then str "80"
  else if protocol = str "https" then str "443"
  else if protocol = str "dchub" ∨ protocol = [] then str "411"
  else port

/-- Host and port. The inner `none` is the `return` from `decodeUrl`. -/
def decodeAuthority (url : Str) (p : UrlParts) (authorityStart authorityEnd : Nat) :
    Option (Option UrlParts) := do
  if authorityEnd ≤ authorityStart then return some p
  let first ← charAt url authorityStart
  if first = chr '[' then
    -- IPv6?
    match findFirstOf url [chr ']'] 0 with
    | none => return none
    | some hostEnd =>
      let host ← substr url (authorityStart + 1) (subSizeT hostEnd (authorityStart + 1))
      if hostEnd + 1 < url.length ∧ url.getD (hostEnd + 1) 0 = chr ':' then
        let port ← substr url (hostEnd + 2) (subSizeT authorityEnd (hostEnd + 2))
        return some { p with host := host, port := port }
      else return some { p with host := host, port := defaultPort p.protocol p.port }
  else
    match (findFirstOf url [chr ':'] authorityStart).filter (· ≤ authorityEnd) with
    | none =>
      let host ← substr url authorityStart (authorityEnd - authorityStart)
      return some { p with host := host, port := defaultPort p.protocol p.port }
    | some hostEnd =>
      let host ← substr url authorityStart (hostEnd - authorityStart)
      let port ← substr url (hostEnd + 1) (subSizeT authorityEnd (hostEnd + 1))
      return some { p with host := host, port := port }

def decodeUrl (url : Str) (p : UrlParts) : Option UrlParts := do
  let fragmentEnd := url.length
  let queryEnd := (rfind (chr '#') url).getD fragmentEnd
  let fragmentStart := (rfind (chr '#') url).elim fragmentEnd (· + 1)
  let question := rfind (chr '?') (url.take (queryEnd + 1))
  let fileEnd := question.getD queryEnd
  let queryStart := question.elim queryEnd (· + 1)
  let protoEnd := find url (str "://") 0
  let authorityStart := protoEnd.elim 0 (· + 3)
  -- the file starts where the host ends, unless there is neither file nor query nor fragment
  let authorityEnd := (findFirstOf url (str "/#?") authorityStart).getD fileEnd
  let fileStart := authorityEnd
  let protocol ← protoEnd.elim (some []) fun protoEnd => substr url 0 protoEnd
  match ← decodeAuthority url { p with protocol := protocol } authorityStart authorityEnd with
  | none => return { p with protocol := protocol }
  | some p =>
    let path ← substr url fileStart (subSizeT fileEnd fileStart)
    let query ← substr url queryStart (subSizeT queryEnd queryStart)
    let fragment ← substr url fragmentStart (subSizeT fragmentEnd fragmentStart)
    return { p with path := path, query := query, fragment := fragment }

/-! ## Positions -/

theorem decodeAuthority_isSome {url : Str} (p : UrlParts) (authorityStart : Nat)
    {authorityEnd : Nat}
    (h : authorityEnd ≤ url.length) :
    ∃ q, decodeAuthority url p authorityStart authorityEnd = some q := by
  rw [decodeAuthority]
  by_cases hempty : authorityEnd ≤ authorityStart
  · rw [if_pos hempty]
    exact ⟨_, rfl⟩
  · rw [if_neg hempty, charAt_of_le (by omega)]
    simp only [Option.bind_eq_bind, Option.bind_some]
    split
    · cases hend : findFirstOf url [chr ']'] 0 with
      | none => exact ⟨_, rfl⟩
      | some hostEnd =>
        have hlt := (findFirstOf_eq_some hend).2
        simp only
        rw [substr_of_le (by omega)]
        simp only [Option.bind_some]
        split
        · rw [substr_of_le (by omega)]
          exact ⟨_, rfl⟩
        · exact ⟨_, rfl⟩
    · cases hend : (findFirstOf url [chr ':'] authorityStart).filter (· ≤ authorityEnd) with
      | none =>
        simp only
        rw [substr_of_le (by omega)]
        exact ⟨_, rfl⟩
      | some hostEnd =>
        have hlt := (findFirstOf_eq_some (Option.filter_eq_some_iff.mp hend).1).2
        simp only
        rw [substr_of_le (by omega), Option.bind_some, substr_of_le (by omega)]
        exact ⟨_, rfl⟩

theorem elim_succ_le {o : Option Nat} {n : Nat} (h : ∀ i, o = some i → i < n) (m : Nat)
    (hm : m ≤ n) : o.elim m (· + 1) ≤ n ∧ o.getD m ≤ n := by
  cases o with
  | none => exact ⟨hm, hm⟩
  | some i => exact ⟨h i rfl, (h i rfl).le⟩

/-- **No position in a URL is out of range.** -/
theorem decodeUrl_isSome (url : Str) (p : UrlParts) : ∃ q, decodeUrl url p = some q := by
  rw [decodeUrl]
  obtain ⟨hfragment, hquery⟩ :=
    elim_succ_le (fun i (h : rfind (chr '#') url = some i) => rfind_lt h)
    url.length (Nat.le_refl _)
  generalize (rfind (chr '#') url).elim url.length (· + 1) = fragmentStart at hfragment
  generalize (rfind (chr '#') url).getD url.length = queryEnd at hquery
  obtain ⟨hqueryStart, hfile⟩ := elim_succ_le
    (fun i (h : rfind (chr '?') (url.take (queryEnd + 1)) = some i) =>
      Nat.lt_of_lt_of_le (rfind_lt h) (List.length_take_le' _ _)) queryEnd hquery
  generalize (rfind (chr '?') (url.take (queryEnd + 1))).elim queryEnd (· + 1) = queryStart
    at hqueryStart
  generalize (rfind (chr '?') (url.take (queryEnd + 1))).getD queryEnd = fileEnd at hfile
  have hauthority : ∀ n, (findFirstOf url (str "/#?") n).getD fileEnd ≤ url.length := fun n =>
    (elim_succ_le (fun i h => (findFirstOf_eq_some h).2) fileEnd hfile).2
  have hprotocol : ∃ s, (find url (str "://") 0).elim (some []) (fun e => substr url 0 e) =
      some s := by
    cases find url (str "://") 0 with
    | none => exact ⟨_, rfl⟩
    | some e => exact ⟨_, substr_of_le (Nat.zero_le _) e⟩
  obtain ⟨protocol, hprotocol⟩ := hprotocol
  simp only [hprotocol, Option.bind_eq_bind, Option.bind_some]
  obtain ⟨q, hq⟩ := decodeAuthority_isSome { p with protocol := protocol }
    ((find url (str "://") 0).elim 0 (· + 3))
    (hauthority ((find url (str "://") 0).elim 0 (· + 3)))
  rw [hq]
  simp only [Option.bind_some]
  cases q with
  | none => exact ⟨_, rfl⟩
  | some q =>
    simp only
    rw [substr_of_le (hauthority _), Option.bind_some, substr_of_le hqueryStart, Option.bind_some,
      substr_of_le hfragment]
    exact ⟨_, rfl⟩

/-! ## What is trimmed -/

theorem dropWhile_append_of_not {q : UInt8 → Bool} {c : UInt8} (hc : q c = false) (a b : Str) :
    (a ++ c :: b).dropWhile q = a.dropWhile q ++ c :: b := by
  induction a with
  | nil => rw [List.nil_append, List.dropWhile_cons_of_neg (by simp [hc]), List.dropWhile_nil]; rfl
  | cons x a ih =>
    cases hx : q x with
    | true =>
      rw [List.cons_append, List.dropWhile_cons_of_pos hx, List.dropWhile_cons_of_pos hx, ih]
    | false =>
      rw [List.cons_append, List.dropWhile_cons_of_neg (by simp [hx]),
        List.dropWhile_cons_of_neg (by simp [hx])]
      rfl

theorem rdropWhile_append_of_not {q : UInt8 → Bool} {c : UInt8} (hc : q c = false) (a b : Str) :
    (a ++ c :: b).rdropWhile q = a ++ c :: b.rdropWhile q := by
  rw [List.rdropWhile, List.reverse_append, List.reverse_cons, List.append_assoc,
    List.singleton_append, dropWhile_append_of_not hc, List.reverse_append, List.reverse_cons,
    List.reverse_reverse, List.append_assoc, List.singleton_append]
  rfl

/-- What stands from one character that stays to another stays. -/
theorem sanitizeUrl_append {x y : UInt8} (hx : isTrimmed x = false) (hy : isTrimmed y = false)
    (a m b : Str) :
    sanitizeUrl (a ++ x :: (m ++ y :: b)) =
      a.dropWhile isTrimmed ++ x :: (m ++ y :: b.rdropWhile isTrimmed) := by
  rw [sanitizeUrl, Util.trimIf, dropWhile_append_of_not hx]
  have := rdropWhile_append_of_not hy (a.dropWhile isTrimmed ++ x :: m) b
  rw [List.append_assoc, List.cons_append] at this
  rw [this, List.append_assoc, List.cons_append]

/-- Nothing of `s` can be trimmed. -/
structure Clean (s : Str) : Prop where
  head : ∀ c rest, s = c :: rest → isTrimmed c = false
  last : ∀ a c, s = a ++ [c] → isTrimmed c = false

theorem clean_sanitizeUrl (url : Str) : Clean (sanitizeUrl url) := by
  constructor
  · intro c rest h
    have hpre := List.rdropWhile_prefix isTrimmed (l := url.dropWhile isTrimmed)
    obtain ⟨tail, htail⟩ := hpre
    rw [show (url.dropWhile isTrimmed).rdropWhile isTrimmed = c :: rest from h,
      List.cons_append] at htail
    have hne : url.dropWhile isTrimmed ≠ [] := by
      rw [← htail]
      exact List.cons_ne_nil _ _
    have hhead := List.head_dropWhile_not isTrimmed hne
    simpa [← htail] using hhead
  · intro a c h
    have hne : (url.dropWhile isTrimmed).rdropWhile isTrimmed ≠ [] := by
      rw [show (url.dropWhile isTrimmed).rdropWhile isTrimmed = a ++ [c] from h]
      exact List.append_ne_nil_of_right_ne_nil _ (List.cons_ne_nil _ _)
    have hlast := List.rdropWhile_last_not isTrimmed _ hne
    have hc : ((url.dropWhile isTrimmed).rdropWhile isTrimmed).getLast hne = c := by
      simp only [show (url.dropWhile isTrimmed).rdropWhile isTrimmed = a ++ [c] from h,
        List.getLast_append_singleton]
    rw [hc] at hlast
    exact Bool.eq_false_of_not_eq_true hlast

theorem Clean.sanitizeUrl {s : Str} (h : Clean s) : sanitizeUrl s = s := by
  rw [LinkUtil.sanitizeUrl, Util.trimIf]
  have hfront : s.dropWhile isTrimmed = s := by
    cases s with
    | nil => rfl
    | cons c rest => exact List.dropWhile_cons_of_neg (by simp [h.head c rest rfl])
  rw [hfront]
  rcases List.eq_nil_or_concat s with hs | ⟨a, c, hs⟩
  · rw [hs, List.rdropWhile_nil]
  · rw [List.concat_eq_append] at hs
    rw [hs]
    exact List.rdropWhile_concat_neg isTrimmed a c (by simp [h.last a c hs])

def SCHEME_END : Str := str "://"

/-- A URL keeps its scheme. -/
theorem scheme_sanitizeUrl {url : Str} (h : SCHEME_END <:+: url) :
    SCHEME_END <:+: sanitizeUrl url := by
  obtain ⟨a, b, rfl⟩ := h
  have hkeep := sanitizeUrl_append (x := chr ':') (y := chr '/') rfl rfl a [chr '/'] b
  refine ⟨a.dropWhile isTrimmed, b.rdropWhile isTrimmed, ?_⟩
  rw [show a ++ SCHEME_END ++ b = a ++ chr ':' ::
    ([chr '/'] ++ chr '/' :: b) by simp [SCHEME_END]; rfl,
    hkeep]
  simp [SCHEME_END]
  rfl

/-- Behind the scheme something stays. -/
theorem length_sanitizeUrl_lt {s : Str} {y : UInt8} (h : SCHEME_END <:+: s)
    (hy : isTrimmed y = false) (rest : Str) : 4 ≤ (sanitizeUrl (s ++ y :: rest)).length := by
  obtain ⟨a, b, rfl⟩ := h
  have hkeep := sanitizeUrl_append (x := chr ':') rfl hy a (chr '/' :: chr '/' :: b) rest
  rw [show a ++ SCHEME_END ++ b ++ y :: rest =
    a ++ chr ':' :: (chr '/' :: chr '/' :: b ++ y :: rest) by simp [SCHEME_END]; rfl, hkeep]
  simp only [List.length_append, List.length_cons]
  omega

end LinkUtil
end Airdcpp
