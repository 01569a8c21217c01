import Airdcpp.Util.LinkUtil
import Airdcpp.Util.Splitting

/-!
# `Util/UrlParts` — what `decodeUrl` makes of a composed URL

A URL is put together of its components (`Url.text`), and `decodeUrl` takes it apart again. The
scheme, the host and the port are found from the front, by the first delimiter that cannot be part
of them. The query and the fragment are found from the back, by the last question mark and the last
number sign: `decodeUrl_text` says what is returned in terms of these two cuts, and
`decodeUrl_components` compares it with the components.
-/

namespace Airdcpp
namespace LinkUtil

open PathUtil

/-! ## Cuts at the last character -/

/-- What stands before the last `c`, or everything. -/
def beforeLast (c : UInt8) (s : Str) : Str := s.take ((rfind c s).getD s.length)

/-- What stands behind the last `c`, or nothing. -/
def afterLast (c : UInt8) (s : Str) : Str := s.drop ((rfind c s).elim s.length (· + 1))

variable {c d : UInt8} {s a b : Str}

@[simp] theorem beforeLast_of_notMem (h : c ∉ s) : beforeLast c s = s := by
  simp [beforeLast, rfind_eq_none h]

@[simp] theorem afterLast_of_notMem (h : c ∉ s) : afterLast c s = [] := by
  simp [afterLast, rfind_eq_none h]

theorem beforeLast_append (a : Str) (h : c ∉ b) : beforeLast c (a ++ c :: b) = a := by
  rw [beforeLast, rfind_append_cons a h, Option.getD_some, List.take_left]

theorem afterLast_append (a : Str) (h : c ∉ b) : afterLast c (a ++ c :: b) = b := by
  rw [afterLast, rfind_append_cons a h, Option.elim_some, ← List.drop_drop, List.drop_left]
  rfl

/-- **A cut at the last occurrence finds a part** exactly when the part does not contain the
    character. -/
theorem afterLast_eq_iff (a b : Str) : afterLast c (a ++ c :: b) = b ↔ c ∉ b := by
  refine ⟨fun h hmem => ?_, afterLast_append a⟩
  obtain ⟨b₁, b₂, rfl, hb⟩ := exists_last hmem
  have hsplit : a ++ c :: (b₁ ++ c :: b₂) = (a ++ c :: b₁) ++ c :: b₂ := by simp
  rw [hsplit, afterLast_append _ hb] at h
  have hlength := congrArg List.length h
  simp only [List.length_append, List.length_cons] at hlength
  omega

theorem length_beforeLast (c : UInt8) (s : Str) :
    (beforeLast c s).length = (rfind c s).getD s.length := by
  rw [beforeLast, List.length_take]
  cases h : rfind c s with
  | none => simp
  | some i => simp [(rfind_lt h).le]

theorem beforeLast_prefix (c : UInt8) (s : Str) : beforeLast c s <+: s := List.take_prefix _ _

theorem rfind_concat_of_ne (h : d ≠ c) (s : Str) : rfind c (s ++ [d]) = rfind c s := by
  by_cases hmem : c ∈ s
  · obtain ⟨a, b, rfl, hb⟩ := exists_last hmem
    rw [List.append_assoc, List.cons_append, rfind_append_cons a hb, rfind_append_cons a]
    simp [hb, Ne.symm h]
  · rw [rfind_eq_none hmem, rfind_eq_none]
    simp [hmem, Ne.symm h]

/-- A search that ends at the last `d` does not see more than what stands before it. -/
theorem rfind_take_succ (h : d ≠ c) (s : Str) :
    rfind c (s.take ((rfind d s).getD s.length + 1)) = rfind c (beforeLast d s) := by
  by_cases hmem : d ∈ s
  · obtain ⟨a, b, rfl, hb⟩ := exists_last hmem
    have htake : (a ++ d :: b).take (a.length + 1) = a ++ [d] := by
      simp [List.take_append]
    rw [rfind_append_cons a hb, Option.getD_some, htake, beforeLast_append a hb,
      rfind_concat_of_ne h]
  · rw [rfind_eq_none hmem, Option.getD_none, beforeLast_of_notMem hmem,
      List.take_of_length_le (by omega)]

/-! ## Searches from the front -/

theorem findFirstOf_of_split {chars : Str} {pos : Nat} (ha : ∀ x ∈ a, x ∉ chars) (hc : c ∈ chars)
    (h : s.drop pos = a ++ c :: b) : findFirstOf s chars pos = some (pos + a.length) := by
  have hlength := congrArg List.length h
  rw [List.length_drop, List.length_append, List.length_cons] at hlength
  have hget (j : Nat) : s.getD (pos + j) 0 = (a ++ c :: b).getD j 0 := by
    rw [← h, List.getD_eq_getElem?_getD, List.getD_eq_getElem?_getD, List.getElem?_drop]
  refine List.find?_range'_eq_some.mpr ⟨?_, List.mem_range'_1.mpr ⟨by omega, by omega⟩, ?_⟩
  · rw [hget]
    simpa using hc
  · intro j hpos hj
    obtain ⟨k, rfl⟩ := Nat.exists_eq_add_of_le hpos
    have hk : k < a.length := by omega
    rw [hget, List.getD_append _ _ _ _ hk, List.getD_eq_getElem _ _ hk]
    simpa using ha _ (List.getElem_mem hk)

theorem findFirstOf_none {chars : Str} {pos : Nat} (h : ∀ x ∈ s.drop pos, x ∉ chars) :
    findFirstOf s chars pos = none := by
  refine List.find?_eq_none.mpr fun i hi => ?_
  rw [List.mem_range'_1] at hi
  obtain ⟨k, rfl⟩ := Nat.exists_eq_add_of_le hi.1
  have hk : pos + k < s.length := by omega
  rw [List.getD_eq_getElem _ _ hk]
  have hmem : s[pos + k] ∈ s.drop pos := by
    rw [List.mem_iff_getElem?]
    exact ⟨k, by rw [List.getElem?_drop, List.getElem?_eq_getElem hk]⟩
  simpa using h _ hmem

/-- A text is found behind a part that does not contain its first character. -/
theorem find_of_notMem_head (needle : Str) (h : c ∉ a) :
    find (a ++ (c :: needle ++ b)) (c :: needle) 0 = some a.length := by
  refine List.find?_range'_eq_some.mpr ⟨?_, List.mem_range'_1.mpr ⟨Nat.zero_le _, by simp⟩, ?_⟩
  · rw [List.isPrefixOf_iff_prefix, List.drop_left]
    exact List.prefix_append _ _
  · intro j _ hj
    rw [Bool.not_eq_true', Bool.eq_false_iff, ne_eq, List.isPrefixOf_iff_prefix]
    rintro ⟨rest, hrest⟩
    rw [List.drop_append_of_le_length hj.le, List.drop_eq_getElem_cons hj, List.cons_append,
      List.cons_append, List.cons.injEq] at hrest
    exact h (hrest.1 ▸ List.getElem_mem hj)

/-- A part of a string by its two ends. -/
theorem substr_between {start end_ : Nat} (h : start ≤ end_) (hend : end_ ≤ s.length) :
    substr s start (subSizeT end_ start) = some ((s.take end_).drop start) := by
  rw [substr_of_le (h.trans hend), subSizeT, if_pos h, List.drop_take]

/-! ## URLs -/

/-- None of the delimiters of a URL is in a string. -/
def Undelimited (s : Str) : Prop := ∀ c ∈ s, c ∉ str ":/?#[]"

instance (s : Str) : Decidable (Undelimited s) := inferInstanceAs (Decidable (∀ _ ∈ _, _))

inductive Host where
  /-- A name or an IPv4 address -/
  | name (s : Str) (ne_nil : s ≠ []) (undelimited : Undelimited s)
  /-- An IPv6 address, which stands in brackets. -/
  | ip6 (s : Str) (undelimited : ∀ c ∈ s, c ∉ str "/?#[]")

namespace Host

def address : Host → Str
  | name s _ _ => s
  | ip6 s _ => s

def text : Host → Str
  | name s _ _ => s
  | ip6 s _ => chr '[' :: (s ++ [chr ']'])

end Host

/-- The components of a URL. -/
structure Url where
  scheme : Str
  host : Host
  port : Option Str
  path : Str
  query : Option Str
  fragment : Option Str
  scheme_ne_nil : scheme ≠ []
  scheme_undelimited : Undelimited scheme
  port_undelimited : ∀ t, port = some t → Undelimited t
  path_slash : path = [] ∨ ∃ rest, path = chr '/' :: rest
  path_undelimited : chr '?' ∉ path ∧ chr '#' ∉ path
  query_undelimited : ∀ q, query = some q → chr '#' ∉ q

namespace Url

variable {u : Url}

/-- A component with its delimiter in front of it. -/
def delimited (c : UInt8) (component : Option Str) : Str := component.elim [] (c :: ·)

def authority (u : Url) : Str := u.host.text ++ delimited (chr ':') u.port

/-- What stands in front of the path. -/
def origin (u : Url) : Str := u.scheme ++ (str "://" ++ u.authority)

/-- The path and the query. -/
def file (u : Url) : Str := u.path ++ delimited (chr '?') u.query

def text (u : Url) : Str := u.origin ++ (u.file ++ delimited (chr '#') u.fragment)

def schemePort (scheme : Str) : Str :=
  if scheme = str "http" then str "80"
  else if scheme = str "https" then str "443"
  else if scheme = str "dchub" then str "411"
  else []

/-- The components, as they are returned. -/
def parts (u : Url) : UrlParts where
  protocol := u.scheme
  host := u.host.address
  port := u.port.getD (schemePort u.scheme)
  path := u.path
  query := u.query.getD []
  fragment := u.fragment.getD []

theorem undelimited_authority : ∀ c ∈ u.authority, c ∉ str "/?#" := by
  have hsub : ∀ c ∈ str "/?#", c ∈ str ":/?#[]" ∧ c ∈ str "/?#[]" ∧ c ≠ chr ':' ∧
      c ≠ chr '[' ∧ c ≠ chr ']' := by
    decide +kernel
  intro c hc hmem
  obtain ⟨hall, hbrackets, hcolon, hopen, hclose⟩ := hsub c hmem
  rcases List.mem_append.mp hc with hc | hc
  · cases hhost : u.host with
    | name s hne hs =>
      rw [hhost] at hc
      exact hs c hc hall
    | ip6 s hs =>
      rw [hhost] at hc
      simp only [Host.text, List.mem_cons, List.mem_append, List.not_mem_nil, or_false] at hc
      rcases hc with hc | hc | hc
      · exact hopen hc
      · exact hs c hc hbrackets
      · exact hclose hc
  · cases hport : u.port with
    | none =>
      rw [hport] at hc
      exact absurd hc List.not_mem_nil
    | some t =>
      rw [hport] at hc
      rcases List.mem_cons.mp hc with hc | hc
      · exact hcolon hc
      · exact u.port_undelimited t hport c hc hall

theorem undelimited_origin : chr '?' ∉ u.origin ∧ chr '#' ∉ u.origin := by
  have hscheme : ∀ c ∈ str "?#", c ∈ str ":/?#[]" ∧ c ∉ str "://" ∧ c ∈ str "/?#" := by
    decide +kernel
  have hnot : ∀ c ∈ str "?#", c ∉ u.origin := by
    intro c hc hmem
    obtain ⟨hall, hend, hauthority⟩ := hscheme c hc
    rcases List.mem_append.mp hmem with hmem | hmem
    · exact u.scheme_undelimited c hmem hall
    · rcases List.mem_append.mp hmem with hmem | hmem
      · exact hend hmem
      · exact undelimited_authority c hmem hauthority
  exact ⟨hnot _ (by decide), hnot _ (by decide)⟩

theorem undelimited_file : chr '#' ∉ u.file := by
  intro hmem
  rcases List.mem_append.mp hmem with hmem | hmem
  · exact u.path_undelimited.2 hmem
  · cases hquery : u.query with
    | none =>
      rw [hquery] at hmem
      exact absurd hmem List.not_mem_nil
    | some q =>
      rw [hquery] at hmem
      rcases List.mem_cons.mp hmem with hmem | hmem
      · exact absurd hmem (by decide)
      · exact u.query_undelimited q hquery hmem

/-- Behind the port stands a delimiter. -/
theorem rest_cases (u : Url) : u.file ++ delimited (chr '#') u.fragment = [] ∨
    ∃ c t, c ∈ str "/?#" ∧ u.file ++ delimited (chr '#') u.fragment = c :: t := by
  rcases u.path_slash with hpath | ⟨rest, hpath⟩
  · cases hquery : u.query with
    | none =>
      cases hfragment : u.fragment with
      | none => exact Or.inl (by simp [file, hpath, hquery, delimited])
      | some f => exact Or.inr ⟨chr '#', f, by decide, by simp [file, hpath, hquery, delimited]⟩
    | some q =>
      exact Or.inr ⟨chr '?', q ++ delimited (chr '#') u.fragment, by decide,
        by simp [file, hpath, hquery, delimited]⟩
  · exact Or.inr ⟨chr '/', rest ++ delimited (chr '?') u.query ++ delimited (chr '#') u.fragment,
      by decide,
      by simp [file, hpath]⟩

/-! ## Host and port -/

theorem text_eq (u : Url) :
    u.text = (u.scheme ++ str "://") ++ (u.authority ++
      (u.file ++ delimited (chr '#') u.fragment)) := by
  simp [text, origin]

theorem authorityStart_eq (u : Url) : (find u.text (str "://") 0).elim 0 (· + 3) =
    (u.scheme ++ str "://").length := by
  have hcolon : chr ':' ∉ u.scheme := fun h => u.scheme_undelimited _ h (by decide)
  have hfind : find u.text (str "://") 0 = some u.scheme.length := by
    rw [text_eq, List.append_assoc]
    exact find_of_notMem_head (str "//") hcolon
  rw [hfind, List.length_append]
  rfl

theorem length_scheme (u : Url) : (u.scheme ++ str "://").length + u.authority.length =
    u.origin.length := by
  simp [origin, Nat.add_assoc]

/-- The host ends where the path begins, or the query or the fragment, and else at the end. -/
theorem authorityEnd_eq (u : Url) :
    (findFirstOf u.text (str "/#?") (u.scheme ++ str "://").length).getD
      (beforeLast (chr '?') (beforeLast (chr '#') u.text)).length = u.origin.length := by
  have hset : ∀ c : UInt8, c ∈ str "/?#" ↔ c ∈ str "/#?" := by decide +kernel
  have hauthority : ∀ c ∈ u.authority, c ∉ str "/#?" := fun c hc h =>
    undelimited_authority c hc ((hset c).mpr h)
  have hdrop : u.text.drop (u.scheme ++ str "://").length =
      u.authority ++ (u.file ++ delimited (chr '#') u.fragment) := by
    rw [text_eq, List.drop_left]
  rcases u.rest_cases with hnil | ⟨c, t, hc, hrest⟩
  · have htext : u.text = u.origin := by rw [text, hnil, List.append_nil]
    rw [findFirstOf_none, Option.getD_none, htext, beforeLast_of_notMem undelimited_origin.2,
      beforeLast_of_notMem undelimited_origin.1]
    rw [hdrop, hnil, List.append_nil]
    exact hauthority
  · rw [hrest] at hdrop
    rw [findFirstOf_of_split hauthority ((hset c).mp hc) hdrop, Option.getD_some, length_scheme]

end Url

/-- A colon behind the host does not count. -/
theorem filter_findFirstOf_colon {start host rest : Str} (hs : s = start ++ (host ++ rest))
    (hhost : chr ':' ∉ host)
    (hrest : rest = [] ∨ ∃ c t, c ≠ chr ':' ∧ rest = c :: t) :
    (findFirstOf s [chr ':'] start.length).filter (· ≤ start.length + host.length) = none := by
  have hdrop : s.drop start.length = host ++ rest := by rw [hs, List.drop_left]
  have hnot : ∀ a : Str, chr ':' ∉ a → ∀ x ∈ a, x ∉ [chr ':'] := by
    intro a ha x hx h
    exact ha (List.mem_singleton.mp h ▸ hx)
  by_cases hmem : chr ':' ∈ rest
  · rcases hrest with rfl | ⟨c, t, hc, rfl⟩
    · exact absurd hmem List.not_mem_nil
    · obtain ⟨t₁, t₂, rfl, ht⟩ :=
        List.eq_append_cons_of_mem ((List.mem_cons.mp hmem).resolve_left (Ne.symm hc))
      have hsplit : s.drop start.length = (host ++ c :: t₁) ++ chr ':' :: t₂ := by rw [hdrop]; simp
      rw [findFirstOf_of_split (hnot _ (by simp [hhost, ht, Ne.symm hc]))
        (List.mem_singleton_self _) hsplit]
      simp
  · rw [findFirstOf_none, Option.filter_none]
    rw [hdrop]
    exact hnot _ (by simp [hhost, hmem])

open Url (delimited)

/-- A name up to its port. -/
theorem decodeAuthority_name {url start host rest : Str} (port : Option Str) (p : UrlParts)
    (hurl : url = start ++ (host ++ (delimited (chr ':') port ++ rest))) (hne : host ≠ [])
    (hhost : Undelimited host)
    (hrest : rest = [] ∨ ∃ c t, c ≠ chr ':' ∧ rest = c :: t) :
    decodeAuthority url p start.length (start.length + (host ++ delimited (chr ':') port).length) =
      some (some { p with host := host, port := port.getD (defaultPort p.protocol p.port) }) := by
  have hpos : 0 < host.length := List.length_pos_iff.mpr hne
  have hcolon : chr ':' ∉ host := fun h => hhost _ h (by decide)
  have hlength : start.length + host.length ≤ url.length := by
    rw [hurl, List.length_append, List.length_append]
    omega
  have hfirst : url.getD start.length 0 ≠ chr '[' := by
    cases host with
    | nil => exact absurd rfl hne
    | cons c host =>
      rw [hurl, List.getD_append_right _ _ _ _ (le_refl _), Nat.sub_self]
      intro heq
      exact hhost c List.mem_cons_self (by rw [show c = chr '[' from heq]; decide)
  have hhostText : ∀ n, n = host.length → (url.drop start.length).take n = host := by
    rintro n rfl
    rw [hurl, List.drop_left, List.take_left]
  rw [decodeAuthority, if_neg (by rw [List.length_append]; omega), charAt_of_le (by omega)]
  simp only [Option.bind_eq_bind, Option.bind_some]
  rw [if_neg hfirst]
  cases port with
  | none =>
    have hfilter := filter_findFirstOf_colon hurl hcolon hrest
    simp only [delimited, Option.elim_none, List.append_nil]
    rw [hfilter]
    simp only
    rw [substr_of_le (by omega), hhostText _ (by omega)]
    rfl
  | some t =>
    have hdrop : url.drop start.length = host ++ chr ':' :: (t ++ rest) := by
      rw [hurl, List.drop_left]
      rfl
    have hnot : ∀ x ∈ host, x ∉ [chr ':'] := fun x hx h => hcolon (List.mem_singleton.mp h ▸ hx)
    have hport : url.drop (start.length + host.length + 1) = t ++ rest := by
      rw [Nat.add_assoc, ← List.drop_drop, hdrop, ← List.drop_drop, List.drop_left]
      rfl
    have hfits := congrArg List.length hurl
    simp only [delimited, Option.elim_some, List.length_append, List.length_cons] at hfits ⊢
    rw [findFirstOf_of_split hnot (List.mem_singleton_self _) hdrop, Option.filter_some,
      if_pos (by simp)]
    simp only
    rw [substr_of_le (by omega), hhostText _ (by omega), Option.bind_some, substr_of_le (by omega),
      hport, subSizeT, if_pos (by omega)]
    have htake : (t ++ rest).take (start.length + (host.length + (t.length + 1)) -
        (start.length + host.length + 1)) = t :=
      List.take_left' (by omega)
    rw [htake]
    rfl

/-- An address in brackets up to its port. -/
theorem decodeAuthority_ip6 {url start host rest : Str} (port : Option Str) (p : UrlParts)
    (hurl : url = start ++ (chr '[' :: (host ++ [chr ']']) ++ (delimited (chr ':') port ++ rest)))
    (hstart : chr ']' ∉ start) (hhost : chr ']' ∉ host) (hrest : rest = [] ∨ ∃ c t, c ≠ chr ':' ∧
    rest = c :: t) :
    decodeAuthority url p start.length
        (start.length + (chr '[' :: (host ++ [chr ']']) ++ delimited (chr ':') port).length) =
      some (some { p with host := host, port := port.getD (defaultPort p.protocol p.port) }) := by
  have hsplit : url.drop 0 = (start ++ chr '[' :: host) ++ chr ']' ::
      (delimited (chr ':') port ++ rest) := by
    rw [hurl]
    simp
  have hnot : ∀ x ∈ start ++ chr '[' :: host, x ∉ [chr ']'] := by
    have hmem : chr ']' ∉ start ++ chr '[' :: host := by
      rw [List.mem_append, List.mem_cons, not_or, not_or]
      exact ⟨hstart, by decide, hhost⟩
    exact fun x hx h => hmem (List.mem_singleton.mp h ▸ hx)
  have hlength := congrArg List.length hurl
  simp only [List.length_append, List.length_cons, List.length_nil] at hlength
  have hfirst : url.getD start.length 0 = chr '[' := by
    rw [hurl, List.getD_append_right _ _ _ _ (le_refl _), Nat.sub_self]
    rfl
  have hhostText : (url.drop (start.length + 1)).take host.length = host := by
    rw [hurl, ← List.drop_drop, List.drop_left]
    simp
  have hbehind : url.drop (start.length + 1 + host.length + 1) =
      delimited (chr ':') port ++ rest := by
    have hcut : url = (start ++ chr '[' :: (host ++ [chr ']'])) ++
        (delimited (chr ':') port ++ rest) := by
      rw [hurl]
      simp
    rw [hcut]
    exact List.drop_left' (by simp; omega)
  have hend : findFirstOf url [chr ']'] 0 = some (start.length + 1 + host.length) := by
    rw [findFirstOf_of_split hnot (List.mem_singleton_self _) hsplit]
    simp
    omega
  have hnext : url.getD (start.length + 1 + host.length + 1) 0 =
      (delimited (chr ':') port ++ rest).getD 0 0 := by
    rw [← hbehind, List.getD_eq_getElem?_getD, List.getD_eq_getElem?_getD, List.getElem?_drop,
      Nat.add_zero]
  rw [decodeAuthority, if_neg (by simp), charAt_of_le (by omega)]
  simp only [Option.bind_eq_bind, Option.bind_some]
  rw [if_pos hfirst, hend]
  simp only
  rw [substr_of_le (by omega), subSizeT, if_pos (by omega), Nat.add_sub_cancel_left, hhostText,
    Option.bind_some, hnext]
  cases port with
  | none =>
    rw [if_neg]
    · rfl
    · rintro ⟨-, hcolon⟩
      rcases hrest with rfl | ⟨c, t, hc, rfl⟩
      · exact absurd hcolon (by decide)
      · exact hc hcolon
  | some t =>
    simp only [delimited, Option.elim_some, List.length_cons] at hlength
    have hport : url.drop (start.length + 1 + host.length + 2) = t ++ rest := by
      rw [← Nat.add_assoc _ 1 1, ← List.drop_drop, hbehind]
      rfl
    have hlong : start.length + 1 + host.length + 2 ≤
        start.length + (chr '[' :: (host ++ [chr ']']) ++ delimited (chr ':') (some t)).length := by
      simp [delimited]
      omega
    rw [if_pos ⟨by omega, rfl⟩, substr_of_le (by omega), hport, subSizeT, if_pos hlong,
      List.take_left' (by simp [delimited]; omega)]
    rfl

namespace Url

variable {u : Url}

/-- **Host and port are found**, whatever stands in the path, the query and the fragment. -/
theorem decodeAuthority_text (u : Url) (p : UrlParts) :
    decodeAuthority u.text p (u.scheme ++ str "://").length u.origin.length =
      some (some
        { p with host := u.host.address, port := u.port.getD (defaultPort p.protocol p.port) }) := by
  have hrest : u.file ++ delimited (chr '#') u.fragment = [] ∨
      ∃ c t, c ≠ chr ':' ∧ u.file ++ delimited (chr '#') u.fragment = c :: t :=
    u.rest_cases.imp_right fun ⟨c, t, hc, h⟩ => ⟨c, t, fun heq => absurd (heq ▸ hc) (by decide), h⟩
  have htext := u.text_eq
  rw [← u.length_scheme]
  cases hhost : u.host with
  | name s hne hs =>
    rw [authority, hhost, Host.text, List.append_assoc s] at htext
    rw [authority, hhost]
    exact decodeAuthority_name u.port p htext hne hs hrest
  | ip6 s hs =>
    have hclose : chr ']' ∉ u.scheme ++ str "://" := by
      intro hmem
      rcases List.mem_append.mp hmem with hmem | hmem
      · exact u.scheme_undelimited _ hmem (by decide)
      · exact absurd hmem (by decide)
    rw [authority, hhost, Host.text, List.append_assoc (chr '[' :: (s ++ [chr ']']))] at htext
    rw [authority, hhost]
    exact decodeAuthority_ip6 u.port p htext hclose (fun h => hs _ h (by decide)) hrest

/-! ## The components -/

theorem origin_prefix (u : Url) : u.origin <+: beforeLast (chr '?')
    (beforeLast (chr '#') u.text) := by
  have hcut : ∀ (c : UInt8) (s : Str), c ∉ u.origin → u.origin <+: s →
      u.origin <+: beforeLast c s := by
    rintro c s hc ⟨t, rfl⟩
    by_cases hmem : c ∈ t
    · obtain ⟨a, b, rfl, hb⟩ := exists_last hmem
      rw [← List.append_assoc, beforeLast_append _ hb]
      exact List.prefix_append _ _
    · rw [beforeLast_of_notMem (by simp [hc, hmem])]
      exact List.prefix_append _ _
  exact hcut _ _ undelimited_origin.1 (hcut _ _ undelimited_origin.2 (List.prefix_append _ _))

/-- **What is returned for a composed URL**: the path ends at the last question mark before the last
    number sign. -/
theorem decodeUrl_text (u : Url) (p : UrlParts) :
    decodeUrl u.text p = some {
      protocol := u.scheme
      host := u.host.address
      port := u.port.getD (defaultPort u.scheme p.port)
      path := (beforeLast (chr '?') (beforeLast (chr '#') u.text)).drop u.origin.length
      query := afterLast (chr '?') (beforeLast (chr '#') u.text)
      fragment := afterLast (chr '#') u.text } := by
  have hstart := u.authorityStart_eq
  have hend := u.authorityEnd_eq
  have hfront := u.origin_prefix
  have hauthority := u.decodeAuthority_text { p with protocol := u.scheme }
  have hcolon : chr ':' ∉ u.scheme := fun h => u.scheme_undelimited _ h (by decide)
  have hproto : (find u.text (str "://") 0).elim (some [])
      (fun i => substr u.text 0 i) = some u.scheme := by
    rw [text_eq, List.append_assoc]
    have hfind : find (u.scheme ++ (str "://" ++
      (u.authority ++ (u.file ++ delimited (chr '#') u.fragment))))
        (str "://") 0 = some u.scheme.length := find_of_notMem_head (str "//") hcolon
    rw [hfind, Option.elim_some, substr_of_le (Nat.zero_le _), List.drop_zero, List.take_left]
  generalize u.text = url at hstart hend hfront hauthority hproto ⊢
  -- the two cuts
  have hhash := beforeLast_prefix (chr '#') url
  have hmark := beforeLast_prefix (chr '?') (beforeLast (chr '#') url)
  have hfragmentLe : (rfind (chr '#') url).elim url.length (· + 1) ≤ url.length :=
    (elim_succ_le (fun i (h : rfind (chr '#') url = some i) => rfind_lt h) url.length (le_refl _)).1
  have hqueryLe : (rfind (chr '?') (beforeLast (chr '#') url)).elim
    (beforeLast (chr '#') url).length (· + 1) ≤
      (beforeLast (chr '#') url).length :=
    (elim_succ_le (fun i (h : rfind (chr '?') (beforeLast (chr '#') url) = some i) => rfind_lt h) _
    (le_refl _)).1
  rw [decodeUrl]
  simp only [rfind_take_succ (show chr '#' ≠ chr '?' by decide)]
  simp only [← length_beforeLast]
  rw [hstart, hend, hproto]
  simp only [Option.bind_eq_bind, Option.bind_some]
  rw [hauthority]
  simp only [Option.bind_some]
  rw [substr_between hfront.length_le (hmark.trans hhash).length_le,
    substr_between hqueryLe hhash.length_le, substr_between hfragmentLe (le_refl _),
    ← List.prefix_iff_eq_take.mp (hmark.trans hhash), ← List.prefix_iff_eq_take.mp hhash,
    List.take_length]
  rfl

/-- A URL that `decodeUrl` takes apart: no second question mark in the query, no second number sign,
    and a port that does not stay what it was before. -/
structure Decodable (u : Url) (port : Str) : Prop where
  query : ∀ q, u.query = some q → chr '?' ∉ q
  fragment : ∀ f, u.fragment = some f → chr '#' ∉ f
  port : u.port = none → u.scheme ∈ [str "http", str "https", str "dchub"] ∨ port = []

theorem afterLast_delimited {c : UInt8} {a : Str} (ha : c ∉ a) (component : Option Str) :
    afterLast c (a ++ delimited c component) = component.getD [] ↔ ∀ t, component = some t →
      c ∉ t := by
  cases component with
  | none => simp [delimited, ha]
  | some t =>
    refine (afterLast_eq_iff a t).trans ⟨?_, fun h => h t rfl⟩
    rintro h _ ⟨⟩
    exact h

theorem beforeLast_delimited {c : UInt8} {a : Str} (ha : c ∉ a) {component : Option Str}
    (h : ∀ t, component = some t → c ∉ t) : beforeLast c (a ++ delimited c component) = a := by
  cases component with
  | none => simp [delimited, ha]
  | some t => exact beforeLast_append a (h t rfl)

theorem defaultPort_eq_iff {scheme : Str} (hne : scheme ≠ []) (port : Str) :
    defaultPort scheme port = schemePort scheme ↔
      scheme ∈ [str "http", str "https", str "dchub"] ∨ port = [] := by
  rw [defaultPort, schemePort]
  by_cases hhttp : scheme = str "http"
  · simp [hhttp]
  · by_cases hhttps : scheme = str "https"
    · simp [hhttps]
    · by_cases hdchub : scheme = str "dchub"
      · simp [hdchub]
      · simp [hhttp, hhttps, hdchub, hne]

/-- **A URL is taken apart into its components** exactly when no query has a second question mark,
    no fragment a second number sign, and the port is known; and no URL makes it fail. -/
theorem decodeUrl_components (url : Str) (u : Url) (p : UrlParts) :
    (∃ q, decodeUrl url p = some q) ∧ (decodeUrl u.text p = some u.parts ↔ u.Decodable p.port) := by
  refine ⟨decodeUrl_isSome url p, ?_⟩
  have hfile : chr '#' ∉ u.origin ++ u.file := by simp [undelimited_origin.2, undelimited_file]
  have hpath : chr '?' ∉ u.origin ++ u.path := by simp [undelimited_origin.1, u.path_undelimited.1]
  have htext : u.text = (u.origin ++ u.file) ++ delimited (chr '#') u.fragment := by simp [text]
  have hfileText : u.origin ++ u.file = (u.origin ++ u.path) ++ delimited (chr '?') u.query := by
    simp [file]
  have hport : u.port.getD (defaultPort u.scheme p.port) = u.port.getD (schemePort u.scheme) ↔
      (u.port = none → u.scheme ∈ [str "http", str "https", str "dchub"] ∨ p.port = []) := by
    cases u.port with
    | none => simpa using defaultPort_eq_iff u.scheme_ne_nil p.port
    | some t => simp
  rw [decodeUrl_text, Option.some.injEq, parts, UrlParts.mk.injEq]
  constructor
  · rintro ⟨-, -, hportEq, -, hquery, hfragment⟩
    rw [htext, afterLast_delimited hfile] at hfragment
    rw [htext, beforeLast_delimited hfile hfragment, hfileText, afterLast_delimited hpath] at hquery
    exact ⟨hquery, hfragment, hport.mp hportEq⟩
  · intro h
    have hbefore : beforeLast (chr '#') u.text =
        (u.origin ++ u.path) ++ delimited (chr '?') u.query := by
      rw [htext, beforeLast_delimited hfile h.fragment, hfileText]
    refine ⟨rfl, rfl, hport.mpr h.port, ?_, ?_, ?_⟩
    · rw [hbefore, beforeLast_delimited hpath h.query, List.drop_left]
    · rw [hbefore]
      exact (afterLast_delimited hpath u.query).mpr h.query
    · rw [htext]
      exact (afterLast_delimited hfile u.fragment).mpr h.fragment

/-- A URL with a question mark in its query -/
def twoMarks : Url where
  scheme := str "http"
  host := .name (str "h") (by decide) (by decide +kernel)
  port := none
  path := str "/p"
  query := some (str "a?b")
  fragment := none
  scheme_ne_nil := by decide
  scheme_undelimited := by decide +kernel
  port_undelimited := fun _ h => nomatch h
  path_slash := Or.inr ⟨str "p", rfl⟩
  path_undelimited := by decide +kernel
  query_undelimited := by
    rintro q ⟨⟩
    decide +kernel

/-- The first part of the query goes into the path. -/
theorem decodeUrl_moves_query :
    decodeUrl (str "http://h/p?a?b") {} = some {
      protocol := str "http", host := str "h", port := str "80", path := str "/p?a",
        query := str "b" } ∧
    twoMarks.text = str "http://h/p?a?b" ∧ twoMarks.query = some (str "a?b") ∧
    ¬ ∀ u : Url, decodeUrl u.text {} = some u.parts := by
  refine ⟨by decide +kernel, by decide +kernel, rfl, fun h => ?_⟩
  have hne : decodeUrl twoMarks.text {} ≠ some twoMarks.parts := by decide +kernel
  exact hne (h twoMarks)

end Url

end LinkUtil
end Airdcpp
