import Hulatang.Http.HttpResponse
import Hulatang.Http.URL

/-!
# A URL yields the components it is written with

A URL is written as `<protocol>://<host>:<port><path>?<query>#<ref>`, where the port, the query and the
fragment may be omitted. `split` returns what has been written, when the host is a host name
(`yields_of_hostname`). The host `[...]` of an IPv6 literal has the separator of the port inside. With a
port the last `:` is still the separator; without one the literal is cut inside and rejected, so it is
returned exactly when it has no `:` (`yields_literal_iff`).
-/

namespace Hulatang

theorem Digits.not_isDelimiter {p : List UInt8} (hp : Digits p) : ∀ x ∈ p, URL.isDelimiter x = false := by
  intro x hx
  have hslash : x ≠ slash := fun h => hp.not_mem (c := slash) (by decide) (h ▸ hx)
  have hquestion : x ≠ question := fun h => hp.not_mem (c := question) (by decide) (h ▸ hx)
  have hhash : x ≠ hash := fun h => hp.not_mem (c := hash) (by decide) (h ▸ hx)
  unfold URL.isDelimiter
  simp [hslash, hquestion, hhash]

namespace URL

/-- What a URL is written with. -/
structure Components where
  protocol : List UInt8
  host : List UInt8
  port : Option (List UInt8)
  path : List UInt8
  query : Option (List UInt8)
  ref : Option (List UInt8)

namespace Components

/-- What is written behind the authority. -/
def rest (c : Components) : List UInt8 := c.path ++ part question c.query ++ part hash c.ref

/-- The URL that is written with the components. -/
def render (c : Components) : List UInt8 :=
  c.protocol ++ colon :: slash :: slash :: (c.host ++ part colon c.port ++ c.rest)

/-- What `split` relies on outside of the host. -/
structure Separated (c : Components) : Prop where
  protocol : colon ∉ c.protocol
  port : ∀ p ∈ c.port, Digits p
  rest : Rest c.rest
  delimited : Delimited c.path c.query c.ref

end Components

/-- The URL has exactly these components; one that is omitted is empty. -/
structure Yields (u : URL) (c : Components) : Prop where
  protocol : u.protocol.text = c.protocol
  host : u.host.text = c.host
  port : u.port.text = c.port.getD []
  path : u.path.text = c.path
  query : u.query.text = c.query.getD []
  ref : u.ref.text = c.ref.getD []

variable {c : Components} {a : List UInt8}

/-- The end of `split` adds the path, the query and the fragment. -/
theorem yields_tail {u : URL} (hd : Delimited c.path c.query c.ref) (hprotocol : u.protocol.text = c.protocol)
    (hhost : u.host.text = c.host) (hport : u.port.text = c.port.getD []) (hquery : u.query = View.empty)
    (href : u.ref = View.empty) (pos : ℕ) : (u.tail (restAt pos c.rest)).Yields c := by
  rw [restAt_eq, Components.rest, tail_eq u hd, hquery, href]
  constructor
  · exact hprotocol
  · exact hhost
  · exact hport
  · rfl
  · cases c.query <;> rfl
  · cases c.ref <;> rfl

/-- The last `:` of the authority is the separator of the port, and the host passes a check. -/
theorem yields_render (hc : c.Separated) (hhost : ∀ x ∈ c.host, isDelimiter x = false)
    (hcolon : c.port = none → colon ∉ c.host) (hmatched : ¬ Unmatched c.host) :
    (split c.render).Yields c := by
  unfold Components.render
  rw [split_slashes hc.protocol]
  cases hport : c.port with
  | none =>
    rw [part, List.append_nil, authority_of_not_mem hhost hc.rest (hcolon hport)]
    apply yields_tail hc.delimited rfl rfl _ rfl rfl
    rw [hport]
    rfl
  | some p =>
    have hdigits := hc.port p hport
    have hauthority : ∀ x ∈ c.host ++ colon :: p, isDelimiter x = false := by
      intro x hx
      rw [List.mem_append, List.mem_cons] at hx
      rcases hx with hx | rfl | hx
      · exact hhost x hx
      · decide
      · exact hdigits.not_isDelimiter x hx
    rw [part, authority_of_accepted hauthority hc.rest (hdigits.not_mem (by decide)) ⟨hdigits, hmatched⟩]
    apply yields_tail hc.delimited rfl rfl _ rfl rfl
    rw [hport]
    rfl

/-! ## Host names -/

/-- The host is a host name, and the separators stand only where they are written. -/
structure Components.Hostname (c : Components) : Prop where
  protocol : colon ∉ c.protocol
  host : c.host ≠ [] ∧ c.host.all isHostnameChar = true
  port : ∀ p ∈ c.port, p ≠ [] ∧ p.all isDigit = true
  path : c.path = [] ∨ c.path.head? = some slash
  path_chars : question ∉ c.path ∧ hash ∉ c.path
  query : ∀ q ∈ c.query, q ≠ [] ∧ hash ∉ q
  ref : ∀ f ∈ c.ref, f ≠ [] ∧ hash ∉ f

theorem Components.Hostname.separated (hc : c.Hostname) : c.Separated := by
  constructor
  · exact hc.protocol
  · exact hc.port
  · -- What follows the authority is the path, or else the `?`, or else the `#`.
    unfold Rest Components.rest
    rcases hc.path with hpath | hpath
    · rw [hpath]
      cases c.query <;> cases c.ref <;> simp [part, isDelimiter]
    · cases hp : c.path with
      | nil => rw [hp] at hpath; exact absurd hpath (by simp)
      | cons d path =>
        rw [hp] at hpath
        obtain rfl : d = slash := Option.some.inj hpath
        simp [isDelimiter]
  · constructor
    · exact hc.path_chars.1
    · intro _
      rw [List.mem_append, not_or]
      refine ⟨hc.path_chars.2, ?_⟩
      cases hq : c.query with
      | none => exact List.not_mem_nil
      | some q =>
        rw [part, List.mem_cons, not_or]
        exact ⟨by decide, (hc.query q hq).2⟩
    · exact fun f hf => (hc.ref f hf).2

/-- A host name has none of the separators. -/
theorem isDelimiter_of_hostname {h : List UInt8} (hh : h.all isHostnameChar = true) :
    (∀ x ∈ h, isDelimiter x = false) ∧ colon ∉ h := by
  have hne : ∀ d, isHostnameChar d = false → ∀ x ∈ h, x ≠ d := by
    rintro d hd x hx rfl
    rw [List.all_eq_true.mp hh x hx] at hd
    exact absurd hd (by decide)
  constructor
  · intro x hx
    unfold isDelimiter
    simp [hne slash (by decide) x hx, hne question (by decide) x hx, hne hash (by decide) x hx]
  · exact fun hmem => hne colon (by decide) colon hmem rfl

/-- A URL with a host name yields the components it is written with. -/
theorem yields_of_hostname (c : Components) (hc : c.Hostname) : (split c.render).Yields c := by
  obtain ⟨hhost, hcolon⟩ := isDelimiter_of_hostname hc.host.2
  apply yields_render hc.separated hhost
  · exact fun _ => hcolon
  · exact not_unmatched_of_hostname hc.host.2

/-- A URL with all the components. -/
def indexURL : Components where
  protocol := bytesOf "http"
  host := bytesOf "www.baidu.com"
  port := some (bytesOf "80")
  path := bytesOf "/index"
  query := some (bytesOf "id=123")
  ref := some (bytesOf "1234")

theorem indexURL_hostname : indexURL.Hostname := by
  constructor
  · decide
  · decide
  · rintro p ⟨⟩
    decide
  · exact .inr rfl
  · decide
  · rintro q ⟨⟩
    decide
  · rintro f ⟨⟩
    decide

theorem yields_of_hostname_index :
    indexURL.Hostname ∧
      (split (bytesOf "http://www.baidu.com:80/index?id=123#1234")).Yields indexURL :=
  ⟨indexURL_hostname, yields_of_hostname indexURL indexURL_hostname⟩

/-! ## IPv6 literals -/

/-- Hexadecimal digits, `:` and `.`. -/
def isLiteralChar (c : UInt8) : Bool :=
  isDigit c || (97 ≤ c && c ≤ 102) || (65 ≤ c && c ≤ 70) || c == colon || c == 46

/-- The host is the literal `[a]`. -/
structure Components.Literal (c : Components) (a : List UInt8) : Prop where
  separated : c.Separated
  host : c.host = leftBracket :: a ++ [rightBracket]
  chars : a ≠ [] ∧ a.all isLiteralChar = true

theorem Components.Literal.not_isDelimiter (hc : c.Literal a) : ∀ x ∈ c.host, isDelimiter x = false := by
  intro x hx
  rw [hc.host, List.mem_append, List.mem_cons, List.mem_singleton] at hx
  rcases hx with (rfl | hx) | rfl
  · decide
  · have hchar := List.all_eq_true.mp hc.chars.2 x hx
    have hne : ∀ d, isLiteralChar d = false → x ≠ d := by
      rintro d hd rfl
      rw [hchar] at hd
      exact absurd hd (by decide)
    unfold isDelimiter
    simp [hne slash (by decide), hne question (by decide), hne hash (by decide)]
  · decide

theorem Components.Literal.not_unmatched (hc : c.Literal a) : ¬ Unmatched c.host := by
  rw [hc.host]
  exact not_unmatched_literal

/-- A literal without a port that has a `:` is cut at its last `:`, where no port stands. -/
theorem host_of_literal (hc : c.Literal a) (hport : c.port = none) (hcolon : colon ∈ a) :
    (split c.render).host = View.empty := by
  obtain ⟨b, d, rfl, hd⟩ : ∃ b d, a = b ++ colon :: d ∧ colon ∉ d := by
    rcases exists_last_or_not_mem colon a with hnone | h
    · exact absurd hcolon hnone
    · exact h
  have hhost : c.host = (leftBracket :: b) ++ colon :: (d ++ [rightBracket]) := by
    rw [hc.host]
    simp
  have hdelim := hc.not_isDelimiter
  have hnot : ¬ Accepted (leftBracket :: b) (d ++ [rightBracket]) := by
    rintro ⟨hdigits, -⟩
    exact hdigits.not_mem (c := rightBracket) (by decide) (by simp)
  have hlast : colon ∉ d ++ [rightBracket] := by
    rw [List.mem_append, not_or]
    exact ⟨hd, by decide⟩
  unfold Components.render
  rw [hport, part, List.append_nil, split_slashes hc.separated.protocol]
  rw [hhost] at hdelim ⊢
  rw [authority_of_not_accepted hdelim hc.separated.rest hlast hnot]

/-- A URL with a literal yields its components exactly when there is a port, or no `:` in the literal. -/
theorem yields_literal_iff (c : Components) (a : List UInt8) (hc : c.Literal a) :
    (split c.render).Yields c ↔ c.port ≠ none ∨ colon ∉ a := by
  constructor
  · intro h
    by_contra hnot
    rw [not_or, not_not, not_not] at hnot
    have hhost := h.host
    rw [host_of_literal hc hnot.1 hnot.2, hc.host] at hhost
    exact absurd hhost (by simp [View.empty])
  · intro h
    apply yields_render hc.separated hc.not_isDelimiter _ hc.not_unmatched
    intro hport hmem
    have ha : colon ∉ a := h.resolve_left fun hsome => hsome hport
    rw [hc.host, List.mem_append, List.mem_cons, List.mem_singleton] at hmem
    rcases hmem with (hbracket | hmem) | hbracket
    · exact absurd hbracket (by decide)
    · exact ha hmem
    · exact absurd hbracket (by decide)

/-- `http://[::1]` with or without a port. -/
def loopbackURL (port : Option (List UInt8)) : Components where
  protocol := bytesOf "http"
  host := bytesOf "[::1]"
  port := port
  path := bytesOf "/"
  query := none
  ref := none

theorem loopbackURL_literal {port : Option (List UInt8)} (hport : ∀ p ∈ port, Digits p) :
    (loopbackURL port).Literal (bytesOf "::1") := by
  have hprotocol : colon ∉ bytesOf "http" := by decide
  have hpath : question ∉ bytesOf "/" ∧ hash ∉ bytesOf "/" := by decide
  refine ⟨⟨hprotocol, hport, rest_cons (by decide), ?_⟩, rfl, by decide⟩
  exact ⟨hpath.1, fun _ => hpath.2, fun f hf => absurd hf (by simp [loopbackURL])⟩

theorem yields_literal_iff_port :
    (loopbackURL (some (bytesOf "80"))).Literal (bytesOf "::1") ∧
      (split (bytesOf "http://[::1]:80/")).Yields (loopbackURL (some (bytesOf "80"))) := by
  have hliteral : (loopbackURL (some (bytesOf "80"))).Literal (bytesOf "::1") :=
    loopbackURL_literal (by rintro p ⟨⟩; exact ⟨by decide, by decide⟩)
  have hyields := (yields_literal_iff _ _ hliteral).mpr (.inl (by simp [loopbackURL]))
  exact ⟨hliteral, hyields⟩

/-- `http://[::1]/` has no host. -/
theorem not_yields_literal :
    (loopbackURL none).Literal (bytesOf "::1") ∧ (loopbackURL none).render = bytesOf "http://[::1]/" ∧
      ¬ (split (bytesOf "http://[::1]/")).Yields (loopbackURL none) := by
  refine ⟨loopbackURL_literal (fun p hp => absurd hp (by simp)), by decide, ?_⟩
  exact fun h => absurd h.host (by decide)

end URL

end Hulatang
