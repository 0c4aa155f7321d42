import Mathlib.Data.List.Count
import Hulatang.Http.HttpResponse
import Hulatang.Http.URL

/-!
# What `split` makes of any string

A host and a port that are accepted as an authority need not be in its grammar: brackets are compared by
their places only, and without brackets everything passes (`assigned_iff_grammar_iff`).

The components are read from the string in order, with the separators between them. It is another string
when it has no `:`, since the protocol is then the whole string and the rest is the whole string again, and
when the authority is refused, since `split` returns with the protocol assigned (`partitioned_iff`).
-/

namespace Hulatang

namespace URL

variable {u : URL} {v : View} {pos : ℕ} {q h p t : List UInt8}

/-! ## The grammar of the authority -/

/-- A single bracketed literal. -/
def Bracketed (h : List UInt8) : Prop :=
  ∃ a, h = leftBracket :: a ++ [rightBracket] ∧ leftBracket ∉ a ∧ rightBracket ∉ a

/-- A host is a name, or a literal. -/
def HostGrammar (h : List UInt8) : Prop := (h ≠ [] ∧ h.all isHostnameChar = true) ∨ Bracketed h

/-- `host_` and `port_` are the views of `h` and `p`, where they are in the string. -/
def Assigned (u : URL) (pos : ℕ) (h p : List UInt8) : Prop :=
  u.host = ⟨pos, h⟩ ∧ u.port = ⟨pos + h.length + 1, p⟩

/-- The URL with the authority `h:p`. -/
def withAuthority (q h p t : List UInt8) : List UInt8 :=
  q ++ colon :: slash :: slash :: (h ++ colon :: p ++ t)

/-- What the authority of a URL is: up to the first `/`, `?` or `#`, and cut at the last `:`. -/
structure Authority (q h p t : List UInt8) : Prop where
  protocol : colon ∉ q
  chars : ∀ x ∈ h ++ colon :: p, isDelimiter x = false
  last : colon ∉ p
  rest : Rest t

theorem assigned_iff (ha : Authority q h p t) :
    (split (withAuthority q h p t)).Assigned (q.length + 3) h p ↔ Accepted h p := by
  unfold withAuthority
  rw [split_slashes ha.protocol]
  constructor
  · intro hassigned
    by_contra hnot
    rw [authority_of_not_accepted ha.chars ha.rest ha.last hnot] at hassigned
    -- The host has been left as it was constructed.
    have hpos := congrArg View.pos hassigned.1
    exact absurd hpos (by simp [View.empty])
  · intro haccepted
    rw [authority_of_accepted ha.chars ha.rest ha.last haccepted]
    obtain ⟨-, -, hhost, hport⟩ := tail_keeps
      { url := q ++ colon :: slash :: slash :: (h ++ colon :: p ++ t), protocol := ⟨0, q⟩,
        host := ⟨q.length + 1 + 2, h⟩, port := ⟨q.length + 1 + 2 + h.length + 1, p⟩ }
      (restAt (q.length + 1 + 2 + (h ++ colon :: p).length) t)
    exact ⟨hhost, hport⟩

/-- A host of the grammar has no unmatched bracket. -/
theorem HostGrammar.not_unmatched (hh : HostGrammar h) : ¬ Unmatched h := by
  rcases hh with ⟨-, hname⟩ | ⟨a, rfl, -, -⟩
  · exact not_unmatched_of_hostname hname
  · exact not_unmatched_literal

/-- The authority is assigned as its grammar says exactly when it is in the grammar, or has no port, or has
an unmatched bracket. -/
theorem assigned_iff_grammar_iff (q h p t : List UInt8) (ha : Authority q h p t) :
    ((split (withAuthority q h p t)).Assigned (q.length + 3) h p ↔ Digits p ∧ HostGrammar h) ↔
      ¬ Digits p ∨ HostGrammar h ∨ Unmatched h := by
  have hmatched := HostGrammar.not_unmatched (h := h)
  rw [assigned_iff ha]
  unfold Accepted
  tauto

theorem assigned_iff_grammar_iff_name :
    Authority (bytesOf "http") (bytesOf "www.baidu.com") (bytesOf "80") (bytesOf "/index.html") ∧
      ((split (bytesOf "http://www.baidu.com:80/index.html")).Assigned 7 (bytesOf "www.baidu.com")
          (bytesOf "80") ↔
        Digits (bytesOf "80") ∧ HostGrammar (bytesOf "www.baidu.com")) := by
  have hauthority :
      Authority (bytesOf "http") (bytesOf "www.baidu.com") (bytesOf "80") (bytesOf "/index.html") := by
    exact ⟨by decide, not_isDelimiter_of_all (by decide), by decide, rest_cons (by decide)⟩
  have hname : HostGrammar (bytesOf "www.baidu.com") := .inl ⟨by decide, by decide⟩
  have hiff := (assigned_iff_grammar_iff _ _ _ _ hauthority).mpr (.inr (.inl hname))
  exact ⟨hauthority, hiff⟩

/-- `x[y]z` is accepted as a host. -/
theorem assigned_outside_grammar :
    Authority (bytesOf "http") (bytesOf "x[y]z") (bytesOf "80") (bytesOf "/") ∧
      (split (bytesOf "http://x[y]z:80/")).Assigned 7 (bytesOf "x[y]z") (bytesOf "80") ∧
      ¬ HostGrammar (bytesOf "x[y]z") := by
  refine ⟨⟨by decide, not_isDelimiter_of_all (by decide), by decide, rest_cons (by decide)⟩,
    ⟨by decide, by decide⟩, ?_⟩
  rintro (⟨-, hname⟩ | ⟨a, ha, -, -⟩)
  · exact absurd hname (by decide)
  · exact absurd (List.cons.inj ha).1 (by decide)

/-! ## The components in the string -/

/-- Each separator with the component behind it. -/
abbrev Layout := List (List UInt8 × View)

/-- The string that separators and components make up. -/
def Layout.string (l : Layout) : List UInt8 := l.flatMap fun part => part.1 ++ part.2.text

/-- A component that is not empty is viewed where it is in the string. -/
def Layout.Viewed : ℕ → Layout → Prop
  | _, [] => True
  | n, (sep, v) :: l =>
    (v.text ≠ [] → v.pos = n + sep.length) ∧ Viewed (n + sep.length + v.text.length) l

instance Layout.decidableViewed : (n : ℕ) → (l : Layout) → Decidable (Layout.Viewed n l)
  | _, [] => inferInstanceAs (Decidable True)
  | n, (sep, v) :: l =>
    have := decidableViewed (n + sep.length + v.text.length) l
    inferInstanceAs (Decidable ((v.text ≠ [] → v.pos = n + sep.length) ∧ _))

/-- A port has its `:`. -/
def portSep (u : URL) : List UInt8 := if u.port.text = [] then [] else [colon]

/-- The components of a URL in order, behind separators. -/
def layout (u : URL) (afterProtocol beforeQuery beforeRef : List UInt8) : Layout :=
  [([], u.protocol), (afterProtocol, u.host), (u.portSep, u.port), ([], u.path),
    (beforeQuery, u.query), (beforeRef, u.ref)]

/-- The string is the components in order with the separators between them. -/
def Partitioned (u : URL) : Prop :=
  ∃ afterProtocol ∈ [[], [colon], [colon, slash, slash]], ∃ beforeQuery ∈ [[], [question]],
    ∃ beforeRef ∈ [[], [hash]],
      u.url = (u.layout afterProtocol beforeQuery beforeRef).string ∧
        (u.layout afterProtocol beforeQuery beforeRef).Viewed 0

/-- No component has been assigned. -/
def Rejected (u : URL) : Prop :=
  u.protocol.text = [] ∧ u.host.text = [] ∧ u.port.text = [] ∧ u.path.text = [] ∧ u.query.text = [] ∧
    u.ref.text = []

/-- The block behind `//` returns early. -/
def Refused (r : List UInt8) : Prop :=
  ∃ h p t, r = slash :: slash :: (h ++ colon :: p ++ t) ∧ (∀ x ∈ h ++ colon :: p, isDelimiter x = false) ∧
    colon ∉ p ∧ Rest t ∧ ¬ Accepted h p

/-- The strings without a `:` that leave nothing behind the protocol. -/
def bare : List (List UInt8) :=
  [[], [slash, slash]].flatMap fun s => [s, s ++ [question], s ++ [hash], s ++ [question, hash]]

/-- The URLs that are cut into their components, or rejected. -/
def Divided (s : List UInt8) : Prop :=
  (colon ∉ s ∧ (Digits s ∨ s ∈ bare)) ∨
    ∃ q r, s = q ++ colon :: r ∧ colon ∉ q ∧ (Accepted q r ∨ q = [] ∨ ¬ Refused r)

/-- What stands in front of the path. -/
def front (u : URL) (sep : List UInt8) : List UInt8 :=
  u.protocol.text ++ sep ++ u.host.text ++ u.portSep ++ u.port.text

/-- The components that have been assigned are in the string, and `v` is what is left. -/
structure Remains (u : URL) (sep : List UInt8) (v : View) : Prop where
  sep_mem : sep ∈ [[], [colon], [colon, slash, slash]]
  string : u.url = u.front sep ++ v.text
  protocol : u.protocol.text ≠ [] → u.protocol.pos = 0
  host : u.host.text ≠ [] → u.host.pos = (u.protocol.text ++ sep).length
  port : u.port.text ≠ [] → u.port.pos = (u.protocol.text ++ sep ++ u.host.text ++ u.portSep).length
  view : v.text ≠ [] → v.pos = (u.front sep).length
  query : u.query = View.empty
  ref : u.ref = View.empty

/-- What is left is read to its end. -/
theorem Remains.partitioned {s : List UInt8} (h : Remains u s v) : (u.tail v).Partitioned := by
  obtain ⟨path, query, ref, hd, htext⟩ := exists_delimited v.text
  have hv : v = ⟨v.pos, path ++ part question query ++ part hash ref⟩ := View.ext rfl htext
  have hstring := h.string
  have hview := h.view
  rw [htext] at hstring hview
  rw [hv, tail_eq u hd, h.query, h.ref]
  refine ⟨s, h.sep_mem, query.elim [] fun _ => [question], ?_, ref.elim [] fun _ => [hash], ?_, ?_, ?_⟩
  · cases query <;> simp
  · cases ref <;> simp
  · rw [hstring]
    unfold front
    -- Put together again, the parts are the string, whichever of them are there.
    cases query <;> cases ref <;> simp [layout, Layout.string, portSep, part, View.empty]
  · have hhost := h.host
    have hport := h.port
    unfold front at hview
    simp only [List.length_append] at hhost hport hview
    unfold layout Layout.Viewed
    refine ⟨fun hne => h.protocol hne, fun hne => ?_, fun hne => ?_, fun hne => ?_, ?_, ?_, trivial⟩
    · have := hhost hne
      simp only [List.length_nil]
      omega
    · have := hport hne
      simp only [List.length_nil, portSep] at this ⊢
      omega
    · have := hview (by simp [hne])
      simp only [List.length_nil, portSep] at this ⊢
      omega
    · cases query with
      | none => exact fun hne => absurd rfl hne
      | some r =>
        have := hview (by simp [part])
        simp only [List.length_nil, portSep] at this ⊢
        intro hne
        simp
        omega
    · cases ref with
      | none => exact fun hne => absurd rfl hne
      | some f =>
        have := hview (by simp [part])
        intro hne
        cases query <;> simp [part, portSep, View.empty] at this ⊢ <;> omega

/-- Where nothing but the protocol is assigned, a path, a query and a fragment are empty. -/
theorem mem_of_tail_empty (hpath : (u.tail v).path.text = []) (hquery : (u.tail v).query.text = [])
    (href : (u.tail v).ref.text = []) : v.text ∈ [[], [question], [hash], [question, hash]] := by
  obtain ⟨path, query, ref, hd, htext⟩ := exists_delimited v.text
  have hv : v = ⟨v.pos, path ++ part question query ++ part hash ref⟩ := View.ext rfl htext
  rw [hv, tail_eq u hd] at hpath hquery href
  rw [htext]
  dsimp only at hpath
  subst hpath
  cases query with
  | none =>
    cases ref with
    | none => decide
    | some f =>
      obtain rfl : f = [] := href
      decide
  | some r =>
    obtain rfl : r = [] := hquery
    cases ref with
    | none => decide
    | some f =>
      obtain rfl : f = [] := href
      decide

/-- The components that stand behind the whole string are empty. -/
theorem Partitioned.eq_nil (h : Partitioned u) (hu : u.protocol.text = u.url) :
    u.host.text = [] ∧ u.path.text = [] ∧ u.query.text = [] ∧ u.ref.text = [] := by
  obtain ⟨s₁, -, s₃, -, s₄, -, hstring, -⟩ := h
  have hlen := congrArg List.length hstring
  rw [← hu] at hlen
  simp only [layout, Layout.string, List.flatMap_cons, List.flatMap_nil, List.length_append, List.length_nil]
    at hlen
  refine ⟨?_, ?_, ?_, ?_⟩ <;> apply List.eq_nil_of_length_eq_zero <;> omega

/-- A URL that has been assigned its protocol only, and has another `:`, is not partitioned. -/
theorem not_partitioned_of_refused {r : List UInt8} (hr : Refused r) :
    ¬ Partitioned ({ url := q ++ colon :: r, protocol := ⟨0, q⟩ } : URL) := by
  rintro ⟨s₁, h₁, s₃, h₃, s₄, h₄, hstring, -⟩
  obtain ⟨h, p, t, rfl, -⟩ := hr
  simp only [layout, Layout.string, portSep, View.empty, List.flatMap_cons, List.flatMap_nil, List.nil_append,
    List.append_nil, if_true, List.append_cancel_left_eq] at hstring
  -- The separators that are left have one `:`, and there are two.
  have hcount := congrArg (List.count colon) hstring
  have hone : ∀ s₁ ∈ [[], [colon], [colon, slash, slash]], ∀ s₃ ∈ [[], [question]], ∀ s₄ ∈ [[], [hash]],
      List.count colon (s₁ ++ (s₃ ++ s₄)) ≤ 1 := by decide
  have hle := hone s₁ h₁ s₃ h₃ s₄ h₄
  rw [← hcount] at hle
  simp [colon, slash] at hle

instance : DecidablePred Rejected := fun _ => inferInstanceAs (Decidable (_ ∧ _))

instance : DecidablePred Partitioned := fun _ => inferInstanceAs (Decidable (∃ _ ∈ _, _))

theorem divided_of_bare : ∀ s ∈ bare, Rejected (split s) ∨ Partitioned (split s) := by decide

/-- A URL whose protocol is the whole string has nothing else, when it is rejected or partitioned. -/
theorem eq_nil_of_whole (hu : u.protocol = ⟨0, u.url⟩) (h : Rejected u ∨ Partitioned u) :
    u.host.text = [] ∧ u.path.text = [] ∧ u.query.text = [] ∧ u.ref.text = [] := by
  rcases h with ⟨-, hhost, -, hpath, hquery, href⟩ | h
  · exact ⟨hhost, hpath, hquery, href⟩
  · apply h.eq_nil
    rw [hu]

/-- Without a `:` the string is the protocol, and whatever else there is stands in it as well. -/
theorem mem_bare {s : List UInt8} (hcolon : colon ∉ s) (hdigits : ¬ Digits s)
    (h : Rejected (split s) ∨ Partitioned (split s)) : s ∈ bare := by
  have hnot : ¬ tryHostPort ⟨0, s⟩ none = true := mt tryHostPort_none_iff.mp hdigits
  rw [split_of_not_mem hcolon, if_neg hnot] at h
  dsimp only at h
  have hmem : ∀ l ∈ [[], [slash, slash]], ∀ r ∈ [[], [question], [hash], [question, hash]],
      l ++ r ∈ bare := by
    decide
  split at h
  · next hslashes =>
    obtain ⟨r, rfl⟩ := List.isPrefixOf_iff_prefix.mp hslashes
    obtain ⟨a, t, rfl, ha, ht⟩ := exists_authority r
    have hcolon' : colon ∉ a := fun hmem => hcolon (by simp [hmem])
    rw [List.cons_append, List.cons_append, List.nil_append, authority_of_not_mem ha ht hcolon'] at h
    generalize hw : restAt (0 + 2 + a.length) t = w at h
    obtain ⟨hurl, hprotocol, hhost, -⟩ := tail_keeps
      { url := slash :: slash :: (a ++ t), protocol := ⟨0, slash :: slash :: (a ++ t)⟩, host := ⟨0 + 2, a⟩ } w
    obtain ⟨hnil, hpath, hquery, href⟩ := eq_nil_of_whole (by rw [hprotocol, hurl]) h
    rw [hhost] at hnil
    have ht' := mem_of_tail_empty hpath hquery href
    rw [← hw, restAt_text] at ht'
    dsimp only at hnil
    rw [hnil, List.nil_append]
    exact hmem [slash, slash] (by decide) t ht'
  · obtain ⟨hurl, hprotocol, -, -⟩ := tail_keeps { url := s, protocol := ⟨0, s⟩ } ⟨0, s⟩
    obtain ⟨-, hpath, hquery, href⟩ := eq_nil_of_whole (by rw [hprotocol, hurl]) h
    exact hmem [] (by decide) s (mem_of_tail_empty hpath hquery href)

/-- Behind the protocol and its `:`. -/
theorem remains_protocol (q r : List UInt8) :
    Remains { url := q ++ colon :: r, protocol := ⟨0, q⟩ } [colon] ⟨q.length + 1, r⟩ where
  sep_mem := by decide
  string := by simp [front, portSep, View.empty]
  protocol := fun _ => rfl
  host := fun hne => absurd rfl hne
  port := fun hne => absurd rfl hne
  view := fun _ => by simp [front, portSep, View.empty]
  query := rfl
  ref := rfl

/-- Behind an authority without a port. -/
theorem remains_host (q a t : List UInt8) :
    Remains
      { url := q ++ colon :: slash :: slash :: (a ++ t), protocol := ⟨0, q⟩,
        host := ⟨q.length + 1 + 2, a⟩ }
      [colon, slash, slash] (restAt (q.length + 1 + 2 + a.length) t) where
  sep_mem := by decide
  string := by simp [front, portSep, View.empty]
  protocol := fun _ => rfl
  host := fun _ => by simp
  port := fun hne => absurd rfl hne
  view := fun hne => by
    rw [restAt_text] at hne
    simp [restAt, hne, front, portSep, View.empty]
    omega
  query := rfl
  ref := rfl

/-- Behind an authority with a port. -/
theorem remains_port (q h t : List UInt8) {p : List UInt8} (hp : p ≠ []) :
    Remains
      { url := q ++ colon :: slash :: slash :: (h ++ colon :: p ++ t), protocol := ⟨0, q⟩,
        host := ⟨q.length + 1 + 2, h⟩, port := ⟨q.length + 1 + 2 + h.length + 1, p⟩ }
      [colon, slash, slash] (restAt (q.length + 1 + 2 + (h ++ colon :: p).length) t) where
  sep_mem := by decide
  string := by simp [front, portSep, hp]
  protocol := fun _ => rfl
  host := fun _ => by simp
  port := fun _ => by
    simp [portSep, hp]
    omega
  view := fun hne => by
    rw [restAt_text] at hne
    simp [restAt, hne, front, portSep, hp]
    omega
  query := rfl
  ref := rfl

/-- What stands behind the `:` of the protocol is read to its end, or refused. -/
theorem partitioned_or_refused {r : List UInt8} (hq : colon ∉ q) (hnot : ¬ Accepted q r) :
    Partitioned (split (q ++ colon :: r)) ∨
      (Refused r ∧ split (q ++ colon :: r) = { url := q ++ colon :: r, protocol := ⟨0, q⟩ }) := by
  rw [split_of_not_accepted hq hnot]
  dsimp only
  split
  · next hslashes =>
    obtain ⟨r, rfl⟩ := List.isPrefixOf_iff_prefix.mp hslashes
    obtain ⟨a, t, rfl, ha, ht⟩ := exists_authority r
    rw [List.cons_append, List.cons_append, List.nil_append]
    rcases exists_last_or_not_mem colon a with hcolon | ⟨h, p, rfl, hp⟩
    · left
      rw [authority_of_not_mem ha ht hcolon]
      exact (remains_host q a t).partitioned
    · by_cases haccepted : Accepted h p
      · left
        rw [authority_of_accepted ha ht hp haccepted]
        exact (remains_port q h t haccepted.1.1).partitioned
      · exact .inr ⟨⟨h, p, t, rfl, ha, hp, ht, haccepted⟩, authority_of_not_accepted ha ht hp haccepted⟩
  · left
    exact (remains_protocol q r).partitioned

/-- An authority that is refused leaves the URL with its protocol. -/
theorem split_of_refused {r : List UInt8} (hq : colon ∉ q) (hr : Refused r) :
    split (q ++ colon :: r) = { url := q ++ colon :: r, protocol := ⟨0, q⟩ } := by
  obtain ⟨h, p, t, rfl, hchars, hp, ht, hnot⟩ := hr
  rw [split_slashes hq, authority_of_not_accepted hchars ht hp hnot]

/-- A URL is cut into its components or rejected exactly when it has a `:` and is not refused after the
protocol has been assigned, or when it has none and nothing is left behind the protocol. -/
theorem partitioned_iff (s : List UInt8) : Rejected (split s) ∨ Partitioned (split s) ↔ Divided s := by
  constructor
  · intro h
    rcases exists_first_or_not_mem colon s with hcolon | ⟨q, r, rfl, hq⟩
    · by_cases hdigits : Digits s
      · exact .inl ⟨hcolon, .inl hdigits⟩
      · exact .inl ⟨hcolon, .inr (mem_bare hcolon hdigits h)⟩
    · refine .inr ⟨q, r, rfl, hq, ?_⟩
      by_contra hnot
      rw [not_or, not_or, not_not] at hnot
      obtain ⟨-, hne, hr⟩ := hnot
      rw [split_of_refused hq hr] at h
      rcases h with hrejected | hpartitioned
      · exact hne hrejected.1
      · exact not_partitioned_of_refused hr hpartitioned
  · rintro (⟨hcolon, hdigits | hbare⟩ | ⟨q, r, rfl, hq, h⟩)
    · left
      rw [split_of_not_mem hcolon, if_pos (tryHostPort_none_iff.mpr hdigits)]
      exact ⟨rfl, rfl, rfl, rfl, rfl, rfl⟩
    · exact divided_of_bare s hbare
    · by_cases haccepted : Accepted q r
      · left
        rw [split_of_accepted hq haccepted]
        exact ⟨rfl, rfl, rfl, rfl, rfl, rfl⟩
      · rcases partitioned_or_refused hq haccepted with hpartitioned | ⟨hr, hsplit⟩
        · exact .inr hpartitioned
        · obtain rfl : q = [] := (h.resolve_left haccepted).resolve_right fun hnot => hnot hr
          left
          rw [hsplit]
          exact ⟨rfl, rfl, rfl, rfl, rfl, rfl⟩

/-- `http://a:b/x` is refused with its protocol assigned. -/
theorem not_partitioned_refused :
    ¬ (Rejected (split (bytesOf "http://a:b/x")) ∨ Partitioned (split (bytesOf "http://a:b/x"))) := by
  decide

end URL

end Hulatang
