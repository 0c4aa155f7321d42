import Mathlib.Data.List.Infix
import Hulatang.Lib.Occurrence

/-!
# `URL::split`

The components of a URL are views into its string. A search yields the place of a character in the view, or
`npos`, which is `none` here: it is larger than every place, and `npos + 1` is 0.

`split` cuts the string step by step, each time a view that the step before has left. `authority` is the
block behind `//`, and `tail` the two blocks behind it. The lemmas say what a step makes of a text that is
given with its first, or last, separator.
-/

namespace Hulatang

def colon : UInt8 := 58
def slash : UInt8 := 47
def question : UInt8 := 63
def hash : UInt8 := 35
def leftBracket : UInt8 := 91
def rightBracket : UInt8 := 93

/-- A `std::string_view` into the string of a URL: where it begins, and its characters. -/
@[ext]
structure View where
  pos : ℕ
  text : List UInt8
  deriving DecidableEq

namespace View

/-- A view that has been constructed by default. -/
def empty : View := ⟨0, []⟩

/-- `substr`; all that is left where there is no count, or a count of `npos`. -/
def substr (v : View) (pos : ℕ) (count : Option ℕ := none) : View :=
  ⟨v.pos + pos, match count with
    | some n => (v.text.drop pos).take n
    | none => v.text.drop pos⟩

/-- `find(c, pos)`. -/
def find (v : View) (c : UInt8) (pos : ℕ := 0) : Option ℕ :=
  ((v.text.drop pos).findIdx? (· == c)).map (· + pos)

/-- `find_last_of`, of one character. -/
def findLastOf (v : View) (c : UInt8) : Option ℕ := lastIdx? (· == c) v.text

def startsWith (v : View) (s : List UInt8) : Bool := s.isPrefixOf v.text

/-- `i + 1`, of a place or `npos`. -/
def next : Option ℕ → ℕ
  | some i => i + 1
  | none => 0

end View

def isHostnameChar (c : UInt8) : Bool :=
  (97 ≤ c && c ≤ 122) || (65 ≤ c && c ≤ 90) || (48 ≤ c && c ≤ 57) || c == 43 || c == 45 || c == 46

def checkHostname (v : View) : Bool := v.text.all isHostnameChar

def isDigit (c : UInt8) : Bool := 48 ≤ c && c ≤ 57

def allOfNumber (v : View) : Bool := v.text.all isDigit

def checkIP (v : View) : Bool :=
  let v6start := v.find leftBracket
  let v6end := v.findLastOf rightBracket
  if v6start ≠ v6end then
    match v6start, v6end with
    | some v6start, some v6end => !(v6start > v6end)
    | _, _ => false -- One of them is `npos`.
  else true

def tryPort (url : View) : Bool := !(url.text.isEmpty || !allOfNumber url)

def tryHostPort (url : View) (colonIndex : Option ℕ) : Bool :=
  tryPort (url.substr (View.next colonIndex)) &&
    (checkHostname (url.substr 0 colonIndex) || checkIP (url.substr 0 colonIndex))

/-- `URL`: the string and the views of its components. -/
@[ext]
structure URL where
  url : List UInt8
  host : View := View.empty
  port : View := View.empty
  protocol : View := View.empty
  path : View := View.empty
  query : View := View.empty
  ref : View := View.empty
  deriving DecidableEq

namespace URL

/-- The least of the places of `/`, `?` and `#` from place 2 on. -/
def authorityEnd (url : View) : Option ℕ :=
  ((url.find slash 2).merge min (url.find question 2)).merge min (url.find hash 2)

/-- `hostport`, and what is left of `url`. -/
def hostport (url : View) : View × View :=
  match authorityEnd url with
  | none => (url.substr 2, View.empty)
  | some i => (url.substr 2 (some (i - 2)), url.substr i)

/-- The last `#` begins the fragment. -/
def cutRef (u : URL) (url : View) : URL × View :=
  match url.findLastOf hash with
  | some i => ({ u with ref := url.substr (i + 1) }, url.substr 0 (some i))
  | none => (u, url)

/-- The first `?` begins the query. -/
def cutQuery (u : URL) (url : View) : URL × View :=
  match url.find question with
  | some i => ({ u with query := url.substr (i + 1) }, url.substr 0 (some i))
  | none => (u, url)

/-- The end of `split`: the fragment, the query, and the path that is left. -/
def tail (u : URL) (url : View) : URL :=
  let (u, url) := u.cutRef url
  let (u, url) := u.cutQuery url
  { u with path := url }

/-- The block of `split` behind `//`; where it returns early, the URL is left as it is. -/
def authority (u : URL) (url : View) : URL :=
  let (hostport, url) := hostport url
  match hostport.findLastOf colon with
  | none => { u with host := hostport.substr 0 }.tail url
  | some colonIndex =>
    if tryHostPort hostport colonIndex then
      { u with host := hostport.substr 0 (some colonIndex),
               port := hostport.substr (colonIndex + 1) }.tail url
    else u

/-- The constructor, which calls `split`. -/
def split (url_ : List UInt8) : URL :=
  let u : URL := { url := url_ }
  let url : View := ⟨0, url_⟩
  let i := url.find colon
  if tryHostPort url i then u
  else
    let u := { u with protocol := url.substr 0 i }
    let url := url.substr (View.next i)
    if url.startsWith [slash, slash] then u.authority url else u.tail url

end URL

/-! ## Searches and cuts -/

section Views

variable {pos : ℕ} {c : UInt8} {l r xs : List UInt8}

theorem forall_beq_eq_false_iff : (∀ y ∈ xs, (y == c) = false) ↔ c ∉ xs := by
  constructor
  · intro h hc
    exact absurd (h c hc) (by simp)
  · intro h y hy
    apply beq_false_of_ne
    rintro rfl
    exact h hy

namespace View

theorem find_append_cons (hl : c ∉ l) : (⟨pos, l ++ c :: r⟩ : View).find c = some l.length := by
  have hfirst := findIdx?_append_cons (r := r) (forall_beq_eq_false_iff.mpr hl) (beq_self_eq_true c)
  simp [find, hfirst]

theorem find_eq_none (h : c ∉ xs) : (⟨pos, xs⟩ : View).find c = none := by
  simp [find, findIdx?_eq_none (forall_beq_eq_false_iff.mpr h)]

theorem findLastOf_append_cons (hr : c ∉ r) : (⟨pos, l ++ c :: r⟩ : View).findLastOf c = some l.length :=
  lastIdx?_append_cons (forall_beq_eq_false_iff.mpr hr) (beq_self_eq_true c)

theorem findLastOf_eq_none (h : c ∉ xs) : (⟨pos, xs⟩ : View).findLastOf c = none :=
  lastIdx?_eq_none (forall_beq_eq_false_iff.mpr h)

/-- What stands in front of a separator. -/
theorem substr_front : (⟨pos, l ++ c :: r⟩ : View).substr 0 (some l.length) = ⟨pos, l⟩ := by
  simp [substr]

/-- What stands behind a separator. -/
theorem substr_behind : (⟨pos, l ++ c :: r⟩ : View).substr (l.length + 1) = ⟨pos + l.length + 1, r⟩ := by
  simp [substr, Nat.add_assoc]

@[simp] theorem substr_zero (v : View) : v.substr 0 = v := by
  cases v
  simp [substr]

end View

/-- A text has no `c`, or a first one. -/
theorem exists_first_or_not_mem (c : UInt8) (xs : List UInt8) :
    c ∉ xs ∨ ∃ l r, xs = l ++ c :: r ∧ c ∉ l := by
  by_cases h : c ∈ xs
  · exact .inr (List.eq_append_cons_of_mem h)
  · exact .inl h

/-- A text has no `c`, or a last one. -/
theorem exists_last_or_not_mem (c : UInt8) (xs : List UInt8) :
    c ∉ xs ∨ ∃ l r, xs = l ++ c :: r ∧ c ∉ r := by
  rcases exists_last_or_forall (· == c) xs with hnone | ⟨l, x, r, rfl, hr, hx⟩
  · exact .inl (forall_beq_eq_false_iff.mp hnone)
  · rw [beq_iff_eq] at hx
    subst hx
    exact .inr ⟨l, r, rfl, forall_beq_eq_false_iff.mp hr⟩

end Views

/-! ## The authority -/

section Authority

variable {pos : ℕ} {a b h p t : List UInt8}

/-- A non-empty string of digits. -/
def Digits (p : List UInt8) : Prop := p ≠ [] ∧ p.all isDigit

theorem tryPort_iff (v : View) : tryPort v = true ↔ Digits v.text := by
  unfold tryPort allOfNumber Digits
  simp

theorem Digits.not_mem {c : UInt8} (hp : Digits p) (hc : isDigit c = false) : c ∉ p := by
  intro hmem
  have hdigit := List.all_eq_true.mp hp.2 c hmem
  rw [hc] at hdigit
  exact absurd hdigit (by decide)

/-- There is a bracket, but no `]` behind a `[`. -/
def Unmatched (h : List UInt8) : Prop :=
  (leftBracket ∈ h ∨ rightBracket ∈ h) ∧ ¬ [leftBracket, rightBracket].Sublist h

theorem checkIP_iff : checkIP ⟨pos, h⟩ = true ↔ ¬ Unmatched h := by
  have hne : rightBracket ≠ leftBracket := by decide
  unfold checkIP Unmatched
  rcases exists_first_or_not_mem leftBracket h with hleft | ⟨l, r, rfl, hl⟩
  · have hsub : ¬ [leftBracket, rightBracket].Sublist h := fun h => hleft (h.subset List.mem_cons_self)
    rw [View.find_eq_none hleft]
    rcases exists_last_or_not_mem rightBracket h with hright | ⟨a, b, rfl, hb⟩
    · simp [View.findLastOf_eq_none hright, hleft, hright]
    · simp [View.findLastOf_append_cons hb, hsub]
  · rw [View.find_append_cons hl, pair_sublist_append_cons_iff hl]
    -- The last `]` is behind the first `[`, in front of it, or nowhere.
    rcases exists_last_or_not_mem rightBracket r with hr | ⟨a, b, rfl, hb⟩
    · rcases exists_last_or_not_mem rightBracket l with hl' | ⟨a, b, rfl, hb⟩
      · have hnone : rightBracket ∉ l ++ leftBracket :: r := by simp [hl', hr, hne]
        simp [View.findLastOf_eq_none hnone, hr]
      · have hlast : rightBracket ∉ b ++ leftBracket :: r := by simp [hb, hr, hne]
        have heq : a ++ rightBracket :: b ++ leftBracket :: r =
            a ++ rightBracket :: (b ++ leftBracket :: r) := by
          simp
        rw [heq, View.findLastOf_append_cons hlast]
        simp [hr]
    · have heq : l ++ leftBracket :: (a ++ rightBracket :: b) =
          (l ++ leftBracket :: a) ++ rightBracket :: b := by
        simp
      rw [heq, View.findLastOf_append_cons hb]
      simp

/-- A host name has no bracket, so `checkIP` accepts it as well. -/
theorem not_unmatched_of_hostname (hh : h.all isHostnameChar = true) : ¬ Unmatched h := by
  rintro ⟨hbracket, -⟩
  rcases hbracket with hmem | hmem
  · exact absurd (List.all_eq_true.mp hh _ hmem) (by decide)
  · exact absurd (List.all_eq_true.mp hh _ hmem) (by decide)

theorem not_unmatched_literal : ¬ Unmatched (leftBracket :: a ++ [rightBracket]) := by
  rintro ⟨-, hpair⟩
  apply hpair
  exact (pair_sublist_append_cons_iff (l := []) List.not_mem_nil).mpr (by simp)

/-- The host and the port that a `:` separates are accepted. -/
def Accepted (h p : List UInt8) : Prop := Digits p ∧ ¬ Unmatched h

theorem tryHostPort_iff : tryHostPort ⟨pos, h ++ colon :: p⟩ (some h.length) = true ↔ Accepted h p := by
  unfold tryHostPort Accepted
  rw [View.next, View.substr_front, View.substr_behind, Bool.and_eq_true, tryPort_iff, Bool.or_eq_true,
    checkIP_iff]
  have himp := not_unmatched_of_hostname (h := h)
  unfold checkHostname
  tauto

/-- Without a `:` the whole string is both the host and the port. -/
theorem tryHostPort_none_iff : tryHostPort ⟨pos, h⟩ none = true ↔ Digits h := by
  unfold tryHostPort
  rw [View.next, View.substr_zero, Bool.and_eq_true, tryPort_iff, Bool.or_eq_true]
  constructor
  · exact fun hdigits => hdigits.1
  · intro hdigits
    refine ⟨hdigits, .inl ?_⟩
    apply List.all_eq_true.mpr
    intro c hc
    have hdigit := List.all_eq_true.mp hdigits.2 c hc
    unfold isDigit at hdigit
    unfold isHostnameChar
    simp [hdigit]

namespace URL

def isDelimiter (c : UInt8) : Bool := c == slash || c == question || c == hash

/-- The rest of a text: nothing, or something that a delimiter begins. -/
def Rest (t : List UInt8) : Prop := ∀ c ∈ t.head?, isDelimiter c = true

theorem rest_cons {c : UInt8} (hc : isDelimiter c = true) : Rest (c :: t) := by
  intro d hd
  obtain rfl : c = d := Option.some.inj hd
  exact hc

theorem not_isDelimiter_of_all (ha : (a.all fun c => !isDelimiter c) = true) :
    ∀ c ∈ a, isDelimiter c = false :=
  fun c hc => (Bool.not_eq_true' _).mp (List.all_eq_true.mp ha c hc)

/-- The view that is left behind the authority. -/
def restAt (pos : ℕ) (t : List UInt8) : View := if t = [] then View.empty else ⟨pos, t⟩

@[simp] theorem restAt_text (pos : ℕ) (t : List UInt8) : (restAt pos t).text = t := by
  unfold restAt
  split
  · next h => rw [h]; rfl
  · rfl

theorem restAt_eq (pos : ℕ) (t : List UInt8) : restAt pos t = ⟨(restAt pos t).pos, t⟩ := by
  ext1
  · rfl
  · exact restAt_text pos t

theorem merge_map_add (x y : Option ℕ) (n : ℕ) :
    Option.merge min (x.map (· + n)) (y.map (· + n)) = (Option.merge min x y).map (· + n) := by
  cases x <;> cases y <;> simp [Nat.add_min_add_right]

theorem authorityEnd_eq (xs : List UInt8) :
    authorityEnd ⟨pos, slash :: slash :: xs⟩ = (xs.findIdx? isDelimiter).map (· + 2) := by
  unfold authorityEnd View.find
  simp only [List.drop_succ_cons, List.drop_zero]
  rw [merge_map_add, merge_map_add, merge_findIdx?, merge_findIdx?]
  rfl

theorem hostport_eq (ha : ∀ c ∈ a, isDelimiter c = false) (ht : Rest t) :
    hostport ⟨pos, slash :: slash :: (a ++ t)⟩ = (⟨pos + 2, a⟩, restAt (pos + 2 + a.length) t) := by
  unfold hostport
  rw [authorityEnd_eq]
  cases t with
  | nil =>
    rw [List.append_nil, findIdx?_eq_none ha]
    simp [View.substr, restAt]
  | cons c t =>
    rw [findIdx?_append_cons ha (ht c rfl)]
    simp [View.substr, restAt]
    omega

/-- A text is an authority and a rest. -/
theorem exists_authority (xs : List UInt8) :
    ∃ a t, xs = a ++ t ∧ (∀ c ∈ a, isDelimiter c = false) ∧ Rest t := by
  rcases exists_first_or_forall isDelimiter xs with hnone | ⟨a, c, t, rfl, ha, hc⟩
  · exact ⟨xs, [], (List.append_nil xs).symm, hnone, fun c hc => absurd hc (by simp)⟩
  · exact ⟨a, c :: t, rfl, ha, rest_cons hc⟩

variable {u : URL}

theorem authority_of_not_mem (ha : ∀ c ∈ a, isDelimiter c = false) (ht : Rest t) (hcolon : colon ∉ a) :
    u.authority ⟨pos, slash :: slash :: (a ++ t)⟩ =
      { u with host := ⟨pos + 2, a⟩ }.tail (restAt (pos + 2 + a.length) t) := by
  unfold authority
  rw [hostport_eq ha ht]
  simp only [View.findLastOf_eq_none hcolon, View.substr_zero]

theorem authority_of_accepted (ha : ∀ c ∈ h ++ colon :: p, isDelimiter c = false) (ht : Rest t)
    (hcolon : colon ∉ p) (haccepted : Accepted h p) :
    u.authority ⟨pos, slash :: slash :: (h ++ colon :: p ++ t)⟩ =
      { u with host := ⟨pos + 2, h⟩, port := ⟨pos + 2 + h.length + 1, p⟩ }.tail
        (restAt (pos + 2 + (h ++ colon :: p).length) t) := by
  unfold authority
  rw [hostport_eq ha ht]
  simp only [View.findLastOf_append_cons hcolon, if_pos (tryHostPort_iff.mpr haccepted), View.substr_front,
    View.substr_behind]

theorem authority_of_not_accepted (ha : ∀ c ∈ h ++ colon :: p, isDelimiter c = false) (ht : Rest t)
    (hcolon : colon ∉ p) (hnot : ¬ Accepted h p) :
    u.authority ⟨pos, slash :: slash :: (h ++ colon :: p ++ t)⟩ = u := by
  unfold authority
  rw [hostport_eq ha ht]
  simp only [View.findLastOf_append_cons hcolon, if_neg (mt tryHostPort_iff.mp hnot)]

end URL

end Authority

/-! ## The components -/

namespace URL

section Tail

variable {pos : ℕ} {path t : List UInt8} {query ref : Option (List UInt8)}

/-- A part that may be omitted, behind its separator. -/
def part (c : UInt8) : Option (List UInt8) → List UInt8
  | some x => c :: x
  | none => []

/-- The fragment is behind the last `#`, the query behind the first `?` in front of it. -/
structure Delimited (path : List UInt8) (query ref : Option (List UInt8)) : Prop where
  question_not_mem : question ∉ path
  hash_not_mem : ref = none → hash ∉ path ++ part question query
  hash_not_mem_ref : ∀ f ∈ ref, hash ∉ f

/-- Every text is delimited in this way. -/
theorem exists_delimited (t : List UInt8) :
    ∃ path query ref, Delimited path query ref ∧ t = path ++ part question query ++ part hash ref := by
  -- The query begins at the first `?` of what is in front of the fragment.
  have hquery : ∀ s : List UInt8, ∃ path query, question ∉ path ∧ s = path ++ part question query := by
    intro s
    rcases exists_first_or_not_mem question s with hnone | ⟨l, r, rfl, hl⟩
    · exact ⟨s, none, hnone, (List.append_nil s).symm⟩
    · exact ⟨l, some r, hl, rfl⟩
  rcases exists_last_or_not_mem hash t with hnone | ⟨l, r, rfl, hr⟩
  · obtain ⟨path, query, hpath, rfl⟩ := hquery t
    exact ⟨path, query, none, ⟨hpath, fun _ => hnone, by simp⟩, (List.append_nil _).symm⟩
  · obtain ⟨path, query, hpath, rfl⟩ := hquery l
    exact ⟨path, query, some r, ⟨hpath, by simp, by simpa using hr⟩, rfl⟩

theorem cutRef_eq {u : URL} (h : Delimited path query ref) :
    u.cutRef ⟨pos, path ++ part question query ++ part hash ref⟩ =
      ({ u with ref := (ref.map (⟨pos + (path ++ part question query).length + 1, ·⟩)).getD u.ref },
        ⟨pos, path ++ part question query⟩) := by
  unfold cutRef
  cases ref with
  | none =>
    rw [part, List.append_nil, View.findLastOf_eq_none (h.hash_not_mem rfl)]
    rfl
  | some f =>
    rw [part, View.findLastOf_append_cons (h.hash_not_mem_ref f rfl)]
    simp only [View.substr_front, View.substr_behind]
    rfl

theorem cutQuery_eq {u : URL} (h : question ∉ path) :
    u.cutQuery ⟨pos, path ++ part question query⟩ =
      ({ u with query := (query.map (⟨pos + path.length + 1, ·⟩)).getD u.query }, ⟨pos, path⟩) := by
  unfold cutQuery
  cases query with
  | none =>
    rw [part, List.append_nil, View.find_eq_none h]
    rfl
  | some q =>
    rw [part, View.find_append_cons h]
    simp only [View.substr_front, View.substr_behind]
    rfl

theorem tail_eq (u : URL) (h : Delimited path query ref) :
    u.tail ⟨pos, path ++ part question query ++ part hash ref⟩ =
      { u with
        path := ⟨pos, path⟩
        query := (query.map (⟨pos + path.length + 1, ·⟩)).getD u.query
        ref := (ref.map (⟨pos + (path ++ part question query).length + 1, ·⟩)).getD u.ref } := by
  unfold tail
  rw [cutRef_eq h]
  simp only [cutQuery_eq h.question_not_mem]

end Tail

section Split

variable {p r : List UInt8}

/-- Without a `:` the whole string is host and port, or protocol, and is read again from its beginning. -/
theorem split_of_not_mem {s : List UInt8} (h : colon ∉ s) :
    split s =
      if tryHostPort ⟨0, s⟩ none then { url := s }
      else
        let u : URL := { url := s, protocol := ⟨0, s⟩ }
        if [slash, slash].isPrefixOf s then u.authority ⟨0, s⟩ else u.tail ⟨0, s⟩ := by
  unfold split
  simp only [View.find_eq_none h, View.next, View.substr_zero, View.startsWith]

theorem split_of_accepted (hp : colon ∉ p) (haccepted : Accepted p r) :
    split (p ++ colon :: r) = { url := p ++ colon :: r } := by
  unfold split
  simp only [View.find_append_cons hp, if_pos (tryHostPort_iff.mpr haccepted)]

theorem split_of_not_accepted (hp : colon ∉ p) (hnot : ¬ Accepted p r) :
    split (p ++ colon :: r) =
      let u : URL := { url := p ++ colon :: r, protocol := ⟨0, p⟩ }
      if [slash, slash].isPrefixOf r then u.authority ⟨p.length + 1, r⟩ else u.tail ⟨p.length + 1, r⟩ := by
  unfold split
  simp only [View.find_append_cons hp, if_neg (mt tryHostPort_iff.mp hnot), View.next, View.substr_front,
    View.substr_behind, View.startsWith, Nat.zero_add]

/-- What begins with `//` is no port. -/
theorem split_slashes (hp : colon ∉ p) :
    split (p ++ colon :: slash :: slash :: r) =
      ({ url := p ++ colon :: slash :: slash :: r, protocol := ⟨0, p⟩ } : URL).authority
        ⟨p.length + 1, slash :: slash :: r⟩ := by
  have hnot : ¬ Accepted p (slash :: slash :: r) :=
    fun haccepted => haccepted.1.not_mem (by decide) List.mem_cons_self
  rw [split_of_not_accepted hp hnot]
  rfl

end Split

/-! ## Sizes -/

section Sizes

theorem length_substr_le (v : View) (i : ℕ) (count : Option ℕ) :
    (v.substr i count).text.length ≤ v.text.length := by
  unfold View.substr
  cases count with
  | none =>
    rw [List.length_drop]
    exact Nat.sub_le _ _
  | some n =>
    rw [List.length_take, List.length_drop]
    omega

/-- The end of `split` assigns the path, the query and the fragment only. -/
theorem tail_keeps (u : URL) (v : View) :
    (u.tail v).url = u.url ∧ (u.tail v).protocol = u.protocol ∧ (u.tail v).host = u.host ∧
      (u.tail v).port = u.port := by
  unfold tail cutRef cutQuery
  cases v.findLastOf hash <;> dsimp only <;> split <;> exact ⟨rfl, rfl, rfl, rfl⟩

theorem length_tail_path_le (u : URL) (v : View) : (u.tail v).path.text.length ≤ v.text.length := by
  obtain ⟨path, query, ref, hd, htext⟩ := exists_delimited v.text
  have hv : v = ⟨v.pos, path ++ part question query ++ part hash ref⟩ := View.ext rfl htext
  rw [hv, tail_eq u hd]
  simp

theorem length_hostport_le (v : View) :
    (hostport v).1.text.length ≤ v.text.length ∧ (hostport v).2.text.length ≤ v.text.length := by
  unfold hostport
  cases authorityEnd v with
  | none => exact ⟨length_substr_le v 2 none, Nat.zero_le _⟩
  | some i => exact ⟨length_substr_le v 2 _, length_substr_le v i none⟩

theorem length_authority_le {u : URL} {v : View} {n : ℕ} (hu : u.host = View.empty ∧ u.path = View.empty)
    (hv : v.text.length ≤ n) :
    (u.authority v).host.text.length ≤ n ∧ (u.authority v).path.text.length ≤ n := by
  obtain ⟨hauthority, hrest⟩ := length_hostport_le v
  have hfront := fun i count => (length_substr_le (hostport v).1 i count).trans (hauthority.trans hv)
  have htail := fun u' => (length_tail_path_le u' (hostport v).2).trans (hrest.trans hv)
  unfold authority
  dsimp only
  split
  · refine ⟨?_, htail _⟩
    rw [(tail_keeps _ _).2.2.1]
    exact hfront 0 none
  · split_ifs
    · refine ⟨?_, htail _⟩
      rw [(tail_keeps _ _).2.2.1]
      exact hfront 0 _
    · rw [hu.1, hu.2]
      exact ⟨Nat.zero_le _, Nat.zero_le _⟩

/-- Host and path are not longer than the string. -/
theorem length_split_le (s : List UInt8) :
    (split s).host.text.length ≤ s.length ∧ (split s).path.text.length ≤ s.length := by
  unfold split
  dsimp only
  split_ifs
  · exact ⟨Nat.zero_le _, Nat.zero_le _⟩
  · exact length_authority_le ⟨rfl, rfl⟩ (length_substr_le _ _ _)
  · rw [(tail_keeps _ _).2.2.1]
    exact ⟨Nat.zero_le _, (length_tail_path_le _ _).trans (length_substr_le _ _ _)⟩

end Sizes

end URL

end Hulatang
