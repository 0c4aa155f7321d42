import Mathlib.Data.List.Forall2
import Hulatang.Http.HttpResponse
import Hulatang.Lib.Occurrence

/-!
# The grammar of an HTTP/1.1 request

A request without a body is a request line, header lines, and an empty line, each with its CRLF. Between
the parts of the request line stands one space, so a target has none; a value stands between blanks, and
neither begins nor ends with one. No part has a control character, but for tabs inside of a value, and so no
part has a line of its own.

`Reads` says that bytes are a request, with nothing left over. They are one request only (`Reads.unique`).
-/

namespace Hulatang

/-- A request as it is read. -/
@[ext]
structure Request where
  method : List UInt8
  target : List UInt8
  version : List UInt8
  headers : List (List UInt8 × List UInt8)

namespace Request

def space : UInt8 := 32
def headerColon : UInt8 := 58

def isAlphanumeric (c : UInt8) : Bool :=
  (97 ≤ c && c ≤ 122) || (65 ≤ c && c ≤ 90) || (48 ≤ c && c ≤ 57)

/-- The characters of a method and of the name of a header. -/
def isTokenChar (c : UInt8) : Bool := isAlphanumeric c || (bytesOf "!#$%&'*+-.^_`|~").contains c

/-- The characters of a target: neither a space nor a control character. -/
def isTargetChar (c : UInt8) : Bool := 32 < c && c ≠ 127

/-- What stands around a value. -/
def isBlank (c : UInt8) : Bool := c == 32 || c == 9

/-- The characters of a value: those of a target, and blanks. -/
def isFieldChar (c : UInt8) : Bool := isTargetChar c || isBlank c

def Token (s : List UInt8) : Prop := s ≠ [] ∧ s.all isTokenChar = true

def Target (s : List UInt8) : Prop := s ≠ [] ∧ s.all isTargetChar = true

/-- A value begins and ends with something else than a blank, if it is not empty. -/
structure FieldValue (v : List UInt8) : Prop where
  chars : v.all isFieldChar = true
  head : ∀ c ∈ v.head?, isBlank c = false
  last : ∀ c ∈ v.getLast?, isBlank c = false

theorem fieldValue_of_all {v : List UInt8} (hchars : v.all isFieldChar = true)
    (hhead : (v.head?.all fun c => !isBlank c) = true) (hlast : (v.getLast?.all fun c => !isBlank c) = true) :
    FieldValue v := by
  constructor
  · exact hchars
  · exact fun c hc => (Bool.not_eq_true' _).mp ((Option.all_eq_true _ _).mp hhead c hc)
  · exact fun c hc => (Bool.not_eq_true' _).mp ((Option.all_eq_true _ _).mp hlast c hc)

/-- `name:value`, with blanks around the value. -/
def HeaderLine (line : List UInt8) (header : List UInt8 × List UInt8) : Prop :=
  Token header.1 ∧ FieldValue header.2 ∧
    ∃ before after, line = header.1 ++ headerColon :: (before ++ header.2 ++ after) ∧
      before.all isBlank = true ∧ after.all isBlank = true

def requestLine (r : Request) : List UInt8 := r.method ++ space :: (r.target ++ space :: r.version)

/-- The bytes are the request, and nothing else. -/
structure Reads (r : Request) (bytes : List UInt8) : Prop where
  method : Token r.method
  target : Target r.target
  version : r.version = bytesOf "HTTP/1.0" ∨ r.version = bytesOf "HTTP/1.1"
  lines : ∃ headerLines, bytes = unlines cr lf (r.requestLine :: (headerLines ++ [[]])) ∧
    List.Forall₂ HeaderLine headerLines r.headers

/-! ## A request is read in one way -/

variable {r s : Request} {bytes line v w before after : List UInt8}

theorem ne_of_all {p : UInt8 → Bool} {c d : UInt8} (h : v.all p = true) (hd : p d = false) (hc : c ∈ v) :
    c ≠ d := by
  rintro rfl
  rw [List.all_eq_true.mp h c hc] at hd
  exact absurd hd (by decide)

/-- What has characters of one kind only has none of another. -/
theorem not_mem_of_all {p : UInt8 → Bool} {d : UInt8} (h : v.all p = true) (hd : p d = false) : d ∉ v :=
  fun hmem => ne_of_all h hd hmem rfl

/-- A value without the blanks around it. -/
def trim (s : List UInt8) : List UInt8 :=
  ((s.dropWhile isBlank).reverse.dropWhile isBlank).reverse

theorem dropWhile_append_of_all (hb : before.all isBlank = true) :
    (before ++ v).dropWhile isBlank = v.dropWhile isBlank := by
  induction before with
  | nil => rfl
  | cons c before ih =>
    rw [List.all_cons, Bool.and_eq_true] at hb
    rw [List.cons_append, List.dropWhile_cons, hb.1, if_pos rfl, ih hb.2]

theorem dropWhile_of_head (h : ∀ c ∈ v.head?, isBlank c = false) : v.dropWhile isBlank = v := by
  cases v with
  | nil => rfl
  | cons c v => rw [List.dropWhile_cons, h c rfl, if_neg Bool.false_ne_true]

theorem FieldValue.trim_eq (hv : FieldValue v) (hb : before.all isBlank = true)
    (ha : after.all isBlank = true) : trim (before ++ v ++ after) = v := by
  have ha' : after.reverse.all isBlank = true := by rw [List.all_reverse, ha]
  have hlast : ∀ c ∈ v.reverse.head?, isBlank c = false := by
    rw [List.head?_reverse]
    exact hv.last
  unfold trim
  rw [List.append_assoc, dropWhile_append_of_all hb]
  cases v with
  | nil =>
    have hall := dropWhile_append_of_all (v := []) ha
    rw [List.append_nil] at hall
    rw [List.nil_append, hall]
    rfl
  | cons c v =>
    -- The value ends the blanks in front of it.
    have hfront : (c :: v ++ after).dropWhile isBlank = c :: v ++ after := dropWhile_of_head hv.head
    rw [hfront, List.reverse_append, dropWhile_append_of_all ha', dropWhile_of_head hlast,
      List.reverse_reverse]

theorem HeaderLine.unique {h k : List UInt8 × List UInt8} (hh : HeaderLine line h) (hk : HeaderLine line k) :
    h = k := by
  obtain ⟨hname, hvalue, b, a, rfl, hb, ha⟩ := hh
  obtain ⟨kname, kvalue, b', a', heq, hb', ha'⟩ := hk
  have hcolon : ∀ {n : List UInt8}, Token n → ∀ c ∈ n, (c == headerColon) = false :=
    fun hn c hc => beq_false_of_ne (ne_of_all hn.2 (by decide) hc)
  obtain ⟨hnames, -, hrest⟩ := append_cons_inj_of_first (p := (· == headerColon)) (hcolon hname)
    (hcolon kname) (by simp) (by simp) heq
  have hvalues : h.2 = k.2 := by
    calc h.2 = trim (b ++ h.2 ++ a) := (hvalue.trim_eq hb ha).symm
      _ = trim (b' ++ k.2 ++ a') := by rw [hrest]
      _ = k.2 := kvalue.trim_eq hb' ha'
  exact Prod.ext hnames hvalues

theorem HeaderLine.cr_not_mem {h : List UInt8 × List UInt8} (hh : HeaderLine line h) : cr ∉ line := by
  obtain ⟨hname, hvalue, b, a, rfl, hb, ha⟩ := hh
  have hcolon : cr ≠ headerColon := by decide
  simp [not_mem_of_all hname.2 (d := cr) (by decide), hcolon, not_mem_of_all hb (d := cr) (by decide),
    not_mem_of_all hvalue.chars (d := cr) (by decide), not_mem_of_all ha (d := cr) (by decide)]

theorem Reads.cr_not_mem (h : Reads r bytes) : cr ∉ r.requestLine := by
  have hversion : cr ∉ r.version := by
    rcases h.version with hv | hv
    · rw [hv]; decide
    · rw [hv]; decide
  have hspace : cr ≠ space := by decide
  unfold requestLine
  simp [not_mem_of_all h.method.2 (d := cr) (by decide), hspace,
    not_mem_of_all h.target.2 (d := cr) (by decide), hversion]

/-- The request line is cut at its spaces in one way. -/
theorem requestLine_inj (hr : Token r.method ∧ Target r.target) (hs : Token s.method ∧ Target s.target)
    (h : r.requestLine = s.requestLine) :
    r.method = s.method ∧ r.target = s.target ∧ r.version = s.version := by
  have hmethod : ∀ {n : List UInt8}, Token n → ∀ c ∈ n, (c == space) = false :=
    fun hn c hc => beq_false_of_ne (ne_of_all hn.2 (by decide) hc)
  have htarget : ∀ {n : List UInt8}, Target n → ∀ c ∈ n, (c == space) = false :=
    fun hn c hc => beq_false_of_ne (ne_of_all hn.2 (by decide) hc)
  obtain ⟨hm, -, hrest⟩ := append_cons_inj_of_first (p := (· == space)) (hmethod hr.1) (hmethod hs.1)
    (by simp) (by simp) h
  obtain ⟨ht, -, hv⟩ := append_cons_inj_of_first (p := (· == space)) (htarget hr.2) (htarget hs.2)
    (by simp) (by simp) hrest
  exact ⟨hm, ht, hv⟩

/-- The lines of a request have no CR inside. -/
theorem Reads.cr_not_mem_line {ls : List (List UInt8)} (hr : Reads r bytes)
    (hls : List.Forall₂ HeaderLine ls r.headers) : ∀ l ∈ r.requestLine :: (ls ++ [[]]), cr ∉ l := by
  have hheaders : ∀ l ∈ ls, cr ∉ l := by
    generalize r.headers = hs at hls
    induction hls with
    | nil => exact fun l hl => absurd hl List.not_mem_nil
    | cons hline _ ih => exact List.forall_mem_cons.mpr ⟨hline.cr_not_mem, ih⟩
  intro l hl
  rw [List.mem_cons, List.mem_append, List.mem_singleton] at hl
  rcases hl with rfl | hl | rfl
  · exact hr.cr_not_mem
  · exact hheaders l hl
  · exact List.not_mem_nil

/-- The headers of a request are well formed. -/
theorem Reads.header (hr : Reads r bytes) {h : List UInt8 × List UInt8} (hh : h ∈ r.headers) :
    Token h.1 ∧ FieldValue h.2 := by
  obtain ⟨ls, -, hls⟩ := hr.lines
  obtain ⟨l, -, hline⟩ : ∃ l ∈ ls, HeaderLine l h := by
    revert hh
    generalize r.headers = hs at hls
    induction hls with
    | nil => exact fun hh => absurd hh List.not_mem_nil
    | cons hline _ ih =>
      intro hh
      rcases List.mem_cons.mp hh with rfl | hh
      · exact ⟨_, List.mem_cons_self, hline⟩
      · obtain ⟨l, hl, hline⟩ := ih hh
        exact ⟨l, List.mem_cons_of_mem _ hl, hline⟩
  exact ⟨hline.1, hline.2.1⟩

theorem count_cr_unlines {ls : List (List UInt8)} (h : ∀ l ∈ ls, cr ∉ l) :
    (unlines cr lf ls).count cr = ls.length := by
  induction ls with
  | nil => rfl
  | cons l ls ih =>
    obtain ⟨hl, hls⟩ := List.forall_mem_cons.mp h
    rw [unlines_cons, List.count_append, List.count_eq_zero_of_not_mem hl, List.count_cons_self,
      List.count_cons_of_ne (by decide), ih hls, List.length_cons]
    omega

/-- There is a CR at the end of every line of a request, and nowhere else. -/
theorem Reads.count_cr (hr : Reads r bytes) : bytes.count cr = r.headers.length + 2 := by
  obtain ⟨ls, hbytes, hls⟩ := hr.lines
  rw [hbytes, count_cr_unlines (hr.cr_not_mem_line hls), ← hls.length_eq]
  simp

/-- Bytes are one request only. -/
theorem Reads.unique (hr : Reads r bytes) (hs : Reads s bytes) : r = s := by
  obtain ⟨ls, hbytes, hls⟩ := hr.lines
  obtain ⟨ms, heq, hms⟩ := hs.lines
  have hlines := unlines_inj (by decide) (fun l hl => pairFree_of_not_mem (hr.cr_not_mem_line hls l hl))
    (fun l hl => pairFree_of_not_mem (hs.cr_not_mem_line hms l hl)) (hbytes.symm.trans heq)
  obtain ⟨hline, hrest⟩ := List.cons.inj hlines
  obtain rfl : ls = ms := List.append_cancel_right hrest
  obtain ⟨hmethod, htarget, hversion⟩ := requestLine_inj ⟨hr.method, hr.target⟩ ⟨hs.method, hs.target⟩ hline
  have hright : Relator.RightUnique HeaderLine := fun _ _ _ hh hk => hh.unique hk
  exact Request.ext hmethod htarget hversion (hright.forall₂ hls hms)

end Request

end Hulatang
