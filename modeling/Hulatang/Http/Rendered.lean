import Mathlib.Data.List.Nodup
import Hulatang.Http.ResponseLines

/-!
# Well-formed responses

The parts of a well-formed response and the lines that they are rendered to. A status line and a header
are read back from their lines, whatever stands in a reason or in a value; headers with different names
are read back as they are.
-/

namespace Hulatang

/-- The status line of a well-formed response. -/
structure ResponseStatus where
  version : List UInt8
  digits : List UInt8
  reason : List UInt8
  code : ℕ
  version_token : 32 ∉ version
  version_free : PairFree cr lf version
  three_digits : digits.length = 3
  code_eq : numeral 10 digits = some code
  reason_free : PairFree cr lf reason

/-- The headers of a well-formed response. -/
structure ResponseHeaders where
  headers : HeaderMap
  distinct : (headers.map Prod.fst).Nodup
  name_token : ∀ h ∈ headers, 58 ∉ h.1
  name_free : ∀ h ∈ headers, PairFree cr lf h.1
  value_free : ∀ h ∈ headers, PairFree cr lf h.2

/-- A status line, without its CRLF. -/
def ResponseStatus.line (s : ResponseStatus) : List UInt8 :=
  s.version ++ 32 :: (s.digits ++ 32 :: s.reason)

/-- `HTTP/1.1 200 OK`. -/
def ResponseStatus.ok : ResponseStatus where
  version := bytesOf "HTTP/1.1"
  digits := bytesOf "200"
  reason := bytesOf "OK"
  code := 200
  version_token := by decide
  version_free := by decide
  three_digits := by decide
  code_eq := by decide
  reason_free := by decide

/-- `Name: value`. -/
def headerLine (h : List UInt8 × List UInt8) : List UInt8 := h.1 ++ 58 :: 32 :: h.2

/-- The lines of the header block, the empty line included. -/
def blockLines (s : ResponseStatus) (hs : ResponseHeaders) : List (List UInt8) :=
  s.line :: (hs.headers.map headerLine ++ [[]])

/-! ## Cutting a line -/

namespace HttpResponseBuilder

theorem cut_append {c : UInt8} {l r : List UInt8} (h : c ∉ l) : cut c (l ++ c :: r) = (l, r) := by
  have hindex : (l ++ c :: r).idxOf? c = some l.length := by
    induction l with
    | nil => simp [List.idxOf?_cons]
    | cons x l ih =>
      obtain ⟨hx, hl⟩ := List.ne_and_not_mem_of_not_mem_cons h
      simp [List.idxOf?_cons, Ne.symm hx, ih hl]
  unfold cut
  rw [hindex]
  simp

theorem header_headerLine {h : List UInt8 × List UInt8} (hname : 58 ∉ h.1) : header (headerLine h) = h := by
  unfold header headerLine
  rw [cut_append hname]
  rfl

/-! ## Headers -/

theorem isSome_lookup_iff {headers : HeaderMap} {name : List UInt8} :
    (headers.lookup name).isSome ↔ name ∈ headers.map Prod.fst := by
  induction headers with
  | nil => simp
  | cons h headers ih =>
    obtain ⟨n, v⟩ := h
    rw [List.lookup_cons, List.map_cons, List.mem_cons]
    by_cases hn : name = n
    · simp [hn]
    · rw [beq_false_of_ne hn]
      exact ih.trans (or_iff_right hn).symm

/-- Where the names are different, a header is the one that is found. -/
theorem lookup_eq_some_iff {headers : HeaderMap} (hdistinct : (headers.map Prod.fst).Nodup)
    {name value : List UInt8} : headers.lookup name = some value ↔ (name, value) ∈ headers := by
  induction headers with
  | nil => simp
  | cons h headers ih =>
    obtain ⟨n, v⟩ := h
    obtain ⟨hn, hdistinct⟩ := List.nodup_cons.mp hdistinct
    rw [List.lookup_cons, List.mem_cons, Prod.mk.injEq]
    by_cases hname : name = n
    · have habsent : (n, value) ∉ headers := fun hmem => hn (List.mem_map.mpr ⟨_, hmem, rfl⟩)
      simp [hname, habsent, eq_comm]
    · rw [beq_false_of_ne hname]
      exact (ih hdistinct).trans (or_iff_right fun h => hname h.1).symm

/-- Headers with new and different names are added as they are. -/
theorem foldl_emplace {hs acc : HeaderMap} (hdistinct : ((acc ++ hs).map Prod.fst).Nodup)
    (hname : ∀ h ∈ hs, 58 ∉ h.1) :
    (hs.map headerLine).foldl (fun headers line => headers.emplace (header line).1 (header line).2) acc =
      acc ++ hs := by
  induction hs generalizing acc with
  | nil => exact (List.append_nil acc).symm
  | cons h hs ih =>
    obtain ⟨hh, hhs⟩ := List.forall_mem_cons.mp hname
    have hnew : h.1 ∉ acc.map Prod.fst := by
      rw [List.map_append, List.map_cons] at hdistinct
      exact fun hmem => (List.nodup_append.mp hdistinct).2.2 _ hmem _ List.mem_cons_self rfl
    have hemplace : acc.emplace h.1 h.2 = acc ++ [h] := by
      unfold HeaderMap.emplace
      rw [if_neg (fun hsome => hnew (isSome_lookup_iff.mp hsome))]
    rw [List.map_cons, List.foldl_cons, header_headerLine hh, hemplace]
    have hmoved : acc ++ h :: hs = acc ++ [h] ++ hs := (List.append_cons acc h hs)
    rw [hmoved] at hdistinct ⊢
    exact ih hdistinct hhs

end HttpResponseBuilder

namespace ResponseHeaders

variable (hs : ResponseHeaders)

theorem headersOf_eq : HttpResponseBuilder.headersOf (hs.headers.map headerLine) = hs.headers :=
  HttpResponseBuilder.foldl_emplace hs.distinct hs.name_token

theorem lookup_eq_some_iff {name value : List UInt8} :
    hs.headers.lookup name = some value ↔ (name, value) ∈ hs.headers :=
  HttpResponseBuilder.lookup_eq_some_iff hs.distinct

theorem line_ne_nil {line : List UInt8} (hline : line ∈ hs.headers.map headerLine) : line ≠ [] := by
  obtain ⟨h, -, rfl⟩ := List.mem_map.mp hline
  exact List.append_ne_nil_of_right_ne_nil _ (List.cons_ne_nil _ _)

theorem line_free {line : List UInt8} (hline : line ∈ hs.headers.map headerLine) :
    PairFree cr lf line := by
  obtain ⟨h, hmem, rfl⟩ := List.mem_map.mp hline
  have hvalue : PairFree cr lf (32 :: h.2) :=
    PairFree.append_cons pairFree_nil (hs.value_free h hmem) (by decide) (by decide)
  exact (hs.name_free h hmem).append_cons hvalue (by decide) (by decide)

end ResponseHeaders

namespace ResponseStatus

variable (s : ResponseStatus)

theorem space_not_mem_digits : 32 ∉ s.digits := not_mem_of_numeral s.code_eq (by decide)

theorem statusToken_eq : HttpResponseBuilder.statusToken s.line = s.digits := by
  unfold HttpResponseBuilder.statusToken line
  rw [HttpResponseBuilder.cut_append s.version_token,
    HttpResponseBuilder.cut_append s.space_not_mem_digits]

theorem version_eq : (HttpResponseBuilder.cut 32 s.line).1 = s.version := by
  unfold line
  rw [HttpResponseBuilder.cut_append s.version_token]

theorem stoi_eq : stoi (HttpResponseBuilder.statusToken s.line) = .ok (s.code : ℤ) := by
  have hlt := numeral_lt s.code_eq
  rw [s.three_digits] at hlt
  rw [s.statusToken_eq]
  exact stoi_of_numeral s.code_eq (by omega)

theorem line_free : PairFree cr lf s.line := by
  have hdigits : PairFree cr lf s.digits :=
    pairFree_of_not_mem (not_mem_of_numeral s.code_eq (by decide))
  have hbehind : PairFree cr lf (s.digits ++ 32 :: s.reason) :=
    hdigits.append_cons s.reason_free (by decide) (by decide)
  exact s.version_free.append_cons hbehind (by decide) (by decide)

end ResponseStatus

/-! ## The header block -/

variable {s : ResponseStatus} {hs : ResponseHeaders}

theorem blockLines_free {l : List UInt8} (h : l ∈ blockLines s hs) : PairFree cr lf l := by
  rcases List.mem_cons.mp h with rfl | h
  · exact s.line_free
  · rcases List.mem_append.mp h with h | h
    · exact hs.line_free h
    · obtain rfl := List.mem_singleton.mp h
      exact pairFree_nil

/-- A header block and what stands behind it, on the lines of both. -/
theorem splits_block (s : ResponseStatus) (hs : ResponseHeaders) {tail r : List UInt8}
    {ls : List (List UInt8)} (htail : Splits tail [] ls r) :
    Splits (unlines cr lf (blockLines s hs) ++ tail) []
      (s.line :: (hs.headers.map headerLine ++ [] :: ls)) r := by
  have hjoin : blockLines s hs ++ ls = s.line :: (hs.headers.map headerLine ++ [] :: ls) := by
    unfold blockLines
    rw [List.cons_append, List.append_assoc]
    rfl
  rw [← hjoin]
  refine ⟨?_, fun l hl => ?_, htail.rest⟩
  · rw [← htail.join, List.nil_append, List.nil_append, unlines_append, List.append_assoc]
  · rcases List.mem_append.mp hl with hl | hl
    · exact blockLines_free hl
    · exact htail.lines l hl

/-- The builder behind the header block. -/
def behindBlock (buf : Buffer) (s : ResponseStatus) (hs : ResponseHeaders) (ls : List (List UInt8)) :
    HttpResponseBuilder :=
  .headed buf s.line (hs.headers.map headerLine) ls s.code

theorem parse_of_block {buf : Buffer} {tail r : List UInt8} {ls : List (List UInt8)}
    (hbuf : Holds buf (unlines cr lf (blockLines s hs) ++ tail)) (htail : Splits tail [] ls r) :
    (HttpResponseBuilder.initial buf).parse = (behindBlock buf s hs ls).bodyLine :=
  HttpResponseBuilder.parse_of_headers hbuf (splits_block s hs htail) s.stoi_eq
    fun _ hline => hs.line_ne_nil hline

/-- A header block that is cut short is read beyond its end. -/
theorem parse_of_cut {buf : Buffer} {bytes : List UInt8} (hbuf : Holds buf bytes)
    (hcut : bytes <+: unlines cr lf (blockLines s hs)) (hne : bytes ≠ unlines cr lf (blockLines s hs)) :
    (HttpResponseBuilder.initial buf).parse = .error .nullCrlf := by
  have hfree : ∀ l ∈ blockLines s hs, PairFree cr lf l := fun l hl => blockLines_free hl
  obtain ⟨ms, r, hms, hshort, hjoin, hr⟩ := exists_lines_of_isPrefix cr_ne_lf hfree hcut hne
  have hsplits : Splits bytes [] ms r :=
    ⟨hjoin.symm, fun l hl => hfree l (hms.subset hl), hr⟩
  cases ms with
  | nil => exact HttpResponseBuilder.parse_of_no_line hbuf hsplits
  | cons l ms =>
    obtain ⟨rfl, htail⟩ := List.cons_prefix_cons.mp hms
    -- The empty line is the last one.
    have hhdrs : ms <+: hs.headers.map headerLine :=
      (List.prefix_concat_iff.mp htail).resolve_left fun heq => hshort (congrArg _ heq)
    refine HttpResponseBuilder.parse_of_no_end hbuf hsplits s.stoi_eq fun hnil => ?_
    exact hs.line_ne_nil (hhdrs.subset hnil) rfl

section

variable (s : ResponseStatus) (hs : ResponseHeaders) (buf : Buffer) (ls : List (List UInt8))

theorem headers_behindBlock : (behindBlock buf s hs ls).headers = hs.headers := hs.headersOf_eq

theorem version_behindBlock : (behindBlock buf s hs ls).version = versionFromString s.version :=
  congrArg versionFromString s.version_eq

/-- It stands at the empty line. -/
theorem readNumber_behindBlock :
    (behindBlock buf s hs ls).readNumber + 2 = (unlines cr lf (blockLines s hs)).length := by
  show (unlines cr lf (s.line :: hs.headers.map headerLine)).length + 2 = _
  unfold blockLines
  rw [unlines_cons, unlines_cons, unlines_append]
  simp only [List.length_append, List.length_cons, unlines_cons, unlines_nil, List.length_nil]
  omega

end

end Hulatang
