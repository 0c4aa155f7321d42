import Mathlib.Data.List.TakeWhile
import Hulatang.Http.ResponseLines

/-!
# The builder on hostile bytes

`buildFromBuffer` on arbitrary bytes. It returns, and no sum in a test of lengths wraps around, exactly
for the bytes in `SafeInput`: the header block is there up to its empty line, the status and the lengths
are numbers that `std::stoi` and `std::stoul` take, and no length is so large that its sum wraps around.
The builder checks none of this. Where it waits for a chunk, what stands behind is not looked at.
-/

namespace Hulatang

/-- `buildFromBuffer` returns a response or an error condition, and no sum of a length has wrapped
around. -/
def Survives (buf : Buffer) : Prop :=
  (∃ x, buildFromBuffer buf = .ok x) ∧
    ∀ b, (HttpResponseBuilder.initial buf).parse = .ok b → b.wrapped = false

/-- `n` bytes are readable, and a length is compared behind `p` of them. -/
def SafeLength (p : ℕ) : Except NumberError ℕ → Prop
  | .ok len => p + len + 2 < 2^64
  | .error _ => False

/-- The lines of chunks, `p` bytes behind the beginning of `n` readable ones: every size that the loop
comes to is safe. -/
def SafeChunks (n : ℕ) : ℕ → List (List UInt8) → Prop
  | p, size :: chunk :: ls =>
    match stoul 16 size with
    | .ok len =>
      len = 0 ∨ p + size.length + 2 + len + 2 < 2^64 ∧
        (n < p + size.length + 2 + len + 2 ∨ SafeChunks n (p + size.length + 2 + chunk.length + 2) ls)
    | .error _ => False
  | _, _ => True

/-- The lines of a body, behind the empty line at the place `p`. -/
def SafeBody (n p : ℕ) (headers : HeaderMap) (ls : List (List UInt8)) : Prop :=
  if headers.lookup (bytesOf "Transfer-Encoding") = some (bytesOf "chunked") then SafeChunks n (p + 2) ls
  else
    match headers.lookup (bytesOf "Content-Length") with
    | some value => SafeLength p (stoul 10 value)
    | none => True

/-- The lines of `n` bytes. -/
def SafeLines (n : ℕ) : List (List UInt8) → Prop
  | [] => False
  | line :: ls =>
    (∃ status, stoi (HttpResponseBuilder.statusToken line) = .ok status) ∧ [] ∈ ls ∧
      SafeBody n (unlines cr lf (line :: ls.takeWhile (· ≠ []))).length
        (HttpResponseBuilder.headersOf (ls.takeWhile (· ≠ []))) (ls.dropWhile (· ≠ [])).tail

/-- The bytes that the builder survives. -/
def SafeInput (bytes : List UInt8) : Prop := SafeLines bytes.length (lines cr lf bytes).1

namespace HttpResponseBuilder

variable {b : HttpResponseBuilder} {buf : Buffer} {bytes read l r : List UInt8} {ls : List (List UInt8)}
  {fuel : ℕ}

/-- A function of the builder returns, and no sum has wrapped around. -/
def Fine (x : Except HttpFault HttpResponseBuilder) : Prop := ∃ b, x = .ok b ∧ b.wrapped = false

theorem fine_ok (h : b.wrapped = false) : Fine (.ok b) := ⟨b, rfl, h⟩

theorem not_fine_error (fault : HttpFault) : ¬ Fine (.error fault) := by
  rintro ⟨b, h, -⟩
  cases h

theorem survives_iff_fine : Survives buf ↔ Fine (initial buf).parse := by
  unfold Survives buildFromBuffer
  constructor
  · rintro ⟨⟨x, hx⟩, hwrapped⟩
    cases hparse : (initial buf).parse with
    | error fault =>
      rw [hparse] at hx
      cases hx
    | ok b => exact fine_ok (hwrapped b hparse)
  · rintro ⟨b, hparse, hwrapped⟩
    rw [hparse]
    refine ⟨⟨_, rfl⟩, fun b' hb' => ?_⟩
    cases hb'
    exact hwrapped

/-- The loop over the chunks. Every turn reads two lines, of which the second decides nothing but the
place. -/
theorem fine_transferLoop_iff (h : Stands b bytes read (l :: ls) r) (hwrapped : b.wrapped = false)
    (hfuel : ls.length < fuel) :
    Fine (transferLoop fuel b) ↔ SafeChunks bytes.length (read ++ l ++ [cr, lf]).length ls := by
  induction fuel generalizing b read l ls with
  | zero => exact absurd hfuel (Nat.not_lt_zero _)
  | succ fuel ih =>
    match ls with
    | [] =>
      rw [h.transferLoop_nil]
      exact iff_of_true (fine_ok hwrapped) trivial
    | [size] =>
      rw [h.transferLoop_size]
      exact iff_of_true (fine_ok hwrapped) trivial
    | size :: chunk :: ls =>
      unfold SafeChunks
      rw [← length_line (read ++ l ++ [cr, lf]) size]
      cases hsize : stoul 16 size with
      | error e =>
        rw [h.transferLoop_error hsize]
        exact iff_of_false (not_fine_error _) id
      | ok len =>
        dsimp only
        by_cases hlen : len = 0
        · refine iff_of_true ?_ (.inl hlen)
          rw [hlen] at hsize
          by_cases hls : ls = []
          · subst hls
            rw [h.transferLoop_last_nil hsize]
            exact fine_ok hwrapped
          · obtain ⟨buf, -, hdone⟩ := h.transferLoop_last hls hsize fuel
            rw [hdone]
            exact fine_ok hwrapped
        · by_cases hsum : (read ++ l ++ [cr, lf] ++ size ++ [cr, lf]).length + len + 2 < 2^64
          case neg =>
            rw [h.transferLoop_wraps hsize (stoul_lt hsize) (Nat.le_of_not_lt hsum)]
            refine iff_of_false (not_fine_error _) ?_
            rintro (hzero | ⟨hfits, -⟩)
            · exact hlen hzero
            · exact hsum hfits
          by_cases hshort : bytes.length < (read ++ l ++ [cr, lf] ++ size ++ [cr, lf]).length + len + 2
          · rw [h.transferLoop_waits hsize hlen hsum hshort]
            exact iff_of_true (fine_ok hwrapped) (.inr ⟨hsum, .inl hshort⟩)
          · have hlong := Nat.le_of_not_lt hshort
            -- The chunk is there, so the loop goes on behind it.
            have hnext := h.sized.taken (Nat.le_of_succ_le (Nat.le_of_succ_le hlong))
            have hrest : ls.length < fuel := by
              simp only [List.length_cons] at hfuel
              omega
            rw [h.transferLoop_takes hsize hlen hlong, ih hnext hwrapped hrest, length_line _ chunk]
            constructor
            · exact fun hsafe => .inr ⟨hsum, .inr hsafe⟩
            · rintro (hzero | ⟨-, hlt | hsafe⟩)
              · exact absurd hzero hlen
              · exact absurd hlt hshort
              · exact hsafe

/-- What stands behind the headers. -/
theorem fine_bodyLine_iff (h : Stands b bytes read ([] :: ls) r) (hread : b.readNumber = read.length)
    (hwrapped : b.wrapped = false) :
    Fine b.bodyLine ↔ SafeBody bytes.length read.length b.headers ls := by
  unfold bodyLine SafeBody
  dsimp only
  split_ifs with hchunked
  · have hstands : Stands { b with code := .WaitForData } bytes read ([] :: ls) r :=
      ⟨h.holds, h.splits, h.crlf, h.data, h.within⟩
    have hfuel : ls.length < b.buf.readableBytes + 1 := by
      have hle := h.splits.length_lines_le
      rw [List.length_cons] at hle
      rw [h.holds.readableBytes_eq]
      omega
    have hloop := fine_transferLoop_iff hstands hwrapped hfuel
    rw [length_line, List.length_nil, Nat.add_zero] at hloop
    exact hloop
  · cases hlookup : b.headers.lookup (bytesOf "Content-Length") with
    | none => exact iff_of_true (fine_ok hwrapped) trivial
    | some value =>
      dsimp only
      cases hlen : stoul 10 value with
      | error e => exact iff_of_false (not_fine_error _) id
      | ok len =>
        have hholds : Holds { b with code := .Body }.buf bytes := h.holds
        -- The line break of the empty line is still to be read.
        have hbehind : b.readNumber + 2 ≤ bytes.length := by
          have hle := h.splits.next.read_le
          rw [length_line, List.length_nil] at hle
          omega
        rw [convert_ok, ok_bind, ← hread]
        show _ ↔ b.readNumber + len + 2 < 2^64
        by_cases hsum : b.readNumber + len + 2 < 2^64
        · refine iff_of_true ?_ hsum
          by_cases hshort : bytes.length < b.readNumber + len + 2
          · rw [contentLength_waits hholds hsum hshort]
            exact fine_ok hwrapped
          · obtain ⟨buf, -, hdone⟩ := contentLength_takes hholds (Nat.le_of_not_lt hshort)
            rw [hdone]
            exact fine_ok hwrapped
        · rw [contentLength_wraps hholds hbehind (stoul_lt hlen) (Nat.le_of_not_lt hsum)]
          exact iff_of_false (not_fine_error _) hsum

theorem fine_parse_iff (hbuf : Holds buf bytes) (h : Splits bytes [] ls r) :
    Fine (initial buf).parse ↔ SafeLines bytes.length ls := by
  cases ls with
  | nil =>
    rw [parse_of_no_line hbuf h]
    exact iff_of_false (not_fine_error _) id
  | cons line ls =>
    unfold SafeLines
    cases hstatus : stoi (statusToken line) with
    | error e =>
      rw [parse_of_status_error hbuf h hstatus]
      refine iff_of_false (not_fine_error _) ?_
      rintro ⟨⟨status, hok⟩, -⟩
      rw [hstatus] at hok
      cases hok
    | ok status =>
      by_cases hend : [] ∈ ls
      · have hsplit := takeWhile_append_tail hend
        have hhdrs : ∀ l ∈ ls.takeWhile (· ≠ []), l ≠ [] := by
          intro l hl
          have hne := List.mem_takeWhile_imp hl
          exact of_decide_eq_true hne
        rw [← hsplit] at h
        have hbody := fine_bodyLine_iff (stands_headed status hbuf h) rfl rfl
        rw [parse_of_headers hbuf h hstatus hhdrs, hbody]
        exact ⟨fun hsafe => ⟨⟨status, hstatus⟩, hend, hsafe⟩, fun hsafe => hsafe.2.2⟩
      · rw [parse_of_no_end hbuf h hstatus hend]
        exact iff_of_false (not_fine_error _) fun hsafe => hend hsafe.2.1

end HttpResponseBuilder

/-- `buildFromBuffer` survives exactly the safe bytes. -/
theorem survives_iff_safeInput {buf : Buffer} {bytes : List UInt8} (hbuf : Holds buf bytes) :
    Survives buf ↔ SafeInput bytes := by
  rw [HttpResponseBuilder.survives_iff_fine]
  exact HttpResponseBuilder.fine_parse_iff hbuf (splits_lines bytes)

/-- A response whose length is 4 bytes longer than what is there is waited for. -/
theorem survives_iff_safeInput_incomplete :
    Survives (bufferOf (bytesOf "HTTP/1.1 200 OK\r\nContent-Length: 4\r\n\r\n")) ↔
      SafeInput (bytesOf "HTTP/1.1 200 OK\r\nContent-Length: 4\r\n\r\n") :=
  survives_iff_safeInput (holds_bufferOf (by decide +kernel))

/-- A header block without its empty line is not survived. -/
theorem not_survives_of_no_end :
    ¬ ∀ (buf : Buffer) (bytes : List UInt8), Holds buf bytes → Survives buf := by
  intro h
  have hbuf : Holds (bufferOf (bytesOf "HTTP/1.1 200 OK\r\n")) (bytesOf "HTTP/1.1 200 OK\r\n") :=
    holds_bufferOf (by decide +kernel)
  obtain ⟨⟨x, hx⟩, -⟩ := h _ _ hbuf
  have hfault : buildFromBuffer (bufferOf (bytesOf "HTTP/1.1 200 OK\r\n")) = .error .nullCrlf := by
    decide +kernel
  rw [hfault] at hx
  cases hx

end Hulatang
