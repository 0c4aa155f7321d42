import Hulatang.Http.HttpRequest
import Hulatang.Http.Rendered
import Hulatang.Lib.Fallible

/-!
# A raw header line

`addHeader(start, colon, end)` takes the name up to the colon, and the value from the first byte behind it
that is not white space. It looks for the value's end backwards, and turns the reverse iterator that it finds
into a pointer with `&*end_`: this points at the last byte of the value, where a view ends before what its end
points at. So the value is stored without its last byte, and where there is none the view has the length `-1`,
as a `size_t`. No line is kept as it is (`not_keepsValue`).
-/

namespace Hulatang

/-- How `addHeader` ends that does not return. -/
inductive HeaderFault
  /-- A byte outside of the text is accessed. -/
  | outOfBounds
  /-- `std::length_error`, thrown by the assignment of a string. -/
  | lengthError
  deriving DecidableEq

/-- The byte at a place of the text. -/
def readAt (text : List UInt8) (i : ℕ) : Except HeaderFault UInt8 :=
  match text[i]? with
  | some c => .ok c
  | none => .error .outOfBounds

/-- `std::find_if_not` with `isSpace` over the `n` places from `first` on. -/
def findIfNot (text : List UInt8) : ℕ → ℕ → Except HeaderFault ℕ
  | 0, first => return first
  | n + 1, first => do
    let c ← readAt text first
    if isSpace c then findIfNot text n (first + 1) else return first

/-- `std::find_if_not` over the same places backwards. A reverse iterator is the place before which the byte
is that it stands for. -/
def rfindIfNot (text : List UInt8) (first : ℕ) : ℕ → Except HeaderFault ℕ
  | 0 => return first
  | n + 1 => do
    let c ← readAt text (first + n)
    if isSpace c then rfindIfNot text first n else return first + n + 1

/-- `headers[name]`, which adds an empty value where there is none. -/
def HeaderMap.subscript (headers : HeaderMap) (name : List UInt8) : HeaderMap := headers.emplace name []

namespace HttpRequest

/-- The `begin` and the size of the view `{begin, &*end_}`. -/
def headerValue (text : List UInt8) (colon stop : ℕ) : Except HeaderFault (ℕ × ℕ) := do
  let begin ← findIfNot text (stop - (colon + 1)) (colon + 1)
  let end_ ← rfindIfNot text begin (stop - begin)
  let _ ← readAt text (end_ - 1)
  return (begin, subSize (end_ - 1) begin)

/-- `addHeader(start, colon, end)`: what it leaves, and how it ends. -/
def addHeaderLine (r : HttpRequest) (text : List UInt8) (start colon stop : ℕ) :
    HttpRequest × Except HeaderFault Unit :=
  match headerValue text colon stop with
  | .error fault => (r, .error fault)
  | .ok (begin, size) =>
    let name := segment text start colon
    if maxSize < size then ({ r with headers := r.headers.subscript name }, .error .lengthError)
    else if text.length < begin + size then
      ({ r with headers := r.headers.subscript name }, .error .outOfBounds)
    else (r.addHeader name (segment text begin (begin + size)), .ok ())

/-- `getHeader`. -/
def getHeader (r : HttpRequest) (field : List UInt8) : List UInt8 := (r.headers.lookup field).getD []

/-- A header line, with white space around the value. -/
def headerText (name before v after : List UInt8) : List UInt8 := name ++ [58] ++ before ++ v ++ after

/-- The line is read within the text, its value is kept, and no other header changes. -/
def KeepsValue (r : HttpRequest) (name before v after : List UInt8) : Prop :=
  ∃ r', r.addHeaderLine (headerText name before v after) 0 name.length
      (headerText name before v after).length = (r', .ok ()) ∧
    r'.getHeader name = v ∧ ∀ other, other ≠ name → r'.headers.lookup other = r.headers.lookup other

/-- A value has no white space around it. -/
def Trimmed (v : List UInt8) : Prop :=
  (∀ c, v.head? = some c → isSpace c = false) ∧ ∀ c, v.getLast? = some c → isSpace c = false

end HttpRequest

/-! ## The two searches -/

variable {text pre mid ws rest : List UInt8} {c : UInt8}

theorem readAt_append (pre rest : List UInt8) (c : UInt8) : readAt (pre ++ c :: rest) pre.length = .ok c := by
  unfold readAt
  rw [List.getElem?_append_right (Nat.le_refl _), Nat.sub_self]
  rfl

/-- The search goes on behind white space, and stops at any other byte. -/
theorem findIfNot_space (hc : isSpace c = true) (n : ℕ) :
    findIfNot (pre ++ c :: rest) (n + 1) pre.length = findIfNot (pre ++ c :: rest) n (pre.length + 1) := by
  rw [findIfNot, readAt_append]
  exact if_pos hc

theorem findIfNot_stop (hc : isSpace c = false) (n : ℕ) :
    findIfNot (pre ++ c :: rest) (n + 1) pre.length = .ok pre.length := by
  rw [findIfNot, readAt_append]
  exact if_neg (by rw [hc]; exact Bool.false_ne_true)

theorem findIfNot_spaces (hws : ∀ c ∈ ws, isSpace c = true) (n : ℕ) :
    findIfNot (pre ++ (ws ++ rest)) (ws.length + n) pre.length =
      findIfNot (pre ++ (ws ++ rest)) n (pre.length + ws.length) := by
  induction ws generalizing pre with
  | nil => rw [List.length_nil, Nat.zero_add, Nat.add_zero]
  | cons c ws ih =>
    obtain ⟨hc, hws⟩ := List.forall_mem_cons.mp hws
    have hlength : (c :: ws).length + n = (ws.length + n) + 1 := by
      rw [List.length_cons]
      omega
    have hplace : pre.length + (c :: ws).length = (pre ++ [c]).length + ws.length := by
      rw [List.length_append, List.length_cons, List.length_singleton]
      omega
    have htext : pre ++ (c :: ws ++ rest) = pre ++ [c] ++ (ws ++ rest) := by
      rw [List.append_assoc, List.cons_append, List.singleton_append]
    rw [hlength, hplace, List.cons_append, findIfNot_space hc, ← List.cons_append, htext]
    have hmoved := @ih (pre ++ [c]) hws
    rwa [List.length_append, List.length_singleton] at hmoved ⊢

/-- It ends at the first byte that is not white space, or at the end of the text. -/
theorem findIfNot_eq (hws : ∀ c ∈ ws, isSpace c = true)
    (hrest : ∀ c, rest.head? = some c → isSpace c = false) :
    findIfNot (pre ++ (ws ++ rest)) (ws.length + rest.length) pre.length = .ok (pre.length + ws.length) := by
  rw [findIfNot_spaces hws]
  cases rest with
  | nil => rfl
  | cons c rest =>
    rw [← List.append_assoc, ← List.length_append, List.length_cons]
    exact findIfNot_stop (hrest c rfl) rest.length

/-- So does the search backwards. -/
theorem rfindIfNot_space {first n : ℕ} (hfirst : first + n = pre.length) (hc : isSpace c = true) :
    rfindIfNot (pre ++ c :: rest) first (n + 1) = rfindIfNot (pre ++ c :: rest) first n := by
  rw [rfindIfNot, hfirst, readAt_append]
  exact if_pos hc

theorem rfindIfNot_stop {first n : ℕ} (hfirst : first + n = pre.length) (hc : isSpace c = false) :
    rfindIfNot (pre ++ c :: rest) first (n + 1) = .ok (first + n + 1) := by
  rw [rfindIfNot, hfirst, readAt_append]
  exact if_neg (by rw [hc]; exact Bool.false_ne_true)

theorem rfindIfNot_spaces {first n : ℕ} (hfirst : first + n = pre.length) (hws : ∀ c ∈ ws, isSpace c = true) :
    rfindIfNot (pre ++ ws ++ rest) first (n + ws.length) = rfindIfNot (pre ++ ws ++ rest) first n := by
  induction ws using List.reverseRecOn generalizing rest with
  | nil => rfl
  | append_singleton ws c ih =>
    obtain ⟨hws, hc⟩ := List.forall_mem_append.mp hws
    have htext : pre ++ (ws ++ [c]) ++ rest = pre ++ ws ++ c :: rest := by
      simp only [List.append_assoc, List.singleton_append]
    have hplace : first + (n + ws.length) = (pre ++ ws).length := by
      rw [List.length_append]
      omega
    rw [htext, List.length_append, List.length_singleton, ← Nat.add_assoc,
      rfindIfNot_space hplace (hc c List.mem_cons_self), ih hws]

/-! ## What is stored -/

namespace HttpRequest

variable {r : HttpRequest} {name before v after : List UInt8}

theorem length_headerText : (headerText name before v after).length =
    name.length + 1 + before.length + v.length + after.length := by
  unfold headerText
  simp only [List.length_append, List.length_singleton]

theorem segment_name : segment (headerText name before v after) 0 name.length = name := by
  have hmiddle := segment_middle [] name ([58] ++ before ++ v ++ after)
  rw [List.nil_append, List.length_nil, Nat.zero_add] at hmiddle
  unfold headerText
  simp only [List.append_assoc] at hmiddle ⊢
  exact hmiddle

/-- The value begins behind the white space. -/
theorem findIfNot_headerText (hbefore : ∀ c ∈ before, isSpace c = true)
    (hhead : ∀ c, (v ++ after).head? = some c → isSpace c = false) :
    findIfNot (headerText name before v after) ((headerText name before v after).length - (name.length + 1))
        (name.length + 1) = .ok (name.length + 1 + before.length) := by
  have hpre : (name ++ [58]).length = name.length + 1 := List.length_append
  have htext : headerText name before v after = name ++ [58] ++ (before ++ (v ++ after)) := by
    unfold headerText
    simp only [List.append_assoc]
  have hcount : (headerText name before v after).length - (name.length + 1) =
      before.length + (v ++ after).length := by
    rw [length_headerText, List.length_append]
    omega
  rw [hcount, htext, ← hpre]
  exact findIfNot_eq hbefore hhead

/-- With a value, the view ends at the value's last byte. -/
theorem headerValue_concat {init : List UInt8} {d : UInt8} (hbefore : ∀ c ∈ before, isSpace c = true)
    (hafter : ∀ c ∈ after, isSpace c = true) (hv : Trimmed (init ++ [d]))
    (hlength : (headerText name before (init ++ [d]) after).length ≤ maxSize) :
    headerValue (headerText name before (init ++ [d]) after) name.length
        (headerText name before (init ++ [d]) after).length =
      .ok (name.length + 1 + before.length, init.length) := by
  have hhead : ∀ c, (init ++ [d] ++ after).head? = some c → isSpace c = false := by
    intro c hc
    refine hv.1 c ?_
    rwa [List.head?_append_of_ne_nil _ (by simp)] at hc
  have hd : isSpace d = false := hv.2 d List.getLast?_concat
  have htext : headerText name before (init ++ [d]) after = name ++ [58] ++ before ++ init ++ d :: after := by
    unfold headerText
    simp only [List.append_assoc, List.singleton_append]
  have hpre : name.length + 1 + before.length + init.length = (name ++ [58] ++ before ++ init).length := by
    simp only [List.length_append, List.length_singleton]
  have hsize : (headerText name before (init ++ [d]) after).length =
      name.length + 1 + before.length + (init.length + 1) + after.length := by
    rw [length_headerText, List.length_append, List.length_singleton]
  have hend : rfindIfNot (headerText name before (init ++ [d]) after) (name.length + 1 + before.length)
      ((headerText name before (init ++ [d]) after).length - (name.length + 1 + before.length)) =
      .ok (name.length + 1 + before.length + init.length + 1) := by
    have hcount : (headerText name before (init ++ [d]) after).length - (name.length + 1 + before.length) =
        init.length + 1 + after.length := by omega
    have hspaces := @rfindIfNot_spaces (name ++ [58] ++ before ++ init ++ [d]) after []
      (name.length + 1 + before.length) (init.length + 1)
      (by rw [List.length_append, ← hpre, List.length_singleton, Nat.add_assoc _ init.length]) hafter
    rw [List.append_nil, List.append_assoc, List.singleton_append, ← htext] at hspaces
    rw [hcount, hspaces, htext]
    exact rfindIfNot_stop hpre hd
  have hlast : readAt (headerText name before (init ++ [d]) after)
      (name.length + 1 + before.length + init.length) = .ok d := by
    rw [htext, hpre]
    exact readAt_append ..
  -- The end that is subtracted from is the address of the last byte, which the length leaves out.
  have hdiff : subSize (name.length + 1 + before.length + init.length) (name.length + 1 + before.length) =
      init.length := by
    unfold maxSize at hlength
    rw [subSize_eq (Nat.le_add_right ..) (by omega), Nat.add_sub_cancel_left]
  unfold headerValue
  rw [bind_of_eq_ok (findIfNot_headerText hbefore hhead), bind_of_eq_ok hend]
  refine (bind_of_eq_ok hlast _).trans ?_
  change Except.ok (_, subSize (name.length + 1 + before.length + init.length) _) = _
  rw [hdiff]

/-- Without one, it ends before it begins. -/
theorem headerValue_nil (hbefore : ∀ c ∈ before, isSpace c = true)
    (hlength : (headerText name before [] []).length ≤ maxSize) :
    headerValue (headerText name before [] []) name.length (headerText name before [] []).length =
      .ok (name.length + 1 + before.length, 2^64 - 1) := by
  have hsize : (headerText name before [] []).length = name.length + 1 + before.length := length_headerText
  have hfirst := @findIfNot_headerText name before [] [] hbefore (fun c hc => by cases hc)
  have hlast : ∃ c, readAt (headerText name before [] []) (name.length + 1 + before.length - 1) = .ok c := by
    have hlt : name.length + 1 + before.length - 1 < (headerText name before [] []).length := by omega
    refine ⟨(headerText name before [] []).get ⟨_, hlt⟩, ?_⟩
    unfold readAt
    rw [List.getElem?_eq_getElem hlt]
    rfl
  have hdiff : subSize (name.length + 1 + before.length - 1) (name.length + 1 + before.length) =
      2^64 - 1 := by
    unfold subSize maxSize at *
    omega
  obtain ⟨c, hc⟩ := hlast
  unfold headerValue
  rw [bind_of_eq_ok hfirst, hsize, Nat.sub_self]
  refine (bind_of_eq_ok rfl _).trans ((bind_of_eq_ok hc _).trans ?_)
  change Except.ok (_, subSize (name.length + 1 + before.length - 1) _) = _
  rw [hdiff]

/-- The value is stored without its last byte. -/
theorem addHeaderLine_concat {init : List UInt8} {d : UInt8} (hbefore : ∀ c ∈ before, isSpace c = true)
    (hafter : ∀ c ∈ after, isSpace c = true) (hv : Trimmed (init ++ [d]))
    (hlength : (headerText name before (init ++ [d]) after).length ≤ maxSize) :
    r.addHeaderLine (headerText name before (init ++ [d]) after) 0 name.length
        (headerText name before (init ++ [d]) after).length =
      (r.addHeader name init, .ok ()) := by
  have hsize := @length_headerText name before (init ++ [d]) after
  rw [List.length_append, List.length_singleton] at hsize
  have hvalue : segment (headerText name before (init ++ [d]) after) (name.length + 1 + before.length)
      (name.length + 1 + before.length + init.length) = init := by
    have hmiddle := segment_middle (name ++ [58] ++ before) init ([d] ++ after)
    have hpre : (name ++ [58] ++ before).length = name.length + 1 + before.length := by
      simp only [List.length_append, List.length_singleton]
    rw [hpre] at hmiddle
    unfold headerText
    simp only [List.append_assoc] at hmiddle ⊢
    exact hmiddle
  unfold addHeaderLine
  rw [headerValue_concat hbefore hafter hv hlength]
  dsimp only
  rw [if_neg (by omega), if_neg (by omega), segment_name, hvalue]

/-- The assignment of an empty value throws. -/
theorem addHeaderLine_nil (hbefore : ∀ c ∈ before, isSpace c = true)
    (hlength : (headerText name before [] []).length ≤ maxSize) :
    r.addHeaderLine (headerText name before [] []) 0 name.length (headerText name before [] []).length =
      ({ r with headers := r.headers.subscript name }, .error .lengthError) := by
  unfold addHeaderLine
  rw [headerValue_nil hbefore hlength]
  dsimp only
  rw [if_pos (by decide), segment_name]

/-- A header is found under its name, and the others as before. -/
theorem lookup_assign (headers : HeaderMap) (name value other : List UInt8) :
    (headers.assign name value).lookup other = if other = name then some value else headers.lookup other := by
  have hmap : ∀ hs : HeaderMap, (hs.map fun h => if h.1 = name then (name, value) else h).lookup other =
      if other = name then if name ∈ hs.map Prod.fst then some value else none else hs.lookup other := by
    intro hs
    induction hs with
    | nil => simp
    | cons h hs ih =>
      obtain ⟨n, v⟩ := h
      have hfirst : ∀ (value : List UInt8) (hs : HeaderMap),
          ((n, value) :: hs).lookup other = if other = n then some value else hs.lookup other := by
        intro value hs
        by_cases hother : other = n
        · rw [hother, List.lookup_cons_self, if_pos rfl]
        · rw [List.lookup_cons, beq_false_of_ne hother, if_neg hother]
      by_cases hn : n = name
      · subst hn
        rw [List.map_cons, if_pos rfl, hfirst, hfirst, ih]
        by_cases hother : other = n
        · simp [hother]
        · simp [hother]
      · rw [List.map_cons, if_neg hn, hfirst, hfirst, ih]
        by_cases hother : other = name
        · have hne : name ≠ n := Ne.symm hn
          have hmem : name ∈ List.map Prod.fst ((n, v) :: hs) ↔ name ∈ hs.map Prod.fst :=
            List.mem_cons.trans (or_iff_right hne)
          simp only [hother, hne, hmem, if_true, if_false]
        · simp [hother]
  unfold HeaderMap.assign
  split_ifs with hmem hother hother
  · rw [hmap, if_pos hother, if_pos hmem]
  · rw [hmap, if_neg hother]
  · -- A name that is not there is added at the end.
    have habsent : headers.lookup name = none := by
      rw [← Option.not_isSome_iff_eq_none, HttpResponseBuilder.isSome_lookup_iff]
      exact hmem
    rw [hother, List.lookup_append, habsent, List.lookup_cons, beq_self_eq_true]
    rfl
  · rw [List.lookup_append, List.lookup_cons, beq_false_of_ne hother]
    exact Option.or_none

theorem getHeader_addHeader (r : HttpRequest) (name value : List UInt8) :
    (r.addHeader name value).getHeader name = value := by
  unfold getHeader addHeader
  rw [lookup_assign, if_pos rfl]
  rfl

/-- No line is kept as it is. -/
theorem not_keepsValue (r : HttpRequest) (name before v after : List UInt8)
    (hbefore : ∀ c ∈ before, isSpace c = true) (hafter : ∀ c ∈ after, isSpace c = true) (hv : Trimmed v)
    (hlength : (headerText name before v after).length ≤ maxSize) : ¬ r.KeepsValue name before v after := by
  rintro ⟨r', hadd, hget, -⟩
  rcases List.eq_nil_or_concat' v with rfl | ⟨init, d, rfl⟩
  · -- All of the white space is on one side of nothing.
    have htext : headerText name before [] after = headerText name (before ++ after) [] [] := by
      unfold headerText
      simp only [List.append_assoc, List.append_nil]
    rw [htext] at hadd hlength
    have hfault := @addHeaderLine_nil r _ _ (List.forall_mem_append.mpr ⟨hbefore, hafter⟩) hlength
    cases hadd.symm.trans hfault
  · rw [addHeaderLine_concat hbefore hafter hv hlength] at hadd
    cases hadd
    rw [getHeader_addHeader] at hget
    have heq := congrArg List.length hget
    rw [List.length_append, List.length_singleton] at heq
    omega

/-- A value between blanks, which loses its last byte. -/
theorem not_keepsValue_text : ¬ KeepsValue {} (bytesOf "Accept") [32] (bytesOf "*/*") [13] := by
  have htrimmed : Trimmed (bytesOf "*/*") := by
    refine ⟨fun c hc => ?_, fun c hc => ?_⟩ <;> cases hc <;> decide
  have hlength : (headerText (bytesOf "Accept") [32] (bytesOf "*/*") [13]).length ≤ 12 := by decide
  have hmax : 12 ≤ maxSize := by decide
  exact not_keepsValue {} (bytesOf "Accept") [32] (bytesOf "*/*") [13] (List.forall_mem_singleton.mpr rfl)
    (List.forall_mem_singleton.mpr rfl) htrimmed (hlength.trans hmax)

/-- Of `Host: ab` the request keeps `a`. -/
theorem loses_last_byte :
    ¬ ∀ (r : HttpRequest) (name before v after : List UInt8), (∀ c ∈ before, isSpace c = true) →
      (∀ c ∈ after, isSpace c = true) → Trimmed v → r.KeepsValue name before v after := by
  intro h
  have htrimmed : Trimmed (bytesOf "ab") := by
    refine ⟨fun c hc => ?_, fun c hc => ?_⟩ <;> cases hc <;> decide
  obtain ⟨r', hadd, hget, -⟩ :=
    h {} (bytesOf "Host") [32] (bytesOf "ab") [] (List.forall_mem_singleton.mpr rfl)
    (List.forall_mem_nil _) htrimmed
  cases hadd
  exact absurd hget (by decide)

end HttpRequest

end Hulatang
