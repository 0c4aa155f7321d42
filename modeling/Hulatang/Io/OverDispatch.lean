import Mathlib.Data.List.Infix
import Hulatang.Io.OverLists
import Hulatang.Lib.Fallible

/-!
# Completions on the two lists

What is handled on the IOCP loop, from the lists before to the lists after. A call that is made while nodes
are in nobody's list (`Handled`) appends to the pending list what it posts, each node once, and leaves every
other node as it was; such calls compose (`Handled.trans`). The handlers of `WSProactor` are such calls, on
the node that they are given, and so are the callbacks, on no node, however deep they re-enter. The loop of
`handleEvent` follows, since nothing that is called changes the part of the ready list that is still to come.
-/

namespace Hulatang

/-- Whether it is an operation: what posts and completes. -/
def OverType.IsRequest (type : OverType) : Prop := type = .NONE ∨ type = .READ ∨ type = .WRITE

namespace OverLists

variable {s t u : OverLists} {P R F H H' D D' A A' : List ℕ} {x wsOver : ℕ} {o : StreamOverlapped} {f : Func}

/-- The `next` of each node. -/
def link (s : OverLists) (a : ℕ) : Option (Option ℕ) := (s.heap.cells a).map StreamOverlapped.next

/-- The node is an operation. -/
def IsRequest (s : OverLists) (a : ℕ) : Prop := ∃ o, s.heap.cells a = some o ∧ o.type.IsRequest

/-- The pending list, while the ready list is with `handleEvent` or empty. -/
structure Pending (s : OverLists) (P : List ℕ) : Prop where
  overPtr : Path s.link s.overPtr P none
  rover : s.rover = none
  requests : ∀ a ∈ P, s.IsRequest a

/-- A call with the nodes `H` at hand handles the nodes `D` and adds the nodes `A` to the pending list `P`:
nodes at hand, or new ones. It may queue the `delete` of nodes at hand that it does not add. -/
structure Handled (s t : OverLists) (H D P A : List ℕ) : Prop where
  pending : Pending t (P ++ A)
  frame : ∀ a, a ∉ P → a ∉ H → s.heap.cells a ≠ none → t.heap.cells a = s.heap.cells a
  fresh : ∀ a ∈ A, a ∈ H ∨ s.heap.cells a = none
  freeing : ∃ Q, t.freeing = s.freeing ++ Q ∧ Q.Sublist H ∧ ∀ a ∈ Q, a ∉ A ∧ t.heap.cells a ≠ none
  added : t.added = s.added ++ A
  dispatched : t.dispatched = s.dispatched ++ D
  updates : ∃ U, t.pushed = s.pushed ++ U ∧ t.updated = s.updated ++ U

/-! ## The heap -/

theorem deref_eq (ho : s.heap.cells wsOver = some o) : s.deref wsOver = .ok o := by
  unfold deref
  rw [ho]

theorem modify_eq (ho : s.heap.cells wsOver = some o) (g : StreamOverlapped → StreamOverlapped) :
    s.modify wsOver g = .ok { s with heap := s.heap.set wsOver (g o) } :=
  bind_of_eq_ok (deref_eq ho) _

theorem link_eq_some_iff {a : ℕ} {next : Option ℕ} :
    s.link a = some next ↔ ∃ o, s.heap.cells a = some o ∧ o.next = next :=
  Option.map_eq_some_iff

theorem link_congr {a : ℕ} (h : t.heap.cells a = s.heap.cells a) : t.link a = s.link a :=
  congrArg (Option.map StreamOverlapped.next) h

theorem link_set (ht : t.heap = s.heap.set wsOver o) :
    t.link = Function.update s.link wsOver (some o.next) := by
  funext a
  unfold link
  rw [ht]
  by_cases ha : a = wsOver
  · rw [ha, Function.update_self, Heap.set_self]
    rfl
  · rw [Function.update_of_ne ha, Heap.set_of_ne ha]

theorem link_set_same {o' : StreamOverlapped} (ht : t.heap = s.heap.set wsOver o')
    (ho : s.heap.cells wsOver = some o) (hnext : o'.next = o.next) : t.link = s.link := by
  rw [link_set ht, hnext, ← link_eq_some_iff.mpr ⟨o, ho, rfl⟩, Function.update_eq_self]

theorem IsRequest.ne_none {a : ℕ} (h : s.IsRequest a) : s.heap.cells a ≠ none := by
  obtain ⟨o, ho, -⟩ := h
  rw [ho]
  exact Option.some_ne_none o

theorem IsRequest.isRequest (h : s.IsRequest wsOver) (ho : s.heap.cells wsOver = some o) :
    o.type.IsRequest := by
  obtain ⟨o', ho', hrequest⟩ := h
  cases Option.some.inj (ho'.symm.trans ho)
  exact hrequest

theorem IsRequest.of_eq {a : ℕ} (h : s.IsRequest a) (heq : t.heap.cells a = s.heap.cells a) :
    t.IsRequest a := by
  obtain ⟨o, ho, hrequest⟩ := h
  exact ⟨o, heq.trans ho, hrequest⟩

/-- A node that stays an operation when it is assigned. -/
theorem IsRequest.set {a : ℕ} (h : s.IsRequest a) (ho : o.type.IsRequest) :
    IsRequest { s with heap := s.heap.set wsOver o } a := by
  by_cases ha : a = wsOver
  · subst ha
    exact ⟨o, Heap.set_self .., ho⟩
  · exact h.of_eq (Heap.set_of_ne ha)

theorem Pending.ne_none (h : Pending s P) {a : ℕ} (ha : a ∈ P) : s.heap.cells a ≠ none :=
  (h.requests a ha).ne_none

theorem Pending.length_le (h : Pending s P) : P.length ≤ s.heap.bound :=
  Heap.length_le_bound h.overPtr.nodup fun _ ha => h.ne_none ha

/-- An allocation takes no pending node. -/
theorem Pending.fresh_not_mem (h : Pending s P) (hint : ℕ) : s.heap.fresh hint ∉ P :=
  fun hmem => h.ne_none hmem (Heap.cells_fresh ..)

/-- A node that is not pending may be assigned, or released. -/
theorem Pending.of_update (h : Pending s P) {heap : Heap StreamOverlapped} (hx : x ∉ P)
    (hcells : ∀ a, a ≠ x → heap.cells a = s.heap.cells a) : Pending { s with heap := heap } P := by
  have hsame : ∀ a ∈ P, heap.cells a = s.heap.cells a := fun a ha => hcells a fun hax => hx (hax ▸ ha)
  refine ⟨h.overPtr.congr fun a ha => ?_, h.rover, fun a ha => (h.requests a ha).of_eq (hsame a ha)⟩
  exact link_congr (hsame a ha)

/-! ## Calls that follow each other -/

/-- A call that queues no `delete` and does not re-enter. -/
theorem Pending.handled (hpending : Pending t (P ++ A))
    (hframe : ∀ a, a ∉ P → a ∉ H → t.heap.cells a = s.heap.cells a) (hfresh : ∀ a ∈ A, a ∈ H)
    (hfreeing : t.freeing = s.freeing) (hadded : t.added = s.added ++ A)
    (hdispatched : t.dispatched = s.dispatched ++ D) (hpushed : t.pushed = s.pushed)
    (hupdated : t.updated = s.updated) : Handled s t H D P A where
  pending := hpending
  frame a hP ha _ := hframe a hP ha
  fresh a ha := .inl (hfresh a ha)
  freeing := by
    refine ⟨[], ?_, List.nil_sublist H, List.forall_mem_nil _⟩
    rw [hfreeing, List.append_nil]
  added := hadded
  dispatched := hdispatched
  updates := by
    refine ⟨[], ?_, ?_⟩
    · rw [hpushed, List.append_nil]
    · rw [hupdated, List.append_nil]

theorem Pending.refl (h : Pending s P) : Handled s s [] [] P [] := by
  have hpending : Pending s (P ++ []) := by
    rw [List.append_nil]
    exact h
  exact hpending.handled (fun _ _ _ => rfl) (List.forall_mem_nil _) rfl (List.append_nil _).symm
    (List.append_nil _).symm rfl rfl

/-- A node at hand may stay there. -/
theorem Handled.mono (h : Handled s t H D P A) (hH : H.Sublist H') : Handled s t H' D P A where
  pending := h.pending
  frame a hP ha := h.frame a hP fun hmem => ha (hH.subset hmem)
  fresh a ha := (h.fresh a ha).imp_left fun hmem => hH.subset hmem
  freeing := by
    obtain ⟨Q, hQ, hsub, hout⟩ := h.freeing
    exact ⟨Q, hQ, hsub.trans hH, hout⟩
  added := h.added
  dispatched := h.dispatched
  updates := h.updates

/-- What was there before is there after, except at hand. -/
theorem Handled.ne_none (h : Handled s t H D P A) {a : ℕ} (ha : a ∉ H) (hs : s.heap.cells a ≠ none) :
    t.heap.cells a ≠ none := by
  by_cases hP : a ∈ P
  · exact h.pending.ne_none (List.mem_append_left A hP)
  · rw [h.frame a hP ha hs]
    exact hs

/-- Two calls one after the other, on different nodes. -/
theorem Handled.trans (h : Handled s u H D P A) (h' : Handled u t H' D' (P ++ A) A')
    (hdisjoint : List.Disjoint H H') (hH' : ∀ a ∈ H', s.heap.cells a ≠ none) :
    Handled s t (H ++ H') (D ++ D') P (A ++ A') where
  pending := by
    rw [← List.append_assoc]
    exact h'.pending
  frame a haP ha hs := by
    obtain ⟨haH, haH'⟩ := not_or.mp (fun hmem => ha (List.mem_append.mpr hmem))
    have hsame := h.frame a haP haH hs
    have hA : a ∉ A := fun hmem => (h.fresh a hmem).elim haH hs
    have hPA : a ∉ P ++ A := fun hmem => (List.mem_append.mp hmem).elim haP hA
    calc t.heap.cells a = u.heap.cells a := h'.frame a hPA haH' (hsame ▸ hs)
      _ = s.heap.cells a := hsame
  fresh a ha := by
    rcases List.mem_append.mp ha with hA | hA'
    · exact (h.fresh a hA).imp_left fun hmem => List.mem_append_left H' hmem
    · rcases h'.fresh a hA' with hmem | hnone
      · exact .inl (List.mem_append_right H hmem)
      · -- The first call may have released it, but only from its hand.
        by_cases haH : a ∈ H
        · exact .inl (List.mem_append_left H' haH)
        · exact .inr (not_not.mp fun hs => h.ne_none haH hs hnone)
  freeing := by
    obtain ⟨Q, hQ, hsub, hout⟩ := h.freeing
    obtain ⟨Q', hQ', hsub', hout'⟩ := h'.freeing
    refine ⟨Q ++ Q', ?_, hsub.append hsub', List.forall_mem_append.mpr ⟨fun a ha => ?_, fun a ha => ?_⟩⟩
    · rw [hQ', hQ, List.append_assoc]
    · obtain ⟨hA, hu⟩ := hout a ha
      have haH' : a ∉ H' := fun hmem => hdisjoint (hsub.subset ha) hmem
      refine ⟨fun hmem => ?_, h'.ne_none haH' hu⟩
      rcases List.mem_append.mp hmem with hmem | hmem
      · exact hA hmem
      · exact (h'.fresh a hmem).elim haH' hu
    · obtain ⟨hA', ht⟩ := hout' a ha
      have haH' := hsub'.subset ha
      refine ⟨fun hmem => ?_, ht⟩
      rcases List.mem_append.mp hmem with hmem | hmem
      · rcases h.fresh a hmem with haH | hnone
        · exact hdisjoint haH haH'
        · exact hH' a haH' hnone
      · exact hA' hmem
  added := by rw [h'.added, h.added, List.append_assoc]
  dispatched := by rw [h'.dispatched, h.dispatched, List.append_assoc]
  updates := by
    obtain ⟨U, hp, hu⟩ := h.updates
    obtain ⟨U', hp', hu'⟩ := h'.updates
    exact ⟨U ++ U', by rw [hp', hp, List.append_assoc], by rw [hu', hu, List.append_assoc]⟩

/-- A call with nothing at hand, and then one. -/
theorem Handled.trans_left (h : Handled s u [] D P A) (h' : Handled u t H D' (P ++ A) A')
    (hH : ∀ a ∈ H, s.heap.cells a ≠ none) : Handled s t H (D ++ D') P (A ++ A') :=
  h.trans h' (List.disjoint_nil_left H) hH

/-- A call, and then one with nothing at hand. -/
theorem Handled.trans_right (h : Handled s u H D P A) (h' : Handled u t [] D' (P ++ A) A') :
    Handled s t H (D ++ D') P (A ++ A') := by
  have hboth := h.trans h' (List.disjoint_nil_right H) (List.forall_mem_nil _)
  rw [List.append_nil] at hboth
  exact hboth

/-! ## `addOver` -/

/-- The loop of `addOver` stops at the last node. -/
theorem lastOver_eq {xs : List ℕ} {last fuel : ℕ} (h : Path s.link (some wsOver) (xs ++ [last]) none)
    (hfuel : (xs ++ [last]).length ≤ fuel) : s.lastOver fuel wsOver = .ok last := by
  induction xs generalizing wsOver fuel with
  | nil =>
    obtain ⟨hover, next, hnext, hnull⟩ := h
    obtain ⟨o, ho, rfl⟩ := link_eq_some_iff.mp hnext
    cases Option.some.inj hover
    obtain ⟨fuel, rfl⟩ := Nat.exists_eq_add_of_lt hfuel
    unfold lastOver
    rw [bind_of_eq_ok (deref_eq ho), show o.next = none from hnull]
    rfl
  | cons a xs ih =>
    obtain ⟨hover, next, hnext, hrest⟩ := h
    obtain ⟨o, ho, rfl⟩ := link_eq_some_iff.mp hnext
    cases Option.some.inj hover
    obtain ⟨fuel, rfl⟩ := Nat.exists_eq_add_of_lt hfuel
    -- There is a node after this one.
    obtain ⟨b, hb⟩ : ∃ b, o.next = some b := by
      cases xs with
      | nil => exact ⟨last, hrest.1⟩
      | cons b xs => exact ⟨b, hrest.1⟩
    rw [hb] at hrest
    unfold lastOver
    rw [bind_of_eq_ok (deref_eq ho), hb]
    exact ih hrest (Nat.le_add_right _ fuel)

theorem addOver_of_some {first last : ℕ} (hfirst : s.overPtr = some first)
    (hwalk : s.lastOver s.heap.bound first = .ok last) :
    s.addOver x = s.modify last fun o => { o with next := some x } := by
  unfold addOver
  rw [hfirst]
  exact bind_of_eq_ok hwalk _

/-- `addOver` puts the node that is posted at the end of the pending list. -/
theorem Pending.addOver (h : Pending s P) (hx : s.heap.cells x = some o) (hnext : o.next = none)
    (ho : o.type.IsRequest) (hnot : x ∉ P) :
    ∃ t, (s.noted x).addOver x = .ok t ∧ Handled s t [x] [] P [x] ∧ t.heap.cells x = some o := by
  have hlink : s.link x = some none := link_eq_some_iff.mpr ⟨o, hx, hnext⟩
  have hrequest : s.IsRequest x := ⟨o, hx, ho⟩
  rcases P.eq_nil_or_concat' with rfl | ⟨xs, last, rfl⟩
  · have hover : s.overPtr = none := h.overPtr
    have hadd : (s.noted x).addOver x = .ok { s.noted x with overPtr := some x } := by
      unfold OverLists.addOver
      rw [show (s.noted x).overPtr = none from hover]
      rfl
    have hpending : Pending { s.noted x with overPtr := some x } ([] ++ [x]) :=
      ⟨⟨rfl, none, hlink, rfl⟩, h.rover, List.forall_mem_singleton.mpr hrequest⟩
    exact ⟨_, hadd,
      hpending.handled (fun _ _ _ => rfl) (fun _ ha => ha) rfl rfl (List.append_nil _).symm rfl rfl, hx⟩
  · obtain ⟨l, hl, hlrequest⟩ := h.requests last (List.mem_append_right xs List.mem_cons_self)
    have hxlast : x ≠ last := fun hsame => hnot (hsame ▸ List.mem_append_right xs List.mem_cons_self)
    obtain ⟨first, hfirst⟩ : ∃ first, s.overPtr = some first := by
      cases xs with
      | nil => exact ⟨last, h.overPtr.1⟩
      | cons a xs => exact ⟨a, h.overPtr.1⟩
    have hwalk : (s.noted x).lastOver s.heap.bound first = .ok last := by
      refine lastOver_eq ?_ h.length_le
      rw [← hfirst]
      exact h.overPtr
    have hadd : (s.noted x).addOver x =
        .ok { s.noted x with heap := s.heap.set last { l with next := some x } } :=
      (addOver_of_some (s := s.noted x) hfirst hwalk).trans (modify_eq (s := s.noted x) hl _)
    have hpending : Pending { s.noted x with heap := s.heap.set last { l with next := some x } }
        (xs ++ [last] ++ [x]) := by
      refine ⟨?_, h.rover, fun a ha => ?_⟩
      · rw [link_set (s := s.noted x) rfl]
        exact h.overPtr.concat hlink hnot
      · have hrequests : s.IsRequest a :=
          (List.mem_append.mp ha).elim (h.requests a) fun hmem => List.mem_singleton.mp hmem ▸ hrequest
        exact hrequests.set hlrequest
    have hframe : ∀ a, a ∉ xs ++ [last] → a ∉ [x] →
        (s.heap.set last { l with next := some x }).cells a = s.heap.cells a := fun a ha _ =>
      Heap.set_of_ne fun hsame => ha (hsame ▸ List.mem_append_right xs List.mem_cons_self)
    exact ⟨_, hadd, hpending.handled hframe (fun _ ha => ha) rfl rfl (List.append_nil _).symm rfl rfl,
      (Heap.set_of_ne hxlast).trans hx⟩

/-! ## Posts -/

/-- A call of callbacks: nothing is at hand. -/
def Keeps (f : Action) : Prop :=
  ∀ s P, Pending s P → ∃ t A, f s = .ok t ∧ Handled s t [] [] P A

/-- A call that is given a node at hand, and posts it again where `reposts` says so. -/
def Handles (f : Func) (reposts : StreamOverlapped → Prop) : Prop :=
  ∀ s P x o, Pending s P → s.heap.cells x = some o → o.next = none → x ∉ P →
    ∃ t A, f x s = .ok t ∧ Handled s t [x] [] P A ∧ (reposts o → x ∈ A)

/-- A call that puts the node at hand at the end of the pending list. -/
def Posts (f : Func) : Prop :=
  ∀ s P x o, Pending s P → s.heap.cells x = some o → o.next = none → x ∉ P →
    ∃ t A, f x s = .ok t ∧ Handled s t [x] [] P (x :: A)

theorem Posts.handles (h : Posts f) (reposts : StreamOverlapped → Prop) : Handles f reposts := by
  intro s P x o hpending hx hnext hnot
  obtain ⟨t, A, ht, hhandled⟩ := h s P x o hpending hx hnext hnot
  exact ⟨t, x :: A, ht, hhandled, fun _ => List.mem_cons_self⟩

/-- A node at hand may be assigned first. -/
theorem Handled.of_set (h : Handled { s with heap := s.heap.set x o } t [x] D P A) :
    Handled s t [x] D P A where
  pending := h.pending
  frame a hP ha hs := by
    have hset : (s.heap.set x o).cells a = s.heap.cells a :=
      Heap.set_of_ne fun hax => ha (List.mem_singleton.mpr hax)
    rw [← hset] at hs ⊢
    exact h.frame a hP ha hs
  fresh a ha := by
    rcases h.fresh a ha with hmem | hnone
    · exact .inl hmem
    · have hax : a ≠ x := by
        rintro rfl
        exact Option.some_ne_none o ((Heap.set_self ..).symm.trans hnone)
      exact .inr ((Heap.set_of_ne hax).symm.trans hnone)
  freeing := h.freeing
  added := h.added
  dispatched := h.dispatched
  updates := h.updates

/-- A pending node may be assigned, as long as its `next` stays. -/
theorem Pending.assign (h : Pending s P) {o o' : StreamOverlapped} (hx : s.heap.cells x = some o) (hP : x ∈ P)
    (hnext : o'.next = o.next) (ho : o'.type.IsRequest) :
    Handled s { s with heap := s.heap.set x o' } [] [] P [] := by
  have hpending : Pending { s with heap := s.heap.set x o' } (P ++ []) := by
    rw [List.append_nil]
    refine ⟨?_, h.rover, fun a ha => (h.requests a ha).set ho⟩
    rw [link_set_same rfl hx hnext]
    exact h.overPtr
  exact hpending.handled (fun a ha _ => Heap.set_of_ne fun hax => ha (hax ▸ hP)) (List.forall_mem_nil _) rfl
    (List.append_nil _).symm (List.append_nil _).symm rfl rfl

/-- What `postRecv` and `postSend` do to the lists. -/
theorem Pending.post (h : Pending s P) (hx : s.heap.cells x = some o) (hnext : o.next = none) (hnot : x ∉ P)
    {error : Action} (herror : Keeps error) (posted : Bool) {g : StreamOverlapped → StreamOverlapped}
    (hg : ∀ o, (g o).next = o.next ∧ (g o).type.IsRequest) :
    ∃ t A, (do
      let s ← s.modify x fun o => { o with type := .NONE }
      let s ← (s.noted x).addOver x
      if posted then s.modify x g else error s) = .ok t ∧ Handled s t [x] [] P (x :: A) := by
  have hassigned : Pending { s with heap := s.heap.set x { o with type := .NONE } } P :=
    h.of_update hnot fun a ha => Heap.set_of_ne ha
  obtain ⟨u, hadd, hhandled, hu⟩ := hassigned.addOver (Heap.set_self ..) hnext (.inl rfl) hnot
  have hposted := hhandled.of_set
  rw [bind_of_eq_ok (modify_eq hx _), bind_of_eq_ok hadd]
  cases posted with
  | true =>
    obtain ⟨hsame, hrequest⟩ := hg { o with type := .NONE }
    have hmem : x ∈ P ++ [x] := List.mem_append_right P List.mem_cons_self
    exact ⟨_, _, modify_eq hu g, hposted.trans_right (hposted.pending.assign hu hmem hsame hrequest)⟩
  | false =>
    obtain ⟨t, A, ht, hfailed⟩ := herror u (P ++ [x]) hposted.pending
    exact ⟨t, _, ht, hposted.trans_right hfailed⟩

theorem posts_postRecv {error : Action} (herror : Keeps error) (data : ℕ) (posted : Bool) :
    Posts (postRecv data posted error) := by
  intro s P x o h hx hnext hnot
  exact h.post hx hnext hnot herror posted fun _ => ⟨rfl, .inr (.inl rfl)⟩

theorem posts_postSend {error : Action} (herror : Keeps error) {size : ℕ} (hsize : size ≠ 0) (data : ℕ)
    (posted : Bool) : Posts (postSend size data posted error) := by
  intro s P x o h hx hnext hnot
  unfold postSend
  rw [if_neg hsize]
  exact h.post hx hnext hnot herror posted fun _ => ⟨rfl, .inr (.inr rfl)⟩

/-! ## Callbacks -/

/-- The search of `updatePost` returns. -/
theorem hasWrite_ok {p : Option ℕ} {xs : List ℕ} {fuel : ℕ} (h : Path s.link p xs none)
    (hfuel : xs.length ≤ fuel) (data : ℕ) : ∃ found, s.hasWrite data fuel p = .ok found := by
  induction xs generalizing p fuel with
  | nil =>
    cases h
    cases fuel <;> exact ⟨false, rfl⟩
  | cons a xs ih =>
    obtain ⟨rfl, next, hnext, hrest⟩ := h
    obtain ⟨o, ho, rfl⟩ := link_eq_some_iff.mp hnext
    obtain ⟨fuel, rfl⟩ := Nat.exists_eq_add_of_lt hfuel
    unfold hasWrite
    rw [bind_of_eq_ok (deref_eq ho)]
    split_ifs
    · exact ⟨true, rfl⟩
    · exact ih hrest (Nat.le_add_right _ fuel)

/-- A node that is allocated during a call, and posted, is a new one. -/
theorem Handled.of_new (h : Handled { s with heap := s.heap.set x o } t [x] D P A)
    (hx : s.heap.cells x = none) (hA : x ∈ A) : Handled s t [] D P A where
  pending := h.pending
  frame a hP _ hs := h.of_set.frame a hP (fun hmem => hs (List.mem_singleton.mp hmem ▸ hx)) hs
  fresh a ha := (h.of_set.fresh a ha).elim (fun hmem => .inr (List.mem_singleton.mp hmem ▸ hx)) .inr
  freeing := by
    obtain ⟨Q, hQ, hsub, hout⟩ := h.freeing
    have hnil : Q = [] := List.eq_nil_iff_forall_not_mem.mpr fun a ha =>
      (hout a ha).1 (List.mem_singleton.mp (hsub.subset ha) ▸ hA)
    subst hnil
    exact ⟨[], hQ, List.Sublist.refl _, List.forall_mem_nil _⟩
  added := h.added
  dispatched := h.dispatched
  updates := h.updates

/-- A new node is posted. -/
theorem Pending.new (h : Pending s P) (hf : Posts f) (hint : ℕ) :
    ∃ t A, f (s.heap.fresh hint) (s.new hint).2 = .ok t ∧ Handled s t [] [] P A := by
  have hnot := h.fresh_not_mem hint
  have hallocated : Pending (s.new hint).2 P := h.of_update hnot fun a ha => Heap.set_of_ne ha
  obtain ⟨t, A, ht, hposted⟩ := hf _ P _ {} hallocated (Heap.set_self ..) rfl hnot
  exact ⟨t, _, ht, hposted.of_new (Heap.cells_fresh ..) List.mem_cons_self⟩

theorem keeps_updatePost {error : Action} (herror : Keeps error) (call : UpdateCall) :
    Keeps (updatePost call error) := by
  intro s P h
  unfold updatePost
  split_ifs with hwriting hsize
  · exact ⟨s, [], rfl, h.refl⟩
  · obtain ⟨found, hfound⟩ := hasWrite_ok h.overPtr h.length_le call.data
    rw [bind_of_eq_ok hfound]
    split_ifs
    · exact ⟨s, [], rfl, h.refl⟩
    · obtain ⟨t, A, ht, hposted⟩ := h.new (posts_postSend herror hsize call.data call.posted) call.hint
      exact ⟨t, A, ht, hposted⟩
  · exact ⟨s, [], rfl, h.refl⟩

@[simp] theorem handleAll_none (func : ℕ → Func) (fuel wsOver : ℕ) (s : OverLists) :
    handleAll func fuel wsOver none s = func 0 wsOver s := by
  cases fuel <;> rfl

/-- `handleEvent` takes the ready list. -/
theorem handleEvent_eq {func : ℕ → Func} (hrover : s.rover = some wsOver)
    (ho : s.heap.cells wsOver = some o) :
    handleEvent func s = handleAll func s.heap.bound wsOver o.next { s with rover := none } := by
  cases s
  cases hrover
  exact bind_of_eq_ok (deref_eq ho) _

theorem func_update (handlers : Handlers) (ho : s.heap.cells wsOver = some o) (htype : o.type = .UPDATE) :
    func handlers wsOver s = handlers.updatePost { s with updated := s.updated ++ [wsOver] } := by
  unfold func
  rw [bind_of_eq_ok (deref_eq ho), htype]

/-- A state with an `UPDATE` on the stack, which is being handled. -/
def withUpdate (s : OverLists) (x : ℕ) : OverLists :=
  { s with
    heap := s.heap.set x { next := none, type := .UPDATE }
    rover := none
    pushed := s.pushed ++ [x]
    updated := s.updated ++ [x] }

/-- What is done while an `UPDATE` is on the stack. -/
theorem Handled.of_stack (h : Handled (s.withUpdate x) t [] D P A) (hx : s.heap.cells x = none) (hP : x ∉ P) :
    Handled s { t with heap := t.heap.delete x } [] D P A := by
  have hset : ∀ a, a ≠ x → (s.withUpdate x).heap.cells a = s.heap.cells a := fun a ha => Heap.set_of_ne ha
  have hself : (s.withUpdate x).heap.cells x ≠ none := by
    show (s.heap.set x _).cells x ≠ none
    rw [Heap.set_self]
    exact Option.some_ne_none _
  -- Nothing allocates where the `UPDATE` is, so it is not posted.
  have hA : x ∉ A := fun hmem => (h.fresh x hmem).elim List.not_mem_nil hself
  have hout : x ∉ P ++ A := fun hmem => (List.mem_append.mp hmem).elim hP hA
  refine ⟨h.pending.of_update hout fun a ha => Heap.delete_of_ne ha, fun a haP ha hs => ?_, fun a ha => ?_,
    ?_, h.added, h.dispatched, ?_⟩
  · have hax : a ≠ x := fun hsame => hs (hsame ▸ hx)
    calc (t.heap.delete x).cells a = t.heap.cells a := Heap.delete_of_ne hax
      _ = (s.withUpdate x).heap.cells a := h.frame a haP ha ((hset a hax).symm ▸ hs)
      _ = s.heap.cells a := hset a hax
  · have hax : a ≠ x := fun hsame => hA (hsame ▸ ha)
    exact (h.fresh a ha).imp_right fun hnone => (hset a hax).symm.trans hnone
  · obtain ⟨Q, hQ, hsub, -⟩ := h.freeing
    cases List.sublist_nil.mp hsub
    exact ⟨[], hQ, List.Sublist.refl _, List.forall_mem_nil _⟩
  · obtain ⟨U, hpushed, hupdated⟩ := h.updates
    exact ⟨x :: U, hpushed.trans (List.append_assoc ..), hupdated.trans (List.append_assoc ..)⟩

/-- `update` handles its own `UPDATE`, and nothing else. -/
theorem keeps_updateChannel {error : Action} (herror : Keeps error) (call : UpdateCall) :
    Keeps (updateChannel call error) := by
  intro s P h
  have hx : s.heap.cells (s.heap.fresh call.stack) = none := Heap.cells_fresh ..
  have hnot := h.fresh_not_mem call.stack
  have hpushed : Pending (s.withUpdate (s.heap.fresh call.stack)) P := by
    have hset : Pending { s with heap := (s.withUpdate (s.heap.fresh call.stack)).heap } P :=
      h.of_update hnot fun a ha => Heap.set_of_ne ha
    exact ⟨hset.overPtr, rfl, hset.requests⟩
  obtain ⟨t, A, ht, hhandled⟩ := keeps_updatePost herror call _ P hpushed
  refine ⟨_, A, ?_, hhandled.of_stack hx hnot⟩
  unfold updateChannel update
  rw [h.rover]
  have hself := Heap.set_self s.heap (s.heap.fresh call.stack) { next := none, type := .UPDATE }
  refine (bind_of_eq_ok ?_ _).trans rfl
  rw [handleEvent_eq rfl hself, handleAll_none]
  exact (func_update (s := { s with heap := _, rover := none, pushed := _ }) _ hself rfl).trans ht

/-- Callbacks may re-enter as often and as deep as they like. -/
theorem keeps_callbacks (c : Callbacks) : Keeps (callbacks c) := by
  induction c with
  | done => exact fun s P h => ⟨s, [], rfl, h.refl⟩
  | update call failed rest ihfailed ihrest =>
    intro s P h
    obtain ⟨u, A, hu, hupdated⟩ := keeps_updateChannel ihfailed call s P h
    obtain ⟨t, A', ht, hrest⟩ := ihrest u (P ++ A) hupdated.pending
    unfold callbacks
    rw [bind_of_eq_ok hu]
    exact ⟨t, A ++ A', ht, hupdated.trans_right hrest⟩

/-! ## Handlers -/

/-- A node that is at hand while callbacks run. -/
theorem Keeps.bind {g : Action} {reposts : StreamOverlapped → Prop} (hg : Keeps g) (hf : Handles f reposts) :
    Handles (fun wsOver s => g s >>= f wsOver) reposts := by
  intro s P x o h hx hnext hnot
  obtain ⟨u, A, hu, hcalled⟩ := hg s P h
  have hs : s.heap.cells x ≠ none := by
    rw [hx]
    exact Option.some_ne_none o
  -- The callbacks do not see the node, which is in no list.
  have hsame : u.heap.cells x = some o := (hcalled.frame x hnot List.not_mem_nil hs).trans hx
  have hout : x ∉ P ++ A := by
    intro hmem
    rcases List.mem_append.mp hmem with hmem | hmem
    · exact hnot hmem
    · exact (hcalled.fresh x hmem).elim List.not_mem_nil hs
  obtain ⟨t, A', ht, hhandled, hreposted⟩ := hf u (P ++ A) x o hcalled.pending hsame hnext hout
  refine ⟨t, A ++ A', ?_, hcalled.trans_left hhandled (List.forall_mem_singleton.mpr hs), fun hreposts => ?_⟩
  · exact (bind_of_eq_ok hu _).trans ht
  · exact List.mem_append_right A (hreposted hreposts)

/-- A handler that leaves the node at hand. -/
theorem Keeps.leaves {g : Action} (hg : Keeps g) (h : Pending s P) (x : ℕ) :
    ∃ t A, g s = .ok t ∧ Handled s t [x] [] P A := by
  obtain ⟨t, A, ht, hcalled⟩ := hg s P h
  exact ⟨t, A, ht, hcalled.mono (List.nil_sublist _)⟩

theorem handles_handleRead (call : ReadCall) : Handles (handleRead call) call.Reposts := by
  have hpost := (posts_postRecv (keeps_callbacks call.failed) call.data call.posted).handles call.Reposts
  intro s P x o h hx hnext hnot
  unfold handleRead
  rw [bind_of_eq_ok (deref_eq hx)]
  split_ifs with hend hrefused
  · obtain ⟨t, A, ht, hhandled⟩ := (keeps_callbacks call.closed).leaves h x
    exact ⟨t, A, ht, hhandled, fun hreposts => absurd hend hreposts.1⟩
  · obtain ⟨t, A, ht, hhandled⟩ := (keeps_callbacks call.closed).leaves h x
    exact ⟨t, A, ht, hhandled, fun hreposts => absurd hrefused hreposts.2⟩
  · exact (keeps_callbacks call.message).bind hpost s P x o h hx hnext hnot

/-- `addFree` takes the node at hand, and `disableWriting` re-enters. -/
theorem handles_disableWriting (stack : ℕ) :
    Handles (fun wsOver s => disableWriting stack (s.addFree wsOver)) fun _ => False := by
  intro s P x o h hx hnext hnot
  have hfreed : Handled s (s.addFree x) [x] [] P [] := by
    refine ⟨?_, fun _ _ _ _ => rfl, List.forall_mem_nil _, ⟨[x], rfl, List.Sublist.refl _, ?_⟩,
      (List.append_nil _).symm, (List.append_nil _).symm, [], (List.append_nil _).symm,
      (List.append_nil _).symm⟩
    · rw [List.append_nil]
      exact ⟨h.overPtr, h.rover, h.requests⟩
    · refine List.forall_mem_singleton.mpr ⟨List.not_mem_nil, ?_⟩
      show s.heap.cells x ≠ none
      rw [hx]
      exact Option.some_ne_none o
  have hok : Keeps .ok := fun s P h => ⟨s, [], rfl, h.refl⟩
  obtain ⟨t, A, ht, hupdated⟩ := keeps_updateChannel hok _ (s.addFree x) (P ++ []) hfreed.pending
  exact ⟨t, A, ht, hfreed.trans_right hupdated, False.elim⟩

theorem handles_handleWrite (call : WriteCall) : Handles (handleWrite call) fun _ => 0 < call.size := by
  unfold handleWrite
  refine (keeps_callbacks call.written).bind ?_
  split_ifs with hsize
  · exact (posts_postSend (keeps_callbacks call.failed) (Nat.ne_of_gt hsize) call.data call.posted).handles _
  · exact fun s P x o h hx hnext hnot =>
      (handles_disableWriting call.stack s P x o h hx hnext hnot).imp fun t => Exists.imp fun A hdone =>
        ⟨hdone.1, hdone.2.1, fun hpos => absurd hpos hsize⟩

/-- What a `Proactor` asks of the class that implements it. The operations of `reposts` are posted again. -/
structure Sound (handlers : Handlers) (reposts : StreamOverlapped → Prop) : Prop where
  handleRead : Handles handlers.handleRead fun o => o.type = .READ ∧ reposts o
  handleWrite : Handles handlers.handleWrite fun o => o.type = .WRITE ∧ reposts o
  deleted : ∀ o, o.type = .NONE → ¬ reposts o
  next : ∀ o next, reposts o → reposts { o with next := next }

theorem Handles.mono {reposts reposts' : StreamOverlapped → Prop} (h : Handles f reposts)
    (hle : ∀ o, reposts' o → reposts o) : Handles f reposts' := by
  intro s P x o hpending hx hnext hnot
  obtain ⟨t, A, ht, hhandled, hreposted⟩ := h s P x o hpending hx hnext hnot
  exact ⟨t, A, ht, hhandled, fun hreposts => hreposted (hle o hreposts)⟩

/-- `WSProactor` is such a class. -/
theorem Call.sound (call : Call) : Sound call.handlers call.Reposts where
  handleRead := by
    refine (handles_handleRead call.read).mono ?_
    rintro o ⟨htype, ⟨-, hreposts⟩ | ⟨hwrite, -⟩⟩
    · exact hreposts
    · cases htype.symm.trans hwrite
  handleWrite := by
    refine (handles_handleWrite call.write).mono ?_
    rintro o ⟨htype, ⟨hread, -⟩ | ⟨-, hsize⟩⟩
    · cases htype.symm.trans hread
    · exact hsize
  deleted := by
    rintro o htype (⟨hread, -⟩ | ⟨hwrite, -⟩)
    · cases htype.symm.trans hread
    · cases htype.symm.trans hwrite
  next _ _ h := h

/-- The node that is handled goes into the log first. -/
theorem Handled.of_dispatched (h : Handled { s with dispatched := s.dispatched ++ [x] } t H D P A) :
    Handled s t H (x :: D) P A where
  pending := h.pending
  frame := h.frame
  fresh := h.fresh
  freeing := h.freeing
  added := h.added
  dispatched := h.dispatched.trans (List.append_assoc ..)
  updates := h.updates

/-- `func` handles an operation once. -/
theorem Sound.func {handlers : Handlers} {reposts : StreamOverlapped → Prop} (hsound : Sound handlers reposts)
    (h : Pending s P) (hx : s.heap.cells x = some o) (hnext : o.next = none) (ho : o.type.IsRequest)
    (hnot : x ∉ P) :
    ∃ t A, func handlers x s = .ok t ∧ Handled s t [x] [x] P A ∧ (reposts o → x ∈ A) := by
  have hlogged : Pending { s with dispatched := s.dispatched ++ [x] } P := ⟨h.overPtr, h.rover, h.requests⟩
  unfold OverLists.func
  rw [bind_of_eq_ok (deref_eq hx)]
  rcases ho with htype | htype | htype <;> rw [htype]
  · have hdeleted : Pending { s with heap := s.heap.delete x, dispatched := s.dispatched ++ [x] }
        (P ++ []) := by
      rw [List.append_nil]
      exact hlogged.of_update hnot fun a ha => Heap.delete_of_ne ha
    have hframe : ∀ a, a ∉ P → a ∉ [x] → (s.heap.delete x).cells a = s.heap.cells a := fun a _ ha =>
      Heap.delete_of_ne fun hax => ha (List.mem_singleton.mpr hax)
    exact ⟨_, [], rfl,
      hdeleted.handled hframe (List.forall_mem_nil _) rfl (List.append_nil _).symm rfl rfl rfl,
      fun hreposts => absurd hreposts (hsound.deleted o htype)⟩
  · obtain ⟨t, A, ht, hhandled, hreposted⟩ := hsound.handleRead _ P x o hlogged hx hnext hnot
    exact ⟨t, A, ht, hhandled.of_dispatched, fun hreposts => hreposted ⟨htype, hreposts⟩⟩
  · obtain ⟨t, A, ht, hhandled, hreposted⟩ := hsound.handleWrite _ P x o hlogged hx hnext hnot
    exact ⟨t, A, ht, hhandled.of_dispatched, fun hreposts => hreposted ⟨htype, hreposts⟩⟩

/-! ## The loop of `handleEvent` -/

/-- The loop handles the node that it has and those that follow, one after the other, and each is posted again
that its handlers post again. -/
theorem handleAll_ok {fuel : ℕ} {handlers : ℕ → Handlers} {reposts : ℕ → StreamOverlapped → Prop}
    (hsound : ∀ k, Sound (handlers k) (reposts k)) (h : Pending s P)
    (hx : s.heap.cells x = some o) (hF : Path s.link o.next F none) (hn : (x :: F).Nodup)
    (hP : List.Disjoint (x :: F) P) (hrequests : ∀ a ∈ x :: F, s.IsRequest a) (hfuel : F.length ≤ fuel) :
    ∃ t A, handleAll (fun k => func (handlers k)) fuel x o.next s = .ok t ∧
      Handled s t (x :: F) (x :: F) P A ∧
      ∀ k a, (x :: F)[k]? = some a → (∃ oa, s.heap.cells a = some oa ∧ reposts k oa) → a ∈ A := by
  induction F generalizing s P x o fuel handlers reposts with
  | nil =>
    have hnext : o.next = none := hF
    obtain ⟨hrequest, -⟩ := List.forall_mem_cons.mp hrequests
    obtain ⟨hnot, -⟩ := List.disjoint_cons_left.mp hP
    rw [hnext, handleAll_none]
    obtain ⟨t, A, ht, hhandled, hreposted⟩ := (hsound 0).func h hx hnext (hrequest.isRequest hx) hnot
    refine ⟨t, A, ht, hhandled, ?_⟩
    rintro (- | k) a ha ⟨oa, hoa, hreposts⟩
    · cases ha
      cases Option.some.inj (hoa.symm.trans hx)
      exact hreposted hreposts
    · cases ha
  | cons y F ih =>
    obtain ⟨hnext, next, hy, hrest⟩ := hF
    obtain ⟨oy, hoy, rfl⟩ := link_eq_some_iff.mp hy
    obtain ⟨fuel, rfl⟩ := Nat.exists_eq_add_of_lt hfuel
    obtain ⟨hrequest, hlater⟩ := List.forall_mem_cons.mp hrequests
    obtain ⟨hnot, hdisjoint⟩ := List.disjoint_cons_left.mp hP
    obtain ⟨hxF, hnF⟩ := List.nodup_cons.mp hn
    -- The node is cut off and handled, which changes none of those that follow.
    have hcut : Pending { s with heap := s.heap.set x { o with next := none } } P :=
      h.of_update hnot fun a ha => Heap.set_of_ne ha
    have htype : o.type.IsRequest := hrequest.isRequest hx
    obtain ⟨u, A, hu, hfirst, hreposted⟩ := (hsound 0).func hcut (Heap.set_self ..) rfl htype hnot
    have hhandled := hfirst.of_set
    have hsame : ∀ a ∈ y :: F, u.heap.cells a = s.heap.cells a := by
      intro a ha
      have hax : a ∉ [x] := fun hmem => hxF (List.mem_singleton.mp hmem ▸ ha)
      exact hhandled.frame a (hdisjoint ha) hax (hlater a ha).ne_none
    have huy : u.heap.cells y = some oy := (hsame y List.mem_cons_self).trans hoy
    have hpath : Path u.link oy.next F none :=
      hrest.congr fun a ha => link_congr (hsame a (List.mem_cons_of_mem y ha))
    have hout : List.Disjoint (y :: F) (P ++ A) := by
      refine List.disjoint_append_right.mpr ⟨hdisjoint, fun a ha hA => ?_⟩
      rcases hhandled.fresh a hA with hmem | hnone
      · exact hxF (List.mem_singleton.mp hmem ▸ ha)
      · exact (hlater a ha).ne_none hnone
    obtain ⟨t, A', ht, hothers, hreposted'⟩ := ih (fun k => hsound (k + 1)) hhandled.pending huy hpath hnF
      hout (fun a ha => (hlater a ha).of_eq (hsame a ha)) (Nat.le_add_right _ fuel)
    refine ⟨t, A ++ A', ?_, ?_, ?_⟩
    · rw [hnext]
      unfold handleAll
      rw [bind_of_eq_ok (modify_eq hx _), bind_of_eq_ok hu, bind_of_eq_ok (deref_eq huy)]
      exact ht
    · exact hhandled.trans hothers (List.singleton_disjoint.mpr hxF) fun a ha => (hlater a ha).ne_none
    · rintro (- | k) a ha ⟨oa, hoa, hreposts⟩
      · cases ha
        cases Option.some.inj (hoa.symm.trans hx)
        exact List.mem_append_left A' (hreposted ((hsound 0).next o none hreposts))
      · have hmem : a ∈ y :: F := List.mem_of_getElem? ha
        exact List.mem_append_right A (hreposted' k a ha ⟨oa, (hsame a hmem).trans hoa, hreposts⟩)

end OverLists

end Hulatang
