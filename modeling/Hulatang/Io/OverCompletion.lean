import Hulatang.Io.OverDispatch

/-!
# The two lists lose nothing

In every state a channel keeps its nodes in two lists without a node in common, and apart from those that are
about to be deleted (`Lists`). The body of `process` takes exactly the completed node out of the pending list
and puts it in front of the ready list (`Lists.unlink`); `handleEvent` then handles the whole of the ready
list (`Lists.process`). Every state of a run has such lists, the ready one empty (`lists_of_run`).
-/

namespace Hulatang.OverLists

variable {s t u : OverLists} {P R A D : List ℕ} {x y : ℕ} {o oy : StreamOverlapped}

/-- The nodes of the pending list and of the ready list. -/
structure Lists (s : OverLists) (P R : List ℕ) : Prop where
  overPtr : Path s.link s.overPtr P none
  rover : Path s.link s.rover R none
  requests : ∀ a ∈ P ++ R, s.IsRequest a
  freeing : ∀ a ∈ s.freeing, s.heap.cells a ≠ none
  nodup : (P ++ R ++ s.freeing).Nodup

/-! ## The body of `process` -/

/-- What is left when the node after `y` has been taken out. -/
def unlinked (s : OverLists) (y : ℕ) (oy : StreamOverlapped) (x : ℕ) (o : StreamOverlapped) : OverLists :=
  { s with
    heap := (s.heap.set y { oy with next := o.next }).set x { o with next := s.rover }
    rover := some x }

/-- A node of a list does not come before itself. -/
theorem not_mem_before {xs after : List ℕ} {p : Option ℕ} (h : Path s.link p (xs ++ y :: x :: after) none) :
    x ∉ xs ++ [y] := by
  have hn := h.nodup
  rw [List.append_cons] at hn
  exact fun hmem => (List.nodup_append.mp hn).2.2 x hmem x List.mem_cons_self rfl

/-- The search finds the node, and takes it out after the one that links to it. -/
theorem unlinkAfter_eq {xs after : List ℕ} {prevOver fuel : ℕ} {p : Option ℕ}
    (h : Path s.link (some prevOver) (xs ++ y :: x :: after) none) (hp : s.link prevOver = some p)
    (hy : s.heap.cells y = some oy) (hx : s.heap.cells x = some o) (hfuel : xs.length < fuel) :
    unlinkAfter x fuel prevOver p s = .ok (s.unlinked y oy x o) := by
  have hnot := not_mem_before h
  induction xs generalizing prevOver fuel p with
  | nil =>
    obtain ⟨hprev, next, hnext, hnextx, -⟩ := h
    cases Option.some.inj hprev
    have hpx : p = some x := (Option.some.inj (hp.symm.trans hnext)).trans hnextx
    have hxy : x ≠ y := fun hsame => hnot (List.mem_singleton.mpr hsame)
    have hset : (s.heap.set y { oy with next := o.next }).cells x = some o := (Heap.set_of_ne hxy).trans hx
    obtain ⟨fuel, rfl⟩ := Nat.exists_eq_add_of_lt hfuel
    rw [hpx]
    unfold unlinkAfter
    rw [bind_of_eq_ok (deref_eq hx), if_pos rfl, bind_of_eq_ok (modify_eq hy _)]
    exact (bind_of_eq_ok (modify_eq (s := { s with heap := _ }) hset _) _).trans rfl
  | cons a xs ih =>
    obtain ⟨hprev, next, hnext, hrest⟩ := h
    cases Option.some.inj hprev
    have hpnext : p = next := Option.some.inj (hp.symm.trans hnext)
    -- The next node comes before the one that is searched for.
    obtain ⟨b, hb, hmem⟩ : ∃ b, next = some b ∧ b ∈ xs ++ [y] := by
      cases xs with
      | nil => exact ⟨y, hrest.1, List.mem_cons_self⟩
      | cons b xs => exact ⟨b, hrest.1, List.mem_cons_self⟩
    have hbx : b ≠ x := fun hsame => hnot (List.mem_cons_of_mem a (hsame ▸ hmem))
    obtain ⟨q, hq⟩ : ∃ q, s.link b = some q := by
      have hpath : b ∈ xs ++ [y] ++ x :: after := List.mem_append_left _ hmem
      rw [← List.append_cons] at hpath
      exact Option.ne_none_iff_exists'.mp (hrest.link_ne_none hpath)
    obtain ⟨ob, hob, rfl⟩ := link_eq_some_iff.mp hq
    obtain ⟨fuel, rfl⟩ := Nat.exists_eq_add_of_lt hfuel
    rw [hpnext, hb]
    rw [hb] at hrest
    unfold unlinkAfter
    rw [bind_of_eq_ok (deref_eq hob), if_neg hbx]
    exact ih hrest hq (by rw [List.length_cons]; omega) fun hmem => hnot (List.mem_cons_of_mem a hmem)

/-- What the body of `process` has done, once the links and the head of the pending list are right. -/
theorem Lists.ready (h : Lists s P R) (hx : x ∈ P) {link : ℕ → Option (Option ℕ)}
    (hlink : t.link = Function.update link x (some s.rover)) (hover : Path link t.overPtr (P.erase x) none)
    (hR : ∀ a ∈ R, link a = s.link a) (hrover : t.rover = some x)
    (hrequests : ∀ a, s.IsRequest a → t.IsRequest a) (hfreeing : t.freeing = s.freeing)
    (hcells : ∀ a, s.heap.cells a ≠ none → t.heap.cells a ≠ none) : Lists t (P.erase x) (x :: R) := by
  have hperm : (P ++ R).Perm (P.erase x ++ x :: R) := by
    calc (P ++ R).Perm (x :: P.erase x ++ R) := (List.perm_cons_erase hx).append_right R
      List.Perm _ (P.erase x ++ x :: R) := List.perm_middle.symm
  have hn := (hperm.append_right s.freeing).nodup_iff.mp h.nodup
  have hparts := List.nodup_append.mp (List.nodup_append.mp hn).1
  have hxP : x ∉ P.erase x := fun hmem => hparts.2.2 x hmem x List.mem_cons_self rfl
  have hxR : x ∉ R := (List.nodup_cons.mp hparts.2.1).1
  refine ⟨?_, ?_, fun a ha => hrequests a (h.requests a (hperm.mem_iff.mpr ha)),
    fun a ha => hcells a (h.freeing a (hfreeing ▸ ha)), ?_⟩
  · rw [hlink]
    exact hover.update hxP
  · rw [hlink, hrover]
    exact ((h.rover.congr hR).update hxR).cons (Function.update_self ..)
  · rw [hfreeing]
    exact hn

/-- An operation stays one when members other than its `type` are assigned. -/
theorem IsRequest.set_same {a b : ℕ} {o' : StreamOverlapped} (h : s.IsRequest a)
    (ht : t.heap = s.heap.set b o') (ho : s.heap.cells b = some o) (htype : o'.type = o.type) :
    t.IsRequest a := by
  unfold IsRequest
  rw [ht]
  by_cases hab : a = b
  · subst hab
    exact ⟨o', Heap.set_self .., htype ▸ h.isRequest ho⟩
  · obtain ⟨oa, hoa, hrequest⟩ := h
    exact ⟨oa, (Heap.set_of_ne hab).trans hoa, hrequest⟩

theorem set_ne_none {h : Heap StreamOverlapped} {a b : ℕ} (hs : h.cells a ≠ none) :
    (h.set b o).cells a ≠ none := by
  by_cases hab : a = b
  · rw [hab, Heap.set_self]
    exact Option.some_ne_none o
  · rw [Heap.set_of_ne hab]
    exact hs

/-- Members other than the `next` and the `type` may be assigned. -/
theorem Lists.assign (h : Lists s P R) (hx : s.heap.cells x = some o) {o' : StreamOverlapped}
    (hnext : o'.next = o.next) (htype : o'.type = o.type) : Lists { s with heap := s.heap.set x o' } P R := by
  have hlink : link { s with heap := s.heap.set x o' } = s.link := link_set_same rfl hx hnext
  refine ⟨?_, ?_, fun a ha => (h.requests a ha).set_same rfl hx htype,
    fun a ha => set_ne_none (h.freeing a ha), h.nodup⟩
  · rw [hlink]
    exact h.overPtr
  · rw [hlink]
    exact h.rover

/-- The body of `process` where the completed node is the first one. -/
theorem unlink_of_first (ho : s.heap.cells x = some o) (hover : s.overPtr = some x) (bytes : ℕ) :
    s.unlink x bytes = .ok
      { s with
        heap := (s.heap.set x { o with numberOfBytesTransferred := bytes }).set x
          { o with numberOfBytesTransferred := bytes, next := s.rover }
        overPtr := o.next
        rover := some x } := by
  have hself := Heap.set_self s.heap x { o with numberOfBytesTransferred := bytes }
  unfold OverLists.unlink
  rw [bind_of_eq_ok (modify_eq ho _)]
  cases s
  cases hover
  dsimp only
  rw [bind_of_eq_ok (deref_eq hself), if_pos rfl]
  rw [bind_of_eq_ok (modify_eq hself _)]
  rfl

/-- The body of `process` where it is another one. -/
theorem unlink_of_later {first : ℕ} (ho : s.heap.cells x = some o) (hover : s.overPtr = some first)
    (hne : first ≠ x) {ofirst : StreamOverlapped} (hfirst : s.heap.cells first = some ofirst) (bytes : ℕ) :
    s.unlink x bytes =
      unlinkAfter x (s.heap.set x { o with numberOfBytesTransferred := bytes }).bound first ofirst.next
        { s with heap := s.heap.set x { o with numberOfBytesTransferred := bytes } } := by
  have hset : (s.heap.set x { o with numberOfBytesTransferred := bytes }).cells first = some ofirst :=
    (Heap.set_of_ne hne).trans hfirst
  cases s
  cases hover
  unfold OverLists.unlink
  rw [bind_of_eq_ok (modify_eq ho _)]
  dsimp only
  rw [bind_of_eq_ok (deref_eq hset), if_neg hne]

/-- Taking out the node after `y` leaves the others in their order. -/
theorem Lists.unlinked {xs after : List ℕ} (h : Lists s (xs ++ y :: x :: after) R)
    (hy : s.heap.cells y = some oy) (hx : s.heap.cells x = some o) :
    Lists (s.unlinked y oy x o) ((xs ++ y :: x :: after).erase x) (x :: R) := by
  have herase : (xs ++ y :: x :: after).erase x = xs ++ y :: after := by
    rw [List.append_cons, List.erase_append_right _ (not_mem_before h.overPtr), List.erase_cons_head,
      ← List.append_cons]
  have hmem : x ∈ xs ++ y :: x :: after :=
    List.mem_append_right xs (List.mem_cons_of_mem y List.mem_cons_self)
  -- The node in front is assigned too, so that it must not be a ready one.
  have hyR : y ∉ R := by
    intro hyR
    have hn := (List.nodup_append.mp h.nodup).1
    exact (List.nodup_append.mp hn).2.2 y (List.mem_append_right xs List.mem_cons_self) y hyR rfl
  have hxy : x ≠ y := fun hsame =>
    not_mem_before h.overPtr (hsame ▸ List.mem_append_right xs List.mem_cons_self)
  have hset : (s.heap.set y { oy with next := o.next }).cells x = some o := (Heap.set_of_ne hxy).trans hx
  have hlink : link { s with heap := s.heap.set y { oy with next := o.next } } =
      Function.update s.link y (s.link x) := by
    rw [link_set (s := s) rfl, link_eq_some_iff.mpr ⟨o, hx, rfl⟩]
  have htaken : (s.unlinked y oy x o).link =
      Function.update (link { s with heap := s.heap.set y { oy with next := o.next } }) x (some s.rover) :=
    link_set (s := { s with heap := s.heap.set y { oy with next := o.next } })
      (o := { o with next := s.rover }) rfl
  refine h.ready hmem htaken ?_ ?_ rfl ?_ rfl ?_
  · rw [herase, hlink]
    exact h.overPtr.erase
  · intro a ha
    rw [hlink]
    exact Function.update_of_ne (fun hay : a = y => hyR (hay ▸ ha)) ..
  · intro a ha
    have hcut : IsRequest { s with heap := s.heap.set y { oy with next := o.next } } a :=
      ha.set_same rfl hy rfl
    exact hcut.set_same rfl hset rfl
  · exact fun a ha => set_ne_none (set_ne_none ha)

/-- The body of `process` takes the completed node out of the pending list, wherever it is, and puts it in
front of the ready list. -/
theorem Lists.unlink (h : Lists s P R) (hx : x ∈ P) (bytes : ℕ) :
    ∃ t, s.unlink x bytes = .ok t ∧ Lists t (P.erase x) (x :: R) ∧
      t = { s with heap := t.heap, overPtr := t.overPtr, rover := t.rover } := by
  obtain ⟨o, ho, -⟩ := h.requests x (List.mem_append_left R hx)
  have hassigned : Lists { s with heap := s.heap.set x { o with numberOfBytesTransferred := bytes } } _ R :=
    h.assign ho rfl rfl
  have hself := Heap.set_self s.heap x { o with numberOfBytesTransferred := bytes }
  obtain ⟨before, after, rfl⟩ := List.append_of_mem hx
  rcases before.eq_nil_or_concat' with rfl | ⟨xs, y, rfl⟩
  · obtain ⟨hover, next, hnext, hafter⟩ := hassigned.overPtr
    obtain ⟨o', ho', rfl⟩ := link_eq_some_iff.mp hnext
    cases Option.some.inj (ho'.symm.trans hself)
    refine ⟨_, unlink_of_first ho hover bytes, ?_, rfl⟩
    refine hassigned.ready hx
      (link_set (o := { o with numberOfBytesTransferred := bytes, next := s.rover }) rfl) ?_
      (fun _ _ => rfl) rfl (fun a ha => ha.set_same rfl hself rfl) rfl fun _ => set_ne_none
    rw [List.nil_append, List.erase_cons_head]
    exact hafter
  · rw [List.append_assoc, List.singleton_append] at h hx hassigned ⊢
    have hyP : y ∈ xs ++ y :: x :: after := List.mem_append_right xs List.mem_cons_self
    obtain ⟨oy, hy, -⟩ := hassigned.requests y (List.mem_append_left R hyP)
    -- The first node comes before the completed one.
    obtain ⟨first, hfirst, hmem⟩ : ∃ first, s.overPtr = some first ∧ first ∈ xs ++ [y] := by
      cases xs with
      | nil => exact ⟨y, h.overPtr.1, List.mem_cons_self⟩
      | cons b xs => exact ⟨b, h.overPtr.1, List.mem_cons_self⟩
    have hne : first ≠ x := fun hsame => not_mem_before h.overPtr (hsame ▸ hmem)
    have hfirstP : first ∈ xs ++ y :: x :: after := by
      rw [List.append_cons]
      exact List.mem_append_left _ hmem
    obtain ⟨ofirst, hofirst, -⟩ := h.requests first (List.mem_append_left R hfirstP)
    -- The pending nodes are different cells of the heap, so the search comes to its end.
    have hfuel : xs.length < (s.heap.set x { o with numberOfBytesTransferred := bytes }).bound := by
      have hle := Heap.length_le_bound hassigned.overPtr.nodup fun a ha =>
        (hassigned.requests a (List.mem_append_left R ha)).ne_none
      rw [List.length_append, List.length_cons] at hle
      exact Nat.lt_of_lt_of_le (Nat.lt_add_of_pos_right (Nat.succ_pos _)) hle
    have hpath := hassigned.overPtr
    rw [show OverLists.overPtr { s with heap := _ } = some first from hfirst] at hpath
    have hlink : link { s with heap := s.heap.set x { o with numberOfBytesTransferred := bytes } } first =
        some ofirst.next := link_eq_some_iff.mpr ⟨ofirst, (Heap.set_of_ne hne).trans hofirst, rfl⟩
    exact ⟨_, (unlink_of_later ho hfirst hne hofirst bytes).trans (unlinkAfter_eq hpath hlink hy hself hfuel),
      hassigned.unlinked hy hself, rfl⟩

/-! ## The whole of `process` -/

/-- What a completion of `x` leads to: `x` and what was ready has been handled once and in order, nothing is
ready, and what has been posted follows what is left of the pending list, each node once. The nodes that their
handlers post again are among them; `u` is the state that the handlers begin in. -/
structure Completed (s u t : OverLists) (x : ℕ) (P R A : List ℕ) (reposts : ℕ → StreamOverlapped → Prop) :
    Prop where
  lists : Lists t (P.erase x ++ A) []
  dispatched : t.dispatched = s.dispatched ++ x :: R
  added : t.added = s.added ++ A
  reposted : ∀ k a, (x :: R)[k]? = some a → (∃ o, u.heap.cells a = some o ∧ reposts k o) → a ∈ A
  updates : ∃ U, t.pushed = s.pushed ++ U ∧ t.updated = s.updated ++ U

/-- What is at hand comes out of the ready list, and is pending, about to be deleted, or in no list again. -/
theorem Lists.of_handled (h : Lists s P R) (hheap : u.heap = s.heap) (hsame : u.freeing = s.freeing)
    (hhandled : Handled u t R D P A) : Lists t (P ++ A) [] := by
  obtain ⟨Q, hQ, hsub, hout⟩ := hhandled.freeing
  rw [hsame] at hQ
  have hold : ∀ a ∈ s.freeing, u.heap.cells a ≠ none := fun a ha => hheap ▸ h.freeing a ha
  obtain ⟨hPR, hfreeing, hdisjoint⟩ := List.nodup_append'.mp h.nodup
  obtain ⟨-, hR, hready⟩ := List.nodup_append'.mp hPR
  obtain ⟨hPfreeing, hRfreeing⟩ := List.disjoint_append_left.mp hdisjoint
  have hqueued : ∀ a ∈ P ++ A, a ∉ s.freeing ++ Q := by
    intro a ha hmem
    rcases List.mem_append.mp ha with haP | haA <;> rcases List.mem_append.mp hmem with hqueue | hnew
    · exact hPfreeing haP hqueue
    · exact hready haP (hsub.subset hnew)
    · exact (hhandled.fresh a haA).elim (fun haR => hRfreeing haR hqueue) (hold a hqueue)
    · exact (hout a hnew).1 haA
  refine ⟨hhandled.pending.overPtr, hhandled.pending.rover, ?_, ?_, ?_⟩
  · rw [List.append_nil]
    exact hhandled.pending.requests
  · rw [hQ]
    exact List.forall_mem_append.mpr
      ⟨fun a ha => hhandled.ne_none (fun haR => hRfreeing haR ha) (hold a ha), fun a ha => (hout a ha).2⟩
  · rw [List.append_nil, hQ]
    refine List.nodup_append'.mpr ⟨hhandled.pending.overPtr.nodup, ?_, hqueued⟩
    exact List.nodup_append'.mpr ⟨hfreeing, hsub.nodup hR, fun a ha hnew => hRfreeing (hsub.subset hnew) ha⟩

/-- What `process` does with a completion, for every `Proactor`. -/
theorem Lists.process (h : Lists s P R) (hx : x ∈ P) (bytes : ℕ) {handlers : ℕ → Handlers}
    {reposts : ℕ → StreamOverlapped → Prop} (hsound : ∀ k, Sound (handlers k) (reposts k)) :
    ∃ u t A, s.unlink x bytes = .ok u ∧ Lists u (P.erase x) (x :: R) ∧
      s.process x bytes (fun k => func (handlers k)) = .ok t ∧ Completed s u t x P R A reposts := by
  obtain ⟨u, hu, hunlinked, hsame⟩ := h.unlink hx bytes
  obtain ⟨hrover, next, hnext, hR⟩ := hunlinked.rover
  obtain ⟨o, ho, rfl⟩ := link_eq_some_iff.mp hnext
  obtain ⟨hlists, -, -⟩ := List.nodup_append'.mp hunlinked.nodup
  obtain ⟨-, hn, hdisjoint⟩ := List.nodup_append'.mp hlists
  have hready : ∀ a ∈ x :: R, u.IsRequest a := fun a ha => hunlinked.requests a (List.mem_append_right _ ha)
  -- `handleEvent` empties the ready list before it handles the first node.
  have hpending : Pending { u with rover := none } (P.erase x) :=
    ⟨hunlinked.overPtr, rfl, fun a ha => hunlinked.requests a (List.mem_append_left _ ha)⟩
  have hfuel : R.length ≤ u.heap.bound := by
    have hle := Heap.length_le_bound hn fun a ha => (hready a ha).ne_none
    exact Nat.le_trans (Nat.le_succ _) hle
  obtain ⟨t, A, ht, hhandled, hreposted⟩ := handleAll_ok hsound hpending ho hR hn
    (fun a ha hP => hdisjoint hP ha) hready hfuel
  refine ⟨u, t, A, hu, hunlinked, ?_, ?_⟩
  · unfold OverLists.process
    rw [bind_of_eq_ok hu, handleEvent_eq hrover ho]
    exact ht
  · have hdispatched : u.dispatched = s.dispatched := by rw [hsame]
    have hadded : u.added = s.added := by rw [hsame]
    have hpushed : u.pushed = s.pushed := by rw [hsame]
    have hupdated : u.updated = s.updated := by rw [hsame]
    refine ⟨hunlinked.of_handled (u := { u with rover := none }) rfl rfl hhandled, ?_, ?_, hreposted, ?_⟩
    · rw [← hdispatched]
      exact hhandled.dispatched
    · rw [← hadded]
      exact hhandled.added
    · rw [← hpushed, ← hupdated]
      exact hhandled.updates

/-- A completion that names any node of the pending list loses nothing and handles nothing twice, whatever the
handlers of `WSProactor` find and the callbacks do. -/
theorem Lists.completed (h : Lists s P R) (hx : x ∈ P) (bytes : ℕ) (calls : ℕ → Call) :
    ∃ u t A, s.unlink x bytes = .ok u ∧ Lists u (P.erase x) (x :: R) ∧
      s.process x bytes (fun k => func (calls k).handlers) = .ok t ∧
      Completed s u t x P R A (fun k => (calls k).Reposts) :=
  h.process hx bytes fun k => (calls k).sound

/-- The nodes of the pending list. -/
def pending (s : OverLists) : List ℕ := Path.nodes s.link s.heap.bound s.overPtr

theorem Lists.pending (h : Lists s P R) : s.pending = P := by
  refine Path.nodes_eq h.overPtr (Heap.length_le_bound h.overPtr.nodup fun a ha => ?_)
  exact (h.requests a (List.mem_append_left R ha)).ne_none

/-- A `READ` and a `WRITE` that are pending, and a `WRITE` that is ready. -/
def sample : OverLists :=
  { initial with
    heap :=
      ((Heap.empty.set 0 { next := some 1, type := .READ, data := 40 }).set 1
        { type := .WRITE, data := 50 }).set 2 { type := .WRITE, data := 60 }
    overPtr := some 0
    rover := some 2 }

theorem lists_sample : Lists sample [0, 1] [2] where
  overPtr := ⟨rfl, some 1, rfl, rfl, none, rfl, rfl⟩
  rover := ⟨rfl, none, rfl, rfl⟩
  requests := by
    refine List.forall_mem_cons.mpr ⟨⟨_, rfl, .inr (.inl rfl)⟩, ?_⟩
    refine List.forall_mem_cons.mpr ⟨⟨_, rfl, .inr (.inr rfl)⟩, ?_⟩
    exact List.forall_mem_singleton.mpr ⟨_, rfl, .inr (.inr rfl)⟩
  freeing := List.forall_mem_nil _
  nodup := by decide

/-- A callback that posts a `WRITE` of its own, at address 9, before the handled one is posted again. -/
def sampleCall : Call where
  read := ⟨0, false, .done, .done, 0, true, .done⟩
  write := ⟨.update ⟨7, true, 3, 90, 9, true⟩ .done .done, 3, 80, true, .done, 0⟩
  update := ⟨0, false, 0, 0, 0, false⟩
  failed := .done

/-- The last of two pending operations completes while another one is ready. -/
theorem completed_sample :
    ∃ u t A, sample.unlink 1 5 = .ok u ∧ Lists u [0] [1, 2] ∧
      sample.process 1 5 (fun _ => func sampleCall.handlers) = .ok t ∧
      Completed sample u t 1 [0, 1] [2] A (fun _ => sampleCall.Reposts) :=
  lists_sample.completed (by decide) 5 fun _ => sampleCall

example : (sample.process 1 5 fun _ => func sampleCall.handlers).toOption.map
    (fun t => (t.pending, t.rover, t.dispatched, t.updated)) = some ([0, 9, 1, 2], none, [1, 2], [7, 7]) := by
  decide +kernel

/-! ## Runs -/

/-- What happens to the lists of a channel. -/
inductive Op
  /-- `postRecv(channel, new StreamOverlapped{})`, as in the constructor of `WSProactor`. -/
  | start (hint data : ℕ) (posted : Bool) (failed : Callbacks)
  /-- A completion names a pending node. -/
  | complete (overlapped bytes : ℕ) (calls : ℕ → Call)
  /-- The connection changes the flags of the channel outside of any handler. -/
  | update (calls : Callbacks)
  /-- The loop runs the first `delete` that `addFree` has queued. -/
  | free

/-- The call that a step makes. -/
def call (s : OverLists) : Op → Except OverFault OverLists
  | .start hint data posted failed =>
    let (wsOver, s) := s.new hint
    postRecv data posted (callbacks failed) wsOver s
  | .complete overlapped bytes calls => s.process overlapped bytes fun k => func (calls k).handlers
  | .update calls => callbacks calls s
  | .free =>
    match s.freeing with
    | [] => .ok s
    | wsOver :: freeing => .ok { s with heap := s.heap.delete wsOver, freeing := freeing }

/-- What has completed is pending. -/
def Enabled (s : OverLists) : Op → Prop
  | .complete overlapped _ _ => overlapped ∈ s.pending
  | _ => True

instance (s : OverLists) : DecidablePred s.Enabled
  | .start _ _ _ _ => inferInstanceAs (Decidable True)
  | .complete _ _ _ => inferInstanceAs (Decidable (_ ∈ _))
  | .update _ => inferInstanceAs (Decidable True)
  | .free => inferInstanceAs (Decidable True)

/-- One step, whose call returns. -/
def step (s : OverLists) (op : Op) : Option OverLists := if s.Enabled op then (s.call op).toOption else none

theorem lists_initial : Lists initial [] [] :=
  ⟨rfl, rfl, List.forall_mem_nil _, List.forall_mem_nil _, List.nodup_nil⟩

theorem Lists.free {wsOver : ℕ} {freeing : List ℕ} (h : Lists s P [])
    (hfreeing : s.freeing = wsOver :: freeing) :
    Lists { s with heap := s.heap.delete wsOver, freeing := freeing } P [] := by
  have hn := h.nodup
  rw [List.append_nil, hfreeing] at hn
  obtain ⟨hP, hrest, hdisjoint⟩ := List.nodup_append'.mp hn
  obtain ⟨hout, hnrest⟩ := List.nodup_cons.mp hrest
  have hsame : ∀ a ∈ P, (s.heap.delete wsOver).cells a = s.heap.cells a := fun a ha =>
    Heap.delete_of_ne fun hsame => hdisjoint (hsame ▸ ha) List.mem_cons_self
  refine ⟨h.overPtr.congr fun a ha => ?_, h.rover, fun a ha => ?_, fun a ha => ?_, ?_⟩
  · exact link_congr (hsame a ha)
  · rw [List.append_nil] at ha
    exact (h.requests a (List.mem_append_left _ ha)).of_eq (hsame a ha)
  · have hne : a ≠ wsOver := fun hsame => hout (hsame ▸ ha)
    show (s.heap.delete wsOver).cells a ≠ none
    rw [Heap.delete_of_ne hne]
    exact h.freeing a (hfreeing ▸ List.mem_cons_of_mem wsOver ha)
  · rw [List.append_nil]
    exact List.nodup_append'.mpr ⟨hP, hnrest, (List.disjoint_cons_right.mp hdisjoint).2⟩

/-- The call of a step returns. -/
theorem Lists.call (h : Lists s P []) {op : Op} (hop : s.Enabled op) :
    ∃ t P', s.call op = .ok t ∧ Lists t P' [] := by
  have hpending : Pending s P :=
    ⟨h.overPtr, h.rover, fun a ha => h.requests a (List.mem_append_left _ ha)⟩
  match op with
  | .start hint data posted failed =>
    obtain ⟨t, A, ht, hposted⟩ := hpending.new (posts_postRecv (keeps_callbacks failed) data posted) hint
    exact ⟨t, _, ht, h.of_handled rfl rfl hposted⟩
  | .complete overlapped bytes calls =>
    have hx : overlapped ∈ P := h.pending ▸ hop
    obtain ⟨u, t, A, -, -, ht, hcompleted⟩ := h.process hx bytes fun k => (calls k).sound
    exact ⟨t, _, ht, hcompleted.lists⟩
  | .update calls =>
    obtain ⟨t, A, ht, hhandled⟩ := keeps_callbacks calls s P hpending
    exact ⟨t, _, ht, h.of_handled rfl rfl hhandled⟩
  | .free =>
    unfold OverLists.call
    cases hfreeing : s.freeing with
    | nil => exact ⟨s, P, rfl, h⟩
    | cons wsOver freeing => exact ⟨_, P, rfl, h.free hfreeing⟩

/-- In every state of a run the channel has its two lists, with nothing ready. -/
theorem lists_of_run (ops : List Op) (hr : Machine.run step initial ops = some s) : ∃ P, Lists s P [] := by
  refine Machine.run_invariant (I := fun s => ∃ P, Lists s P []) ?_ ⟨[], lists_initial⟩ hr
  rintro s op t ⟨P, h⟩ hs
  unfold step at hs
  split_ifs at hs with hop
  obtain ⟨u, P', hu, hlists⟩ := h.call hop
  rw [hu] at hs
  cases hs
  exact ⟨P', hlists⟩

end Hulatang.OverLists
