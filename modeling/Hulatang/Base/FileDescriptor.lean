import Hulatang.Lib.Machine
import Hulatang.Lib.Owners

/-!
# File descriptors

A `FileDescriptor` owns the descriptor in its `impl`: it is moved and swapped with it, and closes it when it
is destroyed. So it is with all of its functions but one: `open` asserts that it owns nothing, gets a
descriptor, and drops it. In every run of a program that uses descriptors through these objects alone, the
descriptors that are open are those of its objects and the ones that `open` has dropped, each of them once,
and no `close` fails except on the −1 that a failed `create` leaves behind (`accounted_of_run`).
-/

open scoped List

namespace Hulatang

/-- `FileDescriptor::Impl`, whose `fd` is −1 for `none`. -/
structure FileDescriptor.Impl where
  fd : Option ℕ
  deriving DecidableEq

structure FileDescriptor where
  impl : Option FileDescriptor.Impl
  deriving DecidableEq

/-- How one of the functions stops the program. -/
inductive DescriptorFault
  | assertion
  | abort
  deriving DecidableEq

/-- The objects of a program, and its descriptors. -/
structure Descriptors where
  /-- The objects in the order of their construction, without those that have been destroyed. -/
  objects : List (Option FileDescriptor)
  /-- The descriptors that are open. -/
  table : List ℕ
  /-- What `open` has opened. -/
  dropped : List ℕ
  /-- The arguments of `::close` where it has failed. -/
  failed : List (Option ℕ)
  fault : Option DescriptorFault

namespace Descriptors

def initial : Descriptors := ⟨[], [], [], [], none⟩

def fail (s : Descriptors) (fault : DescriptorFault) : Descriptors := { s with fault := some fault }

/-- An object that has not been destroyed. -/
def object (s : Descriptors) (i : ℕ) : Option FileDescriptor := s.objects[i]?.join

def assign (s : Descriptors) (i : ℕ) (impl : Option FileDescriptor.Impl) : Descriptors :=
  { s with objects := s.objects.set i (some ⟨impl⟩) }

/-- A system call returns a descriptor that was not open, or −1. -/
def opens (s : Descriptors) : Option ℕ → Option Descriptors
  | none => some s
  | some fd => if fd ∈ s.table then none else some { s with table := fd :: s.table }

/-- `::close`, which fails for what is not open, and for nothing else. -/
def closes (s : Descriptors) : Option ℕ → Descriptors
  | none => { s with failed := s.failed ++ [none] }
  | some fd =>
    if fd ∈ s.table then { s with table := s.table.erase fd } else { s with failed := s.failed ++ [some fd] }

/-! ## `FileDescriptor` -/

/-- `FileDescriptor(fd)`, with what the caller has just opened. -/
def adopt (s : Descriptors) (fd : Option ℕ) : Descriptors :=
  match fd with
  | none => s.fail .assertion
  | some fd => { s with objects := s.objects ++ [some ⟨some ⟨some fd⟩⟩] }

/-- `FileDescriptor(FileDescriptor &&other)`. -/
def move (s : Descriptors) (i : ℕ) (other : FileDescriptor) : Descriptors :=
  { s with objects := (s.assign i none).objects ++ [some ⟨other.impl⟩] }

/-- `swap`. -/
def swap (s : Descriptors) (i j : ℕ) (d other : FileDescriptor) : Descriptors :=
  (s.assign i other.impl).assign j d.impl

/-- `open`, which keeps nothing. -/
def openPath (s : Descriptors) (d : FileDescriptor) (fd : Option ℕ) : Option Descriptors :=
  if d.impl.isSome then some (s.fail .assertion)
  else (s.opens fd).map fun s => { s with dropped := fd.toList ++ s.dropped }

/-- `create`, which keeps what it gets. -/
def create (s : Descriptors) (i : ℕ) (d : FileDescriptor) (fd : Option ℕ) : Option Descriptors :=
  if d.impl.isSome then some (s.fail .assertion)
  else (s.opens fd).map fun s => s.assign i (some ⟨fd⟩)

/-- `socket`. -/
def socket (s : Descriptors) (i : ℕ) (d : FileDescriptor) (sockfd : Option ℕ) : Option Descriptors :=
  if d.impl.isSome then some (s.fail .assertion)
  else (s.opens sockfd).map fun s => if sockfd = none then s.fail .abort else s.assign i (some ⟨sockfd⟩)

/-- `close`. -/
def close (s : Descriptors) (i : ℕ) (d : FileDescriptor) : Descriptors :=
  match d.impl with
  | none => s.fail .assertion
  | some impl => (s.closes impl.fd).assign i none

/-- `~FileDescriptor`. -/
def destroy (s : Descriptors) (i : ℕ) (d : FileDescriptor) : Descriptors :=
  let s := if d.impl.isSome then s.close i d else s
  { s with objects := s.objects.set i none }

/-- What a program does with its objects. -/
inductive Op
  | make
  | adopt (fd : Option ℕ)
  | move (i : ℕ)
  | swap (i j : ℕ)
  | openPath (i : ℕ) (fd : Option ℕ)
  | create (i : ℕ) (fd : Option ℕ)
  | socket (i : ℕ) (sockfd : Option ℕ)
  /-- `getFd`, `bind`, `listen`, `connect`: they assert that there is an `impl`. -/
  | use (i : ℕ)
  | close (i : ℕ)
  | destroy (i : ℕ)
  deriving DecidableEq

/-- One call. -/
def step (s : Descriptors) (op : Op) : Option Descriptors :=
  if s.fault.isSome then none
  else
    match op with
    | .make => some { s with objects := s.objects ++ [some ⟨none⟩] }
    | .adopt fd => (s.opens fd).map fun s => s.adopt fd
    | .move i => (s.object i).map fun other => s.move i other
    | .swap i j => (s.object i).bind fun d => (s.object j).map fun other => s.swap i j d other
    | .openPath i fd => (s.object i).bind fun d => s.openPath d fd
    | .create i fd => (s.object i).bind fun d => s.create i d fd
    | .socket i sockfd => (s.object i).bind fun d => s.socket i d sockfd
    | .use i => (s.object i).map fun d => if d.impl = none then s.fail .assertion else s
    | .close i => (s.object i).map fun d => s.close i d
    | .destroy i => (s.object i).map fun d => s.destroy i d

/-! ## What the calls do to the owners -/

/-- What an object owns. -/
def held (d : FileDescriptor) : Option ℕ := d.impl.bind FileDescriptor.Impl.fd

/-- What is open is owned or dropped. -/
structure Refines (s : Descriptors) (o : Owners ℕ) : Prop where
  objects : o.Holds held s.objects
  table : s.table ~ o.live ++ s.dropped
  nodup : s.table.Nodup
  failed : ∀ fd ∈ s.failed, fd = none

variable {s s' : Descriptors} {o : Owners ℕ} {d other : FileDescriptor} {i j : ℕ} {fd : Option ℕ}

theorem refines_initial : Refines initial Owners.empty :=
  ⟨Owners.holds_empty, List.Perm.refl _, List.nodup_nil, List.forall_mem_nil _⟩

theorem object_eq_some_iff : s.object i = some d ↔ s.objects[i]? = some (some d) := by
  unfold object
  rw [Option.join_eq_some_iff]

theorem object_assign (hi : s.object i = some d) (impl : Option FileDescriptor.Impl) :
    (s.assign i impl).object i = some ⟨impl⟩ := by
  obtain ⟨hlt, -⟩ := List.getElem?_eq_some_iff.mp (object_eq_some_iff.mp hi)
  exact object_eq_some_iff.mpr (List.getElem?_set_self hlt)

theorem objects_closes : (s.closes fd).objects = s.objects := by
  unfold closes
  split
  · rfl
  · split_ifs <;> rfl

theorem close_of_impl {impl : FileDescriptor.Impl} (hd : d.impl = some impl) :
    s.close i d = (s.closes impl.fd).assign i none := by
  unfold close
  rw [hd]

theorem opens_eq_some_iff :
    s.opens fd = some s' ↔ (∀ r ∈ fd, r ∉ s.table) ∧ s' = { s with table := fd.toList ++ s.table } := by
  cases fd with
  | none =>
    exact ⟨fun h => ⟨fun _ hr => (nomatch hr), (Option.some.inj h).symm⟩, fun h => congrArg some h.2.symm⟩
  | some r =>
    unfold opens
    dsimp only
    split_ifs with hopen
    · exact iff_of_false (fun h => nomatch h) fun h => h.1 r rfl hopen
    · refine ⟨fun h => ⟨fun _ hr => ?_, (Option.some.inj h).symm⟩, fun h => congrArg some h.2.symm⟩
      cases hr
      exact hopen

/-- An assertion fails, or `abort` is called. -/
theorem Refines.fail (h : Refines s o) (fault : DescriptorFault) : Refines (s.fail fault) o :=
  ⟨h.objects, h.table, h.nodup, h.failed⟩

/-- The objects change, and what they hold together does not. -/
theorem Refines.keep {objects : List (Option FileDescriptor)} {o' : Owners ℕ} (h : Refines s o)
    (hobjects : o'.Holds held objects) (hlive : o'.live = o.live) :
    Refines { s with objects := objects } o' :=
  ⟨hobjects, hlive ▸ h.table, h.nodup, h.failed⟩

/-- A call has returned a descriptor that an object keeps. -/
theorem Refines.opened {objects : List (Option FileDescriptor)} {o' : Owners ℕ} {r : ℕ} (h : Refines s o)
    (hr : r ∉ s.table) (hobjects : o'.Holds held objects) (hlive : o'.live = r :: o.live) :
    Refines { s with table := r :: s.table, objects := objects } o' :=
  ⟨hobjects, hlive ▸ h.table.cons r, List.nodup_cons.mpr ⟨hr, h.nodup⟩, h.failed⟩

theorem Refines.not_mem_live {r : ℕ} (h : Refines s o) (hr : r ∉ s.table) : r ∉ o.live := fun hmem =>
  hr (h.table.mem_iff.mpr (List.mem_append_left _ hmem))

theorem Refines.adopt (h : Refines s o) (hs : s.opens fd = some s') : ∃ o', Refines (s'.adopt fd) o' := by
  obtain ⟨hfresh, rfl⟩ := opens_eq_some_iff.mp hs
  cases fd with
  | none => exact ⟨o, h.fail .assertion⟩
  | some r =>
    have hr := hfresh r rfl
    obtain ⟨o', hobjects, hlive⟩ := h.objects.push (d := some ⟨some ⟨some r⟩⟩) rfl (h.not_mem_live hr)
    exact ⟨o', h.opened hr hobjects hlive⟩

theorem Refines.move (h : Refines s o) (hi : s.object i = some other) :
    ∃ o', Refines (s.move i other) o' := by
  obtain ⟨o', hobjects, hlive⟩ :=
    h.objects.move (object_eq_some_iff.mp hi) (u := some ⟨none⟩) (d := some ⟨other.impl⟩) rfl rfl
  exact ⟨o', h.keep hobjects hlive⟩

theorem Refines.swap (h : Refines s o) (hi : s.object i = some d) (hj : s.object j = some other) :
    ∃ o', Refines (s.swap i j d other) o' := by
  obtain ⟨o', hobjects, hlive⟩ := h.objects.exchange (object_eq_some_iff.mp hi) (object_eq_some_iff.mp hj)
    (u := some ⟨other.impl⟩) (v := some ⟨d.impl⟩) rfl rfl
  exact ⟨o', h.keep hobjects hlive⟩

theorem Refines.openPath (h : Refines s o) (hs : s.openPath d fd = some s') : Refines s' o := by
  unfold Descriptors.openPath at hs
  split_ifs at hs
  · cases hs
    exact h.fail .assertion
  · obtain ⟨u, hu, rfl⟩ := Option.map_eq_some_iff.mp hs
    obtain ⟨hfresh, rfl⟩ := opens_eq_some_iff.mp hu
    refine ⟨h.objects, ?_, ?_, h.failed⟩
    · calc fd.toList ++ s.table ~ fd.toList ++ (o.live ++ s.dropped) := h.table.append_left _
        _ ~ o.live ++ (fd.toList ++ s.dropped) := by
          rw [← List.append_assoc, ← List.append_assoc]
          exact List.perm_append_comm.append_right _
    · cases fd with
      | none => exact h.nodup
      | some r => exact List.nodup_cons.mpr ⟨hfresh r rfl, h.nodup⟩

/-- An object that owns nothing keeps what a call has returned, be it −1. -/
theorem Refines.store (h : Refines s o) (hi : s.object i = some d) (hd : d.impl = none)
    (hs : s.opens fd = some s') : ∃ o', Refines (s'.assign i (some ⟨fd⟩)) o' := by
  obtain ⟨hfresh, rfl⟩ := opens_eq_some_iff.mp hs
  have hobject := object_eq_some_iff.mp hi
  have hnone : (some d).bind held = none := by
    unfold held
    rw [Option.bind_some, hd]
    rfl
  cases fd with
  | none => exact ⟨o, h.keep (h.objects.keep hobject hnone.symm) rfl⟩
  | some r =>
    have hr := hfresh r rfl
    obtain ⟨o', hobjects, hlive⟩ :=
      h.objects.acquire hobject hnone (v := some ⟨some ⟨some r⟩⟩) rfl (h.not_mem_live hr)
    exact ⟨o', h.opened hr hobjects hlive⟩

theorem Refines.create (h : Refines s o) (hi : s.object i = some d) (hs : s.create i d fd = some s') :
    ∃ o', Refines s' o' := by
  unfold Descriptors.create at hs
  split_ifs at hs with hd
  · cases hs
    exact ⟨o, h.fail .assertion⟩
  · obtain ⟨u, hu, rfl⟩ := Option.map_eq_some_iff.mp hs
    exact h.store hi (Option.not_isSome_iff_eq_none.mp hd) hu

theorem Refines.socket (h : Refines s o) (hi : s.object i = some d) (hs : s.socket i d fd = some s') :
    ∃ o', Refines s' o' := by
  unfold Descriptors.socket at hs
  by_cases hd : d.impl.isSome = true
  · rw [if_pos hd] at hs
    cases hs
    exact ⟨o, h.fail .assertion⟩
  · rw [if_neg hd] at hs
    obtain ⟨u, hu, rfl⟩ := Option.map_eq_some_iff.mp hs
    by_cases hfd : fd = none
    · rw [if_pos hfd]
      subst hfd
      cases hu
      exact ⟨o, h.fail .abort⟩
    · rw [if_neg hfd]
      exact h.store hi (Option.not_isSome_iff_eq_none.mp hd) hu

theorem Refines.close (h : Refines s o) (hi : s.object i = some d) : ∃ o', Refines (s.close i d) o' := by
  have hobject := object_eq_some_iff.mp hi
  cases hd : d.impl with
  | none =>
    unfold Descriptors.close
    rw [hd]
    exact ⟨o, h.fail .assertion⟩
  | some impl =>
    have hheld : (some d).bind held = impl.fd := by
      unfold held
      rw [Option.bind_some, hd, Option.bind_some]
    rw [close_of_impl hd]
    cases hfd : impl.fd with
    | none =>
      refine ⟨o, h.objects.keep hobject (hheld.trans hfd).symm, h.table, h.nodup, ?_⟩
      exact List.forall_mem_append.mpr ⟨h.failed, List.forall_mem_singleton.mpr rfl⟩
    | some r =>
      -- What an object owns is open.
      have hlive : r ∈ o.live := h.objects.mem_live hobject (hheld.trans hfd)
      have hopen : r ∈ s.table := h.table.mem_iff.mpr (List.mem_append_left _ hlive)
      have hcloses : s.closes (some r) = { s with table := s.table.erase r } := if_pos hopen
      obtain ⟨o', hobjects, herased⟩ := h.objects.release hobject (hheld.trans hfd) (v := some ⟨none⟩) rfl
      have htable := h.table.erase r
      rw [List.erase_append_left _ hlive, ← herased] at htable
      rw [hcloses]
      exact ⟨o', hobjects, htable, h.nodup.erase r, h.failed⟩

/-- An object that owns nothing any more is destroyed. -/
theorem Refines.drop (h : Refines s o) (hi : s.object i = some d) (hd : d.impl = none) :
    Refines { s with objects := s.objects.set i none } o := by
  refine h.keep (h.objects.keep (object_eq_some_iff.mp hi) ?_) rfl
  unfold held
  rw [Option.bind_some, hd]
  rfl

theorem Refines.destroy (h : Refines s o) (hi : s.object i = some d) : ∃ o', Refines (s.destroy i d) o' := by
  unfold Descriptors.destroy
  by_cases hd : d.impl.isSome = true
  · rw [if_pos hd]
    obtain ⟨o', h'⟩ := h.close hi
    obtain ⟨impl, himpl⟩ := Option.isSome_iff_exists.mp hd
    have hobject : (s.close i d).object i = some ⟨none⟩ := by
      have hsame : (s.closes impl.fd).object i = some d := by
        unfold object
        rw [objects_closes]
        exact hi
      rw [close_of_impl himpl]
      exact object_assign hsame none
    exact ⟨o', h'.drop hobject rfl⟩
  · rw [if_neg hd]
    exact ⟨o, h.drop hi (Option.not_isSome_iff_eq_none.mp hd)⟩

/-- One call, whatever it is. -/
theorem Refines.step {op : Op} (h : Refines s o) (hs : s.step op = some s') : ∃ o', Refines s' o' := by
  unfold Descriptors.step at hs
  split_ifs at hs
  cases op with
  | make =>
    cases hs
    obtain ⟨o', hobjects, hlive⟩ := h.objects.vacant (d := some ⟨none⟩) rfl
    exact ⟨o', h.keep hobjects hlive⟩
  | adopt fd =>
    obtain ⟨u, hu, rfl⟩ := Option.map_eq_some_iff.mp hs
    exact h.adopt hu
  | move i =>
    obtain ⟨other, hi, rfl⟩ := Option.map_eq_some_iff.mp hs
    exact h.move hi
  | swap i j =>
    obtain ⟨d, hi, hs⟩ := Option.bind_eq_some_iff.mp hs
    obtain ⟨other, hj, rfl⟩ := Option.map_eq_some_iff.mp hs
    exact h.swap hi hj
  | openPath i fd =>
    obtain ⟨d, -, hs⟩ := Option.bind_eq_some_iff.mp hs
    exact ⟨o, h.openPath hs⟩
  | create i fd =>
    obtain ⟨d, hi, hs⟩ := Option.bind_eq_some_iff.mp hs
    exact h.create hi hs
  | socket i sockfd =>
    obtain ⟨d, hi, hs⟩ := Option.bind_eq_some_iff.mp hs
    exact h.socket hi hs
  | use i =>
    obtain ⟨d, -, rfl⟩ := Option.map_eq_some_iff.mp hs
    refine ⟨o, ?_⟩
    split_ifs
    · exact h.fail .assertion
    · exact h
  | close i =>
    obtain ⟨d, hi, rfl⟩ := Option.map_eq_some_iff.mp hs
    exact h.close hi
  | destroy i =>
    obtain ⟨d, hi, rfl⟩ := Option.map_eq_some_iff.mp hs
    exact h.destroy hi

/-- The open descriptors are those of the objects and those that `open` has dropped, each of them once; where
all objects are destroyed, nothing else is left; and no `::close` has failed but on −1. -/
structure Sound (s : Descriptors) : Prop where
  table : s.table ~ (s.objects.map fun d => d.bind held).reduceOption ++ s.dropped
  nodup : s.table.Nodup
  left : (∀ d ∈ s.objects, d = none) → s.table ~ s.dropped
  failed : ∀ fd ∈ s.failed, fd = none

theorem Refines.sound (h : Refines s o) : Sound s := by
  have htable := h.table.trans (h.objects.live.append_right _)
  refine ⟨htable, h.nodup, fun hall => ?_, h.failed⟩
  rwa [List.eq_replicate_of_mem hall, List.map_replicate, Option.bind_none, List.reduceOption_replicate_none,
    List.nil_append] at htable

/-- Over every run. -/
theorem accounted_of_run (ops : List Op) : Machine.Always step Sound initial ops :=
  Machine.always_of_meets (I := fun s => ∃ o, Refines s o) (G := fun _ _ => True) (fun _ ⟨_, h⟩ => h.sound)
    (fun _ _ _ ⟨_, h⟩ _ hs => h.step hs) ⟨_, refines_initial⟩ (Machine.meets_of_labels fun _ _ => trivial)

/-- A descriptor that `open` gets is open when its object is gone. -/
example : (Machine.run step initial [.make, .openPath 0 (some 3), .destroy 0]).map Descriptors.table =
    some [3] := by
  decide

end Descriptors

end Hulatang
