import Hulatang.Base.FileDescriptor

/-!
# File descriptors on Windows

A `FileDescriptor` on Windows holds the handle of a file or of a socket, which two different functions of
the system close; `socketFlag` in the handle tells which. So there is more to go wrong than on posix. `bind`
closes the socket when it fails, but the object keeps it; `accept` makes an object with the handle 0; a
socket that cannot be made nonblocking has no owner; and an object made from a socket, as `Acceptor` makes
one for each connection, takes it for a file. The open handles are those of the objects, and each is closed
once by its own function, exactly in the runs in which none of the four happens (`closes_iff_orderly`).
-/

open scoped List

namespace Hulatang.Win32

/-- `fd_t`. -/
abbrev Fd := BitVec 64

def socketFlag : Fd := 1#64 <<< 63

/-- `INVALID_HANDLE_VALUE` and `INVALID_SOCKET`. -/
def FdNull : Fd := BitVec.allOnes 64

/-- `(fd & socketFlag) != 0`. -/
def isSocket (fd : Fd) : Bool := fd &&& socketFlag ≠ 0

/-- `fd & (~socketFlag)`. -/
def handle (fd : Fd) : Fd := fd &&& ~~~socketFlag

/-- Which function closes a handle: `CloseHandle` or `closesocket`. -/
inductive Kind
  | file
  | socket
  deriving DecidableEq

/-- A handle of the system. -/
structure Handle where
  value : Fd
  kind : Kind
  deriving DecidableEq

/-- Which of them `impl::close` calls. -/
def kindOf (fd : Fd) : Kind := if isSocket fd then .socket else .file

/-- `FileDescriptor::Impl`. -/
structure Impl where
  fd : Fd
  deriving DecidableEq

structure FileDescriptor where
  impl : Option Impl
  deriving DecidableEq

/-- The objects of a program, and its handles. -/
structure Handles where
  /-- The objects in the order of their construction, without those that have been destroyed. -/
  objects : List (Option FileDescriptor)
  /-- The handles that are open. -/
  table : List Handle
  /-- What `CloseHandle` and `closesocket` were given that is no open handle of theirs. -/
  refused : List Handle
  fault : Option DescriptorFault

namespace Handles

def initial : Handles := ⟨[], [], [], none⟩

def fail (s : Handles) (fault : DescriptorFault) : Handles := { s with fault := some fault }

/-- An object that has not been destroyed. -/
def object (s : Handles) (i : ℕ) : Option FileDescriptor := s.objects[i]?.join

def assign (s : Handles) (i : ℕ) (impl : Option Impl) : Handles :=
  { s with objects := s.objects.set i (some ⟨impl⟩) }

/-- The system returns a handle that was not open. A handle is not null, and a small number. -/
def opens (s : Handles) (r : Handle) : Option Handles :=
  if r.value ≠ 0 ∧ isSocket r.value = false ∧ r.value ∉ s.table.map Handle.value then
    some { s with table := r :: s.table }
  else none

/-- `CloseHandle` or `closesocket`. -/
def closes (s : Handles) (r : Handle) : Handles :=
  if r ∈ s.table then { s with table := s.table.erase r } else { s with refused := s.refused ++ [r] }

/-! ## `FileDescriptor` -/

/-- `FileDescriptor(fd)`, with what the caller has just opened. -/
def adopt (s : Handles) (fd : Fd) : Handles := { s with objects := s.objects ++ [some ⟨some ⟨fd⟩⟩] }

/-- `FileDescriptor(FileDescriptor &&other)`. -/
def move (s : Handles) (i : ℕ) (other : FileDescriptor) : Handles :=
  { s with objects := (s.assign i none).objects ++ [some ⟨other.impl⟩] }

/-- `swap`. -/
def swap (s : Handles) (i j : ℕ) (d other : FileDescriptor) : Handles :=
  (s.assign i other.impl).assign j d.impl

/-- `open` and `create`, with what `CreateFile` returns. -/
def createFile (s : Handles) (i : ℕ) (d : FileDescriptor) (fd : Fd) : Option Handles :=
  if d.impl.isSome then some (s.fail .assertion)
  else if fd = FdNull then some s
  else (s.opens ⟨fd, .file⟩).map fun s => s.assign i (some ⟨fd⟩)

/-- `socket`, with what `WSASocketW` returns and whether `ioctlsocket` succeeds. -/
def socket (s : Handles) (i : ℕ) (d : FileDescriptor) (fd : Fd) (nonblocking : Bool) : Option Handles :=
  if d.impl.isSome then some (s.fail .assertion)
  else if fd = FdNull then some s
  else
    (s.opens ⟨fd, .socket⟩).map fun s =>
      if ¬ nonblocking then s
      else if isSocket fd then s.fail .assertion
      else s.assign i (some ⟨fd ||| socketFlag⟩)

/-- `bind` to an address, with whether the `::bind` of the system succeeds. -/
def bind (s : Handles) (d : FileDescriptor) (bound : Bool) : Handles :=
  match d.impl with
  | none => s.fail .assertion
  | some impl =>
    if isSocket impl.fd then if bound then s else s.closes ⟨handle impl.fd, .socket⟩
    else s.fail .assertion

/-- `listen`, whatever the system returns. -/
def listen (s : Handles) (d : FileDescriptor) : Handles :=
  match d.impl with
  | none => s.fail .assertion
  | some impl => if isSocket impl.fd then s else s.fail .assertion

/-- `accept`, whose `impl::accept` is empty. -/
def accept (s : Handles) (j : ℕ) (d fd : FileDescriptor) : Handles :=
  if d.impl.isSome ∧ fd.impl = none then s.assign j (some ⟨0⟩) else s.fail .assertion

/-- `lseek`, whatever the system returns. -/
def lseek (s : Handles) (d : FileDescriptor) : Handles :=
  match d.impl with
  | none => s.fail .assertion
  | some impl => if isSocket impl.fd then s.fail .abort else s

/-- `close`. -/
def close (s : Handles) (i : ℕ) (d : FileDescriptor) : Handles :=
  match d.impl with
  | none => s.fail .assertion
  | some impl =>
    let s := if isSocket impl.fd then s.closes ⟨handle impl.fd, .socket⟩ else s.closes ⟨impl.fd, .file⟩
    s.assign i none

/-- `~FileDescriptor`. -/
def destroy (s : Handles) (i : ℕ) (d : FileDescriptor) : Handles :=
  let s := if d.impl.isSome then s.close i d else s
  { s with objects := s.objects.set i none }

/-- What a program does with its objects. -/
inductive Op
  | make
  | adopt (fd : Fd) (kind : Kind)
  | move (i : ℕ)
  | swap (i j : ℕ)
  | createFile (i : ℕ) (fd : Fd)
  | socket (i : ℕ) (fd : Fd) (nonblocking : Bool)
  | bind (i : ℕ) (bound : Bool)
  | listen (i : ℕ)
  | accept (i j : ℕ)
  | lseek (i : ℕ)
  /-- `getFd`, `connect`, `updatePosition`, `peeraddr`: they assert that there is an `impl`. -/
  | use (i : ℕ)
  | close (i : ℕ)
  | destroy (i : ℕ)
  deriving DecidableEq

/-- One call. -/
def step (s : Handles) (op : Op) : Option Handles :=
  if s.fault.isSome then none
  else
    match op with
    | .make => some { s with objects := s.objects ++ [some ⟨none⟩] }
    | .adopt fd kind => (s.opens ⟨fd, kind⟩).map fun s => s.adopt fd
    | .move i => (s.object i).map fun other => s.move i other
    | .swap i j => (s.object i).bind fun d => (s.object j).map fun other => s.swap i j d other
    | .createFile i fd => (s.object i).bind fun d => s.createFile i d fd
    | .socket i fd nonblocking => (s.object i).bind fun d => s.socket i d fd nonblocking
    | .bind i bound => (s.object i).map fun d => s.bind d bound
    | .listen i => (s.object i).map fun d => s.listen d
    | .accept i j => (s.object i).bind fun d => (s.object j).map fun fd => s.accept j d fd
    | .lseek i => (s.object i).map fun d => s.lseek d
    | .use i => (s.object i).map fun d => if d.impl = none then s.fail .assertion else s
    | .close i => (s.object i).map fun d => s.close i d
    | .destroy i => (s.object i).map fun d => s.destroy i d

/-! ## What is to hold -/

/-- The handle of an object, and the function that it closes it with. -/
def held (d : FileDescriptor) : Option Handle := d.impl.map fun impl => ⟨handle impl.fd, kindOf impl.fd⟩

/-- The open handles are those of the objects, each of them once, and nothing was refused. -/
structure Sound (s : Handles) : Prop where
  owned : s.table.map Handle.value ~ (s.objects.map fun d => d.bind held).reduceOption.map Handle.value
  nodup : (s.table.map Handle.value).Nodup
  refused : s.refused = []

/-- The calls that a program has to do without. -/
def Orderly (s : Handles) : Op → Prop
  | .adopt _ kind => kind = .file
  | .socket i fd nonblocking =>
    ∀ d, s.object i = some d → d.impl = none → fd ≠ FdNull → nonblocking = true
  | .bind i bound =>
    ∀ d impl, s.object i = some d → d.impl = some impl → isSocket impl.fd = true → bound = true
  | .accept i j => ∀ d fd, s.object i = some d → s.object j = some fd → d.impl ≠ none → fd.impl ≠ none
  | _ => True

/-- An object is destroyed. -/
def Destroys : Op → Prop
  | .destroy _ => True
  | _ => False

/-! ## The flag -/

section Flag

variable {fd : Fd}

theorem handle_of_file (h : isSocket fd = false) : handle fd = fd := by
  have hclear : fd &&& socketFlag = 0#64 := not_not.mp (of_decide_eq_false h)
  have hall : ~~~socketFlag ||| socketFlag = BitVec.allOnes 64 := by decide
  calc fd &&& ~~~socketFlag = fd &&& ~~~socketFlag ||| fd &&& socketFlag := by rw [hclear, BitVec.or_zero]
    _ = fd &&& (~~~socketFlag ||| socketFlag) := BitVec.and_or_distrib_left.symm
    _ = fd := by rw [hall, BitVec.and_allOnes]

theorem handle_flagged (h : isSocket fd = false) : handle (fd ||| socketFlag) = fd := by
  have hnone : socketFlag &&& ~~~socketFlag = 0#64 := by decide
  calc (fd ||| socketFlag) &&& ~~~socketFlag = fd &&& ~~~socketFlag ||| socketFlag &&& ~~~socketFlag :=
        BitVec.and_or_distrib_right
    _ = fd &&& ~~~socketFlag := by rw [hnone, BitVec.or_zero]
    _ = fd := handle_of_file h

theorem isSocket_flagged (h : isSocket fd = false) : isSocket (fd ||| socketFlag) = true := by
  have hclear : fd &&& socketFlag = 0#64 := not_not.mp (of_decide_eq_false h)
  refine decide_eq_true ?_
  rw [BitVec.and_or_distrib_right, hclear, BitVec.zero_or, BitVec.and_self]
  decide

end Flag

/-! ## What the calls do to the owners -/

/-- What is open is owned. -/
structure Refines (s : Handles) (o : Owners Handle) : Prop where
  objects : o.Holds held s.objects
  table : s.table ~ o.live
  nodup : (s.table.map Handle.value).Nodup
  plain : ∀ r ∈ s.table, isSocket r.value = false
  refused : s.refused = []

variable {s s' : Handles} {o : Owners Handle} {d other : FileDescriptor} {i j : ℕ} {fd : Fd} {kind : Kind}
  {r : Handle}

theorem refines_initial : Refines initial Owners.empty :=
  ⟨Owners.holds_empty, List.Perm.refl _, List.nodup_nil, List.forall_mem_nil _, rfl⟩

theorem object_eq_some_iff : s.object i = some d ↔ s.objects[i]? = some (some d) := by
  unfold object
  rw [Option.join_eq_some_iff]

theorem object_assign (hi : s.object i = some d) (impl : Option Impl) :
    (s.assign i impl).object i = some ⟨impl⟩ := by
  obtain ⟨hlt, -⟩ := List.getElem?_eq_some_iff.mp (object_eq_some_iff.mp hi)
  exact object_eq_some_iff.mpr (List.getElem?_set_self hlt)

theorem held_of_none (hd : d.impl = none) : (some d).bind held = none := congrArg (Option.map _) hd

theorem held_of_impl {impl : Impl} (hd : d.impl = some impl) :
    (some d).bind held = some ⟨handle impl.fd, kindOf impl.fd⟩ :=
  congrArg (Option.map _) hd

theorem held_file (h : isSocket fd = false) :
    (some ⟨some ⟨fd⟩⟩ : Option FileDescriptor).bind held = some ⟨fd, .file⟩ := by
  show some (⟨handle fd, kindOf fd⟩ : Handle) = _
  unfold kindOf
  rw [handle_of_file h, h]
  rfl

theorem held_socket (h : isSocket fd = false) :
    (some ⟨some ⟨fd ||| socketFlag⟩⟩ : Option FileDescriptor).bind held = some ⟨fd, .socket⟩ := by
  show some (⟨handle (fd ||| socketFlag), kindOf (fd ||| socketFlag)⟩ : Handle) = _
  unfold kindOf
  rw [handle_flagged h, isSocket_flagged h]
  rfl

/-- `close` calls the function for what the object holds. -/
theorem close_of_impl {impl : Impl} (hd : d.impl = some impl) :
    s.close i d = (s.closes ⟨handle impl.fd, kindOf impl.fd⟩).assign i none := by
  unfold close kindOf
  rw [hd]
  dsimp only
  cases h : isSocket impl.fd with
  | true => rfl
  | false =>
    rw [handle_of_file h]
    rfl

theorem objects_closes : (s.closes r).objects = s.objects := by
  unfold closes
  split_ifs <;> rfl

theorem opens_eq_some_iff :
    s.opens r = some s' ↔
      (isSocket r.value = false ∧ r.value ∉ s.table.map Handle.value ∧ r.value ≠ 0) ∧
        s' = { s with table := r :: s.table } := by
  unfold opens
  split_ifs with hopens
  · refine ⟨fun h => ⟨⟨hopens.2.1, hopens.2.2, hopens.1⟩, (Option.some.inj h).symm⟩, fun h => ?_⟩
    exact congrArg some h.2.symm
  · exact iff_of_false (fun h => nomatch h) fun h => hopens ⟨h.1.2.2, h.1.1, h.1.2.1⟩

theorem Refines.fail (h : Refines s o) (fault : DescriptorFault) : Refines (s.fail fault) o :=
  ⟨h.objects, h.table, h.nodup, h.plain, h.refused⟩

/-- The objects change, and what they hold together does not. -/
theorem Refines.keep {objects : List (Option FileDescriptor)} {o' : Owners Handle} (h : Refines s o)
    (hobjects : o'.Holds held objects) (hlive : o'.live = o.live) :
    Refines { s with objects := objects } o' :=
  ⟨hobjects, hlive ▸ h.table, h.nodup, h.plain, h.refused⟩

/-- A call has returned a handle that an object keeps. -/
theorem Refines.opened {objects : List (Option FileDescriptor)} {o' : Owners Handle} (h : Refines s o)
    (hplain : isSocket r.value = false) (hr : r.value ∉ s.table.map Handle.value)
    (hobjects : o'.Holds held objects) (hlive : o'.live = r :: o.live) :
    Refines { s with table := r :: s.table, objects := objects } o' :=
  ⟨hobjects, hlive ▸ h.table.cons r, List.nodup_cons.mpr ⟨hr, h.nodup⟩,
    List.forall_mem_cons.mpr ⟨hplain, h.plain⟩, h.refused⟩

theorem Refines.not_mem_live (h : Refines s o) (hr : r.value ∉ s.table.map Handle.value) : r ∉ o.live :=
  fun hmem => hr (List.mem_map_of_mem (h.table.mem_iff.mpr hmem))

/-- What an object holds is open. -/
theorem Refines.mem_table (h : Refines s o) (hi : s.object i = some d) (hd : (some d).bind held = some r) :
    r ∈ s.table :=
  h.table.mem_iff.mpr (h.objects.mem_live (object_eq_some_iff.mp hi) hd)

theorem Refines.adopt (h : Refines s o) (hs : s.opens ⟨fd, .file⟩ = some s') :
    ∃ o', Refines (s'.adopt fd) o' := by
  obtain ⟨⟨hplain, hr, -⟩, rfl⟩ := opens_eq_some_iff.mp hs
  obtain ⟨o', hobjects, hlive⟩ :=
    h.objects.push (d := some ⟨some ⟨fd⟩⟩) (held_file hplain) (h.not_mem_live hr)
  exact ⟨o', h.opened hplain hr hobjects hlive⟩

theorem Refines.move (h : Refines s o) (hi : s.object i = some other) :
    ∃ o', Refines (s.move i other) o' := by
  obtain ⟨o', hobjects, hlive⟩ :=
    h.objects.move (object_eq_some_iff.mp hi) (u := some ⟨none⟩) (d := some ⟨other.impl⟩) rfl rfl
  exact ⟨o', h.keep hobjects hlive⟩

theorem Refines.swap (h : Refines s o) (hi : s.object i = some d) (hj : s.object j = some other) :
    ∃ o', Refines (s.swap i j d other) o' := by
  obtain ⟨o', hobjects, hlive⟩ := h.objects.exchange (object_eq_some_iff.mp hi) (object_eq_some_iff.mp hj)
    (u := some ⟨other.impl⟩) (v := some ⟨d.impl⟩) rfl rfl
  exact ⟨o', h.keep hobjects hlive⟩

/-- An object that owns nothing keeps what a call has returned. -/
theorem Refines.store (h : Refines s o) (hi : s.object i = some d) (hd : d.impl = none)
    (hs : s.opens r = some s') {impl : Impl}
    (hheld : (some ⟨some impl⟩ : Option FileDescriptor).bind held = some r) :
    ∃ o', Refines (s'.assign i (some impl)) o' := by
  obtain ⟨⟨hplain, hr, -⟩, rfl⟩ := opens_eq_some_iff.mp hs
  obtain ⟨o', hobjects, hlive⟩ := h.objects.acquire (object_eq_some_iff.mp hi) (held_of_none hd)
    (v := some ⟨some impl⟩) hheld (h.not_mem_live hr)
  exact ⟨o', h.opened hplain hr hobjects hlive⟩

theorem Refines.createFile (h : Refines s o) (hi : s.object i = some d) (hs : s.createFile i d fd = some s') :
    ∃ o', Refines s' o' := by
  unfold Handles.createFile at hs
  split_ifs at hs with hd hnull
  · cases hs
    exact ⟨o, h.fail .assertion⟩
  · cases hs
    exact ⟨o, h⟩
  · obtain ⟨u, hu, rfl⟩ := Option.map_eq_some_iff.mp hs
    have hplain := (opens_eq_some_iff.mp hu).1.1
    exact h.store hi (Option.not_isSome_iff_eq_none.mp hd) hu (held_file hplain)

theorem Refines.socket (h : Refines s o) (hi : s.object i = some d) {nonblocking : Bool}
    (horderly : s.Orderly (.socket i fd nonblocking)) (hs : s.socket i d fd nonblocking = some s') :
    ∃ o', Refines s' o' := by
  unfold Handles.socket at hs
  by_cases hd : d.impl.isSome = true
  · rw [if_pos hd] at hs
    cases hs
    exact ⟨o, h.fail .assertion⟩
  · rw [if_neg hd] at hs
    by_cases hnull : fd = FdNull
    · rw [if_pos hnull] at hs
      cases hs
      exact ⟨o, h⟩
    · rw [if_neg hnull] at hs
      obtain ⟨u, hu, rfl⟩ := Option.map_eq_some_iff.mp hs
      have hnone := Option.not_isSome_iff_eq_none.mp hd
      have hplain : isSocket fd = false := (opens_eq_some_iff.mp hu).1.1
      obtain rfl := horderly d hi hnone hnull
      rw [if_neg (not_not.mpr rfl), hplain, if_neg Bool.false_ne_true]
      exact h.store hi hnone hu (held_socket hplain)

/-- The function of the system closes a handle that is open. -/
theorem closes_of_mem (hr : r ∈ s.table) : s.closes r = { s with table := s.table.erase r } := if_pos hr

theorem Refines.close (h : Refines s o) (hi : s.object i = some d) : ∃ o', Refines (s.close i d) o' := by
  have hobject := object_eq_some_iff.mp hi
  cases hd : d.impl with
  | none =>
    unfold Handles.close
    rw [hd]
    exact ⟨o, h.fail .assertion⟩
  | some impl =>
    have hopen := h.mem_table hi (held_of_impl hd)
    obtain ⟨o', hobjects, herased⟩ := h.objects.release hobject (held_of_impl hd) (v := some ⟨none⟩) rfl
    have htable := h.table.erase ⟨handle impl.fd, kindOf impl.fd⟩
    have hsublist := List.erase_sublist (a := ⟨handle impl.fd, kindOf impl.fd⟩) (l := s.table)
    rw [← herased] at htable
    rw [close_of_impl hd, closes_of_mem hopen]
    exact ⟨o', hobjects, htable, h.nodup.sublist (hsublist.map _), fun r hr => h.plain r (hsublist.subset hr),
      h.refused⟩

/-- An object that owns nothing any more is destroyed. -/
theorem Refines.drop (h : Refines s o) (hi : s.object i = some d) (hd : d.impl = none) :
    Refines { s with objects := s.objects.set i none } o :=
  h.keep (h.objects.keep (object_eq_some_iff.mp hi) (held_of_none hd).symm) rfl

theorem Refines.destroy (h : Refines s o) (hi : s.object i = some d) : ∃ o', Refines (s.destroy i d) o' := by
  unfold Handles.destroy
  by_cases hd : d.impl.isSome = true
  · rw [if_pos hd]
    obtain ⟨o', h'⟩ := h.close hi
    obtain ⟨impl, himpl⟩ := Option.isSome_iff_exists.mp hd
    have hobject : (s.close i d).object i = some ⟨none⟩ := by
      have hsame : (s.closes ⟨handle impl.fd, kindOf impl.fd⟩).object i = some d := by
        unfold object
        rw [objects_closes]
        exact hi
      rw [close_of_impl himpl]
      exact object_assign hsame none
    exact ⟨o', h'.drop hobject rfl⟩
  · rw [if_neg hd]
    exact ⟨o, h.drop hi (Option.not_isSome_iff_eq_none.mp hd)⟩

/-- Calls that change no object fail or do nothing. -/
theorem Refines.listen (h : Refines s o) : Refines (s.listen d) o := by
  unfold Handles.listen
  split
  · exact h.fail .assertion
  · split_ifs
    · exact h
    · exact h.fail .assertion

theorem Refines.lseek (h : Refines s o) : Refines (s.lseek d) o := by
  unfold Handles.lseek
  split
  · exact h.fail .assertion
  · split_ifs
    · exact h.fail .abort
    · exact h

theorem Refines.bind (h : Refines s o) (hi : s.object i = some d) {bound : Bool}
    (horderly : s.Orderly (.bind i bound)) : Refines (s.bind d bound) o := by
  unfold Handles.bind
  split
  · exact h.fail .assertion
  · rename_i impl hd
    by_cases hsocket : isSocket impl.fd = true
    · obtain rfl := horderly d impl hi hd hsocket
      rw [if_pos hsocket]
      exact h
    · rw [if_neg hsocket]
      exact h.fail .assertion

theorem Refines.accept (h : Refines s o) (hi : s.object i = some d) (hj : s.object j = some other)
    (horderly : s.Orderly (.accept i j)) : Refines (s.accept j d other) o := by
  unfold Handles.accept
  rw [if_neg fun hboth => horderly d other hi hj (Option.isSome_iff_ne_none.mp hboth.1) hboth.2]
  exact h.fail .assertion

/-- A call that the program may make. -/
theorem Refines.step {op : Op} (h : Refines s o) (horderly : s.Orderly op) (hs : s.step op = some s') :
    ∃ o', Refines s' o' := by
  unfold Handles.step at hs
  split_ifs at hs
  cases op with
  | make =>
    cases hs
    obtain ⟨o', hobjects, hlive⟩ := h.objects.vacant (d := some ⟨none⟩) rfl
    exact ⟨o', h.keep hobjects hlive⟩
  | adopt fd kind =>
    obtain ⟨u, hu, rfl⟩ := Option.map_eq_some_iff.mp hs
    obtain rfl : kind = .file := horderly
    exact h.adopt hu
  | move i =>
    obtain ⟨other, hi, rfl⟩ := Option.map_eq_some_iff.mp hs
    exact h.move hi
  | swap i j =>
    obtain ⟨d, hi, hs⟩ := Option.bind_eq_some_iff.mp hs
    obtain ⟨other, hj, rfl⟩ := Option.map_eq_some_iff.mp hs
    exact h.swap hi hj
  | createFile i fd =>
    obtain ⟨d, hi, hs⟩ := Option.bind_eq_some_iff.mp hs
    exact h.createFile hi hs
  | socket i fd nonblocking =>
    obtain ⟨d, hi, hs⟩ := Option.bind_eq_some_iff.mp hs
    exact h.socket hi horderly hs
  | bind i bound =>
    obtain ⟨d, hi, rfl⟩ := Option.map_eq_some_iff.mp hs
    exact ⟨o, h.bind hi horderly⟩
  | listen i =>
    obtain ⟨d, -, rfl⟩ := Option.map_eq_some_iff.mp hs
    exact ⟨o, h.listen⟩
  | accept i j =>
    obtain ⟨d, hi, hs⟩ := Option.bind_eq_some_iff.mp hs
    obtain ⟨other, hj, rfl⟩ := Option.map_eq_some_iff.mp hs
    exact ⟨o, h.accept hi hj horderly⟩
  | lseek i =>
    obtain ⟨d, -, rfl⟩ := Option.map_eq_some_iff.mp hs
    exact ⟨o, h.lseek⟩
  | use i =>
    obtain ⟨d, -, rfl⟩ := Option.map_eq_some_iff.mp hs
    refine ⟨o, ?_⟩
    split_ifs
    · exact h.fail .assertion
    · exact h
  | close i =>
    obtain ⟨d, hi, rfl⟩ := Option.map_eq_some_iff.mp hs
    exact h.close hi
  | destroy i =>
    obtain ⟨d, hi, rfl⟩ := Option.map_eq_some_iff.mp hs
    exact h.destroy hi

theorem Refines.sound (h : Refines s o) : Sound s :=
  ⟨(h.table.trans h.objects.live).map Handle.value, h.nodup, h.refused⟩

/-! ## What breaks it -/

/-- How many handles the objects have. -/
def owners (s : Handles) : ℕ := (s.objects.map fun d => d.bind held).reduceOption.length

theorem Sound.length_table (h : Sound s) : s.table.length = s.owners := by
  have hlength := h.owned.length_eq
  rwa [List.length_map, List.length_map] at hlength

theorem Refines.length_table (h : Refines s o) : s.table.length = s.owners := h.sound.length_table

/-- An object whose handle is not open, or not closed by the function that it calls, is destroyed. -/
theorem breaks_of_object {impl : Impl} (hrunning : s.fault = none) (hi : s.object i = some d)
    (hd : d.impl = some impl) (hnot : ⟨handle impl.fd, kindOf impl.fd⟩ ∉ s.table) :
    Machine.Breaks Handles.step Sound Destroys s := by
  have hstep : s.step (.destroy i) = some (s.destroy i d) := by
    unfold Handles.step
    rw [hrunning, if_neg (by decide)]
    dsimp only
    rw [hi]
    rfl
  have hcloses : s.closes ⟨handle impl.fd, kindOf impl.fd⟩ =
      { s with refused := s.refused ++ [⟨handle impl.fd, kindOf impl.fd⟩] } := if_neg hnot
  have hdestroy : (s.destroy i d).refused = s.refused ++ [⟨handle impl.fd, kindOf impl.fd⟩] := by
    unfold Handles.destroy
    rw [if_pos (Option.isSome_iff_exists.mpr ⟨impl, hd⟩), close_of_impl hd, hcloses]
    rfl
  refine ⟨[.destroy i], ?_, fun halways => ?_⟩
  · intro op hop
    obtain rfl := List.mem_singleton.mp hop
    trivial
  · have hrefused := (halways.2 _ hstep).refused
    rw [hdestroy] at hrefused
    exact List.cons_ne_nil _ _ (List.append_eq_nil_iff.mp hrefused).2

/-- An object that is made from a socket is closed as a file. -/
theorem breaks_of_adopt (hrunning : s.fault = none) (hs : s.opens ⟨fd, .socket⟩ = some s') :
    Machine.Breaks Handles.step Sound Destroys (s'.adopt fd) := by
  obtain ⟨⟨hplain, hr, -⟩, rfl⟩ := opens_eq_some_iff.mp hs
  change isSocket fd = false at hplain
  change fd ∉ s.table.map Handle.value at hr
  have hkind : kindOf fd = .file := by
    unfold kindOf
    rw [hplain]
    rfl
  have himpl : (⟨some ⟨fd⟩⟩ : FileDescriptor).impl = some ⟨fd⟩ := rfl
  refine breaks_of_object hrunning (object_eq_some_iff.mpr List.getElem?_concat_length) himpl ?_
  show ⟨handle fd, kindOf fd⟩ ∉ (⟨fd, .socket⟩ : Handle) :: s.table
  rw [handle_of_file hplain, hkind]
  intro hmem
  rcases List.mem_cons.mp hmem with heq | hmem
  · cases heq
  · exact hr (List.mem_map_of_mem hmem)

/-- A socket that stays blocking has no owner. -/
theorem Refines.breaks_of_socket (h : Refines s o) (hd : d.impl = none) (hnull : fd ≠ FdNull)
    (hs : s.socket i d fd false = some s') : ¬ Sound s' := by
  intro hsound
  unfold Handles.socket at hs
  rw [hd, if_neg (by decide), if_neg hnull] at hs
  obtain ⟨u, hu, rfl⟩ := Option.map_eq_some_iff.mp hs
  obtain ⟨-, rfl⟩ := opens_eq_some_iff.mp hu
  have hlength := hsound.length_table
  rw [if_pos (by decide)] at hlength
  change s.table.length + 1 = s.owners at hlength
  have hbefore := h.length_table
  omega

/-- A socket that cannot be bound is closed, and has an owner. -/
theorem Refines.breaks_of_bind (h : Refines s o) (hi : s.object i = some d) {impl : Impl}
    (hd : d.impl = some impl) (hsocket : isSocket impl.fd = true) : ¬ Sound (s.bind d false) := by
  intro hsound
  have hopen := h.mem_table hi (held_of_impl hd)
  have hkind : kindOf impl.fd = .socket := by
    unfold kindOf
    rw [hsocket]
    rfl
  rw [hkind] at hopen
  have hbind : s.bind d false = { s with table := s.table.erase ⟨handle impl.fd, .socket⟩ } := by
    unfold Handles.bind
    rw [hd]
    dsimp only
    rw [if_pos hsocket, if_neg Bool.false_ne_true, closes_of_mem hopen]
  have hlength := hsound.length_table
  rw [hbind] at hlength
  change (s.table.erase ⟨handle impl.fd, .socket⟩).length = s.owners at hlength
  have hpos := List.length_pos_of_mem hopen
  have hbefore := h.length_table
  rw [List.length_erase_of_mem hopen] at hlength
  omega

/-- `accept` gives an object a handle that no call has returned. -/
theorem Refines.breaks_of_accept (h : Refines s o) (hd : d.impl ≠ none) (hj : s.object j = some other)
    (hother : other.impl = none) : ¬ Sound (s.accept j d other) := by
  intro hsound
  have haccept : s.accept j d other = s.assign j (some ⟨0⟩) :=
    if_pos ⟨Option.isSome_iff_ne_none.mpr hd, hother⟩
  have hlength := hsound.length_table
  have hbefore := h.length_table
  have hplace : (s.objects.map fun d => d.bind held)[j]? = some none := by
    rw [List.getElem?_map, object_eq_some_iff.mp hj]
    exact congrArg some (held_of_none hother)
  have hperm := Owners.perm_reduceOption_set hplace (some (⟨0, .file⟩ : Handle))
  have hone := hperm.length_eq
  rw [haccept] at hlength
  change s.table.length = ((s.objects.set j (some ⟨some ⟨0⟩⟩)).map fun d => d.bind held).reduceOption.length
    at hlength
  rw [List.map_set, held_file (by decide)] at hlength
  rw [List.length_append, List.length_append, Option.toList_none, Option.toList_some, List.length_nil,
    List.length_singleton] at hone
  unfold owners at hbefore
  omega

theorem Refines.breaks {op : Op} (h : Refines s o) (hnot : ¬ s.Orderly op) (hs : s.step op = some s') :
    Machine.Breaks Handles.step Sound Destroys s' := by
  have hrunning : s.fault = none := by
    unfold Handles.step at hs
    split_ifs at hs with hfault
    exact Option.not_isSome_iff_eq_none.mp hfault
  unfold Handles.step at hs
  rw [hrunning, if_neg (by decide)] at hs
  cases op with
  | adopt fd kind =>
    obtain ⟨u, hu, rfl⟩ := Option.map_eq_some_iff.mp hs
    cases kind with
    | file => exact absurd rfl hnot
    | socket => exact breaks_of_adopt hrunning hu
  | socket i fd nonblocking =>
    obtain ⟨d, hi, hs⟩ := Option.bind_eq_some_iff.mp hs
    obtain ⟨hd, hnull, hblocking⟩ : d.impl = none ∧ fd ≠ FdNull ∧ nonblocking = false := by
      by_contra hcontra
      refine hnot fun e he hd hnull => ?_
      cases hi.symm.trans he
      exact Bool.of_not_eq_false fun hblocking => hcontra ⟨hd, hnull, hblocking⟩
    subst hblocking
    exact Machine.breaks_of_not (h.breaks_of_socket hd hnull hs)
  | bind i bound =>
    obtain ⟨d, hi, rfl⟩ := Option.map_eq_some_iff.mp hs
    obtain ⟨impl, hd, hsocket, hbound⟩ :
        ∃ impl, d.impl = some impl ∧ isSocket impl.fd = true ∧ bound = false := by
      by_contra hcontra
      refine hnot fun e impl he hd hsocket => ?_
      cases hi.symm.trans he
      exact Bool.of_not_eq_false fun hbound => hcontra ⟨impl, hd, hsocket, hbound⟩
    subst hbound
    exact Machine.breaks_of_not (h.breaks_of_bind hi hd hsocket)
  | accept i j =>
    obtain ⟨d, hi, hs⟩ := Option.bind_eq_some_iff.mp hs
    obtain ⟨other, hj, rfl⟩ := Option.map_eq_some_iff.mp hs
    obtain ⟨hd, hother⟩ : d.impl ≠ none ∧ other.impl = none := by
      by_contra hcontra
      refine hnot fun e f he hf hd hother => ?_
      cases hi.symm.trans he
      cases hj.symm.trans hf
      exact hcontra ⟨hd, hother⟩
    exact Machine.breaks_of_not (h.breaks_of_accept hd hj hother)
  | _ => exact absurd trivial hnot

/-- The open handles are those of the objects, and each is closed once by its own function, in a run and
whatever is destroyed after any part of it, exactly when the run makes no object from a socket, every socket
that it makes can be made nonblocking, no address fails to be bound, and nothing is accepted with `accept`. -/
theorem closes_iff_orderly (ops : List Op) :
    Machine.Robust step Sound Destroys initial ops ↔ Machine.Meets step Orderly initial ops := by
  apply Machine.robust_iff_meets (I := fun s => ∃ o, Refines s o) _ _ _ _ ⟨_, refines_initial⟩
  · rintro s ⟨o, h⟩
    exact h.sound
  · intro s op hdestroys
    cases op with
    | destroy _ => trivial
    | _ => cases hdestroys
  · rintro s op s' ⟨o, h⟩ horderly hs
    exact h.step horderly hs
  · rintro s op s' ⟨o, h⟩ hnot hs
    exact h.breaks hnot hs

/-- A connection that was accepted is closed with `CloseHandle`. -/
example : (Machine.run step initial [.adopt 5 .socket, .destroy 0]).map Handles.refused =
    some [⟨5, .file⟩] := by
  decide

end Handles

end Hulatang.Win32
