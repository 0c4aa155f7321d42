import Hulatang.Lib.Heap
import Hulatang.Lib.Machine
import Hulatang.Lib.Owners

/-!
# Addresses

An `InetAddress` is a pointer to a `sockaddr` from `malloc`, which its destructor gives to `free`. It is moved
by exchanging with an address that has none, and assigned through a temporary, whose destructor frees what the
target has had. So a program may take addresses for values: in every run each object has the bytes that it
would have if the objects were the bytes themselves. What is allocated is what the objects point to, each
block from one object, and no block is freed twice (`represents_of_run`).
-/

namespace Hulatang

structure InetAddress where
  sockaddr_ : Option ℕ
  sockaddrLength_ : ℕ
  deriving DecidableEq

/-- The objects of a program, in the order of their construction and without those that have been destroyed,
and the blocks that they point to. -/
structure Addresses where
  objects : List (Option InetAddress)
  heap : Heap (List UInt8)
  /-- Whether `free` was given a pointer to a block that is not there. -/
  invalidFree : Bool

namespace Addresses

def initial : Addresses := ⟨[], .empty, false⟩

/-- `InetAddress()`. -/
def null : InetAddress := ⟨none, 0⟩

/-- An object that has not been destroyed. -/
def object (s : Addresses) (i : ℕ) : Option InetAddress := s.objects[i]?.join

def assign (s : Addresses) (i : ℕ) (d : InetAddress) : Addresses :=
  { s with objects := s.objects.set i (some d) }

def freeSocketAddress (s : Addresses) : Option ℕ → Addresses
  | none => s
  | some addr =>
    if s.heap.cells addr = none then { s with invalidFree := true }
    else { s with heap := s.heap.delete addr }

/-- `copyFromNative`, whose `allocSocketAddress` gets a block where there is none. -/
def copyFromNative (s : Addresses) (addr : List UInt8) (hint : ℕ) : Addresses :=
  let sa := s.heap.fresh hint
  { s with
    heap := s.heap.set sa addr
    objects := s.objects ++ [some ⟨some sa, addr.length⟩] }

/-- `fromHostnameAndService`, with the answer of `getaddrinfo`. -/
def fromHostnameAndService (s : Addresses) (answer : Option (List UInt8)) (hint : ℕ) : Addresses :=
  match answer with
  | none => { s with objects := s.objects ++ [some null] }
  | some addr => s.copyFromNative addr hint

/-- `InetAddress(InetAddress &&other)`, which swaps with a new object. -/
def move (s : Addresses) (i : ℕ) (other : InetAddress) : Addresses :=
  { s with objects := (s.assign i null).objects ++ [some other] }

/-- `operator=(InetAddress &&other)`. -/
def moveAssign (s : Addresses) (i j : ℕ) : Option Addresses := do
  -- `temp` takes what `other` has, before the target is looked at: they may be the same.
  let temp ← s.object j
  let s := s.assign j null
  let d ← s.object i
  return (s.assign i temp).freeSocketAddress d.sockaddr_

/-- `swap`. -/
def swap (s : Addresses) (i j : ℕ) (d other : InetAddress) : Addresses := (s.assign i other).assign j d

/-- `~InetAddress`. -/
def destroy (s : Addresses) (i : ℕ) (d : InetAddress) : Addresses :=
  let s := s.freeSocketAddress d.sockaddr_
  { s with objects := s.objects.set i none }

/-- What a program does with its objects. -/
inductive Op
  | make
  | copyFromNative (addr : List UInt8) (hint : ℕ)
  | fromHostnameAndService (answer : Option (List UInt8)) (hint : ℕ)
  | move (i : ℕ)
  | moveAssign (i j : ℕ)
  | swap (i j : ℕ)
  | destroy (i : ℕ)
  deriving DecidableEq

/-- One call. -/
def step (s : Addresses) : Op → Option Addresses
  | .make => some { s with objects := s.objects ++ [some null] }
  | .copyFromNative addr hint => some (s.copyFromNative addr hint)
  | .fromHostnameAndService answer hint => some (s.fromHostnameAndService answer hint)
  | .move i => (s.object i).map fun other => s.move i other
  | .moveAssign i j => s.moveAssign i j
  | .swap i j => (s.object i).bind fun d => (s.object j).map fun other => s.swap i j d other
  | .destroy i => (s.object i).map fun d => s.destroy i d

/-! ## Addresses as values -/

/-- The bytes of each object, if it has any, and `none` for one that has been destroyed. -/
abbrev Values := List (Option (Option (List UInt8)))

/-- What the calls do to values. -/
def next (v : Values) : Op → Values
  | .make => v ++ [some none]
  | .copyFromNative addr _ => v ++ [some (some addr)]
  | .fromHostnameAndService answer _ => v ++ [some answer]
  | .move i => v.set i (some none) ++ [v[i]?.join]
  | .moveAssign i j => (v.set j (some none)).set i v[j]?.join
  | .swap i j => (v.set i v[j]?.join).set j v[i]?.join
  | .destroy i => v.set i none

/-- What `getSockaddr` points to. -/
def read (s : Addresses) (d : InetAddress) : Option (List UInt8) := d.sockaddr_.bind s.heap.cells

variable {s s' : Addresses} {o o' : Owners ℕ} {v : Values} {d other temp : InetAddress} {i j p : ℕ}

/-- The objects have the values, and what is allocated is what they own. -/
structure Refines (s : Addresses) (o : Owners ℕ) (v : Values) : Prop where
  objects : o.Holds InetAddress.sockaddr_ s.objects
  live : ∀ p, p ∈ o.live ↔ s.heap.cells p ≠ none
  values : v = s.objects.map (Option.map s.read)
  lengths : ∀ d, some d ∈ s.objects → d.sockaddrLength_ = (s.read d).elim 0 List.length
  invalidFree : s.invalidFree = false

theorem refines_initial : Refines initial Owners.empty [] :=
  ⟨Owners.holds_empty, fun _ => iff_of_false List.not_mem_nil (not_not_intro rfl), rfl,
    fun _ h => absurd h List.not_mem_nil, rfl⟩

theorem object_eq_some_iff : s.object i = some d ↔ s.objects[i]? = some (some d) := by
  unfold object
  rw [Option.join_eq_some_iff]

/-! ### Reading after a change -/

theorem Refines.mem_live (h : Refines s o v) (hd : some d ∈ s.objects) (hp : d.sockaddr_ = some p) :
    p ∈ o.live := by
  obtain ⟨i, hi⟩ := List.getElem?_of_mem hd
  exact h.objects.mem_live hi hp

/-- What an object points to is allocated. -/
theorem Refines.allocated (h : Refines s o v) (hd : some d ∈ s.objects) (hp : d.sockaddr_ = some p) :
    s.heap.cells p ≠ none :=
  (h.live p).mp (h.mem_live hd hp)

/-- What an object reads depends on its own block. -/
theorem read_congr (hsame : ∀ p, d.sockaddr_ = some p → s'.heap.cells p = s.heap.cells p) :
    s'.read d = s.read d := by
  unfold read
  cases hd : d.sockaddr_ with
  | none => rfl
  | some p => exact hsame p hd

theorem Refines.value (h : Refines s o v) (i : ℕ) : v[i]?.join = (s.object i).map s.read := by
  unfold object
  rw [h.values, List.getElem?_map]
  cases s.objects[i]? with
  | none => rfl
  | some d => rfl

/-- The objects exchange what they have. -/
theorem Refines.keep {objects : List (Option InetAddress)} (h : Refines s o v)
    (hobjects : o'.Holds InetAddress.sockaddr_ objects) (hlive : o'.live = o.live)
    (hold : ∀ d, some d ∈ objects → some d ∈ s.objects ∨ d = null) :
    Refines { s with objects := objects } o' (objects.map (Option.map s.read)) := by
  refine ⟨hobjects, hlive ▸ h.live, rfl, fun d hd => ?_, h.invalidFree⟩
  rcases hold d hd with hmem | rfl
  · exact h.lengths d hmem
  · rfl

/-- A block that no object points to any more is freed. -/
theorem Refines.freed {objects : List (Option InetAddress)} (h : Refines s o v)
    (hobjects : o'.Holds InetAddress.sockaddr_ objects) (hlive : o'.live = o.live.erase p)
    (hold : ∀ d, some d ∈ objects → some d ∈ s.objects ∨ d = null) :
    Refines { s with objects := objects, heap := s.heap.delete p } o' (objects.map (Option.map s.read)) := by
  have hkept : ∀ q, q ∈ o'.live ↔ q ≠ p ∧ q ∈ o.live := fun q => by
    rw [hlive]
    exact o.nodup.mem_erase_iff
  have hread : ∀ d, some d ∈ objects → ∀ t : Addresses, t.heap = s.heap.delete p → t.read d = s.read d := by
    intro d hd t ht
    refine read_congr fun q hq => ?_
    obtain ⟨i, hi⟩ := List.getElem?_of_mem hd
    rw [ht]
    exact Heap.delete_of_ne ((hkept q).mp (hobjects.mem_live hi hq)).1
  refine ⟨hobjects, fun q => ?_, ?_, fun d hd => ?_, h.invalidFree⟩
  · rw [hkept, h.live]
    show q ≠ p ∧ _ ↔ (s.heap.delete p).cells q ≠ none
    by_cases hq : q = p
    · subst hq
      exact iff_of_false (fun hne => hne.1 rfl) (not_not_intro (Function.update_self ..))
    · rw [Heap.delete_of_ne hq]
      exact and_iff_right hq
  · refine List.map_congr_left fun d hd => ?_
    cases d with
    | none => rfl
    | some d => exact congrArg some (hread d hd _ rfl).symm
  · rw [hread d hd _ rfl]
    rcases hold d hd with hmem | rfl
    · exact h.lengths d hmem
    · rfl

/-- A block is allocated for a new object. -/
theorem Refines.copyFromNative (h : Refines s o v) (addr : List UInt8) (hint : ℕ) :
    ∃ o', Refines (s.copyFromNative addr hint) o' (v ++ [some (some addr)]) := by
  have hfresh : s.heap.fresh hint ∉ o.live := fun hmem => (h.live _).mp hmem (Heap.cells_fresh ..)
  obtain ⟨o', hobjects, hlive⟩ :=
    h.objects.push (d := some ⟨some (s.heap.fresh hint), addr.length⟩) rfl hfresh
  have hself : (s.copyFromNative addr hint).read ⟨some (s.heap.fresh hint), addr.length⟩ = some addr :=
    Heap.set_self ..
  have hread : ∀ d, some d ∈ s.objects → (s.copyFromNative addr hint).read d = s.read d := by
    intro d hd
    refine read_congr fun q hq => Heap.set_of_ne ?_
    rintro rfl
    exact hfresh (h.mem_live hd hq)
  refine ⟨o', hobjects, fun q => ?_, ?_, fun d hd => ?_, h.invalidFree⟩
  · rw [hlive, List.mem_cons, h.live]
    show _ ↔ (s.heap.set (s.heap.fresh hint) addr).cells q ≠ none
    by_cases hq : q = s.heap.fresh hint
    · rw [hq, Heap.set_self]
      exact iff_of_true (.inl rfl) (Option.some_ne_none _)
    · rw [Heap.set_of_ne hq]
      exact or_iff_right hq
  · show v ++ _ = (s.objects ++ _).map _
    rw [List.map_append, h.values, List.map_singleton, Option.map_some, hself]
    refine congrArg (· ++ _) (List.map_congr_left fun d hd => ?_)
    cases d with
    | none => rfl
    | some d => exact congrArg some (hread d hd).symm
  · rcases List.mem_append.mp hd with hmem | hlast
    · rw [hread d hmem]
      exact h.lengths d hmem
    · cases List.mem_singleton.mp hlast
      rw [hself]
      rfl

/-! ## Calls -/

theorem Refines.make (h : Refines s o v) :
    ∃ o', Refines { s with objects := s.objects ++ [some null] } o' (v ++ [some none]) := by
  obtain ⟨o', hobjects, hlive⟩ := h.objects.vacant (d := some null) rfl
  have hmade := h.keep hobjects hlive fun d hd => by
    rcases List.mem_append.mp hd with hmem | hlast
    · exact .inl hmem
    · exact .inr (Option.some.inj (List.mem_singleton.mp hlast))
  rw [List.map_append, ← h.values] at hmade
  exact ⟨o', hmade⟩

theorem Refines.fromHostnameAndService (h : Refines s o v) (answer : Option (List UInt8)) (hint : ℕ) :
    ∃ o', Refines (s.fromHostnameAndService answer hint) o' (v ++ [some answer]) := by
  cases answer with
  | none => exact h.make
  | some addr => exact h.copyFromNative addr hint

/-- What is in the list after one place was assigned. -/
theorem mem_of_mem_set {objects : List (Option InetAddress)} (h : some d ∈ objects.set i (some other)) :
    some d ∈ objects ∨ d = other := by
  rcases List.mem_or_eq_of_mem_set h with hmem | heq
  · exact .inl hmem
  · exact .inr (Option.some.inj heq)

theorem Refines.move (h : Refines s o v) (hi : s.object i = some other) :
    ∃ o', Refines (s.move i other) o' (next v (.move i)) := by
  have hobject := object_eq_some_iff.mp hi
  obtain ⟨o', hobjects, hlive⟩ := h.objects.move hobject (u := some null) (d := some other) rfl rfl
  have hmoved := h.keep hobjects hlive fun d hd => by
    rcases List.mem_append.mp hd with hmem | hlast
    · exact mem_of_mem_set hmem
    · cases List.mem_singleton.mp hlast
      exact .inl (List.mem_of_getElem? hobject)
  rw [List.map_append, List.map_set, ← h.values] at hmoved
  have hvalue := h.value i
  rw [hi] at hvalue
  unfold next
  dsimp only
  rw [hvalue]
  exact ⟨o', hmoved⟩

theorem Refines.swap (h : Refines s o v) (hi : s.object i = some d) (hj : s.object j = some other) :
    ∃ o', Refines (s.swap i j d other) o' (next v (.swap i j)) := by
  have hobject := object_eq_some_iff.mp hi
  have hother := object_eq_some_iff.mp hj
  obtain ⟨o', hobjects, hlive⟩ :=
    h.objects.exchange hobject hother (u := some other) (v := some d) rfl rfl
  have hswapped := h.keep hobjects hlive fun c hc => by
    rcases mem_of_mem_set hc with hmem | rfl
    · rcases mem_of_mem_set hmem with hmem | rfl
      · exact .inl hmem
      · exact .inl (List.mem_of_getElem? hother)
    · exact .inl (List.mem_of_getElem? hobject)
  rw [List.map_set, List.map_set, ← h.values] at hswapped
  have hvalue := h.value i
  have hvalue' := h.value j
  rw [hi] at hvalue
  rw [hj] at hvalue'
  unfold next
  dsimp only
  rw [hvalue, hvalue']
  exact ⟨o', hswapped⟩

/-- `free` of what an object has had. -/
theorem freeSocketAddress_of_allocated (hp : s.heap.cells p ≠ none) :
    s.freeSocketAddress (some p) = { s with heap := s.heap.delete p } := if_neg hp

theorem Refines.destroy (h : Refines s o v) (hi : s.object i = some d) :
    ∃ o', Refines (s.destroy i d) o' (next v (.destroy i)) := by
  have hobject := object_eq_some_iff.mp hi
  have hold : ∀ c, some c ∈ s.objects.set i none → some c ∈ s.objects ∨ c = null := by
    intro c hc
    rcases List.mem_or_eq_of_mem_set hc with hmem | heq
    · exact .inl hmem
    · cases heq
  have hvalues : (s.objects.set i none).map (Option.map s.read) = v.set i none := by
    rw [List.map_set, ← h.values]
    rfl
  show ∃ o', Refines _ o' (v.set i none)
  rw [← hvalues]
  unfold Addresses.destroy
  cases hd : d.sockaddr_ with
  | none => exact ⟨o, h.keep (h.objects.keep hobject hd.symm) rfl hold⟩
  | some p =>
    obtain ⟨o', hobjects, hlive⟩ := h.objects.release hobject hd (v := none) rfl
    rw [freeSocketAddress_of_allocated (h.allocated (List.mem_of_getElem? hobject) hd)]
    exact ⟨o', h.freed hobjects hlive hold⟩

/-- An object that is assigned to itself has what it has had. -/
theorem moveAssign_self (hi : s.object i = some temp) : s.moveAssign i i = some s := by
  have hobject := object_eq_some_iff.mp hi
  obtain ⟨hlt, -⟩ := List.getElem?_eq_some_iff.mp hobject
  have hnull : (s.assign i null).object i = some null := object_eq_some_iff.mpr (List.getElem?_set_self hlt)
  have hback : (s.assign i null).assign i temp = s := by
    show { s with objects := (s.objects.set i (some null)).set i (some temp) } = s
    rw [List.set_set, Owners.set_place hobject]
  unfold moveAssign
  rw [hi, Option.bind_eq_bind, Option.bind_some]
  dsimp only
  rw [hnull, Option.bind_some, hback]
  rfl

/-- The target is another object, and what it has had is freed. -/
theorem moveAssign_of_ne (hij : i ≠ j) (hi : s.object i = some d) (hj : s.object j = some temp) :
    s.moveAssign i j = some (((s.assign j null).assign i temp).freeSocketAddress d.sockaddr_) := by
  have hsame : (s.assign j null).object i = some d := by
    refine object_eq_some_iff.mpr ?_
    show (s.objects.set j (some null))[i]? = _
    rw [List.getElem?_set_ne hij.symm]
    exact object_eq_some_iff.mp hi
  unfold moveAssign
  rw [hj, Option.bind_eq_bind, Option.bind_some]
  dsimp only
  rw [hsame]
  rfl

theorem Refines.moveAssign (h : Refines s o v) (hs : s.moveAssign i j = some s') :
    ∃ o', Refines s' o' (next v (.moveAssign i j)) := by
  obtain ⟨temp, hj, hrest⟩ := Option.bind_eq_some_iff.mp hs
  obtain ⟨d', hd', -⟩ := Option.bind_eq_some_iff.mp hrest
  have htemp := object_eq_some_iff.mp hj
  have hvalue := h.value j
  rw [hj] at hvalue
  unfold next
  dsimp only
  rw [hvalue]
  by_cases hij : i = j
  · subst hij
    cases (moveAssign_self hj).symm.trans hs
    have hread : v[i]? = some (some (s.read temp)) := by
      rw [h.values, List.getElem?_map, htemp]
      rfl
    rw [Option.map_some, List.set_set, Owners.set_place hread]
    exact ⟨o, h⟩
  · have hobject : s.objects[i]? = some (some d') := by
      have hset := object_eq_some_iff.mp hd'
      change (s.objects.set j (some null))[i]? = _ at hset
      rwa [List.getElem?_set_ne (Ne.symm hij)] at hset
    have hold : ∀ c, some c ∈ (s.objects.set j (some null)).set i (some temp) →
        some c ∈ s.objects ∨ c = null := by
      intro c hc
      rcases mem_of_mem_set hc with hmem | rfl
      · exact mem_of_mem_set hmem
      · exact .inl (List.mem_of_getElem? htemp)
    have hvalues : ((s.objects.set j (some null)).set i (some temp)).map (Option.map s.read) =
        (v.set j (some none)).set i ((some temp).map s.read) := by
      rw [List.map_set, List.map_set, ← h.values]
      rfl
    cases (moveAssign_of_ne hij (object_eq_some_iff.mpr hobject) hj).symm.trans hs
    rw [← hvalues]
    cases hp : d'.sockaddr_ with
    | none =>
      obtain ⟨o', hobjects, hlive⟩ :=
        h.objects.exchange htemp hobject (u := some null) (v := some temp) hp.symm rfl
      exact ⟨o', h.keep hobjects hlive hold⟩
    | some p =>
      obtain ⟨o', hobjects, hlive⟩ :=
        h.objects.replace hij hobject htemp hp (u := some null) (v := some temp) rfl rfl
      have hallocated := h.allocated (List.mem_of_getElem? hobject) hp
      have hfree : ((s.assign j null).assign i temp).freeSocketAddress (some p) =
          { (s.assign j null).assign i temp with heap := s.heap.delete p } :=
        freeSocketAddress_of_allocated hallocated
      rw [hfree]
      exact ⟨o', h.freed hobjects hlive hold⟩

/-- One call, whatever it is. -/
theorem Refines.step {op : Op} (h : Refines s o v) (hs : s.step op = some s') :
    ∃ o', Refines s' o' (next v op) := by
  cases op with
  | make =>
    cases hs
    exact h.make
  | copyFromNative addr hint =>
    cases hs
    exact h.copyFromNative addr hint
  | fromHostnameAndService answer hint =>
    cases hs
    exact h.fromHostnameAndService answer hint
  | move i =>
    obtain ⟨other, hi, rfl⟩ := Option.map_eq_some_iff.mp hs
    exact h.move hi
  | moveAssign i j => exact h.moveAssign hs
  | swap i j =>
    obtain ⟨d, hi, hs⟩ := Option.bind_eq_some_iff.mp hs
    obtain ⟨other, hj, rfl⟩ := Option.map_eq_some_iff.mp hs
    exact h.swap hi hj
  | destroy i =>
    obtain ⟨d, hi, rfl⟩ := Option.map_eq_some_iff.mp hs
    exact h.destroy hi

/-- The objects have the values `v`; a block is there exactly if an object points to it, which is one object;
and nothing was freed that was not there. -/
structure Represents (s : Addresses) (v : Values) : Prop where
  values : s.objects.map (Option.map s.read) = v
  lengths : ∀ d, some d ∈ s.objects → d.sockaddrLength_ = (s.read d).elim 0 List.length
  allocated : ∀ p, s.heap.cells p ≠ none ↔ ∃ i d, s.object i = some d ∧ d.sockaddr_ = some p
  owner : ∀ i j d d' p, s.object i = some d → s.object j = some d' → d.sockaddr_ = some p →
    d'.sockaddr_ = some p → i = j
  invalidFree : s.invalidFree = false

theorem Refines.represents (h : Refines s o v) : Represents s v := by
  refine ⟨h.values.symm, h.lengths, fun p => ?_, fun i j d d' p hi hj hd hd' => ?_, h.invalidFree⟩
  · rw [← h.live]
    constructor
    · intro hlive
      obtain ⟨d, hd, hp⟩ := List.mem_map.mp (List.reduceOption_mem_iff.mp (h.objects.live.mem_iff.mp hlive))
      obtain ⟨d, rfl, hp⟩ := Option.bind_eq_some_iff.mp hp
      obtain ⟨i, hi⟩ := List.getElem?_of_mem hd
      exact ⟨i, d, object_eq_some_iff.mpr hi, hp⟩
    · rintro ⟨i, d, hi, hp⟩
      exact h.objects.mem_live (object_eq_some_iff.mp hi) hp
  · have hplace := h.objects.place (object_eq_some_iff.mp hi)
    have hplace' := h.objects.place (object_eq_some_iff.mp hj)
    rw [Option.bind_some, hd] at hplace
    rw [Option.bind_some, hd'] at hplace'
    exact Owners.place_unique hplace hplace'

/-- Over every run the objects are the values that they would be. -/
theorem represents_of_run (ops : List Op) (hrun : Machine.run step initial ops = some s) :
    Represents s (ops.foldl next []) := by
  have hstep : ∀ s v op s', (∃ o, Refines s o v) → step s op = some s' → ∃ o', Refines s' o' (next v op) :=
    fun _ _ _ _ ⟨_, h⟩ hs => h.step hs
  obtain ⟨o, h⟩ := Machine.run_refines hstep ⟨_, refines_initial⟩ hrun
  exact h.represents

/-- An address is copied, moved into an object that has one already, assigned to itself, and destroyed. -/
theorem represents_two_addresses :
    ∃ s, Machine.run step initial [.copyFromNative [2, 0] 7, .copyFromNative [2, 0, 80] 7, .moveAssign 0 1,
      .moveAssign 0 0, .destroy 1, .move 0] = some s ∧ Represents s [some none, none,
        some (some [2, 0, 80])] := by
  have hsome :
      (Machine.run step initial [.copyFromNative [2, 0] 7, .copyFromNative [2, 0, 80] 7, .moveAssign 0 1,
      .moveAssign 0 0, .destroy 1, .move 0]).isSome = true := by decide
  obtain ⟨s, hs⟩ := Option.isSome_iff_exists.mp hsome
  exact ⟨s, hs, represents_of_run _ hs⟩

end Addresses

end Hulatang
