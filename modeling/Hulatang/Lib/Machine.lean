import Mathlib.Tactic.TypeStar

/-!
# Machines and their runs

A machine is a partial step function `step : σ → α → Option σ`: the label `α` names the step and
carries whatever the environment or the scheduler chooses, and `none` says that the step is not
enabled. `run` folds it over a list of labels. `Always P` says that every state of a run satisfies
`P`, and `Meets G` that every step of it is taken in a state that meets the condition `G`.

The rules below are the inductions over runs that a development needs: an invariant
(`run_invariant`), one that also speaks of the labels so far (`run_history`), the run of a component
(`run_project`), what an invariant gives under a condition on the steps (`always_of_meets`), and
the exactness of such a condition: where a step that does not meet it breaks the property at once
(`always_iff_meets`), and where it lets the environment break it later (`robust_iff_meets`).
-/

namespace Hulatang.Machine

variable {σ α : Type*}

/-- The state that the run over the labels ends in, or `none` when one of them is not enabled. -/
def run (step : σ → α → Option σ) (s : σ) : List α → Option σ
  | [] => some s
  | a :: as => (step s a).bind fun t => run step t as

/-- Every state that the run over the labels passes through, the first one included, satisfies
`P`. -/
def Always (step : σ → α → Option σ) (P : σ → Prop) (s : σ) : List α → Prop
  | [] => P s
  | a :: as => P s ∧ ∀ t, step s a = some t → Always step P t as

/-- Every step that the run over the labels takes is taken in a state that meets `G`. -/
def Meets (step : σ → α → Option σ) (G : σ → α → Prop) (s : σ) : List α → Prop
  | [] => True
  | a :: as => ∀ t, step s a = some t → G s a ∧ Meets step G t as

/-- The run satisfies `P` throughout, and would also if it were cut anywhere and went on with steps of
`H` alone. -/
def Robust (step : σ → α → Option σ) (P : σ → Prop) (H : α → Prop) (s : σ) (as : List α) : Prop :=
  ∀ before later, before <+: as → (∀ a ∈ later, H a) → Always step P s (before ++ later)

/-- Steps of `H` lead from the state to one without `P`. -/
def Breaks (step : σ → α → Option σ) (P : σ → Prop) (H : α → Prop) (s : σ) : Prop :=
  ∃ later, (∀ a ∈ later, H a) ∧ ¬ Always step P s later

variable {step : σ → α → Option σ}

@[simp] theorem run_nil (s : σ) : run step s [] = some s := rfl

@[simp] theorem run_cons (s : σ) (a : α) (as : List α) :
    run step s (a :: as) = (step s a).bind fun t => run step t as := rfl

/-- A run of at least one step takes its first step, and runs on from there. -/
theorem run_cons_eq_some {s u : σ} {a : α} {as : List α} (h : run step s (a :: as) = some u) :
    ∃ t, step s a = some t ∧ run step t as = some u :=
  Option.bind_eq_some_iff.mp h

/-- Runs compose. -/
theorem run_append (s : σ) (as bs : List α) :
    run step s (as ++ bs) = (run step s as).bind fun t => run step t bs := by
  induction as generalizing s with
  | nil => rfl
  | cons a as ih =>
    rw [List.cons_append, run_cons, run_cons]
    cases step s a with
    | none => rfl
    | some t => exact ih t

/-- Two runs that follow each other are one run. -/
theorem run_trans {s t u : σ} {as bs : List α} (h : run step s as = some t)
    (h' : run step t bs = some u) : run step s (as ++ bs) = some u := by
  rw [run_append, h]
  exact h'

/-- A run can be cut anywhere. -/
theorem run_append_eq_some {s u : σ} {as bs : List α} (h : run step s (as ++ bs) = some u) :
    ∃ t, run step s as = some t ∧ run step t bs = some u := by
  rw [run_append] at h
  exact Option.bind_eq_some_iff.mp h

/-- The state that a run ends in is one of its states. -/
theorem Always.of_run {P : σ → Prop} {s t : σ} {as : List α} (h : Always step P s as)
    (hr : run step s as = some t) : P t := by
  induction as generalizing s with
  | nil =>
    cases hr
    exact h
  | cons a as ih =>
    obtain ⟨u, hu, hr⟩ := run_cons_eq_some hr
    exact ih (h.2 u hu) hr

/-- The invariant rule: what every step preserves, every run preserves. -/
theorem run_invariant {I : σ → Prop} (hstep : ∀ s a t, I s → step s a = some t → I t) {s t : σ}
    {as : List α} (hs : I s) (hr : run step s as = some t) : I t := by
  induction as generalizing s with
  | nil =>
    cases hr
    exact hs
  | cons a as ih =>
    obtain ⟨u, hu, hr⟩ := run_cons_eq_some hr
    exact ih (hstep s a u hs hu) hr

/-- The refinement rule: what relates each step to one of an abstract machine, relates the runs. -/
theorem run_refines {τ : Type*} {next : τ → α → τ} {R : σ → τ → Prop}
    (hstep : ∀ s q a t, R s q → step s a = some t → R t (next q a)) {s t : σ} {q : τ} {as : List α}
    (hs : R s q) (hr : run step s as = some t) : R t (as.foldl next q) := by
  induction as generalizing s q with
  | nil =>
    cases hr
    exact hs
  | cons a as ih =>
    obtain ⟨u, hu, hr⟩ := run_cons_eq_some hr
    exact ih (hstep s q a u hs hu) hr

/-- The projection rule: a component whose steps are those of a machine of its own, or leave it as it is, has
run through the steps that are its own. -/
theorem run_project {τ β : Type*} {step' : τ → β → Option τ} (proj : σ → τ) {label : α → Option β}
    (hown : ∀ s a b t, label a = some b → step s a = some t → step' (proj s) b = some (proj t))
    (hother : ∀ s a t, label a = none → step s a = some t → proj t = proj s) {s t : σ} {as : List α}
    (hr : run step s as = some t) : run step' (proj s) (as.filterMap label) = some (proj t) := by
  induction as generalizing s with
  | nil =>
    cases hr
    rfl
  | cons a as ih =>
    obtain ⟨u, hu, hr⟩ := run_cons_eq_some hr
    cases hlabel : label a with
    | none =>
      rw [List.filterMap_cons_none hlabel, ← hother s a u hlabel hu]
      exact ih hr
    | some b =>
      rw [List.filterMap_cons_some hlabel, run_cons, hown s a b u hlabel hu]
      exact ih hr

/-- A property that an invariant gives holds in every state of a run whose steps all meet the condition
under which they keep the invariant. -/
theorem always_of_meets {I P : σ → Prop} {G : σ → α → Prop} (hP : ∀ s, I s → P s)
    (hstep : ∀ s a t, I s → G s a → step s a = some t → I t) {s : σ} {as : List α} (hs : I s)
    (hG : Meets step G s as) : Always step P s as := by
  induction as generalizing s with
  | nil => exact hP s hs
  | cons a as ih =>
    refine ⟨hP s hs, fun t ht => ?_⟩
    obtain ⟨hg, hG⟩ := hG t ht
    exact ih (hstep s a t hs hg ht) hG

/-- A condition `G` is exact for the property `P` on the runs whose steps lie in the domain `D`:
from a state with the invariant, a step of `D` reaches a state with `P` exactly when it meets `G`,
and keeps the invariant if it does. -/
theorem always_iff_meets {I P : σ → Prop} {D G : σ → α → Prop} (hP : ∀ s, I s → P s)
    (hstep : ∀ s a t, I s → D s a → step s a = some t → (P t ↔ G s a) ∧ (G s a → I t)) {s : σ}
    {as : List α} (hs : I s) (hD : Meets step D s as) :
    Always step P s as ↔ Meets step G s as := by
  induction as generalizing s with
  | nil => exact ⟨fun _ => trivial, fun _ => hP s hs⟩
  | cons a as ih =>
    constructor
    · rintro ⟨-, h⟩ t ht
      obtain ⟨hd, hD⟩ := hD t ht
      obtain ⟨hPG, hI⟩ := hstep s a t hs hd ht
      -- The rest of the run begins with the state that the step reaches.
      have hPt : P t := by
        cases as with
        | nil => exact h t ht
        | cons b bs => exact (h t ht).1
      have hg := hPG.mp hPt
      exact ⟨hg, (ih (hI hg) hD).mp (h t ht)⟩
    · intro h
      refine ⟨hP s hs, fun t ht => ?_⟩
      obtain ⟨hd, hD⟩ := hD t ht
      obtain ⟨hg, hG⟩ := h t ht
      exact (ih ((hstep s a t hs hd ht).2 hg) hD).mpr hG

/-- A run may be cut, and go on with steps that meet the condition in any state. -/
theorem Meets.cut {G : σ → α → Prop} {H : α → Prop} (hH : ∀ s a, H a → G s a) {s : σ}
    {as before later : List α} (h : Meets step G s as) (hcut : before <+: as) (hlater : ∀ a ∈ later, H a) :
    Meets step G s (before ++ later) := by
  induction before generalizing s as with
  | nil =>
    rw [List.nil_append]
    clear h hcut
    induction later generalizing s with
    | nil => trivial
    | cons b bs ih =>
      intro t _
      exact ⟨hH s b (hlater b List.mem_cons_self), ih fun c hc => hlater c (List.mem_cons_of_mem b hc)⟩
  | cons b bs ih =>
    obtain ⟨rest, rfl⟩ := hcut
    intro t ht
    obtain ⟨hg, hrest⟩ := h t ht
    exact ⟨hg, ih hrest (List.prefix_append bs rest)⟩

theorem breaks_of_not {P : σ → Prop} {H : α → Prop} {s : σ} (h : ¬ P s) : Breaks step P H s :=
  ⟨[], fun _ ha => absurd ha List.not_mem_nil, h⟩

/-- What breaks a run after a step of `H` breaks it from there. -/
theorem Breaks.of_step {P : σ → Prop} {H : α → Prop} {s t : σ} {a : α} (ha : H a) (hs : step s a = some t)
    (h : Breaks step P H t) : Breaks step P H s := by
  obtain ⟨later, hlater, hnot⟩ := h
  exact ⟨a :: later, List.forall_mem_cons.mpr ⟨ha, hlater⟩, fun halways => hnot (halways.2 t hs)⟩

/-- A condition `G` is exact for the property `P` on the runs that go on with steps of `H`, all of which
meet it: from a state with the invariant, a step keeps the invariant if it meets `G`, and if it does not,
steps of `H` lead from there to a state without `P`. -/
theorem robust_iff_meets {I P : σ → Prop} {G : σ → α → Prop} {H : α → Prop} (hP : ∀ s, I s → P s)
    (hH : ∀ s a, H a → G s a) (hstep : ∀ s a t, I s → G s a → step s a = some t → I t)
    (hbreak : ∀ s a t, I s → ¬ G s a → step s a = some t → Breaks step P H t)
    {s : σ} {as : List α} (hs : I s) : Robust step P H s as ↔ Meets step G s as := by
  constructor
  · intro h
    induction as generalizing s with
    | nil => trivial
    | cons a as ih =>
      intro t ht
      -- What follows the first step of a run that goes on is a run from the state that it reaches.
      have htail : Robust step P H t as := fun before later hcut hlater =>
        (h (a :: before) later ((List.cons_prefix_cons).mpr ⟨rfl, hcut⟩) hlater).2 t ht
      have hg : G s a := by
        refine Classical.byContradiction fun hg => ?_
        obtain ⟨later, hlater, hnot⟩ := hbreak s a t hs hg ht
        exact hnot (htail [] later List.nil_prefix hlater)
      exact ⟨hg, ih (hstep s a t hs hg ht) htail⟩
  · intro h before later hcut hlater
    exact always_of_meets hP hstep hs (h.cut hH hcut hlater)

/-- A domain that only looks at the labels is met by a run all of whose labels lie in it. -/
theorem meets_of_labels {D : α → Prop} {s : σ} {as : List α} (h : ∀ a ∈ as, D a) :
    Meets step (fun _ a => D a) s as := by
  induction as generalizing s with
  | nil => trivial
  | cons a as ih =>
    intro t _
    exact ⟨h a (List.mem_cons_self), ih fun b hb => h b (List.mem_cons_of_mem a hb)⟩

/-- The history rule: an invariant that also speaks of the labels that have led to the state. -/
theorem history_of_meets {I : List α → σ → Prop} {G : σ → α → Prop}
    (hstep : ∀ as s a t, I as s → G s a → step s a = some t → I (as ++ [a]) t) {s t : σ} {as : List α}
    (hs : I [] s) (hG : Meets step G s as) (hr : run step s as = some t) : I as t := by
  have hafter : ∀ before s, I before s → Meets step G s as → run step s as = some t → I (before ++ as) t := by
    clear hs hG hr
    induction as with
    | nil =>
      intro before s hs _ hr
      cases hr
      rwa [List.append_nil]
    | cons a as ih =>
      intro before s hs hG hr
      obtain ⟨u, hu, hr⟩ := run_cons_eq_some hr
      obtain ⟨hg, hG⟩ := hG u hu
      have hrest := ih (before ++ [a]) u (hstep before s a u hs hg hu) hG hr
      rwa [List.append_assoc] at hrest
  exact hafter [] s hs hG hr

/-- So it is without a condition on the steps. -/
theorem run_history {I : List α → σ → Prop}
    (hstep : ∀ as s a t, I as s → step s a = some t → I (as ++ [a]) t) {s t : σ} {as : List α} (hs : I [] s)
    (hr : run step s as = some t) : I as t :=
  history_of_meets (G := fun _ _ => True) (fun as s a t h _ hs => hstep as s a t h hs) hs
    (meets_of_labels fun _ _ => trivial) hr

/-- A run whose first step is known meets a condition when that step and the rest of it do. -/
theorem Meets.cons {G : σ → α → Prop} {s t : σ} {a : α} {as : List α} (hs : step s a = some t)
    (hg : G s a) (h : Meets step G t as) : Meets step G s (a :: as) := by
  intro u hu
  have htu : t = u := Option.some.inj (hs.symm.trans hu)
  exact htu ▸ ⟨hg, h⟩

/-- A run whose first step is known meets a condition exactly when that step and the rest of it do. -/
theorem meets_cons_iff {G : σ → α → Prop} {s t : σ} {a : α} {as : List α} (hs : step s a = some t) :
    Meets step G s (a :: as) ↔ G s a ∧ Meets step G t as :=
  ⟨fun h => h t hs, fun h => .cons hs h.1 h.2⟩

/-- A decidable condition on steps is decidable on runs. -/
instance decidableMeets {G : σ → α → Prop} [∀ s a, Decidable (G s a)] :
    ∀ (s : σ) (as : List α), Decidable (Meets step G s as)
  | _, [] => isTrue trivial
  | s, a :: as =>
    -- A run that is not enabled meets every condition.
    match hs : step s a with
    | none => isTrue fun t ht => by rw [hs] at ht; cases ht
    | some t =>
      letI : Decidable (Meets step G t as) := decidableMeets t as
      decidable_of_iff (G s a ∧ Meets step G t as) (meets_cons_iff hs).symm

end Hulatang.Machine
