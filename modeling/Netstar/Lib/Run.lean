import Mathlib.Data.List.Basic

/-!
# `Netstar.Lib.Run`: runs of a labelled transition function

A system is a function `step` that takes a state and a label. It returns the next state, or
`none` when the label is not enabled. `run` takes a list of labels. `run_invariant` is the
induction rule for every reachable state.

`Always P` says that `P` holds in each state that a list of labels visits, and `Guarded ok` says
that each step it takes satisfies `ok`. `always_iff_guarded` is the rule for a condition that is
exact: when one step keeps `P` if and only if it is guarded, then a run keeps `P` if and only if
all its steps are. `Meets ok` also speaks of a last label that is not enabled.
-/

set_option autoImplicit false

namespace Netstar.Lib

variable {S L : Type}

/-- The state after the labels, or `none` when one of them was not enabled. -/
def run (step : S → L → Option S) : S → List L → Option S
  | s, [] => some s
  | s, l :: ls => (step s l).bind fun t => run step t ls

variable {step : S → L → Option S}

/-- A run of a step and more. -/
theorem run_cons {s s' : S} {l : L} {ls : List L} :
    run step s (l :: ls) = some s' ↔ ∃ t, step s l = some t ∧ run step t ls = some s' := by
  rw [run, Option.bind_eq_some_iff]

/-- Two runs, one after the other. -/
theorem run_append {s s' : S} {ls ls' : List L} :
    run step s (ls ++ ls') = some s' ↔
      ∃ t, run step s ls = some t ∧ run step t ls' = some s' := by
  induction ls generalizing s with
  | nil => simp [run]
  | cons l ls ih =>
    rw [List.cons_append, run_cons]
    constructor
    · rintro ⟨t, hstep, hrun⟩
      obtain ⟨u, hu, hu'⟩ := ih.mp hrun
      exact ⟨u, run_cons.mpr ⟨t, hstep, hu⟩, hu'⟩
    · rintro ⟨u, hu, hu'⟩
      obtain ⟨t, hstep, hrun⟩ := run_cons.mp hu
      exact ⟨t, hstep, ih.mpr ⟨u, hrun, hu'⟩⟩

/-- What the step of every label keeps, a run of these labels keeps. -/
theorem run_invariant (Inv : S → Prop) {s s' : S} {ls : List L}
    (hstep : ∀ l ∈ ls, ∀ s t, Inv s → step s l = some t → Inv t) (hs : Inv s)
    (h : run step s ls = some s') : Inv s' := by
  induction ls generalizing s with
  | nil =>
    cases h
    exact hs
  | cons l ls ih =>
    obtain ⟨t, ht, hrest⟩ := run_cons.mp h
    exact ih (fun l' hl' => hstep l' (by simp [hl'])) (hstep l (by simp) s t hs ht) hrest

/-- `P` holds in every state that the labels visit. -/
def Always (step : S → L → Option S) (P : S → Prop) : S → List L → Prop
  | s, [] => P s
  | s, l :: ls => P s ∧ ∀ t, step s l = some t → Always step P t ls

/-- Every step that the labels take satisfies `ok`. -/
def Guarded (step : S → L → Option S) (ok : S → L → Prop) : S → List L → Prop
  | _, [] => True
  | s, l :: ls => ∀ t, step s l = some t → ok s l ∧ Guarded step ok t ls

/-- A guard that can be evaluated makes a run on given labels evaluable. -/
instance decidableGuarded {ok : S → L → Prop} [∀ s l, Decidable (ok s l)] :
    ∀ s ls, Decidable (Guarded step ok s ls)
  | _, [] => isTrue trivial
  | s, l :: ls =>
    have := fun t => @decidableGuarded ok _ t ls
    inferInstanceAs (Decidable (∀ t ∈ step s l, ok s l ∧ Guarded step ok t ls))

/-- What always holds, holds at the start. -/
theorem Always.head {P : S → Prop} {s : S} {ls : List L} (h : Always step P s ls) : P s := by
  cases ls with
  | nil => exact h
  | cons l ls => exact h.1

/-- `P` holds in the state after the labels. -/
theorem Always.last {P : S → Prop} {s t : S} {ls : List L} (h : Always step P s ls)
    (ht : run step s ls = some t) : P t := by
  induction ls generalizing s with
  | nil =>
    cases ht
    exact h
  | cons l ls ih =>
    obtain ⟨u, hu, hrest⟩ := run_cons.mp ht
    exact ih (h.2 u hu) hrest

/-- Labels that satisfy `ok` in every state make a guarded run. -/
theorem guarded_of_forall {ok : S → L → Prop} {ls : List L} (h : ∀ l ∈ ls, ∀ s, ok s l) (s : S) :
    Guarded step ok s ls := by
  induction ls generalizing s with
  | nil => exact trivial
  | cons l ls ih => exact fun t _ => ⟨h l (by simp) s, ih (fun l' hl' => h l' (by simp [hl'])) t⟩

/-- The guard may be weakened. -/
theorem Guarded.mono {ok ok' : S → L → Prop} {s : S} {ls : List L} (h : Guarded step ok s ls)
    (himp : ∀ s l, ok s l → ok' s l) : Guarded step ok' s ls := by
  induction ls generalizing s with
  | nil => exact trivial
  | cons l ls ih =>
    intro t ht
    obtain ⟨hok, hrest⟩ := h t ht
    exact ⟨himp s l hok, ih hrest⟩

/-- A guarded run is guarded in its first part, and in the rest from where the first part ends. -/
theorem Guarded.append {ok : S → L → Prop} {s : S} {ls ls' : List L}
    (h : Guarded step ok s (ls ++ ls')) :
    Guarded step ok s ls ∧ ∀ t, run step s ls = some t → Guarded step ok t ls' := by
  induction ls generalizing s with
  | nil =>
    refine ⟨trivial, fun t ht => ?_⟩
    cases ht
    exact h
  | cons l ls ih =>
    refine ⟨fun t ht => ⟨(h t ht).1, (ih (h t ht).2).1⟩, fun u hu => ?_⟩
    obtain ⟨t, ht, hrest⟩ := run_cons.mp hu
    exact (ih (h t ht).2).2 u hrest

/-- An invariant that the guarded steps keep holds in every state of a guarded run. -/
theorem always_of_guarded {P : S → Prop} {ok : S → L → Prop} (Inv : S → Prop)
    (hP : ∀ s, Inv s → P s) (hstep : ∀ s l t, Inv s → ok s l → step s l = some t → Inv t) {s : S}
    (hs : Inv s) {ls : List L} (h : Guarded step ok s ls) : Always step P s ls := by
  induction ls generalizing s with
  | nil => exact hP s hs
  | cons l ls ih =>
    refine ⟨hP s hs, fun t ht => ?_⟩
    obtain ⟨hok, hrest⟩ := h t ht
    exact ih (hstep s l t hs hok ht) hrest

/-- When a step satisfies `A` and keeps `P` exactly if it is guarded, a run does so exactly if it is
guarded. -/
theorem always_and_guarded_iff {P : S → Prop} {A ok : S → L → Prop} (Inv : S → Prop)
    (hinv : ∀ s l t, Inv s → P s → step s l = some t → Inv t)
    (hstep : ∀ s l t, Inv s → P s → step s l = some t → (A s l ∧ P t ↔ ok s l)) {s : S}
    (hs : Inv s) (hP : P s) (ls : List L) :
    Always step P s ls ∧ Guarded step A s ls ↔ Guarded step ok s ls := by
  induction ls generalizing s with
  | nil => exact ⟨fun _ => trivial, fun _ => ⟨hP, trivial⟩⟩
  | cons l ls ih =>
    constructor
    · rintro ⟨⟨-, hnext⟩, hguard⟩ t ht
      have hPt : P t := (hnext t ht).head
      obtain ⟨hA, hrest⟩ := hguard t ht
      exact ⟨(hstep s l t hs hP ht).mp ⟨hA, hPt⟩, (ih (hinv s l t hs hP ht) hPt).mp ⟨hnext t ht, hrest⟩⟩
    · intro hguard
      have hnext : ∀ t, step s l = some t →
          A s l ∧ Always step P t ls ∧ Guarded step A t ls := by
        intro t ht
        obtain ⟨hok, hrest⟩ := hguard t ht
        obtain ⟨hA, hPt⟩ := (hstep s l t hs hP ht).mpr hok
        exact ⟨hA, (ih (hinv s l t hs hP ht) hPt).mpr hrest⟩
      exact ⟨⟨hP, fun t ht => (hnext t ht).2.1⟩, fun t ht => ⟨(hnext t ht).1, (hnext t ht).2.2⟩⟩

/-- When a step keeps `P` exactly if it is guarded, a run keeps `P` exactly if it is guarded. -/
theorem always_iff_guarded {P : S → Prop} {ok : S → L → Prop} (Inv : S → Prop)
    (hinv : ∀ s l t, Inv s → P s → step s l = some t → Inv t)
    (hstep : ∀ s l t, Inv s → P s → step s l = some t → (P t ↔ ok s l)) {s : S}
    (hs : Inv s) (hP : P s) (ls : List L) : Always step P s ls ↔ Guarded step ok s ls := by
  have hiff := always_and_guarded_iff (A := fun _ _ => True) Inv hinv
    (fun s l t hs hP ht => ((and_iff_right trivial).trans (hstep s l t hs hP ht))) hs hP ls
  have htrivial : Guarded step (fun _ _ => True) s ls :=
    guarded_of_forall (fun _ _ _ => trivial) s
  exact ⟨fun h => hiff.mp ⟨h, htrivial⟩, fun h => (hiff.mpr h).1⟩

/-- An invariant that implies `P` and that the guarded steps keep, when no other step keeps `P`. -/
theorem always_iff_guarded_of_inv {P : S → Prop} {ok : S → L → Prop} (Inv : S → Prop)
    (hP : ∀ s, Inv s → P s) (hkeep : ∀ s l t, Inv s → ok s l → step s l = some t → Inv t)
    (hbad : ∀ s l t, Inv s → step s l = some t → P t → ok s l) {s : S} (hs : Inv s)
    (ls : List L) : Always step P s ls ↔ Guarded step ok s ls := by
  constructor
  · intro h
    induction ls generalizing s with
    | nil => exact trivial
    | cons l ls ih =>
      intro t ht
      have hok := hbad s l t hs ht (h.2 t ht).head
      exact ⟨hok, ih (hkeep s l t hs hok ht) (h.2 t ht)⟩
  · exact always_of_guarded Inv hP hkeep hs

/-- Every label satisfies `ok` in the state in which it is tried. The last one that is tried need not
be enabled. -/
def Meets (step : S → L → Option S) (ok : S → L → Prop) : S → List L → Prop
  | _, [] => True
  | s, l :: ls => ok s l ∧ ∀ t, step s l = some t → Meets step ok t ls

/-- `Meets` of a condition that can be evaluated can be evaluated. -/
instance decidableMeets {ok : S → L → Prop} [∀ s l, Decidable (ok s l)] :
    ∀ s ls, Decidable (Meets step ok s ls)
  | _, [] => isTrue trivial
  | s, l :: ls =>
    have := fun t => @decidableMeets ok _ t ls
    inferInstanceAs (Decidable (ok s l ∧ ∀ t ∈ step s l, Meets step ok t ls))

/-- When two conditions on a step agree in every state of an invariant, they agree on runs. A third
condition `g` that the run meets may help to keep the invariant. -/
theorem meets_congr_of_meets {g ok ok' : S → L → Prop} (Inv : S → Prop)
    (hinv : ∀ s l t, Inv s → g s l → step s l = some t → Inv t)
    (hiff : ∀ s l, Inv s → g s l → (ok s l ↔ ok' s l)) {s : S} (hs : Inv s) {ls : List L}
    (hg : Meets step g s ls) : Meets step ok s ls ↔ Meets step ok' s ls := by
  induction ls generalizing s with
  | nil => exact Iff.rfl
  | cons l ls ih =>
    show (ok s l ∧ ∀ t, _ → Meets step ok t ls) ↔ (ok' s l ∧ ∀ t, _ → Meets step ok' t ls)
    rw [hiff s l hs hg.1]
    refine and_congr_right fun _ => forall_congr' fun t => ?_
    exact imp_congr_right fun ht => ih (hinv s l t hs hg.1 ht) (hg.2 t ht)

/-- Labels that satisfy `ok` in every state meet it on every run. -/
theorem meets_of_forall {ok : S → L → Prop} (h : ∀ s l, ok s l) (s : S) (ls : List L) :
    Meets step ok s ls := by
  induction ls generalizing s with
  | nil => exact trivial
  | cons l ls ih => exact ⟨h s l, fun t _ => ih t⟩

/-- `meets_congr_of_meets` for an invariant that every step keeps. -/
theorem meets_congr {ok ok' : S → L → Prop} (Inv : S → Prop)
    (hinv : ∀ s l t, Inv s → step s l = some t → Inv t) (hiff : ∀ s l, Inv s → (ok s l ↔ ok' s l))
    {s : S} (hs : Inv s) (ls : List L) : Meets step ok s ls ↔ Meets step ok' s ls :=
  meets_congr_of_meets (g := fun _ _ => True) Inv (fun s l t h _ => hinv s l t h)
    (fun s l h _ => hiff s l h) hs (meets_of_forall (fun _ _ => trivial) s ls)

/-- A run that meets `ok` meets it in what comes after a first part. -/
theorem Meets.rest {ok : S → L → Prop} {s t : S} {ls ls' : List L}
    (h : Meets step ok s (ls ++ ls')) (ht : run step s ls = some t) : Meets step ok t ls' := by
  induction ls generalizing s with
  | nil =>
    cases ht
    exact h
  | cons l ls ih =>
    obtain ⟨u, hu, hrest⟩ := run_cons.mp ht
    exact ih (h.2 u hu) hrest

/-- `meets_congr_of_meets` for the steps that a run takes. -/
theorem guarded_congr_of_guarded {g ok ok' : S → L → Prop} (Inv : S → Prop)
    (hinv : ∀ s l t, Inv s → g s l → step s l = some t → Inv t)
    (hiff : ∀ s l t, Inv s → g s l → step s l = some t → (ok s l ↔ ok' s l)) {s : S} (hs : Inv s)
    {ls : List L} (hg : Guarded step g s ls) : Guarded step ok s ls ↔ Guarded step ok' s ls := by
  induction ls generalizing s with
  | nil => exact Iff.rfl
  | cons l ls ih =>
    show (∀ t, _ → ok s l ∧ Guarded step ok t ls) ↔ (∀ t, _ → ok' s l ∧ Guarded step ok' t ls)
    refine forall_congr' fun t => imp_congr_right fun ht => ?_
    obtain ⟨hgl, hrest⟩ := hg t ht
    rw [hiff s l t hs hgl ht, ih (hinv s l t hs hgl ht) hrest]

/-- `guarded_congr_of_guarded` for an invariant that every step keeps. -/
theorem guarded_congr {ok ok' : S → L → Prop} (Inv : S → Prop)
    (hinv : ∀ s l t, Inv s → step s l = some t → Inv t) (hiff : ∀ s l, Inv s → (ok s l ↔ ok' s l))
    {s : S} (hs : Inv s) (ls : List L) : Guarded step ok s ls ↔ Guarded step ok' s ls :=
  guarded_congr_of_guarded (g := fun _ _ => True) Inv (fun s l t h _ => hinv s l t h)
    (fun s l _ h _ _ => hiff s l h) hs (guarded_of_forall (fun _ _ _ => trivial) s)

end Netstar.Lib
