import Mathlib.Data.List.Basic

/-!
# Runs of labelled partial step functions

A step function returns `none` when the label is not enabled. A run executes
a list of labels in order. `Along` states a property of every executed step
together with the state it starts from and the state it reaches, so a
condition on steps and a guarantee about steps have the same shape.
-/

namespace PolishingRobot.Runs

variable {S L : Type*}

/-- Execute the labels in order; `none` as soon as one is not enabled. -/
def run (step : S → L → Option S) : S → List L → Option S
  | s, [] => some s
  | s, l :: ls => (step s l).bind fun s' => run step s' ls

/-- Every executed step of the run satisfies `P`. -/
def Along (step : S → L → Option S) (P : S → L → S → Prop) : S → List L → Prop
  | _, [] => True
  | s, l :: ls => ∀ s', step s l = some s' → P s l s' ∧ Along step P s' ls

/-- The states that some list of labels leads to. -/
def Reachable (step : S → L → Option S) (s₀ s : S) : Prop :=
  ∃ ls, run step s₀ ls = some s

@[simp] theorem run_nil (step : S → L → Option S) (s : S) :
    run step s [] = some s := rfl

@[simp] theorem run_cons (step : S → L → Option S) (s : S) (l : L) (ls : List L) :
    run step s (l :: ls) = (step s l).bind fun s' => run step s' ls := rfl

@[simp] theorem along_nil (step : S → L → Option S) (P : S → L → S → Prop) (s : S) :
    Along step P s [] := trivial

@[simp] theorem along_cons (step : S → L → Option S) (P : S → L → S → Prop)
    (s : S) (l : L) (ls : List L) :
    Along step P s (l :: ls) ↔
      ∀ s', step s l = some s' → P s l s' ∧ Along step P s' ls := Iff.rfl

theorem run_append (step : S → L → Option S) (s : S) (ls ms : List L) :
    run step s (ls ++ ms) = (run step s ls).bind fun s' => run step s' ms := by
  induction ls generalizing s with
  | nil => rfl
  | cons l ls ih =>
      cases h : step s l with
      | none => simp [h]
      | some s' => simp [h, ih]

/-- Step properties that can be tested can be tested along a run. -/
def decidableAlong (step : S → L → Option S) (P : S → L → S → Prop)
    [∀ s l s', Decidable (P s l s')] : (s : S) → (ls : List L) → Decidable (Along step P s ls)
  | _, [] => isTrue trivial
  | s, l :: ls =>
      match h : step s l with
      | none => isTrue (by simp [h])
      | some s' =>
          have : Decidable (Along step P s' ls) := decidableAlong step P s' ls
          decidable_of_iff (P s l s' ∧ Along step P s' ls) (by simp [h])

instance (step : S → L → Option S) (P : S → L → S → Prop) [∀ s l s', Decidable (P s l s')]
    (s : S) (ls : List L) : Decidable (Along step P s ls) := decidableAlong step P s ls

/-- The step taken after a finished prefix is one of the steps `Along` covers. -/
theorem Along.after_prefix {step : S → L → Option S} {P : S → L → S → Prop}
    {ls : List L} {s t u : S} {l : L} (h : Along step P s (ls ++ [l]))
    (hrun : run step s ls = some t) (hl : step t l = some u) : P t l u := by
  induction ls generalizing s with
  | nil =>
      obtain rfl : s = t := Option.some.inj hrun
      exact (h u hl).1
  | cons m ls ih =>
      obtain ⟨s', hs', hrest⟩ := Option.bind_eq_some_iff.mp hrun
      exact ih (h s' hs').2 hrest

theorem Along.and {step : S → L → Option S} {P Q : S → L → S → Prop} {ls : List L} {s : S}
    (hP : Along step P s ls) (hQ : Along step Q s ls) :
    Along step (fun s l s' => P s l s' ∧ Q s l s') s ls := by
  induction ls generalizing s with
  | nil => trivial
  | cons l ls ih =>
      intro s' hs'
      exact ⟨⟨(hP s' hs').1, (hQ s' hs').1⟩, ih (hP s' hs').2 (hQ s' hs').2⟩

theorem Along.imp {step : S → L → Option S} {P Q : S → L → S → Prop} {ls : List L} {s : S}
    (hPQ : ∀ s l s', P s l s' → Q s l s') (h : Along step P s ls) : Along step Q s ls := by
  induction ls generalizing s with
  | nil => trivial
  | cons l ls ih =>
      intro s' hs'
      exact ⟨hPQ s l s' (h s' hs').1, ih (h s' hs').2⟩

/-- A property of the labels alone holds along every run over such labels. -/
theorem along_of_forall_mem (step : S → L → Option S) {Q : L → Prop} {ls : List L}
    (h : ∀ l ∈ ls, Q l) (s : S) : Along step (fun _ l _ => Q l) s ls := by
  induction ls generalizing s with
  | nil => trivial
  | cons l ls ih =>
      intro s' _
      refine ⟨h l (by simp), ih ?_ s'⟩
      intro m hm
      exact h m (by simp [hm])

/-- What every enabled step does holds along every run. -/
theorem along_of_forall {step : S → L → Option S} {P : S → L → S → Prop}
    (h : ∀ s l s', step s l = some s' → P s l s') (s : S) (ls : List L) : Along step P s ls := by
  induction ls generalizing s with
  | nil => trivial
  | cons l ls ih => exact fun s' hs' => ⟨h s l s' hs', ih s'⟩

section Invariants

variable {step : S → L → Option S} {ok P : S → L → S → Prop} {Inv : S → Prop}

/-- An invariant kept by every step that meets the condition `ok` holds at
the end of every run whose steps all meet it. -/
theorem invariant_of_run
    (keep : ∀ s l s', Inv s → ok s l s' → step s l = some s' → Inv s')
    {s t : S} {ls : List L} (hs : Inv s) (hok : Along step ok s ls)
    (hrun : run step s ls = some t) : Inv t := by
  induction ls generalizing s with
  | nil =>
      obtain rfl : s = t := Option.some.inj hrun
      exact hs
  | cons l ls ih =>
      obtain ⟨s', hs', hrest⟩ := Option.bind_eq_some_iff.mp hrun
      obtain ⟨hstep, htail⟩ := hok s' hs'
      exact ih (keep s l s' hs hstep hs') htail hrest

/-- The unconditional form: an invariant of every step holds in every
reachable state. -/
theorem invariant_of_reachable
    (keep : ∀ s l s', Inv s → step s l = some s' → Inv s')
    {s₀ s : S} (h₀ : Inv s₀) (h : Reachable step s₀ s) : Inv s := by
  obtain ⟨ls, hrun⟩ := h
  have hok : Along step (fun _ _ _ => True) s₀ ls := by
    clear hrun
    induction ls generalizing s₀ with
    | nil => trivial
    | cons l ls ih => exact fun s' hs' => ⟨trivial, ih (keep s₀ l s' h₀ hs')⟩
  exact invariant_of_run (fun s l s' hs _ h' => keep s l s' hs h') h₀ hok hrun

/-- A step guarantee that follows from the invariant and the step condition
holds along every run whose steps all meet the condition. -/
theorem along_of_invariant
    (keep : ∀ s l s', Inv s → ok s l s' → step s l = some s' → Inv s')
    (good : ∀ s l s', Inv s → ok s l s' → step s l = some s' → P s l s')
    {s : S} {ls : List L} (hs : Inv s) (hok : Along step ok s ls) :
    Along step P s ls := by
  induction ls generalizing s with
  | nil => trivial
  | cons l ls ih =>
      intro s' hs'
      obtain ⟨hstep, htail⟩ := hok s' hs'
      exact ⟨good s l s' hs hstep hs', ih (keep s l s' hs hstep hs') htail⟩

/-- Two step properties that agree on every step taken from the invariant
hold along the same runs. -/
theorem along_iff_of_invariant
    (keep : ∀ s l s', Inv s → step s l = some s' → Inv s')
    (same : ∀ s l s', Inv s → step s l = some s' → (P s l s' ↔ ok s l s'))
    {s : S} {ls : List L} (hs : Inv s) : Along step P s ls ↔ Along step ok s ls := by
  constructor
  · exact along_of_invariant (fun s l s' hi _ h => keep s l s' hi h)
      (fun s l s' hi hp h => (same s l s' hi h).mp hp) hs
  · exact along_of_invariant (fun s l s' hi _ h => keep s l s' hi h)
      (fun s l s' hi hp h => (same s l s' hi h).mpr hp) hs

/-- The same for an invariant that a step keeps because it has the property. -/
theorem along_iff_of_kept
    (keep : ∀ s l s', Inv s → P s l s' → step s l = some s' → Inv s')
    (same : ∀ s l s', Inv s → step s l = some s' → (P s l s' ↔ ok s l s'))
    {s : S} {ls : List L} (hs : Inv s) : Along step P s ls ↔ Along step ok s ls := by
  constructor
  · exact along_of_invariant keep (fun s l s' hi hp h => (same s l s' hi h).mp hp) hs
  · have keep' : ∀ s l s', Inv s → ok s l s' → step s l = some s' → Inv s' :=
      fun s l s' hi hok h => keep s l s' hi ((same s l s' hi h).mpr hok) h
    exact along_of_invariant keep' (fun s l s' hi hok h => (same s l s' hi h).mpr hok) hs

end Invariants

/-- Reachability extends by one enabled step. -/
theorem Reachable.step {step : S → L → Option S} {s₀ s s' : S} {l : L}
    (h : Reachable step s₀ s) (hl : step s l = some s') : Reachable step s₀ s' := by
  obtain ⟨ls, hrun⟩ := h
  exact ⟨ls ++ [l], by simp [run_append, hrun, hl]⟩

section History

variable {O : Type*}

/-- The step function with a variable that the steps write and never read. -/
def observe (step : S → L → Option S) (note : S → L → O → O) : S × O → L → Option (S × O)
  | (s, o), l => (step s l).map fun s' => (s', note s l o)

theorem observe_eq_some {step : S → L → Option S} {note : S → L → O → O} {s s' : S} {o o' : O}
    {l : L} (h : observe step note (s, o) l = some (s', o')) :
    step s l = some s' ∧ o' = note s l o := by
  obtain ⟨t, ht, heq⟩ := Option.map_eq_some_iff.mp h
  obtain ⟨rfl, rfl⟩ := Prod.mk.inj heq
  exact ⟨ht, rfl⟩

/-- What holds along a run holds along it with the variable. -/
theorem along_observe {step : S → L → Option S} {P : S → L → S → Prop} (note : S → L → O → O)
    {s : S} {ls : List L} (h : Along step P s ls) (o : O) :
    Along (observe step note) (fun w l w' => P w.1 l w'.1) (s, o) ls := by
  induction ls generalizing s o with
  | nil => trivial
  | cons l ls ih =>
      rintro ⟨s', o'⟩ hstep
      obtain ⟨hs', -⟩ := observe_eq_some hstep
      exact ⟨(h s' hs').1, ih (h s' hs').2 o'⟩

/-- What holds along a run with the variable holds along it without. -/
theorem along_of_observe {step : S → L → Option S} {P : S → L → S → Prop} (note : S → L → O → O)
    {s : S} {ls : List L} {o : O}
    (h : Along (observe step note) (fun w l w' => P w.1 l w'.1) (s, o) ls) :
    Along step P s ls := by
  induction ls generalizing s o with
  | nil => trivial
  | cons l ls ih =>
      intro s' hs'
      have hstep : observe step note (s, o) l = some (s', note s l o) := by
        simp [observe, hs']
      obtain ⟨hP, htail⟩ := h _ hstep
      exact ⟨hP, ih htail⟩

theorem along_observe_iff {step : S → L → Option S} {P : S → L → S → Prop}
    (note : S → L → O → O) (o : O) {s : S} {ls : List L} :
    Along (observe step note) (fun w l w' => P w.1 l w'.1) (s, o) ls ↔ Along step P s ls :=
  ⟨along_of_observe note, fun h => along_observe note h o⟩

/-- Forgetting the variable gives back the run. -/
theorem run_observe (step : S → L → Option S) (note : S → L → O → O) (s : S) (o : O)
    (ls : List L) : (run (observe step note) (s, o) ls).map Prod.fst = run step s ls := by
  induction ls generalizing s o with
  | nil => rfl
  | cons l ls ih =>
      cases h : step s l with
      | none => simp [observe, h]
      | some s' =>
          calc (run (observe step note) (s, o) (l :: ls)).map Prod.fst
              = (run (observe step note) (s', note s l o) ls).map Prod.fst := by
                simp [observe, h]
            _ = run step s' ls := ih s' _
            _ = run step s (l :: ls) := by simp [h]

end History

section Views

variable {V : Type*} {view : S → V} {Abstract : V → V → Prop} {step : S → L → Option S}
  {ok : S → L → S → Prop}

/-- Through the view, a step that meets the condition is a step of the abstract
relation, or none. -/
def SimulatedBy (step : S → L → Option S) (ok : S → L → S → Prop) (view : S → V)
    (Abstract : V → V → Prop) : Prop :=
  ∀ s l s', ok s l s' → step s l = some s' → view s' = view s ∨ Abstract (view s) (view s')

/-- An invariant of the abstract relation is one of the steps. -/
theorem SimulatedBy.keep {Inv : V → Prop} (h : SimulatedBy step ok view Abstract)
    (keep : ∀ v v', Inv v → Abstract v v' → Inv v') (s : S) (l : L) (s' : S)
    (hs : Inv (view s)) (hok : ok s l s') (hl : step s l = some s') : Inv (view s') := by
  rcases h s l s' hok hl with hsame | hstep
  · rw [hsame]
    exact hs
  · exact keep (view s) (view s') hs hstep

end Views

/-- A step function that is always enabled. -/
def total (f : S → L → S) : S → L → Option S := fun s l => some (f s l)

@[simp] theorem along_total_cons (f : S → L → S) (P : S → L → S → Prop)
    (s : S) (l : L) (ls : List L) :
    Along (total f) P s (l :: ls) ↔ P s l (f s l) ∧ Along (total f) P (f s l) ls := by
  simp [total]

end PolishingRobot.Runs
