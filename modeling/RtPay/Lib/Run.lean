import Mathlib.Data.List.Basic
/-!
# Run — runs of a labelled step function

A component is a step function `σ → ι → Option σ`: from a state, a label is either refused (`none`) or leads to one
next state.  `run` iterates it over a list of labels, so that an interleaving of several threads is a list of labels.
A guard is a condition on a state and the label taken there; `Along` says that every step of a run meets it, and
`run_invariant` is the one induction over runs that every safety result uses.
-/
namespace Run

variable {σ ι : Type*}

def run (step : σ → ι → Option σ) : σ → List ι → Option σ
  | s, [] => some s
  | s, i :: is => (step s i).bind (fun t => run step t is)

/-- **Every step of the run meets the guard**, read at the state before it. -/
def Along (step : σ → ι → Option σ) (G : σ → ι → Prop) : σ → List ι → Prop
  | _, [] => True
  | s, i :: is => G s i ∧ ∀ t, step s i = some t → Along step G t is

/-- `t` is a state the run passes through, its first and last included. -/
def Visits (step : σ → ι → Option σ) (s : σ) (is : List ι) (t : σ) : Prop :=
  ∃ pre post, is = pre ++ post ∧ run step s pre = some t

variable {step : σ → ι → Option σ}

@[simp] theorem run_nil (s : σ) : run step s [] = some s := rfl

theorem run_cons_some {s u : σ} {i : ι} {is : List ι} :
    run step s (i :: is) = some u ↔ ∃ t, step s i = some t ∧ run step t is = some u := by
  simp [run, Option.bind_eq_some_iff]

theorem run_append (s : σ) (is js : List ι) :
    run step s (is ++ js) = (run step s is).bind (fun t => run step t js) := by
  induction is generalizing s with
  | nil => rfl
  | cons i is ih =>
    simp only [List.cons_append, run, Option.bind_assoc]
    congr 1; funext t
    exact ih t

theorem run_append_some {s u : σ} {is js : List ι} :
    run step s (is ++ js) = some u ↔ ∃ t, run step s is = some t ∧ run step t js = some u := by
  rw [run_append, Option.bind_eq_some_iff]

theorem run_concat_some {s u : σ} {is : List ι} {i : ι} :
    run step s (is ++ [i]) = some u ↔ ∃ t, run step s is = some t ∧ step t i = some u := by
  rw [run_append_some]
  simp [run]

theorem along_append {G : σ → ι → Prop} {s : σ} {is js : List ι} :
    Along step G s (is ++ js) ↔ Along step G s is ∧ ∀ t, run step s is = some t → Along step G t js := by
  induction is generalizing s with
  | nil => simp [Along]
  | cons i is ih =>
    simp only [List.cons_append, Along, run_cons_some]
    constructor
    · rintro ⟨hg, h⟩
      exact ⟨⟨hg, fun t ht => (ih.1 (h t ht)).1⟩, fun u ⟨t, ht, hu⟩ => (ih.1 (h t ht)).2 u hu⟩
    · rintro ⟨⟨hg, h⟩, hu⟩
      exact ⟨hg, fun t ht => ih.2 ⟨h t ht, fun u hr => hu u ⟨t, ht, hr⟩⟩⟩

theorem along_of_forall {G : σ → ι → Prop} (hG : ∀ s i, G s i) (s : σ) (is : List ι) : Along step G s is := by
  induction is generalizing s with
  | nil => trivial
  | cons i is ih => exact ⟨hG s i, fun t _ => ih t⟩

theorem along_of_forall_mem {G : σ → ι → Prop} {is : List ι} (hG : ∀ i ∈ is, ∀ s, G s i) (s : σ) :
    Along step G s is := by
  induction is generalizing s with
  | nil => trivial
  | cons i is ih =>
    exact ⟨hG i List.mem_cons_self s, fun t _ => ih (fun j hj => hG j (List.mem_cons_of_mem _ hj)) t⟩

/-- **The induction over runs**: what every guarded step preserves, a run whose steps all meet the guard preserves. -/
theorem run_invariant {P : σ → Prop} {G : σ → ι → Prop}
    (hstep : ∀ s i t, P s → G s i → step s i = some t → P t) {s t : σ} {is : List ι}
    (hs : P s) (hG : Along step G s is) (hr : run step s is = some t) : P t := by
  induction is generalizing s with
  | nil => cases hr; exact hs
  | cons i is ih =>
    obtain ⟨u, hu, hr⟩ := run_cons_some.1 hr
    exact ih (hstep s i u hs hG.1 hu) (hG.2 u hu) hr

theorem run_invariant_of_step {P : σ → Prop} (hstep : ∀ s i t, P s → step s i = some t → P t) {s t : σ}
    {is : List ι} (hs : P s) (hr : run step s is = some t) : P t :=
  run_invariant (G := fun _ _ => True) (fun s i t h _ => hstep s i t h) hs
    (along_of_forall (fun _ _ => trivial) s is) hr

/-- Every state a guarded run passes through keeps the invariant. -/
theorem visits_invariant {P : σ → Prop} {G : σ → ι → Prop}
    (hstep : ∀ s i t, P s → G s i → step s i = some t → P t) {s t : σ} {is : List ι}
    (hs : P s) (hG : Along step G s is) (ht : Visits step s is t) : P t := by
  obtain ⟨pre, post, rfl, hr⟩ := ht
  exact run_invariant hstep hs (along_append.1 hG).1 hr

/-- A guard that does not hold along the labels breaks at a first step, the run up to it being taken. -/
theorem exists_first_of_not_along {G : σ → ι → Prop} {s : σ} {is : List ι} (h : ¬ Along step G s is) :
    ∃ pre i post t, is = pre ++ i :: post ∧ run step s pre = some t ∧ Along step G s pre ∧ ¬ G t i := by
  induction is generalizing s with
  | nil => exact absurd trivial h
  | cons i is ih =>
    by_cases hg : G s i
    · have hn : ∃ t, step s i = some t ∧ ¬ Along step G t is := by
        by_contra hall
        exact h ⟨hg, fun t ht => Classical.not_not.1 (fun hna => hall ⟨t, ht, hna⟩)⟩
      obtain ⟨t, ht, hn⟩ := hn
      obtain ⟨pre, j, post, v, rfl, hv, hal, hj⟩ := ih hn
      refine ⟨i :: pre, j, post, v, rfl, run_cons_some.2 ⟨t, ht, hv⟩, ⟨hg, fun t' ht' => ?_⟩, hj⟩
      rw [ht] at ht'
      cases ht'
      exact hal
    · exact ⟨[], i, is, s, rfl, rfl, trivial, hg⟩

end Run
