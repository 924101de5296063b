import Mathlib.Data.List.Perm.Basic
import Mathlib.Data.List.Nodup
import Mathlib.Logic.Function.Basic
/-!
# Waiters — threads that wait, and those resumed for them

Threads wait in a list for things that are handed out one at a time.  A new thing resumes the first of them, which has
to run before it can take it; meanwhile another thread may be quicker.  `Served` is the account that makes no wakeup
lost: as long as anyone waits, each thing there is has a resumed thread on its way.
-/
namespace Waiters

variable {τ σ : Type*}

/-- `list` are the threads that wait for one of `n` things; while there are any, each of the `n` is already for a
thread that has been resumed. -/
structure Served (Waits Woken : σ → Prop) (pc : τ → σ) (list : List τ) (n : Nat) : Prop where
  nodup : list.Nodup
  mem : ∀ t, t ∈ list ↔ Waits (pc t)
  ready : ∃ ready : List τ, ready.Nodup ∧ (∀ t, t ∈ ready ↔ Woken (pc t)) ∧ (list ≠ [] → n ≤ ready.length)

variable {Waits Woken : σ → Prop} {pc : τ → σ} {list : List τ} {n : Nat} {t : τ} {pc' : σ}

theorem Served.grow_nil (h : Served Waits Woken pc [] n) (n' : Nat) : Served Waits Woken pc [] n' := by
  obtain ⟨ready, hnd, hmem, -⟩ := h.ready
  exact ⟨h.nodup, h.mem, ready, hnd, hmem, fun hl => absurd rfl hl⟩

variable [DecidableEq τ]

/-- A thread that neither waits nor was resumed, before and after. -/
theorem Served.frame (h : Served Waits Woken pc list n) {n' : Nat} (hn : n' ≤ n) (hw : Waits pc' ↔ Waits (pc t))
    (hr : Woken pc' ↔ Woken (pc t)) : Served Waits Woken (Function.update pc t pc') list n' := by
  have hiff : ∀ {P : σ → Prop}, (P pc' ↔ P (pc t)) → ∀ u, P (Function.update pc t pc' u) ↔ P (pc u) := by
    intro P hP u
    by_cases hu : u = t
    · rw [hu, Function.update_self, hP]
    · rw [Function.update_of_ne hu]
  obtain ⟨ready, hnd, hmem, hle⟩ := h.ready
  exact ⟨h.nodup, fun u => (h.mem u).trans (hiff hw u).symm,
    ready, hnd, fun u => (hmem u).trans (hiff hr u).symm, fun hl => Nat.le_trans hn (hle hl)⟩

/-- **A resumed thread has looked**: it took one of the things, or there was none. -/
theorem Served.looked (h : Served Waits Woken pc list n) {n' : Nat} (ht : Woken (pc t)) (hw : ¬ Waits (pc t))
    (hw' : ¬ Waits pc') (hr' : ¬ Woken pc') (hn : n' ≤ n - 1) :
    Served Waits Woken (Function.update pc t pc') list n' := by
  obtain ⟨ready, hnd, hmem, hle⟩ := h.ready
  have hin := (hmem t).2 ht
  refine ⟨h.nodup, fun u => ?_, ready.erase t, hnd.erase t, fun u => ?_, fun hl => ?_⟩
  · rw [h.mem u]
    by_cases hu : u = t
    · rw [hu, Function.update_self]
      exact iff_of_false hw hw'
    · rw [Function.update_of_ne hu]
  · rw [hnd.mem_erase_iff, hmem u]
    by_cases hu : u = t
    · rw [hu, Function.update_self]
      exact iff_of_false (fun hx => hx.1 rfl) hr'
    · rw [Function.update_of_ne hu]
      exact and_iff_right hu
  · have := hle hl
    rw [List.length_erase_of_mem hin]
    omega

/-- **A thread is suspended** when there is nothing for it. -/
theorem Served.suspend {list' : List τ} (h : Served Waits Woken pc list 0) (ht : ¬ Waits (pc t)) (hw' : Waits pc')
    (hr' : ¬ Woken pc') (hperm : list'.Perm (t :: list)) :
    Served Waits Woken (Function.update pc t pc') list' 0 := by
  obtain ⟨ready, hnd, hmem, -⟩ := h.ready
  refine ⟨?_, fun u => ?_, ready.erase t, hnd.erase t, fun u => ?_, fun _ => Nat.zero_le _⟩
  · rw [hperm.nodup_iff, List.nodup_cons]
    exact ⟨fun hm => ht ((h.mem t).1 hm), h.nodup⟩
  · rw [hperm.mem_iff, List.mem_cons, h.mem u]
    by_cases hu : u = t
    · rw [hu, Function.update_self]
      exact iff_of_true (Or.inl rfl) hw'
    · rw [Function.update_of_ne hu]
      exact or_iff_right hu
  · rw [hnd.mem_erase_iff, hmem u]
    by_cases hu : u = t
    · rw [hu, Function.update_self]
      exact iff_of_false (fun hx => hx.1 rfl) hr'
    · rw [Function.update_of_ne hu]
      exact and_iff_right hu

/-- **One more thing resumes one thread.** -/
theorem Served.resume {us : List τ} (h : Served Waits Woken pc (t :: us) n) (ht : ¬ Woken (pc t)) (hw' : ¬ Waits pc')
    (hr' : Woken pc') : Served Waits Woken (Function.update pc t pc') us (n + 1) := by
  obtain ⟨ready, hnd, hmem, hle⟩ := h.ready
  have hcons := List.nodup_cons.1 h.nodup
  refine ⟨hcons.2, fun u => ?_, t :: ready, List.nodup_cons.2 ⟨fun hm => ht ((hmem t).1 hm), hnd⟩, fun u => ?_, fun _ => ?_⟩
  · by_cases hu : u = t
    · rw [hu, Function.update_self]
      exact iff_of_false hcons.1 hw'
    · rw [Function.update_of_ne hu, ← h.mem u, List.mem_cons]
      exact (or_iff_right hu).symm
  · rw [List.mem_cons, hmem u]
    by_cases hu : u = t
    · rw [hu, Function.update_self]
      exact iff_of_true (Or.inl rfl) hr'
    · rw [Function.update_of_ne hu]
      exact or_iff_right hu
  · have := hle (List.cons_ne_nil _ _)
    rw [List.length_cons]
    omega

/-- **A timer takes its thread out of the list.** -/
theorem Served.timer (h : Served Waits Woken pc list n) (hr : ¬ Woken (pc t)) (hw' : ¬ Waits pc') (hr' : ¬ Woken pc') :
    Served Waits Woken (Function.update pc t pc') (list.erase t) n := by
  obtain ⟨ready, hnd, hmem, hle⟩ := h.ready
  refine ⟨h.nodup.erase t, fun u => ?_, ready, hnd, fun u => ?_, fun hl => hle (fun hn => hl (by rw [hn]; rfl))⟩
  · rw [h.nodup.mem_erase_iff, h.mem u]
    by_cases hu : u = t
    · rw [hu, Function.update_self]
      exact iff_of_false (fun hx => hx.1 rfl) hw'
    · rw [Function.update_of_ne hu]
      exact and_iff_right hu
  · rw [hmem u]
    by_cases hu : u = t
    · rw [hu, Function.update_self]
      exact iff_of_false hr hr'
    · rw [Function.update_of_ne hu]

end Waiters
