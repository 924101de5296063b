import Mathlib.Data.List.Basic
/-!
# Last — the last assignment to a cell

A list of operations acts on a cell through a partial function: an operation assigns the cell a value, or leaves it.
What the cell holds in the end is `last`, and a fold whose steps assign or leave a field ends with it (`fold_last`).
`last_filter_iff` says when operations may be left out without the cell showing it.
-/
namespace Last

variable {α β σ : Type*}

/-- The value of the last assignment. -/
def last (g : α → Option β) (ps : List α) : Option β := (ps.filterMap g).getLast?

theorem last_append (g : α → Option β) (ps qs : List α) : last g (ps ++ qs) = (last g qs).or (last g ps) := by
  rw [last, List.filterMap_append, List.getLast?_append, ← last, ← last]

theorem last_singleton (g : α → Option β) (p : α) : last g [p] = g p := by
  unfold last
  cases h : g p <;> simp [h]

theorem last_cons (g : α → Option β) (p : α) (ps : List α) : last g (p :: ps) = (last g ps).or (g p) := by
  rw [← List.singleton_append, last_append, last_singleton]

theorem last_eq_none_iff {g : α → Option β} {ps : List α} : last g ps = none ↔ ∀ p ∈ ps, g p = none := by
  unfold last
  rw [List.getLast?_eq_none_iff, List.filterMap_eq_nil_iff]

/-- Behind an assignment that nothing follows. -/
theorem last_of_split {g : α → Option β} {A B : List α} {p : α} {b : β} (hp : g p = some b)
    (hB : ∀ q ∈ B, g q = none) : last g (A ++ p :: B) = some b := by
  rw [last_append, last_cons, last_eq_none_iff.2 hB, hp]
  rfl

theorem exists_split {g : α → Option β} {ps : List α} {b : β} (h : last g ps = some b) :
    ∃ A p B, ps = A ++ p :: B ∧ g p = some b ∧ ∀ q ∈ B, g q = none := by
  induction ps with
  | nil => cases h
  | cons p ps ih =>
    rw [last_cons] at h
    cases hl : last g ps with
    | none =>
      rw [hl, Option.none_or] at h
      exact ⟨[], p, ps, rfl, h, last_eq_none_iff.1 hl⟩
    | some c =>
      rw [hl, Option.some_or] at h
      obtain ⟨A, q, B, rfl, hq, hB⟩ := ih (hl.trans h)
      exact ⟨p :: A, q, B, rfl, hq, hB⟩

/-- **A field that every step assigns or leaves** ends with the last value it was assigned. -/
theorem fold_last {step : σ → α → Option σ} {g : α → Option β} (π : σ → β)
    (hstep : ∀ s p s', step s p = some s' → π s' = (g p).getD (π s)) :
    ∀ {ps : List α} {s s' : σ}, ps.foldlM step s = some s' → π s' = (last g ps).getD (π s)
  | [], s, s', h => by cases h; rfl
  | p :: ps, s, s', h => by
    rw [List.foldlM_cons] at h
    obtain ⟨t, ht, hrest⟩ := Option.bind_eq_some_iff.1 h
    rw [fold_last π hstep hrest, hstep s p t ht, last_cons]
    cases last g ps <;> cases g p <;> rfl

theorem foldlM_isSome {step : σ → α → Option σ} {ok : α → Prop} (hstep : ∀ s p, ok p → ∃ s', step s p = some s') :
    ∀ {ps : List α} (s : σ), (∀ p ∈ ps, ok p) → ∃ s', ps.foldlM step s = some s'
  | [], s, _ => ⟨s, rfl⟩
  | p :: ps, s, h => by
    obtain ⟨t, ht⟩ := hstep s p (h p List.mem_cons_self)
    obtain ⟨s', hs'⟩ := foldlM_isSome hstep t (fun q hq => h q (List.mem_cons_of_mem _ hq))
    exact ⟨s', by rw [List.foldlM_cons, ht]; exact hs'⟩

theorem foldlM_total {step : σ → α → Option σ} (h : ∀ s p, ∃ s', step s p = some s') (ps : List α) (s : σ) :
    ∃ s', ps.foldlM step s = some s' := by
  have hstep : ∀ s p, True → ∃ s', step s p = some s' := fun s p _ => h s p
  exact foldlM_isSome hstep s (fun _ _ => trivial)

theorem step_of_foldlM {step : σ → α → Option σ} : ∀ {ps : List α} {s s' : σ}, ps.foldlM step s = some s' →
    ∀ p ∈ ps, ∃ t t', step t p = some t'
  | p :: ps, s, s', h, q, hq => by
    rw [List.foldlM_cons] at h
    obtain ⟨t, ht, hrest⟩ := Option.bind_eq_some_iff.1 h
    rcases List.mem_cons.1 hq with rfl | hq
    · exact ⟨s, t, ht⟩
    · exact step_of_foldlM hrest q hq

/-- An operation replaced by one on the same cells shows in a cell only if it had the last word there. -/
theorem last_replace {g : α → Option β} {A B : List α} {p p' : α} (h : (g p').isSome = (g p).isSome)
    (hne : last g (A ++ p' :: B) ≠ last g (A ++ p :: B)) : (g p).isSome ∧ ∀ q ∈ B, g q = none := by
  rw [last_append, last_append, last_cons, last_cons] at hne
  cases hB : last g B with
  | some b => rw [hB] at hne; exact absurd rfl hne
  | none =>
    refine ⟨?_, last_eq_none_iff.1 hB⟩
    cases hp : g p with
    | some b => rfl
    | none =>
      rw [hp, Option.isSome_none, Option.isSome_eq_false_iff, Option.isNone_iff_eq_none] at h
      rw [hp, h] at hne
      exact absurd rfl hne

theorem last_map {γ : Type*} (g : α → Option β) (f : β → γ) (ps : List α) :
    last (fun p => (g p).map f) ps = (last g ps).map f := by
  induction ps with
  | nil => rfl
  | cons p ps ih =>
    rw [last_cons, last_cons, ih]
    cases last g ps <;> rfl

/-- Operations that assign nothing may be left out, and the others be read as what they assign. -/
theorem last_filter_eq {g h : α → Option β} {P : α → Prop} [DecidablePred P] {ps : List α}
    (hP : ∀ p ∈ ps, P p → g p = h p) (hn : ∀ p ∈ ps, ¬ P p → h p = none) : last g (ps.filter P) = last h ps := by
  induction ps with
  | nil => rfl
  | cons p ps ih =>
    have ih := ih (fun q hq => hP q (List.mem_cons_of_mem _ hq)) (fun q hq => hn q (List.mem_cons_of_mem _ hq))
    by_cases hp : P p
    · rw [List.filter_cons_of_pos (by simpa using hp), last_cons, last_cons, ih, hP p List.mem_cons_self hp]
    · rw [List.filter_cons_of_neg (by simpa using hp), last_cons, ih, hn p List.mem_cons_self hp, Option.or_none]

/-- **What a cell shows of the operations left out**: nothing, exactly when each of them that had the last word on the
cell assigned it what the operations kept before it give. -/
theorem last_filter_iff (g : α → Option β) (P : α → Prop) [DecidablePred P] (d : β) (ps : List α) :
    (last g ps).getD d = (last g (ps.filter P)).getD d ↔ ∀ A p B b, ps = A ++ p :: B → ¬ P p → g p = some b →
      (∀ q ∈ B, g q = none) → b = (last g (A.filter P)).getD d := by
  constructor
  · rintro h A p B b rfl hp hb hB
    have hB' : last g (B.filter P) = none := last_eq_none_iff.2 (fun q hq => hB q (List.mem_of_mem_filter hq))
    rw [last_of_split hb hB, List.filter_append, List.filter_cons_of_neg (by simpa using hp), last_append, hB'] at h
    exact h
  · intro h
    cases hl : last g ps with
    | none =>
      rw [last_eq_none_iff.2 (fun q hq => last_eq_none_iff.1 hl q (List.mem_of_mem_filter hq))]
    | some b =>
      obtain ⟨A, p, B, rfl, hb, hB⟩ := exists_split hl
      have hB' : ∀ q ∈ B.filter P, g q = none := fun q hq => hB q (List.mem_of_mem_filter hq)
      by_cases hp : P p
      · rw [List.filter_append, List.filter_cons_of_pos (by simpa using hp), last_of_split hb hB']
      · rw [List.filter_append, List.filter_cons_of_neg (by simpa using hp), last_append, last_eq_none_iff.2 hB']
        exact h A p B b rfl hp hb hB

end Last
