import Mathlib.Data.List.Nodup
import Mathlib.Logic.Function.Basic
/-!
# Linked — singly linked chains in a memory of nodes

A memory gives each node its next one.  `Chain next p l` says that the pointer `p` leads through the nodes `l` and
ends there: a chain determines its nodes, which are distinct, and is not seen by a write to any other node.
-/
namespace Linked

variable {ι : Type*}

/-- **The pointer `p` leads through `l`**, and the last of them has no next node. -/
def Chain (next : ι → Option ι) : Option ι → List ι → Prop
  | p, [] => p = none
  | p, a :: l => p = some a ∧ Chain next (next a) l

variable {next next' : ι → Option ι} {p : Option ι} {l : List ι}

@[simp] theorem chain_nil : Chain next p [] ↔ p = none := Iff.rfl

@[simp] theorem chain_cons {a : ι} : Chain next p (a :: l) ↔ p = some a ∧ Chain next (next a) l := Iff.rfl

theorem Chain.eq_head? (h : Chain next p l) : p = l.head? := by
  cases l with
  | nil => exact h
  | cons a l => exact h.1

theorem Chain.none_iff (h : Chain next p l) : p = none ↔ l = [] := by
  rw [h.eq_head?, List.head?_eq_none_iff]

theorem Chain.unique {l' : List ι} (h : Chain next p l) (h' : Chain next p l') : l = l' := by
  induction l generalizing p l' with
  | nil =>
    cases l' with
    | nil => rfl
    | cons b l' => rw [h] at h'; cases h'.1
  | cons a l ih =>
    cases l' with
    | nil => rw [h'] at h; cases h.1
    | cons b l' =>
      have hab : a = b := Option.some.inj (h.1.symm.trans h'.1)
      subst hab
      rw [ih h.2 h'.2]

/-- **A write to another node is not seen.** -/
theorem Chain.frame (h : Chain next p l) (he : ∀ a ∈ l, next' a = next a) : Chain next' p l := by
  induction l generalizing p with
  | nil => exact h
  | cons a l ih =>
    refine ⟨h.1, ?_⟩
    rw [he a List.mem_cons_self]
    exact ih h.2 (fun b hb => he b (List.mem_cons_of_mem _ hb))

theorem Chain.drop {a : ι} {A B : List ι} (h : Chain next p (A ++ a :: B)) : Chain next (some a) (a :: B) := by
  induction A generalizing p with
  | nil => rwa [← h.1]
  | cons b A ih => exact ih h.2

theorem Chain.nodup (h : Chain next p l) : l.Nodup := by
  induction l generalizing p with
  | nil => exact List.nodup_nil
  | cons a l ih =>
    refine List.nodup_cons.2 ⟨fun hm => ?_, ih h.2⟩
    -- a second visit of `a` would make the rest of the chain as long as the whole
    obtain ⟨A, B, rfl⟩ := List.append_of_mem hm
    have h1 : Chain next (some a) (a :: (A ++ a :: B)) := h.1 ▸ h
    have h2 : Chain next (some a) (a :: B) := h.2.drop
    have hlen := congrArg List.length (h1.unique h2)
    simp only [List.length_cons, List.length_append] at hlen
    omega

/-! ## Adding a node -/

theorem Chain.setLast {t b : ι} (h : Chain next p (l ++ [t])) (ht : t ∉ l) (hb : Chain next' (some b) [b])
    (he : ∀ a ∈ l, next' a = next a) (hn : next' t = some b) : Chain next' p (l ++ [t] ++ [b]) := by
  induction l generalizing p with
  | nil =>
    refine ⟨h.1, ?_⟩
    rw [hn]
    exact hb
  | cons a l ih =>
    refine ⟨h.1, ?_⟩
    rw [he a List.mem_cons_self]
    exact ih h.2 (fun hm => ht (List.mem_cons_of_mem _ hm)) (fun c hc => he c (List.mem_cons_of_mem _ hc))

section
variable [DecidableEq ι]

/-- **At the front**: a node outside the chain that points to its start. -/
theorem Chain.push {a : ι} (h : Chain next p l) (ha : a ∉ l) : Chain (Function.update next a p) (some a) (a :: l) := by
  refine ⟨rfl, ?_⟩
  rw [Function.update_self]
  exact h.frame (fun b hb => Function.update_of_ne (ne_of_mem_of_not_mem hb ha) _ _)

/-- The last node, if there is one, is made to point to `b`. -/
def linkAfter (next : ι → Option ι) (last : Option ι) (b : ι) : ι → Option ι :=
  match last with
  | some t => Function.update next t (some b)
  | none => next

theorem linkAfter_of_ne {last : Option ι} {a b : ι} (h : last ≠ some a) : linkAfter next last b a = next a := by
  cases last with
  | none => rfl
  | some t => exact Function.update_of_ne (fun e => h (congrArg some e.symm)) _ _

/-- **At the end**: the last node is made to point to a node outside the chain that points nowhere. -/
theorem Chain.append {b : ι} (h : Chain next p l) (hb : b ∉ l) (hnext : next b = none) :
    Chain (linkAfter next l.getLast? b) (p.or (some b)) (l ++ [b]) := by
  rcases List.eq_nil_or_concat l with rfl | ⟨A, t, rfl⟩
  · rw [chain_nil] at h
    rw [h]
    exact ⟨rfl, hnext⟩
  · rw [List.concat_eq_append] at h hb ⊢
    have hnd := h.nodup
    have ht : t ∉ A := by
      rw [List.nodup_append] at hnd
      exact fun hm => hnd.2.2 t hm t (List.mem_singleton.2 rfl) rfl
    have hbt : b ≠ t := by
      rintro rfl
      exact hb (List.mem_append_right _ (List.mem_singleton.2 rfl))
    have hp : p.or (some b) = p := by
      obtain ⟨a, ha⟩ : ∃ a, p = some a := by
        cases A with
        | nil => exact ⟨t, h.1⟩
        | cons a A => exact ⟨a, h.1⟩
      rw [ha]
      rfl
    rw [hp, List.getLast?_append]
    simp only [List.getLast?_singleton, Option.some_or]
    refine h.setLast ht ⟨rfl, ?_⟩ (fun a ha => Function.update_of_ne (ne_of_mem_of_not_mem ha ht) _ _)
      (Function.update_self _ _ _)
    rw [linkAfter_of_ne (fun e => hbt (Option.some.inj e).symm)]
    exact hnext

end

/-- The nodes that are met in `n` steps from a pointer. -/
def follow (next : ι → Option ι) : Nat → Option ι → List ι
  | 0, _ => []
  | _ + 1, none => []
  | n + 1, some a => a :: follow next n (next a)

theorem Chain.follow_eq (h : Chain next p l) : follow next l.length p = l := by
  induction l generalizing p with
  | nil => rfl
  | cons a l ih =>
    rw [h.1]
    exact congrArg (a :: ·) (ih h.2)

end Linked
