import Mathlib.Data.List.Basic
/-!
# Fifo — a bounded first-in first-out queue

The queue carries its own bound, so that more than `cap` messages cannot be held.  A send on a full queue is refused
and leaves the queue as it was; nothing here blocks.  `History` is the one equation between what was sent, what
was received and what is still held.
-/

/-- A queue of at most `cap` messages, its head the next one to be received. -/
structure Fifo (α : Type*) (cap : Nat) where
  items : List α
  bounded : items.length ≤ cap
  deriving DecidableEq

namespace Fifo

variable {α : Type*} {cap : Nat}

def empty : Fifo α cap := ⟨[], Nat.zero_le _⟩

def Full (q : Fifo α cap) : Prop := q.items.length = cap

instance (q : Fifo α cap) : Decidable q.Full := inferInstanceAs (Decidable (_ = _))

def send (q : Fifo α cap) (a : α) : Option (Fifo α cap) :=
  if h : q.items.length < cap then some ⟨q.items ++ [a], by rw [List.length_append]; exact h⟩ else none

def recv (q : Fifo α cap) : Option (α × Fifo α cap) :=
  match h : q.items with
  | [] => none
  | a :: rest => some (a, ⟨rest, by have := q.bounded; rw [h] at this; simp at this; omega⟩)

@[ext] theorem ext {p q : Fifo α cap} (h : p.items = q.items) : p = q := by
  cases p; cases q; cases h; rfl

theorem send_eq_none_iff (q : Fifo α cap) (a : α) : q.send a = none ↔ q.Full := by
  have hb := q.bounded
  unfold send Full
  split
  · simp; omega
  · simp; omega

theorem items_of_send {q q' : Fifo α cap} {a : α} (h : q.send a = some q') : q'.items = q.items ++ [a] := by
  unfold send at h
  split at h
  · cases h; rfl
  · cases h

theorem send_of_not_full {q : Fifo α cap} (a : α) (h : ¬ q.Full) : ∃ q', q.send a = some q' :=
  Option.ne_none_iff_exists'.1 (fun hn => h ((send_eq_none_iff q a).1 hn))

theorem recv_eq_some_iff {q q' : Fifo α cap} {a : α} : q.recv = some (a, q') ↔ q.items = a :: q'.items := by
  unfold recv
  split
  · rename_i h; simp [h]
  · rename_i b rest h
    simp only [Option.some.injEq, Prod.mk.injEq, h, List.cons.injEq]
    constructor
    · rintro ⟨rfl, rfl⟩; exact ⟨rfl, rfl⟩
    · rintro ⟨rfl, hr⟩; exact ⟨rfl, Fifo.ext hr⟩

/-! ## Sent, received and held -/

/-- **A queue's history**: everything sent is what was received followed by what is held, in order. -/
def History (sent received : List α) (q : Fifo α cap) : Prop := sent = received ++ q.items

instance [DecidableEq α] (sent received : List α) (q : Fifo α cap) : Decidable (History sent received q) :=
  inferInstanceAs (Decidable (_ = _))

theorem history_empty : History [] [] (empty : Fifo α cap) := rfl

theorem History.send {sent received : List α} {q q' : Fifo α cap} {a : α} (h : History sent received q)
    (hq : q.send a = some q') : History (sent ++ [a]) received q' := by
  unfold History at *
  rw [h, items_of_send hq, List.append_assoc]

theorem History.recv {sent received : List α} {q q' : Fifo α cap} {a : α} (h : History sent received q)
    (hq : q.recv = some (a, q')) : History sent (received ++ [a]) q' := by
  unfold History at *
  rw [h, recv_eq_some_iff.1 hq]
  simp

end Fifo
