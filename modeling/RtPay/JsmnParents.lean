import RtPay.JsmnTokens
/-!
# JsmnParents — whose child each token is

A token that comes raises the size of the token `toksuper` is at, its parent.  The parser keeps the sizes and not the
parents; a key that is itself the value of another key differs from a member of the object around it in its parent alone.
-/
namespace RtPay
namespace Jsmn

open Bytes

/-- The parent of the token that a turn from `p` to `q` made, if it made one. -/
def parentOf (p q : Parser) : List (Option Nat) := if p.tokens.length < q.tokens.length then [p.toksuper] else []

/-- The parents of the tokens that the loop makes, in their order. -/
def parentsLoop (num : Nat) : Nat → Parser → List Byte → List (Option Nat)
  | 0, _, _ => []
  | _ + 1, _, [] => []
  | fuel + 1, p, c :: js =>
    if c = 0 then []
    else
      match jsmnStep num p c js with
      | .error _ => []
      | .ok (p', js') => parentOf p p' ++ parentsLoop num fuel p' js'

def parents (num : Nat) (js : List Byte) : List (Option Nat) := parentsLoop num js.length jsmnInit js

section Parents

variable {num : Nat} {p q : Parser}

def sizeAt (p : Parser) (j : Nat) : Nat := ((p.tokens[j]?).map Tok.size).getD 0

theorem parentOf_of_tokens (h : q.tokens.length = p.tokens.length) : parentOf p q = [] := by
  rw [parentOf, if_neg (by omega)]

theorem parentOf_of_grow (h : q.tokens.length = p.tokens.length + 1) : parentOf p q = [p.toksuper] := by
  rw [parentOf, if_pos (by omega)]

/-- A token that comes has no child yet, and is one more of its parent. -/
theorem sizeAt_bump (hs : SuperBelow p) {t : Tok} (ht : t.size = 0) (hq : q.tokens = bump p.toksuper (p.tokens ++ [t]))
    (j : Nat) : sizeAt q j = sizeAt p j + [p.toksuper].count (some j) := by
  have hcount : [p.toksuper].count (some j) = if p.toksuper = some j then 1 else 0 := by
    rw [List.count_singleton]
    simp
  rw [sizeAt, sizeAt, hq, getElem?_bump, hcount, List.getElem?_append]
  by_cases hj : j < p.tokens.length
  · rw [if_pos hj, List.getElem?_eq_getElem hj]
    simp only [Option.map_some, Option.getD_some]
    split <;> rfl
  · have hsuper : p.toksuper ≠ some j := fun h => hj (hs j h)
    rw [if_neg hj, if_neg hsuper, List.getElem?_eq_none (by omega : p.tokens.length ≤ j)]
    by_cases h0 : j - p.tokens.length = 0
    · simp [h0, hsuper, ht]
    · rw [List.getElem?_eq_none (by rw [List.length_singleton]; omega)]
      rfl

/-- **A turn raises the size of the parent it recorded**, and no other. -/
theorem Takes.sizeAt {s r : List Byte} (h : Takes num p s r q) (hs : SuperBelow p) (j : Nat) :
    sizeAt q j = Jsmn.sizeAt p j + (parentOf p q).count (some j) := by
  have hgrow : ∀ (t : Tok), t.size = 0 → q.tokens = bump p.toksuper (p.tokens ++ [t]) →
      Jsmn.sizeAt q j = Jsmn.sizeAt p j + (parentOf p q).count (some j) := by
    intro t ht hq
    rw [parentOf_of_grow (by rw [hq, length_bump, List.length_append, List.length_singleton]), sizeAt_bump hs ht hq]
  have hsame : q.tokens.map Tok.size = p.tokens.map Tok.size →
      Jsmn.sizeAt q j = Jsmn.sizeAt p j + (parentOf p q).count (some j) := by
    intro hq
    have hlen := congrArg List.length hq
    rw [List.length_map, List.length_map] at hlen
    rw [parentOf_of_tokens hlen, Jsmn.sizeAt, Jsmn.sizeAt, ← List.getElem?_map, ← List.getElem?_map, hq]
    rfl
  cases h with
  | prim => exact hgrow _ rfl rfl
  | str => exact hgrow _ rfl rfl
  | opens k => exact hgrow ⟨tokType k, p.pos, none, 0⟩ rfl rfl
  | closes k ht => exact hsame (by rw [ht]; simp)
  | blank => exact hsame rfl
  | colon => exact hsame rfl
  | comma =>
    obtain ⟨s', hs', -⟩ := comma_eq p
    exact hsame (by rw [hs'])

theorem Takes.length_parentOf {s r : List Byte} (h : Takes num p s r q) :
    q.tokens.length = p.tokens.length + (parentOf p q).length := by
  have hgrow : q.tokens.length = p.tokens.length + 1 → q.tokens.length = p.tokens.length + (parentOf p q).length := by
    intro hq
    rw [parentOf_of_grow hq, hq]
    rfl
  have hsame : q.tokens.length = p.tokens.length → q.tokens.length = p.tokens.length + (parentOf p q).length := by
    intro hq
    rw [parentOf_of_tokens hq, hq]
    rfl
  cases h with
  | prim => exact hgrow (by simp [pushed])
  | str => exact hgrow (by simp [pushed])
  | opens => exact hgrow (by simp [opened])
  | closes k ht => exact hsame (by simp [ht])
  | blank => exact hsame rfl
  | colon => exact hsame rfl
  | comma =>
    obtain ⟨s', hs', -⟩ := comma_eq p
    exact hsame (by rw [hs'])

/-- **What the loop adds to the sizes** are the children it recorded. -/
theorem sizeAt_parseLoop : ∀ (fuel : Nat) {p q : Parser} {js : List Byte}, Ordered num p →
    parseLoop num fuel p js = .ok q →
      q.tokens.length = p.tokens.length + (parentsLoop num fuel p js).length ∧
        ∀ j, sizeAt q j = sizeAt p j + (parentsLoop num fuel p js).count (some j)
  | 0, p, q, js, _, h => by
    cases h
    exact ⟨rfl, fun _ => rfl⟩
  | fuel + 1, p, q, [], _, h => by
    cases h
    exact ⟨rfl, fun _ => rfl⟩
  | fuel + 1, p, q, c :: js, ho, h => by
    rw [parseLoop] at h
    rw [parentsLoop]
    by_cases hc : c = 0
    · rw [if_pos hc] at h ⊢
      cases h
      exact ⟨rfl, fun _ => rfl⟩
    · rw [if_neg hc] at h ⊢
      cases hstep : jsmnStep num p c js with
      | error e => rw [hstep] at h; cases h
      | ok u =>
        obtain ⟨p', js'⟩ := u
        rw [hstep] at h
        obtain ⟨s, -, htakes⟩ := jsmnStep_takes hc hstep
        obtain ⟨hlen, hsize⟩ := sizeAt_parseLoop fuel (ho.takes htakes) h
        dsimp only
        refine ⟨?_, fun j => ?_⟩
        · rw [hlen, htakes.length_parentOf, List.length_append, Nat.add_assoc]
        · rw [hsize, htakes.sizeAt ho.below, List.count_append, Nat.add_assoc]

/-- **Each token has one parent, and its size is the number of tokens whose parent it is.** -/
theorem size_of_parents {payload : List Byte} (h : jsmnParse payload num = .ok p) :
    (parents num payload).length = p.tokens.length ∧
      ∀ j t, p.tokens[j]? = some t → t.size = (parents num payload).count (some j) := by
  obtain ⟨hlen, hsize⟩ := sizeAt_parseLoop payload.length (ordered_init num) (parseAll_of_jsmnParse h)
  refine ⟨by rw [hlen]; exact (Nat.zero_add _).symm, fun j t ht => ?_⟩
  have hj := hsize j
  have h0 : sizeAt jsmnInit j = 0 := rfl
  rwa [sizeAt, ht, h0, Nat.zero_add] at hj

end Parents

end Jsmn
end RtPay
