import Mathlib.Data.Nat.Basic
import Mathlib.Tactic.Ring
/-!
# VarInt — numbers in base 128, the last digit first

A digit takes seven bits of a byte; the eighth says that more follow.  Writer and reader have a bound on the digits:
below `128 ^ w` what is written is read back, whatever comes behind it, and no longer writing is accepted.
-/
namespace VarInt

/-- At most `w` digits of `n`. -/
def encode : Nat → Nat → List UInt8
  | 0, _ => []
  | w + 1, n => if n < 128 then [UInt8.ofNat n] else UInt8.ofNat (n % 128 + 128) :: encode w (n / 128)

/-- The number in front of `l` and what is behind it, if it ends within `w` digits. -/
def decode : Nat → List UInt8 → Option (Nat × List UInt8)
  | 0, _ => none
  | _ + 1, [] => none
  | w + 1, b :: l =>
    if b.toNat < 128 then some (b.toNat, l)
    else (decode w l).map (fun x => (b.toNat % 128 + 128 * x.1, x.2))

theorem toNat_digit {n : Nat} (h : n < 256) : (UInt8.ofNat n).toNat = n := by
  rw [UInt8.toNat_ofNat', Nat.mod_eq_of_lt h]

/-- The seven bits of a digit. -/
theorem toNat_and_127 (c : UInt8) : (c &&& 127).toNat = c.toNat % 128 := by
  rw [UInt8.toNat_and, show (127 : UInt8).toNat = 2 ^ 7 - 1 from rfl, Nat.and_two_pow_sub_one_eq_mod]

/-- The eighth bit. -/
theorem and_128_ne_zero_iff (c : UInt8) : c &&& 128 ≠ 0 ↔ ¬ c.toNat < 128 := by
  have hall : ∀ i : Fin 256, (UInt8.ofNat i.val &&& 128 ≠ 0 ↔ ¬ i.val < 128) := by decide +kernel
  have := hall ⟨c.toNat, c.toNat_lt⟩
  rwa [UInt8.ofNat_toNat] at this

theorem div_lt_pow {w n : Nat} (h : n < 128 ^ (w + 1)) : n / 128 < 128 ^ w := by
  rw [Nat.pow_succ] at h
  exact Nat.div_lt_of_lt_mul (by rw [Nat.mul_comm]; exact h)

/-- A number with a second digit has room for one. -/
theorem pos_of_not_lt {w n : Nat} (hn : ¬ n < 128) (h : n < 128 ^ (w + 1)) : 0 < w := by
  rcases Nat.eq_zero_or_pos w with rfl | hw
  · omega
  · exact hw

/-- **What is written is read back.** -/
theorem decode_encode {w n : Nat} (hw : 0 < w) (h : n < 128 ^ w) (l : List UInt8) :
    decode w (encode w n ++ l) = some (n, l) := by
  induction w generalizing n with
  | zero => omega
  | succ w ih =>
    by_cases hn : n < 128
    · simp [encode, decode, hn, Nat.mod_eq_of_lt (Nat.lt_of_lt_of_le hn (by decide : 128 ≤ 256))]
    · have hd : (UInt8.ofNat (n % 128 + 128)).toNat = n % 128 + 128 := toNat_digit (by omega)
      simp only [encode, hn, if_false, List.cons_append, decode, hd,
        ih (pos_of_not_lt hn h) (div_lt_pow h), Option.map_some]
      rw [if_neg (by omega)]
      have := Nat.div_add_mod n 128
      congr 2
      omega

theorem length_encode_pos {w : Nat} (h : 0 < w) (n : Nat) : 0 < (encode w n).length := by
  cases w with
  | zero => omega
  | succ w =>
    unfold encode
    split <;> simp

theorem length_encode_le {w k n : Nat} (hk : 0 < k) (h : n < 128 ^ k) : (encode w n).length ≤ k := by
  induction w generalizing k n with
  | zero => exact Nat.zero_le k
  | succ w ih =>
    unfold encode
    split
    · exact hk
    · rename_i hn
      cases k with
      | zero => omega
      | succ k =>
        exact Nat.succ_le_succ (ih (pos_of_not_lt hn h) (div_lt_pow h))

theorem lt_length_encode {w k n : Nat} (hk : k < w) (h : 128 ^ k ≤ n) : k < (encode w n).length := by
  induction k generalizing w n with
  | zero => exact length_encode_pos hk n
  | succ k ih =>
    obtain ⟨w, rfl⟩ : ∃ v, w = v + 1 := ⟨w - 1, by omega⟩
    have h128 : 128 ≤ n := by
      refine Nat.le_trans ?_ h
      rw [Nat.pow_succ]
      exact Nat.le_mul_of_pos_left 128 (Nat.pow_pos (by decide))
    have hdiv : 128 ^ k ≤ n / 128 := by
      rw [Nat.le_div_iff_mul_le (by decide), ← Nat.pow_succ]
      exact h
    rw [encode, if_neg (by omega)]
    exact Nat.succ_lt_succ (ih (by omega) hdiv)

/-- A bound beyond the digits there are changes nothing. -/
theorem encode_of_le {w w' n : Nat} (h : n < 128 ^ w) (hw : 0 < w) (hle : w ≤ w') : encode w' n = encode w n := by
  induction w generalizing w' n with
  | zero => omega
  | succ w ih =>
    obtain ⟨w', rfl⟩ : ∃ v, w' = v + 1 := ⟨w' - 1, by omega⟩
    unfold encode
    split
    · rfl
    · rename_i hn
      rw [ih (div_lt_pow h) (pos_of_not_lt hn h) (by omega)]

/-- **What is read is a piece in front**, of at most `w` digits, and is read the same before anything else. -/
theorem decode_some {w n : Nat} {l r : List UInt8} (h : decode w l = some (n, r)) :
    ∃ p, l = p ++ r ∧ 0 < p.length ∧ p.length ≤ w ∧ n < 128 ^ p.length ∧ ∀ r', decode w (p ++ r') = some (n, r') := by
  induction w generalizing l n with
  | zero => cases h
  | succ w ih =>
    cases l with
    | nil => cases h
    | cons b l =>
      unfold decode at h
      split at h
      · rename_i hb
        cases h
        refine ⟨[b], rfl, Nat.one_pos, by simp, by simpa using hb, fun r' => ?_⟩
        simp [decode, hb]
      · rename_i hb
        obtain ⟨⟨m, r⟩, hd, he⟩ := Option.map_eq_some_iff.1 h
        cases he
        obtain ⟨p, rfl, hpos, hlen, hlt, hany⟩ := ih hd
        refine ⟨b :: p, rfl, Nat.succ_pos _, Nat.succ_le_succ hlen, ?_, fun r' => ?_⟩
        · rw [List.length_cons, Nat.pow_succ]
          have := Nat.mod_lt b.toNat (by decide : 0 < 128)
          dsimp only
          omega
        · simp [decode, hb, hany]

end VarInt
