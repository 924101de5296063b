import RtPay.Lib.Bytes
import Mathlib.Tactic.Linarith
/-!
# CStr — the C string functions

`strncmp`, `strncpy`, `atoi` and the `%02d` conversion over byte lists.  A pointer is the list of the bytes from the
address it holds; a literal is the list of its bytes, and a read past its last one finds the terminator.  `atoi` is the
`int` conversion of a 32-bit target: an out-of-range number saturates, as `strtol` does.
-/
namespace CStr

open Bytes

/-! ## Comparing and copying -/

/-- `strncmp`: the difference of the first bytes that differ, or 0. -/
def strncmp : List Byte → List Byte → Nat → Int
  | _, _, 0 => 0
  | a, b, n + 1 =>
    let x := a.headD 0
    let y := b.headD 0
    if x ≠ y then (x.toNat : Int) - y.toNat
    else if x = 0 then 0
    else strncmp a.tail b.tail n

/-- The `n` bytes `strncpy` stores: the source up to its terminator, then zeros. -/
def strncpyBytes (src : List Byte) (n : Nat) : List Byte :=
  let s := (src.takeWhile (· != 0)).take n
  s ++ List.replicate (n - s.length) 0

theorem toNat_sub_ne_zero {x y : Byte} (h : x ≠ y) : (x.toNat : Int) - y.toNat ≠ 0 := by
  intro h0
  exact h (UInt8.toNat_inj.1 (by omega))

/-- **`strncmp` bounded by the key's own length tests for a prefix**, not for equality. -/
theorem strncmp_eq_zero_iff : ∀ (k r s : List Byte), 0 ∉ k →
    (strncmp (k ++ r) s k.length = 0 ↔ k <+: s)
  | [], r, s, _ => by simp [strncmp]
  | x :: k, r, s, hk => by
    have hx : x ≠ 0 := fun h => hk (by simp [h])
    simp only [List.cons_append, List.length_cons, strncmp, List.headD_cons, List.tail_cons, hx, if_false]
    cases s with
    | nil =>
      simp only [List.headD_nil, hx, ne_eq, not_false_eq_true, if_true]
      simpa using toNat_sub_ne_zero hx
    | cons y s =>
      simp only [List.headD_cons, List.tail_cons, List.cons_prefix_cons]
      by_cases hxy : x = y
      · subst hxy
        simp [strncmp_eq_zero_iff k r s (fun h => hk (by simp [h]))]
      · simpa [hxy] using toNat_sub_ne_zero hxy

theorem takeWhile_ne_zero_append {v : List Byte} (hv : 0 ∉ v) (r : List Byte) :
    (v ++ 0 :: r).takeWhile (· != 0) = v := by
  induction v with
  | nil => simp
  | cons x v ih =>
    have hx : x ≠ 0 := fun h => hv (by simp [h])
    simp [hx, ih (fun h => hv (by simp [h]))]

/-- **Copying a terminated string by its own length** stores its bytes. -/
theorem strncpyBytes_terminated {v : List Byte} (hv : 0 ∉ v) (r : List Byte) :
    strncpyBytes (v ++ 0 :: r) v.length = v := by
  simp [strncpyBytes, takeWhile_ne_zero_append hv]

/-! ## Decimal text -/

def isdigit (c : Byte) : Bool := decide (48 ≤ c.toNat) && decide (c.toNat ≤ 57)

def isspace (c : Byte) : Bool := c == 32 || (decide (9 ≤ c.toNat) && decide (c.toNat ≤ 13))

def decVal (ds : List Byte) : Nat := ds.foldl (fun n c => 10 * n + (c.toNat - 48)) 0

def intMax : Int := 2147483647
def intMin : Int := -2147483648

def clampInt (n : Int) : Int := if n < intMin then intMin else if intMax < n then intMax else n

/-- `atoi`: blanks, an optional sign, and the digits that follow. -/
def atoi (s : List Byte) : Int :=
  match s.dropWhile isspace with
  | [] => 0
  | c :: r =>
    if c = 45 then clampInt (-(decVal (r.takeWhile isdigit) : Int))
    else if c = 43 then clampInt (decVal (r.takeWhile isdigit))
    else clampInt (decVal ((c :: r).takeWhile isdigit))

/-- A plain decimal literal: digits, without a leading zero. -/
def Plain (ds : List Byte) : Prop := ds ≠ [] ∧ (∀ c ∈ ds, isdigit c = true) ∧ (ds.head? = some 48 → ds = [48])

/-- `t` is the literal of the integer `n`. -/
def IntText (t : List Byte) (n : Int) : Prop :=
  (Plain t ∧ n = decVal t) ∨ ∃ u, t = 45 :: u ∧ Plain u ∧ n = -(decVal u : Int)

instance (ds : List Byte) : Decidable (Plain ds) := inferInstanceAs (Decidable (_ ∧ _ ∧ _))

theorem clampInt_of_mem {n : Int} (h1 : intMin ≤ n) (h2 : n ≤ intMax) : clampInt n = n := by
  unfold clampInt
  rw [if_neg (by omega), if_neg (by omega)]

theorem clampInt_cases (n : Int) : n < intMin ∧ clampInt n = intMin ∨ intMax < n ∧ clampInt n = intMax ∨
    (intMin ≤ n ∧ n ≤ intMax) ∧ clampInt n = n := by
  by_cases h1 : n < intMin
  · exact Or.inl ⟨h1, if_pos h1⟩
  · by_cases h2 : intMax < n
    · exact Or.inr (Or.inl ⟨h2, by rw [clampInt, if_neg h1, if_pos h2]⟩)
    · exact Or.inr (Or.inr ⟨⟨Int.not_lt.1 h1, Int.not_lt.1 h2⟩, clampInt_of_mem (Int.not_lt.1 h1) (Int.not_lt.1 h2)⟩)

theorem not_isspace_of_isdigit {c : Byte} (h : isdigit c = true) : isspace c = false := by
  simp only [isdigit, Bool.and_eq_true, decide_eq_true_eq] at h
  have hc : c ≠ 32 := fun he => by subst he; simp at h
  simp only [isspace, Bool.or_eq_false_iff, beq_eq_false_iff_ne, ne_eq, hc, not_false_eq_true, true_and]
  have : ¬ c.toNat ≤ 13 := by omega
  simp [this]

theorem takeWhile_digits {ds : List Byte} (h : ∀ c ∈ ds, isdigit c = true) (r : List Byte) :
    (ds ++ 0 :: r).takeWhile isdigit = ds := by
  rw [List.takeWhile_append_of_pos h]
  simp [isdigit]

theorem takeWhile_digits_terminated (s r : List Byte) : (s ++ 0 :: r).takeWhile isdigit = s.takeWhile isdigit := by
  induction s with
  | nil => simp [isdigit]
  | cons c s ih => rw [List.cons_append, List.takeWhile_cons, List.takeWhile_cons, ih]

theorem atoi_terminated : ∀ (s r : List Byte), atoi (s ++ 0 :: r) = atoi s
  | [], r => by
    unfold atoi
    simp [isspace, isdigit, decVal, clampInt, intMin, intMax]
  | c :: s, r => by
    by_cases hc : isspace c = true
    · have ih := atoi_terminated s r
      unfold atoi at ih ⊢
      rw [List.cons_append, List.dropWhile_cons, List.dropWhile_cons, if_pos hc, if_pos hc, ih]
    · unfold atoi
      rw [List.cons_append, List.dropWhile_cons, List.dropWhile_cons, if_neg hc, if_neg hc]
      simp only [takeWhile_digits_terminated, ← List.cons_append]

/-- `atoi` on a terminated literal: the integer, saturated. -/
theorem atoi_literal {t : List Byte} {n : Int} (h : IntText t n) (r : List Byte) : atoi (t ++ 0 :: r) = clampInt n := by
  rcases h with ⟨⟨hne, hd, -⟩, rfl⟩ | ⟨u, rfl, ⟨hne, hd, -⟩, rfl⟩
  · obtain ⟨c, ds, rfl⟩ := List.exists_cons_of_ne_nil hne
    have hc := hd c (by simp)
    have hs := not_isspace_of_isdigit hc
    have h45 : c ≠ 45 := fun he => by subst he; simp [isdigit] at hc
    have h43 : c ≠ 43 := fun he => by subst he; simp [isdigit] at hc
    unfold atoi
    rw [List.cons_append, List.dropWhile_cons, hs]
    simp only [Bool.false_eq_true, if_false, h45, h43]
    rw [← List.cons_append, takeWhile_digits hd]
  · unfold atoi
    rw [List.cons_append, List.dropWhile_cons]
    simp only [show isspace 45 = false from rfl, Bool.false_eq_true, if_false, if_true]
    rw [takeWhile_digits hd]

/-- **`atoi` reads back a terminated literal** of an `int`. -/
theorem atoi_of_intText {t : List Byte} {n : Int} (h : IntText t n) (h1 : intMin ≤ n) (h2 : n ≤ intMax)
    (r : List Byte) : atoi (t ++ 0 :: r) = n := by
  rw [atoi_literal h, clampInt_of_mem h1 h2]

/-! ## Printing -/

def digitChar (d : Nat) : Byte := UInt8.ofNat (48 + d)

def decAux : Nat → Nat → List Byte
  | 0, _ => []
  | fuel + 1, n => if n < 10 then [digitChar n] else decAux fuel (n / 10) ++ [digitChar (n % 10)]

def dec (n : Nat) : List Byte := decAux (n + 1) n

/-- `%02d`: at least two digits, padded by zeros. -/
def fmt02d (n : Nat) : List Byte := List.replicate (2 - (dec n).length) 48 ++ dec n

theorem decAux_fuel : ∀ (f g n : Nat), n < f → n < g → decAux f n = decAux g n
  | 0, _, _, h, _ => absurd h (by omega)
  | _, 0, _, _, h => absurd h (by omega)
  | f + 1, g + 1, n, hf, hg => by
    simp only [decAux]
    split
    · rfl
    · rw [decAux_fuel f g (n / 10) (by omega) (by omega)]

theorem dec_eq (n : Nat) : dec n = if n < 10 then [digitChar n] else dec (n / 10) ++ [digitChar (n % 10)] := by
  unfold dec
  rw [decAux]
  split
  · rfl
  · rw [decAux_fuel n (n / 10 + 1) (n / 10) (by omega) (by omega)]

theorem toNat_digitChar {d : Nat} (h : d < 10) : (digitChar d).toNat = 48 + d := by
  simp only [digitChar, UInt8.toNat_ofNat']
  omega

theorem isdigit_of_mem_dec (n : Nat) : ∀ c ∈ dec n, isdigit c = true := by
  induction n using Nat.strongRecOn with
  | ind n ih =>
    intro c hc
    rw [dec_eq] at hc
    have hd : ∀ d, d < 10 → isdigit (digitChar d) = true := fun d h => by
      simp only [isdigit, toNat_digitChar h, Bool.and_eq_true, decide_eq_true_eq]; omega
    split at hc
    · rename_i h
      rw [List.mem_singleton.1 hc]; exact hd n h
    · rcases List.mem_append.1 hc with hc | hc
      · exact ih (n / 10) (by omega) c hc
      · rw [List.mem_singleton.1 hc]; exact hd _ (by omega)

theorem decVal_append (ds : List Byte) (c : Byte) : decVal (ds ++ [c]) = 10 * decVal ds + (c.toNat - 48) := by
  rw [decVal, decVal, List.foldl_append]
  rfl

theorem decVal_dec (n : Nat) : decVal (dec n) = n := by
  induction n using Nat.strongRecOn with
  | ind n ih =>
    rw [dec_eq]
    split
    · rename_i h
      rw [decVal, List.foldl_cons, List.foldl_nil, toNat_digitChar h]
      omega
    · rename_i h
      rw [decVal_append, ih (n / 10) (by omega), toNat_digitChar (by omega)]
      omega

theorem length_dec_le_iff (n : Nat) : ∀ k : Nat, (dec n).length ≤ k + 1 ↔ n < 10 ^ (k + 1) := by
  induction n using Nat.strongRecOn with
  | ind n ih =>
    intro k
    rw [dec_eq]
    split
    · rename_i h
      have : 10 ^ 1 ≤ 10 ^ (k + 1) := Nat.pow_le_pow_right (by omega) (by omega)
      simp only [List.length_singleton]
      omega
    · rename_i h
      rw [List.length_append, List.length_singleton]
      cases k with
      | zero =>
        have hpos : 0 < (dec (n / 10)).length := by
          rw [dec_eq]
          split <;> simp
        omega
      | succ k =>
        rw [Nat.add_le_add_iff_right, ih (n / 10) (by omega) k, Nat.pow_succ 10 (k + 1)]
        omega

theorem decVal_zeros (k : Nat) (ds : List Byte) : decVal (List.replicate k 48 ++ ds) = decVal ds := by
  induction k with
  | zero => rfl
  | succ k ih => rw [List.replicate_succ, List.cons_append, ← ih]; rfl

theorem decVal_fmt02d (n : Nat) : decVal (fmt02d n) = n := by
  rw [fmt02d, decVal_zeros, decVal_dec]

theorem isdigit_of_mem_fmt02d (n : Nat) : ∀ c ∈ fmt02d n, isdigit c = true := by
  intro c hc
  rcases List.mem_append.1 hc with hc | hc
  · rw [List.eq_of_mem_replicate hc]; rfl
  · exact isdigit_of_mem_dec n c hc

theorem length_fmt02d_le_iff (n : Nat) (k : Nat) : (fmt02d n).length ≤ k + 2 ↔ n < 10 ^ (k + 2) := by
  rw [fmt02d, List.length_append, List.length_replicate, ← length_dec_le_iff n (k + 1)]
  omega

theorem two_le_length_fmt02d (n : Nat) : 2 ≤ (fmt02d n).length := by
  rw [fmt02d, List.length_append, List.length_replicate]
  omega

end CStr
