import Mathlib.Data.List.Basic
import Mathlib.Tactic.Ring
/-!
# Bytes — flat memory and little-endian fields

A block of memory is the list of its bytes.  `peek` reads a range, `poke` overwrites one and refuses a range that does
not lie inside the block, so that an access past the end is a value of the model and not a silent success.  Integers
are laid out little end first.
-/
namespace Bytes

abbrev Byte := UInt8

/-- A check of every byte of a block runs over the block, not over all bytes. -/
instance (priority := high) (p : Byte → Prop) [DecidablePred p] (m : List Byte) : Decidable (∀ c ∈ m, p c) :=
  List.decidableBAll p m

/-- The bytes of an ASCII literal, without a terminator. -/
def text (s : String) : List Byte := s.toList.map Char.toUInt8

/-! ## Ranges -/

def peek (m : List Byte) (i n : Nat) : List Byte := (m.drop i).take n

/-- Overwrite the bytes at `i` by `src`, if they are all inside the block. -/
def poke (m : List Byte) (i : Nat) (src : List Byte) : Option (List Byte) :=
  if i + src.length ≤ m.length then some (m.take i ++ src ++ m.drop (i + src.length)) else none

theorem length_of_poke {m m' src : List Byte} {i : Nat} (h : poke m i src = some m') : m'.length = m.length := by
  unfold poke at h
  split at h
  · cases h; simp; omega
  · cases h

theorem poke_of_le {m src : List Byte} {i : Nat} (h : i + src.length ≤ m.length) :
    poke m i src = some (m.take i ++ src ++ m.drop (i + src.length)) := if_pos h

theorem poke_eq_none_iff {m src : List Byte} {i : Nat} : poke m i src = none ↔ m.length < i + src.length := by
  unfold poke
  split <;> simp <;> omega

theorem getElem?_of_poke {m m' src : List Byte} {i : Nat} (h : poke m i src = some m') (j : Nat) :
    m'[j]? = if i ≤ j ∧ j < i + src.length then src[j - i]? else m[j]? := by
  unfold poke at h
  split at h
  · rename_i hle
    cases h
    have hti : (m.take i).length = i := by simp; omega
    rw [List.append_assoc]
    by_cases h1 : j < i
    · rw [List.getElem?_append_left (by omega), List.getElem?_take_of_lt h1, if_neg (by omega)]
    · rw [List.getElem?_append_right (by omega), hti]
      by_cases h2 : j < i + src.length
      · rw [List.getElem?_append_left (by omega), if_pos ⟨by omega, h2⟩]
      · rw [List.getElem?_append_right (by omega), List.getElem?_drop, if_neg (by omega)]
        congr 1; omega
  · cases h

/-- **A poke is read back** where it was written. -/
theorem peek_of_poke_same {m m' src : List Byte} {i : Nat} (h : poke m i src = some m') :
    peek m' i src.length = src := by
  unfold poke at h
  split at h
  · rename_i hle
    cases h
    have hti : (m.take i).length = i := by simp; omega
    unfold peek
    rw [List.append_assoc, List.drop_append_of_le_length (by omega), List.drop_of_length_le (by omega)]
    simp
  · cases h

/-- **A poke is not seen** by a range that does not meet it. -/
theorem peek_of_poke_apart {m m' src : List Byte} {i k n : Nat} (h : poke m i src = some m')
    (hd : k + n ≤ i ∨ i + src.length ≤ k) : peek m' k n = peek m k n := by
  apply List.ext_getElem?
  intro j
  unfold peek
  rw [List.getElem?_take, List.getElem?_take]
  split
  · rename_i hj
    rw [List.getElem?_drop, List.getElem?_drop, getElem?_of_poke h, if_neg (by omega)]
  · rfl

/-! ## Texts in a block -/

theorem append_prefix_drop {s t m : List Byte} {i : Nat} :
    s ++ t <+: m.drop i ↔ s <+: m.drop i ∧ t <+: m.drop (i + s.length) := by
  rw [← List.drop_drop]
  generalize m.drop i = l
  constructor
  · rintro ⟨r, rfl⟩
    exact ⟨⟨t ++ r, by simp⟩, ⟨r, by simp⟩⟩
  · rintro ⟨⟨r, rfl⟩, ht⟩
    rw [List.drop_left] at ht
    obtain ⟨u, rfl⟩ := ht
    exact ⟨u, by simp⟩

theorem prefix_drop_congr {s m m' : List Byte} {i : Nat} (h : s <+: m.drop i)
    (he : ∀ j, i ≤ j → j < i + s.length → m'[j]? = m[j]?) : s <+: m'.drop i := by
  rw [List.prefix_iff_getElem?] at h ⊢
  intro j hj
  rw [List.getElem?_drop, he (i + j) (by omega) (by omega), ← List.getElem?_drop]
  exact h j hj

theorem length_of_prefix_drop {s m : List Byte} {i : Nat} (h : s <+: m.drop i) (hs : s ≠ []) :
    i + s.length ≤ m.length := by
  have h := h.length_le
  have hpos := List.length_pos_iff.2 hs
  rw [List.length_drop] at h
  omega

/-! ## Little-endian integers -/

def le : Nat → Nat → List Byte
  | 0, _ => []
  | w + 1, n => UInt8.ofNat (n % 256) :: le w (n / 256)

def leVal : List Byte → Nat
  | [] => 0
  | b :: bs => b.toNat + 256 * leVal bs

@[simp] theorem length_le (w n : Nat) : (le w n).length = w := by
  induction w generalizing n with
  | zero => rfl
  | succ w ih => simp [le, ih]

theorem leVal_le (w n : Nat) : leVal (le w n) = n % 256 ^ w := by
  induction w generalizing n with
  | zero => simp [le, leVal, Nat.mod_one]
  | succ w ih =>
    have hb : (UInt8.ofNat (n % 256)).toNat = n % 256 := by simp
    rw [le, leVal, ih, hb, Nat.pow_succ', Nat.mod_mul]

theorem leVal_le_of_lt {w n : Nat} (h : n < 256 ^ w) : leVal (le w n) = n := by
  rw [leVal_le, Nat.mod_eq_of_lt h]

theorem leVal_lt (m : List Byte) : leVal m < 256 ^ m.length := by
  induction m with
  | nil => exact Nat.one_pos
  | cons b m ih =>
    have hb := b.toNat_lt
    rw [leVal, List.length_cons, Nat.pow_succ]
    omega

/-- **A block is the layout of its value.** -/
theorem le_leVal (m : List Byte) : le m.length (leVal m) = m := by
  induction m with
  | nil => rfl
  | cons b m ih =>
    have hb := b.toNat_lt
    have hmod : (b.toNat + 256 * leVal m) % 256 = b.toNat := by omega
    have hdiv : (b.toNat + 256 * leVal m) / 256 = leVal m := by omega
    rw [leVal, List.length_cons, le, hmod, hdiv, ih, UInt8.ofNat_toNat]

theorem leVal_inj {s t : List Byte} (h : s.length = t.length) : leVal s = leVal t ↔ s = t := by
  refine ⟨fun he => ?_, fun he => by rw [he]⟩
  rw [← le_leVal s, ← le_leVal t, h, he]

theorem le_zero (w : Nat) : le w 0 = List.replicate w 0 := by
  induction w with
  | zero => rfl
  | succ w ih => rw [le, Nat.zero_div, ih, List.replicate_succ]; rfl

/-! ## Ranges byte by byte -/

theorem length_peek {m : List Byte} {i n : Nat} (h : i + n ≤ m.length) : (peek m i n).length = n := by
  rw [peek, List.length_take, List.length_drop]
  omega

theorem getD_peek (m : List Byte) {i n j : Nat} (hj : j < n) : (peek m i n).getD j 0 = m.getD (i + j) 0 := by
  simp only [peek, List.getD_eq_getElem?_getD, List.getElem?_take_of_lt hj, List.getElem?_drop]

theorem eq_iff_getD {s t : List Byte} {n : Nat} (hs : s.length = n) (ht : t.length = n) :
    s = t ↔ ∀ j, j < n → s.getD j 0 = t.getD j 0 := by
  refine ⟨fun he j _ => by rw [he], fun he => ?_⟩
  refine List.ext_getElem (hs.trans ht.symm) (fun j h1 h2 => ?_)
  have h := he j (hs ▸ h1)
  simpa only [List.getD_eq_getElem?_getD, List.getElem?_eq_getElem h1, List.getElem?_eq_getElem h2,
    Option.getD_some] using h

/-- **Two memories agree on a range** byte by byte. -/
theorem peek_congr_iff {m m' : List Byte} {i n : Nat} (h : i + n ≤ m.length) (h' : i + n ≤ m'.length) :
    peek m i n = peek m' i n ↔ ∀ j, i ≤ j ∧ j < i + n → m.getD j 0 = m'.getD j 0 := by
  rw [eq_iff_getD (length_peek h) (length_peek h')]
  constructor
  · rintro he j ⟨h1, h2⟩
    have hj := he (j - i) (by omega)
    rwa [getD_peek m (by omega), getD_peek m' (by omega), Nat.add_sub_cancel' h1] at hj
  · intro he j hj
    rw [getD_peek m hj, getD_peek m' hj]
    exact he (i + j) ⟨Nat.le_add_right i j, by omega⟩

/-- **An integer in memory** has the bytes of its layout. -/
theorem leVal_peek_iff {m : List Byte} {i w n : Nat} (h : i + w ≤ m.length) (hn : n < 256 ^ w) :
    leVal (peek m i w) = n ↔ ∀ j, j < w → m.getD (i + j) 0 = (le w n).getD j 0 := by
  have hlen := length_peek h
  have hle : leVal (peek m i w) = n ↔ peek m i w = le w n := by
    rw [← leVal_inj (hlen.trans (length_le w n).symm), leVal_le_of_lt hn]
  rw [hle, eq_iff_getD hlen (length_le w n)]
  exact forall_congr' (fun j => forall_congr' (fun hj => by rw [getD_peek m hj]))

end Bytes
