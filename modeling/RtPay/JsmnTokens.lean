import RtPay.JsmnTurns
/-!
# JsmnTokens — what an accepted text leaves in the token array

Whatever the text, the tokens keep an order: each lies in what was read, and of two of them the earlier one ends before
the later one comes or closes over it (`Ordered`).  A string counts only tokens it had for its own, the first of them
right behind the colon that followed it (`Keyed`); so a key of an accepted text has its value (`keys_have_values`).
-/
namespace RtPay
namespace Jsmn

open Bytes JsonText

/-! ## The order of the tokens -/

def Tok.erase (t : Tok) : Tok := { t with size := 0 }

/-- Where a token came into the array: at its first byte, or at the quote before it. -/
def Tok.origin (t : Tok) : Nat := if t.type = .string then t.start - 1 else t.start

theorem Tok.origin_le_start (t : Tok) : t.origin ≤ t.start := by
  unfold Tok.origin
  split <;> omega

/-- A token of what was read up to `pos`. -/
def Tok.Placed (pos : Nat) (t : Tok) : Prop :=
  t.start ≤ pos ∧ (t.type = .string → 0 < t.start) ∧ (t.stop = none → t.type.isBox = true) ∧
    ∀ e, t.stop = some e → t.start ≤ e ∧ e ≤ pos ∧ (t.type = .string → e < pos)

/-- Of two tokens the earlier one ends before the later one comes, or behind its end. -/
def Apart (a b : Tok) : Prop := ∀ e, a.stop = some e → e ≤ b.origin ∨ ∃ f, b.stop = some f ∧ f < e

theorem erase_bump (s : Option Nat) (ts : List Tok) : (bump s ts).map Tok.erase = ts.map Tok.erase := by
  cases s with
  | none => rfl
  | some i =>
    simp only [bump]
    induction ts generalizing i with
    | nil => simp
    | cons t ts ih =>
      cases i with
      | zero => simp [Tok.erase]
      | succ i => simp only [List.modify_succ_cons, List.map_cons, ih]

theorem forall_bump {P : Tok → Prop} (hP : ∀ t : Tok, P t.erase ↔ P t) (s : Option Nat) (ts : List Tok) :
    (∀ t ∈ bump s ts, P t) ↔ ∀ t ∈ ts, P t := by
  have h : ∀ us : List Tok, (∀ t ∈ us, P t) ↔ ∀ t ∈ us.map Tok.erase, P t := by simp [hP]
  rw [h, erase_bump, ← h]

theorem pairwise_bump {R : Tok → Tok → Prop} (hR : ∀ a b : Tok, R a.erase b.erase ↔ R a b) (s : Option Nat)
    (ts : List Tok) : (bump s ts).Pairwise R ↔ ts.Pairwise R := by
  have h : ∀ us : List Tok, us.Pairwise R ↔ (us.map Tok.erase).Pairwise R := by simp [List.pairwise_map, hR]
  rw [h, erase_bump, ← h]

theorem getElem?_bump (s : Option Nat) (ts : List Tok) (i : Nat) :
    (bump s ts)[i]? = ts[i]?.map (fun t => if s = some i then { t with size := t.size + 1 } else t) := by
  cases s with
  | none => simp [bump]
  | some j =>
    rw [bump, List.getElem?_modify]
    by_cases h : j = i <;> simp [h]

/-- **The tokens of what was read.** -/
structure Ordered (num : Nat) (p : Parser) : Prop where
  below : SuperBelow p
  count : p.count = p.tokens.length
  room : p.tokens.length ≤ num
  placed : ∀ t ∈ p.tokens, t.Placed p.pos
  apart : p.tokens.Pairwise Apart
  last : ∀ T t, p.tokens = T ++ [t] → t.size = 0

theorem Tok.Placed.mono {pos pos' : Nat} {t : Tok} (h : t.Placed pos) (hle : pos ≤ pos') : t.Placed pos' := by
  obtain ⟨h1, h2, h3, h4⟩ := h
  refine ⟨by omega, h2, h3, fun e he => ?_⟩
  obtain ⟨h5, h6, h7⟩ := h4 e he
  exact ⟨h5, by omega, fun hs => by have := h7 hs; omega⟩

theorem ordered_init (num : Nat) : Ordered num jsmnInit where
  below := by simp [SuperBelow, jsmnInit]
  count := rfl
  room := Nat.zero_le _
  placed := by simp [jsmnInit]
  apart := List.Pairwise.nil
  last := by simp [jsmnInit]

section Order

variable {num : Nat} {p q : Parser}

/-- A new token stands behind the others: each of them is closed before it or still open. -/
theorem Ordered.grow (h : Ordered num p) (room : p.tokens.length < num) {t : Tok} {pos : Nat} (hsize : t.size = 0)
    (horigin : p.pos ≤ t.origin) (hplaced : t.Placed pos) (hpos : p.pos ≤ pos) : Ordered num (pushed p t pos) where
  below i hi := by
    have := h.below i hi
    simp only [pushed, length_bump, List.length_append]
    omega
  count := by simp [pushed, h.count]
  room := by simp only [pushed, length_bump, List.length_append, List.length_singleton]; omega
  placed := by
    refine (forall_bump (fun _ => Iff.rfl) _ _).2 (fun u hu => ?_)
    rcases List.mem_append.1 hu with hu | hu
    · exact (h.placed u hu).mono hpos
    · rw [List.mem_singleton.1 hu]; exact hplaced
  apart := by
    refine (pairwise_bump (fun _ _ => Iff.rfl) _ _).2 (List.pairwise_append.2 ⟨h.apart, by simp, ?_⟩)
    intro a ha b hb e he
    rw [List.mem_singleton.1 hb]
    exact Or.inl (Nat.le_trans ((h.placed a ha).2.2.2 e he).2.1 horigin)
  last T u hT := by
    have hb : bump p.toksuper (p.tokens ++ [t]) = bump p.toksuper p.tokens ++ [t] := bump_append h.below _
    simp only [pushed, hb] at hT
    obtain ⟨-, hu⟩ := List.append_inj' hT rfl
    cases hu
    exact hsize

theorem findLast_lt {P : Tok → Bool} {ts : List Tok} {i : Nat} (h : findLast P ts = some i) : i < ts.length := by
  obtain ⟨A, C, B, rfl, rfl, -⟩ := findLast_some h
  simp

theorem stop_of_isOpen {t : Tok} (h : t.isOpen = false) : ∃ e, t.stop = some e := by
  unfold Tok.isOpen at h
  cases hs : t.stop with
  | none => rw [hs] at h; cases h
  | some e => exact ⟨e, rfl⟩

/-- The token with its end behind the bracket at `pos`. -/
def Tok.closed (t : Tok) (pos : Nat) : Tok := { t with stop := some (pos + 1) }

theorem Tok.Placed.closed {pos : Nat} {t : Tok} (h : t.Placed pos) (hbox : t.type.isBox = true) :
    (t.closed pos).Placed (pos + 1) := by
  obtain ⟨h1, h2, -, -⟩ := h
  have hstr : t.type ≠ .string := by rintro he; rw [he] at hbox; cases hbox
  refine ⟨Nat.le_succ_of_le h1, h2, by simp [Tok.closed], ?_⟩
  rintro e ⟨⟩
  exact ⟨Nat.le_succ_of_le h1, Nat.le_refl _, fun he => absurd he hstr⟩

/-- A box closes over the tokens behind it, and they are closed by now. -/
theorem apart_closed {A B : List Tok} {C : Tok} {pos : Nat} (h : (A ++ C :: B).Pairwise Apart)
    (hplaced : ∀ t ∈ B, t.Placed pos) (hC : C.isOpen = true) (hB : ∀ t ∈ B, t.isOpen = false) :
    (A ++ C.closed pos :: B).Pairwise Apart := by
  simp only [List.pairwise_append, List.pairwise_cons, List.mem_cons] at h ⊢
  obtain ⟨hA, ⟨-, hBB⟩, hAB⟩ := h
  refine ⟨hA, ⟨?_, hBB⟩, ?_⟩
  · rintro b hb e ⟨⟩
    obtain ⟨f, hf⟩ := stop_of_isOpen (hB b hb)
    have hle := ((hplaced b hb).2.2.2 f hf).2.1
    exact Or.inr ⟨f, hf, by omega⟩
  · rintro a ha b (rfl | hb) e he
    · refine (hAB a ha C (Or.inl rfl) e he).imp id ?_
      rintro ⟨f, hf, -⟩
      simp [Tok.isOpen, hf] at hC
    · exact hAB a ha b (Or.inr hb) e he

theorem last_of_middle {A B : List Tok} {C C' : Tok} (hsize : C'.size = C.size) {T : List Tok} {t : Tok}
    (h : A ++ C' :: B = T ++ [t]) : ∃ T' t', A ++ C :: B = T' ++ [t'] ∧ t'.size = t.size := by
  rcases List.eq_nil_or_concat B with rfl | ⟨B', b, rfl⟩
  · obtain ⟨-, hu⟩ := List.append_inj' h rfl
    cases hu
    exact ⟨A, C, rfl, hsize.symm⟩
  · have h : (A ++ C' :: B') ++ [b] = T ++ [t] := by simpa using h
    obtain ⟨-, hu⟩ := List.append_inj' h rfl
    cases hu
    exact ⟨A ++ C :: B', t, by simp, rfl⟩

/-- A box that closes keeps the order. -/
theorem Ordered.close (h : Ordered num p) {A B : List Tok} {C : Tok} (htok : p.tokens = A ++ C :: B)
    (hC : C.isOpen = true) (hbox : C.type.isBox = true) (hB : ∀ t ∈ B, t.isOpen = false) :
    Ordered num ⟨p.pos + 1, findLast Tok.isOpen A, A ++ C.closed p.pos :: B, p.count⟩ where
  below i hi := by
    have := findLast_lt hi
    simp only [List.length_append, List.length_cons]
    omega
  count := by rw [h.count, htok]; simp
  room := by
    have := h.room
    rw [htok] at this
    simpa using this
  placed t hmem := by
    have hplaced := h.placed
    rw [htok] at hplaced
    simp only [List.mem_append, List.mem_cons] at hmem hplaced
    rcases hmem with ht | rfl | ht
    · exact (hplaced t (Or.inl ht)).mono (Nat.le_succ _)
    · exact (hplaced C (Or.inr (Or.inl rfl))).closed hbox
    · exact (hplaced t (Or.inr (Or.inr ht))).mono (Nat.le_succ _)
  apart := by
    have hapart := h.apart
    rw [htok] at hapart
    exact apart_closed hapart (fun t ht => h.placed t (by rw [htok]; simp [ht])) hC hB
  last T t hT := by
    obtain ⟨T', t', ht', hsize⟩ := @last_of_middle A B C (C.closed p.pos) rfl T t hT
    rw [← hsize]
    exact h.last T' t' (htok.trans ht')

/-- A turn that only moves on keeps the order, wherever the superior token moves below the end. -/
theorem Ordered.move (h : Ordered num p) {s : Option Nat} (hs : ∀ i, s = some i → i < p.tokens.length) :
    Ordered num { p with pos := p.pos + 1, toksuper := s } :=
  ⟨hs, h.count, h.room, fun t ht => (h.placed t ht).mono (Nat.le_succ _), h.apart, h.last⟩

theorem Ordered.takes (h : Ordered num p) {s r : List Byte} (ht : Takes num p s r q) : Ordered num q := by
  cases ht with
  | prim _ _ room =>
    refine h.grow room rfl (Nat.le_refl _) ⟨Nat.le_add_right _ _, by simp, by simp, ?_⟩ (Nat.le_add_right _ _)
    rintro e ⟨⟩
    exact ⟨Nat.le_add_right _ _, Nat.le_refl _, by simp⟩
  | @str b r _ room =>
    have hstart : p.pos + 1 ≤ p.pos + b.length + 2 := by omega
    refine h.grow room rfl (Nat.le_refl _) ⟨hstart, fun _ => Nat.succ_pos _, by simp, ?_⟩ (by omega)
    rintro e ⟨⟩
    exact ⟨by simp, by omega, fun _ => by omega⟩
  | opens k room =>
    have hp : Ordered num (pushed p ⟨tokType k, p.pos, none, 0⟩ (p.pos + 1)) := by
      refine h.grow room rfl ?_ ⟨by simp, ?_, fun _ => isBox_tokType k, by simp⟩ (by omega)
      · cases k <;> simp [Tok.origin, tokType]
      · cases k <;> simp [tokType]
    refine ⟨?_, hp.count, hp.room, hp.placed, hp.apart, hp.last⟩
    rintro i ⟨⟩
    simp [opened]
  | closes k htok hC hk hB => exact h.close htok hC (by rw [hk]; exact isBox_tokType k) hB
  | blank => exact h.move h.below
  | colon =>
    refine h.move (fun i hi => ?_)
    split at hi
    · cases hi
    · cases hi; omega
  | comma =>
    obtain ⟨s, hs, hsup⟩ := comma_eq p
    rw [hs]
    refine h.move (fun i hi => ?_)
    rcases hsup with rfl | ⟨j, hj, rfl⟩
    · exact h.below i hi
    · cases hi
      exact findLast_lt hj

theorem Run.ordered {s r : List Byte} (h : Run num p s r q) (hp : Ordered num p) : Ordered num q := by
  induction h with
  | here => exact hp
  | turn _ ht ih => exact ih.takes ht

end Order

/-! ## Tokens over a run -/

/-- What becomes of a token: it keeps its place, and if it was open it ends behind `pos`. -/
structure Later (pos : Nat) (t u : Tok) : Prop where
  type : u.type = t.type
  start : u.start = t.start
  size : t.size ≤ u.size
  stop : ∀ e, t.stop = some e → u.stop = some e
  opened : t.stop = none → ∀ e, u.stop = some e → pos < e

theorem Later.refl (pos : Nat) (t : Tok) : Later pos t t :=
  ⟨rfl, rfl, Nat.le_refl _, fun _ h => h, fun h e he => by rw [h] at he; cases he⟩

theorem Later.trans {pos pos' : Nat} {t u v : Tok} (h₁ : Later pos t u) (h₂ : Later pos' u v) (hle : pos ≤ pos') :
    Later pos t v where
  type := by rw [h₂.type, h₁.type]
  start := by rw [h₂.start, h₁.start]
  size := Nat.le_trans h₁.size h₂.size
  stop e he := h₂.stop e (h₁.stop e he)
  opened hn e he := by
    cases hu : u.stop with
    | none => have := h₂.opened hu e he; omega
    | some f =>
      have := h₂.stop f hu
      rw [he] at this
      cases this
      exact h₁.opened hn e hu

/-- A token closed behind a turn stays closed. -/
theorem Later.closed {pos : Nat} {t u : Tok} (h : Later pos t u) (ht : t.isOpen = false) : u.isOpen = false := by
  obtain ⟨e, he⟩ := stop_of_isOpen ht
  simp [Tok.isOpen, h.stop e he]

section Keeps

variable {num : Nat} {p q : Parser}

theorem getElem?_pushed (hs : SuperBelow p) (x : Tok) (pos i : Nat) {u : Tok}
    (h : (pushed p x pos).tokens[i]? = some u) :
    (∃ t, p.tokens[i]? = some t ∧ u = if p.toksuper = some i then { t with size := t.size + 1 } else t) ∨
      i = p.tokens.length ∧ u = x := by
  simp only [pushed, getElem?_bump, Option.map_eq_some_iff] at h
  obtain ⟨t, ht, rfl⟩ := h
  by_cases hi : i < p.tokens.length
  · rw [List.getElem?_append_left hi] at ht
    exact Or.inl ⟨t, ht, rfl⟩
  · rw [List.getElem?_append_right (by omega), List.getElem?_singleton] at ht
    split at ht
    · cases ht
      have hi : i = p.tokens.length := by omega
      refine Or.inr ⟨hi, if_neg (fun h => ?_)⟩
      have := hs i h
      omega
    · cases ht

theorem getElem?_pushed_length (hs : SuperBelow p) (x : Tok) (pos : Nat) :
    (pushed p x pos).tokens[p.tokens.length]? = some x := by
  have hlt : p.tokens.length < (pushed p x pos).tokens.length := by simp [pushed]
  rcases getElem?_pushed hs x pos _ (List.getElem?_eq_getElem hlt) with ⟨t, ht, -⟩ | ⟨-, hu⟩
  · exact absurd (List.getElem?_eq_some_iff.1 ht).1 (Nat.lt_irrefl _)
  · rw [List.getElem?_eq_getElem hlt, hu]

theorem pushed_getElem? (x : Tok) (pos : Nat) {i : Nat} {t : Tok} (h : p.tokens[i]? = some t) :
    (pushed p x pos).tokens[i]? = some (if p.toksuper = some i then { t with size := t.size + 1 } else t) := by
  have hi : i < p.tokens.length := (List.getElem?_eq_some_iff.1 h).1
  simp only [pushed, getElem?_bump, List.getElem?_append_left hi, h, Option.map_some]

theorem later_pushed (x : Tok) (pos : Nat) {i : Nat} {t : Tok} (h : p.tokens[i]? = some t) :
    ∃ u, (pushed p x pos).tokens[i]? = some u ∧ Later p.pos t u := by
  refine ⟨_, pushed_getElem? x pos h, ?_⟩
  split
  · exact ⟨rfl, rfl, Nat.le_succ _, fun _ h => h, fun h e he => by rw [h] at he; cases he⟩
  · exact Later.refl _ _

theorem getElem?_middle (A B : List Tok) (C C' : Tok) (i : Nat) :
    (A ++ C' :: B)[i]? = if i = A.length then some C' else (A ++ C :: B)[i]? := by
  split
  · rename_i hi; subst hi; simp
  · rename_i hi
    by_cases hlt : i < A.length
    · rw [List.getElem?_append_left hlt, List.getElem?_append_left hlt]
    · rw [List.getElem?_append_right (by omega), List.getElem?_append_right (by omega)]
      obtain ⟨j, hj⟩ : ∃ j, i - A.length = j + 1 := ⟨i - A.length - 1, by omega⟩
      rw [hj, List.getElem?_cons_succ, List.getElem?_cons_succ]

theorem Takes.later {s r : List Byte} (h : Takes num p s r q) {i : Nat} {t : Tok} (ht : p.tokens[i]? = some t) :
    ∃ u, q.tokens[i]? = some u ∧ Later p.pos t u := by
  cases h with
  | prim => exact later_pushed _ _ ht
  | str => exact later_pushed _ _ ht
  | opens k => exact later_pushed ⟨tokType k, p.pos, none, 0⟩ (p.pos + 1) ht
  | @closes k A B C _ htok hC _ _ =>
    dsimp only
    rw [htok] at ht
    rw [getElem?_middle A B C]
    split
    · rename_i hi
      subst hi
      simp only [List.getElem?_append_right (Nat.le_refl _), Nat.sub_self, List.getElem?_cons_zero,
        Option.some.injEq] at ht
      subst ht
      refine ⟨_, rfl, rfl, rfl, Nat.le_refl _, fun e he => ?_, fun _ e he => ?_⟩
      · simp [Tok.isOpen, he] at hC
      · cases he; exact Nat.lt_succ_self _
    · exact ⟨t, ht, Later.refl _ _⟩
  | blank => exact ⟨t, ht, Later.refl _ _⟩
  | colon => exact ⟨t, ht, Later.refl _ _⟩
  | comma => exact ⟨t, by rwa [tokens_comma], Later.refl _ _⟩

theorem Run.later {s r : List Byte} (h : Run num p s r q) {i : Nat} {t : Tok} (ht : p.tokens[i]? = some t) :
    ∃ u, q.tokens[i]? = some u ∧ Later p.pos t u := by
  induction h with
  | here => exact ⟨t, ht, Later.refl _ _⟩
  | turn hrun htakes ih =>
    obtain ⟨u, hu, hl⟩ := ih
    obtain ⟨v, hv, hl'⟩ := htakes.later hu
    exact ⟨v, hv, hl.trans hl' (by rw [hrun.pos]; omega)⟩

end Keeps

/-! ## A key and its value -/

def Between (B : List Byte) : Prop := ∀ c ∈ B, isWs c = true ∨ c = 0x3A ∨ c = 0x2C

/-- The token `i` stands before a colon with only separators behind it: `A`, the colon and `B` are read. -/
def Pending (num : Nat) (s r : List Byte) (p : Parser) (i : Nat) : Prop :=
  ∃ A B p₀, s = A ++ 0x3A :: B ∧ Run num jsmnInit A (0x3A :: (B ++ r)) p₀ ∧ Run num p₀ (0x3A :: B) r p ∧ Between B ∧
    p.tokens = p₀.tokens ∧ p.tokens.length = i + 1

/-- **How the token `i` came by its first child**: it is the last token of `A`, then come a colon, separators `B` and
the value or its opening bracket `V`, which is the token `i + 1`; `S` is what was read since. -/
structure FirstChild (num : Nat) (r : List Byte) (p : Parser) (i : Nat) (A B V S : List Byte) (p₀ p₁ p₂ : Parser) :
    Prop where
  key : Run num jsmnInit A (0x3A :: (B ++ (V ++ (S ++ r)))) p₀
  colon : Run num p₀ (0x3A :: B) (V ++ (S ++ r)) p₁
  between : Between B
  tokens : p₁.tokens = p₀.tokens
  last : p₁.tokens.length = i + 1
  superior : p₁.toksuper = some i
  value : Takes num p₁ V (S ++ r) p₂
  next : p₂.tokens.length = i + 2
  rest : Run num p₂ S r p

def Child (num : Nat) (s r : List Byte) (p : Parser) (i : Nat) : Prop :=
  ∃ A B V S p₀ p₁ p₂, s = A ++ 0x3A :: (B ++ (V ++ S)) ∧ FirstChild num r p i A B V S p₀ p₁ p₂

/-- A string with children has its first child behind its colon, and a string about to get one has its colon. -/
structure Keyed (num : Nat) (s r : List Byte) (p : Parser) : Prop where
  superior : ∀ i t, p.toksuper = some i → p.tokens[i]? = some t → t.type = .string → 0 < t.size ∨ Pending num s r p i
  child : ∀ i t, p.tokens[i]? = some t → t.type = .string → 0 < t.size → Child num s r p i

section Children

variable {num : Nat} {p q : Parser}

theorem Child.turn {s t r : List Byte} {i : Nat} (h : Child num s (t ++ r) p i) (ht : Takes num p t r q) :
    Child num (s ++ t) r q i := by
  obtain ⟨A, B, V, S, p₀, p₁, p₂, rfl, h⟩ := h
  refine ⟨A, B, V, S ++ t, p₀, p₁, p₂, by simp, ?_, ?_, h.between, h.tokens, h.last, h.superior, ?_, h.next, ?_⟩
  · simpa using h.key
  · simpa using h.colon
  · simpa using h.value
  · exact h.rest.turn ht

theorem Pending.turn {s t r : List Byte} {i : Nat} (h : Pending num s (t ++ r) p i) (ht : Takes num p t r q)
    (hb : Between t) (hq : q.tokens = p.tokens) : Pending num (s ++ t) r q i := by
  obtain ⟨A, B, p₀, rfl, hkey, hcolon, hB, htok, hlen⟩ := h
  refine ⟨A, B ++ t, p₀, by simp, by simpa using hkey, ?_, ?_, by rw [hq, htok], by rw [hq, hlen]⟩
  · exact hcolon.turn ht
  · intro c hc
    exact (List.mem_append.1 hc).elim (hB c) (hb c)

/-- A token that is pushed is the first child of the string that waits for it. -/
theorem Pending.child {s t r : List Byte} {i : Nat} (h : Pending num s (t ++ r) p i) (hi : p.toksuper = some i)
    (ht : Takes num p t r q) (hlen : q.tokens.length = p.tokens.length + 1) : Child num (s ++ t) r q i := by
  obtain ⟨A, B, p₀, rfl, hkey, hcolon, hB, htok, hl⟩ := h
  exact ⟨A, B, t, [], p₀, _, q, by simp, by simpa using hkey, by simpa using hcolon, hB, htok, hl, hi, ht, by omega, .here⟩

theorem Keyed.push {s t r : List Byte} (h : Keyed num s (t ++ r) p) (hbelow : SuperBelow p) (ht : Takes num p t r q)
    {x : Tok} {pos : Nat} (hx : x.size = 0) (hq : q.tokens = (pushed p x pos).tokens)
    (hsup : q.toksuper = p.toksuper ∨ q.toksuper = some p.tokens.length ∧ x.type.isBox = true) :
    Keyed num (s ++ t) r q where
  superior i u hi hu hstr := by
    rw [hq] at hu
    rcases hsup with hs | ⟨hs, hbox⟩
    · rw [hs] at hi
      rcases getElem?_pushed hbelow x pos i hu with ⟨v, -, rfl⟩ | ⟨rfl, -⟩
      · rw [if_pos hi]; exact Or.inl (Nat.succ_pos _)
      · exact absurd (hbelow _ hi) (Nat.lt_irrefl _)
    · rw [hs] at hi
      cases hi
      rcases getElem?_pushed hbelow x pos _ hu with ⟨v, hv, -⟩ | ⟨-, rfl⟩
      · exact absurd (List.getElem?_eq_some_iff.1 hv).1 (Nat.lt_irrefl _)
      · rw [hstr] at hbox; cases hbox
  child i u hu hstr hpos := by
    rw [hq] at hu
    rcases getElem?_pushed hbelow x pos i hu with ⟨v, hv, rfl⟩ | ⟨-, rfl⟩
    · split at hpos
      · rename_i hi
        rw [if_pos hi] at hstr
        rcases h.superior i v hi hv hstr with hv' | hpend
        · exact (h.child i v hv hstr hv').turn ht
        · exact hpend.child hi ht (by rw [hq]; simp [pushed])
      · rename_i hi
        rw [if_neg hi] at hstr
        exact (h.child i v hv hstr hpos).turn ht
    · omega

theorem keyed_init (num : Nat) (r : List Byte) : Keyed num [] r jsmnInit where
  superior i t hi := by cases hi
  child i t hi := by simp [jsmnInit] at hi

theorem getElem?_of_findLast {P : Tok → Bool} {ts : List Tok} {i : Nat} (h : findLast P ts = some i) :
    ∃ t, ts[i]? = some t ∧ P t = true := by
  obtain ⟨A, C, B, rfl, rfl, hC, -⟩ := findLast_some h
  exact ⟨C, by simp, hC⟩

/-- Behind a closing bracket the superior token is an open one, so a box and no string. -/
theorem Keyed.close {s t r : List Byte} (h : Keyed num s (t ++ r) p) (ho : Ordered num p) (ht : Takes num p t r q)
    {A B : List Tok} {C : Tok} (htok : p.tokens = A ++ C :: B) (hbox : C.type.isBox = true)
    (hq : q.tokens = A ++ C.closed p.pos :: B) (hsup : q.toksuper = findLast Tok.isOpen A) : Keyed num (s ++ t) r q where
  superior i u hi hu hstr := by
    rw [hsup] at hi
    obtain ⟨v, hv, hopen⟩ := getElem?_of_findLast hi
    rw [hq, List.getElem?_append_left (findLast_lt hi), hv] at hu
    cases hu
    have hmem : u ∈ p.tokens := by rw [htok]; exact List.mem_append_left _ (List.mem_of_getElem? hv)
    have hv := (ho.placed u hmem).2.2.1 (by simpa [Tok.isOpen] using hopen)
    rw [hstr] at hv
    cases hv
  child i u hu hstr hpos := by
    rw [hq, getElem?_middle A B C, ← htok] at hu
    split at hu
    · cases hu
      have hC : C.type = .string := hstr
      rw [hC] at hbox
      cases hbox
    · exact (h.child i u hu hstr hpos).turn ht

theorem Keyed.takes {s t r : List Byte} (h : Keyed num s (t ++ r) p) (ho : Ordered num p)
    (hrun : Run num jsmnInit s (t ++ r) p) (ht : Takes num p t r q) : Keyed num (s ++ t) r q := by
  have hsame : q.tokens = p.tokens → ∀ i t', q.tokens[i]? = some t' → t'.type = .string → 0 < t'.size →
      Child num (s ++ t) r q i := by
    intro hq i t' hi hstr hpos
    rw [hq] at hi
    exact (h.child i t' hi hstr hpos).turn ht
  cases ht with
  | prim htext hr room => exact h.push ho.below (.prim htext hr room) rfl rfl (Or.inl rfl)
  | str hb room => exact h.push ho.below (.str hb room) rfl rfl (Or.inl rfl)
  | opens k room =>
    have htok : (opened p k).tokens = (pushed p ⟨tokType k, p.pos, none, 0⟩ (p.pos + 1)).tokens := rfl
    exact h.push ho.below (.opens k room) rfl htok (Or.inr ⟨rfl, isBox_tokType k⟩)
  | closes k htok hC hk hB =>
    exact h.close ho (.closes k htok hC hk hB) htok (by rw [hk]; exact isBox_tokType k) rfl rfl
  | @blank c r hw =>
    refine ⟨fun i u hi hu hstr => ?_, hsame rfl⟩
    exact (h.superior i u hi hu hstr).imp id (·.turn (.blank hw) (by simp [Between, hw]) rfl)
  | colon =>
    refine ⟨fun i u hi hu hstr => Or.inr ?_, hsame rfl⟩
    simp only [colon] at hi
    split at hi
    · cases hi
    · rename_i hlen
      cases hi
      exact ⟨s, [], p, rfl, hrun, Takes.colon.run, by simp [Between], rfl, by show p.tokens.length = _; omega⟩
  | comma =>
    refine ⟨fun i u hi hu hstr => ?_, hsame (tokens_comma p)⟩
    rw [tokens_comma] at hu
    obtain ⟨s', hs, hsup⟩ := comma_eq p
    rw [hs] at hi
    rcases hsup with rfl | ⟨j, hj, rfl⟩
    · exact (h.superior i u hi hu hstr).imp id (·.turn .comma (by simp [Between]) (tokens_comma p))
    · cases hi
      obtain ⟨v, hv, hbox⟩ := getElem?_of_findLast hj
      rw [hu] at hv
      cases hv
      rw [hstr] at hbox
      cases hbox

theorem Run.keyed {s r : List Byte} (h : Run num jsmnInit s r p) : Keyed num s r p := by
  induction h with
  | here => exact keyed_init num _
  | turn hrun ht ih => exact ih.takes (hrun.ordered (ordered_init num)) hrun ht

end Children

/-! ## Boxes -/

section Boxes

variable {num : Nat} {p q : Parser}

/-- A turn that closes a token is a bracket, and every later token is closed by then. -/
theorem Takes.closing {s r : List Byte} (h : Takes num p s r q) {j : Nat} {t u : Tok} {e : Nat}
    (ht : p.tokens[j]? = some t) (hopen : t.stop = none) (hu : q.tokens[j]? = some u) (he : u.stop = some e) :
    ∃ k : Kind, s = [k.closing] ∧ (∀ r', Takes num p [k.closing] r' q) ∧ q.pos = e ∧
      ∀ a w, j < a → q.tokens[a]? = some w → w.isOpen = false := by
  have hsame : q.tokens = p.tokens → False := by
    intro hq
    rw [hq, ht] at hu
    cases hu
    rw [hopen] at he
    cases he
  have hpush : ∀ (x : Tok) (pos : Nat), q.tokens = (pushed p x pos).tokens → False := by
    intro x pos hq
    rw [hq, pushed_getElem? x pos ht] at hu
    cases hu
    split at he <;> rw [hopen] at he <;> cases he
  cases h with
  | prim => exact (hpush _ _ rfl).elim
  | str => exact (hpush _ _ rfl).elim
  | opens k => exact (hpush ⟨tokType k, p.pos, none, 0⟩ (p.pos + 1) rfl).elim
  | @closes k A B C _ htok hC hk hB =>
    dsimp only at hu ⊢
    rw [getElem?_middle A B C, ← htok, ht] at hu
    split at hu
    · rename_i hj
      cases hu
      cases he
      refine ⟨k, rfl, fun r' => .closes k htok hC hk hB, rfl, fun a w ha hw => ?_⟩
      rw [List.getElem?_append_right (by omega)] at hw
      obtain ⟨d, hd⟩ : ∃ d, a - A.length = d + 1 := ⟨a - A.length - 1, by omega⟩
      rw [hd, List.getElem?_cons_succ] at hw
      exact hB w (List.mem_of_getElem? hw)
    · cases hu
      rw [hopen] at he
      cases he
  | blank => exact (hsame rfl).elim
  | colon => exact (hsame rfl).elim
  | comma => exact (hsame (tokens_comma p)).elim

/-- **A token that closes in a run closes at a bracket**, every later token closed by then. -/
theorem Run.closing {s r : List Byte} (h : Run num p s r q) {j : Nat} {t u : Tok} {e : Nat}
    (ht : p.tokens[j]? = some t) (hopen : t.stop = none) (hu : q.tokens[j]? = some u) (he : u.stop = some e) :
    ∃ (s₁ : List Byte) (k : Kind) (s₂ : List Byte) (q₀ q₁ : Parser) (u₁ : Tok), s = s₁ ++ k.closing :: s₂ ∧
      Run num p s₁ (k.closing :: (s₂ ++ r)) q₀ ∧ (∀ r', Takes num q₀ [k.closing] r' q₁) ∧ Run num q₁ s₂ r q ∧
      q₁.pos = e ∧ q₁.tokens[j]? = some u₁ ∧ u₁.stop = some e ∧
      ∀ a w, j < a → q₁.tokens[a]? = some w → w.isOpen = false := by
  induction h generalizing u with
  | here =>
    rw [ht] at hu
    cases hu
    rw [hopen] at he
    cases he
  | @turn s c r q q' hrun htakes ih =>
    obtain ⟨v, hv, -⟩ := hrun.later ht
    obtain ⟨u', hu', hl⟩ := htakes.later hv
    rw [hu] at hu'
    cases hu'
    cases hs : v.stop with
    | some f =>
      have hf := hl.stop f hs
      rw [he] at hf
      cases hf
      obtain ⟨s₁, k, s₂, q₀, q₁, u₁, rfl, h1, h2, h3, h4⟩ := ih hv hs
      exact ⟨s₁, k, s₂ ++ c, q₀, q₁, u₁, by simp, by simpa using h1, h2, h3.turn htakes, h4⟩
    | none =>
      obtain ⟨k, rfl, hturn, hpos, hlater⟩ := htakes.closing hv hs hu he
      exact ⟨s, k, [], q, q', u, rfl, hrun, hturn, .here, hpos, hu, he, hlater⟩

/-- Separators behind a colon change nothing while no box is open: the key before the colon stays superior. -/
theorem run_between {T : List Tok} {K : Tok} (hstr : K.type = .string) :
    ∀ {B : List Byte} {p : Parser}, Between B → p.tokens = T ++ [K] → p.toksuper = some T.length →
      (∀ t ∈ p.tokens, t.isOpen = false) → ∀ r, Run num p B r { p with pos := p.pos + B.length }
  | [], p, _, _, _, _, r => .here
  | c :: B, p, hB, htok, hsup, hclosed, r => by
    have hstep : Takes num p [c] (B ++ r) { p with pos := p.pos + 1 } := by
      rcases hB c List.mem_cons_self with hw | rfl | rfl
      · exact .blank hw
      · have hcolon : colon p = { p with pos := p.pos + 1 } := by
          simp [colon, htok, hsup]
        rw [← hcolon]
        exact .colon
      · have hcomma : comma p = { p with pos := p.pos + 1 } := by
          obtain ⟨s, hs, hsup⟩ := comma_eq p
          rcases hsup with rfl | ⟨i, hi, rfl⟩
          · exact hs
          · -- no box is open
            obtain ⟨v, hv, hbox⟩ := getElem?_of_findLast hi
            rw [hclosed v (List.mem_of_getElem? hv), Bool.and_false] at hbox
            cases hbox
        rw [← hcomma]
        exact .comma
    have hrest := run_between hstr (B := B) (p := { p with pos := p.pos + 1 })
      (fun d hd => hB d (List.mem_cons_of_mem _ hd)) htok hsup hclosed r
    have hpos : p.pos + 1 + B.length = p.pos + (c :: B).length := by rw [List.length_cons]; omega
    rw [show p.pos + (c :: B).length = p.pos + 1 + B.length from hpos.symm]
    exact hstep.run.trans hrest

end Boxes

/-! ## Accepted texts -/

section Accepted

variable {num : Nat} {payload : List Byte} {p q : Parser}

theorem jsmnParse_eq_ok_iff : jsmnParse payload num = .ok p ↔
    parseAll num jsmnInit payload = .ok p ∧ ∀ t ∈ p.tokens, t.isOpen = false := by
  unfold jsmnParse
  cases hp : parseAll num jsmnInit payload with
  | error e => simp
  | ok q =>
    dsimp only
    split
    · rename_i hopen
      obtain ⟨i, hi⟩ := Option.isSome_iff_exists.1 hopen
      obtain ⟨v, hv, hbox⟩ := getElem?_of_findLast hi
      refine iff_of_false (by simp) ?_
      rintro ⟨⟨⟩, hclosed⟩
      rw [hclosed v (List.mem_of_getElem? hv)] at hbox
      cases hbox
    · rename_i hopen
      have hnone : findLast Tok.isOpen q.tokens = none := by simpa using hopen
      have hclosed := findLast_none hnone
      exact ⟨fun h => by cases h; exact ⟨rfl, hclosed⟩, fun h => by rw [h.1]⟩

theorem parseAll_of_jsmnParse (h : jsmnParse payload num = .ok p) : parseAll num jsmnInit payload = .ok p :=
  (jsmnParse_eq_ok_iff.1 h).1

theorem closed_of_jsmnParse (h : jsmnParse payload num = .ok p) : ∀ t ∈ p.tokens, t.isOpen = false :=
  (jsmnParse_eq_ok_iff.1 h).2

/-- **An accepted text** is read by a run up to its end or a zero. -/
theorem run_of_jsmnParse (h : jsmnParse payload num = .ok p) : ∃ s r, payload = s ++ r ∧ Run num jsmnInit s r p ∧
    ∀ c t, r = c :: t → c = 0 :=
  exists_run (Nat.le_refl _) (parseAll_of_jsmnParse h)

theorem ordered_of_jsmnParse (h : jsmnParse payload num = .ok p) : Ordered num p := by
  obtain ⟨s, r, -, hrun, -⟩ := run_of_jsmnParse h
  exact hrun.ordered (ordered_init num)

theorem count_of_jsmnParse (h : jsmnParse payload num = .ok p) : p.count = p.tokens.length :=
  (ordered_of_jsmnParse h).count

theorem stop_of_jsmnParse (h : jsmnParse payload num = .ok p) {t : Tok} (ht : t ∈ p.tokens) :
    ∃ e, t.stop = some e ∧ t.start ≤ e ∧ e ≤ payload.length := by
  obtain ⟨s, r, rfl, hrun, -⟩ := run_of_jsmnParse h
  obtain ⟨e, he⟩ := stop_of_isOpen (closed_of_jsmnParse h t ht)
  obtain ⟨h1, h2, -⟩ := ((ordered_of_jsmnParse h).placed t ht).2.2.2 e he
  have hpos := hrun.pos_of_init
  exact ⟨e, he, h1, by rw [List.length_append]; omega⟩

theorem child_of_jsmnParse (h : jsmnParse payload num = .ok p) {i : Nat} {t : Tok} (ht : p.tokens[i]? = some t)
    (hstr : t.type = .string) (hsize : 0 < t.size) : ∃ s r, payload = s ++ r ∧ Child num s r p i := by
  obtain ⟨s, r, rfl, hrun, -⟩ := run_of_jsmnParse h
  exact ⟨s, r, rfl, hrun.keyed.child i t ht hstr hsize⟩

theorem jsmnParse_of_run {s r : List Byte} (h : Run num jsmnInit s r p) (hclosed : ∀ t ∈ p.tokens, t.isOpen = false) :
    jsmnParse s num = .ok p := by
  have hcut : Run num jsmnInit s [] p := h.cut (Or.inr (by simp [Stops]))
  have hrun := hcut.parseAll
  rw [List.append_nil] at hrun
  exact jsmnParse_eq_ok_iff.2 ⟨hrun, hclosed⟩

/-- What is read without a zero is read to its end. -/
theorem run_to_end {js : List Byte} (h0 : 0 ∉ js) (h : parseAll num p js = .ok q) : Run num p js [] q := by
  obtain ⟨s, r, rfl, hrun, hend⟩ := exists_run (Nat.le_refl _) h
  cases r with
  | nil => simpa using hrun
  | cons c t =>
    have hc := hend c t rfl
    subst hc
    exact absurd (by simp) h0

end Accepted

section Values

variable {num i : Nat} {r A B V S : List Byte} {p p₀ p₁ p₂ : Parser}

theorem FirstChild.before (h : FirstChild num r p i A B V S p₀ p₁ p₂) :
    Run num jsmnInit (A ++ 0x3A :: B) (V ++ (S ++ r)) p₁ := h.key.trans h.colon

theorem FirstChild.whole (h : FirstChild num r p i A B V S p₀ p₁ p₂) :
    Run num jsmnInit ((A ++ 0x3A :: B) ++ (V ++ S)) r p :=
  Run.trans (by simpa using h.before) (h.value.run.trans h.rest)

/-- A turn that adds a token adds it where it stands. -/
theorem Takes.pushes {q : Parser} (h : Takes num p V r q) (hlen : q.tokens.length = p.tokens.length + 1) :
    ∃ x pos, q.tokens = (pushed p x pos).tokens ∧ x.origin = p.pos ∧ x.size = 0 := by
  cases h with
  | prim => exact ⟨_, _, rfl, rfl, rfl⟩
  | str => exact ⟨_, _, rfl, rfl, rfl⟩
  | opens k => exact ⟨⟨tokType k, p.pos, none, 0⟩, p.pos + 1, rfl, by cases k <;> simp [Tok.origin, tokType], rfl⟩
  | closes k ht => rw [ht] at hlen; simp at hlen
  | blank => exact absurd hlen (Nat.ne_of_lt (Nat.lt_succ_self _))
  | colon => exact absurd hlen (Nat.ne_of_lt (Nat.lt_succ_self _))
  | comma => simp at hlen

/-- The key is the last token before the colon. -/
theorem FirstChild.key_last (h : FirstChild num r p i A B V S p₀ p₁ p₂) :
    ∃ T K, p₀.tokens = T ++ [K] ∧ p₁.tokens = T ++ [K] ∧ T.length = i := by
  have hlen := h.last
  rw [h.tokens] at hlen
  obtain ⟨T, K, hT⟩ := (List.eq_nil_or_concat p₀.tokens).resolve_left (fun h0 => by rw [h0] at hlen; cases hlen)
  rw [List.concat_eq_append] at hT
  rw [hT, List.length_append, List.length_singleton] at hlen
  exact ⟨T, K, hT, h.tokens.trans hT, by omega⟩

/-- The value is the first to count in its key. -/
theorem FirstChild.sizes (h : FirstChild num r p i A B V S p₀ p₁ p₂) :
    ((p₁.tokens[i]?).map Tok.size = some 0) ∧ (p₂.tokens[i]?).map Tok.size = some 1 := by
  obtain ⟨T, K, -, hT, hi⟩ := h.key_last
  have hsize := (h.before.ordered (ordered_init num)).last T K hT
  have hget : p₁.tokens[i]? = some K := by rw [hT, ← hi]; simp
  obtain ⟨x, pos, hq, -⟩ := h.value.pushes (by rw [h.next, h.last])
  rw [hq, pushed_getElem? x pos hget, if_pos h.superior, hget]
  simp [hsize]

/-- The token a turn pushes for the value. -/
theorem FirstChild.pushed_value (h : FirstChild num r p i A B V S p₀ p₁ p₂) {x : Tok} {pos : Nat}
    (hq : p₂.tokens = (pushed p₁ x pos).tokens) : p₂.tokens[i + 1]? = some x := by
  rw [hq, ← h.last, getElem?_pushed_length (h.before.ordered (ordered_init num)).below]

theorem FirstChild.exists_value (h : FirstChild num r p i A B V S p₀ p₁ p₂) : ∃ v, p.tokens[i + 1]? = some v := by
  obtain ⟨x, pos, hq, -⟩ := h.value.pushes (by rw [h.next, h.last])
  obtain ⟨v, hv, -⟩ := h.rest.later (h.pushed_value hq)
  exact ⟨v, hv⟩

theorem FirstChild.later_value (h : FirstChild num r p i A B V S p₀ p₁ p₂) {x v : Tok} {pos : Nat}
    (hq : p₂.tokens = (pushed p₁ x pos).tokens) (hv : p.tokens[i + 1]? = some v) : Later p₂.pos x v := by
  obtain ⟨v', hv', hl⟩ := h.rest.later (h.pushed_value hq)
  rw [hv] at hv'
  cases hv'
  exact hl

theorem FirstChild.pos (h : FirstChild num r p i A B V S p₀ p₁ p₂) : p₁.pos = A.length + 1 + B.length := by
  rw [h.before.pos_of_init, List.length_append, List.length_cons]
  omega

/-- The value's token stands right behind the separators. -/
theorem FirstChild.origin (h : FirstChild num r p i A B V S p₀ p₁ p₂) {v : Tok} (hv : p.tokens[i + 1]? = some v) :
    v.origin = A.length + 1 + B.length := by
  obtain ⟨x, pos, hq, hx, -⟩ := h.value.pushes (by rw [h.next, h.last])
  have hl := h.later_value hq hv
  rw [Tok.origin, hl.type, hl.start, ← Tok.origin, hx, h.pos]

theorem apart_of_lt {ts : List Tok} (h : ts.Pairwise Apart) {a b : Nat} (hab : a < b) {t u : Tok}
    (ht : ts[a]? = some t) (hu : ts[b]? = some u) : Apart t u := by
  obtain ⟨ha, rfl⟩ := List.getElem?_eq_some_iff.1 ht
  obtain ⟨hb, rfl⟩ := List.getElem?_eq_some_iff.1 hu
  exact List.pairwise_iff_getElem.1 h a b ha hb hab

/-- A token up to the key, and what it was before the colon. -/
theorem FirstChild.earlier (h : FirstChild num r p i A B V S p₀ p₁ p₂) {a : Nat} {u : Tok} (ha : a ≤ i)
    (hu : p.tokens[a]? = some u) : ∃ t, t.Placed A.length ∧ Later p₁.pos t u := by
  obtain ⟨t, ht⟩ : ∃ t, p₀.tokens[a]? = some t :=
    ⟨_, List.getElem?_eq_getElem (by rw [← h.tokens, h.last]; omega)⟩
  have hplaced := (h.key.ordered (ordered_init num)).placed t (List.mem_of_getElem? ht)
  rw [h.key.pos_of_init] at hplaced
  obtain ⟨u', hu', hl⟩ := (h.value.run.trans h.rest).later (by rw [h.tokens]; exact ht)
  rw [hu] at hu'
  cases hu'
  exact ⟨t, hplaced, hl⟩

/-- A token up to the key ends before the colon, or behind the end of the value. -/
theorem FirstChild.clear (h : FirstChild num r p i A B V S p₀ p₁ p₂) {a e : Nat} {u v : Tok} (ha : a ≤ i)
    (hu : p.tokens[a]? = some u) (he : u.stop = some e) (hv : p.tokens[i + 1]? = some v) :
    e ≤ A.length ∨ ∃ f, v.stop = some f ∧ f < e := by
  obtain ⟨t, ht, hl⟩ := h.earlier ha hu
  cases hs : t.stop with
  | some f =>
    have hf := hl.stop f hs
    rw [he] at hf
    cases hf
    exact Or.inl (ht.2.2.2 e hs).2.1
  | none =>
    -- a box still open when the value came: it closes over the value
    have hlate := hl.opened hs e he
    have horigin := h.origin hv
    have hpos := h.pos
    have hapart := (h.whole.ordered (ordered_init num)).apart
    refine Or.inr ((apart_of_lt hapart (Nat.lt_succ_of_le ha) hu hv e he).resolve_left ?_)
    omega

/-- A key ends before its colon. -/
theorem FirstChild.key_stop (h : FirstChild num r p i A B V S p₀ p₁ p₂) {t : Tok} {e : Nat}
    (ht : p.tokens[i]? = some t) (hstr : t.type = .string) (he : t.stop = some e) : e ≤ A.length := by
  obtain ⟨k, ⟨-, -, hopen, hclosed⟩, hl⟩ := h.earlier (Nat.le_refl i) ht
  cases hs : k.stop with
  | none =>
    have hbox := hopen hs
    rw [← hl.type, hstr] at hbox
    cases hbox
  | some f =>
    have hf := hl.stop f hs
    rw [he] at hf
    cases hf
    exact (hclosed e hs).2.1

end Values

/-! ## Keys and their values -/

def Tok.Within (n : Nat) (t : Tok) : Prop := ∃ e, t.stop = some e ∧ t.start ≤ e ∧ e ≤ n

/-- **Every key has its value**: the loop ends on every text, and in what it accepts a string with children is followed
by a token, its first child; both lie inside the text. -/
theorem keys_have_values (num : Nat) (payload : List Byte) : (∃! r, Ends num jsmnInit payload r) ∧
    ∀ p, jsmnParse payload num = .ok p → p.count = p.tokens.length ∧ p.count ≤ num ∧
      ∀ i t, i < p.count → p.tokens[i]? = some t → t.type = .string → 0 < t.size →
        i + 1 < p.count ∧ ∃ v A B V S r p₀ p₁ p₂, p.tokens[i + 1]? = some v ∧
          t.Within payload.length ∧ v.Within payload.length ∧
          payload = A ++ 0x3A :: (B ++ (V ++ (S ++ r))) ∧ FirstChild num r p i A B V S p₀ p₁ p₂ ∧
          (p₁.tokens[i]?).map Tok.size = some 0 ∧ (p₂.tokens[i]?).map Tok.size = some 1 := by
  refine ⟨⟨_, ends_parseAll num (Nat.le_refl _), fun r hr => (ends_iff.1 hr).symm⟩, fun p hp => ?_⟩
  have ho := ordered_of_jsmnParse hp
  refine ⟨ho.count, by rw [ho.count]; exact ho.room, fun i t hi ht hstr hsize => ?_⟩
  obtain ⟨s, r, rfl, A, B, V, S, p₀, p₁, p₂, rfl, h⟩ := child_of_jsmnParse hp ht hstr hsize
  obtain ⟨v, hv⟩ := h.exists_value
  refine ⟨by rw [ho.count]; exact (List.getElem?_eq_some_iff.1 hv).1, v, A, B, V, S, r, p₀, p₁, p₂, hv,
    stop_of_jsmnParse hp (List.mem_of_getElem? ht), stop_of_jsmnParse hp (List.mem_of_getElem? hv), ?_, h, h.sizes⟩
  simp

def parsedCount : Parser :=
  ⟨11, none, [⟨.object, 0, some 11, 1⟩, ⟨.string, 2, some 7, 1⟩, ⟨.primitive, 9, some 10, 0⟩], 3⟩

theorem keys_have_values_count : (∃ v, parsedCount.tokens[2]? = some v ∧ v.Within 11) ∧
    jsmnParse (text "\x7b\"count\":5\x7d") 16 = .ok parsedCount := by
  have hp : jsmnParse (text "\x7b\"count\":5\x7d") 16 = .ok parsedCount := by decide
  obtain ⟨-, v, A, B, V, S, r, p₀, p₁, p₂, hv, -, hin, -⟩ :=
    ((keys_have_values 16 (text "\x7b\"count\":5\x7d")).2 parsedCount hp).2.2 1 ⟨.string, 2, some 7, 1⟩ (by decide) rfl rfl
      (by decide)
  exact ⟨⟨v, hv, hin⟩, hp⟩

end Jsmn
end RtPay
