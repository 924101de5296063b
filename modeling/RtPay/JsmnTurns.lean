import RtPay.JsmnRuns
/-!
# JsmnTurns — the loop of jsmn_parse as runs of turns

Every turn of the loop takes a piece off the text (`Takes`), and what the parser did on a text is a run of turns
(`Run`), which may be cut short and put together.  Whatever bytes come in, the loop ends (`ends_iff`).
-/
namespace RtPay
namespace Jsmn

open Bytes JsonText

/-! ## The scans, read backwards -/

/-- A scan that came to an end took bytes of a primitive and stands at the end, a zero or a delimiter. -/
theorem scanPrim_ok : ∀ {js : List Byte} {pos : Nat} {r : Nat × List Byte}, scanPrim js pos = .ok r →
    ∃ t, js = t ++ r.2 ∧ r.1 = pos + t.length ∧ (∀ c ∈ t, isDelim c = false ∧ 32 ≤ c.toNat ∧ c.toNat < 127) ∧
      Stops (fun c => c ≠ 0 ∧ isDelim c = false) r.2
  | [], pos, r, h => by
    cases h
    exact ⟨[], rfl, rfl, by simp, by rintro c s ⟨⟩⟩
  | c :: js, pos, r, h => by
    rw [scanPrim] at h
    split at h
    · rename_i h0
      cases h
      refine ⟨[], rfl, rfl, by simp, ?_⟩
      rintro d s ⟨⟩
      simp [h0]
    · split at h
      · rename_i hd
        cases h
        refine ⟨[], rfl, rfl, by simp, ?_⟩
        rintro d s ⟨⟩
        simp [hd]
      · rename_i hd
        split at h
        · cases h
        · rename_i hr
          obtain ⟨t, rfl, hstop, hall, hcut⟩ := scanPrim_ok h
          refine ⟨c :: t, rfl, by rw [hstop, List.length_cons]; omega, ?_, hcut⟩
          intro d hmem
          rcases List.mem_cons.1 hmem with rfl | hmem
          · simp only [Bool.or_eq_true, decide_eq_true_eq, not_or, Nat.not_lt, Nat.not_le] at hr
            exact ⟨by simpa using hd, hr.1, hr.2⟩
          · exact hall d hmem

/-- A scan that came to an end took the hex digits still to come, the body of a string and its quote. -/
theorem scanString_ok (hex : Nat) (js : List Byte) (pos : Nat) : ∀ {r : Nat × List Byte},
    scanString hex js pos = .ok r → ∃ ds b, ds.length = hex ∧ (∀ c ∈ ds, isHex c = true) ∧ StrBody raw.char b ∧
      js = ds ++ (b ++ 0x22 :: r.2) ∧ r.1 = pos + hex + b.length := by
  induction hex, js, pos using scanString.induct with
  | case1 hex pos => intro r h; rw [scanString] at h; cases h
  | case2 hex s pos => intro r h; rw [scanString, if_pos rfl] at h; cases h
  | case3 hex c s pos h0 hc ih =>
    intro r h
    rw [scanString, if_neg h0, if_pos hc] at h
    obtain ⟨ds, b, hlen, hds, hb, rfl, hstop⟩ := ih h
    refine ⟨c :: ds, b, by rw [List.length_cons, hlen], ?_, hb, rfl, by omega⟩
    intro d hd
    rcases List.mem_cons.1 hd with rfl | hd
    · exact hc
    · exact hds d hd
  | case4 hex c s pos h0 hc => intro r h; rw [scanString, if_neg h0, if_neg hc] at h; cases h
  | case5 pos => intro r h; cases h; exact ⟨[], [], rfl, by simp, .nil, rfl, rfl⟩
  | case6 pos c hc => intro r h; rw [scanString, if_neg hc] at h; cases h
  | case7 e s pos => intro r h; rw [scanString, if_pos rfl] at h; cases h
  | case8 e s pos => intro r h; cases h; exact ⟨[], [], rfl, by simp, .nil, rfl, rfl⟩
  | case9 e s pos he h0 hq ih =>
    intro r h
    rw [scanString, if_neg h0, if_neg hq, if_pos rfl, if_pos he] at h
    obtain ⟨ds, b, hlen, -, hb, rfl, hstop⟩ := ih h
    rw [List.length_eq_zero_iff.1 hlen]
    exact ⟨[], 0x5C :: e :: b, rfl, by simp, .escape he hb, rfl, by simp only [List.length_cons]; omega⟩
  | case10 s pos h0 hq he ih =>
    intro r h
    rw [scanString, if_neg h0, if_neg hq, if_pos rfl, if_neg he, if_pos rfl] at h
    obtain ⟨ds, b, hlen, hds, hb, rfl, hstop⟩ := ih h
    obtain ⟨h₁, h₂, h₃, h₄, rfl⟩ := List.length_eq_four.1 hlen
    simp only [List.mem_cons, List.not_mem_nil, or_false, forall_eq_or_imp, forall_eq] at hds
    obtain ⟨e₁, e₂, e₃, e₄⟩ := hds
    exact ⟨[], 0x5C :: 0x75 :: h₁ :: h₂ :: h₃ :: h₄ :: b, rfl, by simp, .unicode e₁ e₂ e₃ e₄ hb, rfl,
      by simp only [List.length_cons]; omega⟩
  | case11 e s pos he hu h0 hq =>
    intro r h
    rw [scanString, if_neg h0, if_neg hq, if_pos rfl, if_neg he, if_neg hu] at h
    cases h
  | case12 c e s pos h0 hq hb ih =>
    intro r h
    rw [scanString, if_neg h0, if_neg hq, if_neg hb] at h
    obtain ⟨ds, b, hlen, -, hbody, heq, hstop⟩ := ih h
    rw [List.length_eq_zero_iff.1 hlen, List.nil_append] at heq
    exact ⟨[], c :: b, rfl, by simp, .char h0 hq hb hbody, by rw [heq]; rfl, by simp only [List.length_cons]; omega⟩

/-! ## Turns -/

/-- The parser behind a token of its own, its end at `pos`. -/
def pushed (p : Parser) (t : Tok) (pos : Nat) : Parser where
  pos := pos
  toksuper := p.toksuper
  tokens := bump p.toksuper (p.tokens ++ [t])
  count := p.count + 1

/-- **One turn of the loop**: the bytes it takes, those behind, and the parser it leaves. -/
inductive Takes (num : Nat) (p : Parser) : List Byte → List Byte → Parser → Prop
  | prim {t r : List Byte} : raw.prim t → Stops (fun c => c ≠ 0 ∧ isDelim c = false) r → p.tokens.length < num →
      Takes num p t r (pushed p ⟨.primitive, p.pos, some (p.pos + t.length), 0⟩ (p.pos + t.length))
  | str {b r : List Byte} : StrBody raw.char b → p.tokens.length < num →
      Takes num p (0x22 :: (b ++ [0x22])) r
        (pushed p ⟨.string, p.pos + 1, some (p.pos + 1 + b.length), 0⟩ (p.pos + b.length + 2))
  | opens (k : Kind) {r : List Byte} : p.tokens.length < num → Takes num p [k.opening] r (opened p k)
  | closes (k : Kind) {A B : List Tok} {C : Tok} {r : List Byte} : p.tokens = A ++ C :: B → C.isOpen = true →
      C.type = tokType k → (∀ t ∈ B, t.isOpen = false) → Takes num p [k.closing] r
        { pos := p.pos + 1, toksuper := findLast Tok.isOpen A, count := p.count,
          tokens := A ++ { C with stop := some (p.pos + 1) } :: B }
  | blank {c : Byte} {r : List Byte} : isWs c = true → Takes num p [c] r { p with pos := p.pos + 1 }
  | colon {r : List Byte} : Takes num p [0x3A] r (colon p)
  | comma {r : List Byte} : Takes num p [0x2C] r (comma p)

section Turns

variable {num : Nat} {p q : Parser}

theorem push_ok {t : Tok} {pos : Nat} (h : push num p t pos = .ok q) : p.tokens.length < num ∧ q = pushed p t pos := by
  rw [push] at h
  split at h
  · cases h
  · cases h
    exact ⟨by omega, rfl⟩

theorem openBox_ok {k : Kind} (h : openBox num p (tokType k) = .ok q) : p.tokens.length < num ∧ q = opened p k := by
  unfold openBox at h
  cases hp : push num p ⟨tokType k, p.pos, none, 0⟩ (p.pos + 1) with
  | error e => rw [hp] at h; cases h
  | ok p' =>
    obtain ⟨hroom, rfl⟩ := push_ok hp
    rw [hp] at h
    cases h
    refine ⟨hroom, ?_⟩
    simp [opened, pushed]

theorem findLast_none {P : Tok → Bool} : ∀ {ts : List Tok}, findLast P ts = none → ∀ t ∈ ts, P t = false
  | [], _ => by simp
  | t :: ts, h => by
    rw [findLast] at h
    cases hf : findLast P ts with
    | some j => rw [hf] at h; cases h
    | none =>
      rw [hf] at h
      dsimp only at h
      split at h
      · cases h
      · rename_i ht
        intro u hu
        rcases List.mem_cons.1 hu with rfl | hu
        · simpa using ht
        · exact findLast_none hf u hu

theorem findLast_some {P : Tok → Bool} : ∀ {ts : List Tok} {i : Nat}, findLast P ts = some i →
    ∃ A C B, ts = A ++ C :: B ∧ A.length = i ∧ P C = true ∧ ∀ t ∈ B, P t = false
  | [], _, h => by cases h
  | t :: ts, i, h => by
    rw [findLast] at h
    cases hf : findLast P ts with
    | some j =>
      rw [hf] at h
      cases h
      obtain ⟨A, C, B, rfl, rfl, hC, hB⟩ := findLast_some hf
      exact ⟨t :: A, C, B, rfl, rfl, hC, hB⟩
    | none =>
      rw [hf] at h
      dsimp only at h
      split at h
      · rename_i ht
        cases h
        exact ⟨[], t, ts, rfl, rfl, ht, findLast_none hf⟩
      · cases h

theorem closeBox_ok {k : Kind} (h : closeBox p (tokType k) = .ok q) : ∃ A C B, p.tokens = A ++ C :: B ∧
    C.isOpen = true ∧ C.type = tokType k ∧ (∀ t ∈ B, t.isOpen = false) ∧
    q = { pos := p.pos + 1, toksuper := findLast Tok.isOpen A, count := p.count,
          tokens := A ++ { C with stop := some (p.pos + 1) } :: B } := by
  unfold closeBox at h
  cases hf : findLast Tok.isOpen p.tokens with
  | none => rw [hf] at h; cases h
  | some i =>
    obtain ⟨A, C, B, ht, rfl, hC, hB⟩ := findLast_some hf
    rw [hf, ht] at h
    simp only [List.getElem?_append_right (Nat.le_refl _), Nat.sub_self, List.getElem?_cons_zero, Option.map_some,
      Option.some.injEq, modify_at, List.take_left'] at h
    split at h
    · rename_i hk
      cases h
      exact ⟨A, C, B, ht, hC, hk, hB, rfl⟩
    · cases h

theorem map_ok {x : Except Err Parser} {js js' : List Byte} (h : x.map (·, js) = .ok (q, js')) : x = .ok q ∧ js' = js := by
  cases x with
  | error e => cases h
  | ok p => cases h; exact ⟨rfl, rfl⟩

theorem jsmnParseString_takes {js js' : List Byte} (h : jsmnParseString num p js = .ok (q, js')) :
    ∃ s, 0x22 :: js = s ++ js' ∧ Takes num p s js' q := by
  unfold jsmnParseString at h
  cases hs : scanString 0 js (p.pos + 1) with
  | error e => rw [hs] at h; cases h
  | ok r =>
    obtain ⟨ds, b, hlen, -, hb, rfl, hstop⟩ := scanString_ok 0 js _ hs
    rw [List.length_eq_zero_iff.1 hlen] at *
    rw [hs] at h
    cases hp : push num p ⟨.string, p.pos + 1, some r.1, 0⟩ (r.1 + 1) with
    | error e => simp only [bind, Except.bind, hp] at h; cases h
    | ok p' =>
      simp only [bind, Except.bind, hp, pure, Except.pure, Except.ok.injEq, Prod.mk.injEq] at h
      obtain ⟨rfl, rfl⟩ := h
      obtain ⟨hroom, rfl⟩ := push_ok hp
      refine ⟨0x22 :: (b ++ [0x22]), by simp, ?_⟩
      have hpos : r.1 + 1 = p.pos + b.length + 2 := by omega
      rw [hpos, show r.1 = p.pos + 1 + b.length by omega]
      exact .str hb hroom

theorem jsmnParsePrimitive_takes {c : Byte} {js js' : List Byte} (hc : c ≠ 0) (hd : isDelim c = false)
    (hlead : c ≠ 0x22 ∧ c ≠ 0x7B ∧ c ≠ 0x5B) (h : jsmnParsePrimitive num p (c :: js) = .ok (q, js')) :
    ∃ s, c :: js = s ++ js' ∧ Takes num p s js' q := by
  unfold jsmnParsePrimitive at h
  cases hs : scanPrim (c :: js) p.pos with
  | error e => rw [hs] at h; cases h
  | ok r =>
    obtain ⟨t, heq, hstop, hall, hcut⟩ := scanPrim_ok hs
    rw [hs] at h
    cases hp : push num p ⟨.primitive, p.pos, some r.1, 0⟩ r.1 with
    | error e => simp only [bind, Except.bind, hp] at h; cases h
    | ok p' =>
      simp only [bind, Except.bind, hp, pure, Except.pure, Except.ok.injEq, Prod.mk.injEq] at h
      obtain ⟨rfl, rfl⟩ := h
      obtain ⟨hroom, rfl⟩ := push_ok hp
      refine ⟨t, heq, ?_⟩
      rw [hstop]
      refine .prim ⟨?_, hall⟩ hcut hroom
      cases t with
      | nil => exact absurd ⟨hc, hd⟩ (hcut c js heq.symm)
      | cons d t =>
        cases heq
        exact ⟨c, t, rfl, hlead⟩

/-- **The turns of the `switch`.** -/
theorem jsmnStep_takes {c : Byte} {js js' : List Byte} (hc : c ≠ 0) (h : jsmnStep num p c js = .ok (q, js')) :
    ∃ s, c :: js = s ++ js' ∧ Takes num p s js' q := by
  have hopen : ∀ k : Kind, (openBox num p (tokType k)).map (·, js) = .ok (q, js') →
      ∃ s, k.opening :: js = s ++ js' ∧ Takes num p s js' q := by
    intro k hk
    obtain ⟨hok, rfl⟩ := map_ok hk
    obtain ⟨hroom, rfl⟩ := openBox_ok hok
    exact ⟨[k.opening], rfl, .opens k hroom⟩
  have hclose : ∀ k : Kind, (closeBox p (tokType k)).map (·, js) = .ok (q, js') →
      ∃ s, k.closing :: js = s ++ js' ∧ Takes num p s js' q := by
    intro k hk
    obtain ⟨hok, rfl⟩ := map_ok hk
    obtain ⟨A, C, B, ht, hC, htype, hB, rfl⟩ := closeBox_ok hok
    exact ⟨[k.closing], rfl, .closes k ht hC htype hB⟩
  unfold jsmnStep at h
  split at h
  · rename_i he; subst he; exact hopen .object h
  · split at h
    · rename_i he; subst he; exact hopen .array h
    · split at h
      · rename_i he; subst he; exact hclose .object h
      · split at h
        · rename_i he; subst he; exact hclose .array h
        · split at h
          · rename_i he; subst he; exact jsmnParseString_takes h
          · split at h
            · rename_i hw; cases h; exact ⟨[c], rfl, .blank hw⟩
            · split at h
              · rename_i he; subst he; cases h; exact ⟨[0x3A], rfl, .colon⟩
              · split at h
                · rename_i he; subst he; cases h; exact ⟨[0x2C], rfl, .comma⟩
                · refine jsmnParsePrimitive_takes hc ?_ ?_ h <;> simp_all [isDelim]

theorem Takes.parseAll {s r : List Byte} (h : Takes num p s r q) : parseAll num p (s ++ r) = parseAll num q r := by
  cases h with
  | prim ht hr room => exact parseAll_prim ht room hr
  | str hb room =>
    rw [List.cons_append, List.append_assoc, List.singleton_append, parseAll_string hb room]
    rfl
  | opens k room => exact parseAll_open k room r
  | closes k ht hC hk hB => exact parseAll_close k ht hC hk hB r
  | blank hw => exact parseAll_blank (w := [_]) (by simpa [Blank] using hw) r
  | colon => exact parseAll_cons (by decide) rfl
  | comma => exact parseAll_cons (by decide) rfl

/-- A comma moves the superior token to the innermost open box, or leaves it. -/
theorem comma_eq (p : Parser) : ∃ s, comma p = { p with pos := p.pos + 1, toksuper := s } ∧
    (s = p.toksuper ∨ ∃ i, findLast (fun t => t.type.isBox && t.isOpen) p.tokens = some i ∧ s = some i) := by
  unfold comma
  split
  · exact ⟨_, rfl, Or.inl rfl⟩
  · split
    · split
      · rename_i i hi
        exact ⟨some i, rfl, Or.inr ⟨i, hi, rfl⟩⟩
      · exact ⟨_, rfl, Or.inl rfl⟩
    · exact ⟨_, rfl, Or.inl rfl⟩

@[simp] theorem pos_comma (p : Parser) : (comma p).pos = p.pos + 1 := by
  obtain ⟨s, h, -⟩ := comma_eq p
  rw [h]

@[simp] theorem tokens_comma (p : Parser) : (comma p).tokens = p.tokens := by
  obtain ⟨s, h, -⟩ := comma_eq p
  rw [h]

theorem Takes.pos {s r : List Byte} (h : Takes num p s r q) : q.pos = p.pos + s.length := by
  cases h with
  | str => simp only [pushed, List.length_cons, List.length_append, List.length_nil]; omega
  | comma => exact pos_comma p
  | _ => rfl

theorem Takes.ne_nil {s r : List Byte} (h : Takes num p s r q) : s ≠ [] := by
  cases h with
  | prim ht => obtain ⟨⟨c, t, rfl, -⟩, -⟩ := ht; exact List.cons_ne_nil _ _
  | _ => exact List.cons_ne_nil _ _

theorem Takes.zero_not_mem {s r : List Byte} (h : Takes num p s r q) : 0 ∉ s := by
  cases h with
  | prim ht => exact zero_not_mem_text (v := .prim _) ht
  | str hb => exact zero_not_mem_text (v := .str _) hb
  | opens k => cases k <;> decide
  | closes k => cases k <;> decide
  | blank hw => exact zero_not_mem_blank (w := [_]) (by simpa [Blank] using hw)
  | colon => decide
  | comma => decide

/-- A turn looks one byte ahead at most, and only for what ends a primitive. -/
theorem Takes.cut {s r r' : List Byte} (h : Takes num p s r q)
    (hr : r'.head? = r.head? ∨ Stops (fun c => c ≠ 0 ∧ isDelim c = false) r') : Takes num p s r' q := by
  cases h with
  | prim ht hcut room =>
    refine .prim ht (hr.elim (fun he => ?_) id) room
    rintro c s rfl
    obtain ⟨s', rfl⟩ : ∃ s', r = c :: s' := by cases r <;> simp_all
    exact hcut c s' rfl
  | str hb room => exact .str hb room
  | opens k room => exact .opens k room
  | closes k ht hC hk hB => exact .closes k ht hC hk hB
  | blank hw => exact .blank hw
  | colon => exact .colon
  | comma => exact .comma

end Turns

/-! ## Runs of turns -/

/-- The turns that read `s` in front of `r`. -/
inductive Run (num : Nat) (p : Parser) : List Byte → List Byte → Parser → Prop
  | here {r : List Byte} : Run num p [] r p
  | turn {s t r : List Byte} {q q' : Parser} : Run num p s (t ++ r) q → Takes num q t r q' → Run num p (s ++ t) r q'

section Runs

variable {num : Nat} {p q : Parser}

theorem Run.trans {s t r : List Byte} {q' : Parser} (h₁ : Run num p s (t ++ r) q) (h₂ : Run num q t r q') :
    Run num p (s ++ t) r q' := by
  induction h₂ with
  | here => simpa using h₁
  | turn _ ht ih =>
    rw [← List.append_assoc]
    exact (ih (by rwa [List.append_assoc] at h₁)).turn ht

theorem Takes.run {s r : List Byte} (h : Takes num p s r q) : Run num p s r q := Run.here.turn h

theorem Run.parseAll {s r : List Byte} (h : Run num p s r q) : parseAll num p (s ++ r) = parseAll num q r := by
  induction h with
  | here => rfl
  | turn _ ht ih => rw [List.append_assoc, ih, ht.parseAll]

theorem Run.pos {s r : List Byte} (h : Run num p s r q) : q.pos = p.pos + s.length := by
  induction h with
  | here => rfl
  | turn _ ht ih => rw [ht.pos, ih, List.length_append]; omega

theorem Run.pos_of_init {s r : List Byte} (h : Run num jsmnInit s r q) : q.pos = s.length := by
  rw [h.pos, jsmnInit, Nat.zero_add]

theorem Run.zero_not_mem {s r : List Byte} (h : Run num p s r q) : 0 ∉ s := by
  induction h with
  | here => simp
  | turn _ ht ih => exact fun h0 => (List.mem_append.1 h0).elim ih ht.zero_not_mem

theorem Run.cut {s r r' : List Byte} (h : Run num p s r q)
    (hr : r'.head? = r.head? ∨ Stops (fun c => c ≠ 0 ∧ isDelim c = false) r') : Run num p s r' q := by
  induction h generalizing r' with
  | here => exact .here
  | turn _ ht ih =>
    refine (ih (Or.inl ?_)).turn (ht.cut hr)
    obtain ⟨c, t, rfl⟩ := List.exists_cons_of_ne_nil ht.ne_nil
    rfl

theorem Run.nil {r : List Byte} (h : Run num p [] r q) : q = p := by
  generalize hs : ([] : List Byte) = s at h
  cases h with
  | here => rfl
  | turn _ ht => exact absurd (List.append_eq_nil_iff.1 hs.symm).2 ht.ne_nil

/-- The first turn of a run. -/
theorem Run.head {s r : List Byte} (h : Run num p s r q) (hs : s ≠ []) :
    ∃ t s' p', s = t ++ s' ∧ Takes num p t (s' ++ r) p' ∧ Run num p' s' r q := by
  induction h with
  | here => exact absurd rfl hs
  | @turn s t r q q' hrun ht ih =>
    by_cases hs : s = []
    · subst hs
      have hq := hrun.nil
      subst hq
      exact ⟨t, [], q', by simp, ht, .here⟩
    · obtain ⟨t₁, s', p', rfl, h₁, h₂⟩ := ih hs
      exact ⟨t₁, s' ++ t, p', by simp, by rwa [List.append_assoc], h₂.turn ht⟩

/-- **The loop took a run of turns** and stands at the end or at a zero. -/
theorem exists_run : ∀ {n : Nat} {p q : Parser} {js : List Byte}, js.length ≤ n → parseAll num p js = .ok q →
    ∃ s r, js = s ++ r ∧ Run num p s r q ∧ ∀ c t, r = c :: t → c = 0
  | _, p, q, [], _, h => by
    cases h
    exact ⟨[], [], rfl, .here, by simp⟩
  | n + 1, p, q, c :: js, hn, h => by
    by_cases hc : c = 0
    · rw [Jsmn.parseAll, List.length_cons, parseLoop, if_pos hc] at h
      cases h
      refine ⟨[], c :: js, rfl, .here, ?_⟩
      rintro d t ⟨⟩
      exact hc
    · cases hs : jsmnStep num p c js with
      | error e =>
        rw [Jsmn.parseAll, List.length_cons, parseLoop, if_neg hc, hs] at h
        cases h
      | ok u =>
        obtain ⟨p', js'⟩ := u
        rw [parseAll_cons hc hs] at h
        have hlen : js'.length ≤ js.length := length_jsmnStep hc hs
        simp only [List.length_cons] at hn
        obtain ⟨s, r, rfl, hrun, hend⟩ := exists_run (n := n) (by omega) h
        obtain ⟨t, ht, htakes⟩ := jsmnStep_takes hc hs
        exact ⟨t ++ s, r, by rw [ht, List.append_assoc], htakes.run.trans hrun, hend⟩

end Runs

/-! ## The loop ends -/

/-- The outcomes of the loop, however long it takes. -/
inductive Ends (num : Nat) : Parser → List Byte → Except Err Parser → Prop
  | stops {p : Parser} {js : List Byte} : (∀ c s, js = c :: s → c = 0) → Ends num p js (.ok p)
  | fails {p : Parser} {c : Byte} {js : List Byte} {e : Err} : c ≠ 0 → jsmnStep num p c js = .error e →
      Ends num p (c :: js) (.error e)
  | turns {p q : Parser} {c : Byte} {js js' : List Byte} {r : Except Err Parser} : c ≠ 0 →
      jsmnStep num p c js = .ok (q, js') → Ends num q js' r → Ends num p (c :: js) r

theorem ends_parseAll (num : Nat) : ∀ {n : Nat} {p : Parser} {js : List Byte}, js.length ≤ n →
    Ends num p js (parseAll num p js)
  | _, p, [], _ => .stops (by simp)
  | n + 1, p, c :: js, hn => by
    by_cases hc : c = 0
    · rw [parseAll, List.length_cons, parseLoop, if_pos hc]
      refine .stops ?_
      rintro d t ⟨⟩
      exact hc
    · cases hs : jsmnStep num p c js with
      | error e =>
        rw [parseAll, List.length_cons, parseLoop, if_neg hc, hs]
        exact .fails hc hs
      | ok u =>
        obtain ⟨q, js'⟩ := u
        have hlen : js'.length ≤ js.length := length_jsmnStep hc hs
        simp only [List.length_cons] at hn
        rw [parseAll_cons hc hs]
        exact .turns hc hs (ends_parseAll num (n := n) (by omega))

theorem Ends.unique {num : Nat} {p : Parser} {js : List Byte} {r r' : Except Err Parser} (h : Ends num p js r)
    (h' : Ends num p js r') : r = r' := by
  induction h with
  | stops hz =>
    cases h' with
    | stops => rfl
    | fails hc => exact absurd (hz _ _ rfl) hc
    | turns hc => exact absurd (hz _ _ rfl) hc
  | fails hc hs =>
    cases h' with
    | stops hz => exact absurd (hz _ _ rfl) hc
    | fails _ hs' => rw [hs] at hs'; cases hs'; rfl
    | turns _ hs' => rw [hs] at hs'; cases hs'
  | turns hc hs _ ih =>
    cases h' with
    | stops hz => exact absurd (hz _ _ rfl) hc
    | fails _ hs' => rw [hs] at hs'; cases hs'
    | turns _ hs' hr => rw [hs] at hs'; cases hs'; exact ih hr

/-- **The loop ends on every text**, with the outcome the fuel of the model allows for. -/
theorem ends_iff {num : Nat} {p : Parser} {js : List Byte} {r : Except Err Parser} :
    Ends num p js r ↔ parseAll num p js = r :=
  ⟨fun h => (ends_parseAll num (Nat.le_refl _)).unique h, fun h => h ▸ ends_parseAll num (Nat.le_refl _)⟩

end Jsmn
end RtPay
