import RtPay.Jsmn
/-!
# JsmnRuns — the tokenizer on a printed tree

The tokens of a tree, in the order of its text, and the run of `jsmn_parse` that finds them: every value leaves its
tokens behind those that were there, counts once in the token above it, and leaves `toksuper` where the next comma or
bracket needs it (`run_value`).  The induction is over the tree, one case for each constructor.
-/
namespace RtPay
namespace Jsmn

open Bytes JsonText

/-- What jsmn takes for strings and primitives: a superset of JSON's. -/
def raw : Lex where
  char c := c ≠ 0
  prim t := (∃ c s, t = c :: s ∧ c ≠ 0x22 ∧ c ≠ 0x7B ∧ c ≠ 0x5B) ∧
    ∀ c ∈ t, isDelim c = false ∧ 32 ≤ c.toNat ∧ c.toNat < 127

/-! ## The tokens of a tree -/

def tokType : Kind → TokType
  | .object => .object
  | .array => .array

/-- The token of a key counts its value. -/
def headTokens (h : Head) (q : Nat) : List Tok :=
  match h.key with
  | none => []
  | some (k, _, _) => [⟨.string, q + h.before.length + 1, some (q + h.before.length + 1 + k.length), 1⟩]

def itemCount : Items → Nat
  | .last _ _ _ => 1
  | .more _ _ _ rest => 1 + itemCount rest

def bodySize : Body → Nat
  | .blank _ => 0
  | .items is => itemCount is

mutual
def valueTokens : Value → Nat → List Tok
  | .prim t, q => [⟨.primitive, q, some (q + t.length), 0⟩]
  | .str b, q => [⟨.string, q + 1, some (q + 1 + b.length), 0⟩]
  | .box k body, q => ⟨tokType k, q, some (q + body.text.length + 2), bodySize body⟩ :: bodyTokens body (q + 1)
def bodyTokens : Body → Nat → List Tok
  | .blank _, _ => []
  | .items is, q => itemsTokens is q
def itemsTokens : Items → Nat → List Tok
  | .last h v _, q => headTokens h q ++ valueTokens v (q + h.text.length)
  | .more h v w rest, q => headTokens h q ++ (valueTokens v (q + h.text.length) ++
      itemsTokens rest (q + h.text.length + v.text.length + w.length + 1))
end

theorem headTokens_closed (h : Head) (q : Nat) : ∀ t ∈ headTokens h q, t.isOpen = false := by
  unfold headTokens
  split
  · simp
  · simp [Tok.isOpen]

mutual
theorem valueTokens_closed : ∀ (v : Value) (q : Nat), ∀ t ∈ valueTokens v q, t.isOpen = false
  | .prim _, _ => by simp [valueTokens, Tok.isOpen]
  | .str _, _ => by simp [valueTokens, Tok.isOpen]
  | .box k body, q => by
    intro t ht
    rw [valueTokens] at ht
    rcases List.mem_cons.1 ht with rfl | ht
    · rfl
    · exact bodyTokens_closed body _ t ht
theorem bodyTokens_closed : ∀ (body : Body) (q : Nat), ∀ t ∈ bodyTokens body q, t.isOpen = false
  | .blank _, _ => by simp [bodyTokens]
  | .items is, q => by rw [bodyTokens]; exact itemsTokens_closed is q
theorem itemsTokens_closed : ∀ (is : Items) (q : Nat), ∀ t ∈ itemsTokens is q, t.isOpen = false
  | .last h v _, q => by
    intro t ht
    rw [itemsTokens] at ht
    rcases List.mem_append.1 ht with ht | ht
    · exact headTokens_closed h q t ht
    · exact valueTokens_closed v _ t ht
  | .more h v w rest, q => by
    intro t ht
    rw [itemsTokens] at ht
    rcases List.mem_append.1 ht with ht | ht
    · exact headTokens_closed h q t ht
    · rcases List.mem_append.1 ht with ht | ht
      · exact valueTokens_closed v _ t ht
      · exact itemsTokens_closed rest _ t ht
end

/-! ## Token arrays -/

theorem findLast_append (P : Tok → Bool) : ∀ (A B : List Tok), (∀ t ∈ B, P t = false) →
    findLast P (A ++ B) = findLast P A
  | [], [], _ => rfl
  | [], t :: B, h => by
    have := findLast_append P [] B (fun u hu => h u (List.mem_cons_of_mem _ hu))
    rw [List.nil_append] at this
    simp [findLast, this, h t List.mem_cons_self]
  | t :: A, B, h => by rw [List.cons_append, findLast, findLast, findLast_append P A B h]

theorem findLast_at (P : Tok → Bool) {C : Tok} (hC : P C = true) : ∀ (A B : List Tok), (∀ t ∈ B, P t = false) →
    findLast P (A ++ C :: B) = some A.length
  | [], B, h => by
    have := findLast_append P [] B h
    rw [List.nil_append] at this
    simp [findLast, this, hC]
  | t :: A, B, h => by rw [List.cons_append, findLast, findLast_at P hC A B h]; rfl

@[simp] theorem length_bump (s : Option Nat) (ts : List Tok) : (bump s ts).length = ts.length := by
  cases s <;> simp [bump]

theorem bump_append {s : Option Nat} {ts : List Tok} (h : ∀ i, s = some i → i < ts.length) (us : List Tok) :
    bump s (ts ++ us) = bump s ts ++ us := by
  cases s with
  | none => rfl
  | some i =>
    have hi := h i rfl
    simp only [bump]
    rw [List.modify_eq_take_cons_drop (by simp; omega), List.modify_eq_take_cons_drop hi,
      List.take_append_of_le_length (by omega), List.drop_append_of_le_length (by omega),
      List.getElem_append_left hi]
    simp

theorem modify_at (f : Tok → Tok) (C : Tok) : ∀ (A B : List Tok), (A ++ C :: B).modify A.length f = A ++ f C :: B
  | [], B => by simp
  | t :: A, B => by simp [modify_at f C A B]

theorem findLast_bump (s : Option Nat) (ts : List Tok) : findLast Tok.isOpen (bump s ts) = findLast Tok.isOpen ts := by
  cases s with
  | none => rfl
  | some i =>
    simp only [bump]
    induction ts generalizing i with
    | nil => simp
    | cons t ts ih =>
      cases i with
      | zero => simp [findLast, Tok.isOpen]
      | succ i => simp only [List.modify_succ_cons, findLast, ih]

/-! ## Scans -/

theorem ne_zero_of_isDelim {c : Byte} (h : isDelim c = true) : c ≠ 0 := by
  rintro rfl
  cases h

theorem scanPrim_append : ∀ (t : List Byte) {r : List Byte} (pos : Nat),
    (∀ c ∈ t, isDelim c = false ∧ 32 ≤ c.toNat ∧ c.toNat < 127) → Stops (fun c => c ≠ 0 ∧ isDelim c = false) r →
    scanPrim (t ++ r) pos = .ok (pos + t.length, r)
  | [], [], pos, _, _ => rfl
  | [], c :: r, pos, _, hr => by
    by_cases h0 : c = 0
    · rw [List.nil_append, scanPrim, if_pos h0]; rfl
    · have hc : isDelim c = true := by simpa [h0] using hr c r rfl
      rw [List.nil_append, scanPrim, if_neg h0, if_pos hc]; rfl
  | c :: t, r, pos, ht, hr => by
    obtain ⟨h1, h2, h3⟩ := ht c List.mem_cons_self
    have hc : c ≠ 0 := by rintro rfl; simp at h2
    have hrange : (c.toNat < 32 || 127 ≤ c.toNat) = false := by simp; omega
    rw [List.cons_append, scanPrim, if_neg hc, h1, hrange]
    simp only [Bool.false_eq_true, if_false]
    rw [scanPrim_append t (pos + 1) (fun d hd => ht d (List.mem_cons_of_mem _ hd)) hr, List.length_cons]
    congr 2; omega

theorem scanString_char {c : Byte} (h0 : c ≠ 0) (hq : c ≠ 0x22) (hb : c ≠ 0x5C) {s : List Byte} (hs : s ≠ [])
    (pos : Nat) : scanString 0 (c :: s) pos = scanString 0 s (pos + 1) := by
  cases s with
  | nil => exact absurd rfl hs
  | cons e s => rw [scanString, if_neg h0, if_neg hq, if_neg hb]

theorem scanString_quote (r : List Byte) (pos : Nat) : scanString 0 (0x22 :: r) pos = .ok (pos, r) := by
  cases r with
  | nil => rfl
  | cons e s => rfl

theorem scanString_hex {c : Byte} (h : isHex c = true) (n : Nat) (s : List Byte) (pos : Nat) :
    scanString (n + 1) (c :: s) pos = scanString n s (pos + 1) := by
  have h0 : c ≠ 0 := by rintro rfl; cases h
  rw [scanString, if_neg h0, if_pos h]

theorem scanString_append {b : List Byte} (h : StrBody raw.char b) : ∀ (r : List Byte) (pos : Nat),
    scanString 0 (b ++ 0x22 :: r) pos = .ok (pos + b.length, r) := by
  induction h with
  | nil => exact fun r pos => scanString_quote r pos
  | @char c b h0 hq hb _ ih =>
    intro r pos
    rw [List.cons_append, scanString_char h0 hq hb (by simp), ih r (pos + 1), List.length_cons]
    congr 2; omega
  | @escape c b hc _ ih =>
    intro r pos
    rw [List.cons_append, List.cons_append, scanString]
    simp only [show ((0x5C : Byte) = 0) ↔ False by decide, show ((0x5C : Byte) = 0x22) ↔ False by decide, if_false,
      if_true, hc]
    rw [ih r (pos + 2), List.length_cons, List.length_cons]
    congr 2; omega
  | @unicode h₁ h₂ h₃ h₄ b e₁ e₂ e₃ e₄ _ ih =>
    intro r pos
    simp only [List.cons_append]
    rw [scanString]
    simp only [show ((0x5C : Byte) = 0) ↔ False by decide, show ((0x5C : Byte) = 0x22) ↔ False by decide, if_false,
      if_true, show isEscape 0x75 = false by decide, Bool.false_eq_true]
    rw [scanString_hex e₁, scanString_hex e₂, scanString_hex e₃, scanString_hex e₄, ih r _]
    simp only [List.length_cons]
    congr 2; omega

/-! ## Steps -/

section Steps

variable {num : Nat} {p : Parser}

theorem push_of_room (h : p.tokens.length < num) (t : Tok) (pos : Nat) : push num p t pos =
    .ok { pos := pos, toksuper := p.toksuper, tokens := bump p.toksuper (p.tokens ++ [t]), count := p.count + 1 } :=
  if_neg (by omega)

theorem parseAll_blank : ∀ {w : List Byte} {p : Parser}, Blank w → ∀ r,
    parseAll num p (w ++ r) = parseAll num { p with pos := p.pos + w.length } r
  | [], p, _, r => rfl
  | c :: w, p, hw, r => by
    have hc := hw c List.mem_cons_self
    have h0 : c ≠ 0 := ne_zero_of_isDelim (isDelim_of_isWs hc)
    have hstep : jsmnStep num p c (w ++ r) = .ok ({ p with pos := p.pos + 1 }, w ++ r) := by
      unfold jsmnStep
      rw [if_neg (by rintro rfl; cases hc), if_neg (by rintro rfl; cases hc), if_neg (by rintro rfl; cases hc),
        if_neg (by rintro rfl; cases hc), if_neg (by rintro rfl; cases hc), if_pos hc]
    rw [List.cons_append, parseAll_cons h0 hstep, parseAll_blank (fun d hd => hw d (List.mem_cons_of_mem _ hd)) r,
      List.length_cons]
    congr 2
    show p.pos + 1 + w.length = p.pos + (w.length + 1)
    omega

theorem parseAll_string {b : List Byte} (hb : StrBody raw.char b) (room : p.tokens.length < num) (r : List Byte) :
    parseAll num p (0x22 :: (b ++ 0x22 :: r)) = parseAll num
      { pos := p.pos + b.length + 2, toksuper := p.toksuper, count := p.count + 1,
        tokens := bump p.toksuper (p.tokens ++ [⟨.string, p.pos + 1, some (p.pos + 1 + b.length), 0⟩]) } r := by
  refine parseAll_cons (by decide) ?_
  show jsmnParseString num p _ = _
  rw [jsmnParseString, scanString_append hb]
  simp only [bind, Except.bind, push_of_room room, pure, Except.pure]
  congr 3; omega

theorem parseAll_prim {t : List Byte} (ht : raw.prim t) (room : p.tokens.length < num) {r : List Byte}
    (hr : Stops (fun c => c ≠ 0 ∧ isDelim c = false) r) : parseAll num p (t ++ r) = parseAll num
      { pos := p.pos + t.length, toksuper := p.toksuper, count := p.count + 1,
        tokens := bump p.toksuper (p.tokens ++ [⟨.primitive, p.pos, some (p.pos + t.length), 0⟩]) } r := by
  obtain ⟨⟨c, s, rfl, hq, ho, hb⟩, hall⟩ := ht
  obtain ⟨hd, hlo, -⟩ := hall c List.mem_cons_self
  refine parseAll_cons (by rintro rfl; simp at hlo) ?_
  simp only [isDelim, Bool.or_eq_false_iff, beq_eq_false_iff_ne] at hd
  obtain ⟨⟨⟨⟨hws, h1⟩, h2⟩, h3⟩, h4⟩ := hd
  unfold jsmnStep
  rw [if_neg ho, if_neg hb, if_neg h4, if_neg h3, if_neg hq, if_neg (by rw [hws]; decide), if_neg h2, if_neg h1]
  show jsmnParsePrimitive num p ((c :: s) ++ r) = _
  rw [jsmnParsePrimitive, scanPrim_append _ _ hall hr]
  simp only [bind, Except.bind, push_of_room room, pure, Except.pure]

def opened (p : Parser) (k : Kind) : Parser where
  pos := p.pos + 1
  toksuper := some p.tokens.length
  tokens := bump p.toksuper (p.tokens ++ [⟨tokType k, p.pos, none, 0⟩])
  count := p.count + 1

theorem parseAll_open (k : Kind) (room : p.tokens.length < num) (r : List Byte) :
    parseAll num p (k.opening :: r) = parseAll num (opened p k) r := by
  have hopen : openBox num p (tokType k) = .ok (opened p k) := by
    simp only [opened, openBox, bind, Except.bind, push_of_room room, pure, Except.pure, length_bump, List.length_append,
      List.length_singleton, Nat.add_sub_cancel]
  refine parseAll_cons (by cases k <;> decide) ?_
  have hstep : jsmnStep num p k.opening r = (openBox num p (tokType k)).map (·, r) := by cases k <;> rfl
  rw [hstep, hopen]; rfl

theorem parseAll_close (k : Kind) {A B : List Tok} {C : Tok} (ht : p.tokens = A ++ C :: B) (hC : C.isOpen = true)
    (hk : C.type = tokType k) (hB : ∀ t ∈ B, t.isOpen = false) (r : List Byte) :
    parseAll num p (k.closing :: r) = parseAll num
      { pos := p.pos + 1, toksuper := findLast Tok.isOpen A, count := p.count,
        tokens := A ++ { C with stop := some (p.pos + 1) } :: B } r := by
  have hclose : closeBox p (tokType k) = .ok
      { pos := p.pos + 1, toksuper := findLast Tok.isOpen A, count := p.count,
        tokens := A ++ { C with stop := some (p.pos + 1) } :: B } := by
    unfold closeBox
    rw [ht, findLast_at _ hC A B hB]
    simp only [List.getElem?_append_right (Nat.le_refl _), Nat.sub_self, List.getElem?_cons_zero, Option.map_some, hk,
      if_true, modify_at, List.take_left']
  refine parseAll_cons (by cases k <;> decide) ?_
  have hstep : jsmnStep num p k.closing r = (closeBox p (tokType k)).map (·, r) := by cases k <;> rfl
  rw [hstep, hclose]; rfl

theorem parseAll_colon {T : List Tok} {K : Tok} (ht : p.tokens = T ++ [K]) (r : List Byte) :
    parseAll num p (0x3A :: r) = parseAll num { p with pos := p.pos + 1, toksuper := some T.length } r := by
  refine parseAll_cons (by decide) ?_
  show Except.ok (colon p, r) = _
  rw [colon, ht, if_neg (by simp)]
  simp

/-- After a value the superior token is the box around it or, behind a key, a token that is no box. -/
def Back (A : List Tok) (p : Parser) : Prop :=
  p.toksuper = some A.length ∨ ∃ s t, p.toksuper = some s ∧ p.tokens[s]? = some t ∧ t.type.isBox = false

theorem parseAll_comma {A B : List Tok} {C : Tok} (ht : p.tokens = A ++ C :: B) (hC : C.isOpen = true)
    (hbox : C.type.isBox = true) (hB : ∀ t ∈ B, t.isOpen = false) (hback : Back A p) (r : List Byte) :
    parseAll num p (0x2C :: r) = parseAll num { p with pos := p.pos + 1, toksuper := some A.length } r := by
  refine parseAll_cons (by decide) ?_
  show Except.ok (comma p, r) = _
  have hcomma : comma p = { p with pos := p.pos + 1, toksuper := some A.length } := by
    unfold comma
    rcases hback with hs | ⟨s, t, hs, hget, hnot⟩
    · rw [hs]
      simp only [ht, List.getElem?_append_right (Nat.le_refl _), Nat.sub_self, List.getElem?_cons_zero,
        Option.map_some, hbox]
      rfl
    · have hfind : findLast (fun t => t.type.isBox && t.isOpen) p.tokens = some A.length := by
        rw [ht]
        exact findLast_at _ (by simp [hC, hbox]) A B (fun u hu => by simp [hB u hu])
      rw [hs]
      simp only [hget, Option.map_some, hnot, if_true, hfind]
  rw [hcomma]

end Steps

/-! ## Runs -/

/-- The parser behind a value: its tokens last, one more in the token above, `toksuper` on the box around a box. -/
def afterValue (v : Value) (p : Parser) : Parser where
  pos := p.pos + v.text.length
  toksuper := match v with
    | .box _ _ => findLast Tok.isOpen p.tokens
    | _ => p.toksuper
  tokens := bump p.toksuper p.tokens ++ valueTokens v p.pos
  count := p.count + (valueTokens v p.pos).length

def SuperBelow (p : Parser) : Prop := ∀ i, p.toksuper = some i → i < p.tokens.length

/-- The parser inside a box: the box's token `C` open at index `A.length`, the tokens `B` behind it closed. -/
structure Inside (p : Parser) (k : Kind) (A : List Tok) (C : Tok) (B : List Tok) : Prop where
  tokens : p.tokens = A ++ C :: B
  isOpen : C.isOpen = true
  type : C.type = tokType k
  closed : ∀ t ∈ B, t.isOpen = false

theorem Inside.closed_item {p : Parser} {k : Kind} {A : List Tok} {C : Tok} {B : List Tok} (hin : Inside p k A C B)
    (h : Head) (v : Value) (q : Nat) :
    ∀ t ∈ B ++ (headTokens h q ++ valueTokens v (q + h.text.length)), t.isOpen = false := by
  intro t ht
  rcases List.mem_append.1 ht with ht | ht
  · exact hin.closed t ht
  · exact itemsTokens_closed (.last h v []) q t ht

/-- The parser behind the closing bracket of that box, with `n` more items and their tokens. -/
def afterBody (p : Parser) (A : List Tok) (C : Tok) (B : List Tok) (len n : Nat) (new : List Tok) : Parser where
  pos := p.pos + len + 1
  toksuper := findLast Tok.isOpen A
  tokens := A ++ { C with size := C.size + n, stop := some (p.pos + len + 1) } :: (B ++ new)
  count := p.count + new.length

theorem afterBody_opened (p : Parser) (k : Kind) (body : Body) :
    afterBody (opened p k) (bump p.toksuper p.tokens) ⟨tokType k, p.pos, none, 0⟩ [] body.text.length (bodySize body)
      (bodyTokens body (p.pos + 1)) = afterValue (.box k body) p := by
  simp only [afterBody, afterValue, opened, valueTokens, findLast_bump, Value.text, List.length_cons,
    List.length_append, List.length_nil, List.nil_append, Nat.zero_add, Parser.mk.injEq, true_and]
  refine ⟨by omega, ?_, by omega⟩
  rw [show p.pos + 1 + body.text.length + 1 = p.pos + body.text.length + 2 by omega]

theorem isBox_tokType (k : Kind) : (tokType k).isBox = true := by cases k <;> rfl

def RunsOver (num : Nat) (v : Value) : Prop :=
  ∀ (p : Parser) (r : List Byte), Stops (fun c => isDelim c = false) r → SuperBelow p →
    p.tokens.length + (valueTokens v p.pos).length ≤ num → parseAll num p (v.text ++ r) = parseAll num (afterValue v p) r

structure BehindItem (p q : Parser) (A : List Tok) (C : Tok) (B : List Tok) (len : Nat) (new : List Tok) : Prop where
  pos : q.pos = p.pos + len
  tokens : q.tokens = A ++ { C with size := C.size + 1 } :: (B ++ new)
  count : q.count = p.count + new.length
  back : Back A q

theorem run_bare {num : Nat} {k : Kind} {v : Value} (ih : RunsOver num v) {p : Parser} {r : List Byte} {A : List Tok}
    {C : Tok} {B : List Tok} (hr : Stops (fun c => isDelim c = false) r) (hin : Inside p k A C B)
    (hs : p.toksuper = some A.length) (room : p.tokens.length + (valueTokens v p.pos).length ≤ num) :
    ∃ q, parseAll num p (v.text ++ r) = parseAll num q r ∧ BehindItem p q A C B v.text.length (valueTokens v p.pos) := by
  have hbelow : SuperBelow p := by
    intro i hi
    rw [hs] at hi
    cases hi
    rw [hin.tokens]; simp
  have hfind : findLast Tok.isOpen p.tokens = some A.length := by
    rw [hin.tokens]; exact findLast_at _ hin.isOpen A B hin.closed
  refine ⟨afterValue v p, ih p r hr hbelow room, rfl, ?_, rfl, Or.inl ?_⟩
  · show bump p.toksuper p.tokens ++ _ = _
    rw [hs, hin.tokens, bump, modify_at, List.append_assoc, List.cons_append]
  · cases v with
    | box k body => exact hfind
    | _ => exact hs

/-- The parser behind a key and its colon: the key is the superior token, and its value is to come. -/
def behindKey (p : Parser) (T : List Tok) (K : Tok) (len : Nat) : Parser :=
  ⟨p.pos + len, some T.length, T ++ [K], p.count + 1⟩

theorem bump_behindKey (p : Parser) (T : List Tok) (K : Tok) (len : Nat) :
    bump (behindKey p T K len).toksuper (behindKey p T K len).tokens = T ++ [{ K with size := K.size + 1 }] := by
  simp only [behindKey, bump, modify_at]

/-- A value behind its key, in a box that stays open. -/
theorem run_behindKey {num : Nat} {v : Value} (ih : RunsOver num v) (p : Parser) {r : List Byte} {A : List Tok} {C : Tok}
    {B : List Tok} {K : Tok} (len : Nat) (hC : C.isOpen = true) (hB : ∀ t ∈ B, t.isOpen = false) (hopen : K.isOpen = false)
    (hK : K.type.isBox = false) (hr : Stops (fun c => isDelim c = false) r)
    (room : (A ++ C :: B).length + 1 + (valueTokens v (p.pos + len)).length ≤ num) :
    ∃ q, parseAll num (behindKey p (A ++ C :: B) K len) (v.text ++ r) = parseAll num q r ∧
      q.pos = p.pos + len + v.text.length ∧
      q.tokens = (A ++ C :: B) ++ { K with size := K.size + 1 } :: valueTokens v (p.pos + len) ∧
      q.count = p.count + 1 + (valueTokens v (p.pos + len)).length ∧ Back A q := by
  have hbelow : SuperBelow (behindKey p (A ++ C :: B) K len) := by
    rintro i ⟨⟩
    simp [behindKey]
  have hroom : (behindKey p (A ++ C :: B) K len).tokens.length + (valueTokens v (p.pos + len)).length ≤ num := by
    rw [behindKey, List.length_append, List.length_singleton]
    exact room
  have hfind : findLast Tok.isOpen (behindKey p (A ++ C :: B) K len).tokens = some A.length := by
    rw [behindKey, findLast_append _ (A ++ C :: B) [K] (by simp [hopen])]
    exact findLast_at Tok.isOpen hC A B hB
  have htokens : (afterValue v (behindKey p (A ++ C :: B) K len)).tokens =
      (A ++ C :: B) ++ { K with size := K.size + 1 } :: valueTokens v (p.pos + len) := by
    have hafter : (afterValue v (behindKey p (A ++ C :: B) K len)).tokens =
        bump (behindKey p (A ++ C :: B) K len).toksuper (behindKey p (A ++ C :: B) K len).tokens ++
          valueTokens v (p.pos + len) := rfl
    rw [hafter, bump_behindKey, List.append_assoc, List.singleton_append]
  have hkey : (afterValue v (behindKey p (A ++ C :: B) K len)).tokens[(A ++ C :: B).length]? =
      some { K with size := K.size + 1 } := by
    rw [htokens, List.getElem?_append_right (Nat.le_refl _), Nat.sub_self, List.getElem?_cons_zero]
  refine ⟨_, ih _ r hr hbelow hroom, rfl, htokens, rfl, ?_⟩
  cases v with
  | box k body => exact Or.inl hfind
  | prim t => exact Or.inr ⟨_, _, rfl, hkey, hK⟩
  | str b => exact Or.inr ⟨_, _, rfl, hkey, hK⟩

theorem run_keyed {num : Nat} {v : Value} (ih : RunsOver num v) {p : Parser} {r key a b : List Byte} {A : List Tok}
    {C : Tok} {B : List Tok} (hkey : StrBody raw.char key) (ha : Blank a) (hb : Blank b)
    (hr : Stops (fun c => isDelim c = false) r) (hin : Inside p .object A C B) (hs : p.toksuper = some A.length)
    (room : p.tokens.length + ((valueTokens v (p.pos + (key.length + a.length + b.length + 3))).length + 1) ≤ num) :
    ∃ q, parseAll num p (0x22 :: (key ++ 0x22 :: (a ++ 0x3A :: (b ++ (v.text ++ r))))) = parseAll num q r ∧
      BehindItem p q A C B (key.length + a.length + b.length + 3 + v.text.length)
        (⟨.string, p.pos + 1, some (p.pos + 1 + key.length), 1⟩ ::
          valueTokens v (p.pos + (key.length + a.length + b.length + 3))) := by
  -- the box counts the key, and the key is the superior token behind the colon
  have htokens : ∀ K : Tok, bump p.toksuper (p.tokens ++ [K]) = (A ++ { C with size := C.size + 1 } :: B) ++ [K] := by
    intro K
    rw [hs, hin.tokens, List.append_assoc, bump, List.cons_append, modify_at]
    simp
  have hrun : parseAll num p (0x22 :: (key ++ 0x22 :: (a ++ 0x3A :: (b ++ (v.text ++ r))))) =
      parseAll num (behindKey p (A ++ { C with size := C.size + 1 } :: B)
        ⟨.string, p.pos + 1, some (p.pos + 1 + key.length), 0⟩ (key.length + a.length + b.length + 3)) (v.text ++ r) := by
    have hpos : p.pos + key.length + 2 + a.length + 1 + b.length = p.pos + (key.length + a.length + b.length + 3) := by
      omega
    rw [parseAll_string hkey (by omega), parseAll_blank ha, parseAll_colon (htokens _), parseAll_blank hb]
    dsimp only
    rw [hpos, htokens, behindKey]
  have hlen : (A ++ { C with size := C.size + 1 } :: B).length = p.tokens.length := by rw [hin.tokens]; simp
  obtain ⟨q, hq, hpos, htok, hcount, hback⟩ := run_behindKey ih p (key.length + a.length + b.length + 3)
    (C := { C with size := C.size + 1 }) hin.isOpen hin.closed
    (K := ⟨.string, p.pos + 1, some (p.pos + 1 + key.length), 0⟩) rfl rfl hr (by rw [hlen]; omega)
  refine ⟨q, hrun.trans hq, by rw [hpos, Nat.add_assoc], ?_, ?_, hback⟩
  · rw [htok, List.append_assoc, List.cons_append]
  · rw [hcount, List.length_cons]
    omega

theorem run_item {num : Nat} {k : Kind} {h : Head} {v : Value} (ih : RunsOver num v) {p : Parser} {r : List Byte}
    {A : List Tok} {C : Tok} {B : List Tok} (hh : h.Wf raw k) (hr : Stops (fun c => isDelim c = false) r)
    (hin : Inside p k A C B) (hs : p.toksuper = some A.length)
    (room : p.tokens.length + (headTokens h p.pos ++ valueTokens v (p.pos + h.text.length)).length ≤ num) :
    ∃ q, parseAll num p (h.text ++ (v.text ++ r)) = parseAll num q r ∧
      BehindItem p q A C B (h.text.length + v.text.length)
        (headTokens h p.pos ++ valueTokens v (p.pos + h.text.length)) := by
  obtain ⟨before, key⟩ := h
  obtain ⟨hb, hk⟩ := hh
  have hin' : Inside { p with pos := p.pos + before.length } k A C B := ⟨hin.tokens, hin.isOpen, hin.type, hin.closed⟩
  match k, key, hk with
  | .array, none, _ =>
    simp only [Head.text, List.append_nil, headTokens, List.nil_append] at room ⊢
    obtain ⟨q, hq, hbeh⟩ := run_bare ih hr hin' hs room
    refine ⟨q, by rw [parseAll_blank hb, hq], ?_, hbeh.tokens, hbeh.count, hbeh.back⟩
    rw [hbeh.pos]
    show p.pos + before.length + v.text.length = _
    omega
  | .object, some (s, a, b), ⟨hkey, ha, hbl⟩ =>
    simp only [Head.text, headTokens, List.length_append, List.length_cons, List.append_assoc, List.cons_append,
      List.nil_append] at room ⊢
    have hpos : p.pos + (before.length + (s.length + (a.length + (b.length + 1) + 1) + 1)) =
        p.pos + before.length + (s.length + a.length + b.length + 3) := by omega
    rw [hpos] at room ⊢
    obtain ⟨q, hq, hbeh⟩ := run_keyed ih hkey ha hbl hr hin' hs (by show p.tokens.length + _ ≤ num; omega)
    refine ⟨q, by rw [parseAll_blank hb, hq], ?_, hbeh.tokens, hbeh.count, hbeh.back⟩
    rw [hbeh.pos]
    show p.pos + before.length + _ = _
    omega

/-- Behind an item and its comma, the parser is inside the same box. -/
theorem run_comma (num : Nat) {p q : Parser} {k : Kind} {A : List Tok} {C : Tok} {B new : List Tok} {w : List Byte}
    {len : Nat} (hin : Inside p k A C B) (hw : Blank w) (hbeh : BehindItem p q A C B len new)
    (hclosed : ∀ t ∈ B ++ new, t.isOpen = false) (r : List Byte) :
    ∃ q', parseAll num q (w ++ 0x2C :: r) = parseAll num q' r ∧
      Inside q' k A { C with size := C.size + 1 } (B ++ new) ∧ q'.toksuper = some A.length ∧
      q'.pos = p.pos + len + w.length + 1 ∧ q'.count = p.count + new.length := by
  have hbox : ({ C with size := C.size + 1 } : Tok).type.isBox = true := by
    rw [show ({ C with size := C.size + 1 } : Tok).type = C.type from rfl, hin.type]
    exact isBox_tokType k
  refine ⟨{ q with pos := q.pos + w.length + 1, toksuper := some A.length }, ?_,
    ⟨hbeh.tokens, hin.isOpen, hin.type, hclosed⟩, rfl, ?_, hbeh.count⟩
  · rw [parseAll_blank hw, parseAll_comma (p := { q with pos := q.pos + w.length }) hbeh.tokens hin.isOpen hbox hclosed
      hbeh.back]
  · rw [← hbeh.pos]

theorem afterBody_more {p q : Parser} {h : Head} {v : Value} {w : List Byte} {rest : Items}
    (hpos : q.pos = p.pos + h.text.length + v.text.length + w.length + 1)
    (hcount : q.count = p.count + (headTokens h p.pos ++ valueTokens v (p.pos + h.text.length)).length)
    (A : List Tok) (C : Tok) (B : List Tok) :
    afterBody q A { C with size := C.size + 1 } (B ++ (headTokens h p.pos ++ valueTokens v (p.pos + h.text.length)))
        rest.text.length (itemCount rest) (itemsTokens rest q.pos) =
      afterBody p A C B (Items.more h v w rest).text.length (itemCount (.more h v w rest))
        (itemsTokens (.more h v w rest) p.pos) := by
  rw [List.length_append] at hcount
  simp only [afterBody, itemCount, itemsTokens, Items.text, List.length_append, List.length_cons, hpos, hcount,
    Parser.mk.injEq, true_and, List.append_assoc]
  refine ⟨by omega, ?_, by omega⟩
  rw [Nat.add_assoc C.size]
  congr 3
  congr 1
  omega

mutual
/-- **The run over a value.** -/
theorem run_value (num : Nat) : ∀ (v : Value) (p : Parser) (r : List Byte), v.Wf raw →
    Stops (fun c => isDelim c = false) r → SuperBelow p → p.tokens.length + (valueTokens v p.pos).length ≤ num →
    parseAll num p (v.text ++ r) = parseAll num (afterValue v p) r
  | .prim t, p, r, hv, hr, hs, room => by
    simp only [valueTokens, List.length_singleton] at room
    rw [Value.text, parseAll_prim hv (by omega) (fun c s hc h => hr c s hc h.2), bump_append hs]
    rfl
  | .str b, p, r, hv, hr, hs, room => by
    simp only [valueTokens, List.length_singleton] at room
    rw [Value.text, List.cons_append, List.append_assoc, List.singleton_append, parseAll_string hv (by omega),
      bump_append hs]
    simp only [afterValue, Value.text, valueTokens, List.length_cons, List.length_append, List.length_nil]
    congr 2
  | .box k body, p, r, hv, hr, hs, room => by
    simp only [valueTokens, List.length_cons] at room
    rw [Value.text, List.cons_append, List.append_assoc, List.singleton_append, parseAll_open k (by omega)]
    have hin : Inside (opened p k) k (bump p.toksuper p.tokens) ⟨tokType k, p.pos, none, 0⟩ [] :=
      ⟨bump_append hs _, rfl, rfl, by simp⟩
    have hroom : (opened p k).tokens.length + (bodyTokens body (opened p k).pos).length ≤ num := by
      simp only [opened, length_bump, List.length_append, List.length_singleton]
      omega
    rw [run_body num k body _ r hv hin (by rw [length_bump]; rfl) hroom]
    exact congrArg (parseAll num · r) (afterBody_opened p k body)

theorem run_body (num : Nat) (k : Kind) : ∀ (body : Body) (p : Parser) (r : List Byte) {A : List Tok} {C : Tok}
    {B : List Tok}, body.Wf raw k → Inside p k A C B → p.toksuper = some A.length →
    p.tokens.length + (bodyTokens body p.pos).length ≤ num →
    parseAll num p (body.text ++ k.closing :: r) =
      parseAll num (afterBody p A C B body.text.length (bodySize body) (bodyTokens body p.pos)) r
  | .blank w, p, r, A, C, B, hw, hin, hs, room => by
    rw [Body.text, parseAll_blank hw, parseAll_close k (p := { p with pos := p.pos + w.length }) hin.tokens hin.isOpen
      hin.type hin.closed]
    simp [afterBody, bodySize, bodyTokens]
  | .items is, p, r, A, C, B, hw, hin, hs, room => by
    rw [bodyTokens] at room
    rw [Body.text, run_items num k is p r hw hin hs room, bodySize, bodyTokens]

theorem run_items (num : Nat) (k : Kind) : ∀ (is : Items) (p : Parser) (r : List Byte) {A : List Tok} {C : Tok}
    {B : List Tok}, is.Wf raw k → Inside p k A C B → p.toksuper = some A.length →
    p.tokens.length + (itemsTokens is p.pos).length ≤ num →
    parseAll num p (is.text ++ k.closing :: r) =
      parseAll num (afterBody p A C B is.text.length (itemCount is) (itemsTokens is p.pos)) r
  | .last h v w, p, r, A, C, B, hw, hin, hs, room => by
    obtain ⟨hh, hv, hb⟩ := hw
    rw [itemsTokens] at room
    obtain ⟨q, hq, hbeh⟩ := run_item (fun p r => run_value num v p r hv) hh (stops_blank hb (isDelim_closing k).1 r) hin
      hs room
    have hclosed := hin.closed_item h v p.pos
    rw [Items.text, List.append_assoc, List.append_assoc, hq, parseAll_blank hb,
      parseAll_close k (p := { q with pos := q.pos + w.length }) hbeh.tokens hin.isOpen hin.type hclosed]
    refine congrArg (parseAll num · r) ?_
    have hstop : p.pos + (h.text.length + v.text.length) + w.length + 1 =
        p.pos + (h.text.length + (v.text.length + w.length)) + 1 := by omega
    simp only [afterBody, itemCount, itemsTokens, List.length_append, hbeh.pos, hbeh.count, hstop]
  | .more h v w rest, p, r, A, C, B, hw, hin, hs, room => by
    obtain ⟨hh, hv, hb, hrest⟩ := hw
    simp only [itemsTokens, List.length_append] at room
    obtain ⟨q, hq, hbeh⟩ := run_item (fun p r => run_value num v p r hv) hh (stops_blank hb (by decide) _) hin hs
      (by simp only [List.length_append]; omega) (r := w ++ 0x2C :: (rest.text ++ k.closing :: r))
    have hclosed := hin.closed_item h v p.pos
    obtain ⟨q', hq', hin', hs', hpos, hcount⟩ := run_comma num hin hb hbeh hclosed (rest.text ++ k.closing :: r)
    have hpos : q'.pos = p.pos + h.text.length + v.text.length + w.length + 1 := by omega
    have hroom : q'.tokens.length + (itemsTokens rest q'.pos).length ≤ num := by
      rw [hin'.tokens, hpos]
      rw [hin.tokens] at room
      simp only [List.length_append, List.length_cons] at room ⊢
      omega
    have hrun : parseAll num p ((Items.more h v w rest).text ++ k.closing :: r) =
        parseAll num q' (rest.text ++ k.closing :: r) := by
      rw [Items.text, List.append_assoc, List.append_assoc, List.append_assoc, List.cons_append, hq, hq']
    rw [hrun, run_items num k rest q' r hrest hin' hs' hroom]
    exact congrArg (parseAll num · r) (afterBody_more hpos hcount A C B)
end

/-! ## Whole texts -/

def docTokens (d : Doc) : List Tok := valueTokens d.root d.before.length

/-- **`jsmn_parse` finds the tokens of every text it has room for.** -/
theorem jsmnParse_text {num : Nat} {d : Doc} (hd : d.Wf raw) (room : (docTokens d).length ≤ num) :
    ∃ p, jsmnParse d.text num = .ok p ∧ p.tokens = docTokens d ∧ p.count = (docTokens d).length := by
  let p : Parser := { afterValue d.root { jsmnInit with pos := d.before.length } with
    pos := d.before.length + d.root.text.length + d.after.length }
  have hafter : Stops (fun c => isDelim c = false) d.after := by
    intro c s hc
    simp [isDelim_of_isWs (hd.after c (by rw [hc]; exact List.mem_cons_self))]
  have hrun : parseAll num jsmnInit d.text = .ok p := by
    rw [Doc.text, parseAll_blank hd.before, run_value num d.root _ _ hd.root hafter (by simp [SuperBelow, jsmnInit])
      (by simpa [jsmnInit, docTokens] using room), ← List.append_nil d.after, parseAll_blank hd.after]
    simp [parseAll, parseLoop, p, afterValue, jsmnInit]
  have htokens : p.tokens = docTokens d := by simp [p, afterValue, jsmnInit, bump, docTokens]
  have hclosed : findLast Tok.isOpen p.tokens = none := by
    rw [htokens, ← List.nil_append (docTokens d), findLast_append Tok.isOpen [] (docTokens d)
      (valueTokens_closed d.root _)]
    rfl
  refine ⟨p, ?_, htokens, by simp [p, afterValue, jsmnInit, docTokens]⟩
  rw [jsmnParse, hrun]
  simp [hclosed]

theorem json_le_raw : json.Le raw where
  char c h := by
    rintro rfl
    exact absurd (UInt8.le_iff_toNat_le.1 h) (by decide)
  prim t h := by
    obtain ⟨hlead, hall⟩ := lawful_json.lead t h, (isPrimByte_of_prim h).2
    refine ⟨hlead, fun c hc => ⟨(apart_of_isPrimByte (hall c hc)).1, ?_⟩⟩
    have := hall c hc
    simp only [isPrimByte, List.mem_cons, List.not_mem_nil, or_false, Bool.or_eq_true, Bool.and_eq_true,
      decide_eq_true_eq, UInt8.le_iff_toNat_le, ← UInt8.toNat_inj] at this
    simp only [UInt8.reduceToNat] at this
    omega

/-! ## No byte of a text is a terminator -/

theorem zero_not_mem_strBody {b : List Byte} (h : StrBody raw.char b) : 0 ∉ b := by
  have hhex : ∀ {c : Byte}, isHex c = true → 0 ≠ c := by rintro c h rfl; cases h
  induction h with
  | nil => simp
  | char h0 _ _ _ ih => exact List.not_mem_cons_of_ne_of_not_mem (Ne.symm h0) ih
  | escape hc _ ih =>
    refine List.not_mem_cons_of_ne_of_not_mem (by decide) (List.not_mem_cons_of_ne_of_not_mem ?_ ih)
    rintro rfl; cases hc
  | unicode e₁ e₂ e₃ e₄ _ ih =>
    simp only [List.mem_cons, not_or]
    exact ⟨by decide, by decide, hhex e₁, hhex e₂, hhex e₃, hhex e₄, ih⟩

theorem zero_not_mem_blank {w : List Byte} (h : Blank w) : 0 ∉ w := fun h0 => absurd (h 0 h0) (by decide)

theorem zero_not_mem_head {k : Kind} {h : Head} (hw : h.Wf raw k) : 0 ∉ h.text := by
  obtain ⟨before, key⟩ := h
  obtain ⟨hb, hk⟩ := hw
  match k, key, hk with
  | .object, some (s, a, b), ⟨hs, ha, hbl⟩ =>
    simp only [Head.text, List.mem_append, List.mem_cons, not_or]
    exact ⟨zero_not_mem_blank hb, by decide, zero_not_mem_strBody hs, by decide, zero_not_mem_blank ha, by decide,
      zero_not_mem_blank hbl⟩
  | .array, none, _ => simpa [Head.text] using zero_not_mem_blank hb

mutual
theorem zero_not_mem_text : ∀ {v : Value}, v.Wf raw → 0 ∉ v.text
  | .prim t, h => fun h0 => by
    have := (h.2 0 h0).2.1
    simp at this
  | .str b, h => by
    simp only [Value.text, List.mem_cons, List.mem_append, List.not_mem_nil, or_false, not_or]
    exact ⟨by decide, zero_not_mem_strBody h, by decide⟩
  | .box k body, h => by
    simp only [Value.text, List.mem_cons, List.mem_append, List.not_mem_nil, or_false, not_or]
    exact ⟨by cases k <;> decide, zero_not_mem_body h, by cases k <;> decide⟩
theorem zero_not_mem_body {k : Kind} : ∀ {body : Body}, body.Wf raw k → 0 ∉ body.text
  | .blank _, h => zero_not_mem_blank h
  | .items _, h => zero_not_mem_items h
theorem zero_not_mem_items {k : Kind} : ∀ {is : Items}, is.Wf raw k → 0 ∉ is.text
  | .last h v w, ⟨hh, hv, hw⟩ => by
    simp only [Items.text, List.mem_append, not_or]
    exact ⟨zero_not_mem_head hh, zero_not_mem_text hv, zero_not_mem_blank hw⟩
  | .more h v w rest, ⟨hh, hv, hw, hr⟩ => by
    simp only [Items.text, List.mem_append, List.mem_cons, not_or]
    exact ⟨zero_not_mem_head hh, zero_not_mem_text hv, zero_not_mem_blank hw, by decide, zero_not_mem_items hr⟩
end

theorem zero_not_mem_span {v : Value} (h : v.Wf raw) : 0 ∉ v.span := by
  cases v with
  | prim t => exact zero_not_mem_text h
  | str b => exact zero_not_mem_strBody h
  | box k body => exact zero_not_mem_text h

end Jsmn
end RtPay
