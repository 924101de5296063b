import RtPay.Lib.Bytes
/-!
# JsonText — JSON texts as layouts

A JSON text is the printing of a tree that keeps its layout: the blanks, the strings as they are written, the
primitives as they are written.  What a string or a primitive may look like is the lexical class `Lex` a tree is
well-formed over, so that one grammar serves the strict language (`json`) and a laxer reader.  Printing is injective
(`Doc.text_inj`): a text is the printing of one tree at most.
-/
namespace JsonText

open Bytes

/-! ## Bytes -/

def isWs (c : Byte) : Bool := c == 0x20 || c == 0x09 || c == 0x0A || c == 0x0D

def isDelim (c : Byte) : Bool := isWs c || c == 0x2C || c == 0x3A || c == 0x5D || c == 0x7D

def isHex (c : Byte) : Bool :=
  (0x30 ≤ c && c ≤ 0x39) || (0x41 ≤ c && c ≤ 0x46) || (0x61 ≤ c && c ≤ 0x66)

def isEscape (c : Byte) : Bool := c ∈ [0x22, 0x2F, 0x5C, 0x62, 0x66, 0x72, 0x6E, 0x74]

def Blank (w : List Byte) : Prop := ∀ c ∈ w, isWs c = true

/-- A text on which a scan of bytes of `P` stops at once. -/
def Stops (P : Byte → Prop) (r : List Byte) : Prop := ∀ c s, r = c :: s → ¬ P c

/-- The inside of a string literal, over the bytes that may stand for themselves. -/
inductive StrBody (ok : Byte → Prop) : List Byte → Prop
  | nil : StrBody ok []
  | char {c : Byte} {b : List Byte} : ok c → c ≠ 0x22 → c ≠ 0x5C → StrBody ok b → StrBody ok (c :: b)
  | escape {c : Byte} {b : List Byte} : isEscape c = true → StrBody ok b → StrBody ok (0x5C :: c :: b)
  | unicode {h₁ h₂ h₃ h₄ : Byte} {b : List Byte} : isHex h₁ = true → isHex h₂ = true → isHex h₃ = true →
      isHex h₄ = true → StrBody ok b → StrBody ok (0x5C :: 0x75 :: h₁ :: h₂ :: h₃ :: h₄ :: b)

/-- A lexical class: the bytes of a string that stand for themselves, and the primitives. -/
structure Lex where
  char : Byte → Prop
  prim : List Byte → Prop

/-- A primitive is not empty, starts with no bracket or quote, and holds no delimiter. -/
structure Lex.Lawful (L : Lex) : Prop where
  lead : ∀ t, L.prim t → ∃ c s, t = c :: s ∧ c ≠ 0x22 ∧ c ≠ 0x7B ∧ c ≠ 0x5B
  apart : ∀ t, L.prim t → ∀ c ∈ t, isDelim c = false

/-! ## Trees -/

inductive Kind
  | object
  | array
  deriving DecidableEq

def Kind.opening : Kind → Byte
  | object => 0x7B
  | array => 0x5B

def Kind.closing : Kind → Byte
  | object => 0x7D
  | array => 0x5D

/-- What stands before a value in a box: a blank and, in an object, the key with the blanks around its colon. -/
structure Head where
  before : List Byte
  key : Option (List Byte × List Byte × List Byte)

mutual
inductive Value
  | prim (t : List Byte)
  | str (b : List Byte)
  | box (k : Kind) (body : Body)
inductive Body
  | blank (w : List Byte)
  | items (is : Items)
inductive Items
  | last (h : Head) (v : Value) (w : List Byte)
  | more (h : Head) (v : Value) (w : List Byte) (rest : Items)
end

def Head.text (h : Head) : List Byte :=
  h.before ++ match h.key with
    | none => []
    | some (k, a, b) => 0x22 :: (k ++ 0x22 :: (a ++ 0x3A :: b))

mutual
def Value.text : Value → List Byte
  | .prim t => t
  | .str b => 0x22 :: (b ++ [0x22])
  | .box k body => k.opening :: (body.text ++ [k.closing])
def Body.text : Body → List Byte
  | .blank w => w
  | .items is => is.text
def Items.text : Items → List Byte
  | .last h v w => h.text ++ (v.text ++ w)
  | .more h v w rest => h.text ++ (v.text ++ (w ++ 0x2C :: rest.text))
end

def Head.Wf (L : Lex) (k : Kind) (h : Head) : Prop :=
  Blank h.before ∧ match k, h.key with
    | .object, some (s, a, b) => StrBody L.char s ∧ Blank a ∧ Blank b
    | .array, none => True
    | _, _ => False

mutual
def Value.Wf (L : Lex) : Value → Prop
  | .prim t => L.prim t
  | .str b => StrBody L.char b
  | .box k body => body.Wf L k
def Body.Wf (L : Lex) (k : Kind) : Body → Prop
  | .blank w => Blank w
  | .items is => is.Wf L k
def Items.Wf (L : Lex) (k : Kind) : Items → Prop
  | .last h v w => h.Wf L k ∧ v.Wf L ∧ Blank w
  | .more h v w rest => h.Wf L k ∧ v.Wf L ∧ Blank w ∧ rest.Wf L k
end

/-- A whole text: a value between blanks. -/
structure Doc where
  before : List Byte
  root : Value
  after : List Byte

def Doc.text (d : Doc) : List Byte := d.before ++ (d.root.text ++ d.after)

structure Doc.Wf (L : Lex) (d : Doc) : Prop where
  before : Blank d.before
  root : d.root.Wf L
  after : Blank d.after

/-! ## Members -/

def Value.span : Value → List Byte
  | .prim t => t
  | .str b => b
  | .box k body => (Value.box k body).text

/-- A key with its value, `depth` boxes below the root box. -/
structure Member where
  depth : Nat
  key : List Byte
  value : Value

def Head.member (h : Head) (d : Nat) (v : Value) : List Member :=
  match h.key with
  | none => []
  | some (k, _, _) => [⟨d, k, v⟩]

mutual
/-- The members of a value at every depth, in the order of their keys in the text. -/
def Value.members : Value → Nat → List Member
  | .prim _, _ => []
  | .str _, _ => []
  | .box _ body, d => body.members d
def Body.members : Body → Nat → List Member
  | .blank _, _ => []
  | .items is, d => is.members d
def Items.members : Items → Nat → List Member
  | .last h v _, d => h.member d v ++ v.members (d + 1)
  | .more h v _ rest, d => h.member d v ++ (v.members (d + 1) ++ rest.members d)
end

/-! ## The strict language -/

def Digits (ds : List Byte) : Prop := ds ≠ [] ∧ ∀ c ∈ ds, 0x30 ≤ c ∧ c ≤ 0x39

/-- `-?int frac? exp?`. -/
def Number (t : List Byte) : Prop :=
  ∃ sign int frac exp, t = sign ++ (int ++ (frac ++ exp)) ∧
    (sign = [] ∨ sign = [0x2D]) ∧
    (Digits int ∧ (int.head? = some 0x30 → int = [0x30])) ∧
    (frac = [] ∨ ∃ ds, frac = 0x2E :: ds ∧ Digits ds) ∧
    (exp = [] ∨ ∃ e s ds, exp = e :: (s ++ ds) ∧ (e = 0x65 ∨ e = 0x45) ∧ (s = [] ∨ s = [0x2B] ∨ s = [0x2D]) ∧ Digits ds)

/-- JSON: no control byte in a string, and numbers and the three names for primitives. -/
def json : Lex where
  char c := 0x20 ≤ c
  prim t := t = text "true" ∨ t = text "false" ∨ t = text "null" ∨ Number t

def isPrimByte (c : Byte) : Bool := (0x30 ≤ c && c ≤ 0x39) || (0x61 ≤ c && c ≤ 0x7A) || c ∈ [0x2B, 0x2D, 0x2E, 0x45]

theorem isPrimByte_of_digits {ds : List Byte} (h : Digits ds) : ∀ c ∈ ds, isPrimByte c = true := by
  intro c hc
  obtain ⟨h1, h2⟩ := h.2 c hc
  simp [isPrimByte, h1, h2]

theorem isPrimByte_of_number {t : List Byte} (h : Number t) : t ≠ [] ∧ ∀ c ∈ t, isPrimByte c = true := by
  obtain ⟨sign, int, frac, exp, rfl, hs, ⟨hi, -⟩, hf, he⟩ := h
  refine ⟨fun h0 => hi.1 (by simp only [List.append_eq_nil_iff] at h0; exact h0.2.1), fun c hc => ?_⟩
  simp only [List.mem_append] at hc
  rcases hc with hc | hc | hc | hc
  · rcases hs with rfl | rfl
    · cases hc
    · rw [List.mem_singleton.1 hc]; decide
  · exact isPrimByte_of_digits hi c hc
  · rcases hf with rfl | ⟨ds, rfl, hd⟩
    · cases hc
    · rcases List.mem_cons.1 hc with rfl | hc
      · decide
      · exact isPrimByte_of_digits hd c hc
  · rcases he with rfl | ⟨e, s, ds, rfl, he, hs, hd⟩
    · cases hc
    · rcases List.mem_cons.1 hc with rfl | hc
      · rcases he with rfl | rfl <;> decide
      · rcases List.mem_append.1 hc with hc | hc
        · rcases hs with rfl | rfl | rfl
          · cases hc
          · rw [List.mem_singleton.1 hc]; decide
          · rw [List.mem_singleton.1 hc]; decide
        · exact isPrimByte_of_digits hd c hc

theorem isPrimByte_of_prim {t : List Byte} (h : json.prim t) : t ≠ [] ∧ ∀ c ∈ t, isPrimByte c = true := by
  rcases h with rfl | rfl | rfl | h
  · decide
  · decide
  · decide
  · exact isPrimByte_of_number h

/-- No byte of a primitive is structural. -/
theorem apart_of_isPrimByte {c : Byte} (h : isPrimByte c = true) :
    isDelim c = false ∧ c ≠ 0x22 ∧ c ≠ 0x7B ∧ c ≠ 0x5B := by
  revert h
  simp only [isPrimByte, isDelim, isWs, List.mem_cons, List.not_mem_nil, or_false, Bool.or_eq_true, Bool.and_eq_true,
    decide_eq_true_eq, Bool.or_eq_false_iff, beq_eq_false_iff_ne, UInt8.le_iff_toNat_le, ← UInt8.toNat_inj, ne_eq]
  simp only [UInt8.reduceToNat]
  omega

theorem lawful_json : json.Lawful where
  lead t h := by
    obtain ⟨hne, hall⟩ := isPrimByte_of_prim h
    obtain ⟨c, s, rfl⟩ := List.exists_cons_of_ne_nil hne
    exact ⟨c, s, rfl, (apart_of_isPrimByte (hall c List.mem_cons_self)).2⟩
  apart t h c hc := (apart_of_isPrimByte ((isPrimByte_of_prim h).2 c hc)).1

theorem strBody_of_chars {ok : Byte → Prop} {b : List Byte} (h : ∀ c ∈ b, ok c ∧ c ≠ 0x22 ∧ c ≠ 0x5C) : StrBody ok b := by
  induction b with
  | nil => exact .nil
  | cons c b ih =>
    obtain ⟨hc, hq, hb⟩ := h c List.mem_cons_self
    exact .char hc hq hb (ih (fun d hd => h d (List.mem_cons_of_mem _ hd)))

theorem prim_of_digits {t : List Byte} (ht : Digits t) (h0 : t.head? = some 0x30 → t = [0x30]) : json.prim t :=
  Or.inr (Or.inr (Or.inr ⟨[], t, [], [], by simp, Or.inl rfl, ⟨ht, h0⟩, Or.inl rfl, Or.inl rfl⟩))

/-! ## A laxer class -/

theorem StrBody.mono {ok ok' : Byte → Prop} (h : ∀ c, ok c → ok' c) {b : List Byte} (hb : StrBody ok b) :
    StrBody ok' b := by
  induction hb with
  | nil => exact .nil
  | char hc hq hb _ ih => exact .char (h _ hc) hq hb ih
  | escape hc _ ih => exact .escape hc ih
  | unicode h₁ h₂ h₃ h₄ _ ih => exact .unicode h₁ h₂ h₃ h₄ ih

structure Lex.Le (L L' : Lex) : Prop where
  char : ∀ c, L.char c → L'.char c
  prim : ∀ t, L.prim t → L'.prim t

theorem Head.Wf.mono {L L' : Lex} (hL : L.Le L') {k : Kind} {h : Head} (hw : h.Wf L k) : h.Wf L' k := by
  obtain ⟨before, key⟩ := h
  obtain ⟨hb, hk⟩ := hw
  refine ⟨hb, ?_⟩
  match k, key, hk with
  | .object, some (s, a, b), ⟨hs, ha, hbl⟩ => exact ⟨hs.mono hL.char, ha, hbl⟩
  | .array, none, _ => trivial

mutual
theorem Value.Wf.mono {L L' : Lex} (hL : L.Le L') : ∀ {v : Value}, v.Wf L → v.Wf L'
  | .prim t, h => hL.prim t h
  | .str _, h => StrBody.mono hL.char h
  | .box _ _, h => Body.Wf.mono hL h
theorem Body.Wf.mono {L L' : Lex} (hL : L.Le L') {k : Kind} : ∀ {body : Body}, body.Wf L k → body.Wf L' k
  | .blank _, h => h
  | .items _, h => Items.Wf.mono hL h
theorem Items.Wf.mono {L L' : Lex} (hL : L.Le L') {k : Kind} : ∀ {is : Items}, is.Wf L k → is.Wf L' k
  | .last _ _ _, ⟨hh, hv, hw⟩ => ⟨hh.mono hL, Value.Wf.mono hL hv, hw⟩
  | .more _ _ _ _, ⟨hh, hv, hw, hr⟩ => ⟨hh.mono hL, Value.Wf.mono hL hv, hw, Items.Wf.mono hL hr⟩
end

theorem Doc.Wf.mono {L L' : Lex} (hL : L.Le L') {d : Doc} (hd : d.Wf L) : d.Wf L' :=
  ⟨hd.before, Value.Wf.mono hL hd.root, hd.after⟩

/-! ## Reading a text back -/

/-- A maximal run of bytes of `P` is found again. -/
theorem span_inj (P : Byte → Prop) : ∀ (w w' : List Byte) {r r' : List Byte}, (∀ c ∈ w, P c) → (∀ c ∈ w', P c) →
    Stops P r → Stops P r' → w ++ r = w' ++ r' → w = w' ∧ r = r'
  | [], [], _, _, _, _, _, _, h => ⟨rfl, h⟩
  | [], c :: w', _, _, _, hw', hr, _, h => absurd (hw' c List.mem_cons_self) (hr c _ h)
  | c :: w, [], _, _, hw, _, _, hr', h => absurd (hw c List.mem_cons_self) (hr' c _ h.symm)
  | c :: w, c' :: w', _, _, hw, hw', hr, hr', h => by
    obtain ⟨rfl, ht⟩ := List.cons.inj h
    obtain ⟨rfl, rfl⟩ := span_inj P w w' (fun d hd => hw d (List.mem_cons_of_mem _ hd))
      (fun d hd => hw' d (List.mem_cons_of_mem _ hd)) hr hr' ht
    exact ⟨rfl, rfl⟩

theorem stops_cons {P : Byte → Prop} {c : Byte} {s : List Byte} (h : ¬ P c) : Stops P (c :: s) := by
  intro d t hd
  obtain ⟨rfl, -⟩ := List.cons.inj hd
  exact h

/-- A string ends at its first quote that no backslash escapes. -/
theorem strBody_inj {ok : Byte → Prop} {b : List Byte} (h : StrBody ok b) : ∀ {b' r r' : List Byte}, StrBody ok b' →
    b ++ 0x22 :: r = b' ++ 0x22 :: r' → b = b' ∧ r = r' := by
  induction h with
  | nil =>
    intro b' r r' h' he
    cases h' with
    | nil => exact ⟨rfl, (List.cons.inj he).2⟩
    | char _ hq _ _ => exact absurd (List.cons.inj he).1.symm hq
    | escape _ _ => exact absurd (List.cons.inj he).1 (by decide)
    | unicode _ _ _ _ _ => exact absurd (List.cons.inj he).1 (by decide)
  | @char c b _ hq hb _ ih =>
    intro b' r r' h' he
    cases h' with
    | nil => exact absurd (List.cons.inj he).1 hq
    | char _ _ _ h' =>
      obtain ⟨rfl, ht⟩ := List.cons.inj he
      obtain ⟨rfl, rfl⟩ := ih h' ht
      exact ⟨rfl, rfl⟩
    | escape _ _ => exact absurd (List.cons.inj he).1 hb
    | unicode _ _ _ _ _ => exact absurd (List.cons.inj he).1 hb
  | escape hc _ ih =>
    intro b' r r' h' he
    cases h' with
    | nil => exact absurd (List.cons.inj he).1 (by decide)
    | char _ _ hb _ => exact absurd (List.cons.inj he).1.symm hb
    | escape _ h' =>
      obtain ⟨rfl, ht⟩ := List.cons.inj (List.cons.inj he).2
      obtain ⟨rfl, rfl⟩ := ih h' ht
      exact ⟨rfl, rfl⟩
    | unicode _ _ _ _ _ =>
      obtain ⟨rfl, -⟩ := List.cons.inj (List.cons.inj he).2
      exact absurd hc (by decide)
  | unicode _ _ _ _ _ ih =>
    intro b' r r' h' he
    cases h' with
    | nil => exact absurd (List.cons.inj he).1 (by decide)
    | char _ _ hb _ => exact absurd (List.cons.inj he).1.symm hb
    | escape hc _ =>
      obtain ⟨rfl, -⟩ := List.cons.inj (List.cons.inj he).2
      exact absurd hc (by decide)
    | unicode _ _ _ _ h' =>
      simp only [List.cons_append, List.cons.injEq, true_and] at he
      obtain ⟨rfl, rfl, rfl, rfl, ht⟩ := he
      obtain ⟨rfl, rfl⟩ := ih h' ht
      exact ⟨rfl, rfl⟩

def Value.Lead : Value → Byte → Prop
  | .prim _, c => c ≠ 0x22 ∧ c ≠ 0x7B ∧ c ≠ 0x5B ∧ isDelim c = false
  | .str _, c => c = 0x22
  | .box k _, c => c = k.opening

theorem Value.text_lead {L : Lex} (hL : L.Lawful) {v : Value} (hv : v.Wf L) : ∃ c s, v.text = c :: s ∧ v.Lead c := by
  cases v with
  | prim t =>
    obtain ⟨c, s, rfl, h1, h2, h3⟩ := hL.lead t hv
    exact ⟨c, s, rfl, h1, h2, h3, hL.apart _ hv c List.mem_cons_self⟩
  | str b => exact ⟨_, _, by rw [Value.text], rfl⟩
  | box k body => exact ⟨_, _, by rw [Value.text], rfl⟩

theorem isDelim_of_lead {v : Value} {c : Byte} (h : v.Lead c) : isDelim c = false := by
  cases v with
  | prim t => exact h.2.2.2
  | str b => rw [show c = 0x22 from h]; decide
  | box k body => rw [show c = k.opening from h]; cases k <;> decide

theorem isWs_of_not_delim {c : Byte} (h : isDelim c = false) : isWs c = false := by
  simp only [isDelim, Bool.or_eq_false_iff] at h
  exact h.1.1.1.1

theorem isDelim_of_isWs {c : Byte} (h : isWs c = true) : isDelim c = true := by
  simp [isDelim, h]

theorem isDelim_closing (k : Kind) : isDelim k.closing = true ∧ isWs k.closing = false := by
  cases k <;> decide

/-- A primitive stops at a blank or at a delimiter after it. -/
theorem stops_blank {w : List Byte} (hw : Blank w) {c : Byte} (hc : isDelim c = true) (s : List Byte) :
    Stops (fun c => isDelim c = false) (w ++ c :: s) := by
  cases w with
  | nil => exact stops_cons (by simp [hc])
  | cons d w => exact stops_cons (by simp [isDelim_of_isWs (hw d List.mem_cons_self)])

theorem Head.text_inj {L : Lex} {k : Kind} {h h' : Head} (hw : h.Wf L k) (hw' : h'.Wf L k) {r r' : List Byte}
    (hr : Stops (fun c => isWs c = true) r) (hr' : Stops (fun c => isWs c = true) r')
    (he : h.text ++ r = h'.text ++ r') : h = h' ∧ r = r' := by
  obtain ⟨before, key⟩ := h
  obtain ⟨before', key'⟩ := h'
  obtain ⟨hb, hk⟩ := hw
  obtain ⟨hb', hk'⟩ := hw'
  simp only at hb hb'
  cases k with
  | object =>
    match key, key', hk, hk' with
    | some (s, a, b), some (s', a', b'), ⟨hs, ha, hbl⟩, ⟨hs', ha', hbl'⟩ =>
      simp only [Head.text, List.append_assoc, List.cons_append] at he
      obtain ⟨rfl, h1⟩ := span_inj _ _ _ hb hb' (stops_cons (by decide)) (stops_cons (by decide)) he
      obtain ⟨rfl, h2⟩ := strBody_inj hs hs' (List.cons.inj h1).2
      obtain ⟨rfl, h3⟩ := span_inj _ _ _ ha ha' (stops_cons (by decide)) (stops_cons (by decide)) h2
      obtain ⟨rfl, rfl⟩ := span_inj _ _ _ hbl hbl' hr hr' (List.cons.inj h3).2
      exact ⟨rfl, rfl⟩
    | none, _, hk, _ => exact absurd hk id
    | some _, none, _, hk' => exact absurd hk' id
  | array =>
    match key, key', hk, hk' with
    | none, none, _, _ =>
      simp only [Head.text, List.append_nil] at he
      obtain ⟨rfl, rfl⟩ := span_inj _ _ _ hb hb' hr hr' he
      exact ⟨rfl, rfl⟩
    | some _, _, hk, _ => exact absurd hk id
    | none, some _, _, hk' => exact absurd hk' id

/-- A text of items starts with a blank and then neither a blank nor a closing bracket. -/
theorem Items.text_lead {L : Lex} (hL : L.Lawful) {k : Kind} {is : Items} (hw : is.Wf L k) :
    ∃ w c s, is.text = w ++ c :: s ∧ Blank w ∧ isDelim c = false := by
  have hone : ∀ (h : Head) (v : Value) (r : List Byte), h.Wf L k → v.Wf L →
      ∃ w c s, h.text ++ (v.text ++ r) = w ++ c :: s ∧ Blank w ∧ isDelim c = false := by
    intro h v r hh hv
    obtain ⟨c, s, hc, hlead⟩ := Value.text_lead hL hv
    obtain ⟨before, key⟩ := h
    obtain ⟨hb, hk⟩ := hh
    match key with
    | none => exact ⟨before, c, s ++ r, by simp [Head.text, hc], hb, isDelim_of_lead hlead⟩
    | some (s', a, b) => exact ⟨before, 0x22, _, by simp [Head.text]; rfl, hb, by decide⟩
  cases is with
  | last h v w => exact hone h v w hw.1 hw.2.1
  | more h v w rest => exact hone h v _ hw.1 hw.2.1

theorem stops_lead {L : Lex} (hL : L.Lawful) {v : Value} (hv : v.Wf L) (r : List Byte) :
    Stops (fun c => isWs c = true) (v.text ++ r) := by
  obtain ⟨c, s, hc, hlead⟩ := Value.text_lead hL hv
  rw [hc]
  exact stops_cons (by simp [isWs_of_not_delim (isDelim_of_lead hlead)])

theorem stops_closing (k : Kind) (r : List Byte) : Stops (fun c => isWs c = true) (k.closing :: r) :=
  stops_cons (by simp [(isDelim_closing k).2])

mutual
theorem Value.text_inj {L : Lex} (hL : L.Lawful) : ∀ (v v' : Value) {r r' : List Byte}, v.Wf L → v'.Wf L →
    Stops (fun c => isDelim c = false) r → Stops (fun c => isDelim c = false) r' →
    v.text ++ r = v'.text ++ r' → v = v' ∧ r = r'
  | .prim t, v', r, r', hv, hv', hr, hr', he => by
    cases v' with
    | prim t' =>
      obtain ⟨rfl, rfl⟩ := span_inj _ t t' (hL.apart t hv) (hL.apart t' hv') hr hr' he
      exact ⟨rfl, rfl⟩
    | str b =>
      obtain ⟨c, s, rfl, h1, -⟩ := hL.lead t hv
      exact absurd (List.cons.inj he).1 h1
    | box k body =>
      obtain ⟨c, s, rfl, -, h2, h3⟩ := hL.lead t hv
      cases k with
      | object => exact absurd (List.cons.inj he).1 h2
      | array => exact absurd (List.cons.inj he).1 h3
  | .str b, v', r, r', hv, hv', hr, hr', he => by
    cases v' with
    | prim t' =>
      obtain ⟨c, s, rfl, h1, -⟩ := hL.lead t' hv'
      exact absurd (List.cons.inj he).1.symm h1
    | str b' =>
      simp only [Value.text, List.cons_append, List.append_assoc, List.cons.injEq, true_and] at he
      obtain ⟨rfl, ht⟩ := strBody_inj hv hv' he
      exact ⟨rfl, ht⟩
    | box k body => exact absurd (List.cons.inj he).1 (by cases k <;> decide)
  | .box k body, v', r, r', hv, hv', hr, hr', he => by
    cases v' with
    | prim t' =>
      obtain ⟨c, s, rfl, -, h2, h3⟩ := hL.lead t' hv'
      cases k with
      | object => exact absurd (List.cons.inj he).1.symm h2
      | array => exact absurd (List.cons.inj he).1.symm h3
    | str b' => exact absurd (List.cons.inj he).1 (by cases k <;> decide)
    | box k' body' =>
      simp only [Value.text, List.cons_append, List.append_assoc, List.cons.injEq] at he
      have hk : k = k' := by
        cases k <;> cases k' <;> first | rfl | exact absurd he.1 (by decide)
      subst hk
      obtain ⟨rfl, rfl⟩ := Body.text_inj hL k body body' hv hv' he.2
      exact ⟨rfl, rfl⟩

theorem Body.text_inj {L : Lex} (hL : L.Lawful) (k : Kind) : ∀ (body body' : Body) {r r' : List Byte}, body.Wf L k →
    body'.Wf L k → body.text ++ k.closing :: r = body'.text ++ k.closing :: r' → body = body' ∧ r = r'
  | .blank w, body', r, r', hw, hw', he => by
    cases body' with
    | blank w' =>
      obtain ⟨rfl, hs⟩ := span_inj _ w w' hw hw' (stops_closing k r) (stops_closing k r') he
      exact ⟨rfl, (List.cons.inj hs).2⟩
    | items is' =>
      obtain ⟨u, c, s, ht, hu, hc⟩ := Items.text_lead hL hw'
      simp only [Body.text, ht, List.append_assoc, List.cons_append] at he
      obtain ⟨rfl, hs⟩ := span_inj _ w u hw hu (stops_closing k r) (stops_cons (by simp [isWs_of_not_delim hc])) he
      have := (isDelim_closing k).1
      rw [(List.cons.inj hs).1, hc] at this
      cases this
  | .items is, body', r, r', hw, hw', he => by
    cases body' with
    | blank w' =>
      obtain ⟨u, c, s, ht, hu, hc⟩ := Items.text_lead hL hw
      simp only [Body.text, ht, List.append_assoc, List.cons_append] at he
      obtain ⟨rfl, hs⟩ := span_inj _ u w' hu hw' (stops_cons (by simp [isWs_of_not_delim hc])) (stops_closing k r') he
      have := (isDelim_closing k).1
      rw [← (List.cons.inj hs).1, hc] at this
      cases this
    | items is' =>
      obtain ⟨rfl, rfl⟩ := Items.text_inj hL k is is' hw hw' he
      exact ⟨rfl, rfl⟩

theorem Items.text_inj {L : Lex} (hL : L.Lawful) (k : Kind) : ∀ (is is' : Items) {r r' : List Byte}, is.Wf L k →
    is'.Wf L k → is.text ++ k.closing :: r = is'.text ++ k.closing :: r' → is = is' ∧ r = r'
  | .last h v w, is', r, r', hw, hw', he => by
    obtain ⟨hh, hv, hb⟩ := hw
    cases is' with
    | last h' v' w' =>
      obtain ⟨hh', hv', hb'⟩ := hw'
      simp only [Items.text, List.append_assoc] at he
      obtain ⟨rfl, h1⟩ := Head.text_inj hh hh' (stops_lead hL hv _) (stops_lead hL hv' _) he
      obtain ⟨rfl, h2⟩ := Value.text_inj hL v v' hv hv' (stops_blank hb (isDelim_closing k).1 r)
        (stops_blank hb' (isDelim_closing k).1 r') h1
      obtain ⟨rfl, h3⟩ := span_inj _ w w' hb hb' (stops_closing k r) (stops_closing k r') h2
      exact ⟨rfl, (List.cons.inj h3).2⟩
    | more h' v' w' rest' =>
      obtain ⟨hh', hv', hb', -⟩ := hw'
      simp only [Items.text, List.append_assoc, List.cons_append] at he
      obtain ⟨rfl, h1⟩ := Head.text_inj hh hh' (stops_lead hL hv _) (stops_lead hL hv' _) he
      obtain ⟨rfl, h2⟩ := Value.text_inj hL v v' hv hv' (stops_blank hb (isDelim_closing k).1 r)
        (stops_blank hb' (by decide) _) h1
      obtain ⟨rfl, h3⟩ := span_inj _ w w' hb hb' (stops_closing k r) (stops_cons (by decide)) h2
      exact absurd (List.cons.inj h3).1 (by cases k <;> decide)
  | .more h v w rest, is', r, r', hw, hw', he => by
    obtain ⟨hh, hv, hb, hrest⟩ := hw
    cases is' with
    | last h' v' w' =>
      obtain ⟨hh', hv', hb'⟩ := hw'
      simp only [Items.text, List.append_assoc, List.cons_append] at he
      obtain ⟨rfl, h1⟩ := Head.text_inj hh hh' (stops_lead hL hv _) (stops_lead hL hv' _) he
      obtain ⟨rfl, h2⟩ := Value.text_inj hL v v' hv hv' (stops_blank hb (by decide) _)
        (stops_blank hb' (isDelim_closing k).1 r') h1
      obtain ⟨rfl, h3⟩ := span_inj _ w w' hb hb' (stops_cons (by decide)) (stops_closing k r') h2
      exact absurd (List.cons.inj h3).1 (by cases k <;> decide)
    | more h' v' w' rest' =>
      obtain ⟨hh', hv', hb', hrest'⟩ := hw'
      simp only [Items.text, List.append_assoc, List.cons_append] at he
      obtain ⟨rfl, h1⟩ := Head.text_inj hh hh' (stops_lead hL hv _) (stops_lead hL hv' _) he
      obtain ⟨rfl, h2⟩ := Value.text_inj hL v v' hv hv' (stops_blank hb (by decide) _)
        (stops_blank hb' (by decide) _) h1
      obtain ⟨rfl, h3⟩ := span_inj _ w w' hb hb' (stops_cons (by decide)) (stops_cons (by decide)) h2
      obtain ⟨rfl, rfl⟩ := Items.text_inj hL k rest rest' hrest hrest' (List.cons.inj h3).2
      exact ⟨rfl, rfl⟩
end

/-- **A text is the printing of one tree at most.** -/
theorem Doc.text_inj {L : Lex} (hL : L.Lawful) {d d' : Doc} (hd : d.Wf L) (hd' : d'.Wf L) (he : d.text = d'.text) :
    d = d' := by
  have hafter : ∀ {w : List Byte}, Blank w → Stops (fun c => isDelim c = false) w := by
    intro w hw c s hc
    simp [isDelim_of_isWs (hw c (by rw [hc]; exact List.mem_cons_self))]
  obtain ⟨hb, he⟩ := span_inj _ _ _ hd.before hd'.before (stops_lead hL hd.root _) (stops_lead hL hd'.root _) he
  obtain ⟨hr, ha⟩ := Value.text_inj hL _ _ hd.root hd'.root (hafter hd.after) (hafter hd'.after) he
  cases d; cases d'
  simp only at hb hr ha
  rw [hb, hr, ha]

end JsonText
