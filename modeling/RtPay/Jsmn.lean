import RtPay.Lib.JsonText
/-!
# Jsmn — jsmn.c

The tokenizer as the project builds it: not strict, without parent links.  The parser reads on in the suffix that
starts at `pos`; `toknext` is the number of tokens, a missing end is `none` for -1, and so is a missing `toksuper`.
-/
namespace RtPay
namespace Jsmn

open Bytes JsonText

inductive TokType
  | object
  | array
  | string
  | primitive
  deriving DecidableEq

structure Tok where
  type : TokType
  start : Nat
  stop : Option Nat
  size : Nat
  deriving DecidableEq

inductive Err
  | nomem
  | inval
  | part
  deriving DecidableEq

/-- `jsmn_parser` with the token array and the token count of `jsmn_parse`. -/
structure Parser where
  pos : Nat
  toksuper : Option Nat
  tokens : List Tok
  count : Nat
  deriving DecidableEq

def jsmnInit : Parser := ⟨0, none, [], 0⟩

def Tok.isOpen (t : Tok) : Bool := t.stop.isNone

def TokType.isBox : TokType → Bool
  | object | array => true
  | string | primitive => false

/-- The scan `for (i = toknext - 1; i >= 0; i--)`: the highest index of a token of the kind sought. -/
def findLast (P : Tok → Bool) : List Tok → Option Nat
  | [] => none
  | t :: ts =>
    match findLast P ts with
    | some i => some (i + 1)
    | none => if P t then some 0 else none

def bump (s : Option Nat) (ts : List Tok) : List Tok :=
  match s with
  | none => ts
  | some i => ts.modify i (fun t => { t with size := t.size + 1 })

/-- `jsmn_alloc_token` and `jsmn_fill_token`, then the counts of the caller. -/
def push (num : Nat) (p : Parser) (t : Tok) (pos : Nat) : Except Err Parser :=
  if num ≤ p.tokens.length then .error .nomem
  else .ok { pos := pos, toksuper := p.toksuper, tokens := bump p.toksuper (p.tokens ++ [t]), count := p.count + 1 }

def scanPrim : List Byte → Nat → Except Err (Nat × List Byte)
  | [], pos => .ok (pos, [])
  | c :: s, pos =>
    if c = 0 then .ok (pos, c :: s)
    else if isDelim c then .ok (pos, c :: s)
    else if c.toNat < 32 || 127 ≤ c.toNat then .error .inval
    else scanPrim s (pos + 1)

/-- The scan of `jsmn_parse_string` behind the opening quote, with the hex digits of a `\u` still to come: the position
of the closing quote and the suffix behind it. -/
def scanString : Nat → List Byte → Nat → Except Err (Nat × List Byte)
  | _, [], _ => .error .part
  | hex + 1, c :: s, pos =>
    if c = 0 then .error .part
    else if isHex c then scanString hex s (pos + 1)
    else .error .inval
  | 0, [c], pos => if c = 0x22 then .ok (pos, []) else .error .part
  | 0, c :: e :: s, pos =>
    if c = 0 then .error .part
    else if c = 0x22 then .ok (pos, e :: s)
    else if c = 0x5C then
      if isEscape e then scanString 0 s (pos + 2)
      else if e = 0x75 then scanString 4 s (pos + 2)
      else .error .inval
    else scanString 0 (e :: s) (pos + 1)

def jsmnParsePrimitive (num : Nat) (p : Parser) (js : List Byte) : Except Err (Parser × List Byte) := do
  let (stop, rest) ← scanPrim js p.pos
  let p ← push num p ⟨.primitive, p.pos, some stop, 0⟩ stop
  pure (p, rest)

def jsmnParseString (num : Nat) (p : Parser) (js : List Byte) : Except Err (Parser × List Byte) := do
  let (stop, rest) ← scanString 0 js (p.pos + 1)
  let p ← push num p ⟨.string, p.pos + 1, some stop, 0⟩ (stop + 1)
  pure (p, rest)

def openBox (num : Nat) (p : Parser) (type : TokType) : Except Err Parser := do
  let q ← push num p ⟨type, p.pos, none, 0⟩ (p.pos + 1)
  pure { q with toksuper := some (q.tokens.length - 1) }

def closeBox (p : Parser) (type : TokType) : Except Err Parser :=
  match findLast Tok.isOpen p.tokens with
  | none => .error .inval
  | some i =>
    if (p.tokens[i]?).map Tok.type = some type then
      .ok { p with
        pos := p.pos + 1
        tokens := p.tokens.modify i (fun t => { t with stop := some (p.pos + 1) })
        toksuper := findLast Tok.isOpen (p.tokens.take i) }
    else .error .inval

def comma (p : Parser) : Parser :=
  match p.toksuper with
  | none => { p with pos := p.pos + 1 }
  | some s =>
    if ((p.tokens[s]?).map (fun t => t.type.isBox)) = some false then
      match findLast (fun t => t.type.isBox && t.isOpen) p.tokens with
      | some i => { p with pos := p.pos + 1, toksuper := some i }
      | none => { p with pos := p.pos + 1 }
    else { p with pos := p.pos + 1 }

def colon (p : Parser) : Parser :=
  { p with pos := p.pos + 1, toksuper := if p.tokens.length = 0 then none else some (p.tokens.length - 1) }

/-- The `switch` of `jsmn_parse` on the byte `c` at `pos`, `js` behind it. -/
def jsmnStep (num : Nat) (p : Parser) (c : Byte) (js : List Byte) : Except Err (Parser × List Byte) :=
  if c = 0x7B then (openBox num p .object).map (·, js)
  else if c = 0x5B then (openBox num p .array).map (·, js)
  else if c = 0x7D then (closeBox p .object).map (·, js)
  else if c = 0x5D then (closeBox p .array).map (·, js)
  else if c = 0x22 then jsmnParseString num p js
  else if isWs c then .ok ({ p with pos := p.pos + 1 }, js)
  else if c = 0x3A then .ok (colon p, js)
  else if c = 0x2C then .ok (comma p, js)
  else jsmnParsePrimitive num p (c :: js)

/-- The loop of `jsmn_parse`; `fuel` bounds the bytes still to read. -/
def parseLoop (num : Nat) : Nat → Parser → List Byte → Except Err Parser
  | 0, p, _ => .ok p
  | _ + 1, p, [] => .ok p
  | fuel + 1, p, c :: js =>
    if c = 0 then .ok p
    else
      match jsmnStep num p c js with
      | .error e => .error e
      | .ok (p', js') => parseLoop num fuel p' js'

def parseAll (num : Nat) (p : Parser) (js : List Byte) : Except Err Parser := parseLoop num js.length p js

/-- `jsmn_parse`: the tokens, as many as the count it returns. -/
def jsmnParse (js : List Byte) (num : Nat) : Except Err Parser :=
  match parseAll num jsmnInit js with
  | .error e => .error e
  | .ok p => if (findLast Tok.isOpen p.tokens).isSome then .error .part else .ok p

/-! ## The loop reads every byte once -/

theorem length_scanPrim : ∀ (s : List Byte) (pos : Nat) {r : Nat × List Byte}, scanPrim s pos = .ok r →
    r.2.length ≤ s.length
  | [], _, _, h => by cases h; exact Nat.le_refl _
  | c :: s, pos, r, h => by
    rw [scanPrim] at h
    split at h
    · cases h; exact Nat.le_refl _
    · split at h
      · cases h; exact Nat.le_refl _
      · split at h
        · cases h
        · exact Nat.le_succ_of_le (length_scanPrim s _ h)

theorem length_scanString (hex : Nat) (s : List Byte) (pos : Nat) : ∀ {r : Nat × List Byte},
    scanString hex s pos = .ok r → r.2.length ≤ s.length := by
  induction hex, s, pos using scanString.induct with
  | case1 hex pos => intro r h; rw [scanString] at h; cases h
  | _ => grind [scanString]

theorem snd_of_map_ok {x : Except Err Parser} {js : List Byte} {q : Parser × List Byte}
    (h : x.map (·, js) = .ok q) : q.2 = js := by
  cases x with
  | error e => cases h
  | ok p => cases h; rfl

theorem length_jsmnParsePrimitive {num : Nat} {p : Parser} {c : Byte} {js : List Byte} (hc : c ≠ 0)
    (hd : isDelim c = false) {q : Parser × List Byte} (h : jsmnParsePrimitive num p (c :: js) = .ok q) :
    q.2.length ≤ js.length := by
  rw [jsmnParsePrimitive, scanPrim, if_neg hc, hd] at h
  simp only [Bool.false_eq_true, if_false] at h
  split at h
  · cases h
  · cases hs : scanPrim js (p.pos + 1) with
    | error e => rw [hs] at h; cases h
    | ok r =>
      rw [hs] at h
      cases hp : push num p ⟨.primitive, p.pos, some r.1, 0⟩ r.1 with
      | error e => simp only [bind, Except.bind, hp] at h; cases h
      | ok p' =>
        simp only [bind, Except.bind, hp, pure, Except.pure, Except.ok.injEq] at h
        subst h
        exact length_scanPrim js _ hs

theorem length_jsmnParseString {num : Nat} {p : Parser} {js : List Byte} {q : Parser × List Byte}
    (h : jsmnParseString num p js = .ok q) : q.2.length ≤ js.length := by
  rw [jsmnParseString] at h
  cases hs : scanString 0 js (p.pos + 1) with
  | error e => rw [hs] at h; cases h
  | ok r =>
    rw [hs] at h
    cases hp : push num p ⟨.string, p.pos + 1, some r.1, 0⟩ (r.1 + 1) with
    | error e => simp only [bind, Except.bind, hp] at h; cases h
    | ok p' =>
      simp only [bind, Except.bind, hp, pure, Except.pure, Except.ok.injEq] at h
      subst h
      exact length_scanString 0 js _ hs

theorem length_jsmnStep {num : Nat} {p : Parser} {c : Byte} {js : List Byte} (hc : c ≠ 0) {q : Parser × List Byte}
    (h : jsmnStep num p c js = .ok q) : q.2.length ≤ js.length := by
  unfold jsmnStep at h
  split at h
  · rw [snd_of_map_ok h]
  · split at h
    · rw [snd_of_map_ok h]
    · split at h
      · rw [snd_of_map_ok h]
      · split at h
        · rw [snd_of_map_ok h]
        · split at h
          · exact length_jsmnParseString h
          · split at h
            · cases h; exact Nat.le_refl _
            · split at h
              · cases h; exact Nat.le_refl _
              · split at h
                · cases h; exact Nat.le_refl _
                · refine length_jsmnParsePrimitive hc ?_ h
                  simp_all [isDelim]

theorem parseLoop_fuel (num : Nat) : ∀ (n m : Nat) (p : Parser) (js : List Byte), js.length ≤ n → js.length ≤ m →
    parseLoop num n p js = parseLoop num m p js
  | 0, 0, _, _, _, _ => rfl
  | 0, m + 1, p, [], _, _ => rfl
  | n + 1, 0, p, [], _, _ => rfl
  | n + 1, m + 1, p, [], _, _ => rfl
  | n + 1, m + 1, p, c :: js, hn, hm => by
    rw [parseLoop, parseLoop]
    split
    · rfl
    · rename_i hc
      cases hs : jsmnStep num p c js with
      | error e => rfl
      | ok q =>
        have hl := length_jsmnStep hc hs
        simp only [List.length_cons] at hn hm
        exact parseLoop_fuel num n m q.1 q.2 (by omega) (by omega)

/-- **One byte of the loop**, read off the whole of a suffix. -/
theorem parseAll_cons {num : Nat} {p q : Parser} {c : Byte} {js js' : List Byte} (hc : c ≠ 0)
    (h : jsmnStep num p c js = .ok (q, js')) : parseAll num p (c :: js) = parseAll num q js' := by
  rw [parseAll, List.length_cons, parseLoop, if_neg hc, h]
  exact parseLoop_fuel num _ _ q js' (length_jsmnStep hc h) (Nat.le_refl _)

end Jsmn
end RtPay
