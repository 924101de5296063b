import RtPay.JsmnTokens
import RtPay.MqttLink
/-!
# MqttPairs — the callbacks on any accepted payload

The pairs of an accepted payload are the texts of its keys and of the tokens behind them, read off the payload as it
came.  The loop zeroes a byte of the payload for each of them and still reads every later key and value as it came
(`keysLoop_pairs`), so it does what a loop over copies does (`copies_agree`).
-/
namespace RtPay
namespace MqttLink

open Bytes CStr JsonText Jsmn

/-! ## Keys and values of a payload -/

def isKey (t : Tok) : Prop := t.type = .string ∧ 0 < t.size

instance (t : Tok) : Decidable (isKey t) := inferInstanceAs (Decidable (_ ∧ _))

/-- The keys of a token array, each with the token behind it. -/
def keyPairs : List Tok → List (Tok × Tok)
  | [] => []
  | t :: ts =>
    if isKey t then
      match ts.head? with
      | none => keyPairs ts
      | some v => (t, v) :: keyPairs ts
    else keyPairs ts

def tokText (payload : List Byte) (t : Tok) : List Byte := peek payload t.start (tokLen t)

/-- The texts of the keys and of their values. -/
def textPairs (payload : List Byte) (toks : List Tok) : List (List Byte × List Byte) :=
  (keyPairs toks).map (fun kv => (tokText payload kv.1, tokText payload kv.2))

variable {σ : Type}

def setPairs (set : σ → List Byte → List Byte → Option σ) (ps : List (List Byte × List Byte)) (acc : σ) : Option σ :=
  ps.foldlM (fun acc kv => set acc kv.1 kv.2) acc

theorem mem_keyPairs {t v : Tok} : ∀ {ts : List Tok},
    (t, v) ∈ keyPairs ts ↔ ∃ i, ts[i]? = some t ∧ ts[i + 1]? = some v ∧ isKey t
  | [] => by simp [keyPairs]
  | u :: us => by
    have hshift : (∃ i, (u :: us)[i]? = some t ∧ (u :: us)[i + 1]? = some v ∧ isKey t) ↔
        (u = t ∧ us.head? = some v ∧ isKey t) ∨ (t, v) ∈ keyPairs us := by
      rw [mem_keyPairs, List.head?_eq_getElem?]
      constructor
      · rintro ⟨i, h1, h2, h3⟩
        cases i with
        | zero => exact Or.inl ⟨by simpa using h1, by simpa using h2, h3⟩
        | succ i => exact Or.inr ⟨i, by simpa using h1, by simpa using h2, h3⟩
      · rintro (⟨rfl, h2, h3⟩ | ⟨i, h1, h2, h3⟩)
        · exact ⟨0, rfl, by simpa using h2, h3⟩
        · exact ⟨i + 1, by simpa using h1, by simpa using h2, h3⟩
    rw [hshift, keyPairs]
    split
    · rename_i hk
      split
      · rename_i hh; simp [hh]
      · rename_i w hw
        simp only [List.mem_cons, Prod.mk.injEq, hw, Option.some.injEq]
        constructor
        · rintro (⟨rfl, rfl⟩ | h)
          · exact Or.inl ⟨rfl, rfl, hk⟩
          · exact Or.inr h
        · rintro (⟨rfl, rfl, -⟩ | h)
          · exact Or.inl ⟨rfl, rfl⟩
          · exact Or.inr h
    · rename_i hk
      constructor
      · exact Or.inr
      · rintro (⟨rfl, -, h⟩ | h)
        · exact absurd h hk
        · exact h

/-! ## A loop over copies -/

/-- The loop of a callback that copies each value into a buffer of its own, zero-terminated, and writes nothing into
the payload. -/
def copyLoop (onKey : σ → List Byte → Nat → List Byte → Nat → Option σ) (buf : List Byte) : List Tok → σ → Option σ
  | [], acc => some acc
  | t :: ts, acc =>
    if t.type = .string ∧ 0 < t.size then
      match ts.head? with
      | none => none
      | some v =>
        match onKey acc (buf.drop t.start) (tokLen t) (peek buf v.start (tokLen v) ++ [0]) (tokLen v) with
        | none => none
        | some acc => copyLoop onKey buf ts acc
    else copyLoop onKey buf ts acc

def copyCallback {ε : Type} (onKey : σ → List Byte → Nat → List Byte → Nat → Option σ) (zero : σ) (event : σ → ε)
    (payload tail : List Byte) : Option (List ε) :=
  match jsmnParse payload MQTT_MAX_JSON_TOKENS with
  | .error _ => some []
  | .ok p => (copyLoop onKey (payload ++ tail) (p.tokens.take p.count) zero).map (fun acc => [event acc])

/-! ## Texts of tokens -/

section Accepted

variable {num : Nat} {payload : List Byte} {p : Parser}

theorem zero_not_mem_tokText (hp : jsmnParse payload num = .ok p) {t : Tok} (ht : t ∈ p.tokens) :
    0 ∉ tokText payload t := by
  obtain ⟨s, r, rfl, hrun, -⟩ := run_of_jsmnParse hp
  obtain ⟨e, he, hle, -⟩ := stop_of_jsmnParse hp ht
  have hpos := hrun.pos_of_init
  have hin := (((ordered_of_jsmnParse hp).placed t ht).2.2.2 e he).2.1
  intro h0
  refine hrun.zero_not_mem ?_
  rw [tokText, peek, tokLen, he, Option.getD_some, List.drop_append_of_le_length (by omega),
    List.take_append_of_le_length (by rw [List.length_drop]; omega)] at h0
  exact List.mem_of_mem_drop (List.mem_of_mem_take h0)

theorem length_tokText (hp : jsmnParse payload num = .ok p) {t : Tok} (ht : t ∈ p.tokens) :
    (tokText payload t).length = tokLen t := by
  obtain ⟨e, he, hle, hin⟩ := stop_of_jsmnParse hp ht
  rw [tokText, peek, List.length_take, List.length_drop, tokLen, he, Option.getD_some]
  omega

/-- The bytes that differ from the payload as it came are ends of tokens up to `i`. -/
structure Zeroed (toks : List Tok) (i : Nat) (orig buf : List Byte) : Prop where
  length : buf.length = orig.length
  apart : ∀ j, (∀ a u, a ≤ i → toks[a]? = some u → u.stop ≠ some j) → buf[j]? = orig[j]?

theorem Zeroed.refl (toks : List Tok) (i : Nat) (orig : List Byte) : Zeroed toks i orig orig :=
  ⟨rfl, fun _ _ => rfl⟩

theorem Zeroed.mono {toks : List Tok} {i i' : Nat} {orig buf : List Byte} (h : Zeroed toks i orig buf) (hi : i ≤ i') :
    Zeroed toks i' orig buf :=
  ⟨h.length, fun j hj => h.apart j (fun a u ha => hj a u (Nat.le_trans ha hi))⟩

/-- A text is read as it came if no token up to `i` ends inside it. -/
theorem Zeroed.text {toks : List Tok} {i : Nat} {orig buf s : List Byte} (h : Zeroed toks i orig buf) {k : Nat}
    (hs : s <+: orig.drop k)
    (hclear : ∀ a u e, a ≤ i → toks[a]? = some u → u.stop = some e → e < k ∨ k + s.length ≤ e) :
    s <+: buf.drop k := by
  refine prefix_drop_congr hs (fun j h1 h2 => h.apart j (fun a u ha hu he => ?_))
  have := hclear a u j ha hu he
  omega

theorem tokText_prefix_drop (hp : jsmnParse payload num = .ok p) {t : Tok} (ht : t ∈ p.tokens) (tail : List Byte) :
    tokText payload t <+: (payload ++ tail).drop t.start := by
  obtain ⟨e, he, hle, hin⟩ := stop_of_jsmnParse hp ht
  rw [tokText, peek, List.drop_append_of_le_length (by omega)]
  exact (List.take_prefix _ _).trans (List.prefix_append _ _)

theorem stop_eq (hp : jsmnParse payload num = .ok p) {t : Tok} (ht : t ∈ p.tokens) :
    t.stop = some (t.start + tokLen t) := by
  obtain ⟨e, he, hle, -⟩ := stop_of_jsmnParse hp ht
  rw [tokLen, he, Option.getD_some]
  congr 1; omega

/-- **No earlier end falls into a key or its value.** -/
theorem clear_of_jsmnParse (hp : jsmnParse payload num = .ok p) {i : Nat} {t v : Tok} (ht : p.tokens[i]? = some t)
    (hk : isKey t) (hv : p.tokens[i + 1]? = some v) {a e : Nat} {u : Tok} (ha : a ≤ i) (hu : p.tokens[a]? = some u)
    (he : u.stop = some e) : (e < t.start ∨ t.start + tokLen t ≤ e) ∧ (e < v.start ∨ v.start + tokLen v ≤ e) := by
  have htv := stop_eq hp (List.mem_of_getElem? ht)
  have hvv := stop_eq hp (List.mem_of_getElem? hv)
  constructor
  · rcases Nat.lt_or_eq_of_le ha with hlt | rfl
    · have hapart := apart_of_lt (ordered_of_jsmnParse hp).apart hlt hu ht e he
      rcases hapart with hle | ⟨f, hf, hle⟩
      · have hpos := ((ordered_of_jsmnParse hp).placed t (List.mem_of_getElem? ht)).2.1 hk.1
        rw [Tok.origin, if_pos hk.1] at hle
        omega
      · rw [htv] at hf
        cases hf
        exact Or.inr (Nat.le_of_lt hle)
    · rw [ht] at hu
      cases hu
      rw [htv] at he
      cases he
      exact Or.inr (Nat.le_refl _)
  · obtain ⟨s, r, -, A, B, V, S, p₀, p₁, p₂, -, h⟩ := child_of_jsmnParse hp ht hk.1 hk.2
    rcases h.clear ha hu he hv with hle | ⟨f, hf, hle⟩
    · have hor := h.origin hv
      have := v.origin_le_start
      omega
    · rw [hvv] at hf
      cases hf
      exact Or.inr (Nat.le_of_lt hle)

theorem key_le_value (hp : jsmnParse payload num = .ok p) {i : Nat} {t v : Tok} (ht : p.tokens[i]? = some t)
    (hk : isKey t) (hv : p.tokens[i + 1]? = some v) : t.start + tokLen t ≤ v.start := by
  obtain ⟨s, r, -, A, B, V, S, p₀, p₁, p₂, -, h⟩ := child_of_jsmnParse hp ht hk.1 hk.2
  have hor := h.origin hv
  have hstop := h.key_stop ht hk.1 (stop_eq hp (List.mem_of_getElem? ht))
  have := v.origin_le_start
  omega

theorem next_of_isKey (hp : jsmnParse payload num = .ok p) {i : Nat} {t : Tok} (ht : p.tokens[i]? = some t)
    (hk : isKey t) : ∃ v, p.tokens[i + 1]? = some v := by
  obtain ⟨s, r, -, A, B, V, S, p₀, p₁, p₂, -, h⟩ := child_of_jsmnParse hp ht hk.1 hk.2
  exact h.exists_value

variable {onKey : σ → List Byte → Nat → List Byte → Nat → Option σ} {set : σ → List Byte → List Byte → Option σ}

/-- The terminator of a value is the end of its token. -/
theorem Zeroed.ended (hp : jsmnParse payload num = .ok p) {orig buf buf' : List Byte} {i : Nat} {v : Tok}
    (hz : Zeroed p.tokens i orig buf) (hv : p.tokens[i + 1]? = some v)
    (hpoke : poke buf (v.start + tokLen v) [0] = some buf') : Zeroed p.tokens (i + 1) orig buf' := by
  refine ⟨by rw [length_of_poke hpoke, hz.length], fun j hj => ?_⟩
  rw [getElem?_of_poke hpoke, if_neg, hz.apart j (fun a u ha => hj a u (Nat.le_succ_of_le ha))]
  intro h
  rw [List.length_singleton] at h
  exact hj (i + 1) v (Nat.le_refl _) hv (by rw [stop_eq hp (List.mem_of_getElem? hv)]; congr 1; omega)

/-- A chain reads a key and its value as they came, with a zero behind the value. -/
theorem Zeroed.read (hr : Reads onKey set) (hp : jsmnParse payload num = .ok p) {tail buf : List Byte} {i : Nat} {t v : Tok}
    (hz : Zeroed p.tokens (i + 1) (payload ++ tail) buf) (ht : p.tokens[i]? = some t) (hk : isKey t)
    (hv : p.tokens[i + 1]? = some v) (hzero : [0] <+: buf.drop (v.start + tokLen v)) (acc : σ) :
    onKey acc (buf.drop t.start) (tokLen t) (buf.drop v.start) (tokLen v) =
      set acc (tokText payload t) (tokText payload v) := by
  have hmt := List.mem_of_getElem? ht
  have hmv := List.mem_of_getElem? hv
  have hclear : ∀ a u e, a ≤ i + 1 → p.tokens[a]? = some u → u.stop = some e →
      (e < t.start ∨ t.start + tokLen t ≤ e) ∧ (e < v.start ∨ v.start + tokLen v ≤ e) := by
    intro a u e ha hu he
    rcases Nat.lt_or_eq_of_le ha with hlt | rfl
    · exact clear_of_jsmnParse hp ht hk hv (Nat.le_of_lt_succ hlt) hu he
    · rw [hv] at hu
      cases hu
      rw [stop_eq hp hmv] at he
      cases he
      have hle := key_le_value hp ht hk hv
      exact ⟨Or.inr (by omega), Or.inr (Nat.le_refl _)⟩
  have hkey : tokText payload t <+: buf.drop t.start := by
    refine hz.text (tokText_prefix_drop hp hmt _) (fun a u e ha hu he => ?_)
    rw [length_tokText hp hmt]
    exact (hclear a u e ha hu he).1
  have hval : tokText payload v <+: buf.drop v.start := by
    refine hz.text (tokText_prefix_drop hp hmv _) (fun a u e ha hu he => ?_)
    rw [length_tokText hp hmv]
    exact (hclear a u e ha hu he).2
  rw [← length_tokText hp hmv] at hzero
  have h := hr acc (tokText payload t) (tokText payload v) (buf.drop t.start) (buf.drop v.start)
    (zero_not_mem_tokText hp hmt) (zero_not_mem_tokText hp hmv) hkey (append_prefix_drop.2 ⟨hval, hzero⟩)
  rwa [length_tokText hp hmt, length_tokText hp hmv] at h

/-- One key of the loop: its value is ended, and both are read as they came. -/
theorem Zeroed.key (hr : Reads onKey set) (hp : jsmnParse payload num = .ok p) {b : Byte} {tail buf : List Byte}
    {i : Nat} {t v : Tok} (hz : Zeroed p.tokens i (payload ++ b :: tail) buf) (ht : p.tokens[i]? = some t)
    (hk : isKey t) (hv : p.tokens[i + 1]? = some v) (acc : σ) :
    ∃ buf', poke buf (v.start + tokLen v) [0] = some buf' ∧ Zeroed p.tokens (i + 1) (payload ++ b :: tail) buf' ∧
      onKey acc (buf'.drop t.start) (tokLen t) (buf'.drop v.start) (tokLen v) =
        set acc (tokText payload t) (tokText payload v) := by
  obtain ⟨f, hf, -, hin⟩ := stop_of_jsmnParse hp (List.mem_of_getElem? hv)
  rw [stop_eq hp (List.mem_of_getElem? hv)] at hf
  cases hf
  have hlen := hz.length
  rw [List.length_append, List.length_cons] at hlen
  obtain ⟨buf', hpoke⟩ : ∃ buf', poke buf (v.start + tokLen v) [0] = some buf' :=
    ⟨_, poke_of_le (by rw [List.length_singleton]; omega)⟩
  have hzero : [0] <+: buf'.drop (v.start + tokLen v) := by
    rw [List.prefix_iff_getElem?]
    intro j hj
    rw [List.length_singleton] at hj
    have hj : j = 0 := by omega
    subst hj
    rw [List.getElem?_drop, getElem?_of_poke hpoke, if_pos (by rw [List.length_singleton]; omega)]
    simp
  have hz := hz.ended hp hv hpoke
  exact ⟨buf', hpoke, hz, hz.read hr hp ht hk hv hzero acc⟩

theorem keyPairs_cons {t v : Tok} {ts : List Tok} (hk : isKey t) (hv : ts.head? = some v) :
    keyPairs (t :: ts) = (t, v) :: keyPairs ts := by
  rw [keyPairs, if_pos hk, hv]

theorem keyPairs_skip {t : Tok} (hk : ¬ isKey t) (ts : List Tok) : keyPairs (t :: ts) = keyPairs ts := by
  rw [keyPairs, if_neg hk]

/-- The token at an index and those behind it. -/
theorem drop_eq_cons {ts : List Tok} {i : Nat} {t : Tok} {us : List Tok} (h : ts.drop i = t :: us) :
    ts[i]? = some t ∧ ts.drop (i + 1) = us ∧ us.head? = ts[i + 1]? := by
  have hdrop : ts.drop (i + 1) = us := by rw [← List.drop_drop, h]; rfl
  refine ⟨?_, hdrop, ?_⟩
  · rw [← Nat.add_zero i, ← List.getElem?_drop, h]; rfl
  · rw [← hdrop, List.head?_drop]

/-- **The loop reads an accepted payload as it came.** -/
theorem keysLoop_pairs (hr : Reads onKey set) (hp : jsmnParse payload num = .ok p) (b : Byte) (tail : List Byte) :
    ∀ (ts : List Tok) (i : Nat), p.tokens.drop i = ts → ∀ (buf : List Byte) (acc : σ),
      Zeroed p.tokens i (payload ++ b :: tail) buf →
      keysLoop onKey ts buf acc = setPairs set (textPairs payload ts) acc
  | [], _, _, _, _, _ => rfl
  | t :: ts, i, hi, buf, acc, hz => by
    obtain ⟨ht, hdrop, hhead⟩ := drop_eq_cons hi
    rw [keysLoop]
    by_cases hk : t.type = .string ∧ 0 < t.size
    · obtain ⟨v, hv⟩ := next_of_isKey hp ht hk
      obtain ⟨buf', hpoke, hz', hread⟩ := hz.key hr hp ht hk hv acc
      rw [hv] at hhead
      rw [if_pos hk, hhead]
      simp only [hpoke, hread, textPairs, keyPairs_cons hk hhead, List.map_cons, setPairs, List.foldlM_cons]
      cases hset : set acc (tokText payload t) (tokText payload v) with
      | none => rfl
      | some acc' => exact keysLoop_pairs hr hp b tail ts (i + 1) hdrop buf' acc' hz'
    · rw [if_neg hk, keysLoop_pairs hr hp b tail ts (i + 1) hdrop buf acc (hz.mono (Nat.le_succ i)), textPairs, textPairs,
        keyPairs_skip hk]

theorem copyLoop_pairs (hr : Reads onKey set) (hp : jsmnParse payload num = .ok p) (tail : List Byte) :
    ∀ (ts : List Tok) (i : Nat), p.tokens.drop i = ts → ∀ (acc : σ),
      copyLoop onKey (payload ++ tail) ts acc = setPairs set (textPairs payload ts) acc
  | [], _, _, _ => rfl
  | t :: ts, i, hi, acc => by
    obtain ⟨ht, hdrop, hhead⟩ := drop_eq_cons hi
    rw [copyLoop]
    by_cases hk : t.type = .string ∧ 0 < t.size
    · obtain ⟨v, hv⟩ := next_of_isKey hp ht hk
      have hmt := List.mem_of_getElem? ht
      have hmv := List.mem_of_getElem? hv
      have hcopy : peek (payload ++ tail) v.start (tokLen v) = tokText payload v := by
        have hle := length_tokText hp hmv
        rw [← hle]
        exact (List.prefix_iff_eq_take.1 (tokText_prefix_drop hp hmv tail)).symm
      have hread : onKey acc ((payload ++ tail).drop t.start) (tokLen t) (tokText payload v ++ [0]) (tokLen v) =
          set acc (tokText payload t) (tokText payload v) := by
        have h := hr acc (tokText payload t) (tokText payload v) _ _ (zero_not_mem_tokText hp hmt)
          (zero_not_mem_tokText hp hmv) (tokText_prefix_drop hp hmt tail) (List.prefix_refl _)
        rwa [length_tokText hp hmt, length_tokText hp hmv] at h
      rw [hv] at hhead
      rw [if_pos hk, hhead]
      simp only [hcopy, hread, textPairs, keyPairs_cons hk hhead, List.map_cons, setPairs, List.foldlM_cons]
      cases hset : set acc (tokText payload t) (tokText payload v) with
      | none => rfl
      | some acc' => exact copyLoop_pairs hr hp tail ts (i + 1) hdrop acc'
    · rw [if_neg hk, copyLoop_pairs hr hp tail ts (i + 1) hdrop acc, textPairs, textPairs, keyPairs_skip hk]

theorem take_count (hp : jsmnParse payload num = .ok p) : p.tokens.take p.count = p.tokens := by
  rw [count_of_jsmnParse hp, List.take_length]

end Accepted

/-! ## The callbacks -/

section Callbacks

variable {ε : Type} {onKey : σ → List Byte → Nat → List Byte → Nat → Option σ}
  {set : σ → List Byte → List Byte → Option σ}

/-- **A callback on an accepted payload** with a byte behind it pushes the event of its pairs. -/
theorem mqttCallback_pairs (hr : Reads onKey set) (zero : σ) (event : σ → ε) {payload : List Byte} {p : Parser}
    (hp : jsmnParse payload MQTT_MAX_JSON_TOKENS = .ok p) (b : Byte) (tail : List Byte) :
    mqttCallback onKey zero event payload (b :: tail) =
      (setPairs set (textPairs payload p.tokens) zero).map (fun acc => [event acc]) := by
  rw [mqttCallback, hp]
  simp only [take_count hp]
  rw [keysLoop_pairs hr hp b tail p.tokens 0 rfl _ zero (Zeroed.refl _ _ _)]

theorem mqttCallback_copy (hr : Reads onKey set) (zero : σ) (event : σ → ε) (payload : List Byte) (b : Byte)
    (tail : List Byte) :
    mqttCallback onKey zero event payload (b :: tail) = copyCallback onKey zero event payload (b :: tail) := by
  cases hp : jsmnParse payload MQTT_MAX_JSON_TOKENS with
  | error e => rw [mqttCallback, copyCallback, hp]
  | ok p =>
    rw [mqttCallback_pairs hr zero event hp, copyCallback, hp]
    simp only [take_count hp]
    rw [copyLoop_pairs hr hp (b :: tail) p.tokens 0 rfl zero]

/-- A chain that only writes down what it is given: the bytes of the key, and the value up to its zero. -/
def noteKey (seen : List (List Byte × List Byte)) (key : List Byte) (keyLen : Nat) (value : List Byte)
    (_valueLen : Nat) : Option (List (List Byte × List Byte)) :=
  some (seen ++ [(key.take keyLen, value.takeWhile (· ≠ 0))])

theorem takeWhile_terminated {s value : List Byte} (hs : 0 ∉ s) (h : s ++ [0] <+: value) :
    value.takeWhile (· ≠ 0) = s := by
  obtain ⟨r, rfl⟩ := h
  rw [List.append_assoc, List.takeWhile_append_of_pos (fun c hc => by
    simpa using fun h0 : c = 0 => hs (h0 ▸ hc))]
  simp

theorem reads_note : Reads noteKey (fun seen k s => some (seen ++ [(k, s)])) := by
  intro seen k s key value hk hs hkey hvalue
  rw [noteKey, takeWhile_terminated hs hvalue, ← List.prefix_iff_eq_take.1 hkey]

theorem setPairs_note (ps : List (List Byte × List Byte)) : ∀ seen,
    setPairs (fun seen k s => some (seen ++ [(k, s)])) ps seen = some (seen ++ ps) := by
  induction ps with
  | nil => intro seen; simp [setPairs]
  | cons kv ps ih =>
    intro seen
    have h := ih (seen ++ [kv])
    simp only [setPairs] at h ⊢
    rw [List.foldlM_cons, Option.bind_eq_bind, Option.bind_some, h, List.append_assoc, List.singleton_append]

/-- **Zeroing the payload in place is not seen**: every key and every value the loop reads is as it came, and each
callback pushes what its variant over copies does. -/
theorem copies_agree (payload : List Byte) (b : Byte) (tail : List Byte) :
    (∀ p, jsmnParse payload MQTT_MAX_JSON_TOKENS = .ok p →
      keysLoop noteKey (p.tokens.take p.count) (payload ++ b :: tail) [] = some (textPairs payload p.tokens)) ∧
    mqttConfigCallback payload (b :: tail) = copyCallback onConfigKey ConfigEvt.zero Event.config payload (b :: tail) ∧
    mqttAddCoinsCallback payload (b :: tail) = copyCallback onCreditKey ⟨0, 0⟩ Event.credit payload (b :: tail) ∧
    mqttEnableCallback payload (b :: tail) = copyCallback onEnableKey ⟨0⟩ Event.enable payload (b :: tail) := by
  refine ⟨fun p hp => ?_, mqttCallback_copy reads_config _ _ _ _ _, mqttCallback_copy reads_credit _ _ _ _ _,
    mqttCallback_copy reads_enable _ _ _ _ _⟩
  rw [take_count hp, keysLoop_pairs reads_note hp b tail p.tokens 0 rfl _ [] (Zeroed.refl _ _ _), setPairs_note]
  rfl

end Callbacks

end MqttLink
end RtPay
