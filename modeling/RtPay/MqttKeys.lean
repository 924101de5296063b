import RtPay.JsmnRuns
/-!
# MqttKeys — the loop the three callbacks share

Each callback of mqtt_link.c walks the tokens of its payload, ends every keyed value by a zero written into the payload
itself, and hands key and value to the `strncmp` chain of its fields.  On a printed tree the loop reads each key and
each value as it was printed, whatever was zeroed before: it is a fold over the members at every depth
(`keysLoop_doc`).
-/
namespace RtPay
namespace MqttLink

open Bytes JsonText Jsmn

def MQTT_MAX_JSON_TOKENS : Nat := 16

def tokLen (t : Tok) : Nat := t.stop.getD 0 - t.start

variable {σ : Type}

/-- The loop over the tokens: `onKey` gets the key, its length, the terminated value and its length.  A key without a
next token, and a terminator past the end of the buffer, have no defined outcome. -/
def keysLoop (onKey : σ → List Byte → Nat → List Byte → Nat → Option σ) : List Tok → List Byte → σ → Option σ
  | [], _, acc => some acc
  | t :: ts, buf, acc =>
    if t.type = .string ∧ 0 < t.size then
      match ts.head? with
      | none => none
      | some v =>
        match poke buf (v.start + tokLen v) [0] with
        | none => none
        | some buf =>
          match onKey acc (buf.drop t.start) (tokLen t) (buf.drop v.start) (tokLen v) with
          | none => none
          | some acc => keysLoop onKey ts buf acc
    else keysLoop onKey ts buf acc

/-- What the callbacks do with a payload: nothing when jsmn refuses it, else the loop and one event.  `tail` is what
lies behind the payload in the receive buffer. -/
def mqttCallback {ε : Type} (onKey : σ → List Byte → Nat → List Byte → Nat → Option σ) (zero : σ) (event : σ → ε)
    (payload tail : List Byte) : Option (List ε) :=
  match jsmnParse payload MQTT_MAX_JSON_TOKENS with
  | .error _ => some []
  | .ok p => (keysLoop onKey (p.tokens.take p.count) (payload ++ tail) zero).map (fun acc => [event acc])

/-- `onKey` is `set` on the key and the value themselves, wherever they lie. -/
def Reads (onKey : σ → List Byte → Nat → List Byte → Nat → Option σ) (set : σ → List Byte → List Byte → Option σ) : Prop :=
  ∀ (acc : σ) (k s key value : List Byte), 0 ∉ k → 0 ∉ s → k <+: key → s ++ [0] <+: value →
    onKey acc key k.length value s.length = set acc k s

def setMembers (set : σ → List Byte → List Byte → Option σ) (ms : List Member) (acc : σ) : Option σ :=
  ms.foldlM (fun acc m => set acc m.key m.value.span) acc

theorem setMembers_append (set : σ → List Byte → List Byte → Option σ) (ms ns : List Member) (acc : σ) :
    setMembers set (ms ++ ns) acc = (setMembers set ms acc).bind (setMembers set ns) :=
  List.foldlM_append

/-- Nothing outside `[lo, hi)` is written. -/
structure Framed (buf buf' : List Byte) (lo hi : Nat) : Prop where
  length : buf'.length = buf.length
  apart : ∀ i, i < lo ∨ hi ≤ i → buf'[i]? = buf[i]?

theorem Framed.refl (buf : List Byte) (lo hi : Nat) : Framed buf buf lo hi := ⟨rfl, fun _ _ => rfl⟩

theorem Framed.trans {a b c : List Byte} {lo hi lo' hi' : Nat} (h₁ : Framed a b lo hi) (h₂ : Framed b c lo' hi')
    {lo'' hi'' : Nat} (h : lo'' ≤ lo ∧ lo'' ≤ lo' ∧ hi ≤ hi'' ∧ hi' ≤ hi'') : Framed a c lo'' hi'' :=
  ⟨by rw [h₂.length, h₁.length], fun i hi => by rw [h₂.apart i (by omega), h₁.apart i (by omega)]⟩

theorem Framed.weaken {a b : List Byte} {lo hi lo' hi' : Nat} (h : Framed a b lo hi) (hle : lo' ≤ lo ∧ hi ≤ hi') :
    Framed a b lo' hi' :=
  ⟨h.length, fun i hi => h.apart i (by omega)⟩

theorem Framed.text {a b s : List Byte} {lo hi i : Nat} (h : Framed a b lo hi) (hs : s <+: a.drop i)
    (hi : i + s.length ≤ lo ∨ hi ≤ i) : s <+: b.drop i :=
  prefix_drop_congr hs (fun j h1 h2 => h.apart j (by omega))

/-- The loop over `toks` is the fold over `ms`, and writes inside `[lo, hi)` only. -/
def Walks (onKey : σ → List Byte → Nat → List Byte → Nat → Option σ) (set : σ → List Byte → List Byte → Option σ)
    (toks : List Tok) (ms : List Member) (buf : List Byte) (lo hi : Nat) : Prop :=
  ∀ (ts : List Tok) (acc : σ), ∃ buf', Framed buf buf' lo hi ∧
    keysLoop onKey (toks ++ ts) buf acc = (setMembers set ms acc).bind (keysLoop onKey ts buf')

section

variable {onKey : σ → List Byte → Nat → List Byte → Nat → Option σ} {set : σ → List Byte → List Byte → Option σ}

theorem Walks.append {t₁ t₂ : List Tok} {m₁ m₂ : List Member} {buf : List Byte} {lo hi lo' hi' : Nat}
    (h₁ : Walks onKey set t₁ m₁ buf lo hi) (h₂ : ∀ buf', Framed buf buf' lo hi → Walks onKey set t₂ m₂ buf' lo' hi')
    {lo'' hi'' : Nat} (h : lo'' ≤ lo ∧ lo'' ≤ lo' ∧ hi ≤ hi'' ∧ hi' ≤ hi'') :
    Walks onKey set (t₁ ++ t₂) (m₁ ++ m₂) buf lo'' hi'' := by
  intro ts acc
  obtain ⟨b, hb, he⟩ := h₁ (t₂ ++ ts) acc
  rw [List.append_assoc, he, setMembers_append]
  cases hm : setMembers set m₁ acc with
  | none => exact ⟨buf, Framed.refl _ _ _, rfl⟩
  | some acc' =>
    obtain ⟨c, hc, he'⟩ := h₂ b hb ts acc'
    exact ⟨c, hb.trans hc h, he'⟩

theorem Walks.nil (buf : List Byte) (lo hi : Nat) : Walks onKey set [] [] buf lo hi :=
  fun _ _ => ⟨buf, Framed.refl _ _ _, rfl⟩

theorem Walks.weaken {toks : List Tok} {ms : List Member} {buf : List Byte} {lo hi lo' hi' : Nat}
    (h : Walks onKey set toks ms buf lo hi) (hle : lo' ≤ lo ∧ hi ≤ hi') : Walks onKey set toks ms buf lo' hi' := by
  intro ts acc
  obtain ⟨b, hb, he⟩ := h ts acc
  exact ⟨b, hb.weaken hle, he⟩

theorem Walks.skip {t : Tok} (ht : ¬ (t.type = .string ∧ 0 < t.size)) {toks : List Tok} {ms : List Member}
    {buf : List Byte} {lo hi : Nat} (h : Walks onKey set toks ms buf lo hi) :
    Walks onKey set (t :: toks) ms buf lo hi := by
  intro ts acc
  obtain ⟨b, hb, he⟩ := h ts acc
  exact ⟨b, hb, by rw [List.cons_append, keysLoop, if_neg ht, he]⟩

/-! ## The token of a value -/

def valueStart : Value → Nat → Nat
  | .str _, q => q + 1
  | _, q => q

/-- The token of a value comes first, and its bytes are the value's span. -/
theorem valueTokens_cons (v : Value) (q : Nat) : ∃ t rest, valueTokens v q = t :: rest ∧ t.start = valueStart v q ∧
    tokLen t = v.span.length ∧ ¬ (t.type = .string ∧ 0 < t.size) := by
  cases v with
  | prim t => exact ⟨_, _, rfl, rfl, by simp [tokLen, Value.span], by simp⟩
  | str b => exact ⟨_, _, rfl, rfl, by simp [tokLen, Value.span], by simp⟩
  | box k body =>
    refine ⟨_, _, rfl, rfl, ?_, by cases k <;> simp [tokType]⟩
    simp only [tokLen, Option.getD_some, Value.span, Value.text, List.length_cons, List.length_append, List.length_nil]
    omega

theorem valueStart_le (v : Value) (q : Nat) :
    q ≤ valueStart v q ∧ valueStart v q + v.span.length ≤ q + v.text.length := by
  cases v with
  | str b =>
    simp only [valueStart, Value.span, Value.text, List.length_cons, List.length_append, List.length_nil]
    omega
  | _ => exact ⟨Nat.le_refl _, Nat.le_refl _⟩

theorem span_prefix_drop {v : Value} {q : Nat} {buf : List Byte} (h : v.text <+: buf.drop q) :
    v.span <+: buf.drop (valueStart v q) := by
  cases v with
  | str b =>
    rw [Value.text, ← List.singleton_append, append_prefix_drop] at h
    exact (append_prefix_drop.1 h.2).1
  | _ => exact h

/-! ## The loop on a tree -/

/-- A key, its value right behind: the value is ended, the pair set, and the value's own members follow. -/
theorem walks_member (hr : Reads onKey set) {key : List Byte} {v : Value} {buf : List Byte} {i q : Nat} {c : Byte}
    (d : Nat) (hk : 0 ∉ key) (hv : v.Wf raw) (hkey : key <+: buf.drop i) (hi : i + key.length < q)
    (htext : v.text ++ [c] <+: buf.drop q)
    (ih : ∀ buf', (∀ k body, v = .box k body → v.text <+: buf'.drop q) →
      Walks onKey set (valueTokens v q) (v.members (d + 1)) buf' q (q + v.text.length)) :
    Walks onKey set (⟨.string, i, some (i + key.length), 1⟩ :: valueTokens v q) (⟨d, key, v⟩ :: v.members (d + 1)) buf q
      (q + v.text.length + 1) := by
  intro ts acc
  obtain ⟨vt, rest, hvt, hstart, hlen, -⟩ := valueTokens_cons v q
  obtain ⟨hlo, hhi⟩ := valueStart_le v q
  have hbound := length_of_prefix_drop htext (by simp)
  rw [List.length_append, List.length_singleton] at hbound
  obtain ⟨htext, -⟩ := append_prefix_drop.1 htext
  have hspan := span_prefix_drop htext
  generalize hz : valueStart v q + v.span.length = z at hhi
  have hpoke : ∃ buf₁, poke buf z [0] = some buf₁ := ⟨_, poke_of_le (by simp; omega)⟩
  obtain ⟨buf₁, hpoke⟩ := hpoke
  have hframe : Framed buf buf₁ z (z + 1) :=
    ⟨length_of_poke hpoke, fun j hj => by rw [getElem?_of_poke hpoke, if_neg (by simp; omega)]⟩
  have hzero : [0] <+: buf₁.drop (valueStart v q + v.span.length) := by
    rw [hz, List.prefix_iff_getElem?]
    intro j hj
    rw [List.length_singleton] at hj
    rw [List.getElem?_drop, getElem?_of_poke hpoke, if_pos (by simp; omega)]
    simp [show j = 0 by omega]
  have hset : onKey acc (buf₁.drop i) key.length (buf₁.drop (valueStart v q)) v.span.length = set acc key v.span :=
    hr acc key v.span _ _ hk (zero_not_mem_span hv) (hframe.text hkey (by omega))
      (append_prefix_drop.2 ⟨hframe.text hspan (by omega), hzero⟩)
  have hbox : ∀ k body, v = .box k body → v.text <+: buf₁.drop q := by
    rintro k body rfl
    exact hframe.text htext (Or.inl (by rw [← hz]; exact Nat.le_refl _))
  have hloop : keysLoop onKey (⟨.string, i, some (i + key.length), 1⟩ :: (valueTokens v q ++ ts)) buf acc =
      (set acc key v.span).bind (keysLoop onKey (valueTokens v q ++ ts) buf₁) := by
    have htok : tokLen ⟨.string, i, some (i + key.length), 1⟩ = key.length := by simp [tokLen]
    rw [keysLoop, if_pos ⟨rfl, Nat.one_pos⟩, hvt]
    simp only [List.cons_append, List.head?_cons, hstart, hlen, hz, hpoke, htok, hset]
    cases set acc key v.span <;> rfl
  have hmembers : setMembers set (⟨d, key, v⟩ :: v.members (d + 1)) acc =
      (set acc key v.span).bind (setMembers set (v.members (d + 1))) := rfl
  rw [List.cons_append, hloop, hmembers]
  cases set acc key v.span with
  | none => exact ⟨buf, Framed.refl _ _ _, rfl⟩
  | some acc' =>
    obtain ⟨buf₂, hb, he⟩ := ih buf₁ hbox ts acc'
    exact ⟨buf₂, hframe.trans hb (by omega), he⟩

/-- An item: its key set if it has one, then the members of its value. -/
theorem walks_item (hr : Reads onKey set) {k : Kind} {h : Head} {v : Value} {buf : List Byte} {q : Nat} {c : Byte}
    (d : Nat) (hh : h.Wf raw k) (hv : v.Wf raw) (htext : h.text ++ (v.text ++ [c]) <+: buf.drop q)
    (ih : ∀ buf', (∀ k body, v = .box k body → v.text <+: buf'.drop (q + h.text.length)) →
      Walks onKey set (valueTokens v (q + h.text.length)) (v.members (d + 1)) buf' (q + h.text.length)
        (q + h.text.length + v.text.length)) :
    Walks onKey set (headTokens h q ++ valueTokens v (q + h.text.length)) (h.member d v ++ v.members (d + 1)) buf q
      (q + h.text.length + v.text.length + 1) := by
  obtain ⟨hhead, hval⟩ := append_prefix_drop.1 htext
  obtain ⟨before, key⟩ := h
  obtain ⟨hb, hk⟩ := hh
  match k, key, hk with
  | .array, none, _ =>
    exact (ih buf (fun _ _ _ => (append_prefix_drop.1 hval).1)).weaken (by omega)
  | .object, some (s, a, b), ⟨hs, ha, hbl⟩ =>
    have hkey : s <+: buf.drop (q + before.length + 1) := by
      simp only [Head.text] at hhead
      rw [append_prefix_drop, ← List.singleton_append, append_prefix_drop, append_prefix_drop] at hhead
      exact hhead.2.2.1
    have hlen : (Head.mk before (some (s, a, b))).text.length = before.length + (s.length + a.length + b.length + 3) := by
      simp only [Head.text, List.length_append, List.length_cons]
      omega
    exact (walks_member hr d (zero_not_mem_strBody hs) hv hkey (by rw [hlen]; omega) hval ih).weaken (by omega)

theorem prefix_behind {a b r m : List Byte} {c : Byte} (h : a ++ (b ++ (r ++ [c])) <+: m) :
    ∃ c', a ++ (b ++ [c']) <+: m := by
  obtain ⟨c', s, hs⟩ := List.exists_cons_of_ne_nil (show r ++ [c] ≠ [] by simp)
  rw [hs] at h
  exact ⟨c', List.IsPrefix.trans ⟨s, by simp⟩ h⟩

mutual
theorem walks_value (hr : Reads onKey set) : ∀ (v : Value) (d q : Nat) (buf : List Byte), v.Wf raw →
    (∀ k body, v = .box k body → v.text <+: buf.drop q) →
    Walks onKey set (valueTokens v q) (v.members d) buf q (q + v.text.length)
  | .prim t, d, q, buf, _, _ => Walks.skip (by simp) (Walks.nil _ _ _)
  | .str b, d, q, buf, _, _ => Walks.skip (by simp) (Walks.nil _ _ _)
  | .box k body, d, q, buf, hv, htext => by
    have htext := htext k body rfl
    rw [Value.text, ← List.singleton_append, append_prefix_drop] at htext
    refine Walks.skip (by cases k <;> simp [tokType]) ((walks_body hr k body d (q + 1) buf hv htext.2).weaken ?_)
    simp only [Value.text, List.length_cons, List.length_append, List.length_nil]
    omega
theorem walks_body (hr : Reads onKey set) (k : Kind) : ∀ (body : Body) (d q : Nat) (buf : List Byte), body.Wf raw k →
    body.text ++ [k.closing] <+: buf.drop q →
    Walks onKey set (bodyTokens body q) (body.members d) buf q (q + body.text.length + 1)
  | .blank _, _, _, _, _, _ => Walks.nil _ _ _
  | .items is, d, q, buf, hw, htext => walks_items hr k is d q buf _ hw htext
theorem walks_items (hr : Reads onKey set) (k : Kind) : ∀ (is : Items) (d q : Nat) (buf : List Byte) (c : Byte),
    is.Wf raw k → is.text ++ [c] <+: buf.drop q →
    Walks onKey set (itemsTokens is q) (is.members d) buf q (q + is.text.length + 1)
  | .last h v w, d, q, buf, c, ⟨hh, hv, hw⟩, htext => by
    rw [Items.text, List.append_assoc, List.append_assoc] at htext
    obtain ⟨c', hitem⟩ := prefix_behind htext
    refine (walks_item hr d hh hv hitem (fun buf' => walks_value hr v (d + 1) _ buf' hv)).weaken ?_
    simp only [Items.text, List.length_append]
    omega
  | .more h v w rest, d, q, buf, c, ⟨hh, hv, hw, hrest⟩, htext => by
    rw [Items.text, List.append_assoc, List.append_assoc, List.append_assoc, List.cons_append,
      ← List.singleton_append, ← List.append_assoc w] at htext
    have hcomma : h.text ++ (v.text ++ (w ++ [0x2C])) <+: buf.drop q :=
      List.IsPrefix.trans ⟨rest.text ++ [c], by simp⟩ htext
    obtain ⟨c', hitem⟩ := prefix_behind hcomma
    have htail : rest.text ++ [c] <+: buf.drop (q + h.text.length + v.text.length + w.length + 1) := by
      rw [append_prefix_drop, append_prefix_drop, append_prefix_drop] at htext
      simpa [Nat.add_assoc] using htext.2.2.2
    have hone := walks_item hr d hh hv hitem (fun buf' => walks_value hr v (d + 1) _ buf' hv)
    rw [itemsTokens, Items.members, ← List.append_assoc, ← List.append_assoc]
    refine hone.append (fun buf' hb => walks_items hr k rest d _ buf' c hrest (hb.text htail (by omega))) ?_
    simp only [Items.text, List.length_append, List.length_cons]
    omega
end

/-- **The loop over the tokens of a text is the fold over its members.** -/
theorem keysLoop_doc (hr : Reads onKey set) {d : Doc} (hd : d.Wf raw) (tail : List Byte) (acc : σ) :
    keysLoop onKey (docTokens d) (d.text ++ tail) acc = setMembers set (d.root.members 0) acc := by
  have htext : d.root.text <+: (d.text ++ tail).drop d.before.length := by
    rw [Doc.text, List.append_assoc, List.drop_left, List.append_assoc]
    exact List.prefix_append _ _
  obtain ⟨buf', -, he⟩ := walks_value hr d.root 0 d.before.length (d.text ++ tail) hd.root (fun _ _ _ => htext) [] acc
  rw [List.append_nil] at he
  rw [docTokens, he]
  cases setMembers set (d.root.members 0) acc <;> rfl

/-- **A callback on a printed tree** with room for its tokens pushes the event of the fold over its members. -/
theorem mqttCallback_doc {ε : Type} (hr : Reads onKey set) (zero : σ) (event : σ → ε) {d : Doc} (hd : d.Wf raw)
    (room : (docTokens d).length ≤ MQTT_MAX_JSON_TOKENS) (tail : List Byte) :
    mqttCallback onKey zero event d.text tail = (setMembers set (d.root.members 0) zero).map (fun acc => [event acc]) := by
  obtain ⟨p, hp, ht, hc⟩ := jsmnParse_text hd room
  rw [mqttCallback, hp]
  simp only [ht, hc, List.take_length]
  rw [keysLoop_doc hr hd]

end

end MqttLink
end RtPay
