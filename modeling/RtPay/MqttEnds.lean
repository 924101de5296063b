import RtPay.MqttPairs
/-!
# MqttEnds — where the terminators land

A terminator lies at the end of a value, so at most right behind the payload.  It does lie there exactly when the
payload ends in the value of a pair that stands in no box (`terminators_inside_iff`): jsmn asks for no braces around a
pair, and takes the end of the text for the end of a primitive.
-/
namespace RtPay
namespace MqttLink

open Bytes JsonText Jsmn

/-! ## The terminators of a callback -/

/-- The indices at which the loop stores a zero. -/
def terminators (toks : List Tok) : List Nat := (keyPairs toks).map (fun kv => kv.2.start + tokLen kv.2)

/-! ## A text that ends in a value -/

/-- `A` is accepted, and the last of its tokens is a string. -/
def KeyLast (A : List Byte) : Prop :=
  ∃ q T K, jsmnParse A MQTT_MAX_JSON_TOKENS = .ok q ∧ q.tokens = T ++ [K] ∧ K.type = .string

/-- The payload ends in the value of a pair that stands in no box: a text with a string last, a colon and separators,
and then up to the end one primitive, or one box that closes with the last byte. -/
def EndsInValue (payload : List Byte) : Prop :=
  0 ∉ payload ∧ ∃ A B V, payload = A ++ 0x3A :: (B ++ V) ∧ KeyLast A ∧ Between B ∧
    (raw.prim V ∨ ∃ (k : Kind) (V' : List Byte), V = k.opening :: V' ∧
      ∀ W W', V' = W ++ W' → W' ≠ [] → ∀ q, jsmnParse (A ++ 0x3A :: (B ++ k.opening :: W)) MQTT_MAX_JSON_TOKENS ≠ .ok q)

section Accepted

variable {num : Nat} {payload : List Byte} {p q : Parser}

section Backward

variable {i : Nat} {r A B V S : List Byte} {p₀ p₁ p₂ : Parser} {t v : Tok}

/-- Behind a value that ends the payload no box is left to close: none was open at the colon. -/
theorem closed_before_colon (h : FirstChild num r p i A B V S p₀ p₁ p₂) (hclosed : ∀ t ∈ p.tokens, t.isOpen = false)
    (hv : p.tokens[i + 1]? = some v) (hend : v.stop = some p.pos) : ∀ u ∈ p₀.tokens, u.isOpen = false := by
  intro u hu
  obtain ⟨a, hlt, rfl⟩ := List.mem_iff_getElem.1 hu
  have ha : a ≤ i := by
    have := h.last
    rw [h.tokens] at this
    omega
  have hget : p₁.tokens[a]? = some p₀.tokens[a] := by rw [h.tokens, List.getElem?_eq_getElem hlt]
  obtain ⟨w, hw, hl⟩ := (h.value.run.trans h.rest).later hget
  obtain ⟨e, he⟩ := stop_of_isOpen (hclosed w (List.mem_of_getElem? hw))
  cases hs : p₀.tokens[a].stop with
  | some f => simp [Tok.isOpen, hs]
  | none =>
    -- a box open at the colon closes behind the value, so behind the end
    have hlate := hl.opened hs e he
    have hpos := h.pos
    rcases h.clear ha hw he hv with hle | ⟨f, hf, hlt'⟩
    · omega
    · rw [hend] at hf
      cases hf
      have := (((h.whole.ordered (ordered_init num)).placed w (List.mem_of_getElem? hw)).2.2.2 e he).2.1
      omega

/-- The key stood in no box. -/
theorem keyLast_of_ends (h : FirstChild num r p i A B V S p₀ p₁ p₂) (hclosed : ∀ t ∈ p.tokens, t.isOpen = false)
    (ht : p.tokens[i]? = some t) (hstr : t.type = .string) (hv : p.tokens[i + 1]? = some v)
    (hend : v.stop = some p.pos) :
    ∃ T K, jsmnParse A num = .ok p₀ ∧ p₀.tokens = T ++ [K] ∧ K.type = .string := by
  obtain ⟨T, K, hT, hT₁, hi⟩ := h.key_last
  have hget : p₁.tokens[i]? = some K := by rw [hT₁, ← hi]; simp
  obtain ⟨t', ht', hl⟩ := (h.value.run.trans h.rest).later hget
  rw [ht] at ht'
  cases ht'
  exact ⟨T, K, jsmnParse_of_run h.key (closed_before_colon h hclosed hv hend), hT, by rw [← hl.type, hstr]⟩

/-- A value that ends the payload is one primitive, or a box. -/
theorem value_of_ends (h : FirstChild num r p i A B V S p₀ p₁ p₂) (hv : p.tokens[i + 1]? = some v)
    (hend : v.stop = some p.pos) :
    raw.prim V ∧ S = [] ∨ ∃ k : Kind, V = [k.opening] ∧ p₂ = opened p₁ k ∧ p₁.tokens.length < num := by
  have hgrow : p₂.tokens.length = p₁.tokens.length + 1 := by rw [h.next, h.last]
  have hpos := h.rest.pos
  have hlater : ∀ (x : Tok) (pos : Nat), p₂.tokens = (pushed p₁ x pos).tokens → Later p₂.pos x v :=
    fun x pos hq => h.later_value hq hv
  cases h.value with
  | prim hprim hcut room =>
    have hstop := (hlater _ _ rfl).stop _ rfl
    rw [hend, Option.some.injEq] at hstop
    simp only [pushed] at hpos
    exact Or.inl ⟨hprim, List.length_eq_zero_iff.1 (by omega)⟩
  | str hb room =>
    -- its quote is still to come
    have hstop := (hlater _ _ rfl).stop _ rfl
    rw [hend, Option.some.injEq] at hstop
    simp only [pushed] at hpos
    omega
  | opens k room => exact Or.inr ⟨k, rfl, rfl, room⟩
  | closes k htok => rw [htok] at hgrow; simp at hgrow
  | blank => exact absurd hgrow (Nat.ne_of_lt (Nat.lt_succ_self _))
  | colon => exact absurd hgrow (Nat.ne_of_lt (Nat.lt_succ_self _))
  | comma => simp at hgrow

/-- A box that ends the payload closes with its last byte and not before. -/
theorem not_accepted_before {k : Kind} (h : FirstChild num [] p i A B [k.opening] S p₀ p₁ (opened p₁ k))
    (room : p₁.tokens.length < num) (hv : p.tokens[i + 1]? = some v) (hend : v.stop = some p.pos) {W W' : List Byte}
    (hS : S = W ++ W') (hW : W' ≠ []) (q : Parser) :
    jsmnParse (A ++ 0x3A :: (B ++ k.opening :: W)) num ≠ .ok q := by
  subst hS
  intro hq
  have h0 := h.whole.zero_not_mem
  -- the run over the shorter text opens the same box and closes it
  have hopen : Run num jsmnInit (A ++ 0x3A :: B) ([k.opening] ++ W) p₁ := h.before.cut (Or.inl rfl)
  have hshort : parseAll num (opened p₁ k) W = .ok q := by
    have hp := parseAll_of_jsmnParse hq
    have hrun := (hopen.trans (Takes.opens k room).run).parseAll
    rw [← hrun, ← hp]
    simp
  have hrunW : Run num (opened p₁ k) W [] q := run_to_end (by simp_all) hshort
  have hpushed : (opened p₁ k).tokens = (pushed p₁ ⟨tokType k, p₁.pos, none, 0⟩ (p₁.pos + 1)).tokens := rfl
  have hlast := h.pushed_value hpushed
  obtain ⟨u, hu, -⟩ := hrunW.later hlast
  obtain ⟨e, he⟩ := stop_of_isOpen (closed_of_jsmnParse hq u (List.mem_of_getElem? hu))
  obtain ⟨s₁, k', s₂, q₀, q₁, u₁, rfl, hto, hclose, -, hpos, hu₁, he₁, -⟩ := hrunW.closing hlast rfl hu he
  -- so does the run over the payload, whose box then ends too early
  have hfull : Run num (opened p₁ k) (s₁ ++ [k'.closing]) (s₂ ++ W') q₁ :=
    Run.turn (hto.cut (Or.inl rfl)) (hclose _)
  have hp : parseAll num q₁ (s₂ ++ W') = .ok p := by
    rw [← hfull.parseAll]
    have hrest := h.rest.parseAll
    rw [List.append_nil] at hrest
    simpa [parseAll, parseLoop] using hrest
  have hrest := run_to_end (by simp_all) hp
  obtain ⟨v', hv', hl⟩ := hrest.later hu₁
  rw [hv] at hv'
  cases hv'
  have hstop := hl.stop e he₁
  rw [hend] at hstop
  cases hstop
  have hlen := hrest.pos
  have := List.length_pos_iff.2 hW
  rw [List.length_append] at hlen
  omega

end Backward

theorem endsInValue_of_stop (hp : jsmnParse payload MQTT_MAX_JSON_TOKENS = .ok p) {i : Nat} {t v : Tok}
    (ht : p.tokens[i]? = some t) (hk : isKey t) (hv : p.tokens[i + 1]? = some v)
    (hend : v.stop = some payload.length) : EndsInValue payload := by
  obtain ⟨s, r, rfl, hrun, -⟩ := run_of_jsmnParse hp
  obtain ⟨A, B, V, S, p₀, p₁, p₂, rfl, h⟩ := hrun.keyed.child i t ht hk.1 hk.2
  have hpos := hrun.pos_of_init
  have hr : r = [] := by
    have hin := (((ordered_of_jsmnParse hp).placed v (List.mem_of_getElem? hv)).2.2.2 _ hend).2.1
    rw [hpos, List.length_append] at hin
    exact List.length_eq_zero_iff.1 (by omega)
  subst hr
  rw [List.append_nil] at hend ⊢
  rw [← hpos] at hend
  obtain ⟨T, K, hA, hT, hK⟩ := keyLast_of_ends h (closed_of_jsmnParse hp) ht hk.1 hv hend
  refine ⟨hrun.zero_not_mem, A, B, V ++ S, by simp, ⟨p₀, T, K, hA, hT, hK⟩, h.between, ?_⟩
  rcases value_of_ends h hv hend with ⟨hprim, rfl⟩ | ⟨k, rfl, rfl, room⟩
  · rw [List.append_nil]
    exact Or.inl hprim
  · exact Or.inr ⟨k, S, rfl, fun W W' hS hW q => not_accepted_before h room hv hend hS hW q⟩

/-! ## The value of a pair outside every box -/

/-- The parser behind the separators: the key waits for its value, and every token is closed. -/
theorem run_to_value {A B R : List Byte} {T : List Tok} {K : Tok} (hq : jsmnParse A num = .ok q) (h0 : 0 ∉ A)
    (hT : q.tokens = T ++ [K]) (hK : K.type = .string) (hB : Between B) :
    Run num jsmnInit (A ++ 0x3A :: B) R
      { pos := A.length + 1 + B.length, toksuper := some T.length, tokens := q.tokens, count := q.count } := by
  have hA : Run num jsmnInit A (0x3A :: (B ++ R)) q :=
    (run_to_end h0 (parseAll_of_jsmnParse hq)).cut (Or.inr (by rintro c s ⟨⟩ ⟨-, h⟩; cases h))
  have hpos := hA.pos_of_init
  have hclosed := closed_of_jsmnParse hq
  have hcolon : colon q = { q with pos := q.pos + 1, toksuper := some T.length } := by simp [colon, hT]
  have hsep := @run_between num T K hK B (colon q) hB (by rw [hcolon, hT]) (by rw [hcolon])
    (by rw [hcolon]; exact hclosed) R
  rw [hcolon, hpos] at hsep
  have htwo : Run num q (0x3A :: B) R _ := Run.trans (s := [0x3A]) (Takes.run (by rw [← hpos, ← hcolon]; exact .colon)) hsep
  exact hA.trans htwo

/-- A primitive with nothing behind it is one turn. -/
theorem run_prim {V : List Byte} (hV : raw.prim V) (h : Run num p V [] q) :
    q = pushed p ⟨.primitive, p.pos, some (p.pos + V.length), 0⟩ (p.pos + V.length) := by
  obtain ⟨⟨c, s, hcs, hq, ho, hb⟩, hall⟩ := hV
  obtain ⟨t, s', p', rfl, htakes, hrest⟩ := h.head (by rw [hcs]; exact List.cons_ne_nil c s)
  obtain ⟨hd, hlo, -⟩ := hall c (by rw [hcs]; exact List.mem_cons_self)
  cases htakes with
  | prim ht hcut room =>
    have hs' : s' = [] := by
      cases s' with
      | nil => rfl
      | cons d s' =>
        obtain ⟨hd', hlo', -⟩ := hall d (by simp)
        refine absurd ⟨?_, hd'⟩ (hcut d _ rfl)
        rintro rfl
        simp at hlo'
    subst hs'
    rw [hrest.nil, List.append_nil]
  | str => cases hcs; exact absurd rfl hq
  | opens k => cases hcs; cases k <;> contradiction
  | closes k => cases hcs; cases k <;> cases hd
  | blank hw => cases hcs; rw [isDelim_of_isWs hw] at hd; cases hd
  | colon => cases hcs; cases hd
  | comma => cases hcs; cases hd

/-- The first turn on a bracket opens its box. -/
theorem run_box {k : Kind} {V r : List Byte} (h : Run num p (k.opening :: V) r q) :
    p.tokens.length < num ∧ Run num (opened p k) V r q := by
  obtain ⟨t, s', p', heq, htakes, hrest⟩ := h.head (List.cons_ne_nil _ _)
  cases htakes with
  | prim ht =>
    obtain ⟨⟨c, s, rfl, -, ho, hb⟩, -⟩ := ht
    obtain ⟨rfl, -⟩ := List.cons.inj heq
    cases k <;> contradiction
  | str => cases k <;> cases heq
  | opens k' room =>
    obtain ⟨hk, rfl⟩ := List.cons.inj heq
    have hk' : k = k' := by cases k <;> cases k' <;> first | rfl | cases hk
    subst hk'
    exact ⟨room, hrest⟩
  | closes k' => cases k <;> cases k' <;> cases heq
  | blank hw => obtain ⟨rfl, -⟩ := List.cons.inj heq; cases k <;> cases hw
  | colon => cases k <;> cases heq
  | comma => cases k <;> cases heq

theorem key_pushed {T : List Tok} {K x : Tok} {pos : Nat} (hT : p.tokens = T ++ [K]) (hsup : p.toksuper = some T.length)
    (hK : K.type = .string) : ∃ t, (pushed p x pos).tokens[T.length]? = some t ∧ isKey t ∧
      (pushed p x pos).tokens[T.length + 1]? = some x := by
  have hget : p.tokens[T.length]? = some K := by rw [hT]; simp
  have hbelow : SuperBelow p := by
    intro i hi
    rw [hsup] at hi
    cases hi
    rw [hT]; simp
  refine ⟨_, pushed_getElem? x pos hget, ?_, ?_⟩
  · rw [if_pos hsup]
    exact ⟨hK, Nat.succ_pos _⟩
  · have h := getElem?_pushed_length hbelow x pos
    rwa [hT, List.length_append, List.length_singleton] at h

theorem closed_pushed {x : Tok} {pos a : Nat} {t : Tok} (hclosed : ∀ t ∈ p.tokens, t.isOpen = false)
    (ha : a < p.tokens.length) (ht : (pushed p x pos).tokens[a]? = some t) : t.isOpen = false := by
  rw [pushed_getElem? x pos (List.getElem?_eq_getElem ha), Option.some.injEq] at ht
  have h := hclosed p.tokens[a] (List.getElem_mem ha)
  rw [← ht]
  split <;> exact h

/-- A box that opens where every token is closed, and closes before the end: the text up to its bracket is accepted. -/
theorem accepted_to_bracket {s₁ s₂ : List Byte} {k k' : Kind} {js : List Byte} {q₀ q₁ : Parser} {u : Tok}
    (hto : Run num jsmnInit js (k.opening :: (s₁ ++ k'.closing :: s₂)) p) (room : p.tokens.length < num)
    (hclosed : ∀ t ∈ p.tokens, t.isOpen = false) (hin : Run num (opened p k) s₁ (k'.closing :: s₂) q₀)
    (hclose : Takes num q₀ [k'.closing] s₂ q₁) (hu : q₁.tokens[p.tokens.length]? = some u) (hu' : u.isOpen = false)
    (hlater : ∀ a w, p.tokens.length < a → q₁.tokens[a]? = some w → w.isOpen = false) :
    jsmnParse (js ++ (k.opening :: (s₁ ++ [k'.closing]))) num = .ok q₁ := by
  have hbox : Run num (opened p k) (s₁ ++ [k'.closing]) s₂ q₁ := hin.turn hclose
  have hopen : Run num p [k.opening] (s₁ ++ [k'.closing] ++ s₂) (opened p k) := (Takes.opens k room).run
  have hall : Run num jsmnInit (js ++ ([k.opening] ++ (s₁ ++ [k'.closing]))) s₂ q₁ :=
    Run.trans (by simpa using hto) (hopen.trans hbox)
  refine jsmnParse_of_run hall (fun w hw => ?_)
  obtain ⟨a, ha, rfl⟩ := List.mem_iff_getElem.1 hw
  rcases Nat.lt_trichotomy a p.tokens.length with hlt | rfl | hgt
  · have hlen : a < (opened p k).tokens.length := by
      show a < (bump _ _).length
      rw [length_bump, List.length_append]
      omega
    obtain ⟨w', hw', hl⟩ := hbox.later (List.getElem?_eq_getElem hlen)
    rw [List.getElem?_eq_getElem ha, Option.some.injEq] at hw'
    rw [hw']
    exact hl.closed (@closed_pushed p ⟨tokType k, p.pos, none, 0⟩ (p.pos + 1) _ _ hclosed hlt
      (List.getElem?_eq_getElem hlen))
  · rw [List.getElem?_eq_getElem ha, Option.some.injEq] at hu
    rw [hu]; exact hu'
  · exact hlater a _ hgt (List.getElem?_eq_getElem ha)

/-- A primitive up to the end, where the last key waits for its value. -/
theorem stop_of_prim {T : List Tok} {K : Tok} {V : List Byte} (hT : p.tokens = T ++ [K])
    (hsup : p.toksuper = some T.length) (hK : K.type = .string) (hprim : raw.prim V) (h : Run num p V [] q) :
    ∃ t v, q.tokens[T.length]? = some t ∧ isKey t ∧ q.tokens[T.length + 1]? = some v ∧ v.stop = some q.pos := by
  obtain ⟨t, ht, hk, hv⟩ := key_pushed hT hsup hK
  rw [run_prim hprim h]
  exact ⟨t, _, ht, hk, hv, rfl⟩

/-- A box up to the end that does not close before, where the last key waits for its value. -/
theorem stop_of_box {T : List Tok} {K : Tok} {js V : List Byte} {k : Kind} (hT : p.tokens = T ++ [K])
    (hsup : p.toksuper = some T.length) (hK : K.type = .string) (hto : ∀ R, Run num jsmnInit js R p)
    (hclosed : ∀ t ∈ p.tokens, t.isOpen = false) (h : Run num p (k.opening :: V) [] q)
    (hq : ∀ t ∈ q.tokens, t.isOpen = false)
    (hmin : ∀ W W', V = W ++ W' → W' ≠ [] → ∀ q, jsmnParse (js ++ k.opening :: W) num ≠ .ok q) :
    ∃ t v, q.tokens[T.length]? = some t ∧ isKey t ∧ q.tokens[T.length + 1]? = some v ∧ v.stop = some q.pos := by
  obtain ⟨room, hin⟩ := run_box h
  obtain ⟨t, ht, hk, hv⟩ := @key_pushed p T K ⟨tokType k, p.pos, none, 0⟩ (p.pos + 1) hT hsup hK
  obtain ⟨t', ht', hl⟩ := hin.later (i := T.length) ht
  obtain ⟨u, hu, -⟩ := hin.later (i := T.length + 1) hv
  obtain ⟨e, he⟩ := stop_of_isOpen (hq u (List.mem_of_getElem? hu))
  obtain ⟨s₁, k', s₂, q₀, q₁, u₁, rfl, hto₀, hclose, hrest, hpos, hu₁, he₁, hlater⟩ := hin.closing hv rfl hu he
  rw [List.append_nil] at hto₀
  have hlen : p.tokens.length = T.length + 1 := by rw [hT, List.length_append, List.length_singleton]
  have hs₂ : s₂ = [] := by
    by_contra hne
    rw [← hlen] at hu₁ hlater
    exact hmin (s₁ ++ [k'.closing]) s₂ (by simp) hne q₁
      (accepted_to_bracket (hto _) room hclosed hto₀ (hclose s₂) hu₁ (by simp [Tok.isOpen, he₁]) hlater)
  subst hs₂
  rw [hrest.nil] at ht' hu ⊢
  exact ⟨t', u, ht', ⟨hl.type.trans hk.1, Nat.lt_of_lt_of_le hk.2 hl.size⟩, hu, by rw [he, hpos]⟩

/-- **A payload that ends in the value of a pair outside every box** has a value that ends with it. -/
theorem stop_of_endsInValue (hp : jsmnParse payload MQTT_MAX_JSON_TOKENS = .ok p) (h : EndsInValue payload) :
    ∃ i t v, p.tokens[i]? = some t ∧ isKey t ∧ p.tokens[i + 1]? = some v ∧ v.stop = some payload.length := by
  obtain ⟨h0, A, B, V, rfl, ⟨q, T, K, hA, hT, hK⟩, hB, hV⟩ := h
  obtain ⟨p₁, hto, hsame, hsup⟩ : ∃ p₁ : Parser, (∀ R, Run MQTT_MAX_JSON_TOKENS jsmnInit (A ++ 0x3A :: B) R p₁) ∧
      p₁.tokens = q.tokens ∧ p₁.toksuper = some T.length :=
    ⟨_, fun R => run_to_value hA (fun h => h0 (by simp [h])) hT hK hB, rfl, rfl⟩
  rw [← hsame] at hT
  have hpayload : A ++ 0x3A :: (B ++ V) = (A ++ 0x3A :: B) ++ V := by simp
  have hfrom := parseAll_of_jsmnParse hp
  rw [hpayload, (hto V).parseAll] at hfrom
  have hrun := run_to_end (fun h => h0 (by simp [h])) hfrom
  have hwhole : Run MQTT_MAX_JSON_TOKENS jsmnInit ((A ++ 0x3A :: B) ++ V) [] p := Run.trans (by simpa using hto V) hrun
  rw [hpayload, ← hwhole.pos_of_init]
  refine ⟨T.length, ?_⟩
  rcases hV with hprim | ⟨k, V', rfl, hmin⟩
  · exact stop_of_prim hT hsup hK hprim hrun
  · have hclosed := closed_of_jsmnParse hA
    rw [← hsame] at hclosed
    exact stop_of_box hT hsup hK hto hclosed hrun (closed_of_jsmnParse hp)
      (fun W W' hW hne q => by simpa using hmin W W' hW hne q)

end Accepted

/-! ## The loop and its terminators -/

/-- On a buffer of its own the loop is defined exactly when every terminator lies inside it. -/
theorem keysLoop_isSome_iff {num : Nat} {payload : List Byte} {p : Parser} (hp : jsmnParse payload num = .ok p) :
    ∀ (ts : List Tok) (i : Nat), p.tokens.drop i = ts → ∀ (buf : List Byte) (seen : List (List Byte × List Byte)),
      (keysLoop noteKey ts buf seen).isSome ↔ ∀ z ∈ terminators ts, z < buf.length
  | [], _, _, _, _ => by simp [keysLoop, terminators, keyPairs]
  | t :: ts, i, hi, buf, seen => by
    obtain ⟨ht, hdrop, hhead⟩ := drop_eq_cons hi
    have ih := keysLoop_isSome_iff hp ts (i + 1) hdrop
    rw [keysLoop]
    by_cases hk : t.type = .string ∧ 0 < t.size
    · obtain ⟨v, hv⟩ := next_of_isKey hp ht hk
      rw [hv] at hhead
      rw [if_pos hk, hhead, terminators, keyPairs_cons hk hhead, List.map_cons, List.forall_mem_cons]
      dsimp only
      cases hpoke : poke buf (v.start + tokLen v) [0] with
      | none =>
        have hout := poke_eq_none_iff.1 hpoke
        rw [List.length_singleton] at hout
        exact iff_of_false (by simp) (fun h => by omega)
      | some buf' =>
        have hin : ¬ buf.length < v.start + tokLen v + [(0 : Byte)].length :=
          fun h => by rw [poke_eq_none_iff.2 h] at hpoke; cases hpoke
        rw [List.length_singleton] at hin
        rw [← terminators, ← length_of_poke hpoke, ← ih buf' _]
        simp only [noteKey, length_of_poke hpoke]
        exact ⟨fun h => ⟨by omega, h⟩, fun h => h.2⟩
    · rw [if_neg hk, ih, terminators, terminators, keyPairs_skip hk]

/-- **The terminators of the callbacks land inside an accepted payload** exactly when it does not end in the value of a
pair outside every box. -/
theorem terminators_inside_iff {payload : List Byte} {p : Parser}
    (hp : jsmnParse payload MQTT_MAX_JSON_TOKENS = .ok p) :
    (∀ z ∈ terminators (p.tokens.take p.count), z < payload.length) ↔ ¬ EndsInValue payload := by
  rw [take_count hp]
  constructor
  · intro h hend
    obtain ⟨i, t, v, ht, hk, hv, hstop⟩ := stop_of_endsInValue hp hend
    have hz : v.start + tokLen v ∈ terminators p.tokens :=
      List.mem_map.2 ⟨(t, v), mem_keyPairs.2 ⟨i, ht, hv, hk⟩, rfl⟩
    have := h _ hz
    rw [stop_eq hp (List.mem_of_getElem? hv), Option.some.injEq] at hstop
    omega
  · intro hnot z hz
    obtain ⟨⟨t, v⟩, hmem, rfl⟩ := List.mem_map.1 hz
    obtain ⟨i, ht, hv, hk⟩ := mem_keyPairs.1 hmem
    obtain ⟨e, he, -, hle⟩ := stop_of_jsmnParse hp (List.mem_of_getElem? hv)
    have hstop := stop_eq hp (List.mem_of_getElem? hv)
    rw [he, Option.some.injEq] at hstop
    rcases Nat.lt_or_eq_of_le hle with hlt | heq
    · show v.start + tokLen v < _
      omega
    · exact absurd (endsInValue_of_stop hp ht hk hv (by rw [he, heq])) hnot

theorem terminators_inside_braces : ¬ EndsInValue (text "\x7b\"enable\":1\x7d") :=
  (terminators_inside_iff (p := ⟨12, none, [⟨.object, 0, some 12, 1⟩, ⟨.string, 2, some 8, 1⟩,
    ⟨.primitive, 10, some 11, 0⟩], 3⟩) (by decide)).1 (by decide)

/-- Ten bytes that jsmn accepts, the zero stored at index ten: with nothing behind them the callback writes out of the
buffer. -/
theorem terminator_behind_payload :
    (∃ p, jsmnParse (text "\"enable\":1") MQTT_MAX_JSON_TOKENS = .ok p ∧ 10 ∈ terminators (p.tokens.take p.count)) ∧
      (text "\"enable\":1").length = 10 ∧ mqttEnableCallback (text "\"enable\":1") [] = none :=
  ⟨⟨⟨10, some 0, [⟨.string, 1, some 7, 1⟩, ⟨.primitive, 9, some 10, 0⟩], 2⟩, by decide, by decide⟩, by decide,
    by decide⟩

end MqttLink
end RtPay
