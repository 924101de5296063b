import RtPay.JsmnParents
import RtPay.MqttNumbers
/-!
# MqttMembers — which members have a say in an event

The loop walks the flat token array: it takes every key for the first name it is a prefix of, at any depth, outside of
every object and in the place of a value as well.  A member has a say in a field when another value in its place would
change the field.  The members of the root object that spell the field's name out are the only ones with a say exactly
when they have the last word on it (`members_only_iff`).
-/
namespace RtPay
namespace MqttLink

open Bytes CStr Jsmn Last

/-! ## Direct members of the root object -/

def Encloses (box t : Tok) : Prop :=
  box.type.isBox = true ∧ box.start < t.start ∧ t.start + tokLen t ≤ box.start + tokLen box

instance (box t : Tok) : Decidable (Encloses box t) := inferInstanceAs (Decidable (_ ∧ _ ∧ _))

/-- The first token is an object, and the only box around the token. -/
def Direct (toks : List Tok) (t : Tok) : Prop :=
  ∃ root rest, toks = root :: rest ∧ root.type = .object ∧ Encloses root t ∧ ∀ box ∈ rest, ¬ Encloses box t

/-- The key is a child of the first token, and the value one of the key. -/
def ChildOfRoot (payload : List Byte) (toks : List Tok) (kv : Tok × Tok) : Prop :=
  ∃ i, toks[i]? = some kv.1 ∧ toks[i + 1]? = some kv.2 ∧ (parents MQTT_MAX_JSON_TOKENS payload)[i]? = some (some 0) ∧
    (parents MQTT_MAX_JSON_TOKENS payload)[i + 1]? = some (some i)

/-- A direct member of the root object, with the whole name for its key. -/
def MemberOf (payload : List Byte) (toks : List Tok) (n : List Byte) (kv : Tok × Tok) : Prop :=
  ChildOfRoot payload toks kv ∧ Direct toks kv.1 ∧ Direct toks kv.2 ∧ tokText payload kv.1 = n

/-! ## Having a say -/

/-- Another value for the key, that stores at the same places: for a name, one of the same length. -/
def Alike (names : List (List Byte)) (k v v' : List Byte) : Prop :=
  0 ∉ v' ∧ (selected names k = some (text "name") → v'.length = v.length)

variable {σ β γ : Type}

/-- Another value for the pair `i` would change what `π` reads of the event. -/
def Influences (set : σ → List Byte → List Byte → Option σ) (zero : σ) (names : List (List Byte)) (π : σ → β)
    (ps : List (List Byte × List Byte)) (i : Nat) : Prop :=
  ∃ k v v', ps[i]? = some (k, v) ∧ Alike names k v v' ∧
    (setPairs set (ps.set i (k, v')) zero).map π ≠ (setPairs set ps zero).map π

/-- Only direct members of the root object with the name `n` have a say in the field `π`. -/
def OnlyMembers (set : σ → List Byte → List Byte → Option σ) (zero : σ) (names : List (List Byte)) (π : σ → β)
    (n payload : List Byte) (toks : List Tok) : Prop :=
  ∀ i kv, (keyPairs toks)[i]? = some kv → Influences set zero names π (textPairs payload toks) i →
    MemberOf payload toks n kv

/-- The pair that is the last to assign the cell `g` is a direct member of the root object with the name `n`. -/
def LastWord (g : List Byte × List Byte → Option γ) (n payload : List Byte) (toks : List Tok) : Prop :=
  ∀ A kv B, keyPairs toks = A ++ kv :: B → (g (tokText payload kv.1, tokText payload kv.2)).isSome →
    (∀ q ∈ B, g (tokText payload q.1, tokText payload q.2) = none) → MemberOf payload toks n kv

/-- A field made of cells: each step leaves a cell or assigns it, and the field shows all of them. -/
structure Cells (set : σ → List Byte → List Byte → Option σ) (zero : σ) (names : List (List Byte)) (π : σ → β)
    {ι : Type} (J : ι → Prop) (g : ι → List Byte × List Byte → Option γ) (d : γ) : Prop where
  /-- The field is its cells. -/
  shows : ∀ ps qs s s', setPairs set ps zero = some s → setPairs set qs zero = some s' →
    (π s = π s' ↔ ∀ j, J j → (last (g j) ps).getD d = (last (g j) qs).getD d)
  /-- A value like another assigns the same cells. -/
  alike : ∀ k v v' j, Alike names k v v' → (g j (k, v')).isSome = (g j (k, v)).isSome
  /-- Every assignment could be another one. -/
  varies : ∀ k v j, J j → 0 ∉ v → (g j (k, v)).isSome → ∃ v', Alike names k v v' ∧ g j (k, v') ≠ g j (k, v)
  /-- A value like another is stored where the other is. -/
  defined : ∀ A k v v' B s, setPairs set (A ++ (k, v) :: B) zero = some s → Alike names k v v' →
    ∃ s', setPairs set (A ++ (k, v') :: B) zero = some s'

theorem split_at {α : Type} {l : List α} {i : Nat} {a : α} (h : l[i]? = some a) :
    ∃ A B, l = A ++ a :: B ∧ A.length = i := by
  obtain ⟨hi, rfl⟩ := List.getElem?_eq_some_iff.1 h
  refine ⟨l.take i, l.drop (i + 1), by simp, ?_⟩
  rw [List.length_take]
  omega

/-- Another value shows in the field exactly when it shows in one of its cells. -/
theorem Cells.shows_replace {set : σ → List Byte → List Byte → Option σ} {zero : σ} {names : List (List Byte)} {π : σ → β}
    {ι : Type} {J : ι → Prop} {g : ι → List Byte × List Byte → Option γ} {d : γ} (hc : Cells set zero names π J g d)
    {A B : List (List Byte × List Byte)} {k v v' : List Byte} {s : σ}
    (hs : setPairs set (A ++ (k, v) :: B) zero = some s) (h : Alike names k v v') :
    (setPairs set ((A ++ (k, v) :: B).set A.length (k, v')) zero).map π ≠ (setPairs set (A ++ (k, v) :: B) zero).map π ↔
      ∃ j, J j ∧ (last (g j) (A ++ (k, v') :: B)).getD d ≠ (last (g j) (A ++ (k, v) :: B)).getD d := by
  obtain ⟨s', hs'⟩ := hc.defined A k v v' B s hs h
  have hset : (A ++ (k, v) :: B).set A.length (k, v') = A ++ (k, v') :: B := by simp
  rw [hset, hs, hs', Option.map_some, Option.map_some, ne_eq, Option.some.injEq, hc.shows _ _ s' s hs' hs]
  constructor
  · intro hne
    obtain ⟨j, hj⟩ := not_forall.1 hne
    exact ⟨j, Classical.not_imp.1 hj⟩
  · rintro ⟨j, hj, hne⟩ hall
    exact hne (hall j hj)

/-- **The members of a name are the only ones with a say in its field** exactly when they have the last word on each
of its cells. -/
theorem onlyMembers_iff {set : σ → List Byte → List Byte → Option σ} {zero : σ} {names : List (List Byte)} {π : σ → β}
    {ι : Type} {J : ι → Prop} {g : ι → List Byte × List Byte → Option γ} {d : γ} (hc : Cells set zero names π J g d)
    {n payload : List Byte} {num : Nat} {p : Parser} (hp : jsmnParse payload num = .ok p) {s : σ}
    (hs : setPairs set (textPairs payload p.tokens) zero = some s) :
    OnlyMembers set zero names π n payload p.tokens ↔ ∀ j, J j → LastWord (g j) n payload p.tokens := by
  have hlen : ∀ A : List (Tok × Tok), (textsOf payload A).length = A.length := fun A => List.length_map _
  constructor
  · intro h j hj A kv B hsplit hsome hB
    obtain ⟨t, v⟩ := kv
    have hpair : (t, v) ∈ keyPairs p.tokens := by rw [hsplit]; simp
    obtain ⟨i, -, hv, -⟩ := mem_keyPairs.1 hpair
    obtain ⟨v', halike, hne⟩ := hc.varies _ _ j hj (zero_not_mem_tokText hp (List.mem_of_getElem? hv)) hsome
    have hps := textPairs_split payload hsplit
    refine h A.length (t, v) (by rw [hsplit]; simp) ⟨_, _, v', by rw [hps, ← hlen]; simp, halike, ?_⟩
    rw [hps] at hs ⊢
    rw [← hlen, hc.shows_replace hs halike]
    have hBn : ∀ q ∈ textsOf payload B, g j q = none := by
      intro q hq
      obtain ⟨q', hq', rfl⟩ := List.mem_map.1 hq
      exact hB q' hq'
    obtain ⟨x, hx⟩ := Option.isSome_iff_exists.1 hsome
    obtain ⟨y, hy⟩ := Option.isSome_iff_exists.1 ((hc.alike _ _ v' j halike).trans hsome)
    refine ⟨j, hj, ?_⟩
    rw [last_of_split hx hBn, last_of_split hy hBn, Option.getD_some, Option.getD_some]
    exact fun he => hne (by rw [hx, hy, he])
  · rintro h i kv hi ⟨k, v, v', hget, halike, hne⟩
    obtain ⟨A, B, hsplit, rfl⟩ := split_at hi
    have hps := textPairs_split payload hsplit
    have hkv : (tokText payload kv.1, tokText payload kv.2) = (k, v) := by
      rw [hps, ← hlen] at hget
      simpa using hget
    rw [hkv] at hps
    rw [hps] at hs
    rw [hps, ← hlen, hc.shows_replace hs halike] at hne
    -- a cell that the other value shows in
    obtain ⟨j, hj, hdiff⟩ := hne
    obtain ⟨hsome, hB⟩ := last_replace (hc.alike k v v' j halike) (fun heq => hdiff (by rw [heq]))
    exact h j hj A kv B hsplit (by rw [hkv]; exact hsome) (fun q hq => hB _ (List.mem_map.2 ⟨q, hq, rfl⟩))

/-! ## The bytes of a config event -/

theorem isSome_getElem?_congr {s t : List Byte} (h : s.length = t.length) (j : Nat) : s[j]?.isSome = t[j]?.isSome := by
  by_cases hj : j < t.length
  · rw [List.getElem?_eq_getElem hj, List.getElem?_eq_getElem (by omega)]
    rfl
  · rw [List.getElem?_eq_none (by omega), List.getElem?_eq_none (by omega)]

theorem byteAt_alike (k v v' : List Byte) (j : Nat) (h : Alike configNames k v v') :
    (byteAt j (k, v')).isSome = (byteAt j (k, v)).isSome := by
  unfold byteAt nameOf priceOf pulsesOf
  dsimp only
  by_cases hn : selected configNames k = some (text "name")
  · simp only [if_pos hn]
    exact isSome_getElem?_congr (h.2 hn) j
  · by_cases hp : selected configNames k = some (text "price")
    · simp only [if_neg hn, if_pos hp]
      by_cases h16 : 16 ≤ j
      · rw [if_pos h16, if_pos h16]
        exact isSome_getElem?_congr (by rw [length_le, length_le]) _
      · rw [if_neg h16, if_neg h16]
    · by_cases hq : selected configNames k = some (text "pulses")
      · simp only [if_neg hn, if_neg hp, if_pos hq]
        by_cases h20 : 20 ≤ j
        · rw [if_pos h20, if_pos h20]
          exact isSome_getElem?_congr (by rw [length_le, length_le]) _
        · rw [if_neg h20, if_neg h20]
      · simp only [if_neg hn, if_neg hp, if_neg hq]

/-- The texts of the powers of 256, each with one byte of its own. -/
def power : Nat → List Byte
  | 0 => text "1"
  | 1 => text "256"
  | 2 => text "65536"
  | _ => text "16777216"

/-- A byte of a number is not the same for every text. -/
theorem exists_other (f : List Byte → Option Byte) {i : Nat}
    (h : f (power i) = some 1 ∧ f (text "0") = some 0 ∧ 0 ∉ power i) (b : Byte) : ∃ v', 0 ∉ v' ∧ f v' ≠ some b := by
  obtain ⟨hone, hzero, hfree⟩ := h
  by_cases hb : b = 0
  · exact ⟨power i, hfree, by rw [hone, hb]; decide⟩
  · exact ⟨text "0", by decide, by rw [hzero]; exact fun he => hb (Option.some.inj he).symm⟩

/-- Nor is a byte of a name for every name of its length. -/
theorem exists_other_name {v : List Byte} {j : Nat} (hj : j < v.length) (h0 : 0 ∉ v) (b : Byte) :
    ∃ v' : List Byte, 0 ∉ v' ∧ v'.length = v.length ∧ v'[j]? ≠ some b := by
  have hset : ∀ c : Byte, c ≠ 0 → c ≠ b → ∃ v' : List Byte, 0 ∉ v' ∧ v'.length = v.length ∧ v'[j]? ≠ some b := by
    intro c hc hcb
    refine ⟨v.set j c, fun hmem => ?_, List.length_set, by simp [hj, hcb]⟩
    rcases List.mem_or_eq_of_mem_set hmem with hmem | hmem
    · exact h0 hmem
    · exact hc hmem.symm
  by_cases hb : b = 97
  · exact hset 98 (by decide) (by rw [hb]; decide)
  · exact hset 97 (by decide) (fun he => hb he.symm)

theorem byteAt_varies (k v : List Byte) (j : Nat) (hj : j < 22) (h0 : 0 ∉ v) (h : (byteAt j (k, v)).isSome) :
    ∃ v', Alike configNames k v v' ∧ byteAt j (k, v') ≠ byteAt j (k, v) := by
  obtain ⟨b, hb⟩ := Option.isSome_iff_exists.1 h
  rw [hb]
  unfold byteAt nameOf priceOf pulsesOf at hb ⊢
  dsimp only at hb ⊢
  by_cases hn : selected configNames k = some (text "name")
  · simp only [if_pos hn] at hb ⊢
    obtain ⟨v', hfree, hlen, hne⟩ := exists_other_name (List.getElem?_eq_some_iff.1 hb).1 h0 b
    exact ⟨v', ⟨hfree, fun _ => hlen⟩, hne⟩
  · have halike : ∀ v', 0 ∉ v' → Alike configNames k v v' := fun v' h => ⟨h, fun hname => absurd hname hn⟩
    by_cases hp : selected configNames k = some (text "price")
    · simp only [if_neg hn, if_pos hp] at hb ⊢
      split at hb
      · rename_i h16
        have hlt : j - 16 < 4 := by simpa using (List.getElem?_eq_some_iff.1 hb).1
        have hall : ∀ i < 4, (le 4 (UInt32.ofInt (atoi (power i))).toNat)[i]? = some 1 ∧
            (le 4 (UInt32.ofInt (atoi (text "0"))).toNat)[i]? = some 0 ∧ 0 ∉ power i := by decide
        obtain ⟨v', hfree, hne⟩ := exists_other (fun t => (le 4 (UInt32.ofInt (atoi t)).toNat)[j - 16]?) (hall (j - 16) hlt) b
        exact ⟨v', halike v' hfree, by rwa [if_pos h16]⟩
      · cases hb
    · by_cases hq : selected configNames k = some (text "pulses")
      · simp only [if_neg hn, if_neg hp, if_pos hq] at hb ⊢
        split at hb
        · rename_i h20
          have hall : ∀ i < 2, (le 2 (UInt16.ofInt (atoi (power i))).toNat)[i]? = some 1 ∧
              (le 2 (UInt16.ofInt (atoi (text "0"))).toNat)[i]? = some 0 ∧ 0 ∉ power i := by decide
          obtain ⟨v', hfree, hne⟩ := exists_other (fun t => (le 2 (UInt16.ofInt (atoi t)).toNat)[j - 20]?) (hall (j - 20) (by omega)) b
          exact ⟨v', halike v' hfree, by rwa [if_pos h20]⟩
        · cases hb
      · simp only [if_neg hn, if_neg hp, if_neg hq] at hb
        cases hb

theorem setConfig_defined (A : List (List Byte × List Byte)) (k v v' : List Byte) (B : List (List Byte × List Byte))
    (c : ConfigEvt) (hc : setPairs setConfig (A ++ (k, v) :: B) ConfigEvt.zero = some c) (h : Alike configNames k v v') :
    ∃ c', setPairs setConfig (A ++ (k, v') :: B) ConfigEvt.zero = some c' := by
  have hfit := setPairs_config_iff.1 ⟨c, hc⟩
  refine setPairs_config_iff.2 (fun kv hkv s hs => ?_)
  simp only [List.mem_append, List.mem_cons] at hkv hfit
  rcases hkv with hkv | rfl | hkv
  · exact hfit kv (Or.inl hkv) s hs
  · unfold nameOf at hs
    split at hs
    · rename_i hn
      cases hs
      rw [h.2 hn]
      exact hfit (k, v) (Or.inr (Or.inl rfl)) v (if_pos hn)
    · cases hs
  · exact hfit kv (Or.inr (Or.inr hkv)) s hs

/-- A field of the event that is a range of the structure. -/
theorem configCells {π : ConfigEvt → β} {lo w : Nat} (hw : lo + w ≤ 22)
    (hπ : ∀ c d, π c = π d ↔ peek c.bytes lo w = peek d.bytes lo w) :
    Cells setConfig ConfigEvt.zero configNames π (fun j => lo ≤ j ∧ j < lo + w) byteAt 0 where
  shows ps qs c d hc hd := by
    have hin : ∀ e : ConfigEvt, lo + w ≤ e.bytes.length := by
      intro e
      rw [e.size, sizeofConfigEvt]
      omega
    rw [hπ, peek_congr_iff (hin c) (hin d)]
    refine forall_congr' (fun j => forall_congr' (fun _ => ?_))
    rw [byte_of_config hc, byte_of_config hd]
  alike := byteAt_alike
  varies k v j hj h0 h := byteAt_varies k v j (by omega) h0 h
  defined := setConfig_defined

theorem nameCells : Cells setConfig ConfigEvt.zero configNames ConfigEvt.name (fun j => 0 ≤ j ∧ j < 16) byteAt 0 :=
  configCells (w := 16) (by omega) (fun _ _ => Iff.rfl)

theorem priceCells : Cells setConfig ConfigEvt.zero configNames ConfigEvt.price (fun j => 16 ≤ j ∧ j < 20) byteAt 0 := by
  refine configCells (w := 4) (by omega) (fun c d => ?_)
  rw [← UInt32.toNat_inj, c.toNat_price, d.toNat_price, leVal_inj]
  rw [length_peek (by rw [c.size]; decide), length_peek (by rw [d.size]; decide)]

theorem pulsesCells :
    Cells setConfig ConfigEvt.zero configNames ConfigEvt.pulsesPerCredit (fun j => 20 ≤ j ∧ j < 22) byteAt 0 := by
  refine configCells (w := 2) (by omega) (fun c d => ?_)
  rw [← UInt16.toNat_inj, c.toNat_pulsesPerCredit, d.toNat_pulsesPerCredit, leVal_inj]
  rw [length_peek (by rw [c.size]; decide), length_peek (by rw [d.size]; decide)]

/-! ## The fields of the other events -/

/-- The members of a name assign its field. -/
def assigned (names : List (List Byte)) (n : List Byte) (f : List Byte → γ) (kv : List Byte × List Byte) : Option γ :=
  if selected names kv.1 = some n then some (f kv.2) else none

def balanceOf : List Byte × List Byte → Option UInt32 :=
  assigned creditNames (text "balance") (fun s => UInt32.ofInt (atoi s))

def countOf : List Byte × List Byte → Option UInt16 :=
  assigned creditNames (text "count") (fun s => UInt16.ofInt (atoi s))

def enableOf : List Byte × List Byte → Option Int32 :=
  assigned enableNames (text "enable") (fun s => Int32.ofInt (atoi s))

/-- A field of a record is one cell: the members of its name assign it, and no store is refused. -/
theorem recordCells {set : σ → List Byte → List Byte → Option σ} {zero : σ} {names : List (List Byte)} {π : σ → γ}
    {n : List Byte} {f : List Byte → γ}
    (hset : ∀ s k v s', set s k v = some s' → π s' = if selected names k = some n then f v else π s)
    (htotal : ∀ s k v, ∃ s', set s k v = some s') (hname : text "name" ∉ names)
    (hf : f (text "0") ≠ f (text "1")) :
    Cells set zero names π (fun _ : Unit => True) (fun _ => assigned names n f) (π zero) where
  shows ps qs s s' hs hs' := by
    have hfold : ∀ rs t, setPairs set rs zero = some t → π t = (last (assigned names n f) rs).getD (π zero) :=
      fun rs t ht => field_of_setPairs π f hset ht
    rw [hfold ps s hs, hfold qs s' hs']
    simp
  alike k v v' _ _ := by
    unfold assigned
    dsimp only
    split <;> rfl
  varies k v _ _ _ h := by
    have halike : ∀ v', 0 ∉ v' → Alike names k v v' := fun v' h0 =>
      ⟨h0, fun hsel => absurd (List.mem_of_find?_eq_some hsel) hname⟩
    unfold assigned at h ⊢
    dsimp only at h ⊢
    split at h
    · rename_i hsel
      simp only [if_pos hsel]
      by_cases h0 : f (text "0") = f v
      · exact ⟨text "1", halike _ (by decide), fun he => hf (by rw [h0, Option.some.inj he])⟩
      · exact ⟨text "0", halike _ (by decide), fun he => h0 (Option.some.inj he)⟩
    · cases h
  defined A k v v' B _ _ _ := by
    unfold setPairs
    exact foldlM_total (fun s kv => htotal s kv.1 kv.2) (A ++ (k, v') :: B) zero

theorem balanceCells : Cells setCredit ⟨0, 0⟩ creditNames CreditEvt.balance (fun _ : Unit => True) (fun _ => balanceOf) 0 :=
  recordCells (fun _ _ _ _ h => (fields_of_setCredit h).1) setCredit_some (by decide) (by decide)

theorem countCells : Cells setCredit ⟨0, 0⟩ creditNames CreditEvt.count (fun _ : Unit => True) (fun _ => countOf) 0 :=
  recordCells (fun _ _ _ _ h => (fields_of_setCredit h).2) setCredit_some (by decide) (by decide)

theorem enableCells : Cells setEnable ⟨0⟩ enableNames EnableEvt.enable (fun _ : Unit => True) (fun _ => enableOf) 0 :=
  recordCells (fun _ _ _ _ h => field_of_setEnable h) setEnable_some (by decide) (by decide)

/-! ## The three callbacks -/

/-- The callback pushes the event of the pairs, and each of its fields is up to the members of its own name. -/
def ConfigByMembers (payload tail : List Byte) (toks : List Tok) : Prop :=
  (∃ c, mqttConfigCallback payload tail = some [.config c] ∧
    setPairs setConfig (textPairs payload toks) ConfigEvt.zero = some c) ∧
  OnlyMembers setConfig ConfigEvt.zero configNames ConfigEvt.name (text "name") payload toks ∧
  OnlyMembers setConfig ConfigEvt.zero configNames ConfigEvt.price (text "price") payload toks ∧
  OnlyMembers setConfig ConfigEvt.zero configNames ConfigEvt.pulsesPerCredit (text "pulses") payload toks

def CreditByMembers (payload tail : List Byte) (toks : List Tok) : Prop :=
  (∃ e, mqttAddCoinsCallback payload tail = some [.credit e] ∧
    setPairs setCredit (textPairs payload toks) ⟨0, 0⟩ = some e) ∧
  OnlyMembers setCredit ⟨0, 0⟩ creditNames CreditEvt.balance (text "balance") payload toks ∧
  OnlyMembers setCredit ⟨0, 0⟩ creditNames CreditEvt.count (text "count") payload toks

def EnableByMembers (payload tail : List Byte) (toks : List Tok) : Prop :=
  (∃ e, mqttEnableCallback payload tail = some [.enable e] ∧
    setPairs setEnable (textPairs payload toks) ⟨0⟩ = some e) ∧
  OnlyMembers setEnable ⟨0⟩ enableNames EnableEvt.enable (text "enable") payload toks

/-- No name runs past the structure, and each byte of a field has its last word from a member of the field's name. -/
def ConfigLastWord (payload : List Byte) (toks : List Tok) : Prop :=
  (∀ kv ∈ textPairs payload toks, ∀ s, nameOf kv = some s → s.length ≤ sizeofConfigEvt) ∧
  (∀ j, 0 ≤ j ∧ j < 16 → LastWord (byteAt j) (text "name") payload toks) ∧
  (∀ j, 16 ≤ j ∧ j < 20 → LastWord (byteAt j) (text "price") payload toks) ∧
  ∀ j, 20 ≤ j ∧ j < 22 → LastWord (byteAt j) (text "pulses") payload toks

theorem configByMembers_iff {payload : List Byte} {p : Parser} (hp : jsmnParse payload MQTT_MAX_JSON_TOKENS = .ok p)
    (b : Byte) (tail : List Byte) : ConfigByMembers payload (b :: tail) p.tokens ↔ ConfigLastWord payload p.tokens := by
  have hcall : ∀ c, setPairs setConfig (textPairs payload p.tokens) ConfigEvt.zero = some c →
      mqttConfigCallback payload (b :: tail) = some [.config c] := by
    intro c hc
    rw [mqttConfigCallback, mqttCallback_pairs reads_config _ _ hp, hc, Option.map_some]
  constructor
  · rintro ⟨⟨c, -, hc⟩, hn, hpr, hq⟩
    exact ⟨setPairs_config_iff.1 ⟨c, hc⟩, (onlyMembers_iff nameCells hp hc).1 hn, (onlyMembers_iff priceCells hp hc).1 hpr,
      (onlyMembers_iff pulsesCells hp hc).1 hq⟩
  · rintro ⟨hfit, hn, hpr, hq⟩
    obtain ⟨c, hc⟩ := setPairs_config_iff.2 hfit
    exact ⟨⟨c, hcall c hc, hc⟩, (onlyMembers_iff nameCells hp hc).2 hn, (onlyMembers_iff priceCells hp hc).2 hpr,
      (onlyMembers_iff pulsesCells hp hc).2 hq⟩

theorem creditByMembers_iff {payload : List Byte} {p : Parser} (hp : jsmnParse payload MQTT_MAX_JSON_TOKENS = .ok p)
    (b : Byte) (tail : List Byte) : CreditByMembers payload (b :: tail) p.tokens ↔
      LastWord balanceOf (text "balance") payload p.tokens ∧ LastWord countOf (text "count") payload p.tokens := by
  obtain ⟨e, he⟩ := setPairs_credit (textPairs payload p.tokens) ⟨0, 0⟩
  have hevent : ∃ e, mqttAddCoinsCallback payload (b :: tail) = some [.credit e] ∧
      setPairs setCredit (textPairs payload p.tokens) ⟨0, 0⟩ = some e := by
    refine ⟨e, ?_, he⟩
    rw [mqttAddCoinsCallback, mqttCallback_pairs reads_credit _ _ hp, he, Option.map_some]
  rw [CreditByMembers, onlyMembers_iff balanceCells hp he, onlyMembers_iff countCells hp he]
  exact ⟨fun h => ⟨h.2.1 () trivial, h.2.2 () trivial⟩, fun h => ⟨hevent, fun _ _ => h.1, fun _ _ => h.2⟩⟩

theorem enableByMembers_iff {payload : List Byte} {p : Parser} (hp : jsmnParse payload MQTT_MAX_JSON_TOKENS = .ok p)
    (b : Byte) (tail : List Byte) : EnableByMembers payload (b :: tail) p.tokens ↔
      LastWord enableOf (text "enable") payload p.tokens := by
  obtain ⟨e, he⟩ := setPairs_enable (textPairs payload p.tokens) ⟨0⟩
  have hevent : ∃ e, mqttEnableCallback payload (b :: tail) = some [.enable e] ∧
      setPairs setEnable (textPairs payload p.tokens) ⟨0⟩ = some e := by
    refine ⟨e, ?_, he⟩
    rw [mqttEnableCallback, mqttCallback_pairs reads_enable _ _ hp, he, Option.map_some]
  rw [EnableByMembers, onlyMembers_iff enableCells hp he]
  exact ⟨fun h => h.2 () trivial, fun h => ⟨hevent, fun _ _ => h⟩⟩

def enableTokens : List Tok := [⟨.object, 0, some 12, 1⟩, ⟨.string, 2, some 8, 1⟩, ⟨.primitive, 10, some 11, 0⟩]

def nestedTokens : List Tok :=
  [⟨.object, 0, some 17, 1⟩, ⟨.string, 2, some 3, 1⟩, ⟨.object, 5, some 16, 1⟩, ⟨.string, 7, some 12, 1⟩,
    ⟨.primitive, 14, some 15, 0⟩]

def valueKeyTokens : List Tok :=
  [⟨.object, 0, some 15, 1⟩, ⟨.string, 2, some 3, 1⟩, ⟨.string, 6, some 11, 1⟩, ⟨.primitive, 13, some 14, 0⟩]

end MqttLink
end RtPay
