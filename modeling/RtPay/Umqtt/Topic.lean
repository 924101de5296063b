import RtPay.Lib.Topic
import RtPay.Umqtt.Qos2
/-!
# Umqtt.Topic — topicname_is_matched against MQTT's topics

`topicname_is_matched` walks filter and name byte by byte.  A wildcard steps over the bytes of a level, so an empty
level is none to it, and `#` needs a level to step over: what is matched is what MQTT's filter covers as long as no
wildcard faces an empty level (`topic_matched_iff`).  The device's own filters have no wildcards.
-/
namespace RtPay
namespace Umqtt

open Bytes Topic

/-- MQTT's signs. -/
def signs : Signs Byte where
  sep := 0x2F
  one := 0x2B
  many := 0x23
  one_ne_sep := by decide
  many_ne_sep := by decide
  many_ne_one := by decide

def nameOfText (name : List Byte) : Name signs := Name.ofText name

/-! ## Wildcards and empty levels -/

def SegmentFaces : Segment signs → Level signs → Prop
  | .literal _, _ => True
  | .one, l => l.val ≠ []

/-- No wildcard faces an empty level, or, if it is the last one, nothing. -/
def FilterFaces : Filter signs → Name signs → Prop
  | .last s, .last l => SegmentFaces s l
  | .last _, .cons _ _ => True
  | .many, .last l => l.val ≠ []
  | .many, .cons l _ => l.val ≠ []
  | .cons _ .many, .last _ => False
  | .cons _ _, .last _ => True
  | .cons s rest, .cons l name => SegmentFaces s l ∧ FilterFaces rest name

/-! ## One level -/

/-- What is behind a level: nothing, or a separator. -/
def Behind (r : List Byte) : Prop := r = [] ∨ ∃ r', r = 0x2F :: r'

theorem behind_nil : Behind [] := Or.inl rfl

theorem behind_sep (r : List Byte) : Behind (0x2F :: r) := Or.inr ⟨r, rfl⟩

theorem matched_sep (fr nr : List Byte) : topicnameIsMatched (0x2F :: fr) (0x2F :: nr) = topicnameIsMatched fr nr := by
  rw [topicnameIsMatched, if_neg (by decide), if_neg (by decide), if_neg (by decide), if_neg (by decide)]

/-- A level that stands for itself is compared byte by byte. -/
theorem matched_literal {fr nr : List Byte} (hfr : Behind fr) (hnr : Behind nr) : ∀ {t l : List Byte},
    (0x2F : Byte) ∉ t ∧ (0x2B : Byte) ∉ t ∧ (0x23 : Byte) ∉ t → (0x2F : Byte) ∉ l →
    (topicnameIsMatched (t ++ fr) (l ++ nr) = true ↔ t = l ∧ topicnameIsMatched fr nr = true)
  | [], [], _, _ => by simp
  | [], n :: l, _, hl => by
    have hn : n ≠ 0x2F := fun h => hl (h ▸ List.mem_cons_self)
    rcases hfr with rfl | ⟨r, rfl⟩
    · simp [topicnameIsMatched]
    · rw [List.nil_append, List.cons_append, topicnameIsMatched, if_neg (fun h => hn h.1),
        if_pos ⟨by decide, by decide, Ne.symm hn⟩]
      simp
  | f :: t, [], ht, _ => by
    have hf : f ≠ 0x2F := fun h => ht.1 (h ▸ List.mem_cons_self)
    rcases hnr with rfl | ⟨r, rfl⟩
    · simp [topicnameIsMatched]
    · rw [List.nil_append, List.cons_append, topicnameIsMatched, if_pos ⟨rfl, hf⟩]
      simp
  | f :: t, n :: l, ht, hl => by
    have hn : n ≠ 0x2F := fun h => hl (h ▸ List.mem_cons_self)
    have hone : f ≠ 0x2B := fun h => ht.2.1 (h ▸ List.mem_cons_self)
    have hmany : f ≠ 0x23 := fun h => ht.2.2 (h ▸ List.mem_cons_self)
    rw [List.cons_append, List.cons_append, topicnameIsMatched, if_neg (fun h => hn h.1)]
    by_cases hfn : f = n
    · have ih := matched_literal hfr hnr (t := t) (l := l)
        ⟨fun h => ht.1 (List.mem_cons_of_mem _ h), fun h => ht.2.1 (List.mem_cons_of_mem _ h),
          fun h => ht.2.2 (List.mem_cons_of_mem _ h)⟩ (fun h => hl (List.mem_cons_of_mem _ h))
      rw [if_neg (fun h => h.2.2 hfn), if_neg hone, if_neg hmany, ih, hfn, List.cons.injEq, and_iff_right rfl]
    · rw [if_pos ⟨hone, hmany, hfn⟩]
      simp [hfn]

theorem dropWhile_level {l nr : List Byte} (hl : (0x2F : Byte) ∉ l) (hnr : Behind nr) :
    (l ++ nr).dropWhile (· ≠ 0x2F) = nr := by
  have hall : ∀ a ∈ l, decide (a ≠ 0x2F) = true := fun a ha => decide_eq_true (fun h => hl (h ▸ ha))
  rw [List.dropWhile_append_of_pos hall]
  rcases hnr with rfl | ⟨r, rfl⟩
  · rfl
  · simp

/-- A `+` steps over a level that is not empty. -/
theorem matched_one {fr nr l : List Byte} (hnr : Behind nr) (hl : (0x2F : Byte) ∉ l) :
    topicnameIsMatched (0x2B :: fr) (l ++ nr) = true ↔ l ≠ [] ∧ topicnameIsMatched fr nr = true := by
  cases l with
  | nil =>
    rcases hnr with rfl | ⟨r, rfl⟩
    · simp [topicnameIsMatched]
    · rw [List.nil_append, topicnameIsMatched, if_pos ⟨rfl, by decide⟩]
      simp
  | cons n l =>
    have hn : n ≠ 0x2F := fun h => hl (h ▸ List.mem_cons_self)
    rw [List.cons_append, topicnameIsMatched, if_neg (fun h => hn h.1), if_neg (fun h => h.1 rfl), if_pos rfl,
      dropWhile_level (fun h => hl (List.mem_cons_of_mem _ h)) hnr]
    simp

/-- A `#` steps over all that is left, if that does not start with a separator. -/
theorem matched_many {nr l : List Byte} (hnr : Behind nr) (hl : (0x2F : Byte) ∉ l) :
    topicnameIsMatched [0x23] (l ++ nr) = true ↔ l ≠ [] := by
  cases l with
  | nil =>
    rcases hnr with rfl | ⟨r, rfl⟩
    · simp [topicnameIsMatched]
    · rw [List.nil_append, topicnameIsMatched, if_pos ⟨rfl, by decide⟩]
      simp
  | cons n l =>
    have hn : n ≠ 0x2F := fun h => hl (h ▸ List.mem_cons_self)
    rw [List.cons_append, topicnameIsMatched, if_neg (fun h => hn h.1), if_neg (fun h => h.2.1 rfl), if_neg (by decide),
      if_pos rfl]
    simp [topicnameIsMatched]

theorem matched_segment {fr nr : List Byte} (hfr : Behind fr) (hnr : Behind nr) (s : Segment signs) (l : Level signs) :
    topicnameIsMatched (s.text ++ fr) (l.val ++ nr) = true ↔
      (s.Covers l ∧ SegmentFaces s l) ∧ topicnameIsMatched fr nr = true := by
  cases s with
  | literal t => exact (matched_literal hfr hnr t.property l.property).trans (by simp [Segment.Covers, SegmentFaces])
  | one => exact (matched_one hnr l.property).trans (by simp [Segment.Covers, SegmentFaces])

/-! ## A whole name -/

theorem matched_text_iff : ∀ (f : Filter signs) (n : Name signs),
    topicnameIsMatched f.text n.text = true ↔ f.Covers n ∧ FilterFaces f n
  | .last s, .last l => by
    have h := matched_segment behind_nil behind_nil s l
    rw [List.append_nil, List.append_nil] at h
    exact h.trans (and_iff_left rfl)
  | .last s, .cons l rest => by
    have h := matched_segment behind_nil (behind_sep rest.text) s l
    rw [List.append_nil] at h
    exact h.trans (iff_of_false (fun h => absurd h.2 (by simp [topicnameIsMatched])) (fun h => h.1))
  | .many, .last l => by
    have h := matched_many behind_nil l.property
    rw [List.append_nil] at h
    exact h.trans (and_iff_right trivial).symm
  | .many, .cons l rest => (matched_many (behind_sep rest.text) l.property).trans (and_iff_right trivial).symm
  | .cons s rest, .last l => by
    have h := matched_segment (behind_sep rest.text) behind_nil s l
    rw [List.append_nil] at h
    refine h.trans (iff_of_false (fun h => absurd h.2 (by simp [topicnameIsMatched])) ?_)
    cases rest with
    | many => exact fun h => h.2
    | last s' => exact fun h => h.1
    | cons s' rest' => exact fun h => h.1
  | .cons s rest, .cons l name => by
    have h := matched_segment (behind_sep rest.text) (behind_sep name.text) s l
    rw [matched_sep, matched_text_iff rest name] at h
    refine h.trans ?_
    have hcovers : (Filter.cons s rest).Covers (.cons l name) ↔ s.Covers l ∧ rest.Covers name := by
      cases rest <;> rfl
    have hfaces : FilterFaces (.cons s rest) (.cons l name) ↔ SegmentFaces s l ∧ FilterFaces rest name := by
      cases rest <;> rfl
    rw [hcovers, hfaces, and_and_and_comm]

/-- **A name is matched exactly when MQTT's filter covers it and no wildcard of the filter faces an empty level.** -/
theorem topic_matched_iff (f : Filter signs) (name : List Byte) :
    topicnameIsMatched f.text name = true ↔ f.Covers (nameOfText name) ∧ FilterFaces f (nameOfText name) := by
  have h := matched_text_iff f (nameOfText name)
  rwa [nameOfText, Name.text_ofText] at h

/-! ## Filters without wildcards -/

/-- A filter without wildcards matches itself alone. -/
theorem matched_plain_iff : ∀ {f : List Byte}, (∀ b ∈ f, b ≠ 0x2B ∧ b ≠ 0x23) → ∀ name : List Byte,
    topicnameIsMatched f name = true ↔ f = name
  | [], _, name => by cases name <;> simp [topicnameIsMatched]
  | f :: fs, _, [] => by simp [topicnameIsMatched]
  | f :: fs, h, n :: name => by
    obtain ⟨hone, hmany⟩ := h f List.mem_cons_self
    have ih := matched_plain_iff (fun b hb => h b (List.mem_cons_of_mem _ hb)) name
    rw [topicnameIsMatched, List.cons.injEq]
    by_cases hfn : f = n
    · rw [if_neg (fun h => h.2 (hfn.trans h.1)), if_neg (fun h => h.2.2 hfn), if_neg hone, if_neg hmany, ih,
        and_iff_right hfn]
    · by_cases hsep : n = 0x2F ∧ f ≠ 0x2F
      · rw [if_pos hsep]
        simp [hfn]
      · rw [if_neg hsep, if_pos ⟨hone, hmany, hfn⟩]
        simp [hfn]

/-- **The device hands a publication to the callback of its topic**, and to no other. -/
theorem deliver_device (name : List Byte) : umqttDeliverMessage subscribedTopics name =
    (subscribedTopics.filter (fun x => decide (x.topicfilter = name))).map Subscription.callback := by
  have hplain : ∀ x ∈ subscribedTopics, ∀ b ∈ x.topicfilter, b ≠ 0x2B ∧ b ≠ 0x23 := by decide +kernel
  rw [umqttDeliverMessage]
  congr 1
  refine List.filter_congr (fun x hx => ?_)
  rw [Bool.eq_iff_iff, decide_eq_true_iff]
  exact matched_plain_iff (hplain x hx) name

end Umqtt
end RtPay
