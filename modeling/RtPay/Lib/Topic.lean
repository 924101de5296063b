import Mathlib.Data.List.Basic
/-!
# Topic — names and filters of levels

A topic name is a list of levels with separators between them; a filter has levels too, each of which stands for itself
or for any one level, and may end in a sign for any number of levels.  `Covers` is MQTT's relation between the two; a
name is the same as its text (`Name.text_ofText`, `Name.ofText_text`).
-/
namespace Topic

/-- The separator, and the two wildcards of a filter. -/
structure Signs (α : Type) where
  sep : α
  one : α
  many : α
  one_ne_sep : one ≠ sep
  many_ne_sep : many ≠ sep
  many_ne_one : many ≠ one

variable {α : Type} (w : Signs α)

/-- What stands between two separators. -/
abbrev Level := { l : List α // w.sep ∉ l }

/-- A level of a filter that stands for itself. -/
abbrev Literal := { l : List α // w.sep ∉ l ∧ w.one ∉ l ∧ w.many ∉ l }

inductive Name
  | last (l : Level w)
  | cons (l : Level w) (rest : Name)

inductive Segment
  | literal (t : Literal w)
  | one

inductive Filter
  | last (s : Segment w)
  | many
  | cons (s : Segment w) (rest : Filter)

variable {w}

def Name.text : Name w → List α
  | last l => l.val
  | cons l rest => l.val ++ w.sep :: rest.text

def Segment.text : Segment w → List α
  | literal t => t.val
  | one => [w.one]

def Filter.text : Filter w → List α
  | last s => s.text
  | many => [w.many]
  | cons s rest => s.text ++ w.sep :: rest.text

/-! ## A name and its text -/

/-- A level, one letter longer. -/
def Level.push (a : α) (h : w.sep ≠ a) (l : Level w) : Level w :=
  ⟨a :: l.val, fun hm => (List.mem_cons.1 hm).elim h l.property⟩

def Name.push (a : α) (h : w.sep ≠ a) : Name w → Name w
  | last l => .last (l.push a h)
  | cons l rest => .cons (l.push a h) rest

theorem Name.text_push (a : α) (h : w.sep ≠ a) (n : Name w) : (n.push a h).text = a :: n.text := by
  cases n <;> rfl

/-- The level of an empty text. -/
def Level.nil : Level w := ⟨[], List.not_mem_nil⟩

section

variable [DecidableEq α]

/-- The name a text is. -/
def Name.ofText : List α → Name w
  | [] => .last .nil
  | a :: l => if h : w.sep = a then .cons .nil (ofText l) else (ofText l).push a h

/-- **Every text is a name.** -/
@[simp] theorem Name.text_ofText : ∀ l : List α, (Name.ofText l : Name w).text = l
  | [] => rfl
  | a :: l => by
    rw [ofText]
    split_ifs with h
    · rw [text, text_ofText l, ← h]
      rfl
    · rw [text_push, text_ofText l]

theorem Name.ofText_level_append {r : List α} {n : Name w} (hr : Name.ofText r = n) :
    ∀ (l : List α) (h : w.sep ∉ l), Name.ofText (l ++ w.sep :: r) = .cons ⟨l, h⟩ n
  | [], _ => by
    rw [List.nil_append, ofText, dif_pos rfl, hr]
    rfl
  | a :: l, h => by
    have ha : w.sep ≠ a := fun he => h (he ▸ List.mem_cons_self)
    rw [List.cons_append, ofText, dif_neg ha, ofText_level_append hr l (fun hm => h (List.mem_cons_of_mem _ hm))]
    rfl

theorem Name.ofText_level : ∀ (l : List α) (h : w.sep ∉ l), (Name.ofText l : Name w) = .last ⟨l, h⟩
  | [], _ => rfl
  | a :: l, h => by
    have ha : w.sep ≠ a := fun he => h (he ▸ List.mem_cons_self)
    rw [ofText, dif_neg ha, ofText_level l (fun hm => h (List.mem_cons_of_mem _ hm))]
    rfl

/-- **And of one name only.** -/
@[simp] theorem Name.ofText_text : ∀ n : Name w, Name.ofText n.text = n
  | last l => ofText_level l.val l.property
  | cons l rest => ofText_level_append (ofText_text rest) l.val l.property

end

/-! ## What a filter covers -/

def Segment.Covers : Segment w → Level w → Prop
  | literal t, l => t.val = l.val
  | one, _ => True

/-- **MQTT's relation**: the last wildcard stands for the levels that are left, and for none of them too. -/
def Filter.Covers : Filter w → Name w → Prop
  | last s, .last l => s.Covers l
  | last _, .cons _ _ => False
  | many, _ => True
  | cons s many, .last l => s.Covers l
  | cons _ _, .last _ => False
  | cons s rest, .cons l name => s.Covers l ∧ rest.Covers name

end Topic
