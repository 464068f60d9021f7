import Mathlib.Data.List.Basic

/-!
# Texts with holes

A template is a text in which some places are left to be filled. Where the fillers say themselves where they end, two
fillings of one template are the same text only if they fill every hole alike.
-/

namespace Pulsate.Lib

open List

inductive Piece (χ α : Type)
  | text (s : List χ)
  | hole (a : α)

abbrev Template (χ α : Type) := List (Piece χ α)

namespace Template

variable {χ α : Type}

def holes (t : Template χ α) : List α :=
  t.flatMap (fun
    | .text _ => []
    | .hole a => [a])

/-- The template without what is in its holes. -/
def blank (t : Template χ α) : Template χ Unit :=
  t.map (fun
    | .text s => .text s
    | .hole _ => .hole ())

def render (put : α → List χ) (t : Template χ α) : List χ :=
  t.flatMap (fun
    | .text s => s
    | .hole a => put a)

/-! ## Lists -/

/-- Templates one after another, with a text in between. -/
def sepBy (sep : List χ) : List (Template χ α) → Template χ α
  | [] => []
  | [t] => t
  | t :: u :: ts => t ++ .text sep :: sepBy sep (u :: ts)

@[simp] theorem holes_nil : holes ([] : Template χ α) = [] := rfl

@[simp] theorem holes_text (s : List χ) (t : Template χ α) : holes (.text s :: t) = holes t := rfl

@[simp] theorem holes_hole (a : α) (t : Template χ α) : holes (.hole a :: t) = a :: holes t := rfl

@[simp] theorem holes_append (t u : Template χ α) : holes (t ++ u) = holes t ++ holes u := flatMap_append

@[simp] theorem holes_sepBy (sep : List χ) (ts : List (Template χ α)) : holes (sepBy sep ts) = ts.flatMap holes := by
  induction ts with
  | nil => rfl
  | cons t ts ih =>
    cases ts with
    | nil => exact (append_nil _).symm
    | cons u ts => rw [sepBy, holes_append, holes_text, ih, flatMap_cons (x := t)]

@[simp] theorem blank_nil : blank ([] : Template χ α) = [] := rfl

@[simp] theorem blank_text (s : List χ) (t : Template χ α) : blank (.text s :: t) = .text s :: blank t := rfl

@[simp] theorem blank_hole (a : α) (t : Template χ α) : blank (.hole a :: t) = .hole () :: blank t := rfl

@[simp] theorem blank_append (t u : Template χ α) : blank (t ++ u) = blank t ++ blank u := map_append

@[simp] theorem blank_sepBy (sep : List χ) (ts : List (Template χ α)) :
    blank (sepBy sep ts) = sepBy sep (ts.map blank) := by
  induction ts with
  | nil => rfl
  | cons t ts ih =>
    cases ts with
    | nil => rfl
    | cons u ts =>
      rw [sepBy, blank_append, blank_text, ih]
      rfl

/-! ## Filling -/

theorem render_eq_iff {put : α → List χ} (hput : ∀ {a b x y}, put a ++ x = put b ++ y → a = b ∧ x = y)
    {t u : Template χ α} (h : blank t = blank u) : render put t = render put u ↔ holes t = holes u := by
  induction t generalizing u with
  | nil =>
    cases u with
    | nil => exact iff_of_true rfl rfl
    | cons q u => cases h
  | cons p t ih =>
    cases u with
    | nil => cases h
    | cons q u =>
      have htail : blank t = blank u := tail_eq_of_cons_eq h
      have hhead := head_eq_of_cons_eq h
      cases p with
      | text s =>
        cases q with
        | text s' =>
          cases hhead
          show s ++ render put t = s ++ render put u ↔ holes t = holes u
          rw [append_cancel_left_eq, ih htail]
        | hole b => cases hhead
      | hole a =>
        cases q with
        | text s' => cases hhead
        | hole b =>
          show put a ++ render put t = put b ++ render put u ↔ a :: holes t = b :: holes u
          rw [List.cons.injEq, ← ih htail]
          constructor
          · exact fun heq => hput heq
          · rintro ⟨rfl, heq⟩
            rw [heq]

end Template

end Pulsate.Lib
