/-!
# Blanks and lines

The characters with the `White_Space` property, trimming them off both ends of a text, and
splitting a text into lines. A carriage return at the end of a line is a blank like any other, so
it goes when the line is trimmed.
-/

namespace SimpleLR.Text

/-- Whether a character has the `White_Space` property. -/
def isBlank (c : Char) : Bool :=
  let n := c.toNat
  (0x9 ≤ n && n ≤ 0xD) || n == 0x20 || n == 0x85 || n == 0xA0 || n == 0x1680 ||
    (0x2000 ≤ n && n ≤ 0x200A) || n == 0x2028 || n == 0x2029 || n == 0x202F || n == 0x205F ||
    n == 0x3000

/-- Drops the blanks at both ends. -/
def trim (cs : List Char) : List Char :=
  ((cs.dropWhile isBlank).reverse.dropWhile isBlank).reverse

@[simp] theorem trim_nil : trim [] = [] := rfl

variable {α : Type} [DecidableEq α]

/-- Splits a sequence at each `newline`, which may also end the last line. -/
def lines (newline : α) : List α → List (List α)
  | [] => []
  | c :: cs =>
    if c = newline then [] :: lines newline cs
    else match lines newline cs with
      | [] => [[c]]
      | line :: rest => (c :: line) :: rest

@[simp] theorem lines_nil (newline : α) : lines newline [] = [] := rfl

@[simp] theorem lines_newline_cons (newline : α) (cs : List α) :
    lines newline (newline :: cs) = [] :: lines newline cs := by simp [lines]

theorem lines_append_newline {newline : α} {line : List α} (h : newline ∉ line) (cs : List α) :
    lines newline (line ++ newline :: cs) = line :: lines newline cs := by
  induction line with
  | nil => simp
  | cons c line ih =>
    simp only [List.mem_cons, not_or] at h
    simp [lines, Ne.symm h.1, ih h.2]

end SimpleLR.Text
