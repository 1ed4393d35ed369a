import StaticPromotion.Text.Alphanumeric

/-!
# Blanks

* `isBlank c`   the characters that count as white space: the controls from tab to carriage return, the four information
                separators, the space, and the Unicode spaces and line separators (the zero-width characters are not among
                them);
* `strip cs`    the list without the blanks at its two ends.
-/

namespace StaticPromotion.Text

def blankRanges : List (Nat × Nat) :=
  [(0x09, 0x0D), (0x1C, 0x20), (0x85, 0x85), (0xA0, 0xA0), (0x1680, 0x1680), (0x2000, 0x200A),
    (0x2028, 0x2029), (0x202F, 0x202F), (0x205F, 0x205F), (0x3000, 0x3000)]

def isBlank (c : Char) : Bool :=
  inRanges blankRanges c.toNat

/-- core's white space is among the blanks -/
theorem isBlank_of_isWhitespace {c : Char} (h : c.isWhitespace = true) : isBlank c = true := by
  simp only [Char.isWhitespace, Bool.or_eq_true, decide_eq_true_eq] at h
  rcases h with ((rfl | rfl) | rfl) | rfl <;> decide

def strip (cs : List Char) : List Char :=
  ((cs.dropWhile isBlank).reverse.dropWhile isBlank).reverse

@[simp] theorem strip_nil : strip [] = [] := rfl

end StaticPromotion.Text
