/-
White space: the characters that Unicode gives the property White_Space, and the removal of them
from the two ends of a text. The table holds every character that core calls white space
(`isBlank_of_isWhitespace`).
-/
namespace FizzService.Text

/-- The characters with the Unicode property White_Space. -/
def blanks : List Char :=
  ['\t', '\n', '\x0b', '\x0c', '\r', ' ', '\x85', '\u00a0', '\u1680',
    '\u2000', '\u2001', '\u2002', '\u2003', '\u2004', '\u2005', '\u2006', '\u2007', '\u2008',
    '\u2009', '\u200a', '\u2028', '\u2029', '\u202f', '\u205f', '\u3000']

def isBlank (c : Char) : Bool := blanks.contains c

theorem isBlank_of_isWhitespace {c : Char} (h : c.isWhitespace = true) : isBlank c = true := by
  simp only [Char.isWhitespace, Bool.or_eq_true, decide_eq_true_eq] at h
  simp only [isBlank, blanks, List.contains_iff_mem]
  rcases h with ((h | h) | h) | h <;> subst h <;> decide

/-- A text without the white space at its two ends. -/
def trim (cs : List Char) : List Char :=
  ((cs.dropWhile isBlank).reverse.dropWhile isBlank).reverse

end FizzService.Text
