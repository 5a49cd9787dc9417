/-
Letters and digits of all scripts.

Beyond ASCII a character counts as a letter or a digit unless it is in one of the ranges of
white space, punctuation, signs and pictures below.
-/

namespace Bourse.Text

/-- Ranges beyond ASCII without letters and digits. -/
def signRanges : List (Nat × Nat) :=
  [(0x80, 0xA9), (0xAB, 0xB1), (0xB4, 0xB4), (0xB6, 0xB8), (0xBB, 0xBB), (0xBF, 0xBF),
    (0xD7, 0xD7), (0xF7, 0xF7), (0x2C2, 0x2C5), (0x2D2, 0x2DF), (0x300, 0x344), (0x346, 0x36F),
    (0x2000, 0x206F), (0x20A0, 0x2101), (0x2190, 0x245F), (0x249C, 0x24B5), (0x2500, 0x2775),
    (0x2794, 0x2BFF), (0x2E00, 0x2E2E), (0x2E30, 0x3004), (0x3008, 0x3020), (0x3030, 0x3030),
    (0xE000, 0xF8FF), (0xFE00, 0xFE6F), (0xFEFF, 0xFF0F), (0xFF1A, 0xFF20), (0xFF3B, 0xFF40),
    (0xFF5B, 0xFF65), (0xFFE0, 0xFFFF), (0x1F000, 0x1F0FF), (0x1F10D, 0x1F12F),
    (0x1F18A, 0x1FBEF), (0xE0000, 0x10FFFF)]

/-- Is the character a letter or a digit? -/
def isAlphanumeric (c : Char) : Bool :=
  if c.toNat < 0x80 then c.isAlphanum
  else !signRanges.any fun r => r.1 ≤ c.toNat && c.toNat ≤ r.2

theorem isAlphanumeric_of_isDigit {c : Char} (h : c.isDigit = true) : isAlphanumeric c = true := by
  have hlt : c.toNat < 0x80 := by
    simp only [Char.isDigit, Bool.and_eq_true, decide_eq_true_eq, UInt32.le_iff_toNat_le,
      ge_iff_le] at h
    have : c.toNat = c.val.toNat := rfl
    have : '9'.val.toNat = 57 := rfl
    omega
  simp [isAlphanumeric, hlt, Char.isAlphanum, h]

end Bourse.Text
