/-
Reading bytes as UTF-8 without ever failing: each longest run of bytes that starts a character
and cannot be finished, and each byte that starts none, becomes one U+FFFD. The reader takes one
byte at a time; `decodeLossy_utf8Encode` says that it returns the text that was encoded.
-/
namespace FizzService.Text

/-- A character begun and not finished: how many bytes it still needs, between which bounds the
next of them has to lie, and the value read so far. -/
structure Unfinished where
  needed : Nat
  low : Nat
  high : Nat
  value : Nat
deriving DecidableEq, Repr

/-- The reader between two bytes: between characters, or inside one. -/
abbrev Utf8State := Option Unfinished

def replacement : Char := '\ufffd'

/-- A byte read between characters. The bounds on the byte after a lead byte shut out the longer
spellings, the surrogates and what lies beyond U+10FFFF. -/
def readLead (b : UInt8) : List Char × Utf8State :=
  let n := b.toNat
  if n < 0x80 then ([Char.ofNat n], none)
  else if n < 0xc2 then ([replacement], none)
  else if n < 0xe0 then ([], some ⟨1, 0x80, 0xbf, n - 0xc0⟩)
  else if n < 0xf0 then
    ([], some ⟨2, if n = 0xe0 then 0xa0 else 0x80, if n = 0xed then 0x9f else 0xbf, n - 0xe0⟩)
  else if n < 0xf5 then
    ([], some ⟨3, if n = 0xf0 then 0x90 else 0x80, if n = 0xf4 then 0x8f else 0xbf, n - 0xf0⟩)
  else ([replacement], none)

/-- One byte: the characters it completes or spoils, and where it leaves the reader. -/
def readByte : Utf8State → UInt8 → List Char × Utf8State
  | none, b => readLead b
  | some u, b =>
    if u.low ≤ b.toNat ∧ b.toNat ≤ u.high then
      let value := u.value * 64 + (b.toNat - 0x80)
      if u.needed ≤ 1 then ([Char.ofNat value], none)
      else ([], some ⟨u.needed - 1, 0x80, 0xbf, value⟩)
    else (replacement :: (readLead b).1, (readLead b).2)

def decodeFrom : Utf8State → List UInt8 → List Char
  | none, [] => []
  | some _, [] => [replacement]
  | s, b :: bs => (readByte s b).1 ++ decodeFrom (readByte s b).2 bs

def decodeLossy (bytes : List UInt8) : List Char := decodeFrom none bytes

theorem decodeFrom_cons (s : Utf8State) (b : UInt8) (bs : List UInt8) :
    decodeFrom s (b :: bs) = (readByte s b).1 ++ decodeFrom (readByte s b).2 bs := by
  cases s <;> rfl

theorem toNat_ofNat_byte {n : Nat} (h : n < 256) : (UInt8.ofNat n).toNat = n := by
  simp [Nat.mod_eq_of_lt h]

theorem readByte_last {low high value n : Nat} (h : low ≤ n ∧ n ≤ high) (hn : n < 256) :
    readByte (some ⟨1, low, high, value⟩) (UInt8.ofNat n) =
      ([Char.ofNat (value * 64 + (n - 0x80))], none) := by
  simp [readByte, toNat_ofNat_byte hn, h]

theorem readByte_more {k low high value n : Nat} (h : low ≤ n ∧ n ≤ high) (hn : n < 256) :
    readByte (some ⟨k + 2, low, high, value⟩) (UInt8.ofNat n) =
      ([], some ⟨k + 1, 0x80, 0xbf, value * 64 + (n - 0x80)⟩) := by
  simp [readByte, toNat_ofNat_byte hn, h]

theorem decodeFrom_utf8EncodeChar (c : Char) (bs : List UInt8) :
    decodeFrom none (String.utf8EncodeChar c ++ bs) = c :: decodeFrom none bs := by
  have hv : c.val.toNat < 0xd800 ∨ 0xdfff < c.val.toNat ∧ c.val.toNat < 0x110000 := c.valid
  have hc : Char.ofNat c.val.toNat = c := Char.ofNat_toNat c
  rw [String.utf8EncodeChar.eq_1]
  generalize c.val.toNat = v at hv hc
  split
  · simp (disch := omega) only [List.cons_append, List.nil_append, decodeFrom_cons, readByte,
      readLead, toNat_ofNat_byte, if_pos, hc]
  split
  · have h : readByte none (UInt8.ofNat (v / 64 % 32 + 192)) = ([], some ⟨1, 0x80, 0xbf, v / 64⟩) := by
      simp (disch := omega) only [readByte, readLead, toNat_ofNat_byte, if_pos, if_neg]
      rw [show v / 64 % 32 + 192 - 192 = v / 64 by omega]
    simp only [List.cons_append, List.nil_append, decodeFrom_cons, h]
    rw [readByte_last (by omega) (by omega),
      show v / 64 * 64 + (v % 64 + 128 - 128) = v by omega, hc]
    rfl
  split
  · have h : readByte none (UInt8.ofNat (v / 4096 % 16 + 224)) =
        ([], some ⟨2, if v / 4096 % 16 + 224 = 0xe0 then 0xa0 else 0x80,
          if v / 4096 % 16 + 224 = 0xed then 0x9f else 0xbf, v / 4096⟩) := by
      simp (disch := omega) only [readByte, readLead, toNat_ofNat_byte, if_pos, if_neg]
      rw [show v / 4096 % 16 + 224 - 224 = v / 4096 by omega]
    simp only [List.cons_append, List.nil_append, decodeFrom_cons, h]
    rw [readByte_more (by constructor <;> split <;> omega) (by omega),
      readByte_last (by omega) (by omega),
      show (v / 4096 * 64 + (v / 64 % 64 + 128 - 128)) * 64 + (v % 64 + 128 - 128) = v by omega, hc]
    rfl
  · have h : readByte none (UInt8.ofNat (v / 262144 % 8 + 240)) =
        ([], some ⟨3, if v / 262144 % 8 + 240 = 0xf0 then 0x90 else 0x80,
          if v / 262144 % 8 + 240 = 0xf4 then 0x8f else 0xbf, v / 262144⟩) := by
      simp (disch := omega) only [readByte, readLead, toNat_ofNat_byte, if_pos, if_neg]
      rw [show v / 262144 % 8 + 240 - 240 = v / 262144 by omega]
    simp only [List.cons_append, List.nil_append, decodeFrom_cons, h]
    rw [readByte_more (by constructor <;> split <;> omega) (by omega),
      readByte_more (by omega) (by omega), readByte_last (by omega) (by omega),
      show ((v / 262144 * 64 + (v / 4096 % 64 + 128 - 128)) * 64 + (v / 64 % 64 + 128 - 128)) * 64 +
        (v % 64 + 128 - 128) = v by omega, hc]
    rfl

/-- Text that was encoded reads back as itself. -/
theorem decodeLossy_utf8Encode (cs : List Char) :
    decodeLossy (cs.flatMap String.utf8EncodeChar) = cs := by
  induction cs with
  | nil => rfl
  | cons c cs ih =>
    rw [List.flatMap_cons, decodeLossy, decodeFrom_utf8EncodeChar]
    exact congrArg _ ih

end FizzService.Text
