/-
What a client may write for a query. It is free in what it escapes and in which
case it writes hex digits, and it may write a space in two ways; only the
characters with a meaning of their own have to be escaped (`Writes`,
`WritesPairs`). Whatever it writes is read back as the pairs it meant
(`WritesPairs.pairs_eq`), and the encoding of `encodePairs` is one way to write
them (`WritesPairs.encode`), so it reads back too (`pairs_encodePairs`).
-/
import FizzService.Text.Form

namespace FizzService.Text.Form

/-- The characters that a query may show as they are, and that have no meaning of their own there. -/
def isBare (c : Char) : Bool :=
  c.isAlphanum ||
    ['-', '.', '_', '~', '!', '$', '\x27', '(', ')', '*', ',', ';', ':', '@', '/', '?'].contains c

/-- Bytes that are written `%` and two hex digits each, in either case. -/
inductive Escapes : List UInt8 → List Char → Prop
  | nil : Escapes [] []
  | cons {h l : Char} {a b : Nat} {bytes : List UInt8} {cs : List Char} (high : hexValue? h = some a)
    (low : hexValue? l = some b) (rest : Escapes bytes cs) :
    Escapes (UInt8.ofNat (16 * a + b) :: bytes) ('%' :: h :: l :: cs)

/-- What may be written for a character. -/
inductive WritesChar (c : Char) : List Char → Prop
  | bare (h : isBare c = true) : WritesChar c [c]
  | plus (h : c = ' ') : WritesChar c ['+']
  | escaped {written : List Char} (h : Escapes (String.utf8EncodeChar c) written) : WritesChar c written

/-- What may be written for a name or a value. -/
inductive Writes : List Char → List Char → Prop
  | nil : Writes [] []
  | cons {c : Char} {cs first rest : List Char} (head : WritesChar c first) (tail : Writes cs rest) :
    Writes (c :: cs) (first ++ rest)

/-- What may be written for the pairs of a query. -/
inductive WritesPairs : List (List Char × List Char) → List Char → Prop
  | nil : WritesPairs [] []
  | one {n v name value : List Char} (hn : Writes n name) (hv : Writes v value) :
    WritesPairs [(n, v)] (name ++ '=' :: value)
  | cons {n v name value : List Char} {p : List Char × List Char} {ps : List (List Char × List Char)}
    {rest : List Char} (hn : Writes n name) (hv : Writes v value) (tail : WritesPairs (p :: ps) rest) :
    WritesPairs ((n, v) :: p :: ps) (name ++ '=' :: value ++ '&' :: rest)

/-- The characters that stand between the parts of a target. -/
def isSeparator (c : Char) : Bool := c = '&' || c = '=' || c = '#'

/-! ## Reading undoes writing -/

theorem Escapes.decodeBytes_append {bytes : List UInt8} {written : List Char} (h : Escapes bytes written)
    (cs : List Char) : decodeBytes (written ++ cs) = bytes ++ decodeBytes cs := by
  induction h with
  | nil => rfl
  | cons high low _ ih => simp only [List.cons_append, decodeBytes, high, low, ih]

theorem WritesChar.decodeBytes_append {c : Char} {written : List Char} (h : WritesChar c written) (cs : List Char) :
    decodeBytes (written ++ cs) = String.utf8EncodeChar c ++ decodeBytes cs := by
  cases h with
  | bare hbare =>
    refine decodeBytes_cons ?_ ?_ cs <;> rintro rfl <;> exact absurd hbare (by decide)
  | plus hspace => rw [hspace]; rfl
  | escaped hescaped => exact hescaped.decodeBytes_append cs

theorem Writes.decode_eq {cs written : List Char} (h : Writes cs written) : decode written = cs := by
  have hbytes : decodeBytes written = cs.flatMap String.utf8EncodeChar := by
    induction h with
    | nil => rfl
    | cons head _ ih => rw [head.decodeBytes_append, ih, List.flatMap_cons]
  rw [decode, hbytes, decodeLossy_utf8Encode]

/-! ## No separator is written -/

theorem isSeparator_hex {c : Char} {n : Nat} (h : hexValue? c = some n) : isSeparator c = false := by
  have hsome : (hexValue? c).isSome = true := h ▸ rfl
  refine Bool.eq_false_iff.2 fun hc => ?_
  simp only [isSeparator, Bool.or_eq_true, decide_eq_true_eq] at hc
  rcases hc with (rfl | rfl) | rfl <;> exact absurd hsome (by decide)

theorem Escapes.no_separator {bytes : List UInt8} {written : List Char} (h : Escapes bytes written) :
    ∀ x ∈ written, isSeparator x = false := by
  induction h with
  | nil => exact nofun
  | cons high low _ ih =>
    intro x hx
    rcases List.mem_cons.1 hx with rfl | hx
    · rfl
    rcases List.mem_cons.1 hx with rfl | hx
    · exact isSeparator_hex high
    rcases List.mem_cons.1 hx with rfl | hx
    · exact isSeparator_hex low
    · exact ih x hx

theorem WritesChar.no_separator {c : Char} {written : List Char} (h : WritesChar c written) :
    ∀ x ∈ written, isSeparator x = false := by
  cases h with
  | bare hbare =>
    intro x hx
    rw [List.mem_singleton.1 hx]
    refine Bool.eq_false_iff.2 fun hc => ?_
    simp only [isSeparator, Bool.or_eq_true, decide_eq_true_eq] at hc
    rcases hc with (rfl | rfl) | rfl <;> exact absurd hbare (by decide)
  | plus => intro x hx; rw [List.mem_singleton.1 hx]; rfl
  | escaped hescaped => exact hescaped.no_separator

theorem Writes.no_separator {cs written : List Char} (h : Writes cs written) :
    ∀ x ∈ written, isSeparator x = false := by
  induction h with
  | nil => exact nofun
  | cons head _ ih =>
    intro x hx
    exact (List.mem_append.1 hx).elim (head.no_separator x) (ih x)

theorem ne_of_isSeparator {x sep : Char} (hsep : isSeparator sep = true) (hx : isSeparator x = false) : x ≠ sep := by
  rintro rfl
  rw [hsep] at hx
  cases hx

/-! ## The pairs of a query -/

/-- A pair as it is written. -/
theorem Writes.piece {n v name value : List Char} (hn : Writes n name) (hv : Writes v value) :
    (∀ x ∈ name ++ '=' :: value, x ≠ '&') ∧ (∀ x ∈ name ++ '=' :: value, x ≠ '#') ∧
      (decode (cut '=' (name ++ '=' :: value)).1, decode (cut '=' (name ++ '=' :: value)).2) = (n, v) := by
  have hmem : ∀ sep, isSeparator sep = true → sep ≠ '=' → ∀ x ∈ name ++ '=' :: value, x ≠ sep := by
    intro sep hsep hne x hx
    rcases List.mem_append.1 hx with hx | hx
    · exact ne_of_isSeparator hsep (hn.no_separator x hx)
    · rcases List.mem_cons.1 hx with rfl | hx
      · exact hne.symm
      · exact ne_of_isSeparator hsep (hv.no_separator x hx)
  refine ⟨hmem '&' rfl (by decide), hmem '#' rfl (by decide), ?_⟩
  rw [cut_append fun x hx => ne_of_isSeparator rfl (hn.no_separator x hx), hn.decode_eq, hv.decode_eq]

/-- **What is written for a query reads back as its pairs.** -/
theorem WritesPairs.pairs_eq {ps : List (List Char × List Char)} {written : List Char} (h : WritesPairs ps written) :
    pairs written = ps := by
  induction h with
  | nil => rfl
  | one hn hv =>
    obtain ⟨hamp, -, hpair⟩ := hn.piece hv
    rw [pairs, split_of_ne hamp, List.filter_cons_of_pos (by simp), List.filter_nil, List.map_singleton, hpair]
  | cons hn hv tail ih =>
    obtain ⟨hamp, -, hpair⟩ := hn.piece hv
    rw [pairs, split_append hamp, List.filter_cons_of_pos (by simp), List.map_cons, hpair]
    exact congrArg _ ih

/-- A fragment does not begin in it. -/
theorem WritesPairs.ne_hash {ps : List (List Char × List Char)} {written : List Char} (h : WritesPairs ps written) :
    ∀ x ∈ written, x ≠ '#' := by
  induction h with
  | nil => exact nofun
  | one hn hv => exact (hn.piece hv).2.1
  | cons hn hv _ ih =>
    intro x hx
    rcases List.mem_append.1 hx with hx | hx
    · exact (hn.piece hv).2.1 x hx
    · rcases List.mem_cons.1 hx with rfl | hx
      · decide
      · exact ih x hx

/-! ## One way to write -/

theorem Escapes.encode (bytes : List UInt8) : Escapes bytes (bytes.flatMap encodeByte) := by
  induction bytes with
  | nil => exact .nil
  | cons b bytes ih =>
    have hlt : b.toNat < 256 := b.toNat_lt
    have hb : UInt8.ofNat (16 * (b.toNat / 16) + b.toNat % 16) = b := by simp [Nat.div_add_mod]
    have hescaped := ih.cons (hexValue?_hexDigit (n := b.toNat / 16) (by omega))
      (hexValue?_hexDigit (n := b.toNat % 16) (by omega))
    rwa [hb] at hescaped

theorem WritesChar.encode (c : Char) : WritesChar c (encodeChar c) := by
  unfold encodeChar
  split
  · exact .plus ‹_›
  · split
    · rename_i hplain
      refine .bare ?_
      simp only [isPlain, Bool.or_eq_true] at hplain
      simp only [isBare, Bool.or_eq_true]
      refine hplain.imp_right fun hmem => ?_
      simp only [List.contains_iff_mem, List.mem_cons, List.not_mem_nil, or_false] at hmem
      rcases hmem with rfl | rfl | rfl | rfl <;> decide
    · exact .escaped (.encode _)

theorem Writes.encode (cs : List Char) : Writes cs (encode cs) := by
  induction cs with
  | nil => exact .nil
  | cons c cs ih => exact .cons (.encode c) ih

theorem WritesPairs.encode (ps : List (List Char × List Char)) : WritesPairs ps (encodePairs ps) := by
  induction ps with
  | nil => exact .nil
  | cons p ps ih =>
    cases ps with
    | nil => exact .one (.encode p.1) (.encode p.2)
    | cons q qs => exact .cons (.encode p.1) (.encode p.2) ih

/-- A query reads back as the pairs it was written from. -/
theorem pairs_encodePairs (ps : List (List Char × List Char)) : pairs (encodePairs ps) = ps :=
  (WritesPairs.encode ps).pairs_eq

end FizzService.Text.Form
