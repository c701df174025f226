/-
What the service writes as JSON reads back as what was written. An escaped
character is read as the character (`character?_escapeChar`), whatever stands
behind it, so a string ends where it was ended and nowhere before
(`string?_escape`), and no client's text can close a string or add a member.

`Json.ReadsAs` says what a piece of JSON is read as wherever it stands; strings
and whole numbers have that property, and an object has it if its members do.
-/
import FizzService.Http.Service
import FizzService.Proofs.Json.Reader
import Mathlib.Data.List.Forall2

namespace FizzService.JsonValue

/-! ## Strings -/

theorem hexValue?_hexDigit {n : Nat} (h : n < 16) : Text.Form.hexValue? (Json.hexDigit n) = some n := by
  have : ∀ n : Fin 16, Text.Form.hexValue? (Json.hexDigit n) = some n.val := by decide
  exact this ⟨n, h⟩

/-- A control character is read by its number. -/
theorem numbered?_control {c : Char} (h : c.toNat < 0x20) (rest : List Char) :
    numbered? ('0' :: '0' :: Json.hexDigit (c.toNat / 16) :: Json.hexDigit (c.toNat % 16) :: rest) =
      some (c, rest) := by
  have hzero : Text.Form.hexValue? '0' = some 0 := by decide
  have hunit : unit? ('0' :: '0' :: Json.hexDigit (c.toNat / 16) :: Json.hexDigit (c.toNat % 16) :: rest) =
      some (c.toNat, rest) := by
    simp only [unit?, hzero, hexValue?_hexDigit (show c.toNat / 16 < 16 by omega),
      hexValue?_hexDigit (show c.toNat % 16 < 16 by omega), Option.bind_eq_bind, Option.bind_some,
      Option.pure_def, Option.some.injEq, Prod.mk.injEq, and_true]
    omega
  have hhigh : isHigh c.toNat = false := by simp [isHigh]; omega
  have hlow : isLow c.toNat = false := by simp [isLow]; omega
  simp [numbered?, hunit, hhigh, hlow]

/-- **An escaped character is read as the character**, whatever stands behind it. -/
theorem character?_escapeChar (c : Char) (rest : List Char) :
    character? (Json.escapeChar c ++ rest) = some (c, rest) := by
  unfold Json.escapeChar
  split
  · subst c; rfl
  split
  · subst c; rfl
  split
  · subst c; rfl
  split
  · subst c; rfl
  split
  · subst c; rfl
  split
  · subst c; rfl
  split
  · subst c; rfl
  split
  · rename_i hcontrol
    exact numbered?_control hcontrol rest
  · rename_i hquote hbackslash _ _ _ _ _ hplain
    simp [character?, hquote, hbackslash, hplain]

/-- A quote is no character of a string. -/
theorem head?_ne_quote {cs : List Char} {p : Char × List Char} (h : character? cs = some p) :
    cs.head? ≠ some '"' := by
  intro hquote
  obtain ⟨rest, rfl⟩ := List.head?_eq_some_iff.1 hquote
  cases h

theorem string?_quote (rest : List Char) : string? ('"' :: rest) = some ([], rest) := by
  rw [string?]
  rfl

theorem string?_escapeChar (c : Char) (rest : List Char) :
    string? (Json.escapeChar c ++ rest) = (string? rest).map fun p => (c :: p.1, p.2) := by
  have hread := character?_escapeChar c rest
  have hshorter : rest.length < (Json.escapeChar c ++ rest).length := by
    have hpos : (Json.escapeChar c).length ≠ 0 := fun hzero => by
      have halone := character?_escapeChar c []
      rw [List.length_eq_zero_iff.1 hzero] at halone
      cases halone
    rw [List.length_append]
    omega
  rw [string?, if_neg (head?_ne_quote hread), hread]
  simp only [Option.bind_eq_bind, Option.bind_some, if_pos hshorter]
  cases string? rest <;> rfl

theorem string?_escape (s rest : List Char) : string? (Json.escape s ++ '"' :: rest) = some (s, rest) := by
  induction s with
  | nil => exact string?_quote rest
  | cons c s ih =>
    rw [Json.escape, List.flatMap_cons, List.append_assoc, string?_escapeChar, ← Json.escape, ih]
    rfl

/-! ## Numbers -/

/-- The text behind a value, as the service writes it. -/
def Ends (rest : List Char) : Prop := ∀ c, rest.head? = some c → c = ',' ∨ c = ']' ∨ c = '\x7d'

theorem Ends.skip {rest : List Char} (h : Ends rest) : skip rest = rest := by
  cases rest with
  | nil => rfl
  | cons c rest => rcases h c rfl with rfl | rfl | rfl <;> rfl

theorem length_lt_of_behind? {mark : Char} {cs rest : List Char} (h : behind? mark cs = some rest) :
    rest.length < cs.length := by
  have hskip := length_skip_le cs
  unfold behind? at h
  split at h
  · rename_i c tail htail
    split at h
    · cases h
      rw [htail, List.length_cons] at hskip
      exact Nat.lt_of_le_of_lt (length_skip_le tail) hskip
    · cases h
  · cases h

/-- A digit is none of the characters that begin another value. -/
theorem ne_of_isDigit {c d : Char} (hc : c.isDigit = true) (hd : d.isDigit = false) : c ≠ d := by
  rintro rfl
  rw [hc] at hd
  cases hd

theorem head?_toDigits {n : Nat} (h : 0 < n) : (Nat.toDigits 10 n).head? ≠ some '0' := by
  induction n using Nat.strongRecOn with
  | ind n ih =>
    rw [Nat.toDigits_eq_if (by decide)]
    split
    · rename_i hlt
      have : ∀ n : Fin 10, 0 < n.val → [n.val.digitChar].head? ≠ some '0' := by decide
      exact this ⟨n, hlt⟩ h
    · rw [List.head?_append_of_ne_nil _ Nat.toDigits_ne_nil]
      exact ih (n / 10) (by omega) (by omega)

theorem digits?_append {ds rest : List Char} (hne : ds ≠ []) (hds : ∀ c ∈ ds, c.isDigit = true)
    (hrest : Ends rest) : digits? (ds ++ rest) = some (ds, rest) := by
  have hstop : rest.takeWhile Char.isDigit = [] ∧ rest.dropWhile Char.isDigit = rest := by
    cases rest with
    | nil => exact ⟨rfl, rfl⟩
    | cons c rest => rcases hrest c rfl with rfl | rfl | rfl <;> exact ⟨rfl, rfl⟩
  unfold digits?
  rw [List.takeWhile_append_of_pos hds, List.dropWhile_append_of_pos hds, hstop.1, hstop.2, List.append_nil,
    if_neg hne]

theorem number?_toDigits (n : Nat) {rest : List Char} (hrest : Ends rest) :
    number? (Nat.toDigits 10 n ++ rest) = some (⟨false, n, 0⟩, rest) := by
  have hdigits : ∀ c ∈ Nat.toDigits 10 n, c.isDigit = true := fun c hc =>
    Nat.isDigit_of_mem_toDigits (by decide) (by decide) hc
  have hwhole : whole? (Nat.toDigits 10 n ++ rest) = some (Nat.toDigits 10 n, rest) := by
    rw [whole?, digits?_append Nat.toDigits_ne_nil hdigits hrest, Option.filter_some, if_pos]
    rcases Nat.eq_zero_or_pos n with rfl | hpos
    · rfl
    · exact decide_eq_true (.inr (head?_toDigits hpos))
  have hbehind : fraction? rest = some ([], rest) ∧ exponent? rest = some (0, rest) := by
    cases rest with
    | nil => exact ⟨rfl, rfl⟩
    | cons c rest => rcases hrest c rfl with rfl | rfl | rfl <;> exact ⟨rfl, rfl⟩
  have hsign : (Nat.toDigits 10 n ++ rest).head? ≠ some '-' := by
    rw [List.head?_append_of_ne_nil _ Nat.toDigits_ne_nil]
    intro hminus
    exact ne_of_isDigit (hdigits '-' (List.mem_of_head? hminus)) (by decide) rfl
  simp only [number?, if_neg hsign, decide_eq_false hsign, hwhole, hbehind, Option.bind_eq_bind, Option.bind_some,
    Option.pure_def, List.append_nil, Nat.ofDigitChars_ten_toDigits, List.length_nil]
  rfl

theorem isBlank_of_isDigit {c : Char} (hc : c.isDigit = true) : isBlank c = false := by
  rw [isBlank, List.contains_eq_mem, decide_eq_false_iff_not]
  intro hblank
  simp only [List.mem_cons, List.not_mem_nil, or_false] at hblank
  rcases hblank with rfl | rfl | rfl | rfl <;> exact absurd hc (by decide)

/-- A digit begins no word. -/
theorem word?_digit {c : Char} (hc : c.isDigit = true) (rest : List Char) : word? (c :: rest) = none := by
  have hn := ne_of_isDigit hc (d := 'n') (by decide)
  have ht := ne_of_isDigit hc (d := 't') (by decide)
  have hf := ne_of_isDigit hc (d := 'f') (by decide)
  simp [word?, words, hn.symm, ht.symm, hf.symm]

end JsonValue

/-! ## Values -/

open JsonValue

/-- Wherever `j` stands, it is read as `v`: nothing of what stands behind it is
taken for a part of it. -/
structure Json.ReadsAs (j : Json) (v : JsonValue) : Prop where
  bare : ∀ rest, skip (j.chars ++ rest) = j.chars ++ rest
  read : ∀ rest, Ends rest → value? (j.chars ++ rest) = some (v, rest)

namespace Json.ReadsAs

theorem text (s : String) : (Json.text s).ReadsAs (.text s) where
  bare _ := rfl
  read rest _ := by
    rw [Json.chars, quoted, List.cons_append, List.append_assoc, value?, if_pos rfl]
    simp [string?_escape]

theorem whole (n : Nat) : (Json.whole n).ReadsAs (.number ⟨false, n, 0⟩) := by
  obtain ⟨c, ds, hds⟩ := List.exists_cons_of_ne_nil (Nat.toDigits_ne_nil (n := n) (b := 10))
  have hc : c.isDigit = true :=
    Nat.isDigit_of_mem_toDigits (b := 10) (n := n) (by decide) (by decide) (hds ▸ .head _)
  constructor
  · intro rest
    rw [Json.chars, hds, List.cons_append]
    exact List.dropWhile_cons_of_neg (by rw [isBlank_of_isDigit hc]; decide)
  · intro rest hrest
    have hnumber := number?_toDigits n hrest
    rw [Json.chars]
    rw [hds, List.cons_append] at hnumber ⊢
    rw [value?, if_neg (ne_of_isDigit hc (by decide)), if_neg (ne_of_isDigit hc (by decide)),
      if_neg (ne_of_isDigit hc (by decide)), word?_digit hc, hnumber]
    rfl

/-- A member is read with what follows it: more members behind a comma, or the
brace that closes the object. -/
theorem member {j : Json} {v : JsonValue} (h : j.ReadsAs v) (name : String) {rest : List Char}
    (hrest : Ends rest) :
    members? (quoted name ++ ':' :: (j.chars ++ rest)) =
      match behind? ',' rest with
      | some rest => (members? rest).map fun p => ((name, v) :: p.1, p.2)
      | none => (behind? '\x7d' rest).map ([(name, v)], ·) := by
  have hname : string? (quoted name ++ ':' :: (j.chars ++ rest)).tail =
      some (name.toList, ':' :: (j.chars ++ rest)) := by
    rw [quoted, List.cons_append, List.tail_cons, List.append_assoc]
    exact string?_escape ..
  have hcolon : behind? ':' (':' :: (j.chars ++ rest)) = some (j.chars ++ rest) :=
    congrArg some (h.bare rest)
  have hlonger : (j.chars ++ rest).length < (quoted name ++ ':' :: (j.chars ++ rest)).length := by
    simp only [List.length_append, List.length_cons]
    omega
  have hquote : (quoted name ++ ':' :: (j.chars ++ rest)).head? = some '"' := rfl
  rw [members?, if_pos hquote, hname]
  simp only [Option.bind_eq_bind, Option.bind_some, hcolon, if_pos hlonger, h.read rest hrest, String.ofList_toList]
  cases hmore : behind? ',' rest with
  | none => rfl
  | some more =>
    have hless := length_lt_of_behind? hmore
    have hfits : more.length < (quoted name ++ ':' :: (j.chars ++ rest)).length := by
      rw [List.length_append] at hlonger
      omega
    simp only [if_pos hfits]
    cases members? more <;> rfl

theorem memberChars_cons (name : String) (j : Json) {ms : List (String × Json)} (hne : ms ≠ []) :
    memberChars ((name, j) :: ms) = quoted name ++ ':' :: (j.chars ++ ',' :: memberChars ms) := by
  cases ms with
  | nil => exact (hne rfl).elim
  | cons m ms => rfl

/-- Members begin with the quote of the first name. -/
theorem memberChars_eq_quote {ms : List (String × Json)} (hne : ms ≠ []) (rest : List Char) :
    ∃ tail, memberChars ms ++ rest = '"' :: tail := by
  match ms, hne with
  | [(name, j)], _ => exact ⟨_, rfl⟩
  | (name, j) :: m :: ms, _ => exact ⟨_, rfl⟩

theorem members {ms : List (String × Json)} {vs : List (String × JsonValue)}
    (h : List.Forall₂ (fun m v => m.1 = v.1 ∧ m.2.ReadsAs v.2) ms vs) (hne : ms ≠ []) {rest : List Char}
    (hrest : Ends rest) : members? (memberChars ms ++ '\x7d' :: rest) = some (vs, rest) := by
  have hbrace : Ends ('\x7d' :: rest) := fun c hc => .inr (.inr (Option.some.inj hc).symm)
  induction h with
  | nil => exact (hne rfl).elim
  | @cons m v ms vs hm hms ih =>
    obtain ⟨name, j⟩ := m
    obtain ⟨_, v⟩ := v
    obtain ⟨rfl, hj⟩ := hm
    cases ms with
    | nil =>
      cases hms
      rw [memberChars, List.append_assoc, List.cons_append, hj.member name hbrace]
      exact congrArg (fun rest => some ([(name, v)], rest)) hrest.skip
    | cons m' ms =>
      have hcomma : Ends (',' :: (memberChars (m' :: ms) ++ '\x7d' :: rest)) := fun c hc =>
        .inl (Option.some.inj hc).symm
      have hbehind : behind? ',' (',' :: (memberChars (m' :: ms) ++ '\x7d' :: rest)) =
          some (memberChars (m' :: ms) ++ '\x7d' :: rest) := by
        obtain ⟨tail, htail⟩ := memberChars_eq_quote (List.cons_ne_nil m' ms) ('\x7d' :: rest)
        rw [htail]
        rfl
      rw [memberChars_cons name j (List.cons_ne_nil m' ms), List.append_assoc, List.cons_append,
        List.append_assoc, List.cons_append, hj.member name hcomma, hbehind]
      simp only [ih (List.cons_ne_nil m' ms), Option.map_some]

/-- An object is read as one if its members are read as they should. -/
theorem object {ms : List (String × Json)} {vs : List (String × JsonValue)}
    (h : List.Forall₂ (fun m v => m.1 = v.1 ∧ m.2.ReadsAs v.2) ms vs) :
    (Json.object ms).ReadsAs (.object vs) where
  bare _ := rfl
  read rest hrest := by
    rw [Json.chars, List.cons_append, List.append_assoc, value?, if_neg (by decide), if_neg (by decide), if_pos rfl]
    cases ms with
    | nil =>
      cases h
      exact congrArg (fun rest => some (JsonValue.object [], rest)) hrest.skip
    | cons m ms =>
      have hne := List.cons_ne_nil m ms
      have hmembers := members h hne hrest
      obtain ⟨tail, htail⟩ := memberChars_eq_quote hne ('\x7d' :: rest)
      rw [List.cons_append, List.nil_append]
      rw [htail] at hmembers ⊢
      change ((members? ('"' :: tail)).map fun p => (JsonValue.object p.1, p.2)) = _
      rw [hmembers]
      rfl

end Json.ReadsAs

/-- A text that stands alone is read in full. -/
theorem Json.ReadsAs.read?_bytes {j : Json} {v : JsonValue} (h : j.ReadsAs v) : read? j.bytes = some v := by
  have hutf8 : String.fromUTF8? j.bytes = some j.render := by
    rw [String.fromUTF8?, Json.bytes, String.toUTF8_eq_toByteArray]
    exact dif_pos j.render.isValidUTF8
  have hvalue := h.read [] (fun _ hc => by cases hc)
  have hbare := h.bare []
  rw [List.append_nil] at hvalue hbare
  rw [read?, hutf8, Option.bind_some, Json.render, String.toList_ofList, parse?, hbare, hvalue]
  rfl

/-! ## The bodies -/

theorem Json.ReadsAs.report (code : Nat) (message : String) : (ServiceError.report code message).ReadsAs
    (.object [("code", .number ⟨false, code, 0⟩), ("message", .text message)]) :=
  .object (.cons ⟨rfl, .whole code⟩ (.cons ⟨rfl, .text message⟩ .nil))

/-- **JSON bodies read back.** For all parameters that ask for JSON, a body is
rendered, and it is read as an object whose only member is the sequence under
the name `txt`; for every code and every message, the report of an error is read
as an object of just these two, and so is the body of every error that is
answered in JSON. -/
theorem Service.bodies_read_back :
    (∀ p : Params, ∃ body, renderer p = .body body ∧ body = p.render ∧
      (p.format = .json → read? body = some (.object [("txt", .text p.sequence)]))) ∧
    (∀ (code : UInt16) (message : String), read? (ServiceError.report code.toNat message).bytes =
      some (.object [("code", .number ⟨false, code.toNat, 0⟩), ("message", .text message)])) ∧
    ∀ e : ServiceError, read? (e.response .json).body =
      some (.object [("code", .number ⟨false, e.status, 0⟩), ("message", .text e.message)]) := by
  refine ⟨fun p => ⟨p.render, rfl, rfl, fun hformat => ?_⟩, fun code message => ?_, fun e => ?_⟩
  · have hsequence : (Json.object [("txt", .text p.sequence)]).ReadsAs (.object [("txt", .text p.sequence)]) :=
      .object (.cons ⟨rfl, .text p.sequence⟩ .nil)
    rw [Params.render, hformat]
    exact hsequence.read?_bytes
  · exact (Json.ReadsAs.report code.toNat message).read?_bytes
  · exact (Json.ReadsAs.report e.status e.message).read?_bytes

/-- A replacement that would close its string and add a member is read as itself. -/
theorem Service.bodies_read_back_quoted :
    let p : Params := ⟨1, 1, 0, "\",\"code\":0,\"é\x00\\", "", .json⟩
    p.format = .json ∧ ∃ body, renderer p = .body body ∧
      read? body = some (.object [("txt", .text "\",\"code\":0,\"é\x00\\")]) := by
  intro p
  have hsequence : p.sequence = "\",\"code\":0,\"é\x00\\" := by decide
  obtain ⟨body, hbody, -, hread⟩ := bodies_read_back.1 p
  exact ⟨rfl, body, hbody, hsequence ▸ hread rfl⟩

end FizzService
