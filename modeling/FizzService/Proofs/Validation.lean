/-
Which queries are accepted. A number is a run of ASCII digits, with white space
around it and a plus sign before it if the client likes (`Numeral`); the check
of a field takes exactly the numerals within its bounds (`number_eq_ok`) and
tells what is wrong with any other text (`number_eq_error`). The fields are
checked in a fixed order, and the first that is at fault is reported, whatever
the others hold (`validate_eq_error`).
-/
import FizzService.Proofs.Query

namespace FizzService

namespace Text

/-- White space, a sign, one or more digits of the value `n`, white space. -/
inductive Numeral (sign : List Char) (n : Nat) : List Char → Prop
  | intro (left digits right : List Char) (leading : ∀ c ∈ left, isBlank c = true)
    (trailing : ∀ c ∈ right, isBlank c = true) (some : digits ≠ []) (ascii : ∀ c ∈ digits, c.isDigit = true)
    (value : Nat.ofDigitChars 10 digits 0 = n) : Numeral sign n (left ++ (sign ++ digits) ++ right)

/-- The texts that spell a number, positive or not. -/
inductive Spells (cs : List Char) : Int → Prop
  | plain (n : Nat) (h : Numeral [] n cs) : Spells cs n
  | plus (n : Nat) (h : Numeral ['+'] n cs) : Spells cs n
  | minus (n : Nat) (h : Numeral ['-'] n cs) : Spells cs (-n)

/-! ## Trimming -/

theorem trim_append {left mid right : List Char} (hleft : ∀ c ∈ left, isBlank c = true)
    (hright : ∀ c ∈ right, isBlank c = true) (hmid : ∀ c ∈ mid, isBlank c = false) (hne : mid ≠ []) :
    trim (left ++ mid ++ right) = mid := by
  have hstart : ∀ l, (∀ c ∈ l, isBlank c = false) → l ≠ [] → ∀ rest, (l ++ rest).dropWhile isBlank = l ++ rest := by
    intro l hl hne rest
    obtain ⟨c, l, rfl⟩ := List.exists_cons_of_ne_nil hne
    exact List.dropWhile_cons_of_neg (by simp [hl c])
  rw [trim, List.append_assoc, List.dropWhile_append_of_pos hleft, hstart mid hmid hne, List.reverse_append,
    List.dropWhile_append_of_pos fun c hc => hright c (List.mem_reverse.1 hc),
    dropWhile_isBlank fun c hc => hmid c (List.mem_reverse.1 hc), List.reverse_reverse]

/-- What is removed is white space. -/
theorem trim_split (cs : List Char) : ∃ left right, cs = left ++ trim cs ++ right ∧
    (∀ c ∈ left, isBlank c = true) ∧ ∀ c ∈ right, isBlank c = true := by
  refine ⟨cs.takeWhile isBlank, ((cs.dropWhile isBlank).reverse.takeWhile isBlank).reverse, ?_,
    List.all_eq_true.1 List.all_takeWhile, fun c hc => List.all_eq_true.1 List.all_takeWhile c (List.mem_reverse.1 hc)⟩
  rw [trim, List.append_assoc, ← List.reverse_append, List.takeWhile_append_dropWhile, List.reverse_reverse,
    List.takeWhile_append_dropWhile]

/-! ## Reading numerals -/

theorem digits?_eq_some {cs : List Char} {n : Nat} :
    digits? cs = some n ↔ cs ≠ [] ∧ (∀ c ∈ cs, c.isDigit = true) ∧ Nat.ofDigitChars 10 cs 0 = n := by
  simp only [digits?, Option.ite_none_right_eq_some, List.all_eq_true, Option.some.injEq, and_assoc]

variable {cs : List Char} {n : Nat}

theorem Numeral.trim_eq {sign : List Char} (h : Numeral sign n cs) (hsign : ∀ c ∈ sign, isBlank c = false) :
    ∃ digits, trim cs = sign ++ digits ∧ digits? digits = some n ∧ ∀ c ∈ digits, c.isDigit = true := by
  obtain ⟨left, digits, right, leading, trailing, some, ascii, value⟩ := h
  refine ⟨digits, trim_append leading trailing (fun c hc => ?_) ?_, digits?_eq_some.2 ⟨some, ascii, value⟩, ascii⟩
  · rcases List.mem_append.1 hc with hc | hc
    · exact hsign c hc
    · exact not_isBlank_of_isDigit (ascii c hc)
  · exact List.append_ne_nil_of_right_ne_nil _ some

theorem Numeral.of_trim {sign digits : List Char} (htrim : trim cs = sign ++ digits) (hn : digits? digits = some n) :
    Numeral sign n cs := by
  obtain ⟨left, right, hsplit, leading, trailing⟩ := trim_split cs
  obtain ⟨hne, ascii, value⟩ := digits?_eq_some.1 hn
  rw [hsplit, htrim]
  exact .intro left digits right leading trailing hne ascii value

theorem signed?_minus (cs : List Char) : signed? ('-' :: cs) = Option.map (fun n : Nat => -(n : Int)) (digits? cs) := by
  simp only [signed?]
  cases digits? cs <;> rfl

theorem signed?_of_unsigned (hminus : ∀ rest, cs ≠ '-' :: rest) :
    signed? cs = Option.map (fun n : Nat => (n : Int)) (unsigned? cs) := by
  unfold signed?
  split
  · exact (hminus _ rfl).elim
  · cases unsigned? cs <;> rfl

theorem signed?_plus (cs : List Char) : signed? ('+' :: cs) = Option.map (fun n : Nat => (n : Int)) (digits? cs) :=
  signed?_of_unsigned fun rest he => absurd (List.cons.inj he).1 (by decide)

theorem signed?_bare (hminus : ∀ rest, cs ≠ '-' :: rest) (hplus : ∀ rest, cs ≠ '+' :: rest) :
    signed? cs = Option.map (fun n : Nat => (n : Int)) (digits? cs) := by
  rw [signed?_of_unsigned hminus, unsigned?]
  exact hplus

theorem ne_cons_of_isDigit {sign : Char} (h : ∀ c ∈ cs, c.isDigit = true) (hsign : sign.isDigit = false)
    (rest : List Char) : cs ≠ sign :: rest := by
  rintro rfl
  rw [h sign (.head _)] at hsign
  cases hsign

/-- A text is read as a number exactly if it spells it. -/
theorem signed?_trim {n : Int} : signed? (trim cs) = some n ↔ Spells cs n := by
  constructor
  · intro h
    by_cases hminus : ∃ rest, trim cs = '-' :: rest
    · obtain ⟨digits, htrim⟩ := hminus
      rw [htrim, signed?_minus] at h
      obtain ⟨m, hm, rfl⟩ := Option.map_eq_some_iff.1 h
      exact .minus m (.of_trim htrim hm)
    by_cases hplus : ∃ rest, trim cs = '+' :: rest
    · obtain ⟨digits, htrim⟩ := hplus
      rw [htrim, signed?_plus] at h
      obtain ⟨m, hm, rfl⟩ := Option.map_eq_some_iff.1 h
      exact .plus m (.of_trim htrim hm)
    · rw [signed?_bare (not_exists.1 hminus) (not_exists.1 hplus)] at h
      obtain ⟨m, hm, rfl⟩ := Option.map_eq_some_iff.1 h
      exact .plain m (.of_trim rfl hm)
  · rintro (⟨m, h⟩ | ⟨m, h⟩ | ⟨m, h⟩)
    · obtain ⟨digits, htrim, hdigits, ascii⟩ := h.trim_eq fun c hc => (List.not_mem_nil hc).elim
      rw [htrim, List.nil_append,
        signed?_bare (ne_cons_of_isDigit ascii (by decide)) (ne_cons_of_isDigit ascii (by decide)), hdigits]
      rfl
    · obtain ⟨digits, htrim, hdigits, -⟩ := h.trim_eq fun c hc => by rw [List.mem_singleton.1 hc]; decide
      rw [htrim, List.singleton_append, signed?_plus, hdigits]
      rfl
    · obtain ⟨digits, htrim, hdigits, -⟩ := h.trim_eq fun c hc => by rw [List.mem_singleton.1 hc]; decide
      rw [htrim, List.singleton_append, signed?_minus, hdigits]
      rfl

/-- The numbers of 64 bits are those that are read. -/
theorem signed64?_trim {n : Int} :
    signed64? (trim cs) = some n ↔ Spells cs n ∧ Int64.minValue.toInt ≤ n ∧ n ≤ Int64.maxValue.toInt := by
  rw [signed64?, Option.filter_eq_some_iff, signed?_trim, decide_eq_true_eq]

theorem Numeral.ne_nil {sign : List Char} (h : Numeral sign n cs) : cs ≠ [] := by
  obtain ⟨left, digits, right, -, -, some, -, -⟩ := h
  simp [some]

theorem Spells.ne_nil {n : Int} (h : Spells cs n) : cs ≠ [] := by
  rcases h with ⟨m, h⟩ | ⟨m, h⟩ | ⟨m, h⟩ <;> exact h.ne_nil

/-- A positive number is spelled without a minus sign. -/
theorem Spells.numeral {n : Int} (h : Spells cs n) (hpos : 1 ≤ n) :
    ∃ sign, (sign = [] ∨ sign = ['+']) ∧ Numeral sign n.toNat cs := by
  rcases h with ⟨m, h⟩ | ⟨m, h⟩ | ⟨m, h⟩
  · exact ⟨[], .inl rfl, h⟩
  · exact ⟨['+'], .inr rfl, h⟩
  · omega

theorem Numeral.spells {sign : List Char} (h : Numeral sign n cs) (hsign : sign = [] ∨ sign = ['+']) : Spells cs n := by
  rcases hsign with rfl | rfl
  · exact .plain n h
  · exact .plus n h

end Text

/-- The bound on the value of a field, or on its length. -/
def Limits.bound (limits : Limits) : QueryField → UInt64
  | .limit => limits.maxLimit
  | .nbOne | .nbTwo => limits.maxNb
  | .strOne | .strTwo => limits.maxStrChars

def QueryField.isNumber : QueryField → Bool
  | limit | nbOne | nbTwo => true
  | strOne | strTwo => false

namespace Query

open Text (Numeral Spells)

/-- The number that a client gives, if it is within bounds: zero if it gives
none or nothing. -/
inductive Number (max : UInt64) : Option String → Nat → Prop
  | absent : Number max none 0
  | empty : Number max (some "") 0
  | given (raw : String) (sign : List Char) (n : Nat) (positive : sign = [] ∨ sign = ['+'])
    (numeral : Numeral sign n raw.toList) (lower : 1 ≤ n) (upper : n ≤ max.toNat)
    (fits : n ≤ Int64.maxValue.toInt) : Number max (some raw) n

/-- The text that a client gives, if it is not too long: the empty one if it
gives none. -/
structure Replacement (max : UInt64) (raw : Option String) (value : String) : Prop where
  value_eq : value = raw.getD ""
  short : value.utf8ByteSize ≤ max.toNat

/-- What is wrong with a number. -/
inductive NumberFault (max : UInt64) (field : QueryField) : Option String → ParameterError → Prop
  | notAnInteger (raw : String) (given : raw ≠ "")
    (unread : ∀ n : Int, Spells raw.toList n → n < Int64.minValue.toInt ∨ Int64.maxValue.toInt < n) :
    NumberFault max field (some raw) (.notAnInteger field raw)
  | notPositive (raw : String) (n : Int) (read : Spells raw.toList n) (fits : Int64.minValue.toInt ≤ n)
    (less : n < 1) : NumberFault max field (some raw) (.notPositive field)
  | tooLarge (raw : String) (n : Int) (read : Spells raw.toList n) (fits : n ≤ Int64.maxValue.toInt)
    (above : max.toNat < n) : NumberFault max field (some raw) (.tooLarge field raw max)

variable {field : QueryField} {max : UInt64} {raw : Option String}

/-! ## Checking a number -/

theorem one_fits : Int64.minValue.toInt ≤ 1 ∧ 1 ≤ Int64.maxValue.toInt := by decide

theorem ne_empty_of_spells {raw : String} {n : Int} (h : Spells raw.toList n) : raw ≠ "" :=
  fun he => h.ne_nil (by rw [he]; rfl)

theorem number_of_unread (field : QueryField) (max : UInt64) {raw : String} (hne : raw ≠ "")
    (h : Text.signed64? (Text.trim raw.toList) = none) :
    number field max (some raw) = .error (.notAnInteger field raw) := by
  simp only [number, if_neg hne, h]

theorem number_of_spells (field : QueryField) (max : UInt64) {raw : String} {n : Int} (h : Spells raw.toList n)
    (hlow : Int64.minValue.toInt ≤ n) (hhigh : n ≤ Int64.maxValue.toInt) : number field max (some raw) =
      if n < 1 then .error (.notPositive field)
      else if n.toNat > max.toNat then .error (.tooLarge field raw max)
      else .ok n.toNat := by
  simp only [number, if_neg (ne_empty_of_spells h), Text.signed64?_trim.2 ⟨h, hlow, hhigh⟩]

/-- Whatever is given is a number within bounds or has a fault, and the check
tells which. -/
theorem number_cases (field : QueryField) (max : UInt64) (raw : Option String) :
    (∃ n, number field max raw = .ok n ∧ Number max raw n) ∨
      ∃ e, number field max raw = .error e ∧ NumberFault max field raw e := by
  cases raw with
  | none => exact .inl ⟨0, rfl, .absent⟩
  | some raw =>
    by_cases hne : raw = ""
    · subst hne
      exact .inl ⟨0, rfl, .empty⟩
    cases hread : Text.signed64? (Text.trim raw.toList) with
    | none =>
      refine .inr ⟨.notAnInteger field raw, number_of_unread field max hne hread, .notAnInteger raw hne fun n h => ?_⟩
      refine Decidable.byContradiction fun hfits => ?_
      rw [Text.signed64?_trim.2 ⟨h, by omega, by omega⟩] at hread
      cases hread
    | some n =>
      obtain ⟨h, hlow, hhigh⟩ := Text.signed64?_trim.1 hread
      rw [number_of_spells field max h hlow hhigh]
      by_cases hless : n < 1
      · exact .inr ⟨_, if_pos hless, .notPositive raw n h hlow hless⟩
      rw [if_neg hless]
      by_cases habove : n.toNat > max.toNat
      · exact .inr ⟨_, if_pos habove, .tooLarge raw n h hhigh (by omega)⟩
      obtain ⟨sign, hsign, hnumeral⟩ := h.numeral (by omega)
      exact .inl ⟨n.toNat, if_neg habove, .given raw sign n.toNat hsign hnumeral (by omega) (by omega) (by omega)⟩

/-- **A number is accepted** exactly if it is a numeral within bounds. -/
theorem number_eq_ok {n : Nat} : number field max raw = .ok n ↔ Number max raw n := by
  constructor
  · intro h
    rcases number_cases field max raw with ⟨m, hm, hnumber⟩ | ⟨e, he, -⟩
    · rw [hm] at h
      cases h
      exact hnumber
    · rw [he] at h
      cases h
  · have hone := one_fits
    rintro (_ | _ | ⟨raw, sign, n, positive, numeral, lower, upper, fits⟩)
    · rfl
    · rfl
    · rw [number_of_spells field max (numeral.spells positive) (by omega) fits, if_neg (by omega), if_neg (by omega)]
      rfl

/-- White space around it and zeros before it do not matter. -/
example : number .limit 100 (some " +007\n") = .ok 7 := rfl

/-- **A number is refused** for what is wrong with it. -/
theorem number_eq_error {e : ParameterError} : number field max raw = .error e ↔ NumberFault max field raw e := by
  constructor
  · intro h
    rcases number_cases field max raw with ⟨n, hn, -⟩ | ⟨e', he', hfault⟩
    · rw [hn] at h
      cases h
    · rw [he'] at h
      cases h
      exact hfault
  · have hone := one_fits
    rintro (⟨raw, given, unread⟩ | ⟨raw, n, read, fits, less⟩ | ⟨raw, n, read, fits, above⟩)
    · have hread : Text.signed64? (Text.trim raw.toList) = none :=
        Option.eq_none_iff_forall_ne_some.2 fun n hn => by
          obtain ⟨h, hlow, hhigh⟩ := Text.signed64?_trim.1 hn
          have := unread n h
          omega
      exact number_of_unread field max given hread
    · rw [number_of_spells field max read fits (by omega), if_pos less]
    · rw [number_of_spells field max read (by omega) fits, if_neg (by omega), if_pos (by omega)]

theorem replacement_eq (field : QueryField) (max : UInt64) (raw : Option String) : replacement field max raw =
    if max.toNat < (raw.getD "").utf8ByteSize then .error (.tooLong field max) else .ok (raw.getD "") := rfl

theorem replacement_eq_ok {value : String} : replacement field max raw = .ok value ↔ Replacement max raw value := by
  rw [replacement_eq]
  split
  · rename_i hlong
    refine ⟨fun h => (by cases h), fun h => absurd h.short ?_⟩
    rw [h.value_eq]
    omega
  · rename_i hshort
    refine ⟨fun h => ?_, fun h => by rw [h.value_eq]⟩
    cases h
    exact ⟨rfl, by omega⟩

theorem replacement_eq_error {e : ParameterError} : replacement field max raw = .error e ↔
    max.toNat < (raw.getD "").utf8ByteSize ∧ e = .tooLong field max := by
  rw [replacement_eq]
  split
  · rename_i hlong
    rw [Except.error.injEq, and_iff_right hlong, eq_comm]
  · rename_i hshort
    exact ⟨fun h => (by cases h), fun h => absurd h.1 hshort⟩

/-! ## Checking a query -/

/-- The order in which the fields are checked. -/
def checks : List QueryField := [.nbOne, .nbTwo, .limit, .strOne, .strTwo]

/-- A field that is in order. -/
def Accepts (q : Query) (limits : Limits) (field : QueryField) : Prop :=
  if field.isNumber then ∃ n, Number (limits.bound field) (q.get field) n
  else ((q.get field).getD "").utf8ByteSize ≤ (limits.bound field).toNat

/-- What is wrong with a field. -/
inductive Fault (q : Query) (limits : Limits) (field : QueryField) : ParameterError → Prop
  | number (e : ParameterError) (numeric : field.isNumber = true)
    (fault : NumberFault (limits.bound field) field (q.get field) e) : Fault q limits field e
  | tooLong (textual : field.isNumber = false)
    (long : (limits.bound field).toNat < ((q.get field).getD "").utf8ByteSize) :
    Fault q limits field (.tooLong field (limits.bound field))

/-- The parameters that a query gives. -/
structure Gives (q : Query) (limits : Limits) (p : Params) : Prop where
  limit : Number limits.maxLimit q.limit p.limit
  nbOne : Number limits.maxNb q.nbOne p.nbOne
  nbTwo : Number limits.maxNb q.nbTwo p.nbTwo
  strOne : Replacement limits.maxStrChars q.strOne p.strOne
  strTwo : Replacement limits.maxStrChars q.strTwo p.strTwo

/-- The fault that the check of a field finds. -/
def fault? (q : Query) (limits : Limits) (field : QueryField) : Option ParameterError :=
  if field.isNumber then
    match number field (limits.bound field) (q.get field) with
    | .error e => some e
    | .ok _ => none
  else
    match replacement field (limits.bound field) (q.get field) with
    | .error e => some e
    | .ok _ => none

variable {q : Query} {limits : Limits} {format : OutputFormat}

theorem fault_number (h : field.isNumber = true) {e : ParameterError} :
    q.Fault limits field e ↔ NumberFault (limits.bound field) field (q.get field) e := by
  refine ⟨fun hfault => ?_, .number e h⟩
  cases hfault with
  | number _ _ fault => exact fault
  | tooLong textual => rw [h] at textual; cases textual

theorem fault_text (h : field.isNumber = false) {e : ParameterError} : q.Fault limits field e ↔
    (limits.bound field).toNat < ((q.get field).getD "").utf8ByteSize ∧ e = .tooLong field (limits.bound field) := by
  refine ⟨fun hfault => ?_, fun ⟨long, he⟩ => he ▸ .tooLong h long⟩
  cases hfault with
  | number _ numeric => rw [h] at numeric; cases numeric
  | tooLong _ long => exact ⟨long, rfl⟩

theorem fault?_eq_some {e : ParameterError} : q.fault? limits field = some e ↔ q.Fault limits field e := by
  unfold fault?
  cases hnumeric : field.isNumber with
  | true =>
    rw [fault_number hnumeric, ← number_eq_error, if_pos rfl]
    cases number field (limits.bound field) (q.get field) <;> simp
  | false =>
    rw [fault_text hnumeric, ← replacement_eq_error, if_neg Bool.false_ne_true]
    cases replacement field (limits.bound field) (q.get field) <;> simp

theorem fault?_eq_none : q.fault? limits field = none ↔ q.Accepts limits field := by
  unfold fault? Accepts
  cases field.isNumber with
  | true =>
    have hnumber : ∀ n, Number (limits.bound field) (q.get field) n ↔
        number field (limits.bound field) (q.get field) = .ok n := fun n => number_eq_ok.symm
    simp only [hnumber, if_true]
    cases number field (limits.bound field) (q.get field) <;> simp
  | false =>
    simp only [Bool.false_eq_true, if_false, replacement_eq]
    by_cases hlong : (limits.bound field).toNat < ((q.get field).getD "").utf8ByteSize
    · simp [hlong]
    · simp [hlong, Nat.not_lt.1 hlong]

/-- The first fault is reported. -/
theorem validate_eq_error {e : ParameterError} :
    q.validate limits format = .error e ↔ checks.findSome? (q.fault? limits) = some e := by
  simp only [validate, checks, fault?, QueryField.isNumber, if_true, Bool.false_eq_true, if_false, Limits.bound, get,
    List.findSome?_cons, List.findSome?_nil]
  cases number .nbOne limits.maxNb q.nbOne with
  | error => simp [bind, Except.bind]
  | ok nbOne =>
    cases number .nbTwo limits.maxNb q.nbTwo with
    | error => simp [bind, Except.bind]
    | ok nbTwo =>
      cases number .limit limits.maxLimit q.limit with
      | error => simp [bind, Except.bind]
      | ok limit =>
        cases replacement .strOne limits.maxStrChars q.strOne with
        | error => simp [bind, Except.bind]
        | ok strOne =>
          cases replacement .strTwo limits.maxStrChars q.strTwo with
          | error => simp [bind, Except.bind]
          | ok strTwo => simp [bind, Except.bind, pure, Except.pure]

theorem exists_of_bind_eq_ok {ε α β : Type} {x : Except ε α} {f : α → Except ε β} {b : β} (h : x.bind f = .ok b) :
    ∃ a, x = .ok a ∧ f a = .ok b := by
  cases x with
  | error e => cases h
  | ok a => exact ⟨a, rfl, h⟩

/-- What is accepted is carried over as it was given. -/
theorem validate_eq_ok {p : Params} : q.validate limits format = .ok p ↔ q.Gives limits p ∧ p.format = format := by
  constructor
  · intro h
    obtain ⟨nbOne, hnbOne, h⟩ := exists_of_bind_eq_ok h
    obtain ⟨nbTwo, hnbTwo, h⟩ := exists_of_bind_eq_ok h
    obtain ⟨limit, hlimit, h⟩ := exists_of_bind_eq_ok h
    obtain ⟨strOne, hstrOne, h⟩ := exists_of_bind_eq_ok h
    obtain ⟨strTwo, hstrTwo, h⟩ := exists_of_bind_eq_ok h
    cases h
    exact ⟨⟨number_eq_ok.1 hlimit, number_eq_ok.1 hnbOne, number_eq_ok.1 hnbTwo, replacement_eq_ok.1 hstrOne,
      replacement_eq_ok.1 hstrTwo⟩, rfl⟩
  · rintro ⟨⟨limit, nbOne, nbTwo, strOne, strTwo⟩, rfl⟩
    simp only [validate, number_eq_ok.2 limit, number_eq_ok.2 nbOne, number_eq_ok.2 nbTwo, replacement_eq_ok.2 strOne,
      replacement_eq_ok.2 strTwo]
    rfl

theorem mem_checks (field : QueryField) : field ∈ checks := by cases field <;> decide

/-- **Which queries are accepted.** A query is accepted exactly if each of its
fields is in order, and gives then the parameters that it spells, in the format
asked for. Otherwise the first field at fault is reported with what is wrong
with it, those before it being in order. -/
theorem accepted_or_first_fault (q : Query) (limits : Limits) (format : OutputFormat) :
    ((∃ p, q.validate limits format = .ok p) ↔ ∀ field, q.Accepts limits field) ∧
    (∀ p, q.validate limits format = .ok p ↔ q.Gives limits p ∧ p.format = format) ∧
    ∀ e, q.validate limits format = .error e ↔ ∃ before field after, checks = before ++ field :: after ∧
      (∀ f ∈ before, q.Accepts limits f) ∧ q.Fault limits field e := by
  refine ⟨?_, fun p => validate_eq_ok, fun e => ?_⟩
  · have hnone : checks.findSome? (q.fault? limits) = none ↔ ∀ field, q.Accepts limits field := by
      simp only [List.findSome?_eq_none_iff, fault?_eq_none, mem_checks, true_implies]
    rw [← hnone]
    cases hresult : q.validate limits format with
    | error e => simp [validate_eq_error.1 hresult]
    | ok p =>
      refine iff_of_true ⟨p, rfl⟩ (Option.eq_none_iff_forall_ne_some.2 fun e he => ?_)
      rw [validate_eq_error.2 he] at hresult
      cases hresult
  · simp only [validate_eq_error, List.findSome?_eq_some_iff, fault?_eq_some, fault?_eq_none]
    exact exists_congr fun before => exists_congr fun field => exists_congr fun after =>
      and_congr_right fun _ => and_comm

end Query

end FizzService
