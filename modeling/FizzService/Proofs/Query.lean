/-
The query of a request that is in order. The fields may come in any order, each
once, written in any way that the form encoding allows; they are read as they
were meant (`ofText_written`). Numbers and replacements within the limits pass
the checks as they are (`number_toString`, `replacement_of_le`), so the
parameters that were written come out (`validate_fields`).
-/
import FizzService.Proofs.Text.Form
import FizzService.Query

namespace FizzService

/-! ## Reading the fields -/

theorem QueryField.ofName?_name (field : QueryField) : ofName? field.name = some field := by
  cases field <;> rfl

namespace Query

theorem get_set (q : Query) (value : String) (field field' : QueryField) :
    (q.set value field).get field' = if field' = field then some value else q.get field' := by
  cases field <;> cases field' <;> rfl

/-- Fields that are given once each and are free are all taken, and no others. -/
theorem foldlM_add {fields : List (QueryField × String)} (hnodup : (fields.map (·.1)).Nodup) {q : Query}
    (hfree : ∀ f ∈ fields, q.get f.1 = none) :
    ∃ q', (fields.map fun f => (f.1.name, f.2)).foldlM add q = .ok q' ∧
      (∀ field value, (field, value) ∈ fields → q'.get field = some value) ∧
      ∀ field, field ∉ fields.map (·.1) → q'.get field = q.get field := by
  induction fields generalizing q with
  | nil => exact ⟨q, rfl, nofun, fun _ _ => rfl⟩
  | cons f fields ih =>
    obtain ⟨hnew, hnodup⟩ := List.nodup_cons.1 hnodup
    have hadd : q.add (f.1.name, f.2) = .ok (q.set f.2 f.1) := by
      simp only [add, QueryField.ofName?_name, hfree f (.head _)]
    have hother : ∀ f' ∈ fields, f'.1 ≠ f.1 := fun f' hf' he => hnew (List.mem_map.2 ⟨f', hf', he⟩)
    obtain ⟨q', hfold, hmem, hrest⟩ := ih hnodup (q := q.set f.2 f.1) fun f' hf' => by
      rw [get_set, if_neg (hother f' hf')]
      exact hfree f' (.tail _ hf')
    refine ⟨q', ?_, fun field value hfield => ?_, fun field hfield => ?_⟩
    · rw [List.map_cons, List.foldlM_cons, hadd]
      exact hfold
    · rcases List.mem_cons.1 hfield with rfl | hfield
      -- What is taken first stays: the fields after it are others.
      · rw [hrest _ hnew, get_set, if_pos rfl]
      · exact hmem field value hfield
    · rw [List.map_cons, List.mem_cons, not_or] at hfield
      rw [hrest field hfield.2, get_set, if_neg hfield.1]

/-- A query that holds each field at most once is read, however it is written. -/
theorem ofText_written {fields : List (QueryField × String)} (hnodup : (fields.map (·.1)).Nodup) {written : List Char}
    (h : Text.Form.WritesPairs (fields.map fun f => (f.1.name.toList, f.2.toList)) written) :
    ∃ q, ofText (String.ofList written) = .ok q ∧
      (∀ field value, (field, value) ∈ fields → q.get field = some value) ∧
      ∀ field, field ∉ fields.map (·.1) → q.get field = none := by
  obtain ⟨q, hfold, hmem, hrest⟩ := foldlM_add hnodup (q := {}) fun f _ => by cases f.1 <;> rfl
  refine ⟨q, ?_, hmem, fun field hfield => ?_⟩
  · rw [ofText, String.toList_ofList, h.pairs_eq, List.foldlM_map]
    rw [List.foldlM_map] at hfold
    simpa using hfold
  · rw [hrest field hfield]
    cases field <;> rfl

end Query

/-! ## Checking a field -/

namespace Text

theorem not_isBlank_of_isDigit {c : Char} (h : c.isDigit = true) : isBlank c = false := by
  have hnone : ∀ b ∈ blanks, b.isDigit = false := by simp [blanks]
  refine Bool.eq_false_iff.2 fun hc => ?_
  rw [hnone c (List.contains_iff_mem.1 hc)] at h
  cases h

theorem dropWhile_isBlank {cs : List Char} (h : ∀ c ∈ cs, isBlank c = false) : cs.dropWhile isBlank = cs := by
  cases cs with
  | nil => rfl
  | cons c cs => rw [List.dropWhile_cons_of_neg (by simp [h c])]

theorem trim_eq_self {cs : List Char} (h : ∀ c ∈ cs, isBlank c = false) : trim cs = cs := by
  rw [trim, dropWhile_isBlank h, dropWhile_isBlank fun c hc => h c (List.mem_reverse.1 hc), List.reverse_reverse]

theorem signed64?_toDigits {n : Nat} (h : n ≤ Int64.maxValue.toInt.toNat) :
    signed64? (Nat.toDigits 10 n) = some (n : Int) := by
  have hdigits : ∀ c ∈ Nat.toDigits 10 n, c.isDigit = true :=
    fun c hc => Nat.isDigit_of_mem_toDigits (by decide) (by decide) hc
  have hsigned : signed? (Nat.toDigits 10 n) = some (n : Int) := by
    unfold signed?
    split
    · rename_i cs hcs
      exact absurd (hdigits '-' (by rw [hcs]; exact .head _)) (by decide)
    · rw [unsigned?_of_isDigit hdigits, digits?_toDigits]
      rfl
  have hmin : Int64.minValue.toInt = -9223372036854775808 := by decide
  have hmax : Int64.maxValue.toInt = 9223372036854775807 := by decide
  rw [signed64?, hsigned, Option.filter_some, if_pos]
  rw [hmin, hmax, decide_eq_true_eq]
  omega

end Text

namespace Query

/-- A number within its bound is read back from its digits. -/
theorem number_toString (field : QueryField) {max : UInt64} {n : Nat} (hpos : 0 < n) (hmax : n ≤ max.toNat)
    (h64 : n ≤ Int64.maxValue.toInt.toNat) : number field max (some (toString n)) = .ok n := by
  have hlist : (toString n).toList = Nat.toDigits 10 n := by simp
  have hne : toString n ≠ "" := fun he => Nat.toDigits_ne_nil (n := n) (b := 10) (by rw [← hlist, he]; rfl)
  have htrim : Text.trim (toString n).toList = Nat.toDigits 10 n := by
    rw [hlist]
    exact Text.trim_eq_self fun c hc =>
      Text.not_isBlank_of_isDigit (Nat.isDigit_of_mem_toDigits (by decide) (by decide) hc)
  simp only [number, if_neg hne, htrim, Text.signed64?_toDigits h64]
  rw [if_neg (by omega), if_neg (by omega)]
  rfl

theorem replacement_of_le (field : QueryField) {max : UInt64} {value : String} (h : value.utf8ByteSize ≤ max.toNat) :
    replacement field max (some value) = .ok value :=
  if_neg (Nat.not_lt.2 h)

end Query

/-! ## The query for parameters -/

namespace Params

/-- The bounds within which parameters pass every check. -/
structure Within (limits : Limits) (p : Params) : Prop where
  limit : p.limit ≤ min limits.maxLimit.toNat Int64.maxValue.toInt.toNat
  nbOne : p.nbOne ≤ min limits.maxNb.toNat Int64.maxValue.toInt.toNat
  nbTwo : p.nbTwo ≤ min limits.maxNb.toNat Int64.maxValue.toInt.toNat
  strOne : p.strOne.utf8ByteSize ≤ limits.maxStrChars.toNat
  strTwo : p.strTwo.utf8ByteSize ≤ limits.maxStrChars.toNat

/-- A number in a query: zero is left out. -/
def spellNumber (n : Nat) : Option String := if n = 0 then none else some (toString n)

/-- What a client gives for each field. -/
def spelled (p : Params) : QueryField → Option String
  | .limit => spellNumber p.limit
  | .nbOne => spellNumber p.nbOne
  | .nbTwo => spellNumber p.nbTwo
  | .strOne => some p.strOne
  | .strTwo => some p.strTwo

/-- The fields that a client gives for parameters. -/
def fields (p : Params) : List (QueryField × String) :=
  QueryField.all.filterMap fun field => (p.spelled field).map fun value => (field, value)

variable {p : Params}

theorem mem_fields {field : QueryField} {value : String} :
    (field, value) ∈ p.fields ↔ p.spelled field = some value := by
  have hall : field ∈ QueryField.all := by cases field <;> decide
  simp only [fields, List.mem_filterMap, Option.map_eq_some_iff, Prod.mk.injEq]
  constructor
  · rintro ⟨field', -, value', hspelled, rfl, rfl⟩
    exact hspelled
  · exact fun hspelled => ⟨field, hall, value, hspelled, rfl, rfl⟩

theorem nodup_fields (p : Params) : (p.fields.map (·.1)).Nodup := by
  have hname : (fun field => ((p.spelled field).map fun value => (field, value)).map (·.1)) =
      Option.guard fun field => (p.spelled field).isSome := by
    funext field
    cases hspelled : p.spelled field <;> simp [Option.guard, hspelled]
  rw [fields, List.map_filterMap, hname, List.filterMap_eq_filter]
  exact List.Nodup.sublist List.filter_sublist (by decide)

end Params

namespace Query

variable {limits : Limits} {p : Params} {q : Query}

/-- A query in which the fields of some parameters are written, in any order. -/
theorem ofText_fields {fields : List (QueryField × String)} (hfields : fields.Perm p.fields) {written : List Char}
    (h : Text.Form.WritesPairs (fields.map fun f => (f.1.name.toList, f.2.toList)) written) :
    ∃ q, ofText (String.ofList written) = .ok q ∧ ∀ field, q.get field = p.spelled field := by
  obtain ⟨q, hread, hmem, hrest⟩ := ofText_written ((hfields.map _).nodup_iff.2 p.nodup_fields) h
  refine ⟨q, hread, fun field => ?_⟩
  cases hspelled : p.spelled field with
  | some value => exact hmem field value (hfields.mem_iff.2 (Params.mem_fields.2 hspelled))
  | none =>
    refine hrest field fun hgiven => ?_
    obtain ⟨⟨_, value⟩, hvalue, rfl⟩ := List.mem_map.1 hgiven
    rw [Params.mem_fields.1 (hfields.mem_iff.1 hvalue)] at hspelled
    cases hspelled

theorem number_spelled (field : QueryField) {max : UInt64} {n : Nat}
    (h : n ≤ min max.toNat Int64.maxValue.toInt.toNat) :
    number field max (Params.spellNumber n) = .ok n := by
  unfold Params.spellNumber
  split
  · rename_i hzero
    rw [hzero]
    rfl
  · exact number_toString field (by omega) (by omega) (by omega)

/-- **Parameters within the limits are read back from their fields.** -/
theorem validate_fields (hp : p.Within limits) (hq : ∀ field, q.get field = p.spelled field) :
    q.validate limits p.format = .ok p := by
  have hlimit : q.limit = Params.spellNumber p.limit := hq .limit
  have hnbOne : q.nbOne = Params.spellNumber p.nbOne := hq .nbOne
  have hnbTwo : q.nbTwo = Params.spellNumber p.nbTwo := hq .nbTwo
  have hstrOne : q.strOne = some p.strOne := hq .strOne
  have hstrTwo : q.strTwo = some p.strTwo := hq .strTwo
  simp only [validate, hlimit, hnbOne, hnbTwo, hstrOne, hstrTwo, number_spelled _ hp.limit, number_spelled _ hp.nbOne,
    number_spelled _ hp.nbTwo, replacement_of_le _ hp.strOne, replacement_of_le _ hp.strTwo]
  rfl

end Query

end FizzService
