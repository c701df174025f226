/-
Unique readability of the text of a key: no two parameter sets are spelled
alike (`spell_injective`), so two keys are the same as soon as their texts
are (`CacheKey.ext_text`).

A part of the text determines itself and what follows it: a number, because
what follows is no digit; a string, because its length in bytes stands in
front of it and tells where it ends, whatever characters it holds.
-/
import FizzService.CacheKey

namespace FizzService.CacheKey

/-- Digits in front of a character that is none are told apart from what
follows them. -/
theorem digits_append_injective {c : Char} (hc : c.isDigit = false) :
    ∀ {ds es r r' : List Char}, (∀ d ∈ ds, d.isDigit = true) → (∀ e ∈ es, e.isDigit = true) →
      ds ++ c :: r = es ++ c :: r' → ds = es ∧ r = r'
  | [], [], _, _, _, _, h => by simpa using h
  | [], e :: es, _, _, _, he, h => by
    simp only [List.nil_append, List.cons_append, List.cons.injEq] at h
    have hd := he e (by simp)
    rw [← h.1, hc] at hd
    cases hd
  | d :: ds, [], _, _, hd, _, h => by
    simp only [List.nil_append, List.cons_append, List.cons.injEq] at h
    have hd := hd d (by simp)
    rw [h.1, hc] at hd
    cases hd
  | d :: ds, e :: es, _, _, hd, he, h => by
    simp only [List.cons_append, List.cons.injEq] at h
    obtain ⟨rfl, h⟩ := h
    obtain ⟨rfl, hr⟩ := digits_append_injective hc (fun x hx => hd x (by simp [hx]))
      (fun x hx => he x (by simp [hx])) h
    exact ⟨rfl, hr⟩

theorem toDigits_injective {m n : Nat} (h : Nat.toDigits 10 m = Nat.toDigits 10 n) : m = n := by
  rw [← Nat.ofDigitChars_toDigits (b := 10) (n := m) (by decide) (by decide), h,
    Nat.ofDigitChars_toDigits (by decide) (by decide)]

/-- A printed number in front of a character that is no digit. -/
theorem number_append_injective {m n : Nat} {c : Char} {r r' : List Char} (hc : c.isDigit = false)
    (h : (toString m).toList ++ c :: r = (toString n).toList ++ c :: r') : m = n ∧ r = r' := by
  have digits (n : Nat) : ∀ d ∈ Nat.toDigits 10 n, d.isDigit = true :=
    fun d hd => Nat.isDigit_of_mem_toDigits (by decide) (by decide) hd
  simp only [Nat.toString_eq_repr, Nat.toList_repr] at h
  obtain ⟨hd, hr⟩ := digits_append_injective hc (digits m) (digits n) h
  exact ⟨toDigits_injective hd, hr⟩

/-- Of two texts that begin with strings of one size, the beginnings are the same. -/
theorem string_append_injective {s t : String} {r r' : List Char}
    (hsize : s.utf8ByteSize = t.utf8ByteSize) (h : s.toList ++ r = t.toList ++ r') :
    s = t ∧ r = r' := by
  have key : ∀ {a b : String} {m : List Char}, a.toList = b.toList ++ m →
      a.utf8ByteSize = b.utf8ByteSize → a = b := by
    intro a b m ham hs
    have hab : a = b ++ String.ofList m := by
      rw [← String.toList_inj, String.toList_append, String.toList_ofList, ham]
    have hm : (String.ofList m).utf8ByteSize = 0 := by
      rw [hab, String.utf8ByteSize_append] at hs
      omega
    rw [hab, String.utf8ByteSize_eq_zero_iff.1 hm, String.append_empty]
  have hst : s = t := by
    rcases List.append_eq_append_iff.1 h with ⟨m, hm, _⟩ | ⟨m, hm, _⟩
    · exact (key hm hsize.symm).symm
    · exact key hm hsize
  subst hst
  exact ⟨rfl, List.append_cancel_left h⟩

/-- A string behind its length in bytes. -/
theorem measured_append_injective {s t : String} {r r' : List Char}
    (h : (measured s).toList ++ r = (measured t).toList ++ r') : s = t ∧ r = r' := by
  simp only [measured, String.toList_append, List.append_assoc, show ":".toList = [':'] from rfl,
    List.singleton_append] at h
  obtain ⟨hsize, h⟩ := number_append_injective (by decide) h
  exact string_append_injective hsize h

theorem name_injective {f g : OutputFormat} (h : f.name = g.name) : f = g := by
  cases f <;> cases g <;> first | rfl | simp [OutputFormat.name] at h

/-- **Unique readability**: parameter sets with one spelling are the same. -/
theorem spell_injective {p q : Params} (h : spell p = spell q) : p = q := by
  -- The text is taken apart from its front; every separator begins with a bar.
  have bar (label : String) : ("|" ++ label).toList = '|' :: label.toList := by
    simp [String.toList_append]
  have h := congrArg String.toList h
  simp only [spell, String.toList_append, List.append_assoc, List.append_cancel_left_eq,
    show "|nb_one=".toList = '|' :: "nb_one=".toList from bar "nb_one=",
    show "|nb_two=".toList = '|' :: "nb_two=".toList from bar "nb_two=",
    show "|str_one=".toList = '|' :: "str_one=".toList from bar "str_one=",
    List.cons_append] at h
  obtain ⟨hlimit, h⟩ := number_append_injective (by decide) h
  obtain ⟨hone, h⟩ := number_append_injective (by decide) (List.append_cancel_left h)
  obtain ⟨htwo, h⟩ := number_append_injective (by decide) (List.append_cancel_left h)
  obtain ⟨hstrOne, h⟩ := measured_append_injective (List.append_cancel_left h)
  obtain ⟨hstrTwo, h⟩ := measured_append_injective (List.append_cancel_left h)
  have hformat := name_injective (String.toList_inj.1 (List.append_cancel_left h))
  obtain ⟨_, _, _, _, _, _⟩ := p
  obtain ⟨_, _, _, _, _, _⟩ := q
  simp only at hlimit hone htwo hstrOne hstrTwo hformat
  subst hlimit hone htwo hstrOne hstrTwo hformat
  rfl

/-- Keys are compared by their text alone, and that is enough. -/
theorem ext_text {k l : CacheKey} (h : k.text = l.text) : k = l := by
  obtain ⟨_, p, rfl⟩ := k
  obtain ⟨_, q, rfl⟩ := l
  simp only at h
  obtain rfl := spell_injective h
  rfl

theorem text_inj {k l : CacheKey} : k.text = l.text ↔ k = l := ⟨ext_text, fun h => h ▸ rfl⟩

theorem ofParams_inj {p q : Params} : ofParams p = ofParams q ↔ p = q :=
  ⟨fun h => congrArg params h, fun h => h ▸ rfl⟩

/-! ## Comparing and hashing keys -/

theorem beq_iff_text {k l : CacheKey} : (k == l) = true ↔ k.text = l.text := beq_iff_eq (α := String)

instance : LawfulBEq CacheKey where
  eq_of_beq h := ext_text (beq_iff_text.1 h)
  rfl := beq_iff_text.2 rfl

/-- **A key is as good as its parameters**: two keys have one text, and are the
same to a comparison, exactly when their parameters are the same in every
field; and so is all that a hash function, which is given nothing but the text,
makes of them. -/
theorem same_text_iff_same_params (p q : Params) :
    ((ofParams p).text = (ofParams q).text ↔
      p.limit = q.limit ∧ p.nbOne = q.nbOne ∧ p.nbTwo = q.nbTwo ∧ p.strOne = q.strOne ∧
        p.strTwo = q.strTwo ∧ p.format = q.format) ∧
    ((ofParams p == ofParams q) = true ↔ p = q) ∧
    (∀ k : CacheKey, hash k = hash k.text) ∧
    ((∀ digest : String → UInt64, digest (ofParams p).text = digest (ofParams q).text) ↔ p = q) := by
  refine ⟨⟨fun h => ?_, fun ⟨hlimit, hone, htwo, hstrOne, hstrTwo, hformat⟩ => ?_⟩, ?_, fun _ => rfl,
    fun h => ?_, fun h _ => by rw [h]⟩
  · obtain rfl := spell_injective h
    exact ⟨rfl, rfl, rfl, rfl, rfl, rfl⟩
  · simp only [ofParams, spell, hlimit, hone, htwo, hstrOne, hstrTwo, hformat]
  · rw [beq_iff_eq, ofParams_inj]
  · -- One of the hash functions tells the text of `p` from all others.
    have htext := h fun t => if t = (ofParams p).text then 1 else 0
    rw [if_pos rfl] at htext
    split at htext
    · rename_i heq
      exact spell_injective heq.symm
    · cases htext

end FizzService.CacheKey
