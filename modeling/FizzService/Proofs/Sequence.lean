/-
The sequence is what its definition says: a word for each number from one to
the limit, with single commas between them (`sequence_words`). So a longer
sequence goes on where a shorter one ends (`upTo_add`), and a sequence is empty
only if it has no word or a single empty one (`sequence_eq_empty`): from the
second word on there is a comma. An empty text is also what the cache files as
an empty result.
-/
import FizzService.Cache.Response
import FizzService.Proofs.Cache.Access
import FizzService.Sequence

namespace FizzService

/-- A number is replaced if the multiplier is not zero and divides it. -/
def Replaces (multiplier i : Nat) : Prop := multiplier ≠ 0 ∧ multiplier ∣ i

instance (multiplier i : Nat) : Decidable (Replaces multiplier i) := inferInstanceAs (Decidable (_ ∧ _))

/-- The test that is made in the sequence. -/
theorem decide_replaces (multiplier i : Nat) :
    decide (Replaces multiplier i) = (multiplier > 0 && i % multiplier == 0) := by
  rw [Bool.eq_iff_iff, decide_eq_true_eq, Bool.and_eq_true, decide_eq_true_eq, beq_iff_eq, Replaces,
    gt_iff_lt, Nat.pos_iff_ne_zero, Nat.dvd_iff_mod_eq_zero]

theorem replaces_one {multiplier : Nat} : Replaces multiplier 1 ↔ multiplier = 1 := by
  rw [Replaces, Nat.dvd_one]
  exact ⟨And.right, fun h => ⟨h ▸ Nat.one_ne_zero, h⟩⟩

/-- The cache files exactly the empty body as an empty result. -/
theorem ResponseCache.filed_empty_iff (c : ResponseCache) (now : Instant) (key : CacheKey) (body : ByteArray) :
    (∃ i, (c.set now key body).stores.negativeAt key.text = some i ∧ i.value = .empty) ↔ body = .empty := by
  have hself := c.stores.put_self now c.config.maxAcceptedBytes.toNat key.text body
  have hempty : Negative.ofBody? c.config.maxAcceptedBytes.toNat body = some .empty ↔ body = .empty :=
    Negative.ofBody?_eq_empty
  rw [ResponseCache.set, ← hempty]
  cases hb : Negative.ofBody? c.config.maxAcceptedBytes.toNat body with
  | none =>
    simp only [hb] at hself
    rw [hself.2]
    simp
  | some record =>
    simp only [hb] at hself
    rw [hself.2]
    simp [Item.write]

namespace Params

/-- What stands for `i`: the first and the second replacement, each if its
multiplier replaces `i`, or the decimal text of `i` if neither does. -/
def word (p : Params) (i : Nat) : String :=
  if Replaces p.nbOne i ∨ Replaces p.nbTwo i then
    (if Replaces p.nbOne i then p.strOne else "") ++ (if Replaces p.nbTwo i then p.strTwo else "")
  else toString i

variable (p : Params)

theorem token_eq_word (i : Nat) : p.token i = p.word i := by
  simp only [token, word, hitsOne, hitsTwo, ← decide_replaces, Bool.or_eq_true, decide_eq_true_eq]

theorem sequence_words : p.sequence = ",".intercalate ((List.range' 1 p.limit).map p.word) := by
  rw [sequence_eq_intercalate, tokens, List.map_congr_left fun i _ => p.token_eq_word i]

/-! ## A longer sequence -/

theorem upTo_next {n : Nat} (h : 1 ≤ n) : p.upTo (n + 1) = p.upTo n ++ "," ++ p.word (n + 1) := by
  rw [upTo_succ, extend_eq, if_pos (by omega), token_eq_word, String.push_eq_append]
  rfl

theorem upTo_one : p.upTo 1 = p.word 1 := by
  rw [upTo_succ, extend_eq, if_neg (by omega), token_eq_word]
  exact String.empty_append

theorem upTo_add (n k : Nat) : ∃ rest, p.upTo (n + k) = p.upTo n ++ rest := by
  induction k with
  | zero => exact ⟨"", String.append_empty.symm⟩
  | succ k ih =>
    obtain ⟨rest, hrest⟩ := ih
    rcases Nat.eq_zero_or_pos (n + k) with h0 | hpos
    · -- The shorter sequence is empty.
      obtain ⟨rfl, rfl⟩ : n = 0 ∧ k = 0 := by omega
      exact ⟨p.upTo 1, String.empty_append.symm⟩
    · refine ⟨rest ++ "," ++ p.word (n + k + 1), ?_⟩
      rw [← Nat.add_assoc, p.upTo_next hpos, hrest]
      simp only [String.append_assoc]

theorem upTo_lt {n m : Nat} (hn : 1 ≤ n) (h : n < m) : ∃ rest, p.upTo m = p.upTo n ++ "," ++ rest := by
  obtain ⟨k, rfl⟩ := Nat.exists_eq_add_of_lt h
  obtain ⟨rest, hrest⟩ := p.upTo_add (n + 1) k
  refine ⟨p.word (n + 1) ++ rest, ?_⟩
  rw [Nat.add_right_comm, hrest, p.upTo_next hn]
  simp only [String.append_assoc]

/-! ## The empty sequence -/

/-- One word, and an empty one: a multiplier replaces everything, and every
replacement it brings is empty. -/
def BlankWord (p : Params) : Prop :=
  (p.nbOne = 1 ∨ p.nbTwo = 1) ∧ (p.nbOne = 1 → p.strOne = "") ∧ (p.nbTwo = 1 → p.strTwo = "")

theorem word_one_eq_empty : p.word 1 = "" ↔ p.BlankWord := by
  have happend : ∀ s t : String, s ++ t = "" ↔ s = "" ∧ t = "" := fun s t => by
    rw [← String.toList_inj, ← String.toList_inj, ← String.toList_inj, String.toList_append]
    exact List.append_eq_nil_iff
  unfold word BlankWord
  simp only [replaces_one]
  by_cases hone : p.nbOne = 1 <;> by_cases htwo : p.nbTwo = 1 <;> simp [hone, htwo, happend]

theorem sequence_eq_empty : p.sequence = "" ↔ p.limit = 0 ∨ p.limit = 1 ∧ p.BlankWord := by
  unfold sequence
  match p.limit with
  | 0 => exact iff_of_true rfl (.inl rfl)
  | 1 => rw [upTo_one, word_one_eq_empty]; simp
  | n + 2 =>
    obtain ⟨rest, hrest⟩ := p.upTo_lt (n := 1) (m := n + 2) (Nat.le_refl 1) (by omega)
    refine iff_of_false (fun h => ?_) (by omega)
    rw [hrest, ← String.toList_inj] at h
    simp at h

theorem toUTF8_eq_empty {s : String} : s.toUTF8 = .empty ↔ s = "" := by
  rw [← ByteArray.size_eq_zero_iff, String.toUTF8_eq_toByteArray, String.size_toByteArray,
    String.utf8ByteSize_eq_zero_iff]

/-- Only a text can be empty: an object has its braces. -/
theorem render_eq_empty : p.render = .empty ↔ p.format = .text ∧ p.sequence = "" := by
  unfold render
  cases p.format with
  | text => rw [toUTF8_eq_empty]; simp
  | json =>
    refine iff_of_false (fun h => ?_) (fun h => by cases h.1)
    have hchars := congrArg String.toList (toUTF8_eq_empty.1 h)
    rw [Json.render, String.toList_ofList, Json.chars] at hchars
    cases hchars

/-- **The sequence is what its definition says**: the words of the numbers from
one to the limit, joined with single commas. So the sequence of a smaller limit
begins that of a greater one, and a comma follows it unless it is empty; and a
rendered body is empty exactly if it is a text and there is no word in it, or
one that is empty. Such a body, and no other, the cache files as empty. -/
theorem sequence_defined :
    p.sequence = ",".intercalate ((List.range' 1 p.limit).map p.word) ∧
    (∀ n m, n ≤ m → ∃ rest,
      { p with limit := m }.sequence = { p with limit := n }.sequence ++ rest ∧
      (1 ≤ n → n < m → ∃ rest', rest = "," ++ rest')) ∧
    (p.render = .empty ↔ p.format = .text ∧ (p.limit = 0 ∨ p.limit = 1 ∧
      (p.nbOne = 1 ∨ p.nbTwo = 1) ∧ (p.nbOne = 1 → p.strOne = "") ∧ (p.nbTwo = 1 → p.strTwo = ""))) ∧
    ∀ (c : ResponseCache) (now : Instant),
      (∃ i, (c.set now (.ofParams p) p.render).stores.negativeAt (CacheKey.ofParams p).text = some i ∧
        i.value = .empty) ↔ p.render = .empty := by
  refine ⟨p.sequence_words, fun n m h => ?_, ?_, fun c now => ?_⟩
  · by_cases hlonger : 1 ≤ n ∧ n < m
    · obtain ⟨rest, hrest⟩ := p.upTo_lt hlonger.1 hlonger.2
      exact ⟨"," ++ rest, hrest.trans String.append_assoc, fun _ _ => ⟨rest, rfl⟩⟩
    · obtain ⟨k, rfl⟩ := Nat.exists_eq_add_of_le h
      obtain ⟨rest, hrest⟩ := p.upTo_add n k
      exact ⟨rest, hrest, fun hn hm => (hlonger ⟨hn, hm⟩).elim⟩
  · rw [render_eq_empty, sequence_eq_empty]
    rfl
  · exact c.filed_empty_iff now (.ofParams p) p.render

/-- The usual replacements up to fifteen; the sequence up to three begins it. -/
theorem sequence_defined_usual :
    let p : Params := ⟨15, 3, 5, "fizz", "buzz", .text⟩
    p.sequence = "1,2,fizz,4,buzz,fizz,7,8,fizz,buzz,11,fizz,13,14,fizzbuzz" ∧ 1 ≤ 3 ∧ 3 < 15 ∧
      ∃ rest, { p with limit := 15 }.sequence = { p with limit := 3 }.sequence ++ ("," ++ rest) := by
  intro p
  obtain ⟨hwords, hlonger, -⟩ := p.sequence_defined
  obtain ⟨_, hrest, hcomma⟩ := hlonger 3 15 (by decide)
  obtain ⟨rest, rfl⟩ := hcomma (by decide) (by decide)
  exact ⟨hwords.trans (by decide), by decide, by decide, rest, hrest⟩

end Params

end FizzService
