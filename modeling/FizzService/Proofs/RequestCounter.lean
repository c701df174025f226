/-
The counter of requests tallies the parameters that it was given: its map holds
the number of times of each set of labels, and no set that was not asked for
(`Tallies`). Each record keeps that. The listing is the map in another order,
so it has each set once, its counts add up to the number of requests
(`Tallies.listing`), and the most frequent sets stand first.

Of the order among sets of equal count nothing is known. Two counters of the
same counts that go through them in different ways list the same rows, and
their counts fall in the same way (`SameButForTies.listing`); so their reports
are of the same length (`SameButForTies.size_report`).
-/
import FizzService.RequestCounter
import Mathlib.Algebra.GroupWithZero.Nat

namespace FizzService

/-- An insertion takes the old value of the key off the sum and adds the new one. -/
theorem Dict.sum_insert {κ : Type} [DecidableEq κ] (d : Dict κ Nat) (k : κ) (n : Nat) :
    ((d.insert k n).entries.map (·.2)).sum + (d.get? k).getD 0 = (d.entries.map (·.2)).sum + n := by
  obtain ⟨es⟩ := d
  simp only [insert, get?]
  induction es with
  | nil => simp [put]
  | cons e es ih =>
    by_cases h : e.1 = k
    · simp only [put, h, if_true, List.map_cons, List.sum_cons, List.find?_cons, decide_true, Option.map_some,
        Option.getD_some]
      omega
    · simp only [put, h, if_false, List.map_cons, List.sum_cons, List.find?_cons, decide_false]
      omega

namespace Json

/-! ## The length of a text -/

theorem size_bytes (j : Json) : j.bytes.size = j.chars.utf8Encode.size := by
  rw [bytes, render, String.toUTF8_eq_toByteArray, String.toByteArray_ofList]

/-- What is told apart by its characters is told apart by its bytes. -/
theorem chars_of_bytes {j j' : Json} (h : j.bytes = j'.bytes) : j.chars = j'.chars := by
  rw [bytes, bytes, String.toUTF8_eq_toByteArray, String.toUTF8_eq_toByteArray, String.toByteArray_inj] at h
  exact String.ofList_injective h

theorem size_append (cs ds : List Char) :
    (cs ++ ds).utf8Encode.size = cs.utf8Encode.size + ds.utf8Encode.size := by
  rw [List.utf8Encode_append, ByteArray.size_append]

theorem size_cons (c : Char) (cs : List Char) :
    (c :: cs).utf8Encode.size = [c].utf8Encode.size + cs.utf8Encode.size := size_append [c] cs

/-- There is a comma after each item but the last. -/
theorem size_itemChars (js : List Json) : (itemChars js).utf8Encode.size =
    (js.map fun j => j.chars.utf8Encode.size).sum + (js.length - 1) := by
  induction js with
  | nil => rfl
  | cons j js ih =>
    cases js with
    | nil => simp [itemChars]
    | cons j' js =>
      have hcomma : [','].utf8Encode.size = 1 := rfl
      show (j.chars ++ ',' :: itemChars (j' :: js)).utf8Encode.size = _
      rw [size_append, size_cons, hcomma, ih]
      simp only [List.map_cons, List.sum_cons, List.length_cons]
      omega

theorem size_itemChars_perm {js js' : List Json} (h : js.Perm js') :
    (itemChars js).utf8Encode.size = (itemChars js').utf8Encode.size := by
  rw [size_itemChars, size_itemChars, (h.map _).sum_nat, h.length_eq]

end Json

namespace RequestCounter

/-- What the counter holds once it has been given parameters with these labels. -/
structure Tallies (c : RequestCounter) (asked : List RequestLabels) : Prop where
  distinct : c.counts.keys.Nodup
  counted : ∀ labels, c.counts.get? labels = if labels ∈ asked then some (asked.count labels) else none
  total : (c.counts.entries.map (·.2)).sum = asked.length

variable {c : RequestCounter} {asked : List RequestLabels}

theorem Tallies.new (traversal : Dict.Traversal RequestLabels Nat) : Tallies (.new traversal) [] :=
  ⟨.nil, fun _ => rfl, rfl⟩

theorem Tallies.get (h : c.Tallies asked) (p : Params) : c.get p = asked.count p.labels := by
  rw [RequestCounter.get, h.counted]
  split
  · rfl
  · rename_i hnew
    exact (List.count_eq_zero_of_not_mem hnew).symm

theorem Tallies.record (h : c.Tallies asked) (p : Params) : (c.record p).Tallies (asked ++ [p.labels]) where
  distinct := Dict.nodup_keys_insert h.distinct ..
  counted labels := by
    rw [RequestCounter.record, Dict.get?_insert, h.get, h.counted]
    by_cases hl : labels = p.labels
    · subst hl
      simp
    · simp [hl, Ne.symm hl]
  total := by
    have hsum := c.counts.sum_insert p.labels (c.get p + 1)
    rw [h.total, ← RequestCounter.get] at hsum
    rw [List.length_append, List.length_singleton]
    change ((c.counts.insert p.labels (c.get p + 1)).entries.map (·.2)).sum = _
    omega

/-! ## The listing -/

theorem precedes_iff {a b : RequestLabels × Nat} : precedes a b = true ↔ b.2 ≤ a.2 := decide_eq_true_iff

theorem precedes_trans (a b d : RequestLabels × Nat) (hab : precedes a b = true) (hbd : precedes b d = true) :
    precedes a d = true :=
  precedes_iff.2 (Nat.le_trans (precedes_iff.1 hbd) (precedes_iff.1 hab))

theorem precedes_total (a b : RequestLabels × Nat) : (precedes a b || precedes b a) = true := by
  rw [Bool.or_eq_true, precedes_iff, precedes_iff]
  exact Nat.le_total b.2 a.2

/-- Whichever way the map is gone through, its entries are listed and nothing else. -/
theorem perm_listing (c : RequestCounter) : c.listing.Perm c.counts.entries :=
  (List.mergeSort_perm ..).trans (c.traversal.perm c.counts)

/-- The most frequent sets stand first. -/
theorem falling_listing (c : RequestCounter) : c.listing.Pairwise fun a b => b.2 ≤ a.2 :=
  (List.pairwise_mergeSort precedes_trans precedes_total _).imp precedes_iff.1

/-- A set of labels is listed with the number of times it was asked for, once. -/
theorem Tallies.listing (h : c.Tallies asked) : (c.listing.map (·.1)).Nodup ∧
    (∀ labels n, (labels, n) ∈ c.listing ↔ 0 < n ∧ n = asked.count labels) ∧
    (c.listing.map (·.2)).sum = asked.length := by
  refine ⟨((perm_listing c).map _).nodup_iff.2 h.distinct, fun labels n => ?_, ?_⟩
  · rw [(perm_listing c).mem_iff, Dict.mem_entries h.distinct, h.counted]
    split
    · rename_i hmem
      have hpos := List.count_pos_iff.2 hmem
      rw [Option.some.injEq]
      omega
    · rename_i hnew
      have hzero := List.count_eq_zero_of_not_mem hnew
      exact iff_of_false (fun hsome => by cases hsome) (by omega)
  · rw [((perm_listing c).map _).sum_nat, h.total]

/-! ## Ties -/

/-- The same rows, in an order that differs among rows of equal count at most. -/
structure SameButForTies (rows rows' : List (RequestLabels × Nat)) : Prop where
  perm : rows.Perm rows'
  counts : rows.map (·.2) = rows'.map (·.2)

/-- What different ways to go through the same counts can change. -/
theorem SameButForTies.listing {c c' : RequestCounter} (h : c'.counts = c.counts) :
    SameButForTies c.listing c'.listing := by
  have hperm := perm_listing c
  rw [← h] at hperm
  replace hperm := hperm.trans (perm_listing c').symm
  -- The counts fall in both, so they are determined by how often each of them occurs.
  refine ⟨hperm, (hperm.map _).eq_of_pairwise (fun a b _ _ hab hba => Nat.le_antisymm hba hab) ?_ ?_⟩
  · exact List.pairwise_map.2 (falling_listing _)
  · exact List.pairwise_map.2 (falling_listing _)

/-- Rows that differ at ties only are reported in as many bytes. -/
theorem SameButForTies.size_report {rows rows' : List (RequestLabels × Nat)} (h : SameButForTies rows rows') :
    (reportOf rows).bytes.size = (reportOf rows').bytes.size := by
  have hchars : ∀ rows, (reportOf rows).chars =
      '\x7b' :: (Json.quoted "requests" ++ [':', '[']) ++ Json.itemChars (rows.map row) ++ [']', '\x7d'] := by
    simp [reportOf, Json.chars, Json.memberChars]
  rw [Json.size_bytes, Json.size_bytes, hchars, hchars, Json.size_append, Json.size_append, Json.size_append,
    Json.size_append, Json.size_itemChars_perm (h.perm.map row)]

end RequestCounter

end FizzService
