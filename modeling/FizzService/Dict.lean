/-
Finite maps as lists of pairs in the order in which their keys were first inserted: what an
insertion and an erasure do to every look-up, and that distinct keys stay distinct.
-/
namespace FizzService

structure Dict (κ ν : Type) where
  entries : List (κ × ν)
deriving DecidableEq, Repr

/-- A way to go through the entries of a map, each of them once. Nothing is said of their order,
and it need not be the same for two maps. -/
structure Dict.Traversal (κ ν : Type) where
  list : Dict κ ν → List (κ × ν)
  perm : ∀ d, (list d).Perm d.entries

namespace Dict

variable {κ ν : Type}

def empty : Dict κ ν := ⟨[]⟩

instance : EmptyCollection (Dict κ ν) := ⟨empty⟩

/-- In the order in which the keys were first inserted. -/
def Traversal.inserted : Traversal κ ν := ⟨entries, fun _ => .refl _⟩

/-- The key that was inserted last comes first. -/
def Traversal.reversed : Traversal κ ν := ⟨fun d => d.entries.reverse, fun _ => List.reverse_perm _⟩

def keys (d : Dict κ ν) : List κ := d.entries.map (·.1)

def size (d : Dict κ ν) : Nat := d.entries.length

theorem size_eq_length_keys (d : Dict κ ν) : d.size = d.keys.length := by simp [size, keys]

variable [DecidableEq κ]

def get? (d : Dict κ ν) (k : κ) : Option ν := (d.entries.find? (·.1 = k)).map (·.2)

def contains (d : Dict κ ν) (k : κ) : Bool := d.entries.any (·.1 = k)

/-- Puts a pair into a list: in the place of the pair with its key, or at the end. -/
def put (k : κ) (v : ν) : List (κ × ν) → List (κ × ν)
  | [] => [(k, v)]
  | e :: es => if e.1 = k then (k, v) :: es else e :: put k v es

def insert (d : Dict κ ν) (k : κ) (v : ν) : Dict κ ν := ⟨put k v d.entries⟩

def erase (d : Dict κ ν) (k : κ) : Dict κ ν := ⟨d.entries.filter (·.1 ≠ k)⟩

/-- The map without any of the given keys. -/
def eraseAll (d : Dict κ ν) (ks : List κ) : Dict κ ν := ks.foldl erase d

@[simp] theorem get?_empty (k : κ) : (∅ : Dict κ ν).get? k = none := rfl

theorem contains_eq_isSome (d : Dict κ ν) (k : κ) : d.contains k = (d.get? k).isSome := by
  rw [contains, get?, Option.isSome_map, Bool.eq_iff_iff, List.any_eq_true, List.find?_isSome]

theorem mem_keys {d : Dict κ ν} {k : κ} : k ∈ d.keys ↔ d.contains k = true := by
  simp [keys, contains]

theorem get?_insert_self (d : Dict κ ν) (k : κ) (v : ν) : (d.insert k v).get? k = some v := by
  obtain ⟨es⟩ := d
  simp only [insert, get?]
  induction es with
  | nil => simp [put]
  | cons e es ih => by_cases h : e.1 = k <;> simp [put, h, ih]

theorem get?_insert_other (d : Dict κ ν) {k k' : κ} (v : ν) (h : k' ≠ k) :
    (d.insert k v).get? k' = d.get? k' := by
  obtain ⟨es⟩ := d
  simp only [insert, get?]
  induction es with
  | nil => simp [put, Ne.symm h]
  | cons e es ih =>
    by_cases he : e.1 = k
    · have : e.1 ≠ k' := fun h' => h (h'.symm.trans he)
      simp [put, he, Ne.symm h]
    · rw [put, if_neg he, List.find?_cons, List.find?_cons]
      split
      · rfl
      · exact ih

theorem get?_insert (d : Dict κ ν) (k k' : κ) (v : ν) :
    (d.insert k v).get? k' = if k' = k then some v else d.get? k' := by
  split
  · rename_i h; rw [h, get?_insert_self]
  · rename_i h; exact d.get?_insert_other v h

theorem get?_erase (d : Dict κ ν) (k k' : κ) :
    (d.erase k).get? k' = if k' = k then none else d.get? k' := by
  obtain ⟨es⟩ := d
  simp only [erase, get?]
  induction es with
  | nil => simp
  | cons e es ih => by_cases he : e.1 = k <;> by_cases he' : e.1 = k' <;> simp_all

theorem keys_erase (d : Dict κ ν) (k : κ) : (d.erase k).keys = d.keys.filter (· ≠ k) := by
  simp [keys, erase, List.filter_map, Function.comp_def]

theorem keys_insert (d : Dict κ ν) (k : κ) (v : ν) :
    (d.insert k v).keys = if d.contains k then d.keys else d.keys ++ [k] := by
  obtain ⟨es⟩ := d
  simp only [insert, keys, contains]
  induction es with
  | nil => simp [put]
  | cons e es ih =>
    by_cases h : e.1 = k
    · simp [put, h]
    · by_cases hk : (es.any fun x => decide (x.fst = k)) = true <;> simp [put, h, ih, hk]

/-- A new key comes last. -/
theorem entries_insert {d : Dict κ ν} {k : κ} (h : d.contains k = false) (v : ν) :
    (d.insert k v).entries = d.entries ++ [(k, v)] := by
  obtain ⟨es⟩ := d
  simp only [contains, insert] at h ⊢
  induction es with
  | nil => rfl
  | cons e es ih =>
    rw [List.any_cons, Bool.or_eq_false_iff, decide_eq_false_iff_not] at h
    rw [put, if_neg h.1, ih h.2]
    rfl

theorem nodup_keys_insert {d : Dict κ ν} (h : d.keys.Nodup) (k : κ) (v : ν) :
    (d.insert k v).keys.Nodup := by
  rw [keys_insert]
  split
  · exact h
  · rename_i hk
    have hk : k ∉ d.keys := fun hm => hk (mem_keys.1 hm)
    exact List.nodup_append.2 ⟨h, by simp, by
      intro a ha b hb hab
      rw [List.mem_singleton.1 hb] at hab
      exact hk (hab ▸ ha)⟩

theorem nodup_keys_erase {d : Dict κ ν} (h : d.keys.Nodup) (k : κ) : (d.erase k).keys.Nodup := by
  rw [keys_erase]
  exact h.filter _

/-- With distinct keys, a look-up finds every pair. -/
theorem mem_entries {d : Dict κ ν} (h : d.keys.Nodup) {k : κ} {v : ν} :
    (k, v) ∈ d.entries ↔ d.get? k = some v := by
  obtain ⟨es⟩ := d
  simp only [keys, get?] at h ⊢
  induction es with
  | nil => simp
  | cons e es ih =>
    obtain ⟨k', v'⟩ := e
    simp only [List.map_cons, List.nodup_cons, List.mem_map, not_exists, not_and] at h
    by_cases hk : k' = k
    · subst hk
      have hrest : ∀ w, (k', w) ∉ es := fun w hw => h.1 (k', w) hw rfl
      simp [hrest, eq_comm]
    · simp [hk, Ne.symm hk, ih h.2]

theorem contains_insert (d : Dict κ ν) (k k' : κ) (v : ν) :
    (d.insert k v).contains k' = (k' = k || d.contains k') := by
  rw [contains_eq_isSome, contains_eq_isSome, get?_insert]
  by_cases h : k' = k <;> simp [h]

theorem contains_erase (d : Dict κ ν) (k k' : κ) :
    (d.erase k).contains k' = (k' ≠ k && d.contains k') := by
  rw [contains_eq_isSome, contains_eq_isSome, get?_erase]
  by_cases h : k' = k <;> simp [h]

theorem size_insert (d : Dict κ ν) (k : κ) (v : ν) :
    (d.insert k v).size = if d.contains k then d.size else d.size + 1 := by
  rw [size_eq_length_keys, size_eq_length_keys, keys_insert]
  split <;> simp

theorem size_erase_le (d : Dict κ ν) (k : κ) : (d.erase k).size ≤ d.size :=
  List.length_filter_le ..

theorem keys_eraseAll (d : Dict κ ν) (ks : List κ) :
    (d.eraseAll ks).keys = d.keys.filter (· ∉ ks) := by
  induction ks generalizing d with
  | nil => exact (List.filter_eq_self.2 fun a _ => by simp).symm
  | cons k ks ih =>
    rw [eraseAll, List.foldl_cons, ← eraseAll, ih, keys_erase, List.filter_filter]
    congr 1
    funext a
    simp [not_or, Bool.and_comm]

theorem get?_eraseAll (d : Dict κ ν) (ks : List κ) (k : κ) :
    (d.eraseAll ks).get? k = if k ∈ ks then none else d.get? k := by
  induction ks generalizing d with
  | nil => simp [eraseAll]
  | cons k' ks ih =>
    rw [eraseAll, List.foldl_cons, ← eraseAll, ih, get?_erase]
    by_cases h : k = k' <;> simp [h]

theorem contains_eraseAll (d : Dict κ ν) (ks : List κ) (k : κ) :
    (d.eraseAll ks).contains k = (k ∉ ks && d.contains k) := by
  rw [contains_eq_isSome, contains_eq_isSome, get?_eraseAll]
  by_cases h : k ∈ ks <;> simp [h]

theorem nodup_keys_eraseAll {d : Dict κ ν} (h : d.keys.Nodup) (ks : List κ) :
    (d.eraseAll ks).keys.Nodup := by
  rw [keys_eraseAll]
  exact h.filter _

theorem size_eraseAll_le (d : Dict κ ν) (ks : List κ) : (d.eraseAll ks).size ≤ d.size := by
  rw [size_eq_length_keys, size_eq_length_keys, keys_eraseAll]
  exact List.length_filter_le ..

/-- The removal of a key that is there makes a map smaller. -/
theorem size_eraseAll_lt {d : Dict κ ν} {ks : List κ} {k : κ} (hk : k ∈ ks) (h : k ∈ d.keys) :
    (d.eraseAll ks).size < d.size := by
  rw [size_eq_length_keys, size_eq_length_keys, keys_eraseAll]
  exact List.length_filter_lt_length_iff_exists.2 ⟨k, h, by simpa using hk⟩

end Dict

end FizzService
