/-
A store is a shelf: its items side by side in the order of their last use, the
one that was used last at the end. Whatever calls come, in whatever order and
at whatever times, the store answers as the shelf does (`answers_as_shelf`).

`Store.shelf` reads the shelf off a store: the keys from the tracker, in its
order, and their items from the map. Each call on the store is the call on its
shelf (`Sound.call_shelf`); that the tracker tracks exactly the keys that have
an item is what makes the two orders one.
-/
import FizzService.Proofs.Store.Bounded

namespace FizzService

variable {κ ν : Type}

/-- Items side by side, the one that was used last at the end. -/
structure Shelf (κ ν : Type) where
  items : List (κ × Item ν)
  capacity : Nat
  batch : Nat
  lifetime : Duration
  evictions : Nat

/-- The calls on a store. Time moves on in between. -/
inductive StoreCall (κ ν : Type) where
  | set (key : κ) (value : ν) (lifetime : Option Duration)
  | get (key : κ)
  | delete (key : κ)
  | purge (grace : Duration)
  | contains (key : κ)
  | advance (time : Duration)

inductive StoreReply (ν : Type) where
  | reading (found : Option (Reading ν))
  | flag (value : Bool)
  | count (n : Nat)
  | done

/-- What is seen after a call. -/
structure Sight (ν : Type) where
  reply : StoreReply ν
  size : Nat
  evictions : Nat

namespace StoreCall

/-- The time after a call. -/
def later (now : Instant) : StoreCall κ ν → Instant
  | advance time => now + time
  | _ => now

/-- A call that neither writes another key than `k` nor can remove `k`. -/
def Spares (k : κ) : StoreCall κ ν → Prop
  | set key _ _ => key = k
  | delete key => key ≠ k
  | purge _ => False
  | _ => True

/-- All calls in turn, each at its time: what is seen after each, and what is left. -/
def serve {σ : Type} (call : σ → Instant → StoreCall κ ν → Sight ν × σ) :
    Instant → σ → List (StoreCall κ ν) → List (Sight ν) × σ
  | _, s, [] => ([], s)
  | now, s, c :: calls =>
    let (sight, s) := call s now c
    let (sights, s) := serve call (c.later now) s calls
    (sight :: sights, s)

end StoreCall

namespace Shelf

def new (capacity batch : Nat) (lifetime : Duration) : Shelf κ ν where
  items := []
  capacity := max capacity 1
  batch := max 1 (min batch (max capacity 1))
  lifetime := lifetime
  evictions := 0

variable [DecidableEq κ]

def find? (l : Shelf κ ν) (k : κ) : Option (Item ν) := (l.items.find? (·.1 = k)).map (·.2)

def contains (l : Shelf κ ν) (k : κ) : Bool := l.items.any (·.1 = k)

/-- The items of the other keys. -/
def others (l : Shelf κ ν) (k : κ) : List (κ × Item ν) := l.items.filter (·.1 ≠ k)

/-- Before a new key comes to a full shelf, a batch is taken from the front. -/
def cleared (l : Shelf κ ν) (k : κ) : Shelf κ ν :=
  if l.contains k = false ∧ l.items.length = l.capacity then
    { l with
      items := l.items.drop (min l.batch l.items.length)
      evictions := l.evictions + min l.batch l.items.length }
  else l

def set (l : Shelf κ ν) (now : Instant) (k : κ) (v : ν) (lifetime : Option Duration) : Shelf κ ν :=
  { l.cleared k with
    items := (l.cleared k).others k ++ [(k, ⟨v, now + min (lifetime.getD l.lifetime) .century⟩)] }

def get (l : Shelf κ ν) (now : Instant) (k : κ) : Option (Reading ν) × Shelf κ ν :=
  match l.find? k with
  | some item => (some ⟨item.value, item.expiresAt ≤ now⟩, { l with items := l.others k ++ [(k, item)] })
  | none => (none, l)

def delete (l : Shelf κ ν) (k : κ) : Bool × Shelf κ ν := (l.contains k, { l with items := l.others k })

def purge (l : Shelf κ ν) (now : Instant) (grace : Duration) : Nat × Shelf κ ν :=
  ((l.items.filter fun e => e.2.expiresAt + grace ≤ now).length,
    { l with items := l.items.filter fun e => now < e.2.expiresAt + grace })

def sight (l : Shelf κ ν) (reply : StoreReply ν) : Sight ν := ⟨reply, l.items.length, l.evictions⟩

def call (l : Shelf κ ν) (now : Instant) : StoreCall κ ν → Sight ν × Shelf κ ν
  | .set k v lifetime => ((l.set now k v lifetime).sight .done, l.set now k v lifetime)
  | .get k => ((l.get now k).2.sight (.reading (l.get now k).1), (l.get now k).2)
  | .delete k => ((l.delete k).2.sight (.flag (l.delete k).1), (l.delete k).2)
  | .purge grace => ((l.purge now grace).2.sight (.count (l.purge now grace).1), (l.purge now grace).2)
  | .contains k => (l.sight (.flag (l.contains k)), l)
  | .advance _ => (l.sight .done, l)

end Shelf

/-! ## The items of keys, in the order of the keys -/

namespace Dict

variable [DecidableEq κ]

/-- The pairs of the given keys, in the order of the keys. -/
def along (d : Dict κ ν) (ks : List κ) : List (κ × ν) := ks.filterMap fun k => (d.get? k).map (k, ·)

variable {d d' : Dict κ ν} {ks : List κ}

theorem mem_along {k : κ} {v : ν} : (k, v) ∈ d.along ks ↔ k ∈ ks ∧ d.get? k = some v := by
  simp only [along, List.mem_filterMap, Option.map_eq_some_iff, Prod.mk.injEq]
  constructor
  · rintro ⟨k', hk', v', hv', rfl, rfl⟩
    exact ⟨hk', hv'⟩
  · rintro ⟨hk, hv⟩
    exact ⟨k, hk, v, hv, rfl, rfl⟩

theorem along_append (d : Dict κ ν) (ks ks' : List κ) : d.along (ks ++ ks') = d.along ks ++ d.along ks' :=
  List.filterMap_append

theorem along_congr (h : ∀ k ∈ ks, d.get? k = d'.get? k) : d.along ks = d'.along ks := by
  induction ks with
  | nil => rfl
  | cons k ks ih =>
    have ih := ih fun k' hk' => h k' (.tail _ hk')
    simp only [along, List.filterMap_cons, h k (.head _)] at ih ⊢
    rw [ih]

theorem along_filter (d : Dict κ ν) (ks : List κ) (p : κ → Bool) :
    d.along (ks.filter p) = (d.along ks).filter fun e => p e.1 := by
  induction ks with
  | nil => rfl
  | cons k ks ih =>
    simp only [along] at ih ⊢
    cases hp : p k <;> cases hv : d.get? k <;> simp [hp, hv, ih]

/-- Where every key is there, each has its pair. -/
theorem along_cons {k : κ} (h : ∀ k' ∈ k :: ks, d.contains k' = true) :
    ∃ v, d.along (k :: ks) = (k, v) :: d.along ks := by
  have hk := h k (.head _)
  rw [contains_eq_isSome, Option.isSome_iff_exists] at hk
  obtain ⟨v, hv⟩ := hk
  exact ⟨v, by simp [along, hv]⟩

theorem map_fst_along (h : ∀ k ∈ ks, d.contains k = true) : (d.along ks).map (·.1) = ks := by
  induction ks with
  | nil => rfl
  | cons k ks ih =>
    obtain ⟨v, hv⟩ := along_cons h
    rw [hv, List.map_cons, ih fun k' hk' => h k' (.tail _ hk')]

theorem along_drop (h : ∀ k ∈ ks, d.contains k = true) (n : Nat) :
    d.along (ks.drop n) = (d.along ks).drop n := by
  induction ks generalizing n with
  | nil => simp [along]
  | cons k ks ih =>
    obtain ⟨v, hv⟩ := along_cons h
    cases n with
    | zero => rfl
    | succ n => rw [hv, List.drop_succ_cons, List.drop_succ_cons, ih fun k' hk' => h k' (.tail _ hk')]

end Dict

/-! ## The shelf of a store -/

namespace Store

variable [DecidableEq κ] {s : Store κ ν}

/-- The items in the order of their last use. -/
def shelf (s : Store κ ν) : Shelf κ ν where
  items := s.items.along s.recency.keys
  capacity := s.capacity
  batch := s.batch
  lifetime := s.lifetime
  evictions := s.evictions

/-- What is seen of a store after a call. -/
def sight (s : Store κ ν) (reply : StoreReply ν) : Sight ν := ⟨reply, s.size, s.evictions⟩

def call (s : Store κ ν) (now : Instant) : StoreCall κ ν → Sight ν × Store κ ν
  | .set k v lifetime => ((s.set now k v lifetime).sight .done, s.set now k v lifetime)
  | .get k => ((s.get now k).2.sight (.reading (s.get now k).1), (s.get now k).2)
  | .delete k => ((s.delete k).2.sight (.flag (s.delete k).1), (s.delete k).2)
  | .purge grace => ((s.purge now grace).2.sight (.count (s.purge now grace).1), (s.purge now grace).2)
  | .contains k => (s.sight (.flag (s.contains k)), s)
  | .advance _ => (s.sight .done, s)

theorem Sound.contains_of_mem (h : s.Sound) : ∀ k ∈ s.recency.keys, s.items.contains k = true :=
  fun k hk => by rw [← h.tracks]; exact h.recency.mem_keys.1 hk

theorem Sound.keys_shelf (h : s.Sound) : s.shelf.items.map (·.1) = s.recency.keys :=
  Dict.map_fst_along h.contains_of_mem

/-- Every item stands on the shelf. -/
theorem Sound.mem_shelf (h : s.Sound) {k : κ} {i : Item ν} :
    (k, i) ∈ s.shelf.items ↔ s.items.get? k = some i := by
  refine Dict.mem_along.trans ⟨fun hi => hi.2, fun hi => ⟨?_, hi⟩⟩
  rw [h.recency.mem_keys, h.tracks, Dict.contains_eq_isSome, hi]
  rfl

theorem Sound.nodup_shelf (h : s.Sound) : (s.shelf.items.map (·.1)).Nodup := by
  rw [h.keys_shelf]
  exact h.recency.nodup_keys

theorem Sound.find?_shelf (h : s.Sound) (k : κ) : s.shelf.find? k = s.items.get? k := by
  ext i
  rw [← h.mem_shelf]
  exact (Dict.mem_entries (d := ⟨s.shelf.items⟩) h.nodup_shelf).symm

theorem Sound.contains_shelf (h : s.Sound) (k : κ) : s.shelf.contains k = s.items.contains k := by
  rw [Dict.contains_eq_isSome, ← h.find?_shelf]
  exact Dict.contains_eq_isSome ⟨s.shelf.items⟩ k

/-- The shelf is the map in another order. -/
theorem Sound.perm_shelf (h : s.Sound) : s.shelf.items.Perm s.items.entries := by
  have hdistinct : ∀ {l : List (κ × Item ν)}, (l.map (·.1)).Nodup → l.Nodup := fun hl =>
    (List.pairwise_map.1 hl).imp fun hne he => hne (congrArg Prod.fst he)
  rw [List.perm_ext_iff_of_nodup (hdistinct h.nodup_shelf) (hdistinct h.nodup)]
  rintro ⟨k, i⟩
  rw [h.mem_shelf, Dict.mem_entries h.nodup]

theorem Sound.length_shelf (h : s.Sound) : s.shelf.items.length = s.size := h.perm_shelf.length_eq

/-! ## Each call is the call on the shelf -/

theorem others_shelf (s : Store κ ν) (k : κ) :
    s.shelf.others k = s.items.along (s.recency.keys.filter (· ≠ k)) :=
  (s.items.along_filter s.recency.keys fun k' => decide (k' ≠ k)).symm

theorem Sound.prune_shelf (h : s.Sound) : s.prune.shelf = { s.shelf with
    items := s.shelf.items.drop (min s.batch s.shelf.items.length)
    evictions := s.evictions + min s.batch s.shelf.items.length } := by
  have hlength : s.recency.keys.length = s.shelf.items.length := by rw [← h.keys_shelf, List.length_map]
  have hitems : s.prune.shelf.items = s.shelf.items.drop s.batch := by
    change s.prune.items.along (s.recency.evictOldest s.batch).2.keys = _
    rw [Recency.keys_evictOldest]
    refine Eq.trans ?_ (Dict.along_drop h.contains_of_mem s.batch)
    refine Dict.along_congr fun k hk => ?_
    change (s.items.eraseAll (s.recency.evictOldest s.batch).1).get? k = _
    have hnodup := h.recency.nodup_keys
    rw [← List.take_append_drop s.batch s.recency.keys, List.nodup_append] at hnodup
    -- Who is left in the order was not evicted.
    rw [Dict.get?_eraseAll, Recency.evictOldest_fst, if_neg fun hk' => hnodup.2.2 k hk' k hk rfl]
  have hdrop : s.shelf.items.drop s.batch = s.shelf.items.drop (min s.batch s.shelf.items.length) := by
    by_cases hle : s.batch ≤ s.shelf.items.length
    · rw [Nat.min_eq_left hle]
    · rw [List.drop_eq_nil_of_le (by omega), List.drop_eq_nil_of_le (by omega)]
  have hevictions : s.prune.evictions = s.evictions + min s.batch s.shelf.items.length := by
    rw [h.evictions_prune, Recency.evictOldest_fst, List.length_take, hlength]
  rw [← hdrop, ← hitems, ← hevictions]
  rfl

theorem Sound.cleared_shelf (h : s.Sound) (k : κ) : (s.cleared k).shelf = s.shelf.cleared k := by
  have hfull : s.shelf.contains k = false ∧ s.shelf.items.length = s.shelf.capacity ↔
      (!s.items.contains k && s.capacity ≤ s.items.size) = true := by
    rw [h.contains_shelf, h.length_shelf]
    exact (h.full_iff k).symm
  unfold Store.cleared Shelf.cleared
  by_cases hf : s.shelf.contains k = false ∧ s.shelf.items.length = s.shelf.capacity
  · rw [if_pos hf, if_pos (hfull.1 hf)]
    exact h.prune_shelf
  · rw [if_neg hf, if_neg fun hc => hf (hfull.2 hc)]

theorem Sound.set_shelf (h : s.Sound) (now : Instant) (k : κ) (v : ν) (lifetime : Option Duration) :
    (s.set now k v lifetime).shelf = s.shelf.set now k v lifetime := by
  have hc := (h.cleared k).1
  rw [Shelf.set, ← h.cleared_shelf, others_shelf, set_eq, lifetime_cleared]
  simp only [shelf, hc.recency.keys_touch, Dict.along_append, Shelf.mk.injEq, and_true]
  congr 1
  · refine Dict.along_congr fun k' hk' => Dict.get?_insert_other _ _ ?_
    simpa using (List.mem_filter.1 hk').2
  · simp [Dict.along, Dict.get?_insert_self, Item.write]

theorem Sound.get_shelf (h : s.Sound) (now : Instant) (k : κ) :
    s.shelf.get now k = ((s.get now k).1, (s.get now k).2.shelf) := by
  unfold Shelf.get Store.get
  rw [h.find?_shelf, others_shelf]
  cases hi : s.items.get? k with
  | none => rfl
  | some i =>
    simp only [shelf, h.recency.keys_touch, Dict.along_append, Prod.mk.injEq, Shelf.mk.injEq, and_true]
    exact ⟨rfl, by simp [Dict.along, hi]⟩

theorem Sound.delete_shelf (h : s.Sound) (k : κ) :
    s.shelf.delete k = ((s.delete k).1, (s.delete k).2.shelf) := by
  unfold Shelf.delete Store.delete
  rw [h.contains_shelf, others_shelf]
  cases hk : s.items.contains k with
  | true =>
    simp only [shelf, h.recency.keys_remove, if_true, Prod.mk.injEq, Shelf.mk.injEq, and_true, true_and]
    refine Dict.along_congr fun k' hk' => ?_
    have hne : k' ≠ k := by simpa using (List.mem_filter.1 hk').2
    rw [Dict.get?_erase, if_neg hne]
  | false =>
    have hall : s.recency.keys.filter (· ≠ k) = s.recency.keys :=
      List.filter_eq_self.2 fun k' hk' => decide_eq_true fun he => by
        rw [← he, h.contains_of_mem k' hk'] at hk
        cases hk
    rw [hall]
    rfl

/-- The items that a purge removes, on the shelf and in the map. -/
theorem Sound.length_outlived (h : s.Sound) (now : Instant) (grace : Duration) :
    (s.outlived now grace).length = (s.shelf.items.filter fun e => e.2.expiresAt + grace ≤ now).length := by
  rw [outlived, List.length_map, ← (h.perm_shelf.filter _).length_eq]
  congr 1
  refine List.filter_congr fun e _ => ?_
  rw [Bool.eq_iff_iff, Item.outlived_iff, decide_eq_true_eq]

theorem Sound.purge_shelf (h : s.Sound) (now : Instant) (grace : Duration) :
    s.shelf.purge now grace = ((s.purge now grace).1, (s.purge now grace).2.shelf) := by
  have hitems : (s.purge now grace).2.shelf.items =
      s.shelf.items.filter fun e => now < e.2.expiresAt + grace := by
    calc (s.items.eraseAll (s.outlived now grace)).along
          ((s.outlived now grace).foldl Recency.remove s.recency).keys
        = s.items.along (s.recency.keys.filter (· ∉ s.outlived now grace)) := by
          rw [h.recency.keys_foldl_remove]
          refine Dict.along_congr fun k hk => ?_
          rw [Dict.get?_eraseAll, if_neg (by simpa using (List.mem_filter.1 hk).2)]
      _ = s.shelf.items.filter fun e => decide (e.1 ∉ s.outlived now grace) :=
          s.items.along_filter s.recency.keys fun k => decide (k ∉ s.outlived now grace)
      _ = s.shelf.items.filter fun e => now < e.2.expiresAt + grace := by
          refine List.filter_congr fun e he => ?_
          have hi := h.mem_shelf.1 he
          rw [decide_eq_decide, mem_outlived h.nodup, hi]
          simp only [Option.some.injEq, exists_eq_left', Item.outlived_iff, Nat.not_le]
  unfold Shelf.purge
  rw [← hitems, ← h.length_outlived]
  rfl

/-- **Each call on a store is the call on its shelf.** -/
theorem Sound.call_shelf (h : s.Sound) (now : Instant) (c : StoreCall κ ν) :
    s.shelf.call now c = ((s.call now c).1, (s.call now c).2.shelf) ∧ (s.call now c).2.Sound := by
  -- What is seen of a sound store is seen of its shelf.
  have hsight : ∀ {t : Store κ ν} (reply : StoreReply ν), t.Sound → t.shelf.sight reply = t.sight reply :=
    fun reply ht => by rw [Shelf.sight, ht.length_shelf]; rfl
  cases c with
  | set k v lifetime =>
    have hs := h.set now k v lifetime
    exact ⟨by rw [Shelf.call, ← h.set_shelf, hsight _ hs]; rfl, hs⟩
  | get k =>
    have hs := h.get now k
    exact ⟨by rw [Shelf.call, h.get_shelf, hsight _ hs]; rfl, hs⟩
  | delete k =>
    have hs := h.delete k
    exact ⟨by rw [Shelf.call, h.delete_shelf, hsight _ hs]; rfl, hs⟩
  | purge grace =>
    have hs := h.purge now grace
    exact ⟨by rw [Shelf.call, h.purge_shelf, hsight _ hs]; rfl, hs⟩
  | contains k => exact ⟨by rw [Shelf.call, h.contains_shelf, hsight _ h]; rfl, h⟩
  | advance time => exact ⟨by rw [Shelf.call, hsight _ h]; rfl, h⟩

/-- All calls in turn are answered as the shelf answers them. -/
theorem Sound.serve_shelf (h : s.Sound) (now : Instant) (calls : List (StoreCall κ ν)) :
    StoreCall.serve Shelf.call now s.shelf calls =
        ((StoreCall.serve call now s calls).1, (StoreCall.serve call now s calls).2.shelf) ∧
      (StoreCall.serve call now s calls).2.Sound := by
  induction calls generalizing s now with
  | nil => exact ⟨rfl, h⟩
  | cons c calls ih =>
    obtain ⟨hcall, hsound⟩ := h.call_shelf now c
    obtain ⟨hrest, hlast⟩ := ih hsound (c.later now)
    refine ⟨?_, hlast⟩
    simp only [StoreCall.serve, hcall, hrest]

theorem settings_serve (s : Store κ ν) (now : Instant) (calls : List (StoreCall κ ν)) :
    (StoreCall.serve call now s calls).2.settings = s.settings := by
  induction calls generalizing s now with
  | nil => rfl
  | cons c calls ih =>
    refine (ih (s.call now c).2 (c.later now)).trans ?_
    cases c with
    | set k v lifetime => exact settings_set ..
    | get k => exact settings_get ..
    | delete k => exact settings_delete ..
    | purge grace | contains k | advance time => rfl

/-! ## The key that was written last -/

/-- To write a key anew makes nobody leave. -/
theorem set_of_contains {k : κ} (hk : s.contains k = true) (now : Instant) (v : ν) (lifetime : Option Duration) :
    (s.set now k v lifetime).evictions = s.evictions ∧
      ∀ k' ≠ k, (s.set now k v lifetime).items.get? k' = s.items.get? k' := by
  have hcleared : s.cleared k = s := by
    unfold cleared
    rw [if_neg (by simp [show s.items.contains k = true from hk])]
  rw [set_eq, hcleared]
  exact ⟨rfl, fun k' hk' => Dict.get?_insert_other _ _ hk'⟩

theorem contains_call {k : κ} (hk : s.contains k = true) (now : Instant) {c : StoreCall κ ν} (hc : c.Spares k) :
    (s.call now c).2.contains k = true := by
  rw [contains, Dict.contains_eq_isSome] at hk ⊢
  cases c with
  | set key v lifetime =>
    cases (hc : key = k)
    rw [call, get?_set_self]
    rfl
  | get key => rwa [call, items_get]
  | delete key => rwa [call, get?_delete, if_neg (Ne.symm hc)]
  | purge grace => exact hc.elim
  | contains key | advance time => exact hk

theorem contains_serve {k : κ} (hk : s.contains k = true) (now : Instant) {calls : List (StoreCall κ ν)}
    (hcalls : ∀ c ∈ calls, c.Spares k) : (StoreCall.serve call now s calls).2.contains k = true := by
  induction calls generalizing s now with
  | nil => exact hk
  | cons c calls ih =>
    exact ih (contains_call hk now (hcalls c (.head _))) _ fun c' hc' => hcalls c' (.tail _ hc')

theorem contains_set (s : Store κ ν) (now : Instant) (k : κ) (v : ν) (lifetime : Option Duration) :
    (s.set now k v lifetime).contains k = true := by
  rw [contains, Dict.contains_eq_isSome, get?_set_self]
  rfl

/-- **A store is a shelf.** Whatever calls come, each is answered as the shelf
answers it, and what is left is what stands there. So a store never holds more
than it has room for, to write a key anew makes nobody leave, and the key that
was written last is there until it is deleted or a purge comes. -/
theorem answers_as_shelf (capacity batch : Nat) (lifetime : Duration) (now : Instant)
    (calls : List (StoreCall κ ν)) :
    let served := StoreCall.serve Store.call now (Store.new capacity batch lifetime) calls
    let s := served.2
    StoreCall.serve Shelf.call now (Shelf.new capacity batch lifetime) calls = (served.1, s.shelf) ∧
    s.size ≤ max capacity 1 ∧
    (∀ now k v lifetime, s.contains k = true → (s.set now k v lifetime).evictions = s.evictions ∧
      ∀ k' ≠ k, (s.set now k v lifetime).items.get? k' = s.items.get? k') ∧
    ∀ now k v lifetime later, (∀ c ∈ later, StoreCall.Spares k c) →
      (StoreCall.serve Store.call now (s.set now k v lifetime) later).2.contains k = true := by
  intro served s
  obtain ⟨hserve, hsound⟩ := (Sound.new (κ := κ) (ν := ν) capacity batch lifetime).serve_shelf now calls
  refine ⟨hserve, ?_, fun now k v lifetime hk => set_of_contains hk now v lifetime,
    fun now k v lifetime later hlater => contains_serve (s.contains_set now k v lifetime) now hlater⟩
  have hcapacity : s.capacity = max capacity 1 := congrArg (·.1) (settings_serve _ now calls)
  rw [← hcapacity]
  exact hsound.bounded

/-- A third key comes to a store for two and pushes out the second, since the
first was read meanwhile; then the first is written anew, and a fourth key
comes. -/
theorem answers_as_shelf_two :
    let s := (StoreCall.serve Store.call 0 (Store.new 2 1 (.ofSeconds 60) : Store Nat Nat)
      [.set 1 10 none, .set 2 20 none, .get 1, .set 3 30 none]).2
    s.contains 1 = true ∧ (s.set 0 1 11 none).evictions = s.evictions ∧
      (∀ c ∈ [(.get 3 : StoreCall Nat Nat), .delete 1], c.Spares 4) ∧
      (StoreCall.serve Store.call 0 (s.set 0 4 40 none) [.get 3, .delete 1]).2.contains 4 = true := by
  intro s
  have hshelf := answers_as_shelf 2 1 (.ofSeconds 60) 0
    [(.set 1 10 none : StoreCall Nat Nat), .set 2 20 none, .get 1, .set 3 30 none]
  have hfirst : s.contains 1 = true := rfl
  have hspares : ∀ c ∈ [(.get 3 : StoreCall Nat Nat), .delete 1], c.Spares 4 := by
    simp [StoreCall.Spares]
  exact ⟨hfirst, (hshelf.2.2.1 0 1 11 none hfirst).1, hspares, hshelf.2.2.2 0 4 40 none _ hspares⟩

end Store

end FizzService
