/-
Gate and waiters: a waiter that does not look missed nothing. Keys leave the
registry only with a broadcast (`Gate.Later`), so a waiter that has heard the
latest one and found its key in flight may sleep on (`Waiter.Sound`). A poll
therefore answers exactly whether what is waited for has come
(`Waiter.Sound.poll_isNone`), looked or not.
-/
import FizzService.Gate.Basic

namespace FizzService

variable {κ : Type}

namespace Gate

variable {g g' : Gate κ} {k : κ}

/-- A gate at a later time: no key has been given back, unless it was
broadcast. -/
def Later (g g' : Gate κ) : Prop :=
  g.broadcasts < g'.broadcasts ∨ g'.broadcasts = g.broadcasts ∧ g.inFlight ⊆ g'.inFlight

theorem Later.refl (g : Gate κ) : g.Later g := .inr ⟨rfl, fun _ h => h⟩

theorem Later.broadcasts_le (h : g.Later g') : g.broadcasts ≤ g'.broadcasts := by
  rcases h with h | h <;> omega

theorem later_acquired (g : Gate κ) (k : κ) : g.Later ⟨g.inFlight ++ [k], g.broadcasts⟩ :=
  .inr ⟨rfl, List.subset_append_left ..⟩

theorem Later.trans {g'' : Gate κ} (h : g.Later g') (h' : g'.Later g'') : g.Later g'' := by
  rcases h with h | ⟨h, hs⟩ <;> rcases h' with h' | ⟨h', hs'⟩
  · exact .inl (by omega)
  · exact .inl (by omega)
  · exact .inl (by omega)
  · exact .inr ⟨by omega, fun _ hm => hs' (hs hm)⟩

variable [DecidableEq κ]

theorem later_release (g : Gate κ) (k : κ) : g.Later (g.release k) := .inl (Nat.lt_succ_self _)

theorem isInFlight_iff : g.isInFlight k = true ↔ k ∈ g.inFlight := by simp [isInFlight]

theorem acquire?_eq_some : g.acquire? k = some g' ↔
    k ∉ g.inFlight ∧ g' = ⟨g.inFlight ++ [k], g.broadcasts⟩ := by
  unfold acquire?
  split
  · rename_i h; simp [isInFlight_iff.1 h]
  · rename_i h
    rw [isInFlight_iff] at h
    simp [h, eq_comm]

theorem acquire?_eq_none : g.acquire? k = none ↔ k ∈ g.inFlight := by
  unfold acquire?
  split
  · rename_i h; simp [isInFlight_iff.1 h]
  · rename_i h; simpa [isInFlight_iff] using h

/-- A key that is given back as soon as it was taken leaves the others. -/
theorem inFlight_release_acquired {n : Nat} (h : k ∉ g.inFlight) :
    ((⟨g.inFlight ++ [k], n⟩ : Gate κ).release k).inFlight = g.inFlight := by
  have hne : ∀ a ∈ g.inFlight, a ≠ k := fun a ha he => h (he ▸ ha)
  simp only [release, List.filter_append, List.filter_cons, List.filter_nil, ne_eq, decide_not,
    decide_true, Bool.not_true, Bool.false_eq_true, if_false, List.append_nil]
  exact List.filter_eq_self.2 fun a ha => by simp [hne a ha]

end Gate

variable [DecidableEq κ]

/-- What has not come keeps not coming until the next broadcast. -/
theorem Awaited.holds_eq_false_of_subset {a : Awaited κ} {g g' : Gate κ}
    (hs : g.inFlight ⊆ g'.inFlight) (h : a.holds g = false) : a.holds g' = false := by
  cases a with
  | released k =>
    simp only [holds, Bool.not_eq_false', Gate.isInFlight_iff] at h ⊢
    exact hs h
  | idle =>
    simp only [holds, Gate.isIdle, List.isEmpty_eq_false_iff] at h ⊢
    obtain ⟨k, hk⟩ := List.exists_mem_of_ne_nil _ h
    exact List.ne_nil_of_mem (hs hk)

namespace Waiter

variable {w w' : Waiter κ} {g g' : Gate κ}

/-- A waiter that heard the latest broadcast has nothing to look for. -/
def Sound (w : Waiter κ) (g : Gate κ) : Prop :=
  ∀ n, w.heard = some n → n ≤ g.broadcasts ∧ (n = g.broadcasts → w.awaited.holds g = false)

theorem Sound.later (h : w.Sound g) (hg : g.Later g') : w.Sound g' := by
  intro n hn
  obtain ⟨hle, hlast⟩ := h n hn
  refine ⟨Nat.le_trans hle hg.broadcasts_le, fun he => ?_⟩
  rcases hg with hlt | ⟨hb, hs⟩
  · omega
  · exact Awaited.holds_eq_false_of_subset hs (hlast (by omega))

/-- **A poll misses nothing**: a waiter is done exactly when what it waits
for has come. -/
theorem Sound.poll_isNone (h : w.Sound g) : (w.poll g).isNone = w.awaited.holds g := by
  unfold poll
  split
  · rename_i hh
    rw [(h _ hh).2 rfl]
    rfl
  · split
    · rename_i hh; rw [hh]; rfl
    · rename_i hh; rw [Bool.not_eq_true] at hh; rw [hh]; rfl

/-- A waiter that goes on waiting waits for the same, and with reason. -/
theorem Sound.of_poll (h : w.Sound g) (hp : w.poll g = some w') :
    w'.Sound g ∧ w'.awaited = w.awaited ∧ w'.awaited.holds g = false := by
  have hw : w.awaited.holds g = false := by rw [← h.poll_isNone, hp]; rfl
  unfold poll at hp
  split at hp
  · cases hp
    exact ⟨h, rfl, hw⟩
  · split at hp
    · cases hp
    · cases hp
      refine ⟨fun n hn => ?_, rfl, hw⟩
      cases hn
      exact ⟨Nat.le_refl _, fun _ => hw⟩

end Waiter

end FizzService
