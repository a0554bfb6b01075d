import Mathlib.Data.Option.Basic
import Mathlib.Logic.Function.Basic
import Mathlib.Tactic.SplitIfs

/-! # Exclusive holdings and locks

`H i = some p` says that `i` holds the resource `p`. A holding is exclusive if no resource has two
holders. The lemmas say who holds what after `i` takes a resource (`Function.update H i (some p)`)
or gives up the one it has (`Function.update H i none`).

`Guards m L` relates a lock to the code it protects: `m` is the owner of the lock, and `L i` says that
`i` stands inside its critical section. -/

namespace Jkit.Lib.Hold

variable {ι α : Type*} [DecidableEq ι] {H : ι → Option α} {i j : ι} {p q : α}

/-- No resource has two holders. -/
def Exclusive (H : ι → Option α) : Prop := ∀ i j p, H i = some p → H j = some p → i = j

theorem of_take (h : Function.update H i (some p) j = some q) :
    (j = i ∧ q = p) ∨ (j ≠ i ∧ H j = some q) := by
  rw [Function.update_apply] at h
  split_ifs at h with hji
  · exact .inl ⟨hji, (Option.some.inj h).symm⟩
  · exact .inr ⟨hji, h⟩

theorem of_drop (h : Function.update H i none j = some q) : j ≠ i ∧ H j = some q := by
  rw [Function.update_apply] at h
  split_ifs at h with hji
  exact ⟨hji, h⟩

/-- Taking a resource that nobody holds keeps a holding exclusive. -/
theorem Exclusive.take (hH : Exclusive H) (hfree : ∀ j, H j ≠ some p) :
    Exclusive (Function.update H i (some p)) := by
  intro j k q hj hk
  rcases of_take hj with ⟨hji, hqp⟩ | ⟨-, hj⟩ <;> rcases of_take hk with ⟨hki, hqp'⟩ | ⟨-, hk⟩
  · rw [hji, hki]
  · exact absurd (hqp ▸ hk) (hfree k)
  · exact absurd (hqp' ▸ hj) (hfree j)
  · exact hH j k q hj hk

theorem Exclusive.drop (hH : Exclusive H) : Exclusive (Function.update H i none) :=
  fun j k q hj hk => hH j k q (of_drop hj).2 (of_drop hk).2

/-- What another holder has is not what `i` gives up. -/
theorem Exclusive.ne_of_drop (hH : Exclusive H) (hi : H i = some p)
    (h : Function.update H i none j = some q) : H j = some q ∧ q ≠ p := by
  obtain ⟨hji, hj⟩ := of_drop h
  exact ⟨hj, fun hqp => hji (hH j i p (hqp ▸ hj) hi)⟩

/-- A holder of `q` stays one when `i`, which holds something else or nothing, changes. -/
theorem holder_update {v : Option α} (hi : H i ≠ some q) (h : ∃ j, H j = some q) :
    ∃ j, Function.update H i v j = some q := by
  obtain ⟨j, hj⟩ := h
  have hji : j ≠ i := by rintro rfl; exact hi hj
  exact ⟨j, by rw [Function.update_of_ne hji]; exact hj⟩

/-! ### Locks -/

/-- The owner of the lock, if any, is the one inside its critical section. -/
def Guards (m : Option ι) (L : ι → Bool) : Prop := ∀ i, m = some i ↔ L i = true

variable {m : Option ι} {L : ι → Bool}

theorem Guards.take (h : Guards none L) : Guards (some i) (Function.update L i true) := by
  intro j
  have hj : L j ≠ true := fun hj => by simpa using (h j).mpr hj
  rw [Function.update_apply]
  split_ifs with hji
  · simp [hji]
  · exact ⟨fun he => absurd (Option.some.inj he).symm hji, fun he => absurd he hj⟩

theorem Guards.drop (h : Guards m L) (hi : L i = true) : Guards none (Function.update L i false) := by
  intro j
  have hm := (h i).mpr hi
  rw [Function.update_apply]
  split_ifs with hji
  · simp
  · refine ⟨fun he => by simp at he, fun hj => ?_⟩
    have hmj := (h j).mpr hj
    rw [hm] at hmj
    exact absurd (Option.some.inj hmj).symm hji

theorem Guards.keep (h : Guards m L) {b : Bool} (hi : L i = b) : Guards m (Function.update L i b) := by
  rw [← hi, Function.update_eq_self]
  exact h

end Jkit.Lib.Hold
