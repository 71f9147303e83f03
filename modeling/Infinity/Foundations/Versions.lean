import Mathlib

/-! # Versions of a value

The versions that a value has had, the newest first, each with the time stamp from which on it
holds. A reader has a time stamp too, and reads the newest version that is not newer than it. Where
the time stamps fall from one version to the next, that is the version with the greatest of them
(`readAt_eq_of_greatest`, `readAt_eq_none`).

* `readAt_append_of_lt`: newer versions do not matter.
* `readAt_prune`: neither do the versions that no reader from a time on can need.
-/

namespace Infinity.Foundations

open List

variable {β : Type*}

/-- A version of a value; there is no value in one that says that the value was removed. -/
structure Version (β : Type*) where
  ts : ℕ
  value : Option β

def readAt (ts : ℕ) (versions : List (Version β)) : Option β :=
  (versions.find? fun v => v.ts ≤ ts).bind Version.value

/-- The versions without those that no reader from `floor` on can need: the newest version that is
older than that hides the ones behind it, and is not needed either if there is no value in it. -/
def prune (floor : ℕ) : List (Version β) → List (Version β)
  | [] => []
  | v :: versions =>
    if v.ts < floor then (if v.value.isSome then [v] else []) else v :: prune floor versions

section Read

variable {ts : ℕ} {v : Version β} {versions : List (Version β)}

@[simp] theorem readAt_nil : readAt ts ([] : List (Version β)) = none := rfl

theorem readAt_cons_of_le (versions : List (Version β)) (h : v.ts ≤ ts) :
    readAt ts (v :: versions) = v.value := by
  unfold readAt
  rw [find?_cons_of_pos (by simpa using h)]
  rfl

theorem readAt_cons_of_lt (h : ts < v.ts) :
    readAt ts (v :: versions) = readAt ts versions := by
  unfold readAt
  rw [find?_cons_of_neg (by simpa using h)]

/-- Versions that are newer than the reader do not matter. -/
theorem readAt_append_of_lt {newer : List (Version β)} (h : ∀ v ∈ newer, ts < v.ts) :
    readAt ts (newer ++ versions) = readAt ts versions := by
  induction newer with
  | nil => rfl
  | cons v newer ih =>
    rw [cons_append, readAt_cons_of_lt (h v mem_cons_self)]
    exact ih fun w hw => h w (mem_cons_of_mem _ hw)

theorem readAt_eq_none (h : ∀ v ∈ versions, ts < v.ts) : readAt ts versions = none := by
  have hread : readAt ts (versions ++ []) = readAt ts [] := readAt_append_of_lt h
  rwa [append_nil, readAt_nil] at hread

/-- **A reader reads the version with the greatest time stamp that is not newer than it.** -/
theorem readAt_eq_of_greatest (hsorted : versions.Pairwise fun v w => w.ts < v.ts)
    (hv : v ∈ versions)
    (hle : v.ts ≤ ts) (hgreatest : ∀ w ∈ versions, w.ts ≤ ts → w.ts ≤ v.ts) :
    readAt ts versions = v.value := by
  induction versions with
  | nil => cases hv
  | cons w versions ih =>
    obtain ⟨hw, hsorted⟩ := pairwise_cons.mp hsorted
    rcases mem_cons.mp hv with rfl | hv
    · exact readAt_cons_of_le versions hle
    · have hlt : ts < w.ts := by
        by_contra hnot
        have hold := hgreatest w mem_cons_self (not_lt.mp hnot)
        exact absurd (hw v hv) (not_lt.mpr hold)
      rw [readAt_cons_of_lt hlt]
      exact ih hsorted hv fun u hu => hgreatest u (mem_cons_of_mem _ hu)

/-- **Readers from `floor` on do not need what is pruned.** -/
theorem readAt_prune {floor : ℕ} (h : floor ≤ ts) :
    readAt ts (prune floor versions) = readAt ts versions := by
  induction versions with
  | nil => rfl
  | cons v versions ih =>
    rw [prune]
    split
    next hold =>
      have hle : v.ts ≤ ts := (hold.le).trans h
      rw [readAt_cons_of_le versions hle]
      split
      next => exact readAt_cons_of_le [] hle
      next hnone => exact (Option.not_isSome_iff_eq_none.mp hnone).symm
    next hnew =>
      by_cases hle : v.ts ≤ ts
      · rw [readAt_cons_of_le _ hle, readAt_cons_of_le _ hle]
      · rw [readAt_cons_of_lt (not_le.mp hle), readAt_cons_of_lt (not_le.mp hle), ih]

end Read

end Infinity.Foundations
