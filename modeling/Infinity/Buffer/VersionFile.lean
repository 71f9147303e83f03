import Infinity.Buffer.VersionBuffer
import Infinity.Foundations.ByteCodec

/-! # The file of the versions of a block (`SaveToFile`, `SpillToFile`, `LoadFromFile`)

The sizes of both lists are written as 16-bit numbers. As long as the lists are no longer than that,
`LoadFromFile` gives back what was spilled, and of what was saved the versions up to the checkpoint.

* `BlockVersion.readsAt_spillBytes`: reading a file back.
* `BlockVersion.history_of_saved`: what a checkpoint keeps.
* `BlockVersion.history_lost`: a list that is longer.
-/

namespace Infinity.Storage

open Foundations List

/-- Read a number of `w` bytes. -/
def readWord (w : ℕ) : Reader Empty ℕ := do
  let bs ← readBytes w
  pure (leValue bs)

theorem readsAt_readWord {p w n : ℕ} (h : n < 256 ^ w) :
    ReadsAt p (readWord w) (leBytes w n) n := by
  refine (ReadsAt.readBytes (length_leBytes w n)).last ?_
  rw [leValue_leBytes_of_lt h]
  exact .pure n

namespace CreateField

/-- `CreateField::SaveToFile`. -/
def saveToFile (f : CreateField) : Bytes := leBytes 8 f.createTs ++ leBytes 8 f.rowCount

/-- `CreateField::LoadFromFile`. -/
def loadFromFile : Reader Empty CreateField := do
  let createTs ← readWord 8
  let rowCount ← readWord 8
  pure ⟨createTs, rowCount⟩

end CreateField

namespace BlockVersion

/-- The bytes that `SaveToFile` writes; `create_size` and `capacity` have 16 bits. -/
def saveBytes (checkpointTs : ℕ) (v : BlockVersion) : Bytes :=
  let created := (v.created.take (v.created.length % 2 ^ 16)).rdropWhile (checkpointTs < ·.createTs)
  leBytes 2 created.length ++ (created.flatMap CreateField.saveToFile ++
    (leBytes 2 v.deleted.length ++ v.deleted.flatMap fun ts =>
    leBytes 8 (if ts ≤ checkpointTs then ts else 0)))

/-- The bytes that `SpillToFile` writes. -/
def spillBytes (v : BlockVersion) : Bytes :=
  leBytes 2 v.created.length ++ (v.created.flatMap CreateField.saveToFile ++
    (leBytes 2 v.deleted.length ++ (v.deleted.take (v.deleted.length % 2 ^ 16)).flatMap
    (leBytes 8)))

/-- `BlockVersion::LoadFromFile`. -/
def loadFromFile : Reader Empty BlockVersion := do
  let createSize ← readWord 2
  let created ← readMany createSize CreateField.loadFromFile
  let capacity ← readWord 2
  let deleted ← readMany capacity (readWord 8)
  pure ⟨created, deleted⟩

/-- The numbers fit into the types of their fields, and the sizes into 16 bits. -/
structure Fits (v : BlockVersion) : Prop where
  created : ∀ f ∈ v.created, f.createTs < 2 ^ 64 ∧ f.rowCount < 2 ^ 63
  deleted : ∀ ts ∈ v.deleted, ts < 2 ^ 64
  created_length : v.created.length < 2 ^ 16
  deleted_length : v.deleted.length < 2 ^ 16

variable {v : BlockVersion}

/-- **A spilled file is read back.** -/
theorem readsAt_spillBytes (h : v.Fits) : ReadsAt 0 loadFromFile v.spillBytes v := by
  unfold spillBytes loadFromFile
  rw [Nat.mod_eq_of_lt h.deleted_length, take_length]
  refine (readsAt_readWord h.created_length).bind (.bind (.many fun f hf q _ _ => ?_)
    ((readsAt_readWord h.deleted_length).bind (.last (.many fun ts hts q _ _ => ?_) (.pure v))))
  · obtain ⟨hts, hrows⟩ := h.created f hf
    exact (readsAt_readWord hts).bind ((readsAt_readWord (hrows.trans (by decide))).last (.pure f))
  · exact readsAt_readWord (h.deleted ts hts)

/-- What is saved is the spilled form of the versions up to the checkpoint. -/
theorem saveBytes_eq (h : v.Fits) (checkpointTs : ℕ) :
    v.saveBytes checkpointTs = (v.saveToFile checkpointTs).spillBytes := by
  unfold saveBytes spillBytes saveToFile
  rw [Nat.mod_eq_of_lt h.created_length, take_length, length_map,
    Nat.mod_eq_of_lt h.deleted_length, take_of_length_le (by simp), flatMap_map]

theorem Fits.saveToFile (h : v.Fits) (checkpointTs : ℕ) : (v.saveToFile checkpointTs).Fits where
  created f hf := h.created f ((List.rdropWhile_prefix _ _).subset hf)
  deleted ts hts := by
    obtain ⟨ts', hts', rfl⟩ := mem_map.mp hts
    split
    · exact h.deleted ts' hts'
    · decide
  created_length := (List.rdropWhile_prefix _ _).length_le.trans_lt h.created_length
  deleted_length := by simpa [BlockVersion.saveToFile] using h.deleted_length

def DeletedBy (v : BlockVersion) (t row : ℕ) : Prop := ∃ ts ∈ v.deleted[row]?, ts ≠ 0 ∧ ts ≤ t

/-- **A checkpoint keeps the history up to it.** -/
theorem history_saveToFile (hsorted : v.created.Pairwise (·.createTs ≤ ·.createTs))
    (checkpointTs t : ℕ) :
      (v.saveToFile checkpointTs).getRowCount t = v.getRowCount (min t checkpointTs) ∧
      ∀ row, (v.saveToFile checkpointTs).DeletedBy t row ↔
      v.DeletedBy (min t checkpointTs) row := by
  constructor
  · have hup : UpClosed (fun f g : CreateField => f.createTs ≤ g.createTs)
        (checkpointTs < ·.createTs) := by
      intro f g hle hf
      simp only [decide_eq_true_eq] at hf ⊢
      omega
    unfold getRowCount saveToFile
    rw [rdropWhile_eq_filter hup hsorted, ← takeWhile_eq_filter hup hsorted, takeWhile_takeWhile]
    congr 2
    funext f
    simp
  · intro row
    simp only [DeletedBy, saveToFile, getElem?_map, Option.mem_def, Option.map_eq_some_iff]
    constructor
    · rintro ⟨_, ⟨ts, hts, rfl⟩, hne, hle⟩
      split at hne
      next h => exact ⟨ts, hts, hne, by simp_all⟩
      next => exact absurd rfl hne
    · rintro ⟨ts, hts, hne, hle⟩
      obtain ⟨hle, hcheck⟩ := Nat.le_min.mp hle
      exact ⟨ts, ⟨ts, hts, if_pos hcheck⟩, hne, hle⟩

/-- **Checkpointed versions keep the history up to the checkpoint**, and spilled ones are kept
whole. -/
theorem history_of_saved (hsorted : v.created.Pairwise (·.createTs ≤ ·.createTs)) (h : v.Fits)
    (checkpointTs : ℕ) : (∃ v', ReadsAt 0 loadFromFile (v.saveBytes checkpointTs) v' ∧ ∀ t,
      v'.getRowCount t = v.getRowCount (min t checkpointTs) ∧
        ∀ row, v'.DeletedBy t row ↔ v.DeletedBy (min t checkpointTs) row) ∧
      ReadsAt 0 loadFromFile v.spillBytes v := by
  refine ⟨⟨v.saveToFile checkpointTs, ?_, history_saveToFile hsorted checkpointTs⟩,
    readsAt_spillBytes h⟩
  rw [saveBytes_eq h]
  exact readsAt_spillBytes (h.saveToFile checkpointTs)

/-- A version with one field and a deleted row, checkpointed before the deletion. -/
theorem history_of_saved_twoRows :
      (∃ v', ReadsAt 0 loadFromFile (saveBytes 6 ⟨[⟨5, 2⟩], [0, 9]⟩) v' ∧ ∀ t,
      v'.getRowCount t = getRowCount ⟨[⟨5, 2⟩], [0, 9]⟩ (min t 6) ∧
        ∀ row, v'.DeletedBy t row ↔ DeletedBy ⟨[⟨5, 2⟩], [0, 9]⟩ (min t 6) row) ∧
      ReadsAt 0 loadFromFile (spillBytes ⟨[⟨5, 2⟩], [0, 9]⟩) ⟨[⟨5, 2⟩], [0, 9]⟩ :=
  history_of_saved (by decide) ⟨by decide, by decide, by decide, by decide⟩ 6

/-- Of 65536 fields none is saved: their number is 0 in 16 bits. -/
theorem history_lost : ∃ v : BlockVersion, v.created.Pairwise (·.createTs ≤ ·.createTs) ∧
    v.getRowCount 1 = 1 ∧ ReadsAt 0 loadFromFile (v.saveBytes 1) ⟨[], []⟩ := by
  obtain ⟨n, hn⟩ : ∃ n, n = 2 ^ 16 := ⟨_, rfl⟩
  have hne : n ≠ 0 := by omega
  refine ⟨⟨List.replicate n ⟨1, 1⟩, []⟩, by simp [pairwise_replicate], ?_, ?_⟩
  · simp [getRowCount, lastRowCount, getLast?_replicate, hne]
  · have hbytes : saveBytes 1 ⟨List.replicate n ⟨1, 1⟩, []⟩ = spillBytes ⟨[], []⟩ := by
      unfold saveBytes
      rw [length_replicate, hn, Nat.mod_self]
      rfl
    rw [hbytes]
    exact readsAt_spillBytes ⟨by simp, by simp, by decide, by decide⟩

end BlockVersion

end Infinity.Storage
