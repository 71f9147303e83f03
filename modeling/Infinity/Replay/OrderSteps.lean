import Infinity.Foundations.Outcome
import Infinity.Replay.Order

/-! # The steps of running statements

A statement that runs takes ids, puts segments into the map that are not committed, and moves
segments between the active states. None of this is seen by the layout of the committed segments.

* `Inv.emplace`, `Inv.eraseSegment`: segments that are not committed come and go.
-/

namespace Infinity.Replay

open Compaction (SegmentStatus)
open Foundations List Option TableEntry Statement

variable {ρ : Type} {t t' : TableEntry ρ} {i : ℕ} {info : SegmentInfo ρ}
  {s' : Writers ρ} {id : ℕ} {own ids : List ℕ} {visible : ℕ → Prop} {L : Layout ρ} {rows : List ρ}
  {x : Option (Segment ρ)}

/-! ## Segments come and go -/

theorem emplace_eq_ok : t.emplace i info = .ok t' ↔ t.segmentMap info.segmentId = none ∧
    t' = t.setSegment info.segmentId ⟨info.rows, .unsealed, false, i⟩ := by
  rw [emplace]
  cases t.segmentMap info.segmentId <;> simp [eq_comm]

def TableEntry.setAt (t : TableEntry ρ) (id : ℕ) (x : Option (Segment ρ)) : TableEntry ρ :=
  { t with segmentMap := fun j => if j = id then x else t.segmentMap j }

/-- A segment that is not visible changes. -/
theorem Shows.setAt (h : Shows visible t L) (hhidden : ¬ visible id)
    (hlt : x = none ∨ id < t.nextSegmentId) : Shows visible (t.setAt id x) L := by
  have hother : ∀ j, j ≠ id → (t.setAt id x).segmentMap j = t.segmentMap j := fun j hj => if_neg hj
  refine ⟨fun j rows => ?_, h.unsealed, h.stray, fun j hj => ?_, fun j hj => ?_⟩
  · by_cases hj : j = id
    · subst hj
      rw [h.rows]
      simp [hhidden]
    · rw [hother j hj, h.rows]
  · have hvisible := (h.writable j hj).1
    rw [hother j (by rintro rfl; exact hhidden hvisible)]
    exact h.writable j hj
  · have hle : t.nextSegmentId ≤ j := hj
    by_cases hid : j = id
    · exact (if_pos hid).trans (hlt.resolve_right (by omega))
    · rw [hother j hid]
      exact h.fresh j hj

theorem Pending.not_settled (h : Pending t own i info) : ¬ t.settled own info.segmentId := by
  simp [settled, h.1, h.2]

theorem settled_congr
    (h : (t'.segmentMap id).any Segment.committed = (t.segmentMap id).any Segment.committed) :
    t'.settled own id = t.settled own id := by
  rw [settled, settled, h]

theorem Pending.of_eq (h : Pending t own i info)
    (heq : t'.segmentMap info.segmentId = t.segmentMap info.segmentId) : Pending t' own i info :=
  ⟨heq.trans h.1, h.2⟩

theorem Logged.of_status {log : List (WalCmd ρ)} {rep : TableEntry ρ} (h : Logged log t rep)
    (heq : ∀ id, t.status id ≠ none → t.status id ≠ some .unsealed → t'.status id = t.status id) :
    Logged log t' rep := by
  intro id hid
  rcases h id hid with ⟨status, hstatus, hactive, hrep⟩ | ⟨hstatus, hrep⟩
  · have hne : status ≠ .unsealed := by
      rintro rfl
      exact not_active_unsealed hactive
    rw [heq id (by simp [hstatus]) (by simp [hstatus, hne])]
    exact .inl ⟨status, hstatus, hactive, hrep⟩
  · rw [heq id (by simp [hstatus]) (by simp [hstatus])]
    exact .inr ⟨hstatus, hrep⟩

namespace Writers.Inv

variable {s : Writers ρ}

/-- A segment that is not committed and that no running statement has put into the map changes. -/
theorem setAt (h : s.Inv)
    (hbefore : ∀ a, s.table.segmentMap id = some a → a.committed = false ∧ a.status = .unsealed)
    (hafter : x.any Segment.committed = false) (hstored : id ∉ s.stored)
    (hlt : x = none ∨ id < s.table.nextSegmentId)
    (hplaced : ∀ j st, s.running j = some st → ∀ info ∈ st.placed, info.segmentId ≠ id) :
    (s.setTable (s.table.setAt id x)).Inv := by
  have hother : ∀ j, j ≠ id → (s.table.setAt id x).segmentMap j = s.table.segmentMap j :=
    fun j hj => if_neg hj
  have hany : (s.table.segmentMap id).any Segment.committed = false := by
    cases ha : s.table.segmentMap id with
    | none => rfl
    | some a => exact (hbefore a ha).1
  have hsettled : ∀ own j, (s.table.setAt id x).settled own j = s.table.settled own j := by
    intro own j
    apply settled_congr
    by_cases hj : j = id
    · rw [hj, hany, ← hafter]
      exact congrArg (Option.any _) (if_pos rfl)
    · rw [hother j hj]
  obtain ⟨rep, L, done, hm⟩ := h.mirrors
  refine ⟨⟨rep, L, done, hm.replay, hm.replayed, ?_, ?_, hm.idle, hm.rest⟩, fun j st hst => ?_,
    fun j hj => ?_, fun i state hb j hj => ?_⟩
  · refine hm.logged.of_status fun j hne hsealed => ?_
    rw [status, setTable, hother j, status]
    rintro rfl
    obtain ⟨a, ha, -⟩ := map_eq_some_iff.mp (ne_none_iff_exists'.mp hne).choose_spec
    exact hsealed (by rw [status, ha, map_some, (hbefore a ha).2])
  · refine (hm.shown.setAt (by simp [settled, hany, hstored]) hlt).congr fun j => ?_
    rw [setTable, hsettled]
    rfl
  · have hst' := h.statements j st hst
    exact ⟨hst'.sorted, hst'.taken_lt, fun info hinfo =>
      (hst'.pending info hinfo).of_eq (hother _ (hplaced j st hst info hinfo))⟩
  · rw [setTable, hother j (by rintro rfl; exact hstored hj)]
    exact h.stored j hj
  · rw [setTable, hsettled]
    exact h.sealing i state hb j hj

/-- A statement puts a segment of its own into the map. -/
theorem emplace (h : s.Inv) (hlt : info.segmentId < s.table.nextSegmentId)
    (hok : s.table.emplace i info = .ok t') : (s.setTable t').Inv ∧ Pending t' s.stored i info := by
  obtain ⟨hnone, rfl⟩ := emplace_eq_ok.mp hok
  have hstored : info.segmentId ∉ s.stored := by
    intro hmem
    have := h.stored _ hmem
    rw [hnone] at this
    cases this
  refine ⟨h.setAt (by simp [hnone]) (x :=
    some _) rfl hstored (.inr hlt) fun j st hst info' hinfo' heq => ?_, setSegment_self, hstored⟩
  have hpending := ((h.statements j st hst).pending info' hinfo').1
  rw [heq, hnone] at hpending
  cases hpending

/-- A segment of a statement that has ended is taken out of the map. -/
theorem eraseSegment (h : s.Inv) (hpending : Pending s.table s.stored i info)
    (hi : s.running i = none) : (s.setTable (s.table.eraseSegment info.segmentId)).Inv := by
  refine h.setAt (x := none) (fun a ha => ?_) rfl hpending.2 (.inl rfl)
    fun j st hst info' hinfo' heq => ?_
  · cases hpending.1.symm.trans ha
    exact ⟨rfl, rfl⟩
  · -- the segment under the common id would be that of two transactions
    have hpending' := ((h.statements j st hst).pending info' hinfo').1
    rw [heq, hpending.1] at hpending'
    obtain rfl : i = j := congrArg Segment.txnId (Option.some.inj hpending')
    cases hi.symm.trans hst

/-! ## The steps -/

theorem insert (h : s.Inv) (hi : s.executes i) {block : List ρ} (hs : s.insert i block = some s') :
    s'.Inv := by
  have hok : ∀ blocks, StatementOk s.table s.stored i (.insert blocks) :=
    fun blocks => ⟨.nil, nofun, nofun⟩
  unfold Writers.insert at hs
  split at hs
  · cases hs
    exact h.runStatement hi (hok _)
  · cases hs
    exact h.runStatement hi (hok _)
  · cases hs

/-- A statement that has just taken an id. -/
theorem statementOk_start {saved : List (SegmentInfo ρ)}
    (hst : StatementOk s.table s.stored i (.importing none saved)) :
    StatementOk s.takeId.table s.stored i (.importing (some s.table.nextSegmentId) saved) := by
  have htaken : ∀ id ∈ saved.map SegmentInfo.segmentId, id < s.table.nextSegmentId := by
    simpa [taken] using hst.taken_lt
  refine ⟨?_, fun id hid => ?_, hst.pending⟩
  · have hsorted := hst.sorted
    rw [taken, toList_none, append_nil] at hsorted
    rw [taken, toList_some, pairwise_append]
    refine ⟨hsorted, pairwise_singleton _ _, fun a ha b hb => ?_⟩
    rw [mem_singleton.mp hb]
    exact htaken a ha
  · rw [taken, toList_some, mem_append, mem_singleton] at hid
    rcases hid with hid | rfl
    · exact Nat.lt_succ_of_lt (htaken id hid)
    · exact Nat.lt_succ_self _

theorem startSegment (h : s.Inv) (hi : s.executes i) (hs : s.startSegment i = some s') :
    s'.Inv := by
  unfold Writers.startSegment at hs
  split at hs
  · cases hs
    exact h.takeId.runStatement hi (statementOk_start ⟨.nil, nofun, nofun⟩)
  · next saved hst =>
    cases hs
    exact h.takeId.runStatement hi (statementOk_start (h.statements i _ hst))
  · cases hs

theorem saveSegment (h : s.Inv) (hi : s.executes i) (hs : s.saveSegment i rows = some s') :
    s'.Inv := by
  unfold Writers.saveSegment at hs
  split at hs
  · next id saved hst =>
    split at hs
    · next t' hok =>
      cases hs
      have hid : id < s.table.nextSegmentId := (h.statements i _ hst).taken_lt id (by simp [taken])
      obtain ⟨hinv, hpending⟩ := h.emplace hid hok
      have hok' := hinv.statements i _ hst
      refine hinv.runStatement hi ⟨?_, fun j hj => hok'.taken_lt j ?_, fun info hinfo => ?_⟩
      · simpa [taken] using hok'.sorted
      · simpa [taken] using hj
      · rcases mem_append.mp hinfo with hold | hnew
        · exact hok'.pending info hold
        · rw [mem_singleton.mp hnew]
          exact hpending
    · cases hs
  · cases hs

end Writers.Inv

/-! ## The steps of compactions -/

theorem takeCompactible_relabels :
    ∀ (ids : List ℕ) (t : TableEntry ρ), Relabels t (t.takeCompactible ids).1
  | [], t => .refl t
  | id :: ids, t => by
    rw [takeCompactible]
    split
    · next s' hs' =>
      obtain ⟨s, hs, htry⟩ := bind_eq_some_iff.mp hs'
      obtain ⟨hsealed, rfl⟩ := trySetCompacting_eq_some.mp htry
      have hset := Relabels.setSegment hs (.inl hsealed) (.inr (.inl rfl))
      exact hset.trans (takeCompactible_relabels ids _)
    · exact takeCompactible_relabels ids t

theorem modifyAll_relabels {f : Segment ρ → Except SegmentError (Segment ρ)}
    (hf : ∀ s s', f s = .ok s' → Active s.status ∧ ∃ status, Active status ∧
    s' = { s with status := status }) (hok : t.modifyAll f ids = .ok t') : Relabels t t' := by
  refine modifyAll_invariant (P := Relabels t) (fun u id s s' hu _ hs hfs => ?_) (.refl t) hok
  obtain ⟨hactive, status, hactive', rfl⟩ := hf s s' hfs
  exact hu.trans (.setSegment hs hactive hactive')

theorem modifyAll_setNoDelete_relabels (hok : t.modifyAll Segment.setNoDelete ids = .ok t') :
    Relabels t t' := by
  refine modifyAll_relabels (fun s s' hs => ?_) hok
  obtain ⟨hstatus, rfl⟩ := setNoDelete_eq_ok.mp hs
  exact ⟨.inr hstatus, _, .inr (.inr rfl), rfl⟩

theorem modifyAll_rollbackCompact_relabels
    (hok : t.modifyAll Segment.rollbackCompact ids = .ok t') : Relabels t t' := by
  refine modifyAll_relabels (fun s s' hs => ?_) hok
  obtain ⟨hstatus, rfl⟩ := rollbackCompact_eq_ok.mp hs
  exact ⟨.inr (.inr hstatus), _, .inl rfl, rfl⟩

namespace Writers.Inv

variable {s : Writers ρ}

theorem compactGroup (h : s.Inv) (hi : s.executes i) {candidates : List ℕ}
    (hs : s.compactGroup i candidates rows = some s') : s'.Inv := by
  obtain ⟨data, hdata, rfl⟩ := map_eq_some_iff.mp hs
  have hold : StatementOk s.table s.stored i (.compact data false) := by
    unfold Writers.groups at hdata
    split at hdata
    · cases hdata
      exact ⟨.nil, nofun, nofun⟩
    · next hst =>
      cases hdata
      exact h.statements i _ hst
    · cases hdata
  have hrelabel := takeCompactible_relabels candidates s.table
  refine (h.relabel hrelabel).takeId.runStatement hi ⟨?_, fun id hid => ?_, nofun⟩
  · have hsorted := hold.sorted
    simp only [taken, newIds, infos, map_append, map_cons, map_nil, pairwise_append, mem_singleton]
      at hsorted ⊢
    refine ⟨hsorted, pairwise_singleton _ _, ?_⟩
    rintro a ha _ rfl
    exact hold.taken_lt a ha
  · change id < (s.table.takeCompactible candidates).1.nextSegmentId + 1
    rw [hrelabel.next]
    simp only [taken, newIds, infos, map_append, map_cons, map_nil, mem_append, mem_singleton]
      at hid
    rcases hid with hid | rfl
    · exact Nat.lt_succ_of_lt (hold.taken_lt id hid)
    · exact Nat.lt_succ_self _

/-- `emplace` of segments leaves what is in the map. -/
theorem emplaceAll_keeps : ∀ {infos : List (SegmentInfo ρ)} {t : TableEntry ρ},
    infos.foldlM (TableEntry.emplace i) t = .ok t' → ∀ id s, t.segmentMap id = some s →
    t'.segmentMap id = some s
  | [], t, hok, id, s, hs => by
    cases hok
    exact hs
  | info :: infos, t, hok, id, s, hs => by
    obtain ⟨u, hput, hrest⟩ := bind_eq_ok.mp hok
    obtain ⟨hnone, rfl⟩ := emplace_eq_ok.mp hput
    have hne : id ≠ info.segmentId := by
      rintro rfl
      cases hnone.symm.trans hs
    exact emplaceAll_keeps hrest id s ((setSegment_other hne).trans hs)

/-- A statement puts all its segments into the map. -/
theorem emplaceAll : ∀ {infos : List (SegmentInfo ρ)} {s : Writers ρ}, s.Inv →
    (∀ info ∈ infos, info.segmentId < s.table.nextSegmentId) →
    infos.foldlM (TableEntry.emplace i) s.table = .ok t' →
    (s.setTable t').Inv ∧ t'.nextSegmentId = s.table.nextSegmentId ∧ ∀ info ∈ infos,
    Pending t' s.stored i info
  | [], s, h, _, hok => by
    cases hok
    exact ⟨h, rfl, nofun⟩
  | info :: infos, s, h, hlt, hok => by
    obtain ⟨u, hput, hrest⟩ := bind_eq_ok.mp hok
    obtain ⟨hinv, hpending⟩ := h.emplace (hlt info (.head _)) hput
    have hnext : u.nextSegmentId = s.table.nextSegmentId := by
      obtain ⟨-, rfl⟩ := emplace_eq_ok.mp hput
      rfl
    obtain ⟨hinv', hnext', hall⟩ := hinv.emplaceAll
      (fun info' hinfo' => hnext ▸ hlt info' (mem_cons_of_mem info hinfo')) hrest
    refine ⟨hinv', hnext'.trans hnext, fun info' hinfo' => ?_⟩
    rcases mem_cons.mp hinfo' with rfl | hmem
    · exact ⟨emplaceAll_keeps hrest _ _ hpending.1, hpending.2⟩
    · exact hall info' hmem

theorem compactFinish (h : s.Inv) (hi : s.executes i) (hs : s.compactFinish i = some s') :
    s'.Inv := by
  unfold Writers.compactFinish at hs
  split at hs
  · next data hst =>
    split at hs
    · next t' hok =>
      cases hs
      obtain ⟨u, hmod, hput⟩ := bind_eq_ok.mp hok
      have hrelabel := modifyAll_setNoDelete_relabels hmod
      have hold := (h.statements i _ hst).relabel hrelabel
      obtain ⟨hinv, hnext, hpending⟩ := (h.relabel hrelabel).emplaceAll
        (fun info hinfo => hold.taken_lt _ (mem_map_of_mem hinfo)) hput
      refine hinv.runStatement hi ⟨hold.sorted, fun id hid => ?_, hpending⟩
      change id < t'.nextSegmentId
      rw [hnext]
      exact hold.taken_lt id hid
    · cases hs
  · cases hs

/-! ## Rollbacks -/

theorem rollbackGroup_eq_ok {d : CompactSegmentData ρ} {t : TableEntry ρ}
    (hok : t.rollbackGroup d = .ok t') :
    (t.eraseSegment d.newSegment.segmentId).modifyAll Segment.rollbackCompact d.oldSegments =
    .ok t' := by
  unfold rollbackGroup at hok
  split at hok
  · cases hok
  · split at hok
    · cases hok
    · exact hok

/-- The groups of a compaction are rolled back when its transaction is none of the running ones. -/
theorem rollbackCompact : ∀ {data : List (CompactSegmentData ρ)} {s : Writers ρ}, s.Inv →
    s.running i = none →
    (data.map (·.newSegment.segmentId)).Pairwise (· < ·) →
    (∀ d ∈ data, Pending s.table s.stored i d.newSegment) →
    data.foldlM rollbackGroup s.table = .ok t' → (s.setTable t').Inv
  | [], s, h, _, _, _, hok => by
    cases hok
    exact h
  | d :: data, s, h, hi, hsorted, hpending, hok => by
    obtain ⟨u, hgroup, hrest⟩ := bind_eq_ok.mp hok
    have hrelabel := modifyAll_rollbackCompact_relabels (rollbackGroup_eq_ok hgroup)
    have hinv := (h.eraseSegment (hpending d (.head _)) hi).relabel hrelabel
    rw [map_cons, pairwise_cons] at hsorted
    refine hinv.rollbackCompact hi hsorted.2 (fun d' hd' => ?_) hrest
    have hne : d'.newSegment.segmentId ≠ d.newSegment.segmentId :=
      (hsorted.1 _ (mem_map_of_mem hd')).ne'
    have hkept : Pending (s.table.eraseSegment d.newSegment.segmentId) s.stored i d'.newSegment :=
      (hpending d' (mem_cons_of_mem d hd')).of_eq (if_neg hne)
    exact hkept.relabel hrelabel

theorem rollback (h : s.Inv) (hi : s.executes i) (hs : s.rollback i = some s') : s'.Inv := by
  unfold Writers.rollback at hs
  split at hs
  · next st hst =>
    split at hs
    · next t' hok =>
      cases hs
      have hnone : (s.setRunning i none).Inv := h.setRunning hi nofun
      have hself : (s.setRunning i none).running i = none := if_pos rfl
      have hst' := h.statements i st hst
      unfold TableEntry.rollback at hok
      split at hok
      · next data =>
        refine hnone.rollbackCompact hself ?_ (fun d hd => ?_) hok
        · simpa [taken, newIds, infos, Function.comp_def] using hst'.sorted
        · exact hst'.pending _ (mem_map_of_mem hd)
      · cases hok
        exact hnone
    · cases hs
  · cases hs

theorem commit (h : s.Inv) (hs : s.commit i = some s') : s'.Inv := by
  unfold Writers.commit at hs
  split at hs
  · next st hbottom hst =>
    split at hs
    · next hcomplete =>
      cases hs
      have hstored : s.stored = [] := by simp [Writers.stored, hbottom]
      obtain ⟨rep, L, done, hm⟩ := h.mirrors
      obtain rfl := hm.idle hbottom
      have hshown := hm.shown
      rw [hstored] at hshown
      refine ⟨⟨rep, L, [], hm.replay, hm.replayed, hm.logged, hshown, nofun, ?_⟩, fun j st' hj =>
        ?_, nofun, ?_⟩
      · rintro _ _ ⟨⟩
        exact ⟨st, hst, hcomplete, rfl⟩
      · have hst' := h.statements j st' hj
        rw [hstored] at hst'
        exact hst'
      · rintro _ _ ⟨⟩
        exact nofun
    · cases hs
  · cases hs

end Writers.Inv

end Infinity.Replay
