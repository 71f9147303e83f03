import Infinity.Replay.FlushSteps

/-! # The replay of the log gives the segments of the table

The bottom half of a commit brings segments into the layout of the committed segments, and the
replay of the commands of the transaction does the same, if the ids are those that the replay
counts.

* `reproduced_of_reachable`: in every run whose steps meet the condition, the replay of the log
  gives the committed segments under their ids. -/

namespace Infinity.Replay

open Compaction (SegmentStatus)
open Foundations List Option Statement

variable {ρ : Type} {t t' : TableEntry ρ} {i : ℕ} {L : Layout ρ} {st : Statement ρ} {id : ℕ}

/-! ## The commands of a statement -/

/-- Ids in order that leave no gap after the first `n` are the next ones. -/
theorem eq_range'_of_gapless : ∀ {ids : List ℕ} {n : ℕ}, ids.Pairwise (· < ·) →
    (∀ id ∈ ids, n ≤ id) → (∀ id ∈ ids, ∀ k, n ≤ k → k < id → k ∈ ids) →
    ids = List.range' n ids.length
  | [], n, _, _, _ => rfl
  | id :: ids, n, hsorted, hge, hgapless => by
    obtain ⟨hhead, htail⟩ := pairwise_cons.mp hsorted
    have hid : id = n := by
      by_contra hne
      have hlt : n < id := (hge id (.head _)).lt_of_ne (Ne.symm hne)
      rcases mem_cons.mp (hgapless id (.head _) n le_rfl hlt) with heq | hmem
      · exact hne heq.symm
      · exact lt_asymm hlt (hhead n hmem)
    subst hid
    congr 1
    refine eq_range'_of_gapless htail (fun k hk => hhead k hk) fun k hk m hm hmk => ?_
    rcases mem_cons.mp (hgapless k (mem_cons_of_mem id hk) m (Nat.le_of_succ_le hm) hmk) with
      rfl | hmem
    · exact absurd hm (Nat.not_succ_le_self m)
    · exact hmem

theorem Replayed.appends : ∀ (blocks : List (List ρ)) {t : TableEntry ρ} {L : Layout ρ},
    Replayed t L → ∃ t', (blocks.map WalCmd.append).foldlM TableEntry.replayWalCmd t = .ok t' ∧
      Replayed t' (L.pushAll blocks.flatten) ∧ KeepsStatus t t'
  | [], t, L, h => ⟨t, rfl, h, fun _ _ hid => hid⟩
  | block :: blocks, t, L, h => by
    obtain ⟨u, hok, hu, hkeeps⟩ := h.walCmdAppendReplay block
    obtain ⟨t', hok', ht', hkeeps'⟩ := Replayed.appends blocks hu
    refine ⟨t', ?_, ?_, hkeeps.trans hkeeps'⟩
    · exact bind_eq_ok.mpr ⟨u, hok, hok'⟩
    · rw [flatten_cons, Layout.pushAll_append]
      exact ht'

theorem foldlM_importSegment : ∀ (infos : List (SegmentInfo ρ)) (t : TableEntry ρ),
    (infos.map WalCmd.importSegment).foldlM TableEntry.replayWalCmd t =
      .ok (infos.foldl TableEntry.addSegmentReplayWal t)
  | [], _ => rfl
  | info :: infos, t => foldlM_importSegment infos (t.addSegmentReplayWal info)

/-- The layout after the commit of a statement. -/
def Statement.layout (st : Statement ρ) (L : Layout ρ) : Layout ρ :=
  (L.pushAll st.rows).addAll (st.infos.map SegmentInfo.rows)

/-- **The replay of the commands of a statement** brings its rows and its segments into the layout,
if the ids of the segments are the next ones and the old segments are sealed. -/
theorem Replayed.cmds (h : Replayed t L)
    (hids : st.newIds = List.range' (L.pushAll st.rows).segments.length st.infos.length)
    (hnodup : st.oldIds.Nodup) (hsealed : ∀ id ∈ st.oldIds, t.status id = some .sealed) :
    ∃ t', st.cmds.foldlM TableEntry.replayWalCmd t = .ok t' ∧ Replayed t' (st.layout L) ∧
      (∀ id status, t.status id = some status →
        t'.status id = if id ∈ st.oldIds then some .deprecated else some status) ∧
      ∀ id ∈ st.newIds, id ∉ st.oldIds → t'.status id = some .sealed := by
  cases st with
  | insert blocks =>
    obtain ⟨t', hok, ht', hkeeps⟩ := h.appends blocks
    refine ⟨t', hok, ?_, fun id status hid => ?_, nofun⟩
    · simpa [layout, infos, rows] using ht'
    · exact hkeeps id status hid
  | importing segment saved =>
    obtain ⟨hadd, hkeeps, hnew⟩ := h.addAll hids
    refine ⟨_, foldlM_importSegment saved t, hadd, fun id status hid => ?_, fun id hid _ => ?_⟩
    · exact hkeeps id status hid
    · obtain ⟨info, hinfo, rfl⟩ := mem_map.mp hid
      exact hnew info hinfo
  | compact data finished =>
    obtain ⟨hadd, hkeeps, hnew⟩ := h.addAll hids
    obtain ⟨t', hok, hsim, hdep⟩ :=
      deprecateReplay_ok hnodup fun id hid => hkeeps id _ (hsealed id hid)
    refine ⟨t', bind_eq_ok.mpr ⟨t', hok, rfl⟩, ⟨hadd.shown.similar hsim fun id hid => ?_, ?_⟩,
      fun id status hid => ?_, fun id hid hold => ?_⟩
    · have hunsealed := hadd.shown.status_unsealed hid
      have hold : id ∉ (compact data finished).oldIds := by
        intro hmem
        cases (hkeeps id _ (hsealed id hmem)).symm.trans hunsealed
      rw [hdep id, if_neg hold]
      exact hunsealed
    · exact hsim.next.trans hadd.next
    · rw [hdep id]
      split
      · rfl
      · exact hkeeps id status hid
    · obtain ⟨info, hinfo, rfl⟩ := mem_map.mp hid
      rw [hdep, if_neg hold]
      exact hnew info hinfo

/-! ## The end of a commit -/

/-- What the end of the bottom half of a commit has found and done. -/
structure Bottomed (st : Statement ρ) (state : AppendState ρ) (t t' : TableEntry ρ) : Prop where
  nodup : st.oldIds.Nodup
  noDelete : ∀ id ∈ st.oldIds, t.status id = some .noDelete
  unsealed : ∀ id ∈ state.sealing ++ st.newIds, t.status id = some .unsealed
  similar : Similar t t'
  status : ∀ id, t'.status id = if id ∈ st.oldIds then some .deprecated
    else if id ∈ state.sealing ++ st.newIds then some .sealed else t.status id
  settled : ∀ id, t'.settled [] id = true ↔ t.settled (state.stored ++ st.newIds) id = true
  frame : ∀ id, id ∉ st.oldIds → id ∉ state.sealing → id ∉ st.newIds → id ∉ state.stored →
    t'.segmentMap id = t.segmentMap id

theorem compacted_of_commitCompact (hok : t.commitCompact st = .ok t') :
    ∃ news, (∀ id ∈ news, id ∈ st.newIds) ∧ Compacted st.oldIds news t t' := by
  cases st with
  | compact data finished =>
    refine ⟨_, fun id hid => ?_, .of_foldlM hok⟩
    simpa [newIds, infos] using hid
  | insert | importing =>
    cases hok
    exact ⟨[], by simp, .refl _⟩

theorem Bottomed.of_commitBottom {state : AppendState ρ}
    (hok : t.commitBottom st state = .ok t') : Bottomed st state t t' := by
  obtain ⟨u, hcompact, hrest⟩ := bind_eq_ok.mp hok
  obtain ⟨v, hseal, hwrite⟩ := bind_eq_ok.mp hrest
  obtain ⟨news, hnews, hc⟩ := compacted_of_commitCompact hcompact
  obtain ⟨hunsealed, hsealed⟩ := modifyAll_setSealed hseal
  have hrows : ∀ s s' : Segment ρ, s.setSealed = .ok s' → s'.rows = s.rows ∧
      s'.committed = s.committed := by
    intro s s' hs
    obtain ⟨-, rfl⟩ := setSealed_eq_ok.mp hs
    exact ⟨rfl, rfl⟩
  obtain ⟨hsettled, hframe⟩ := modifyAll_frame hrows hseal
  obtain ⟨hsim, hstatus, hcommit, hframe'⟩ := modifyAll_commitSegment hwrite
  -- a deprecated segment could not be set sealed
  have hdisjoint : ∀ id ∈ state.sealing ++ st.newIds, id ∉ st.oldIds := by
    intro id hid hold
    have hdeprecated := hunsealed id hid
    rw [hc.deprecates id, if_pos hold] at hdeprecated
    cases hdeprecated
  refine ⟨hc.nodup, hc.noDelete, fun id hid => ?_, ?_, fun id => ?_, fun id => ?_,
    fun id hold hsealing hnew hstored => ?_⟩
  · have hu := hunsealed id hid
    rwa [hc.deprecates id, if_neg (hdisjoint id hid)] at hu
  · exact hc.similar.trans ((modifyAll_similar (fun s s' hs => (hrows s s' hs).1) hseal).trans hsim)
  · rw [hstatus id, hsealed id, hc.deprecates id]
    by_cases hold : id ∈ st.oldIds
    · rw [if_neg fun hid => hdisjoint id hid hold, if_pos hold, if_pos hold]
    · rw [if_neg hold, if_neg hold]
  · rw [hcommit [] id, nil_append, hsettled, hc.settled, settled_iff, settled_iff]
    simp only [mem_append]
    tauto
  · rw [hframe' id (by simp [hstored, hnew]), hframe id (by simp [hsealing, hnew]),
      hc.frame id hold fun hid => hnew (hnews id hid)]

/-- Segments of the map under the next ids become visible. -/
theorem Shows.reveal {visible : ℕ → Prop} (h : Shows visible t L) {infos : List (SegmentInfo ρ)}
    (hids : infos.map SegmentInfo.segmentId = List.range' L.segments.length infos.length)
    (hsome : ∀ id, visible id → (t.segmentMap id).isSome)
    (hinfos : ∀ info ∈ infos, ∃ s, t.segmentMap info.segmentId = some s ∧ s.rows = info.rows) :
    Shows (fun id => visible id ∨ id ∈ infos.map SegmentInfo.segmentId) t
    (L.addAll (infos.map SegmentInfo.rows)) := by
  refine ⟨fun id rows => ?_, h.unsealed, h.stray, fun id hid => ?_, h.fresh⟩
  · change (L.segments ++ infos.map SegmentInfo.rows)[id]? = some rows ↔ _
    rcases lt_or_ge id L.segments.length with hlt | hge
    · have hnew : id ∉ infos.map SegmentInfo.segmentId := by
        rw [hids, mem_range'_1]
        omega
      rw [getElem?_append_left hlt, h.rows, or_iff_left hnew]
    · have hhidden : ¬ visible id := by
        intro hvisible
        obtain ⟨s, hs⟩ := isSome_iff_exists.mp (hsome id hvisible)
        have hrows := (h.rows id s.rows).mpr ⟨hvisible, s, hs, rfl⟩
        have := (List.getElem?_eq_some_iff.mp hrows).1
        omega
      rw [getElem?_append_right hge, or_iff_right hhidden, getElem?_map]
      cases hinfo : infos[id - L.segments.length]? with
      | none =>
        have hlen := getElem?_eq_none_iff.mp hinfo
        have hnew : id ∉ infos.map SegmentInfo.segmentId := by
          rw [hids, mem_range'_1]
          omega
        simp [hnew]
      | some info =>
        have hmem := mem_of_getElem? hinfo
        have hid : info.segmentId = id := by
          have hget := congrArg (·[id - L.segments.length]?) hids
          have hlt := (List.getElem?_eq_some_iff.mp hinfo).1
          simp only [getElem?_map, hinfo, map_some, getElem?_range' hlt] at hget
          have := Option.some.inj hget
          omega
        obtain ⟨s, hs, hrows⟩ := hinfos info hmem
        rw [hid] at hs
        rw [map_some, some.injEq, and_iff_right (hid ▸ mem_map_of_mem hmem), hs]
        simp [hrows]
  · exact ⟨.inl (h.writable id hid).1, (h.writable id hid).2⟩

theorem Statement.placed_of_complete (h : st.complete) : st.placed = st.infos := by
  cases st with
  | insert blocks => rfl
  | importing segment saved => rfl
  | compact data finished =>
    obtain rfl : finished := h
    rfl

theorem Statement.newIds_sublist : st.newIds.Sublist st.taken := by
  cases st with
  | insert blocks => exact .refl _
  | importing segment saved => exact sublist_append_left _ _
  | compact data finished => exact .refl _

theorem loggedIds_cmds : ∀ id ∈ loggedIds st.cmds, id ∈ st.newIds := by
  cases st with
  | insert blocks => simp [loggedIds, cmds]
  | importing segment saved =>
    intro id hid
    obtain ⟨cmd, hcmd, hid⟩ := mem_flatMap.mp hid
    obtain ⟨info, hinfo, rfl⟩ := mem_map.mp hcmd
    rw [mem_singleton.mp hid]
    exact mem_map_of_mem hinfo
  | compact data finished => simp [loggedIds, cmds, newIds, infos]

namespace Writers

variable {s : Writers ρ} {rep : TableEntry ρ} {done : List ρ} {state : AppendState ρ}
    {s' : Writers ρ}

/-- What is known when the flush thread ends the commit of a statement. -/
structure Ending (s : Writers ρ) (rep : TableEntry ρ) (L : Layout ρ) (st : Statement ρ) (i : ℕ)
    (state : AppendState ρ) (t' : TableEntry ρ) : Prop where
  inv : s.Inv
  mirrors : s.Mirrors rep L st.rows
  bottom : s.bottom = some (i, state)
  running : s.running i = some st
  complete : st.complete = true
  bottomed : Bottomed st state s.table t'
  gapless : ∀ id ∈ st.newIds, ∀ k < id, s.table.settled st.newIds k = true
  logged : ∀ id ∈ st.oldIds, id ∈ loggedIds s.log

namespace Ending

variable (h : Ending s rep L st i state t') {id : ℕ} {info : SegmentInfo ρ}

include h

theorem stored_eq : s.stored = state.stored := by
  simp [Writers.stored, h.bottom]

theorem pending (hinfo : info ∈ st.infos) : Pending s.table s.stored i info := by
  apply (h.inv.statements i st h.running).pending
  rw [placed_of_complete h.complete]
  exact hinfo

theorem not_settled (hid : id ∈ st.newIds) : ¬ s.table.settled s.stored id := by
  obtain ⟨info, hinfo, rfl⟩ := mem_map.mp hid
  exact (h.pending hinfo).not_settled

/-- The ids of the new segments are the next ones of the layout. -/
theorem newIds_eq :
    st.newIds = List.range' (L.pushAll st.rows).segments.length st.infos.length := by
  have hsorted := (h.inv.statements i st h.running).sorted.sublist st.newIds_sublist
  have hge : ∀ id ∈ st.newIds, (L.pushAll st.rows).segments.length ≤ id := by
    intro id hid
    by_contra hlt
    exact h.not_settled hid ((h.inv.settled_iff_lt h.mirrors).mpr (not_le.mp hlt))
  have hrange := eq_range'_of_gapless hsorted hge fun id hid k hk hlt => ?_
  · rwa [newIds, length_map] at hrange
  · rcases settled_iff.mp (h.gapless id hid k hlt) with hmem | hcommitted
    · exact hmem
    · have hsettled := (h.inv.settled_iff_lt h.mirrors).mp (settled_iff.mpr (.inr hcommitted))
      omega

/-- The old segments are sealed in the replayed table. -/
theorem sealed_old (hid : id ∈ st.oldIds) : rep.status id = some .sealed := by
  rcases h.mirrors.logged id (h.logged id hid) with ⟨-, -, -, hrep⟩ | ⟨hdeprecated, -⟩
  · exact hrep
  · cases (h.bottomed.noDelete id hid).symm.trans hdeprecated

theorem not_old (hid : s.table.status id = some .unsealed) : id ∉ st.oldIds := by
  intro hold
  cases (h.bottomed.noDelete id hold).symm.trans hid

/-- The table after the commit shows the new layout. -/
theorem shown : Shows (fun id => t'.settled [] id) t' (st.layout L) := by
  have hreveal := h.mirrors.shown.reveal h.newIds_eq (fun id => h.inv.isSome_of_settled)
    fun info hinfo => ⟨_, (h.pending hinfo).1, rfl⟩
  have hstatus : ∀ id, (st.layout L).unsealed = some id → t'.status id = some .unsealed := by
    intro u hu
    have hu' : (L.pushAll st.rows).unsealed = some u := hu
    have hunsealed := h.mirrors.shown.status_unsealed hu'
    have hsealing : u ∉ state.sealing ++ st.newIds := by
      rw [mem_append, not_or]
      refine ⟨fun hmem => ?_, fun hmem => h.not_settled hmem (h.mirrors.shown.writable u hu').1⟩
      have hlt := (h.inv.sealing i state h.bottom u hmem).2 u (h.mirrors.shown.unsealed.trans hu')
      exact lt_irrefl u hlt
    rw [h.bottomed.status u, if_neg (h.not_old hunsealed), if_neg hsealing]
    exact hunsealed
  refine (hreveal.similar h.bottomed.similar hstatus).congr fun id => ?_
  rw [h.bottomed.settled id, settled_iff, settled_iff, h.stored_eq, mem_append]
  exact or_right_comm

/-- The states of the logged segments after the commit. -/
theorem logged_after {rep' : TableEntry ρ} (hold : ∀ id status, rep.status id = some status →
      rep'.status id = if id ∈ st.oldIds then some .deprecated else some status)
    (hnew : ∀ id ∈ st.newIds, id ∉ st.oldIds → rep'.status id = some .sealed) :
    Logged (s.log ++ st.cmds) t' rep' := by
  intro id hid
  rw [loggedIds, flatMap_append, mem_append] at hid
  rcases hid with hid | hid
  · by_cases hmem : id ∈ st.oldIds
    · right
      rw [h.bottomed.status id, if_pos hmem, hold id _ (h.sealed_old hmem), if_pos hmem]
      exact ⟨rfl, rfl⟩
    · have hkept : s.table.status id ≠ some .unsealed → t'.status id = s.table.status id := by
        intro hne
        rw [h.bottomed.status id, if_neg hmem, if_neg fun hseal =>
          hne (h.bottomed.unsealed id hseal)]
      rcases h.mirrors.logged id hid with ⟨status, hstatus, hactive, hrep⟩ | ⟨hstatus, hrep⟩
      · have hne : status ≠ .unsealed := by
          rintro rfl
          exact not_active_unsealed hactive
        refine .inl ⟨status, (hkept (by simp [hstatus, hne])).trans hstatus, hactive, ?_⟩
        rw [hold id _ hrep, if_neg hmem]
      · refine .inr ⟨(hkept (by simp [hstatus])).trans hstatus, ?_⟩
        rw [hold id _ hrep, if_neg hmem]
  · have hmem := loggedIds_cmds id hid
    have hsealing : id ∈ state.sealing ++ st.newIds := mem_append_right _ hmem
    have hnot := h.not_old (h.bottomed.unsealed id hsealing)
    refine .inl ⟨.sealed, ?_, .inl rfl, hnew id hmem hnot⟩
    rw [h.bottomed.status id, if_neg hnot, if_pos hsealing]

/-- The segments of other statements are left alone. -/
theorem pending_other {j : ℕ} (hj : j ≠ i) (hpending : Pending s.table s.stored j info) :
    Pending t' [] j info := by
  have hunsealed : s.table.status info.segmentId = some .unsealed := by
    rw [TableEntry.status, hpending.1]
    rfl
  refine ⟨?_, not_mem_nil⟩
  rw [← hpending.1]
  refine h.bottomed.frame _ (h.not_old hunsealed) (fun hmem => ?_) (fun hmem => ?_) fun hmem => ?_
  · refine hpending.not_settled ?_
    rw [h.stored_eq]
    exact (h.inv.sealing i state h.bottom _ hmem).1
  · obtain ⟨info', hinfo', heq⟩ := mem_map.mp hmem
    have hseg := (h.pending hinfo').1
    rw [heq, hpending.1] at hseg
    exact hj (congrArg Segment.txnId (Option.some.inj hseg))
  · exact hpending.2 (h.stored_eq ▸ hmem)

/-- **The end of a commit** keeps the invariant. -/
theorem inv_after :
    ((⟨t', s.running, none, s.log ++ st.cmds⟩ : Writers ρ).setRunning i none).Inv := by
  obtain ⟨rep', hok, hreplayed, hold, hnew⟩ := h.mirrors.replayed.cmds h.newIds_eq h.bottomed.nodup
    fun id hid => h.sealed_old hid
  refine ⟨⟨rep', st.layout L, [], ?_, hreplayed, h.logged_after hold hnew, h.shown, fun _ =>
    rfl, nofun⟩, fun j st' hst' => ?_, nofun, nofun⟩
  · change replay (s.log ++ st.cmds) = .ok rep'
    rw [replay, foldlM_append]
    exact bind_eq_ok.mpr ⟨rep, h.mirrors.replay, hok⟩
  · have hj : j ≠ i := by
      rintro rfl
      cases (if_pos rfl : (if j = j then none else s.running j) = none).symm.trans hst'
    have hst := h.inv.statements j st' ((if_neg hj).symm.trans hst')
    refine ⟨hst.sorted, fun id hid => ?_, fun info hinfo =>
      h.pending_other hj (hst.pending info hinfo)⟩
    change id < t'.nextSegmentId
    rw [h.bottomed.similar.next]
    exact hst.taken_lt id hid

end Ending

theorem Inv.commitBottom (h : s.Inv) (hord : s.inOrder .commitBottom)
    (hs : s.commitBottom = some s') : s'.Inv := by
  unfold Writers.commitBottom at hs
  split at hs
  · next i state hbottom =>
    split at hs
    · next st hrunning =>
      split at hs
      · next hempty =>
        split at hs
        · next t' hok =>
          cases hs
          obtain ⟨rep, L, done, hm⟩ := h.mirrors
          obtain ⟨st', hst', hcomplete, hrows⟩ := hm.rest i state hbottom
          cases hrunning.symm.trans hst'
          rw [isEmpty_iff.mp hempty, append_nil] at hrows
          subst hrows
          have hcond : (∀ id ∈ st.newIds, ∀ k < id, s.table.settled st.newIds k) ∧
              ∀ id ∈ st.oldIds, id ∈ loggedIds s.log := by
            simpa [inOrder, hbottom, hrunning] using hord
          exact (Ending.mk h hm hbottom hrunning hcomplete (.of_commitBottom hok) hcond.1
            hcond.2).inv_after
        · cases hs
      · cases hs
    · cases hs
  · cases hs

theorem Inv.start : (start : Writers ρ).Inv := by
  refine ⟨⟨.empty, .empty, [], rfl, replayed_empty, nofun, ⟨fun id rows => ?_, rfl, rfl, nofun,
    fun _ _ => rfl⟩, fun _ => rfl, nofun⟩, nofun, nofun, nofun⟩
  simp [Layout.empty, TableEntry.empty, Writers.start]

/-- A step that meets the condition keeps the invariant. -/
theorem Inv.step (h : s.Inv) {a : WriterAction ρ} (hord : s.inOrder a) (hs : s.step a = some s') :
    s'.Inv := by
  unfold Writers.step at hs
  split at hs
  · next hact =>
    cases a with
    | insert i block => exact h.insert hact hs
    | startSegment i => exact h.startSegment hact hs
    | saveSegment i rows => exact h.saveSegment hact hs
    | compactGroup i candidates rows => exact h.compactGroup hact hs
    | compactFinish i => exact h.compactFinish hact hs
    | commit i => exact h.commit hs
    | appendRound => exact h.appendRound hord hs
    | commitBottom => exact h.commitBottom hord hs
    | rollback i => exact h.rollback hact hs
  · cases hs

theorem Inv.of_reachable (h : (orderedWriting ρ).Reachable s) : s.Inv := by
  refine h.invariant ?_ ?_
  · rintro _ rfl
    exact .start
  · intro s a s' hinv hs
    obtain ⟨hord, hstep⟩ := TransitionSystem.restrict_step_eq_some.mp hs
    exact hinv.step hord hstep

/-- When the flush thread is idle, the committed segments are those of the layout. -/
theorem Mirrors.committedRows_eq (hm : s.Mirrors rep L []) (hidle : s.bottom = none) :
    s.committedRows id = L.segments[id]? := by
  have hstored : s.stored = [] := by simp [Writers.stored, hidle]
  ext rows
  have hrows := hm.shown.rows id rows
  rw [Layout.pushAll_nil, settled_iff, hstored] at hrows
  rw [hrows, committedRows, map_eq_some_iff]
  constructor
  · rintro ⟨seg, hseg, rfl⟩
    obtain ⟨hseg, hcommitted⟩ := filter_eq_some_iff.mp hseg
    exact ⟨.inr ⟨seg, hseg, hcommitted⟩, seg, hseg, rfl⟩
  · rintro ⟨hcommitted, seg, hseg, rfl⟩
    rcases hcommitted with hnil | ⟨seg', hseg', hcommitted⟩
    · cases hnil
    · cases hseg.symm.trans hseg'
      exact ⟨seg, filter_eq_some_iff.mpr ⟨hseg, hcommitted⟩, rfl⟩

end Writers

theorem Replayed.map_rows (h : Replayed t L) :
    (t.segmentMap id).map Segment.rows = L.segments[id]? := by
  ext rows
  rw [h.shown.rows id rows, map_eq_some_iff, and_iff_right trivial]

/-- **The replay of the log gives the segments of the table.** In every run whose steps meet the
condition, whenever no commit is in its bottom half, the replay of the log from the empty table ends
without error, with the committed segments under their ids and with their rows, and the next id is
greater than all of these. -/
theorem reproduced_of_reachable {s : Writers ρ} (h : (orderedWriting ρ).Reachable s)
    (hidle : s.bottom = none) : s.Reproduced := by
  obtain ⟨rep, L, done, hm⟩ := (Writers.Inv.of_reachable h).mirrors
  obtain rfl := hm.idle hidle
  refine ⟨rep, hm.replay, fun id => ?_, fun id hid => ?_⟩
  · rw [hm.replayed.map_rows, hm.committedRows_eq hidle]
  · obtain ⟨seg, hseg⟩ := isSome_iff_exists.mp hid
    have hrows := (hm.replayed.shown.rows id seg.rows).mpr ⟨trivial, seg, hseg, rfl⟩
    rw [hm.replayed.next]
    exact (List.getElem?_eq_some_iff.mp hrows).1

/-- An import commits, an insert opens a segment, and a compaction replaces the segment of the
import; an import that is rolled back has taken an id after all of these. -/
def orderedRun : List (WriterAction ℕ) :=
  [.startSegment 1, .insert 2 [20], .saveSegment 1 [10, 11], .commit 1, .commitBottom, .commit 2,
    .appendRound, .commitBottom, .compactGroup 3 [0, 1] [10, 11], .startSegment 4, .compactFinish 3,
    .commit 3, .commitBottom, .saveSegment 4 [30], .rollback 4]

theorem reproduced_orderedRun : ∃ s, (orderedWriting ℕ).run .start orderedRun = some s ∧
    s.bottom = none ∧ s.Reproduced :=
  ⟨_, rfl, rfl, reproduced_of_reachable (.of_run orderedRun (.initial rfl) rfl) rfl⟩

end Infinity.Replay
