import Infinity.Replay.OrderSteps

/-! # The steps of the flush thread

A round of the append in the bottom half of a commit brings rows into the layout; the end of the
bottom half commits segments, sets the full ones sealed and deprecates the old ones of a compaction.

* `modifyAll_commitSegment`, `modifyAll_setSealed`, `Compacted`: what the parts of the end of a
  commit have found and done. -/

namespace Infinity.Replay

open Compaction (SegmentStatus)
open Foundations List TableEntry

variable {ρ : Type} {t t' : TableEntry ρ} {i : ℕ} {id : ℕ} {own : List ℕ}

/-! ## An append -/

theorem settled_iff : t.settled own id ↔ id ∈ own ∨ ∃ s, t.segmentMap id = some s ∧
    s.committed := by
  cases hs : t.segmentMap id <;> simp [settled, hs]

namespace Writers

variable {s : Writers ρ} {rep : TableEntry ρ} {L : Layout ρ} {done : List ρ}
  {state state' : AppendState ρ} {new : List ρ}

theorem Inv.isSome_of_settled (h : s.Inv) (hid : s.table.settled s.stored id) :
    (s.table.segmentMap id).isSome := by
  rcases settled_iff.mp hid with hmem | ⟨seg, hseg, -⟩
  · exact h.stored id hmem
  · rw [hseg]
    rfl

section

variable (h : s.Inv) (hm : s.Mirrors rep L done)
include h hm

/-- The ids of the layout are the settled ones. -/
theorem Inv.settled_iff_lt : s.table.settled s.stored id ↔
    id < (L.pushAll done).segments.length := by
  constructor
  · intro hid
    obtain ⟨seg, hseg⟩ := Option.isSome_iff_exists.mp (h.isSome_of_settled hid)
    have hrows := (hm.shown.rows id seg.rows).mpr ⟨hid, seg, hseg, rfl⟩
    exact (List.getElem?_eq_some_iff.mp hrows).1
  · intro hlt
    exact ((hm.shown.rows id _).mp (getElem?_eq_getElem hlt)).1

theorem Inv.lt_next_of_settled (hid : s.table.settled s.stored id) :
    id < s.table.nextSegmentId := by
  by_contra hge
  have hsome := h.isSome_of_settled hid
  rw [hm.shown.fresh id (not_lt.mp hge)] at hsome
  cases hsome

/-- When all ids that were taken are settled, the next one is the next one of the layout. -/
theorem Inv.next_eq (hall : ∀ id < s.table.nextSegmentId, s.table.settled s.stored id) :
    s.table.nextSegmentId = (L.pushAll done).segments.length := by
  apply le_antisymm
  · by_contra hlt
    have hid := hall _ (not_le.mp hlt)
    rw [h.settled_iff_lt hm] at hid
    exact lt_irrefl _ hid
  · by_contra hlt
    have hid := (h.settled_iff_lt hm).mpr (not_le.mp hlt)
    exact lt_irrefl _ (h.lt_next_of_settled hm hid)

end

/-- A round of the append writes to a segment that is settled or new. -/
theorem settled_round (hround : Round t i state id new t' state') (j : ℕ) :
    t'.settled state'.stored j ↔ t.settled state.stored j ∨ j = id := by
  rw [settled_iff, settled_iff, hround.stored, mem_append, mem_singleton]
  by_cases hj : j = id
  · simp [hj]
  · rw [hround.other j hj]
    simp [hj]

/-- The segment that a round writes to is not one of a running statement. -/
theorem pending_round {j : ℕ} {info : SegmentInfo ρ} {visible : ℕ → Prop} (h : Pending t own j info)
    (hround : Round t i state id new t' state') (hown : own = state.stored)
    (hshow : Shows visible t L) (hvisible : ∀ k, visible k → t.settled own k) :
    Pending t' state'.stored j info := by
  have hne : info.segmentId ≠ id := by
    intro heq
    rcases hround.segment with ⟨hid, -⟩ | ⟨-, -, -, hnone, -⟩
    · have hunsealed := (hshow.writable id (hshow.unsealed ▸ hid)).1
      exact h.not_settled (heq ▸ hvisible id hunsealed)
    · rw [← heq, h.1] at hnone
      cases hnone
  refine ⟨(hround.other _ hne).trans h.1, ?_⟩
  rw [hround.stored, mem_append, mem_singleton, not_or]
  exact ⟨hown ▸ h.2, hne⟩

/-- The invariant after a round of the append. -/
theorem Inv.round (h : s.Inv) (hm : s.Mirrors rep L done) (hbottom : s.bottom = some (i, state))
    (hround : Round s.table i state id new t' state')
    (hshow : Shows (fun j => s.table.settled s.stored j ∨ j = id) t'
      ((L.pushAll done).pushAll new)) : Inv { s with table := t', bottom := some (i, state') } := by
  have hstored : s.stored = state.stored := by simp [Writers.stored, hbottom]
  rw [hstored] at hshow
  have hsettled := settled_round hround
  refine ⟨⟨rep, L, done ++ new, hm.replay, hm.replayed, ?_, ?_, by simp, ?_⟩, fun j st hj =>
    ?_, fun j hj => ?_, ?_⟩
  · refine hm.logged.of_status fun j hj _ => ?_
    obtain ⟨status, hstatus⟩ := Option.ne_none_iff_exists'.mp hj
    rw [hstatus]
    exact hround.keepsStatus j status hstatus
  · rw [Layout.pushAll_append]
    exact hshow.congr fun j => (hsettled j).symm
  · rintro _ _ ⟨⟩
    obtain ⟨st, hst, hcomplete, hrows⟩ := hm.rest i state hbottom
    refine ⟨st, hst, hcomplete, ?_⟩
    rw [hrows, hround.rest, append_assoc]
  · have hst := h.statements j st hj
    refine ⟨hst.sorted, fun k hk => ?_, fun info hinfo => ?_⟩
    · have hlt := hst.taken_lt k hk
      change k < t'.nextSegmentId
      rcases hround.segment with ⟨-, -, hnext, -⟩ | ⟨-, -, hnext, -⟩ <;> omega
    · exact pending_round (hst.pending info hinfo) hround hstored hm.shown fun _ hk => hk
  · change j ∈ state'.stored at hj
    rw [hround.stored, mem_append, mem_singleton] at hj
    by_cases hjd : j = id
    · rw [hjd]
      rcases hround.segment with ⟨-, -, -, seg, -, hseg⟩ | ⟨-, -, -, -, hseg⟩ <;> rw [hseg] <;> rfl
    · rw [hround.other j hjd]
      exact h.stored j (hstored ▸ hj.resolve_right hjd)
  · rintro _ _ ⟨⟩ j hj
    have hold : ∀ k ∈ state.sealing, s.table.settled state.stored k ∧
        ∀ u, s.table.unsealedId = some u → k < u := h.sealing i state hbottom
    have hmono : s.table.settled state.stored j →
        t'.settled state'.stored j := fun hk => (hsettled j).mpr (.inl hk)
    rw [hround.unsealed]
    rcases hround.segment with ⟨hid, hsealing, -⟩ | ⟨hid, hsealing, -⟩
    · rw [hsealing] at hj
      exact ⟨hmono (hold j hj).1, fun u hu => (hold j hj).2 u (hid.trans hu)⟩
    · rw [hsealing, mem_append, Option.mem_toList] at hj
      have hj' : s.table.settled state.stored j := by
        rcases hj with hj | hj
        · exact (hold j hj).1
        · rw [← hstored]
          exact (hm.shown.writable j (hm.shown.unsealed ▸ hj)).1
      refine ⟨hmono hj', fun u hu => ?_⟩
      rw [← Option.some.inj hu, hid]
      exact h.lt_next_of_settled hm (hstored ▸ hj')

/-- **A round of the append** of the flush thread. -/
theorem Inv.appendRound {s' : Writers ρ} (h : s.Inv) (hord : s.inOrder .appendRound)
    (hs : s.appendRound = some s') : s'.Inv := by
  unfold Writers.appendRound at hs
  split at hs
  · next i state hbottom =>
    split at hs
    · cases hs
    · next hempty =>
      split at hs
      · next t' state' hok =>
        cases hs
        obtain ⟨rep, L, done, hm⟩ := h.mirrors
        have hne : state.rest ≠ [] := by simpa using hempty
        have hnext : (L.pushAll done).roomy = none →
            s.table.nextSegmentId = (L.pushAll done).segments.length := by
          intro hroomy
          have hfull := hm.shown.full_iff.mpr hroomy
          apply h.next_eq hm
          simpa [inOrder, hfull] using hord
        obtain ⟨u, state₁, id, new, hok', hround, hshow, -⟩ := hm.shown.appendRound hne hnext i
        obtain ⟨rfl, rfl⟩ := Prod.mk.inj (Except.ok.inj (hok.symm.trans hok'))
        exact h.round hm hbottom hround hshow
      · cases hs
  · cases hs

end Writers

/-! ## The end of a commit -/

section Effects

variable {f : Segment ρ → Except SegmentError (Segment ρ)} {ids : List ℕ}

/-- An operation that changes the state of segments only. -/
theorem modifyAll_frame (hf : ∀ s s', f s = .ok s' → s'.rows = s.rows ∧ s'.committed = s.committed)
    (hok : t.modifyAll f ids = .ok t') :
    (∀ own id, t'.settled own id = t.settled own id) ∧ ∀ id ∉ ids,
    t'.segmentMap id = t.segmentMap id := by
  refine modifyAll_invariant (P := fun u => (∀ own id, u.settled own id = t.settled own id) ∧
    ∀ id ∉ ids, u.segmentMap id = t.segmentMap id) ?_ ⟨fun _ _ => rfl, fun _ _ => rfl⟩ hok
  rintro u id s s' ⟨hsettled, hframe⟩ hid hs hfs
  refine ⟨fun own j => ?_, fun j hj => ?_⟩
  · rw [← hsettled own j]
    apply settled_congr
    by_cases hj : j = id
    · subst hj
      rw [setSegment_self, hs, Option.any_some, Option.any_some, (hf s s' hfs).2]
    · rw [setSegment_other hj]
  · rw [setSegment_other (by rintro rfl; exact hj hid)]
    exact hframe j hj

/-- What `CommitSegment` does to the segments of a list. -/
theorem modifyAll_commitSegment :
    ∀ {ids : List ℕ} {t : TableEntry ρ}, t.modifyAll Segment.commitSegment ids = .ok t' →
    Similar t t' ∧ (∀ id, t'.status id = t.status id) ∧
      (∀ own id, t'.settled own id ↔ t.settled (own ++ ids) id) ∧
      ∀ id ∉ ids, t'.segmentMap id = t.segmentMap id
  | [], t, hok => by
    cases hok
    exact ⟨.refl _, fun _ => rfl, fun own id => by rw [List.append_nil], fun _ _ => rfl⟩
  | id :: ids, t, hok => by
    obtain ⟨s, s', hs, hcommit, hrest⟩ := modifyAll_cons_eq_ok.mp hok
    obtain ⟨-, rfl⟩ := commitSegment_eq_ok.mp hcommit
    obtain ⟨hsim, hstatus, hsettled, hframe⟩ := modifyAll_commitSegment hrest
    have hset : Similar t (t.setSegment id { s with committed := true }) := .setSegment hs rfl
    refine ⟨hset.trans hsim, fun j => ?_, fun own j => ?_, fun j hj => ?_⟩
    · rw [hstatus j]
      by_cases hj : j = id
      · subst hj
        rw [status_setSegment_self, status, hs]
        rfl
      · exact status_setSegment_other hj
    · rw [hsettled own j, settled_iff, settled_iff]
      by_cases hj : j = id
      · simp [hj]
      · rw [setSegment_other hj]
        simp [hj]
    · rw [mem_cons, not_or] at hj
      rw [hframe j hj.2, setSegment_other hj.1]

/-- What `SetSealed` has found and done. -/
theorem modifyAll_setSealed :
    ∀ {ids : List ℕ} {t : TableEntry ρ}, t.modifyAll Segment.setSealed ids = .ok t' →
    (∀ id ∈ ids, t.status id = some .unsealed) ∧
    ∀ id, t'.status id = if id ∈ ids then some .sealed else t.status id
  | [], t, hok => by
    cases hok
    exact ⟨nofun, fun id => by simp⟩
  | id :: ids, t, hok => by
    obtain ⟨s, s', hs, hseal, hrest⟩ := modifyAll_cons_eq_ok.mp hok
    obtain ⟨hunsealed, rfl⟩ := setSealed_eq_ok.mp hseal
    obtain ⟨hall, hstatus⟩ := modifyAll_setSealed hrest
    refine ⟨fun j hj => ?_, fun j => ?_⟩
    · by_cases hjd : j = id
      · rw [hjd, status, hs, Option.map_some, hunsealed]
      · have := hall j ((mem_cons.mp hj).resolve_left hjd)
        rwa [status_setSegment_other hjd] at this
    · rw [hstatus j]
      by_cases hjd : j = id
      · subst hjd
        simp
      · simp [hjd, status_setSegment_other hjd]

end Effects

/-- What `CommitCompact` of groups with the old segments `olds` and the new ones `news` has found
and done. -/
structure Compacted (olds news : List ℕ) (t t' : TableEntry ρ) : Prop where
  nodup : olds.Nodup
  noDelete : ∀ id ∈ olds, t.status id = some .noDelete
  deprecates : Deprecates olds t t'
  similar : Similar t t'
  settled : ∀ own id, t'.settled own id = true ↔ t.settled (own ++ news) id = true
  frame : ∀ id, id ∉ olds → id ∉ news → t'.segmentMap id = t.segmentMap id

theorem Compacted.refl (t : TableEntry ρ) : Compacted [] [] t t :=
  ⟨.nil, nofun, fun id => by simp, .refl t, fun own id => by rw [append_nil], fun _ _ _ => rfl⟩

/-- One group, and the others after it. -/
theorem Compacted.trans {olds olds' news news' : List ℕ} {t'' : TableEntry ρ}
    (h : Compacted olds news t t') (h' : Compacted olds' news' t' t'') :
    Compacted (olds ++ olds') (news ++ news') t t'' := by
  have hdisjoint : ∀ id ∈ olds', id ∉ olds := by
    intro id hid' hid
    have hstatus := h'.noDelete id hid'
    rw [h.deprecates id, if_pos hid] at hstatus
    cases hstatus
  refine ⟨nodup_append.mpr ⟨h.nodup, h'.nodup, ?_⟩, fun id hid => ?_, fun id => ?_,
    h.similar.trans h'.similar, fun own id => ?_, fun id holds hnews => ?_⟩
  · rintro a ha b hb rfl
    exact hdisjoint a hb ha
  · rcases mem_append.mp hid with hid | hid
    · exact h.noDelete id hid
    · have hstatus := h'.noDelete id hid
      rwa [h.deprecates id, if_neg (hdisjoint id hid)] at hstatus
  · rw [h'.deprecates id, h.deprecates id]
    by_cases hid : id ∈ olds' <;> by_cases hid' : id ∈ olds <;> simp [hid, hid']
  · rw [h'.settled, h.settled, settled_iff, settled_iff]
    simp only [mem_append, or_assoc, or_comm]
  · rw [mem_append, not_or] at holds hnews
    rw [h'.frame id holds.2 hnews.2, h.frame id holds.1 hnews.1]

theorem Compacted.of_commitGroup {d : CompactSegmentData ρ} (hok : t.commitGroup d = .ok t') :
    Compacted d.oldSegments [d.newSegment.segmentId] t t' := by
  obtain ⟨u, hnew, holds⟩ := bind_eq_ok.mp hok
  have hcommit : t.modifyAll Segment.commitSegment [d.newSegment.segmentId] = .ok u :=
    bind_eq_ok.mpr ⟨u, hnew, rfl⟩
  obtain ⟨hsim, hstatus, hsettled, hframe⟩ := modifyAll_commitSegment hcommit
  have hrows : ∀ s s' : Segment ρ, s.setDeprecated = .ok s' → s'.rows = s.rows ∧
      s'.committed = s.committed := by
    intro s s' hs
    obtain ⟨-, rfl⟩ := setDeprecated_eq_ok.mp hs
    exact ⟨rfl, rfl⟩
  obtain ⟨hnodup, hnoDelete, hdep⟩ := modifyAll_setDeprecated holds
  obtain ⟨hsettled', hframe'⟩ := modifyAll_frame hrows holds
  refine ⟨hnodup, fun id hid => ?_, fun id => ?_,
    hsim.trans (modifyAll_similar (fun s s' hs => (hrows s s' hs).1) holds), fun own id =>
    ?_, fun id hid hne => ?_⟩
  · rw [← hstatus id]
    exact hnoDelete id hid
  · rw [hdep id, hstatus id]
  · rw [hsettled' own id, hsettled own id]
  · rw [hframe' id hid, hframe id hne]

theorem Compacted.of_foldlM : ∀ {data : List (CompactSegmentData ρ)} {t : TableEntry ρ},
    data.foldlM commitGroup t = .ok t' →
    Compacted (data.flatMap CompactSegmentData.oldSegments) (data.map (·.newSegment.segmentId)) t t'
  | [], t, hok => by
    cases hok
    exact .refl _
  | d :: data, t, hok => by
    obtain ⟨u, hgroup, hrest⟩ := bind_eq_ok.mp hok
    exact (Compacted.of_commitGroup hgroup).trans (Compacted.of_foldlM hrest)

end Infinity.Replay
