import Infinity.Compaction.Algorithm

/-! # The invariant of the compaction algorithm

Every segment is in one place, a layer or a list of a transaction, and never in a layer below that
of its row count; the transactions with lists are those of `txn_2_layer_`. One lemma for each method
says that it raises no error, which segments it moves, and that the invariant stays. -/

namespace Infinity.Compaction

open Foundations List SegmentLayer

variable {i : ℕ}

/-! ## One element of a list is replaced -/

section Replaced

variable {α β : Type*} {g : α → List β} {l : List α} {x y : α} {a : List β}

theorem mem_flatMap_iff_getElem? {b : β} : b ∈ l.flatMap g ↔ ∃ (n : ℕ) (x : α), l[n]? = some x ∧
    b ∈ g x := by
  rw [mem_flatMap]
  constructor
  · rintro ⟨x, hx, hb⟩
    obtain ⟨n, hn⟩ := mem_iff_getElem?.mp hx
    exact ⟨n, x, hn, hb⟩
  · rintro ⟨n, x, hx, hb⟩
    exact ⟨x, mem_of_getElem? hx, hb⟩

theorem flatMap_set_of_eq (hx : l[i]? = some x) (h : g y = g x) :
    (l.set i y).flatMap g = l.flatMap g := by
  obtain ⟨hi, rfl⟩ := List.getElem?_eq_some_iff.mp hx
  rw [flatMap_def, map_set, h, ← map_set, set_getElem_self, flatMap_def]

theorem flatMap_set_perm (hx : l[i]? = some x) (h : (g y).Perm (a ++ g x)) :
    ((l.set i y).flatMap g).Perm (a ++ l.flatMap g) := by
  induction l generalizing i with
  | nil => cases hx
  | cons b l ih =>
    cases i with
    | zero =>
      obtain rfl : b = x := by simpa using hx
      rw [set_cons_zero, flatMap_cons, flatMap_cons, ← append_assoc]
      exact h.append_right _
    | succ i =>
      have hrest := (ih (by simpa using hx)).append_left (g b)
      exact hrest.trans (perm_append_comm_assoc _ _ _)

theorem flatMap_perm_set (hx : l[i]? = some x) (h : (g x).Perm (a ++ g y)) :
    (l.flatMap g).Perm (a ++ (l.set i y).flatMap g) := by
  have hi := (List.getElem?_eq_some_iff.mp hx).1
  have hback : ((l.set i y).set i x) = l := by
    rw [List.set_set]
    obtain ⟨hlt, rfl⟩ := List.getElem?_eq_some_iff.mp hx
    exact List.set_getElem_self hlt
  have hperm := flatMap_set_perm (g := g) (l := l.set i y) (i := i) (x := y) (y := x) (a :=
    a) (by simp [hi]) h
  rwa [hback] at hperm

end Replaced

namespace DBTCompactionAlg

variable {cfg : DBTConfig} {rows : ℕ → ℕ} {a a' : DBTCompactionAlg} {id n : ℕ} {l l' : SegmentLayer}
  {ids chosen : List ℕ} {p : ℕ × List ℕ} {t : List (ℕ × ℕ)} {β : Type}

/-! ## The invariant -/

/-- A layer holds no segment that belongs above it, and lists of transactions that are in
`txn_2_layer_` with this layer. -/
structure LayerOk (cfg : DBTConfig) (rows : ℕ → ℕ) (txn2Layer : List (ℕ × ℕ)) (n : ℕ)
    (l : SegmentLayer) : Prop where
  segments : ∀ id ∈ l.segments, cfg.calculateLayer (rows id) ≤ n
  lists : ∀ p ∈ l.compactingSegmentsMap, (p.1, n) ∈ txn2Layer ∧ ∀ id ∈ p.2,
    cfg.calculateLayer (rows id) ≤ n

/-- Every segment is in one place, and the lists are those of the tasks that are counted. -/
structure Inv (cfg : DBTConfig) (rows : ℕ → ℕ) (a : DBTCompactionAlg) : Prop where
  nodup : (a.held ++ a.picked).Nodup
  keys : (a.pickedLists.map Prod.fst).Nodup
  layers : ∀ n l, a.segmentLayers[n]? = some l → LayerOk cfg rows a.txn2Layer n l
  txns : ∀ p ∈ a.txn2Layer, ∃ l, a.segmentLayers[p.2]? = some l ∧
    ∃ ids, (p.1, ids) ∈ l.compactingSegmentsMap
  txnKeys : (a.txn2Layer.map Prod.fst).Nodup
  tasks : a.runningTaskN = a.txn2Layer.length
  status : a.status = .running ↔ a.runningTaskN ≠ 0

theorem LayerOk.empty : LayerOk cfg rows t n .empty := ⟨nofun, nofun⟩

theorem Inv.make : Inv cfg rows make where
  nodup := .nil
  keys := .nil
  layers _ _ h := by cases h
  txns := nofun
  txnKeys := .nil
  tasks := rfl
  status := ⟨nofun, fun h => absurd rfl h⟩

theorem mem_held_iff : id ∈ a.held ↔ ∃ (n : ℕ) (l : SegmentLayer), a.segmentLayers[n]? = some l ∧
    id ∈ l.segments :=
  mem_flatMap_iff_getElem?

theorem mem_pickedLists_iff : p ∈ a.pickedLists ↔
      ∃ (n : ℕ) (l : SegmentLayer), a.segmentLayers[n]? = some l ∧ p ∈ l.compactingSegmentsMap :=
  mem_flatMap_iff_getElem?

section

variable (hl : a.segmentLayers[n]? = some l)
include hl

theorem onLayer_of_ok {f : SegmentLayer → Except AlgError SegmentLayer} (hf : f l = .ok l') :
    a.onLayer n f = .ok (a.setLayer n l') := by
  unfold onLayer
  rw [hl, Option.getD_some, hf]
  rfl

theorem getElem?_setLayer {m : ℕ} :
    (a.setLayer n l').segmentLayers[m]? = if n = m then some l' else a.segmentLayers[m]? := by
  have hlt := (List.getElem?_eq_some_iff.mp hl).1
  unfold setLayer
  rw [List.getElem?_set, if_pos hlt]

theorem layers_setLayer (hnew : LayerOk cfg rows t n l')
    (hother : ∀ m k, n ≠ m → a.segmentLayers[m]? = some k → LayerOk cfg rows t m k) (m : ℕ)
    (k : SegmentLayer) (hk : (a.setLayer n l').segmentLayers[m]? = some k) :
    LayerOk cfg rows t m k := by
  rw [getElem?_setLayer hl] at hk
  split at hk
  next heq =>
    cases hk
    exact heq ▸ hnew
  next hne => exact hother m k hne hk

theorem Inv.txns_setLayer (h : Inv cfg rows a) {p : ℕ × ℕ} (hp : p ∈ a.txn2Layer)
    (hkeep : ∀ ids, (p.1, ids) ∈ l.compactingSegmentsMap → (p.1, ids) ∈ l'.compactingSegmentsMap) :
    ∃ k, (a.setLayer n l').segmentLayers[p.2]? = some k ∧
    ∃ ids, (p.1, ids) ∈ k.compactingSegmentsMap := by
  obtain ⟨k, hk, ids, hids⟩ := h.txns p hp
  rw [getElem?_setLayer hl]
  split
  next heq =>
    subst heq
    cases hl.symm.trans hk
    exact ⟨l', rfl, ids, hkeep ids hids⟩
  · exact ⟨k, hk, ids, hids⟩

theorem pickedLists_setLayer :
    (a.setLayer n { l with segments := ids }).pickedLists = a.pickedLists :=
  flatMap_set_of_eq hl rfl

/-- The segments of a layer are replaced. -/
theorem Inv.setSegments (h : Inv cfg rows a)
    (hnodup : ((a.setLayer n { l with segments := ids }).held ++ a.picked).Nodup)
    (hsegments : ∀ id ∈ ids, cfg.calculateLayer (rows id) ≤ n) :
    Inv cfg rows (a.setLayer n { l with segments := ids }) where
  nodup := by
    rw [picked, pickedLists_setLayer hl]
    exact hnodup
  keys := by
    rw [pickedLists_setLayer hl]
    exact h.keys
  layers := layers_setLayer hl ⟨hsegments, (h.layers n l hl).lists⟩ fun m k _ hk => h.layers m k hk
  txns p hp := h.txns_setLayer hl hp fun _ => id
  txnKeys := h.txnKeys
  tasks := h.tasks
  status := h.status

end

/-! ## Segments are added -/

/-- Segments have come into the layers, and nothing else has changed. -/
structure Grown (cfg : DBTConfig) (rows : ℕ → ℕ) (a : DBTCompactionAlg) (ids : List ℕ)
    (a' : DBTCompactionAlg) : Prop where
  inv : Inv cfg rows a'
  held : a'.held.Perm (ids ++ a.held)
  pickedLists : a'.pickedLists = a.pickedLists
  status : a'.status = a.status
  runningTaskN : a'.runningTaskN = a.runningTaskN
  txn2Layer : a'.txn2Layer = a.txn2Layer

theorem Grown.picked (h : Grown cfg rows a ids a') : a'.picked = a.picked :=
  congrArg (flatMap Prod.snd) h.pickedLists

theorem Grown.refl (h : Inv cfg rows a) : Grown cfg rows a [] a := ⟨h, .rfl, rfl, rfl, rfl, rfl⟩

/-- A segment that is in no place is added to a layer. -/
theorem Inv.addTo (h : Inv cfg rows a) (hl : a.segmentLayers[n]? = some l)
    (hnew : id ∉ a.held ++ a.picked) (hrows : cfg.calculateLayer (rows id) ≤ n) :
    ∃ a', a.onLayer n (·.addSegment id) = .ok a' ∧ Grown cfg rows a [id] a' := by
  have hid : id ∉ l.segments := fun hid =>
    hnew (mem_append_left _ (mem_held_iff.mpr ⟨n, l, hl, hid⟩))
  have hadd : l.addSegment id = .ok { l with segments := id :: l.segments } := if_neg hid
  refine ⟨_, onLayer_of_ok hl hadd, ?_⟩
  have hheld : (a.setLayer n { l with segments := id :: l.segments }).held.Perm ([id] ++ a.held) :=
    flatMap_set_perm hl .rfl
  refine ⟨h.setSegments hl ?_ ?_, hheld, pickedLists_setLayer hl, rfl, rfl, rfl⟩
  · rw [(hheld.append_right _).nodup_iff, append_assoc, singleton_append, nodup_cons]
    exact ⟨hnew, h.nodup⟩
  · intro j hj
    rcases mem_cons.mp hj with rfl | hj
    · exact hrows
    · exact (h.layers n l hl).segments j hj

/-- Empty layers behind the others do not matter. -/
theorem Inv.resize (h : Inv cfg rows a) (count : ℕ) : Grown cfg rows a [] (a.resize count) := by
  have hheld : (a.resize count).held = a.held := by
    simp [held, DBTCompactionAlg.resize, empty]
  have hlists : (a.resize count).pickedLists = a.pickedLists := by
    simp [pickedLists, DBTCompactionAlg.resize, empty]
  refine ⟨?_, .of_eq hheld, hlists, rfl, rfl, rfl⟩
  constructor
  · unfold DBTCompactionAlg.picked
    rw [hheld, hlists]
    exact h.nodup
  · rw [hlists]
    exact h.keys
  · intro m l hm
    unfold DBTCompactionAlg.resize at hm
    rcases lt_or_ge m a.segmentLayers.length with hlt | hge
    · rw [getElem?_append_left hlt] at hm
      exact h.layers m l hm
    · rw [getElem?_append_right hge] at hm
      rw [eq_of_mem_replicate (mem_of_getElem? hm)]
      exact .empty
  · intro p hp
    obtain ⟨l, hl, hids⟩ := h.txns p hp
    refine ⟨l, ?_, hids⟩
    unfold DBTCompactionAlg.resize
    rw [List.getElem?_append_left (List.getElem?_eq_some_iff.mp hl).1]
    exact hl
  · exact h.txnKeys
  · exact h.tasks
  · exact h.status

theorem Grown.trans {ids' : List ℕ} {b : DBTCompactionAlg} (h : Grown cfg rows a ids b)
    (h' : Grown cfg rows b ids' a') : Grown cfg rows a (ids' ++ ids) a' where
  inv := h'.inv
  held := by
    rw [append_assoc]
    exact h'.held.trans (h.held.append_left _)
  pickedLists := h'.pickedLists.trans h.pickedLists
  status := h'.status.trans h.status
  runningTaskN := h'.runningTaskN.trans h.runningTaskN
  txn2Layer := h'.txn2Layer.trans h.txn2Layer

theorem Grown.not_mem_iff (h : Grown cfg rows a ids a') :
    id ∉ a'.held ++ a'.picked ↔ id ∉ ids ∧ id ∉ a.held ++ a.picked := by
  rw [h.picked, mem_append, h.held.mem_iff]
  simp only [mem_append, not_or, and_assoc]

section

variable (h : Inv cfg rows a)
include h

/-- **`AddSegmentInner` adds a segment that is in no place.** -/
theorem Inv.addSegmentInner (hnew : id ∉ a.held ++ a.picked) :
    ∃ a', a.addSegmentInner cfg id (rows id) = .ok a' ∧ Grown cfg rows a [id] a' := by
  have hgrown := h.resize (cfg.calculateLayer (rows id) + 1)
  have hlt : cfg.calculateLayer (rows id) <
      (a.resize (cfg.calculateLayer (rows id) + 1)).segmentLayers.length := by
    unfold DBTCompactionAlg.resize
    rw [length_append, length_replicate]
    omega
  obtain ⟨a', ha', hadded⟩ := hgrown.inv.addTo (getElem?_eq_getElem hlt)
    (hgrown.not_mem_iff.mpr ⟨not_mem_nil, hnew⟩) le_rfl
  exact ⟨a', ha', hgrown.trans hadded⟩

theorem Inv.runningTaskN_eq_zero (hstatus : a.status ≠ .running) : a.runningTaskN = 0 :=
  not_not.mp fun hne => hstatus (h.status.mpr hne)

/-- **`Enable` adds segments that are in no place.** -/
theorem Inv.enable (hstatus : a.status = .disable) (hnodup : ids.Nodup)
    (hnew : ∀ id ∈ ids, id ∉ a.held ++ a.picked) :
      ∃ a', a.enable cfg (ids.map fun id => (id, rows id)) = .ok a' ∧ Inv cfg rows a' ∧
      a'.held.Perm (ids ++ a.held) ∧ a'.pickedLists = a.pickedLists ∧ a'.status = .enable ∧
      a'.txn2Layer = a.txn2Layer := by
  have hfold : ∃ b, (ids.map fun id => (id, rows id)).foldlM
      (fun a s => a.addSegmentInner cfg s.1 s.2) a = .ok b ∧ Grown cfg rows a ids.reverse b := by
    clear hstatus
    induction ids generalizing a with
    | nil => exact ⟨a, rfl, .refl h⟩
    | cons id ids ih =>
      rw [nodup_cons] at hnodup
      obtain ⟨b, hb, hgrown⟩ := h.addSegmentInner (hnew id mem_cons_self)
      obtain ⟨c, hc, hgrown'⟩ := ih hgrown.inv hnodup.2 fun j hj => hgrown.not_mem_iff.mpr
        ⟨fun hmem => hnodup.1 (mem_singleton.mp hmem ▸ hj), hnew j (mem_cons_of_mem _ hj)⟩
      refine ⟨c, ?_, ?_⟩
      · rw [map_cons, foldlM_cons]
        rw [hb]
        exact hc
      · rw [reverse_cons]
        exact hgrown.trans hgrown'
  obtain ⟨b, hb, hgrown⟩ := hfold
  have hzero : b.runningTaskN = 0 :=
    hgrown.inv.runningTaskN_eq_zero (by simp [hgrown.status, hstatus])
  refine ⟨{ b with status := .enable }, ?_, ?_, ?_, hgrown.pickedLists, rfl, hgrown.txn2Layer⟩
  · unfold DBTCompactionAlg.enable
    rw [if_neg (not_not_intro hstatus), hb]
    show (if b.runningTaskN ≠ 0 then _ else _) = _
    rw [if_neg (not_not_intro hzero)]
  · exact { hgrown.inv with status := ⟨nofun, fun hne => absurd hzero hne⟩ }
  · exact hgrown.held.trans ((reverse_perm ids).append_right _)

/-- `Disable` clears the layers, when no task runs. -/
theorem Inv.disable (hstatus : a.status = .enable) :
    Inv cfg rows a.disable ∧ a.pickedLists = [] ∧ a.txn2Layer = [] := by
  have hzero : a.runningTaskN = 0 := h.runningTaskN_eq_zero (by simp [hstatus])
  have hnil : a.txn2Layer = [] := eq_nil_of_length_eq_zero (h.tasks ▸ hzero)
  refine ⟨?_, ?_, hnil⟩
  · constructor
    · exact .nil
    · exact .nil
    · intro m l hm
      cases hm
    · intro p hp
      have hp : p ∈ a.txn2Layer := hp
      rw [hnil] at hp
      cases hp
    · exact h.txnKeys
    · exact h.tasks
    · exact ⟨nofun, fun hne => absurd hzero hne⟩
  · apply eq_nil_iff_forall_not_mem.mpr
    intro p hp
    obtain ⟨n, l, hl, hmem⟩ := mem_pickedLists_iff.mp hp
    have hin := ((h.layers n l hl).lists p hmem).1
    rw [hnil] at hin
    cases hin

/-! ## Rows are deleted -/

/-- The invariant stays when segments become smaller. -/
theorem Inv.shrink {rows' : ℕ → ℕ} (hle : ∀ id ∈ a.held ++ a.picked, rows' id ≤ rows id) :
    Inv cfg rows' a := by
  have hlayer :
      ∀ id ∈ a.held ++ a.picked, cfg.calculateLayer (rows' id) ≤ cfg.calculateLayer (rows id) :=
    fun id hid => cfg.monotone (hle id hid)
  obtain ⟨hn, hk, hl, ht, htk, htasks, hs⟩ := h
  refine ⟨hn, hk, fun n l hnl => ⟨fun id hid => ?_, fun p hp => ⟨((hl n l hnl).lists p hp).1, ?_⟩⟩,
    ht, htk, htasks, hs⟩
  · have hheld : id ∈ a.held := mem_held_iff.mpr ⟨n, l, hnl, hid⟩
    exact (hlayer id (mem_append_left _ hheld)).trans ((hl n l hnl).segments id hid)
  · intro id hid
    have hpicked : id ∈ a.picked :=
      mem_flatMap.mpr ⟨p, mem_pickedLists_iff.mpr ⟨n, l, hnl, hp⟩, hid⟩
    exact (hlayer id (mem_append_right _ hpicked)).trans (((hl n l hnl).lists p hp).2 id hid)

theorem Inv.held_nodup : a.held.Nodup := (nodup_append.mp h.nodup).1

theorem Inv.segments_nodup (hl : a.segmentLayers[n]? = some l) : l.segments.Nodup :=
  (nodup_flatMap.mp h.held_nodup).1 l (mem_of_getElem? hl)

/-- A segment is removed from its layer. -/
theorem Inv.removeFrom (hl : a.segmentLayers[n]? = some l)
    (hid : id ∈ l.segments) : ∃ a', a.onLayer n (·.removeSegment id) = .ok a' ∧ Inv cfg rows a' ∧
      a.held.Perm (id :: a'.held) ∧ a'.pickedLists = a.pickedLists ∧
      a'.status = a.status ∧ a'.runningTaskN = a.runningTaskN ∧ a'.txn2Layer = a.txn2Layer ∧
      a'.segmentLayers.length = a.segmentLayers.length := by
  have hremove : l.removeSegment id = .ok { l with segments := l.segments.erase id } := if_pos hid
  have hheld : a.held.Perm
      ([id] ++ (a.setLayer n { l with segments := l.segments.erase id }).held) :=
    flatMap_perm_set hl (perm_cons_erase hid)
  refine ⟨_, onLayer_of_ok hl hremove, h.setSegments hl ?_ ?_, hheld, pickedLists_setLayer hl, rfl,
    rfl, rfl, ?_⟩
  · have hnodup := (hheld.append_right a.picked).nodup_iff.mp h.nodup
    exact (nodup_cons.mp hnodup).2
  · exact fun j hj => (h.layers n l hl).segments j (mem_of_mem_erase hj)
  · unfold DBTCompactionAlg.setLayer
    rw [length_set]

/-- **`DeleteInSegment` moves a segment to the layer of its new row count**, or does nothing. -/
theorem Inv.deleteInSegment (id : ℕ) :
    ∃ a', a.deleteInSegment cfg id (rows id) = .ok a' ∧ Inv cfg rows a' ∧ a'.held.Perm a.held ∧
      a'.pickedLists = a.pickedLists ∧ a'.status = a.status ∧ a'.txn2Layer = a.txn2Layer := by
  unfold DBTCompactionAlg.deleteInSegment
  split
  · exact ⟨a, rfl, h, .rfl, rfl, rfl, rfl⟩
  next n hn =>
    obtain ⟨hlt, hmem, -⟩ := findIdx?_eq_some_iff_getElem.mp hn
    have hl := getElem?_eq_getElem hlt
    have hid : id ∈ (a.segmentLayers[n]).segments := by simpa using hmem
    have hle := (h.layers n _ hl).segments id hid
    dsimp only
    split
    · exact ⟨a, rfl, h, .rfl, rfl, rfl, rfl⟩
    next hne =>
      rw [if_neg (by omega)]
      obtain ⟨b, hb, hinv, hheld, hlists, hstatus, -, htxn, hlen⟩ := h.removeFrom hl hid
      have hpicked : b.picked = a.picked := congrArg (flatMap Prod.snd) hlists
      -- the segment has left its layer, so it is in no place
      have hnew : id ∉ b.held ++ b.picked := by
        have hnodup := (hheld.append_right a.picked).nodup_iff.mp h.nodup
        rw [hpicked]
        exact (nodup_cons.mp hnodup).1
      have hlt' : cfg.calculateLayer (rows id) < b.segmentLayers.length := by omega
      obtain ⟨a', ha', hgrown⟩ := hinv.addTo (getElem?_eq_getElem hlt') hnew le_rfl
      refine ⟨a', ?_, hgrown.inv, hgrown.held.trans hheld.symm, hgrown.pickedLists.trans hlists,
        hgrown.status.trans hstatus, hgrown.txn2Layer.trans htxn⟩
      rw [hb]
      exact ha'

end

/-! ## Segments are picked -/

theorem fullLayer_eq_some {k : ℕ} (h : a.fullLayer cfg k = some n) :
    n < k ∧ cfg.m ≤ (a.segmentLayers[n]?.getD .empty).segments.length := by
  induction k with
  | zero => cases h
  | succ k ih =>
    unfold fullLayer at h
    split at h
    next hfull =>
      cases h
      exact ⟨Nat.lt_succ_self _, hfull⟩
    next =>
      obtain ⟨hlt, hfull⟩ := ih h
      exact ⟨Nat.lt_succ_of_lt hlt, hfull⟩

theorem perm_filter_not_mem {l : List ℕ} (hl : l.Nodup) (hchosen : chosen.Nodup)
    (hsub : ∀ id ∈ chosen, id ∈ l) : l.Perm (chosen ++ l.filter (· ∉ chosen)) := by
  have hin : (l.filter (· ∈ chosen)).Perm chosen := by
    apply (perm_ext_iff_of_nodup (hl.filter _) hchosen).mpr
    intro id
    simp only [mem_filter, decide_eq_true_eq]
    exact ⟨And.right, fun h => ⟨hsub id h, h⟩⟩
  have hsplit := filter_append_perm (· ∈ chosen) l
  simp only [← decide_not] at hsplit
  exact hsplit.symm.trans (hin.append_right _)

theorem picked_perm (h : a.pickedLists.Perm ((i, ids) :: a'.pickedLists)) :
    a.picked.Perm (ids ++ a'.picked) :=
  h.flatMap_right Prod.snd

section

variable (h : Inv cfg rows a)
include h

theorem Inv.listKeys_nodup (hl : a.segmentLayers[n]? = some l) :
    (l.compactingSegmentsMap.map Prod.fst).Nodup := by
  have hkeys := h.keys
  rw [pickedLists, map_flatMap] at hkeys
  exact (nodup_flatMap.mp hkeys).1 l (mem_of_getElem? hl)

/-- The transactions of the lists are in `txn_2_layer_`. -/
theorem Inv.mem_txn2Layer (hp : p ∈ a.pickedLists) : p.1 ∈ a.txn2Layer.map Prod.fst := by
  obtain ⟨n, l, hl, hmem⟩ := mem_pickedLists_iff.mp hp
  exact mem_map_of_mem ((h.layers n l hl).lists p hmem).1

/-- The algorithm is running while a list is picked. -/
theorem Inv.running_of_picked (hp : p ∈ a.pickedLists) : a.status = .running := by
  apply h.status.mpr
  rw [h.tasks, ← length_map Prod.fst]
  exact (length_pos_of_mem (h.mem_txn2Layer hp)).ne'

/-- **`CheckCompaction` moves the chosen segments of a full layer to a list of the transaction.** -/
theorem Inv.checkCompaction (hstatus : a.status ≠ .disable)
    (hfull : a.fullLayer cfg a.segmentLayers.length = some n)
    (hfresh : i ∉ a.txn2Layer.map Prod.fst)
    (hnodup : chosen.Nodup)
    (hsub : ∀ id ∈ chosen, id ∈ (a.segmentLayers[n]?.getD .empty).segments) :
      ∃ a', a.checkCompaction cfg i chosen = .ok (a', chosen) ∧ Inv cfg rows a' ∧
      a.held.Perm (chosen ++ a'.held) ∧ a'.pickedLists.Perm ((i, chosen) :: a.pickedLists) ∧
      a'.status = .running ∧ a'.txn2Layer = (i, n) :: a.txn2Layer := by
  obtain ⟨hlt, -⟩ := fullLayer_eq_some hfull
  have hl := getElem?_eq_getElem hlt
  generalize a.segmentLayers[n] = l at hl
  rw [hl, Option.getD_some] at hsub
  have hok := h.layers n l hl
  have hnot : ∀ p ∈ a.pickedLists, p.1 ≠ i := fun p hp heq => hfresh (heq ▸ h.mem_txn2Layer hp)
  have hpick : l.pickCompacting i chosen =
      .ok ⟨l.segments.filter (· ∉ chosen), (i, chosen) :: l.compactingSegmentsMap⟩ := by
    unfold pickCompacting
    rw [if_neg]
    intro hany
    obtain ⟨p, hp, hpi⟩ := any_eq_true.mp hany
    exact hnot p (mem_pickedLists_iff.mpr ⟨n, l, hl, hp⟩) (of_decide_eq_true hpi)
  let b : DBTCompactionAlg := { a with
    runningTaskN := a.runningTaskN + 1
    status := if a.runningTaskN + 1 = 1 then .running else a.status
    txn2Layer := (i, n) :: a.txn2Layer }
  let l' : SegmentLayer := ⟨l.segments.filter (· ∉ chosen), (i, chosen) :: l.compactingSegmentsMap⟩
  have hbl : b.segmentLayers[n]? = some l := hl
  have hheld : a.held.Perm (chosen ++ (b.setLayer n l').held) :=
    flatMap_perm_set (y := l') hl (perm_filter_not_mem (h.segments_nodup hl) hnodup hsub)
  have hlists : (b.setLayer n l').pickedLists.Perm ([(i, chosen)] ++ a.pickedLists) :=
    flatMap_set_perm (y := l') hl .rfl
  have hrunning : b.status = .running := by
    show (if a.runningTaskN + 1 = 1 then _ else _) = _
    split
    · rfl
    next hne => exact h.status.mpr (by omega)
  refine ⟨b.setLayer n l', ?_, ?_, hheld, hlists, hrunning, rfl⟩
  · unfold DBTCompactionAlg.checkCompaction
    rw [if_neg hstatus, hfull]
    show (b.onLayer n _).map _ = _
    rw [onLayer_of_ok hbl hpick]
    rfl
  constructor
  · -- the segments are in the same places as before, taken together
    have hplaces :
        ((b.setLayer n l').held ++ (b.setLayer n l').picked).Perm (a.held ++ a.picked) := by
      have hleft := (picked_perm hlists).append_left (b.setLayer n l').held
      have hswap : ((b.setLayer n l').held ++ (chosen ++ a.picked)).Perm
          (chosen ++ (b.setLayer n l').held ++ a.picked) := by
        rw [append_assoc]
        exact perm_append_comm_assoc _ _ _
      exact hleft.trans (hswap.trans (hheld.symm.append_right _))
    exact hplaces.nodup_iff.mpr h.nodup
  · have hkeys := hlists.map Prod.fst
    rw [hkeys.nodup_iff]
    refine nodup_cons.mpr ⟨?_, h.keys⟩
    intro hmem
    obtain ⟨p, hp, hpi⟩ := mem_map.mp hmem
    exact hnot p hp hpi
  · refine layers_setLayer hbl ⟨fun id hid => hok.segments id (mem_of_mem_filter hid), fun p hp =>
      ?_⟩ ?_
    · rcases mem_cons.mp hp with rfl | hp
      · exact ⟨mem_cons_self, fun id hid => hok.segments id (hsub id hid)⟩
      · exact ⟨mem_cons_of_mem _ (hok.lists p hp).1, (hok.lists p hp).2⟩
    · intro m k _ hk
      have hok' := h.layers m k hk
      exact ⟨hok'.segments, fun p hp =>
        ⟨mem_cons_of_mem _ (hok'.lists p hp).1, (hok'.lists p hp).2⟩⟩
  · intro p hp
    rcases mem_cons.mp hp with rfl | hp
    · exact ⟨l', by rw [getElem?_setLayer hbl, if_pos rfl], chosen, mem_cons_self⟩
    · exact h.txns_setLayer hl hp fun _ => mem_cons_of_mem _
  · exact nodup_cons.mpr ⟨hfresh, h.txnKeys⟩
  · show a.runningTaskN + 1 = _
    rw [h.tasks]
    rfl
  · exact ⟨fun _ => Nat.succ_ne_zero _, fun _ => hrunning⟩

end

/-! ## The end of a task -/

theorem perm_cons_filter_key {m : List (ℕ × β)} (hkeys : (m.map Prod.fst).Nodup)
    {p : ℕ × β} (hp : p ∈ m) : m.Perm (p :: m.filter (·.1 ≠ p.1)) := by
  classical
  have herase : m.filter (·.1 ≠ p.1) = m.erase p := by
    rw [(List.Nodup.of_map _ hkeys).erase_eq_filter]
    refine filter_congr fun q hq => ?_
    have hiff : q.1 = p.1 ↔ q = p := ⟨inj_on_of_nodup_map hkeys hq hp, congrArg Prod.fst⟩
    rw [Bool.eq_iff_iff]
    simp [hiff]
  rw [herase]
  exact perm_cons_erase hp

theorem find?_key {m : List (ℕ × β)} (hkeys : (m.map Prod.fst).Nodup) {p : ℕ × β}
    (hp : p ∈ m) : m.find? (·.1 = p.1) = some p := by
  have hsome : (m.find? (·.1 = p.1)).isSome := find?_isSome.mpr ⟨p, hp, decide_eq_true rfl⟩
  obtain ⟨q, hq⟩ := Option.isSome_iff_exists.mp hsome
  rw [hq, inj_on_of_nodup_map hkeys (mem_of_find?_eq_some hq) hp (by simpa using find?_some hq)]

/-- The list of a transaction has gone, and some segments have come back into the layers. -/
structure Finished (cfg : DBTConfig) (rows : ℕ → ℕ) (a : DBTCompactionAlg) (i : ℕ)
    (ids back : List ℕ) (a' : DBTCompactionAlg) : Prop where
  inv : Inv cfg rows a'
  held : a'.held.Perm (back ++ a.held)
  pickedLists : a.pickedLists.Perm ((i, ids) :: a'.pickedLists)
  txn2Layer : a'.txn2Layer = a.txn2Layer.filter (·.1 ≠ i)
  status : a'.status ≠ .disable

/-- A task ends: its list is removed from the layer, and its segments come back or do not. -/
theorem Inv.finish {back segments : List ℕ} (h : Inv cfg rows a)
    (hstatus : a.status = .running) (htxn : (i, n) ∈ a.txn2Layer)
    (hl : a.segmentLayers[n]? = some l) (hids : (i, ids) ∈ l.compactingSegmentsMap)
    (hback : back = [] ∨ back = ids) (hsegments : segments.Perm (back ++ l.segments)) :
      Finished cfg rows a i ids back ((a.setLayer n
      ⟨segments, l.compactingSegmentsMap.filter (·.1 ≠ i)⟩).finishTask i) := by
  let l' : SegmentLayer := ⟨segments, l.compactingSegmentsMap.filter (·.1 ≠ i)⟩
  have hok := h.layers n l hl
  have hheld : (a.setLayer n l').held.Perm (back ++ a.held) :=
    flatMap_set_perm (y := l') hl hsegments
  have hlists : a.pickedLists.Perm ([(i, ids)] ++ (a.setLayer n l').pickedLists) :=
    flatMap_perm_set (y := l') hl (perm_cons_filter_key (h.listKeys_nodup hl) hids)
  refine ⟨?_, hheld, hlists, rfl, ?_⟩
  constructor
  · show ((a.setLayer n l').held ++ (a.setLayer n l').picked).Nodup
    have hplaces : (a.held ++ a.picked).Perm (ids ++ (a.held ++ (a.setLayer n l').picked)) :=
      ((picked_perm hlists).append_left _).trans (perm_append_comm_assoc _ _ _)
    have hnodup := hplaces.nodup_iff.mp h.nodup
    rw [(hheld.append_right _).nodup_iff, append_assoc]
    rcases hback with rfl | rfl
    · exact (nodup_append.mp hnodup).2.1
    · exact hnodup
  · show ((a.setLayer n l').pickedLists.map Prod.fst).Nodup
    have hkeys := (hlists.map Prod.fst).nodup_iff.mp h.keys
    exact (nodup_cons.mp hkeys).2
  · refine layers_setLayer hl ⟨fun id hid => ?_, fun p hp => ?_⟩ fun m k hne hk => ?_
    · rcases mem_append.mp (hsegments.mem_iff.mp hid) with hid | hid
      · rcases hback with rfl | rfl
        · cases hid
        · exact (hok.lists _ hids).2 id hid
      · exact hok.segments id hid
    · obtain ⟨hp, hne⟩ := mem_filter.mp hp
      exact ⟨mem_filter.mpr ⟨(hok.lists p hp).1, hne⟩, (hok.lists p hp).2⟩
    · have hok' := h.layers m k hk
      refine ⟨hok'.segments, fun p hp =>
        ⟨mem_filter.mpr ⟨(hok'.lists p hp).1, ?_⟩, (hok'.lists p hp).2⟩⟩
      -- the transaction has its list in one layer only
      apply decide_eq_true
      intro heq
      have hin := (hok'.lists p hp).1
      rw [heq] at hin
      exact hne (congrArg Prod.snd (inj_on_of_nodup_map h.txnKeys htxn hin rfl))
  · intro p hp
    obtain ⟨hp, hne⟩ := mem_filter.mp hp
    exact h.txns_setLayer hl hp fun _ hids => mem_filter.mpr ⟨hids, hne⟩
  · exact (filter_sublist.map _).nodup h.txnKeys
  · show a.runningTaskN - 1 = (a.txn2Layer.filter (·.1 ≠ i)).length
    have hlength := (perm_cons_filter_key h.txnKeys htxn).length_eq
    rw [length_cons] at hlength
    rw [h.tasks, hlength, Nat.add_sub_cancel]
  · show (if a.runningTaskN - 1 = 0 then CompactionStatus.enable else a.status) = .running ↔
      a.runningTaskN - 1 ≠ 0
    split
    next hzero => exact ⟨nofun, fun hne => absurd hzero hne⟩
    next hne => exact ⟨fun _ => hne, fun _ => hstatus⟩
  · show (if a.runningTaskN - 1 = 0 then CompactionStatus.enable else a.status) ≠ .disable
    split
    · exact nofun
    · rw [hstatus]
      exact nofun

theorem foldlM_addSegment (l : SegmentLayer) (hnodup : (ids ++ l.segments).Nodup) :
    ids.foldlM addSegment l = .ok { l with segments := ids.reverse ++ l.segments } := by
  induction ids generalizing l with
  | nil => rfl
  | cons id ids ih =>
    rw [cons_append, nodup_cons] at hnodup
    have hid : id ∉ l.segments := fun h => hnodup.1 (mem_append_right _ h)
    have hrest : (ids ++ id :: l.segments).Nodup := by
      rw [nodup_middle, nodup_cons]
      exact hnodup
    have hadd : l.addSegment id = .ok { l with segments := id :: l.segments } := if_neg hid
    rw [foldlM_cons, hadd]
    show ids.foldlM addSegment { l with segments := id :: l.segments } = _
    rw [ih _ hrest]
    simp

/-- The layer and the list of a transaction that runs. -/
theorem Inv.exists_list (h : Inv cfg rows a) (htxn : (i, n) ∈ a.txn2Layer) :
    ∃ l ids, a.segmentLayers[n]? = some l ∧ (i, ids) ∈ l.compactingSegmentsMap ∧
      l.compactingSegmentsMap.find? (·.1 = i) = some (i, ids) ∧ a.txn2Layer.find? (·.1 = i) =
      some (i, n) := by
  obtain ⟨l, hl, ids, hids⟩ := h.txns (i, n) htxn
  exact ⟨l, ids, hl, hids, find?_key (h.listKeys_nodup hl) hids, find?_key h.txnKeys htxn⟩

section

variable (h : Inv cfg rows a) (hstatus : a.status = .running) (htxn : (i, n) ∈ a.txn2Layer)
include h hstatus htxn

/-- **`CommitCompact` forgets the segments of the transaction.** -/
theorem Inv.commitCompact : ∃ ids a', a.commitCompact i = .ok a' ∧
    Finished cfg rows a i ids [] a' := by
  obtain ⟨l, ids, hl, hids, -, hfind⟩ := h.exists_list htxn
  refine ⟨ids, _, ?_, h.finish hstatus htxn hl hids (.inl rfl) .rfl⟩
  have hany : l.compactingSegmentsMap.any (·.1 = i) := any_eq_true.mpr ⟨_, hids, decide_eq_true rfl⟩
  have hcommit : l.commitCompact i = .ok ⟨l.segments, l.compactingSegmentsMap.filter (·.1 ≠ i)⟩ :=
    if_pos hany
  unfold DBTCompactionAlg.commitCompact
  rw [if_neg (not_not_intro hstatus), hfind]
  show (a.onLayer n _).map _ = _
  rw [onLayer_of_ok hl hcommit]
  rfl

/-- **`RollbackCompact` puts the segments of the transaction back.** -/
theorem Inv.rollbackCompact : ∃ ids a', a.rollbackCompact i = .ok a' ∧
    Finished cfg rows a i ids ids a' := by
  obtain ⟨l, ids, hl, hids, hfindl, hfind⟩ := h.exists_list htxn
  have hnodup : (ids ++ l.segments).Nodup := by
    have hmem : (i, ids) ∈ a.pickedLists := mem_pickedLists_iff.mpr ⟨n, l, hl, hids⟩
    obtain ⟨-, hpicked, hdisjoint⟩ := nodup_append.mp h.nodup
    apply nodup_append.mpr
    refine ⟨(nodup_flatMap.mp hpicked).1 _ hmem, h.segments_nodup hl, ?_⟩
    intro x hx y hy heq
    exact hdisjoint y (mem_held_iff.mpr ⟨n, l, hl, hy⟩) x (mem_flatMap.mpr ⟨_, hmem, hx⟩) heq.symm
  have hrollback :
      l.rollbackCompact i =
      .ok ⟨ids.reverse ++ l.segments, l.compactingSegmentsMap.filter (·.1 ≠ i)⟩ := by
    unfold SegmentLayer.rollbackCompact
    rw [hfindl]
    exact foldlM_addSegment ⟨l.segments, l.compactingSegmentsMap.filter (·.1 ≠ i)⟩ hnodup
  refine ⟨ids, _, ?_, h.finish hstatus htxn hl hids (.inr rfl) ((reverse_perm ids).append_right _)⟩
  unfold DBTCompactionAlg.rollbackCompact
  rw [if_neg (not_not_intro hstatus), hfind]
  show (a.onLayer n _).map _ = _
  rw [onLayer_of_ok hl hrollback]
  rfl

end

end DBTCompactionAlg

end Infinity.Compaction
