import Infinity.Foundations.Transition

/-! # Data exchange between query fragments (`QueueSourceState::GetData`, `PhysicalSink`)

The tasks of the child fragments of a merging operator hand their blocks to a queue, one message for
each block, and `GetData` hands one message at a time to the parent. The parent counts in
`num_tasks_` how many tasks of each fragment are still to be heard of to the end, and infers the end
of a task from three fields of a message: `is_last_`, `data_idx_` and `data_count_`.

* `Exchange.step`: the sink, the queue and `GetData`.
* `ExchangeInv.of_reachable`: what is pending are the tasks that have not reported their end and the
  reports in the queue, if every final batch has one block, or in a materialised fragment at least
  one, and no task fails.
* `exactlyOnce_of_reachable`: every block is handed over once, and the parent completes when the
  children have.
* `not_exactlyOnce`: final batches without a block and with two, and an error.
-/

namespace Infinity.Executor

open Foundations List Option

variable {i : ℕ} {numTasks : List (ℕ × ℕ)}

/-! ## Messages -/

/-- `FragmentDataBase` and those of its subclasses that are sent. -/
inductive FragmentData (β : Type*) where
  | data (fragmentId : ℕ) (dataBlock : β) (dataIdx : Option ℕ) (dataCount : ℕ) (isLast : Bool)
  | error (fragmentId : ℕ)

namespace FragmentData

variable {β : Type*}

/-- `fragment_id_`. -/
def fragmentId : FragmentData β → ℕ
  | data f .. => f
  | error f => f

/-- `data_block_`, which an error has not. -/
def dataBlock : FragmentData β → Option β
  | data _ b .. => some b
  | error _ => none

/-- Whether the message is a `FragmentError`. -/
def isError : FragmentData β → Bool
  | data .. => false
  | error _ => true

/-- Whether `GetData` takes a message for the end of a task. -/
def endsTask : FragmentData β → Bool
  | data _ _ dataIdx dataCount isLast => isLast && dataIdx.elim true (· + 1 == dataCount)
  | error _ => true

end FragmentData

/-! ## Children, queue and parent -/

/-- The operators that read from a queue. -/
inductive MergeOperator where
  | mergeKnn | mergeMatchSparse | mergeMatchTensor | fusion | mergeLimit | mergeTop | mergeAggregate
  deriving DecidableEq

/-- Whether `GetData` closes the queue once the input is complete, and never takes that back. -/
def MergeOperator.closesQueue : MergeOperator → Bool
  | .mergeLimit | .mergeTop => true
  | _ => false

/-- A child fragment. -/
structure Fragment where
  fragmentId : ℕ
  taskCount : ℕ+
  isMaterialize : Bool

/-- A task of a child fragment, with its sink. -/
structure Task (β : Type*) where
  fragmentId : ℕ
  isMaterialize : Bool
  /-- The messages that the running call of the sink has still to enqueue. -/
  outbox : List (FragmentData β)
  /-- Whether `Enqueue` has found the queue open and waits for room. -/
  waiting : Bool
  complete : Bool
  reported : Bool

/-- The tasks, the queue and the state of the parent. `enqueued` and `handed` record the blocks that
went into the queue and that came out of it, and are not read. -/
structure Exchange (β : Type*) where
  nextOp : MergeOperator
  tasks : List (Task β)
  /-- `source_queue_`, with the sender of each message. -/
  sourceQueue : List (ℕ × FragmentData β)
  allowEnqueue : Bool
  numTasks : List (ℕ × ℕ)
  inputComplete : Bool
  /-- Whether the error "Get unexpected data from child fragment" was raised. -/
  unexpected : Bool
  /-- Whether `GetData` has moved the bytes of an error as a data block. -/
  movedError : Bool
  enqueued : List β
  handed : List β

/-- A sink gets a batch or an error, an `Enqueue` looks at the queue or gets room in it, the parent
reads a message, or `MergeLimit` has enough rows. -/
inductive ExchangeAction (β : Type*) where
  | fillSink (task : ℕ) (dataBlocks : List β) (complete : Bool)
  | fillSinkError (task : ℕ)
  | enqueue (task : ℕ)
  | enqueued (task : ℕ)
  | getData
  | limitOver

namespace Exchange

variable {β : Type*}

/-- The start: nothing has been sent. -/
def make (nextOp : MergeOperator) (children : List Fragment) : Exchange β where
  nextOp := nextOp
  tasks := children.flatMap fun c =>
    List.replicate c.taskCount ⟨c.fragmentId, c.isMaterialize, [], false, false, false⟩
  sourceQueue := []
  allowEnqueue := true
  numTasks := children.map fun c => (c.fragmentId, c.taskCount)
  inputComplete := false
  unexpected := false
  movedError := false
  enqueued := []
  handed := []

/-- `DEFAULT_BLOCKING_QUEUE_SIZE`. -/
def defaultBlockingQueueSize : ℕ := 1024

/-- `PhysicalSink::FillSinkStateFromLastOperatorState` without an error. -/
def sinkMessages (t : Task β) (dataBlocks : List β) (complete : Bool) : List (FragmentData β) :=
  if !complete && t.isMaterialize then []
  else dataBlocks.mapIdx fun idx b =>
    .data t.fragmentId b (if complete && !t.isMaterialize then none else some idx)
      dataBlocks.length complete

/-- `MarkCompletedTask`; none stands for the error. -/
def markCompletedTask (fragmentId : ℕ) : List (ℕ × ℕ) → Option (List (ℕ × ℕ))
  | [] => none
  | (f, n) :: rest =>
    if f = fragmentId then
      let pendingTasks := if n = 0 then 2 ^ 64 - 1 else n - 1
      some (if pendingTasks = 0 then rest else (f, pendingTasks) :: rest)
    else (markCompletedTask fragmentId rest).map ((f, n) :: ·)

/-- `GetData` for a message. After the message is counted it is cast to `FragmentData` and its
`data_block_` moved, whatever its type. -/
def getData (s : Exchange β) (m : FragmentData β) (rest : List (ℕ × FragmentData β)) : Exchange β :=
  match if m.endsTask then markCompletedTask m.fragmentId s.numTasks else some s.numTasks with
  | none => { s with sourceQueue := rest, unexpected := true }
  | some numTasks =>
    let inputComplete := numTasks.isEmpty || s.nextOp.closesQueue && s.inputComplete
    { s with
      sourceQueue := rest
      numTasks := numTasks
      inputComplete := inputComplete
      allowEnqueue := s.allowEnqueue && !(s.nextOp.closesQueue && inputComplete)
      movedError := s.movedError || m.isError
      handed := s.handed ++ m.dataBlock.toList }

/-- Change one task. -/
def setTask (s : Exchange β) (i : ℕ) (t : Task β) : Exchange β :=
  { s with tasks := s.tasks.set i t }

/-- The state after an action. -/
def step (s : Exchange β) : ExchangeAction β → Option (Exchange β)
  | .fillSink i dataBlocks complete =>
    s.tasks[i]?.bind fun t =>
      if t.complete = false ∧ t.outbox = [] then
        some (s.setTask i { t with
          outbox := sinkMessages t dataBlocks complete, complete := complete })
      else none
  | .fillSinkError i =>
    s.tasks[i]?.bind fun t =>
      if t.complete = false ∧ t.outbox = [] then
        some (s.setTask i { t with outbox := [.error t.fragmentId], complete := true })
      else none
  | .enqueue i =>
    s.tasks[i]?.bind fun t =>
      if t.waiting = false ∧ t.outbox ≠ [] then
        some (s.setTask i (if s.allowEnqueue then { t with waiting := true }
          else { t with outbox := t.outbox.tail, complete := true }))
      else none
  | .enqueued i =>
    s.tasks[i]?.bind fun t => t.outbox.head?.bind fun m =>
      if t.waiting = true ∧ s.sourceQueue.length < defaultBlockingQueueSize then
        some { s.setTask i { t with
            outbox := t.outbox.tail, waiting := false, reported := t.reported || m.endsTask } with
          sourceQueue := s.sourceQueue ++ [(i, m)]
          enqueued := s.enqueued ++ m.dataBlock.toList }
      else none
  | .getData => s.sourceQueue.head?.map fun m => s.getData m.2 s.sourceQueue.tail
  | .limitOver => if s.nextOp = .mergeLimit then some { s with inputComplete := true } else none

/-- Nothing is to come: the tasks are complete, and nothing is on its way. -/
def Drained (s : Exchange β) : Prop :=
  (∀ t ∈ s.tasks, t.complete = true ∧ t.outbox = []) ∧ s.sourceQueue = []

/-- Every block is handed over once and nothing else is, `num_tasks_` is empty exactly when nothing
is to come, and then the parent knows that its input is complete. The queue is closed only behind a
complete input. -/
structure ExactlyOnce (s : Exchange β) : Prop where
  expected : s.unexpected = false
  onlyBlocks : s.movedError = false
  handed : s.enqueued = s.handed ++ s.sourceQueue.flatMap fun m => m.2.dataBlock.toList
  drained : s.numTasks = [] → s.Drained
  empty : s.Drained → s.allowEnqueue = true → s.numTasks = []
  complete : s.Drained → s.inputComplete = true

/-- The final batch of a task has a block, and only one unless the fragment is materialised; no task
fails. -/
def reportsOnce (s : Exchange β) : ExchangeAction β → Bool
  | .fillSink i dataBlocks true => s.tasks[i]?.elim true fun t =>
    if t.isMaterialize then dataBlocks.length != 0 else dataBlocks.length == 1
  | .fillSinkError _ => false
  | _ => true

end Exchange

open Exchange

/-- All interleavings of children, queue and parent. -/
def exchanges (β : Type*) : TransitionSystem (Exchange β) (ExchangeAction β) where
  Initial s := ∃ nextOp children, children ≠ [] ∧ s = .make nextOp children
  step := Exchange.step

/-- Those in which each task reports its end once. -/
def reportingExchanges (β : Type*) : TransitionSystem (Exchange β) (ExchangeAction β) :=
  (exchanges β).restrict fun s a => s.reportsOnce a = true

/-! ## Pending tasks -/

/-- What `num_tasks_` counts for a fragment. -/
def pendingTasks (numTasks : List (ℕ × ℕ)) (f : ℕ) : ℕ :=
  (numTasks.map fun p => if p.1 = f then p.2 else 0).sum

theorem markCompletedTask_spec {f : ℕ} (hpos : ∀ p ∈ numTasks, 0 < p.2)
    (hf : 0 < pendingTasks numTasks f) :
      ∃ numTasks', markCompletedTask f numTasks = some numTasks' ∧ (∀ p ∈ numTasks', 0 < p.2) ∧
      ∀ g, pendingTasks numTasks g = pendingTasks numTasks' g + if g = f then 1 else 0 := by
  induction numTasks with
  | nil => simp [pendingTasks] at hf
  | cons p rest ih =>
    obtain ⟨hp, hrest⟩ := forall_mem_cons.mp hpos
    unfold markCompletedTask
    split
    next hk =>
      rw [if_neg (hp.ne')]
      refine ⟨_, rfl, ?_, ?_⟩
      · split
        · exact hrest
        · exact forall_mem_cons.mpr ⟨by dsimp only; omega, hrest⟩
      · intro g
        split <;> (simp only [pendingTasks, map_cons, sum_cons, hk]; split <;> split <;> omega)
    next hk =>
      obtain ⟨rest', hmark, hpos', heq⟩ := ih hrest (by simpa [pendingTasks, hk] using hf)
      refine ⟨_, by rw [hmark]; rfl, forall_mem_cons.mpr ⟨hp, hpos'⟩, fun g => ?_⟩
      have hg := heq g
      simp only [pendingTasks, map_cons, sum_cons] at hg ⊢
      omega

theorem eq_nil_of_pendingTasks (hpos : ∀ p ∈ numTasks, 0 < p.2)
    (hzero : ∀ f, pendingTasks numTasks f = 0) : numTasks = [] := by
  cases numTasks with
  | nil => rfl
  | cons p rest =>
    have hp := hpos p mem_cons_self
    have hzero' := hzero p.1
    simp only [pendingTasks, map_cons, sum_cons, if_true] at hzero'
    omega

/-- Replacing an element changes a count by what the two elements count. -/
theorem countP_set_add {α : Type*} (p : α → Bool) {l : List α} {a b : α} (h : l[i]? = some b) :
    (l.set i a).countP p + (if p b then 1 else 0) = l.countP p + if p a then 1 else 0 := by
  obtain ⟨hi, rfl⟩ := List.getElem?_eq_some_iff.mp h
  have hle := boole_getElem_le_countP (p := p) hi
  rw [countP_set hi]
  omega

/-! ## Reports on their way -/

section Reports

variable {β : Type*} {queue : List (ℕ × FragmentData β)} {u u' : ℕ → Prop}

/-- Behind every message of a task in the queue comes the report of its end, or it has not been
enqueued. -/
def Behind (unreported : ℕ → Prop) : List (ℕ × FragmentData β) → Prop
  | [] => True
  | m :: rest =>
    (m.2.endsTask = true ∨ unreported m.1 ∨ ∃ m' ∈ rest, m'.1 = m.1 ∧ m'.2.endsTask = true) ∧
    Behind unreported rest

theorem Behind.concat {m : ℕ × FragmentData β}
    (h : Behind u queue) (hu : ∀ i, u i → u' i ∨ i = m.1 ∧ m.2.endsTask)
    (hm : m.2.endsTask ∨ u' m.1) : Behind u' (queue ++ [m]) := by
  induction queue with
  | nil => exact ⟨hm.imp_right .inl, trivial⟩
  | cons m' queue ih =>
    obtain ⟨hhead, hrest⟩ := h
    refine ⟨?_, ih hrest⟩
    rcases hhead with hends | hunreported | ⟨r, hr, hsame⟩
    · exact .inl hends
    · rcases hu _ hunreported with hu' | ⟨hi, hends⟩
      · exact .inr (.inl hu')
      · exact .inr (.inr ⟨m, by simp, hi.symm, hends⟩)
    · exact .inr (.inr ⟨r, mem_append_left _ hr, hsame⟩)

theorem Behind.mono (h : Behind u queue) (hu : ∀ i, u i → u' i) : Behind u' queue := by
  induction queue with
  | nil => trivial
  | cons m queue ih => exact ⟨h.1.imp_right (Or.imp_left (hu _)), ih h.2⟩

/-- If all tasks have reported and no report is in the queue, the queue is empty. -/
theorem Behind.eq_nil (h : Behind (fun _ => False) queue)
    (hnone : ∀ m ∈ queue, m.2.endsTask = false) : queue = [] := by
  cases queue with
  | nil => rfl
  | cons m queue =>
    have hm := hnone m mem_cons_self
    obtain ⟨h | h | ⟨m', hm', -, h⟩, -⟩ := h
    · cases hm.symm.trans h
    · exact h.elim
    · rw [hnone m' (mem_cons_of_mem _ hm')] at h
      cases h

/-- What a task has sent and is to send: the report of its end comes last, and while the queue is
open a complete task has reported or is about to. -/
structure TaskOk (allowEnqueue : Bool) (t : Task β) : Prop where
  fragment : ∀ m ∈ t.outbox, m.fragmentId = t.fragmentId ∧ m.isError = false
  last : ∀ m ∈ t.outbox.dropLast, m.endsTask = false
  ends : ∀ m ∈ t.outbox, m.endsTask = true → t.complete = true
  reported : t.reported = true → t.complete = true ∧ t.outbox = []
  owes : allowEnqueue = true → t.complete = true → t.reported = false →
    ∃ m ∈ t.outbox, m.endsTask = true

/-- The task has not enqueued the report of its end. -/
def Exchange.Unreported (s : Exchange β) (i : ℕ) : Prop :=
  ∃ t, s.tasks[i]? = some t ∧ t.reported = false

/-- What is pending are the tasks that have not reported their end and the reports in the queue. -/
structure ExchangeInv (s : Exchange β) : Prop where
  pos : ∀ p ∈ s.numTasks, 0 < p.2
  pending : ∀ f, pendingTasks s.numTasks f =
      s.tasks.countP (fun t => t.fragmentId == f && !t.reported)
      + s.sourceQueue.countP fun m => m.2.fragmentId == f && m.2.endsTask
  tasks : ∀ t ∈ s.tasks, TaskOk s.allowEnqueue t
  behind : Behind s.Unreported s.sourceQueue
  handed : s.enqueued = s.handed ++ s.sourceQueue.flatMap fun m => m.2.dataBlock.toList
  expected : s.unexpected = false
  data : ∀ m ∈ s.sourceQueue, m.2.isError = false
  onlyBlocks : s.movedError = false
  closed : s.allowEnqueue = false → s.nextOp.closesQueue = true ∧ s.inputComplete = true
  empty : s.numTasks = [] → s.inputComplete = true

namespace ExchangeInv

variable {s s' : Exchange β} {t : Task β} {allowEnqueue complete : Bool} {dataBlocks : List β}
    {m : FragmentData β}

theorem setTask (h : ExchangeInv s) {t' : Task β} (hi : s.tasks[i]? = some t)
    (hf : t'.fragmentId = t.fragmentId)
    (hr : t'.reported = t.reported) (hok : TaskOk s.allowEnqueue t') :
    ExchangeInv (s.setTask i t') := by
  refine { h with pending := ?_, tasks := ?_, behind := ?_ }
  · intro f
    have hcount := countP_set_add (fun t : Task β => t.fragmentId == f && !t.reported) (a := t') hi
    rw [hf, hr] at hcount
    exact (h.pending f).trans (by rw [← Nat.add_right_cancel hcount]; rfl)
  · intro c hc
    rcases mem_or_eq_of_mem_set hc with hc | rfl
    · exact h.tasks c hc
    · exact hok
  · apply h.behind.mono
    rintro j ⟨c, hc, hreported⟩
    by_cases hj : i = j
    · subst hj
      cases hi.symm.trans hc
      exact ⟨t', by simp [Exchange.setTask, (List.getElem?_eq_some_iff.mp hi).1],
        hr.trans hreported⟩
    · exact ⟨c, by simp [Exchange.setTask, getElem?_set_ne hj, hc], hreported⟩

theorem not_reported (h : TaskOk allowEnqueue t)
    (hsends : t.complete = false ∨ t.outbox ≠ []) : t.reported = false := by
  cases hr : t.reported with
  | false => rfl
  | true =>
    obtain ⟨hcomplete, hout⟩ := h.reported hr
    exact absurd hsends (by simp [hcomplete, hout])

theorem endsTask_of_sinkMessages {idx : ℕ}
    (hm : (sinkMessages t dataBlocks complete)[idx]? = some m) :
      (m.fragmentId = t.fragmentId ∧ m.isError = false) ∧ (m.endsTask ↔
      complete ∧ (t.isMaterialize → idx + 1 = dataBlocks.length)) := by
  unfold sinkMessages at hm
  split at hm
  · simp at hm
  · rw [getElem?_mapIdx, map_eq_some_iff] at hm
    obtain ⟨b, -, rfl⟩ := hm
    refine ⟨⟨rfl, rfl⟩, ?_⟩
    cases complete <;> cases hmat : t.isMaterialize <;> simp [FragmentData.endsTask]

theorem taskOk_sink (hrunning : t.complete = false) (h : TaskOk allowEnqueue t) (honce : complete →
      if t.isMaterialize then dataBlocks.length ≠ 0 else dataBlocks.length = 1) :
    TaskOk allowEnqueue { t with
      outbox := sinkMessages t dataBlocks complete, complete := complete } := by
  have hreported := not_reported h (.inl hrunning)
  have hlength : (sinkMessages t dataBlocks complete).length ≤ dataBlocks.length := by
    unfold sinkMessages
    split <;> simp
  refine ⟨?_, ?_, ?_, ?_, ?_⟩
  · intro m hm
    obtain ⟨idx, hidx⟩ := mem_iff_getElem?.mp hm
    exact (endsTask_of_sinkMessages hidx).1
  · intro m hm
    obtain ⟨idx, hidx⟩ := mem_iff_getElem?.mp hm
    obtain ⟨hlt, -⟩ := List.getElem?_eq_some_iff.mp hidx
    rw [length_dropLast] at hlt
    dsimp only at hlt hidx
    rw [getElem?_dropLast, if_pos hlt] at hidx
    rw [Bool.eq_false_iff, Ne, (endsTask_of_sinkMessages hidx).2]
    rintro ⟨hcomplete, hlast⟩
    have := honce hcomplete
    split at this
    next hmat =>
      have := hlast hmat
      omega
    · omega
  · intro m hm hends
    obtain ⟨idx, hidx⟩ := mem_iff_getElem?.mp hm
    exact ((endsTask_of_sinkMessages hidx).2.mp hends).1
  · intro h
    cases hreported.symm.trans h
  · rintro - (rfl : complete) -
    have hne : 0 < dataBlocks.length := by
      have := honce rfl
      split at this <;> omega
    have hpos : dataBlocks.length - 1 < (sinkMessages t dataBlocks true).length := by
      simp only [sinkMessages, Bool.not_true, Bool.false_and, Bool.false_eq_true, if_false,
        length_mapIdx]
      omega
    refine ⟨_, getElem_mem hpos, ?_⟩
    exact (endsTask_of_sinkMessages (getElem?_eq_getElem hpos)).2.mpr ⟨rfl, fun _ =>
      Nat.sub_add_cancel hne⟩

/-- A message leaves the outbox of a task: refused by the queue, or enqueued. -/
theorem taskOk_tail {reported waiting : Bool}
    {rest : List (FragmentData β)} (hout : t.outbox = m :: rest) (h : TaskOk allowEnqueue t)
    (hcomplete : t.complete → complete) (hreported : reported → m.endsTask)
    (howes : allowEnqueue → complete → t.complete ∧ reported = m.endsTask) :
    TaskOk allowEnqueue { t with outbox := rest, waiting, complete, reported } := by
  obtain ⟨hfragment, hlast, hends, -, hold⟩ := id h
  rw [hout] at hfragment hlast hends hold
  refine ⟨fun x hx => hfragment x (mem_cons_of_mem _ hx), ?_,
    fun x hx hx' => hcomplete (hends x (mem_cons_of_mem _ hx) hx'), ?_, ?_⟩
  · intro x hx
    cases rest with
    | nil => cases hx
    | cons c rest => exact hlast x (mem_cons_of_mem _ hx)
  · intro hr
    have hm := hreported hr
    refine ⟨hcomplete (hends m mem_cons_self hm), ?_⟩
    cases rest with
    | nil => rfl
    | cons c rest => rw [hlast m mem_cons_self] at hm; cases hm
  · intro hallow hc hr
    obtain ⟨htc, hrm⟩ := howes hallow hc
    obtain ⟨x, hx, hx'⟩ := hold hallow htc (not_reported h (.inr (by simp [hout])))
    rcases mem_cons.mp hx with rfl | hx
    · rw [← hrm] at hx'
      exact absurd (hx'.symm.trans hr) (by decide)
    · exact ⟨x, hx, hx'⟩

theorem enqueued (h : ExchangeInv s) (hs : s.step (.enqueued i) = some s') : ExchangeInv s' := by
  obtain ⟨t, hi, hs⟩ := Option.bind_eq_some_iff.mp hs
  obtain ⟨m, hm, hs⟩ := Option.bind_eq_some_iff.mp hs
  obtain ⟨-, hs⟩ := Option.ite_none_right_eq_some.mp hs
  cases hs
  obtain ⟨rest, hout⟩ := List.head?_eq_some_iff.mp hm
  have hok := h.tasks t (List.mem_of_getElem? hi)
  have hunreported := not_reported hok (.inr (by simp [hout]))
  have htail : TaskOk s.allowEnqueue { t with
      outbox := rest, waiting := false, complete := t.complete, reported := m.endsTask } :=
    taskOk_tail hout hok id id fun _ hc => ⟨hc, rfl⟩
  have hlt := (List.getElem?_eq_some_iff.mp hi).1
  rw [hout, hunreported, Bool.false_or, List.tail_cons]
  obtain ⟨hfragment, hdata⟩ := hok.fragment m (by simp [hout])
  refine { h with pending := ?_, tasks := ?_, behind := ?_, handed := ?_, data := ?_ }
  · intro f
    have hcount := countP_set_add (fun t : Task β => t.fragmentId == f && !t.reported)
      (a := { t with outbox := rest, waiting := false, reported := m.endsTask }) hi
    have hpending := h.pending f
    simp only [Exchange.setTask, List.countP_append, List.countP_singleton, hfragment]
    rw [hunreported] at hcount
    -- the report moves from the task to the queue
    generalize m.endsTask = ends, (t.fragmentId == f) = same at hcount ⊢
    cases ends <;> cases same <;> simp at hcount ⊢ <;> omega
  · intro c hc
    rcases List.mem_or_eq_of_mem_set hc with hc | rfl
    · exact h.tasks c hc
    · exact htail
  · refine h.behind.concat ?_ ?_
    · rintro j ⟨c, hc, hr⟩
      by_cases hj : i = j
      · subst hj
        cases hends : m.endsTask with
        | true => exact .inr ⟨rfl, rfl⟩
        | false => exact .inl ⟨_, List.getElem?_set_self hlt, rfl⟩
      · exact .inl ⟨c, by simp [Exchange.setTask, List.getElem?_set_ne hj, hc], hr⟩
    · cases hends : m.endsTask with
      | true => exact .inl rfl
      | false => exact .inr ⟨_, List.getElem?_set_self hlt, rfl⟩
  · show s.enqueued ++ _ = s.handed ++ (s.sourceQueue ++ [(i, m)]).flatMap _
    rw [List.flatMap_append, ← List.append_assoc, ← h.handed]
    simp
  · intro m' hm'
    rcases List.mem_append.mp hm' with hm' | hm'
    · exact h.data m' hm'
    · rw [List.mem_singleton.mp hm']
      exact hdata

theorem getData (h : ExchangeInv s) (hs : s.step .getData = some s') : ExchangeInv s' := by
  obtain ⟨⟨i, m⟩, hm, rfl⟩ := map_eq_some_iff.mp hs
  obtain ⟨rest, hqueue⟩ := head?_eq_some_iff.mp hm
  have hpending := h.pending
  have hhanded := h.handed
  have hbehind := h.behind
  have hdata := h.data
  rw [hqueue] at hpending hhanded hbehind hdata
  have hmark : ∃ numTasks, (if m.endsTask then markCompletedTask m.fragmentId s.numTasks
      else some s.numTasks) = some numTasks ∧ (∀ p ∈ numTasks, 0 < p.2) ∧
      ∀ f, pendingTasks numTasks f = s.tasks.countP (fun t => t.fragmentId == f && !t.reported)
        + rest.countP fun m => m.2.fragmentId == f && m.2.endsTask := by
    split
    next hends =>
      have hreport : 0 < pendingTasks s.numTasks m.fragmentId := by
        rw [hpending, countP_cons_of_pos (by simp [hends])]
        omega
      obtain ⟨numTasks, hmark, hpos, heq⟩ := markCompletedTask_spec h.pos hreport
      refine ⟨numTasks, hmark, hpos, fun f => ?_⟩
      have hf := heq f
      rw [hpending, countP_cons] at hf
      by_cases hsame : m.fragmentId = f
      · simp [hends, hsame] at hf
        omega
      · simp [hsame, Ne.symm hsame] at hf
        omega
    next hends =>
      refine ⟨_, rfl, h.pos, fun f => ?_⟩
      rw [hpending, countP_cons]
      simp [hends]
  obtain ⟨numTasks, hmark, hpos, heq⟩ := hmark
  simp only [getData, hmark, hqueue, tail_cons]
  refine ⟨hpos, heq, ?_, hbehind.2, ?_, h.expected, (forall_mem_cons.mp hdata).2, ?_, ?_, ?_⟩
  · intro t ht
    obtain ⟨hfragment, hlast, hends, hreported, howes⟩ := h.tasks t ht
    refine ⟨hfragment, hlast, hends, hreported, fun hallow => howes ?_⟩
    simp only [Bool.and_eq_true] at hallow
    exact hallow.1
  · rw [hhanded, flatMap_cons, append_assoc]
  · rw [h.onlyBlocks, (forall_mem_cons.mp hdata).1, Bool.or_false]
  · intro hclosed
    cases hallow : s.allowEnqueue with
    | false =>
      obtain ⟨hcloses, hcomplete⟩ := h.closed hallow
      exact ⟨hcloses, by simp [hcloses, hcomplete]⟩
    | true => simpa [hallow, or_iff_not_imp_left] using hclosed
  · intro (hempty : numTasks = [])
    simp [hempty]

theorem step (h : ExchangeInv s) {a : ExchangeAction β} (honce : s.reportsOnce a)
    (hs : s.step a = some s') : ExchangeInv s' := by
  cases a with
  | fillSink i dataBlocks complete =>
    obtain ⟨t, hi, hs⟩ := bind_eq_some_iff.mp hs
    obtain ⟨⟨hrunning, -⟩, hs⟩ := ite_none_right_eq_some.mp hs
    cases hs
    refine h.setTask hi rfl rfl (taskOk_sink hrunning (h.tasks t (mem_of_getElem? hi)) ?_)
    rintro rfl
    simp only [reportsOnce, hi, elim_some] at honce
    split at honce
    next hmat => simpa [hmat] using honce
    next hmat => simpa [hmat] using honce
  | fillSinkError i => cases honce
  | enqueue i =>
    obtain ⟨t, hi, hs⟩ := bind_eq_some_iff.mp hs
    obtain ⟨⟨-, hout⟩, hs⟩ := ite_none_right_eq_some.mp hs
    cases hs
    have hok := h.tasks t (mem_of_getElem? hi)
    split
    next => exact h.setTask hi rfl rfl ⟨hok.fragment, hok.last, hok.ends, hok.reported, hok.owes⟩
    next hclosed =>
      obtain ⟨m, rest, hout'⟩ := exists_cons_of_ne_nil hout
      refine h.setTask hi rfl rfl ?_
      rw [hout', tail_cons]
      refine taskOk_tail hout' hok (fun _ => rfl) ?_ fun hallow => absurd hallow hclosed
      rw [not_reported hok (.inr hout)]
      nofun
  | enqueued i => exact h.enqueued hs
  | getData => exact h.getData hs
  | limitOver =>
    obtain ⟨hlimit, hs⟩ := ite_none_right_eq_some.mp hs
    cases hs
    exact { h with closed := fun hclosed => ⟨(h.closed hclosed).1, rfl⟩, empty := fun _ => rfl }

theorem make (nextOp : MergeOperator) {children : List Fragment} (hne : children ≠ []) :
    ExchangeInv (make nextOp children : Exchange β) where
  pos := by
    rintro _ hp
    obtain ⟨c, -, rfl⟩ := mem_map.mp hp
    exact c.taskCount.pos
  pending f := by
    simp only [Exchange.make, countP_nil, Nat.add_zero]
    clear hne
    induction children with
    | nil => rfl
    | cons c children ih =>
      rw [map_cons, flatMap_cons, countP_append, ← ih]
      simp [pendingTasks, countP_replicate]
  tasks := by
    intro t ht
    obtain ⟨c, -, ht⟩ := mem_flatMap.mp ht
    rw [eq_of_mem_replicate ht]
    exact ⟨nofun, nofun, nofun, nofun, nofun⟩
  behind := trivial
  handed := rfl
  expected := rfl
  data := nofun
  onlyBlocks := rfl
  closed := nofun
  empty h := absurd (map_eq_nil_iff.mp h) hne

/-- **The invariant holds where every task reports its end once.** -/
theorem of_reachable (h : (reportingExchanges β).Reachable s) : ExchangeInv s := by
  apply h.invariant
  · rintro _ ⟨nextOp, children, hne, rfl⟩
    exact make nextOp hne
  · intro s a s' hinv hs
    obtain ⟨honce, hs⟩ := TransitionSystem.restrict_step_eq_some.mp hs
    exact hinv.step honce hs

/-- When nothing is pending, nothing is to come. -/
theorem drained (h : ExchangeInv s) (hempty : s.numTasks = []) : s.Drained := by
  have hzero : ∀ f, s.tasks.countP (fun t => t.fragmentId == f && !t.reported) = 0 ∧
      (s.sourceQueue.countP fun m => m.2.fragmentId == f && m.2.endsTask) = 0 := by
    intro f
    have hf := h.pending f
    rw [hempty] at hf
    exact Nat.add_eq_zero_iff.mp hf.symm
  have hreported : ∀ t ∈ s.tasks, t.reported := fun t ht => by
    simpa using countP_eq_zero.mp (hzero t.fragmentId).1 t ht
  refine ⟨fun t ht => (h.tasks t ht).reported (hreported t ht), ?_⟩
  refine Behind.eq_nil (h.behind.mono ?_) fun m hm => ?_
  · rintro i ⟨t, hi, ht⟩
    rw [hreported t (mem_of_getElem? hi)] at ht
    cases ht
  · simpa using countP_eq_zero.mp (hzero m.2.fragmentId).2 m hm

/-- When nothing is to come and the queue is open, nothing is pending. -/
theorem empty_of_drained (h : ExchangeInv s) (hdrained : s.Drained) (hopen : s.allowEnqueue) :
    s.numTasks = [] := by
  refine eq_nil_of_pendingTasks h.pos fun f => ?_
  rw [h.pending f, hdrained.2, countP_nil, Nat.add_zero, countP_eq_zero]
  intro t ht
  obtain ⟨hcomplete, hout⟩ := hdrained.1 t ht
  have howes := (h.tasks t ht).owes hopen hcomplete
  cases hreported : t.reported with
  | true => simp
  | false =>
    obtain ⟨m, hm, -⟩ := howes hreported
    rw [hout] at hm
    cases hm

end ExchangeInv

/-- **Every block is handed over once and the parent completes when its children have**, in every
exchange whose tasks report their end once. -/
theorem exactlyOnce_of_reachable {s : Exchange β} (h : (reportingExchanges β).Reachable s) :
    s.ExactlyOnce := by
  have hinv := ExchangeInv.of_reachable h
  refine ⟨hinv.expected, hinv.onlyBlocks, hinv.handed, hinv.drained, hinv.empty_of_drained,
    fun hdrained => ?_⟩
  cases hopen : s.allowEnqueue with
  | true => exact hinv.empty (hinv.empty_of_drained hdrained hopen)
  | false => exact (hinv.closed hopen).2

end Reports

/-- `MergeTop` above one streaming task. -/
def oneTask : Exchange ℕ := .make .mergeTop [⟨7, 1, false⟩]

/-- The task completes without a block. -/
def emptyBatch : List (ExchangeAction ℕ) := [.fillSink 0 [] true]

/-- The task completes with two blocks. -/
def twoBlocks : List (ExchangeAction ℕ) :=
  [.fillSink 0 [1, 2] true, .enqueue 0, .enqueued 0, .enqueue 0, .enqueued 0, .getData, .getData]

/-- The task fails. -/
def errorBatch : List (ExchangeAction ℕ) := [.fillSinkError 0, .enqueue 0, .enqueued 0, .getData]

/-- A task that ends without a block leaves the parent waiting for ever, after two final blocks of
its only task the parent raises the error of unexpected data, and the bytes of an error are moved as
a data block. -/
theorem not_exactlyOnce : (∃ s, (exchanges ℕ).Reachable s ∧
      (exchanges ℕ).run oneTask emptyBatch = some s ∧ s.Drained ∧ s.inputComplete = false) ∧
    (∃ s, (exchanges ℕ).Reachable s ∧ (exchanges ℕ).run oneTask twoBlocks = some s ∧
      s.unexpected = true) ∧
    ∃ s, (exchanges ℕ).Reachable s ∧ (exchanges ℕ).run oneTask errorBatch = some s ∧
      s.movedError = true := by
  have hinit : (exchanges ℕ).Reachable oneTask :=
    .initial ⟨.mergeTop, [⟨7, 1, false⟩], cons_ne_nil _ _, rfl⟩
  refine ⟨⟨_, .of_run emptyBatch hinit rfl, rfl, ⟨?_, rfl⟩, rfl⟩,
    ⟨_, .of_run twoBlocks hinit rfl, rfl, rfl⟩, _, .of_run errorBatch hinit rfl, rfl, rfl⟩
  intro t ht
  rw [mem_singleton.mp ht]
  exact ⟨rfl, rfl⟩

/-- Two tasks of a streaming fragment and one of a materialised one: the first task sends two
blocks, one of them with its last call, while the others send one and two. -/
def threeTasks : List (ExchangeAction ℕ) :=
  [.fillSink 0 [1] false, .enqueue 0, .fillSink 2 [5, 6] true, .enqueue 2, .enqueued 2, .enqueued 0,
    .getData, .fillSink 1 [4] true, .enqueue 1, .fillSink 0 [2] true, .enqueue 0, .enqueued 1,
    .enqueue 2, .enqueued 2, .getData, .getData, .enqueued 0, .getData, .getData]

/-- All five blocks are handed to the parent, and it completes. -/
theorem exactlyOnce_threeTasks : ∃ s, (reportingExchanges ℕ).Reachable s ∧ s.ExactlyOnce ∧
    s.Drained ∧ s.inputComplete = true ∧ s.handed = [5, 1, 4, 6, 2] := by
  have hreach : (reportingExchanges ℕ).Reachable _ := .of_run threeTasks
    (.initial ⟨.mergeKnn, [⟨7, 2, false⟩, ⟨8, 1, true⟩], cons_ne_nil _ _, rfl⟩) rfl
  have honce := exactlyOnce_of_reachable hreach
  exact ⟨_, hreach, honce, honce.drained rfl, rfl, rfl⟩

end Infinity.Executor
