import Tokuft.Util.Frwlock
import Tokuft.Library.WaitQueue

/-! Who has the lock and who waits for it, and what each critical section does to that. -/

namespace Tokuft

/-- Who was granted the lock. Readers and writers never have it together. -/
inductive LockTurn (Thread : Type) where
  /-- Readers are inside, and others were signalled to come in. -/
  | readers (inside called : List Thread)
  /-- A writer was signalled. -/
  | signaled (t : Thread) (expensive : Bool)
  | writer (t : Thread) (expensive : Bool)

/-- Who waits in the queue: the readers together, or one writer. -/
inductive LockEntry (Thread : Type) where
  | readers
  | writer (t : Thread) (expensive : Bool)
  deriving DecidableEq

/-- Who has the lock, the readers that wait, and the queue. -/
structure LockCrew (Thread : Type) where
  turn : LockTurn Thread
  waiting : List Thread
  queue : List (LockEntry Thread)

namespace LockTurn

variable {Thread : Type}

/-- The readers that are inside. -/
def inside : LockTurn Thread → List Thread
  | .readers inside _ => inside
  | _ => []

/-- The readers that were signalled. -/
def called : LockTurn Thread → List Thread
  | .readers _ called => called
  | _ => []

/-- How many writers are inside. -/
def writers : LockTurn Thread → Nat
  | .writer _ _ => 1
  | _ => 0

/-- How many writers were signalled. -/
def signaledWriters : LockTurn Thread → Nat
  | .signaled _ _ => 1
  | _ => 0

/-- An expensive writer is inside. -/
def writerExpensive : LockTurn Thread → Bool
  | .writer _ expensive => expensive
  | _ => false

/-- An expensive writer was signalled. -/
def signaledExpensive : LockTurn Thread → Bool
  | .signaled _ expensive => expensive
  | _ => false

end LockTurn

namespace LockEntry

variable {Thread : Type}

/-- The item that stands for the entry. -/
def item : LockEntry Thread → QueueItem Thread
  | .readers => .read
  | .writer t _ => .write t

/-- A writer waits. -/
def isWriter : LockEntry Thread → Bool
  | .readers => false
  | .writer _ _ => true

/-- An expensive writer waits. -/
def isExpensive : LockEntry Thread → Bool
  | .readers => false
  | .writer _ expensive => expensive

end LockEntry

namespace LockCrew

variable {Thread Context : Type} [DecidableEq Thread]

/-- Everyone is where the crew says. -/
structure Places (crew : LockCrew Thread) (phase : Thread → LockPhase) : Prop where
  inside : Census phase .reading crew.turn.inside
  called : Census phase .signaledRead crew.turn.called
  waiting : Census phase .waitingRead crew.waiting
  writer : ∀ t e, phase t = .writing e ↔ crew.turn = .writer t e
  signaled : ∀ t e, phase t = .signaledWrite e ↔ crew.turn = .signaled t e
  queued : ∀ t e, phase t = .waitingWrite e ↔ .writer t e ∈ crew.queue

/-- The counters of the lock are those of the crew, and its queue is that of the crew. -/
structure Counts (crew : LockCrew Thread) (lock : Frwlock Thread Context) : Prop where
  numReaders : lock.numReaders = crew.turn.inside.length
  numWriters : lock.numWriters = crew.turn.writers
  numWantWrite : lock.numWantWrite =
    crew.queue.countP LockEntry.isWriter + crew.turn.signaledWriters
  numWantRead : lock.numWantRead = crew.turn.called.length + crew.waiting.length
  numSignaledReaders : lock.numSignaledReaders = crew.turn.called.length
  numExpensiveWantWrite : lock.numExpensiveWantWrite =
    crew.queue.countP LockEntry.isExpensive + crew.turn.signaledExpensive.toNat
  currentWriterExpensive : lock.currentWriterExpensive = crew.turn.writerExpensive
  waitReadIsInQueue : lock.waitReadIsInQueue = true ↔ .readers ∈ crew.queue
  linked : Linked lock.waitHead lock.waitTail lock.next (crew.queue.map LockEntry.item)

/-- Readers wait in the queue or not at all, and when readers have the lock a writer is the first
that waits. -/
structure Waits (crew : LockCrew Thread) : Prop where
  group : .readers ∈ crew.queue ↔ crew.waiting ≠ []
  shared : ∀ inside called, crew.turn = .readers inside called → ∀ first rest,
    crew.queue = first :: rest → first.isWriter = true ∧ (inside ≠ [] ∨ called ≠ [])

/-- Waiting for what is expensive is known to be expensive. -/
structure Prices (crew : LockCrew Thread) (lock : Frwlock Thread Context) : Prop where
  absent : .readers ∉ crew.queue → lock.readWaitExpensive = false
  ahead : .readers ∈ crew.queue →
    ((crew.queue.takeWhile LockEntry.isWriter).any LockEntry.isExpensive ||
      crew.turn.writerExpensive || crew.turn.signaledExpensive) = true →
    lock.readWaitExpensive = true

/-- When the entry was put into the queue. -/
def ticketOf (world : LockWorld Thread Context) : LockEntry Thread → Nat
  | .readers => world.readTicket
  | .writer t _ => world.ticket t

/-- A thread was signalled and has not run since. -/
def Signaled (crew : LockCrew Thread) (t : Thread) : Prop :=
  t ∈ crew.turn.called ∨ ∃ e, crew.turn = .signaled t e

/-- The queue is in the order of the tickets, and whoever was signalled came before it. -/
structure Order (crew : LockCrew Thread) (world : LockWorld Thread Context) : Prop where
  sorted : (crew.queue.map (ticketOf world)).Pairwise (· < ·)
  past : ∀ entry ∈ crew.queue, ticketOf world entry < world.clock
  group : ∀ t ∈ crew.waiting, world.ticket t = world.readTicket
  signaled : ∀ t, crew.Signaled t → world.ticket t < world.clock ∧
    ∀ entry ∈ crew.queue, world.ticket t < ticketOf world entry
  together : ∀ t ∈ crew.turn.called, ∀ u ∈ crew.turn.called, world.ticket t = world.ticket u
  alone : ∀ t e, (crew.turn = .signaled t e ∨ .writer t e ∈ crew.queue) →
    world.ticket t = world.arrival t

/-- The crew is who uses the lock in a world. -/
structure Staffs (crew : LockCrew Thread) (world : LockWorld Thread Context) : Prop where
  places : crew.Places world.phase
  counts : crew.Counts world.lock
  waits : crew.Waits
  prices : crew.Prices world.lock
  order : crew.Order world

end LockCrew

namespace Frwlock
variable {Thread Context : Type} [DecidableEq Thread] {l : Frwlock Thread Context}

variable {items : List (QueueItem Thread)}

section

variable {item : QueueItem Thread} (linked : Linked l.waitHead l.waitTail l.next items)
  (outside : item ∉ items)
include linked outside

/-- An item that is not in the queue goes to its end. -/
theorem enqItem_eq (fresh : l.next item = none) :
    ∃ head tail next, l.enqItem item =
        some { l with waitHead := head, waitTail := tail, next := next } ∧
      Linked head tail next (items ++ [item]) := by
  -- An empty queue gets a head, and any other a pointer in its last item.
  unfold enqItem
  cases ends : l.waitTail with
  | none =>
    obtain ⟨noHead, pushed⟩ := linked.push_empty ends fresh
    have empty : items = [] := by
      rw [← List.getLast?_eq_none_iff, ← linked.last, ends]
    subst empty
    exact ⟨some item, some item, l.next, by simp [fresh, noHead], pushed⟩
  | some last =>
    have pushed := linked.push_last ends outside fresh
    exact ⟨l.waitHead, some item, _, by simp [fresh], pushed⟩

/-- An item that was just made goes to the end of the queue. -/
theorem enqItem_fresh :
    ∃ head tail next,
      { l with next := Function.update l.next item none }.enqItem item =
        some { l with waitHead := head, waitTail := tail, next := next } ∧
      Linked head tail next (items ++ [item]) :=
  enqItem_eq (l := { l with next := Function.update l.next item none })
    (linked.update outside none) outside (Function.update_self item none l.next)

end

/-- The first item comes off the queue. -/
theorem deqItem_eq (item : QueueItem Thread)
    (linked : Linked l.waitHead l.waitTail l.next (item :: items)) :
    ∃ head tail, l.deqItem = some (item, { l with waitHead := head, waitTail := tail }) ∧
      Linked head tail l.next items := by
  -- A queue with a head has a tail too.
  have first : l.waitHead = some item := linked.head_eq
  have last : l.waitTail ≠ none := by
    rw [linked.last]
    simp
  refine ⟨_, _, ?_, linked.pop⟩
  simp [deqItem, first, last]

omit [DecidableEq Thread] in
/-- The queue is empty when it has no head. -/
theorem queueIsEmpty_iff (linked : Linked l.waitHead l.waitTail l.next items) :
    l.queueIsEmpty = true ↔ items = [] := by
  rw [queueIsEmpty, linked.head_eq]
  cases items <;> simp

end Frwlock

namespace LockCrew

variable {Thread Context : Type} [DecidableEq Thread] {crew : LockCrew Thread}
  {world : LockWorld Thread Context} {t : Thread}

omit [DecidableEq Thread] in
/-- When no writer has the lock or wants it, nobody waits in the queue. -/
theorem Staffs.quiet (staffs : crew.Staffs world)
    (none : ¬ (0 < world.lock.numWriters ∨ 0 < world.lock.numWantWrite)) :
    ∃ inside called, crew = ⟨.readers inside called, [], []⟩ := by
  rw [staffs.counts.numWriters, staffs.counts.numWantWrite] at none
  obtain ⟨turn, waiting, queue⟩ := crew
  cases turn with
  | signaled u e => simp [LockTurn.signaledWriters] at none
  | writer u e => simp [LockTurn.writers] at none
  | readers inside called =>
    -- The first of a queue would be a writer.
    have empty : queue = [] := by
      cases queue with
      | nil => rfl
      | cons first rest =>
        have writer := (staffs.waits.shared inside called rfl first rest rfl).1
        simp [LockTurn.writers, writer] at none
    subst empty
    have nobody : waiting = [] := by
      by_contra some
      simpa using staffs.waits.group.mpr some
    exact ⟨inside, called, by rw [nobody]⟩

namespace Places

variable {phase : Thread → LockPhase} {waiting : List Thread} {queue : List (LockEntry Thread)}

variable {inside called : List Thread} {expensive : Bool}

/-- Nobody else moves when a thread goes from one place to another. -/
theorem elsewhere {place other : LockPhase} {u : Thread} {there : Prop}
    (before : phase u = other ↔ there) (left : phase t ≠ other) (entered : place ≠ other) :
    Function.update phase t place u = other ↔ there := by
  rw [← before]
  by_cases same : u = t
  · simp [same, left, entered]
  · simp [same]

section

variable (places : Places ⟨.readers inside called, waiting, queue⟩ phase)
include places

/-- A reader comes in. -/
theorem enterRead (idle : phase t = .idle) :
    Places ⟨.readers (t :: inside) called, waiting, queue⟩
      (Function.update phase t .reading) where
  inside := places.inside.enter (by simp [idle])
  called := places.called.stay (by simp [idle]) (by simp)
  waiting := places.waiting.stay (by simp [idle]) (by simp)
  writer u e := by
    -- With readers inside there is no writer, before and after.
    refine elsewhere ((places.writer u e).trans ?_) (by simp [idle]) (by simp)
    simp
  signaled u e := by
    refine elsewhere ((places.signaled u e).trans ?_) (by simp [idle]) (by simp)
    simp
  queued u e := elsewhere (places.queued u e) (by simp [idle]) (by simp)

/-- A reader that was signalled comes in. -/
theorem runRead (signaled : phase t = .signaledRead) :
    Places ⟨.readers (t :: inside) (called.erase t), waiting, queue⟩
      (Function.update phase t .reading) where
  inside := places.inside.enter (by simp [signaled])
  called := places.called.leave (by simp)
  waiting := places.waiting.stay (by simp [signaled]) (by simp)
  writer u e := by
    refine elsewhere ((places.writer u e).trans ?_) (by simp [signaled]) (by simp)
    simp
  signaled u e := by
    refine elsewhere ((places.signaled u e).trans ?_) (by simp [signaled]) (by simp)
    simp
  queued u e := elsewhere (places.queued u e) (by simp [signaled]) (by simp)

/-- A reader goes out. -/
theorem leaveRead (reading : phase t = .reading) :
    Places ⟨.readers (inside.erase t) called, waiting, queue⟩
      (Function.update phase t .idle) where
  inside := places.inside.leave (by simp)
  called := places.called.stay (by simp [reading]) (by simp)
  waiting := places.waiting.stay (by simp [reading]) (by simp)
  writer u e := by
    refine elsewhere ((places.writer u e).trans ?_) (by simp [reading]) (by simp)
    simp
  signaled u e := by
    refine elsewhere ((places.signaled u e).trans ?_) (by simp [reading]) (by simp)
    simp
  queued u e := elsewhere (places.queued u e) (by simp [reading]) (by simp)

end

section

variable {turn : LockTurn Thread} (places : Places ⟨turn, waiting, queue⟩ phase)
  (idle : phase t = .idle)
include places idle

/-- A reader begins to wait. -/
theorem queueRead (group : List (LockEntry Thread))
    (writers : ∀ u e, .writer u e ∈ group ↔ .writer u e ∈ queue) :
    Places ⟨turn, t :: waiting, group⟩ (Function.update phase t .waitingRead) where
  inside := places.inside.stay (by simp [idle]) (by simp)
  called := places.called.stay (by simp [idle]) (by simp)
  waiting := places.waiting.enter (by simp [idle])
  writer u e := elsewhere (places.writer u e) (by simp [idle]) (by simp)
  signaled u e := elsewhere (places.signaled u e) (by simp [idle]) (by simp)
  queued u e := elsewhere ((places.queued u e).trans (writers u e).symm) (by simp [idle]) (by simp)

/-- A writer begins to wait. -/
theorem queueWrite (expensive : Bool) :
    Places ⟨turn, waiting, queue ++ [.writer t expensive]⟩
      (Function.update phase t (.waitingWrite expensive)) where
  inside := places.inside.stay (by simp [idle]) (by simp)
  called := places.called.stay (by simp [idle]) (by simp)
  waiting := places.waiting.stay (by simp [idle]) (by simp)
  writer u e := elsewhere (places.writer u e) (by simp [idle]) (by simp)
  signaled u e := elsewhere (places.signaled u e) (by simp [idle]) (by simp)
  queued u e := by
    -- The thread was not in the queue, and is the one that is added.
    have before := places.queued u e
    by_cases same : u = t
    · subst same
      have absent : LockEntry.writer u e ∉ queue := fun member => by
        simp [idle] at before
        exact before member
      simp [absent, eq_comm]
    · simp [same, before]

end

/-- A writer comes in. -/
theorem enterWrite (places : Places ⟨.readers [] [], waiting, queue⟩ phase)
    (idle : phase t = .idle) (expensive : Bool) :
    Places ⟨.writer t expensive, waiting, queue⟩
      (Function.update phase t (.writing expensive)) where
  inside := places.inside.stay (by simp [idle]) (by simp)
  called := places.called.stay (by simp [idle]) (by simp)
  waiting := places.waiting.stay (by simp [idle]) (by simp)
  writer u e := by
    have before := places.writer u e
    by_cases same : u = t
    · simp [same]
    · -- No other writer is inside.
      simp only [reduceCtorEq, iff_false] at before
      simp [same, Ne.symm same, before]
  signaled u e := by
    refine elsewhere ((places.signaled u e).trans ?_) (by simp [idle]) (by simp)
    simp
  queued u e := elsewhere (places.queued u e) (by simp [idle]) (by simp)

/-- A writer that was signalled comes in. -/
theorem runWrite (places : Places ⟨.signaled t expensive, waiting, queue⟩ phase) :
    Places ⟨.writer t expensive, waiting, queue⟩
      (Function.update phase t (.writing expensive)) := by
  have signaled : phase t = .signaledWrite expensive := (places.signaled t expensive).mpr rfl
  constructor
  · exact places.inside.stay (by simp [signaled]) (by simp)
  · exact places.called.stay (by simp [signaled]) (by simp)
  · exact places.waiting.stay (by simp [signaled]) (by simp)
  · intro u e
    have before := places.writer u e
    by_cases same : u = t
    · simp [same]
    · simp only [reduceCtorEq, iff_false] at before
      simp [same, Ne.symm same, before]
  · intro u e
    have before := places.signaled u e
    by_cases same : u = t
    · simp [same]
    · -- Only one writer was signalled.
      simp only [LockTurn.signaled.injEq, Ne.symm same, false_and, iff_false] at before
      simp [same, before]
  · exact fun u e => elsewhere (places.queued u e) (by simp [signaled]) (by simp)

/-- A writer goes out. -/
theorem leaveWrite (places : Places ⟨.writer t expensive, waiting, queue⟩ phase) :
    Places ⟨.readers [] [], waiting, queue⟩ (Function.update phase t .idle) := by
  have writing : phase t = .writing expensive := (places.writer t expensive).mpr rfl
  constructor
  · exact places.inside.stay (by simp [writing]) (by simp)
  · exact places.called.stay (by simp [writing]) (by simp)
  · exact places.waiting.stay (by simp [writing]) (by simp)
  · intro u e
    have before := places.writer u e
    by_cases same : u = t
    · simp [same]
    · -- No other writer was inside.
      simp only [LockTurn.writer.injEq, Ne.symm same, false_and, iff_false] at before
      simp [same, before]
  · intro u e
    refine elsewhere ((places.signaled u e).trans ?_) (by simp [writing]) (by simp)
    simp
  · exact fun u e => elsewhere (places.queued u e) (by simp [writing]) (by simp)

/-- The readers that wait are signalled. -/
theorem callReaders (places : Places ⟨.readers [] [], waiting, .readers :: queue⟩ phase) :
    Places ⟨.readers [] waiting, [], queue⟩ (LockWorld.wake phase (some .read)) where
  inside := ⟨places.inside.nodup, fun u => by
    have before := places.inside.mem_iff u
    by_cases waits : phase u = .waitingRead
    · simp [LockWorld.wake, LockTurn.inside, waits]
    · simpa [LockWorld.wake, LockTurn.inside, waits] using before⟩
  called := places.waiting.move places.called
  waiting := Census.nobody fun u => by
    by_cases waits : phase u = .waitingRead
    · simp [LockWorld.wake, waits]
    · simp [LockWorld.wake, waits]
  writer u e := by
    have before := places.writer u e
    by_cases waits : phase u = .waitingRead
    · simp [LockWorld.wake, waits]
    · simpa [LockWorld.wake, waits] using before
  signaled u e := by
    have before := places.signaled u e
    by_cases waits : phase u = .waitingRead
    · simp [LockWorld.wake, waits]
    · simpa [LockWorld.wake, waits] using before
  queued u e := by
    have before := places.queued u e
    by_cases waits : phase u = .waitingRead
    · simpa [LockWorld.wake, waits] using before
    · simpa [LockWorld.wake, waits] using before

/-- What a signal does is to move one writer. -/
theorem wake_writer (waits : phase t = .waitingWrite expensive) :
    LockWorld.wake phase (some (.write t)) =
      Function.update phase t (.signaledWrite expensive) := by
  funext u
  by_cases same : u = t
  · subst same
    simp [LockWorld.wake, waits]
  · rw [Function.update_of_ne same]
    simp only [LockWorld.wake, if_neg same]
    split <;> simp_all

/-- The first writer that waits is signalled. -/
theorem callWriter (places : Places ⟨.readers [] [], waiting, .writer t expensive :: queue⟩ phase)
    (once : ∀ e, .writer t e ∉ queue) :
    Places ⟨.signaled t expensive, waiting, queue⟩
      (LockWorld.wake phase (some (.write t))) := by
  have waits : phase t = .waitingWrite expensive :=
    (places.queued t expensive).mpr List.mem_cons_self
  rw [wake_writer waits]
  constructor
  · exact places.inside.stay (by simp [waits]) (by simp)
  · exact places.called.stay (by simp [waits]) (by simp)
  · exact places.waiting.stay (by simp [waits]) (by simp)
  · intro u e
    refine elsewhere ((places.writer u e).trans ?_) (by simp [waits]) (by simp)
    simp
  · intro u e
    have before := places.signaled u e
    by_cases same : u = t
    · simp [same]
    · simp only [reduceCtorEq, iff_false] at before
      simp [same, Ne.symm same, before]
  · intro u e
    have before := places.queued u e
    by_cases same : u = t
    · -- The writer is in the queue no more.
      simp [same, once e]
    · simpa [same] using before

end Places

omit [DecidableEq Thread] in
/-- A thread that is idle is in no list of the crew. -/
theorem Places.absent {phase : Thread → LockPhase} (places : crew.Places phase)
    (idle : phase t = .idle) :
    t ∉ crew.waiting ∧ ¬ crew.Signaled t ∧ ∀ e, .writer t e ∉ crew.queue := by
  -- Everybody in a list waits, or was signalled.
  refine ⟨fun member => ?_, fun either => ?_, fun e member => ?_⟩
  · have there := (places.waiting.mem_iff t).mp member
    simp [idle] at there
  · rcases either with member | ⟨e, turn⟩
    · have there := (places.called.mem_iff t).mp member
      simp [idle] at there
    · have there := (places.signaled t e).mpr turn
      simp [idle] at there
  · have there := (places.queued t e).mpr member
    simp [idle] at there

section Tickets

variable {lock : Frwlock Thread Context} {phase : LockPhase} {ticket readTicket : Nat}

/-- The tickets of those in the queue do not change when another thread begins to wait. -/
theorem ticketOf_wait {entry : LockEntry Thread} (other : ∀ e, entry ≠ .writer t e)
    (group : entry = .readers → readTicket = world.readTicket) :
    ticketOf { world.wait t lock phase ticket with readTicket := readTicket } entry =
      ticketOf world entry := by
  cases entry with
  | readers => exact group rfl
  | writer u e =>
    have different : u ≠ t := fun same => other e (by rw [same])
    exact Function.update_of_ne different _ _

variable (ticket readTicket) in
/-- The order is kept when another thread begins to wait, before it is put anywhere. -/
theorem Order.wait (order : crew.Order world) (places : crew.Places world.phase)
    (idle : world.phase t = .idle)
    (group : .readers ∈ crew.queue ∨ crew.waiting ≠ [] → readTicket = world.readTicket) :
    crew.Order { world.wait t lock phase ticket with readTicket := readTicket } ∧
      (∀ entry ∈ crew.queue, ticketOf
        { world.wait t lock phase ticket with readTicket := readTicket } entry < world.clock) ∧
      ∀ u, crew.Signaled u → Function.update world.ticket t ticket u < world.clock := by
  obtain ⟨notWaiting, notSignaled, notQueued⟩ := places.absent idle
  -- All tickets that are read are those of other threads.
  have same : ∀ entry ∈ crew.queue,
      ticketOf { world.wait t lock phase ticket with readTicket := readTicket } entry =
        ticketOf world entry := fun entry member =>
    ticketOf_wait (fun e isWriter => notQueued e (isWriter ▸ member))
      fun isReaders => group (.inl (isReaders ▸ member))
  have others : ∀ u, u ≠ t → Function.update world.ticket t ticket u = world.ticket u :=
    fun u different => Function.update_of_ne different _ _
  refine ⟨⟨?_, ?_, ?_, ?_, ?_, ?_⟩, fun entry member => ?_, fun u signaled => ?_⟩
  · rw [List.map_congr_left same]
    exact order.sorted
  · intro entry member
    rw [same entry member]
    exact Nat.lt_succ_of_lt (order.past entry member)
  · intro u member
    have different : u ≠ t := fun equal => notWaiting (equal ▸ member)
    show Function.update world.ticket t ticket u = readTicket
    rw [others u different, order.group u member]
    exact (group (.inr (List.ne_nil_of_mem member))).symm
  · intro u signaled
    have different : u ≠ t := fun equal => notSignaled (equal ▸ signaled)
    obtain ⟨past, ahead⟩ := order.signaled u signaled
    refine ⟨?_, fun entry member => ?_⟩
    · show Function.update world.ticket t ticket u < world.clock + 1
      rw [others u different]
      omega
    · show Function.update world.ticket t ticket u < _
      rw [others u different, same entry member]
      exact ahead entry member
  · intro u called v also
    have first : u ≠ t := fun equal => notSignaled (.inl (equal ▸ called))
    have second : v ≠ t := fun equal => notSignaled (.inl (equal ▸ also))
    show Function.update world.ticket t ticket u = Function.update world.ticket t ticket v
    rw [others u first, others v second]
    exact order.together u called v also
  · intro u e either
    have different : u ≠ t := by
      intro equal
      rcases either with turn | member
      · exact notSignaled (.inr ⟨e, equal ▸ turn⟩)
      · exact notQueued e (equal ▸ member)
    show Function.update world.ticket t ticket u = Function.update world.arrival t world.clock u
    rw [others u different, Function.update_of_ne different]
    exact order.alone u e either
  · rw [same entry member]
    exact order.past entry member
  · have different : u ≠ t := fun equal => notSignaled (equal ▸ signaled)
    rw [others u different]
    exact (order.signaled u signaled).1

omit [DecidableEq Thread] in
/-- An entry with the newest ticket goes to the end of the queue. -/
theorem Order.push {turn : LockTurn Thread} {waiting : List Thread}
    {queue : List (LockEntry Thread)} {world : LockWorld Thread Context} {newest : Nat}
    (order : Order ⟨turn, waiting, queue⟩ world)
    (past : ∀ entry ∈ queue, ticketOf world entry < newest)
    (signaled : ∀ u, Signaled ⟨turn, waiting, queue⟩ u → world.ticket u < newest)
    (entry : LockEntry Thread) (last : ticketOf world entry = newest) (now : newest < world.clock)
    (alone : ∀ u e, entry = .writer u e → world.ticket u = world.arrival u) :
    Order ⟨turn, waiting, queue ++ [entry]⟩ world := by
  -- Nobody in the queue is newer than the new entry.
  refine ⟨?_, ?_, order.group, ?_, order.together, ?_⟩
  · rw [List.map_append, List.pairwise_append]
    refine ⟨order.sorted, List.pairwise_singleton _ _, ?_⟩
    intro first member second same
    obtain ⟨before, among, rfl⟩ := List.mem_map.mp member
    rw [List.map_singleton, List.mem_singleton] at same
    rw [same, last]
    exact past before among
  · intro other member
    rcases List.mem_append.mp member with among | added
    · exact order.past other among
    · rw [List.mem_singleton.mp added, last]
      exact now
  · intro u either
    refine ⟨(order.signaled u either).1, fun other member => ?_⟩
    rcases List.mem_append.mp member with among | added
    · exact (order.signaled u either).2 other among
    · rw [List.mem_singleton.mp added, last]
      exact signaled u either
  · intro u e either
    rcases either with isTurn | member
    · exact order.alone u e (.inl isTurn)
    · rcases List.mem_append.mp member with among | added
      · exact order.alone u e (.inr among)
      · exact alone u e (List.mem_singleton.mp added).symm

end Tickets

end LockCrew

end Tokuft
