import Mathlib.Data.List.Induction

/-! Runs of a labelled transition system, and the rule that carries an invariant along them. -/

namespace Tokuft

/-- A run takes one step for every event of its list, oldest event first. -/
inductive Runs {State Event : Type} (step : State → Event → State → Prop) (start : State) :
    List Event → State → Prop where
  /-- Nothing has happened yet. -/
  | start : Runs step start [] start
  /-- One more event happens after a run. -/
  | next {events : List Event} {before after : State} {event : Event}
      (earlier : Runs step start events before) (last : step before event after) :
      Runs step start (events ++ [event]) after

variable {State Event : Type} {step : State → Event → State → Prop} {start : State}

/-- A property that the start has and that every step keeps holds after every run. -/
theorem Runs.invariant {holds : State → Prop} {events : List Event} {state : State}
    (run : Runs step start events state) (initial : holds start)
    (kept : ∀ {before event after}, holds before → step before event after → holds after) :
    holds state := by
  induction run with
  | start => exact initial
  | next _ last ih => exact kept ih last

/-- A property of the events seen so far and the state reached is carried the same way. -/
theorem Runs.traceInvariant {holds : List Event → State → Prop} {events : List Event}
    {state : State} (run : Runs step start events state) (initial : holds [] start)
    (kept : ∀ {events before event after}, Runs step start events before → holds events before →
      step before event after → holds (events ++ [event]) after) :
    holds events state := by
  induction run with
  | start => exact initial
  | next earlier last ih => exact kept earlier ih last

/-- A run of one system is a run of every system that can take the same steps. -/
theorem Runs.mono {more : State → Event → State → Prop} {events : List Event} {state : State}
    (run : Runs step start events state)
    (taken : ∀ {before event after}, step before event after → more before event after) :
    Runs more start events state := by
  induction run with
  | start => exact .start
  | next _ last ih => exact .next ih (taken last)

/-- Folding a partial step function over a list of events is a run of it. -/
theorem Runs.of_foldlM {next : State → Event → Option State} :
    ∀ {events : List Event} {state : State}, events.foldlM next start = some state →
      Runs (fun before event after => next before event = some after) start events state := by
  intro events
  induction events using List.reverseRecOn with
  | nil =>
    intro state folded
    cases folded
    exact .start
  | append_singleton earlier event ih =>
    intro state folded
    -- The last event is taken from where the earlier ones lead.
    rw [List.foldlM_append] at folded
    cases reached : earlier.foldlM next start with
    | none => simp [reached] at folded
    | some before =>
      refine .next (ih reached) ?_
      simpa [reached] using folded

/-- Operations one after another, with what each of them returned. -/
def runOps {Op Result World : Type} (step : World → Op → Option (Result × World)) :
    World → List Op → Option (List Result × World)
  | world, [] => some ([], world)
  | world, op :: ops => do
    let (result, world) ← step world op
    let (results, world) ← runOps step world ops
    return (result :: results, world)

/-- When each operation returns the same in two worlds that match and leads to worlds that match,
operations one after another do. -/
theorem runOps_refines {Op Result World Model : Type} {same : World → Model → Prop}
    {step : World → Op → Option (Result × World)} {stepModel : Model → Op → Option (Result × Model)}
    (refines : ∀ {op world model result after}, same world model →
      stepModel model op = some (result, after) →
      ∃ world', step world op = some (result, world') ∧ same world' after) :
    ∀ (ops : List Op) {world : World} {model after : Model} {results : List Result},
      same world model → runOps stepModel model ops = some (results, after) →
      ∃ world', runOps step world ops = some (results, world') ∧ same world' after := by
  -- By induction on the operations.
  intro ops
  induction ops with
  | nil =>
    intro world model after results matching taken
    cases taken
    exact ⟨world, rfl, matching⟩
  | cons op ops ih =>
    intro world model after results matching taken
    obtain ⟨⟨result, middle⟩, first, taken⟩ := Option.bind_eq_some_iff.mp taken
    obtain ⟨⟨rest, last⟩, later, taken⟩ := Option.bind_eq_some_iff.mp taken
    cases taken
    obtain ⟨between, stepped, matching⟩ := refines matching first
    obtain ⟨world', run, matching⟩ := ih matching later
    refine ⟨world', ?_, matching⟩
    simp only [runOps, stepped, run, Option.bind_eq_bind, Option.bind_some, Option.pure_def]

end Tokuft
