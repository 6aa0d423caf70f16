import Tokuft.Indexer.BuildIndex
import Tokuft.Indexer.UndoDoExact

/-! What an indexer would ask for if no error stopped it: the same as a run up to its error. -/

namespace Tokuft

section

variable (senders : Nat → Int) (gen : GenerateRows) (hotdb : Nat) (info : UleProvInfo)

end

namespace HotIndexer

variable (indexer : HotIndexer)

end HotIndexer

/-- Steps did what a full pass does, or failed at a point that the full pass comes by. -/
structure FollowsFull (done : Int × HotState) (full : HotState) : Prop where
  same : done.1 = 0 → done.2 = full
  asked : done.2.asked <+: full.asked

section

variable {senders : Nat → Int} {gen : GenerateRows} {hotdb : Nat} {info : UleProvInfo}
  {s full : HotState} {done : Int × HotState} {mode : HotMode} {xids : List Nat}

/-- What follows a pass follows one that goes on after an error. -/
theorem FollowsFull.trans {further : HotState} (follows : FollowsFull done full)
    (failed : done.1 ≠ 0)
    (more : full.asked <+: further.asked) : FollowsFull done further :=
  ⟨fun ok => absurd ok failed, follows.asked.trans more⟩

/-- Steps that do not fail do what a full pass does. -/
theorem FollowsFull.refl (result : Int) (s : HotState) : FollowsFull (result, s) s :=
  ⟨fun _ => rfl, List.prefix_rfl⟩

/-- What is next follows a full pass when what is first does. -/
theorem FollowsFull.unlessError {first : Option (Int × HotState)}
    {next : HotState → Option (Int × HotState)} {full further : HotState}
    (runs : unlessError first next = some done)
    (follows : ∀ early, first = some early → FollowsFull early full)
    (more : full.asked <+: further.asked)
    (later : next full = some done → FollowsFull done further) : FollowsFull done further := by
  -- After an error the run stops where the full pass goes on.
  obtain ⟨⟨result, middle⟩, isFirst, rest⟩ := of_bind runs
  have early := follows _ isFirst
  by_cases failed : result ≠ 0
  · rw [if_pos failed] at rest
    cases rest
    exact early.trans failed more
  · rw [if_neg failed] at rest
    rw [early.same (not_not.mp failed)] at rest
    exact later rest

variable (senders gen hotdb info mode xids)

variable {senders gen hotdb info mode xids}

end

section

variable {senders : Nat → Int} {s full further : HotState} {done : Int × HotState}

/-- Steps without an error do what a full pass does, which meets an error when there is one. -/
def Matches (senders : Nat → Int) (s : HotState) (done : Int × HotState) (full : HotState) : Prop :=
  ∃ asks, full.asked = s.asked ++ asks ∧ (done.1 = 0 → done.2 = full) ∧
    (done.1 ≠ 0 → ∃ ask ∈ asks, ask.result senders ≠ 0)

/-- A pass that follows a full one matches it. -/
theorem FollowsFull.matches {msgs : List HotMsg} (follows : FollowsFull done full)
    (pass : Pass senders msgs s done) : Matches senders s done full := by
  -- What the run asked is a part of what the full pass asks.
  obtain ⟨asks, sends⟩ := pass
  obtain ⟨more, asked⟩ := follows.asked
  rw [sends.asked, List.append_assoc] at asked
  refine ⟨asks ++ more, asked.symm, follows.same, fun failed => ?_⟩
  by_contra none
  refine failed (sends.ok.mpr fun ask member => ?_)
  by_contra wrong
  exact none ⟨ask, List.mem_append_left _ member, wrong⟩

/-- An error is met in a longer pass too. -/
theorem Matches.stop (first : Matches senders s done full) (failed : done.1 ≠ 0)
    (more : full.asked <+: further.asked) : Matches senders s done further := by
  obtain ⟨asks, asked, -, fails⟩ := first
  obtain ⟨others, later⟩ := more
  rw [asked, List.append_assoc] at later
  obtain ⟨ask, member, wrong⟩ := fails failed
  exact ⟨asks ++ others, later.symm, fun ok => absurd ok failed,
    fun _ => ⟨ask, List.mem_append_left _ member, wrong⟩⟩

/-- What goes on from a full pass matches a longer one. -/
theorem Matches.seq (more : s.asked <+: full.asked) (next : Matches senders full done further) :
    Matches senders s done further := by
  obtain ⟨asks, asked, same, fails⟩ := next
  obtain ⟨before, early⟩ := more
  rw [← early, List.append_assoc] at asked
  refine ⟨before ++ asks, asked, same, fun failed => ?_⟩
  obtain ⟨ask, member, wrong⟩ := fails failed
  exact ⟨ask, List.mem_append_right _ member, wrong⟩

/-- An error that is noted at the end is met, whatever came before. -/
theorem Matches.fail {result : Int} {earlier : HotState}
    (noted : Matches senders full (result, full.answered result) (full.answered result))
    (failed : result ≠ 0) (more : s.asked <+: full.asked) :
    Matches senders s (result, earlier) (full.answered result) := by
  obtain ⟨asks, asked, -, fails⟩ := noted.seq more
  exact ⟨asks, asked, fun ok => absurd ok failed, fails⟩

end

end Tokuft
