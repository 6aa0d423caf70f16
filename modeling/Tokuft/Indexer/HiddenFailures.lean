import Tokuft.Indexer.FullPass

/-! Which failures of the senders an indexer does not tell. -/

namespace Tokuft

namespace HotIndexer

variable {indexer : HotIndexer} {info : UleProvInfo} {world world' : PinWorld} {s s' : HotState}
  {result : Int}

end HotIndexer

section

variable {senders : Nat → Int} {s s' : HotState} {msgs : List HotMsg}

/-- An error that is noted is for any messages. -/
theorem Pass.fails {done : Int × HotState} (pass : Pass senders msgs s done) {error : Int}
    (failed : error ≠ 0) (others : List HotMsg) :
    Pass senders others s (error, done.2.answered error) := by
  -- A result that is an error is looked at, and so told.
  obtain ⟨asks, sends⟩ := pass
  obtain ⟨sent, early, -⟩ := sends.sent
  refine ⟨asks ++ [.answered error], ?_, ?_, sent, early, fun ok => absurd ok failed⟩
  · show (done.2.asked ++ _ = _)
    rw [sends.asked, List.append_assoc]
  · refine iff_of_false failed fun passed => failed ?_
    exact passed _ (List.mem_append_right _ (List.mem_singleton.mpr rfl))

end

namespace HotIndexer

variable {indexer : HotIndexer} {info : UleProvInfo} {world world' : PinWorld} {s s' : HotState}
  {result : Int}

/-- Every message that had to be sent was sent, or there is an error and nothing is reported. -/
def Tells (needed : List HotMsg) (built : Built) : Prop :=
  built.state.sent ≠ needed → built.result ≠ 0 ∧ built.reported = false

end HotIndexer

end Tokuft
