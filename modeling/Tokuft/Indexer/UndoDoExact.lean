import Tokuft.Indexer.UndoDo

/-! What is sent for a leaf entry, and which failures the result does not tell. -/

namespace Tokuft

section

variable {senders : Nat → Int} {gen : GenerateRows} {hotdb : Nat} {info : UleProvInfo}
  {s s' : HotState}

/-- The keys of messages that have to be committed. -/
def keysOf (keepsKey : Bool) (msgs : List HotMsg) : List Bytes :=
  if keepsKey then msgs.map (·.key) else []

/-- The messages that are sent when calls from some number on are made for them. -/
def sentFrom (senders : Nat → Int) : Nat → List HotMsg → List HotMsg
  | _, [] => []
  | first, msg :: rest =>
    (if senders first = 0 then [msg] else []) ++ sentFrom senders (first + 1) rest

variable {msgs : List HotMsg}

variable (senders) in
/-- What is sent are some of the messages, in order. -/
theorem sentFrom_sublist (first : Nat) (msgs : List HotMsg) :
    (sentFrom senders first msgs).Sublist msgs := by
  induction msgs generalizing first with
  | nil => exact List.Sublist.slnil
  | cons msg rest ih =>
    rw [sentFrom]
    split
    · exact (ih (first + 1)).cons_cons msg
    · exact (ih (first + 1)).cons msg

/-- Everything is sent when no call fails. -/
theorem sentFrom_eq {first : Nat} (ok : ∀ i < msgs.length, senders (first + i) = 0) :
    sentFrom senders first msgs = msgs := by
  -- By induction on the messages, where each call succeeds.
  induction msgs generalizing first with
  | nil => rfl
  | cons msg rest ih =>
    have here : senders first = 0 := ok 0 (Nat.succ_pos _)
    rw [sentFrom, if_pos here, ih]
    · rfl
    · intro i inside
      rw [Nat.add_right_comm, Nat.add_assoc]
      exact ok (i + 1) (Nat.succ_lt_succ inside)

/-- Something is missing when a call fails. -/
theorem length_sentFrom_lt {first : Nat} (fails : ∃ i < msgs.length, senders (first + i) ≠ 0) :
    (sentFrom senders first msgs).length < msgs.length := by
  induction msgs generalizing first with
  | nil =>
    obtain ⟨i, inside, -⟩ := fails
    cases inside
  | cons msg rest ih =>
    obtain ⟨i, inside, failed⟩ := fails
    rw [sentFrom, List.length_append, List.length_cons]
    by_cases here : senders first = 0
    · -- The failure is later.
      obtain ⟨j, rfl⟩ : ∃ j, i = j + 1 := by
        cases i with
        | zero => exact absurd here failed
        | succ j => exact ⟨j, rfl⟩
      have later := @ih (first + 1) ⟨j, by simpa using inside,
        by rw [Nat.add_right_comm, Nat.add_assoc]; exact failed⟩
      rw [if_pos here, List.length_singleton]
      omega
    · have bound := (sentFrom_sublist senders (first + 1) rest).length_le
      rw [if_neg here, List.length_nil]
      omega

/-- An array is sent as far as its calls do not fail, and the last result is returned. -/
theorem sendEach_eq (keepsKey : Bool) (msgs : List HotMsg) (result : Int) (s : HotState) :
    s.sendEach senders keepsKey msgs result =
      (if msgs = [] then result else senders (s.calls + msgs.length - 1),
        { s with
          calls := s.calls + msgs.length
          sent := s.sent ++ sentFrom senders s.calls msgs
          commitKeys := s.commitKeys ++ keysOf keepsKey (sentFrom senders s.calls msgs) }) := by
  -- By induction on the messages: a call that fails is passed over, and the result is the last.
  induction msgs generalizing result s with
  | nil => cases keepsKey <;> simp [HotState.sendEach, sentFrom, keysOf]
  | cons msg rest ih =>
    have shift (more : Nat) : s.calls + 1 + more = s.calls + (more + 1) := by omega
    rw [HotState.sendEach, HotState.send]
    by_cases ok : senders s.calls = 0
    · simp only [if_pos ok, ih]
      cases rest with
      | nil => cases keepsKey <;> simp [sentFrom, keysOf, ok]
      | cons other rest =>
        cases keepsKey <;> simp [sentFrom, keysOf, ok, shift]
    · simp only [if_neg ok, ih]
      cases rest with
      | nil => cases keepsKey <;> simp [sentFrom, keysOf, ok]
      | cons other rest =>
        cases keepsKey <;> simp [sentFrom, keysOf, ok, shift]

/-- What steps that returned a result asked for, and what they sent of what they had to send. -/
structure Sends (senders : Nat → Int) (s s' : HotState) (result : Int) (asks : List Asked)
    (msgs : List HotMsg) : Prop where
  asked : s'.asked = s.asked ++ asks
  ok : result = 0 ↔ ∀ ask ∈ asks, ask.result senders = 0
  sent : ∃ sent, s'.sent = s.sent ++ sent ∧ (result = 0 → sent.Sublist msgs ∧
    ((∀ ask ∈ asks, ¬ask.Hides senders) → sent = msgs) ∧
    ((∃ ask ∈ asks, ask.Hides senders) → sent.length < msgs.length))

/-- Which keys steps that returned a result kept of those that they had to keep. -/
def Keeps (senders : Nat → Int) (s s' : HotState) (result : Int) (asks : List Asked)
    (keys : List Bytes) : Prop :=
  ∃ kept, s'.commitKeys = s.commitKeys ++ kept ∧ (result = 0 → kept.Sublist keys ∧
    ((∀ ask ∈ asks, ¬ask.Hides senders) → kept = keys))

variable {middle : HotState} {result : Int} {asks : List Asked} {others : List HotMsg}
  {keys : List Bytes}

/-- Doing nothing sends nothing. -/
theorem Sends.refl (s : HotState) : Sends senders s s 0 [] [] where
  asked := (List.append_nil _).symm
  ok := ⟨fun _ => nofun, fun _ => rfl⟩
  sent := ⟨[], (List.append_nil _).symm, fun _ => ⟨List.Sublist.slnil, fun _ => rfl, nofun⟩⟩

/-- Doing nothing keeps nothing. -/
theorem Keeps.refl (s : HotState) : Keeps senders s s 0 [] [] :=
  ⟨[], (List.append_nil _).symm, fun _ => ⟨List.Sublist.slnil, fun _ => rfl⟩⟩

/-- Steps after steps without an error. -/
theorem Sends.seq {more : List Asked} (first : Sends senders s middle 0 asks msgs)
    (second : Sends senders middle s' result more others) :
    Sends senders s s' result (asks ++ more) (msgs ++ others) := by
  -- The second steps begin at the call at which the first ones end.
  obtain ⟨sent, early, exact⟩ := first.sent
  obtain ⟨sentToo, late, exactToo⟩ := second.sent
  obtain ⟨sub, all, short⟩ := exact rfl
  refine ⟨?_, ?_, sent ++ sentToo, ?_, fun ok => ?_⟩
  · rw [second.asked, first.asked, List.append_assoc]
  · rw [second.ok]
    have passed := first.ok.mp rfl
    simp only [List.mem_append]
    constructor
    · rintro rest ask (here | there)
      · exact passed ask here
      · exact rest ask there
    · exact fun both ask member => both ask (Or.inr member)
  · rw [late, early, List.append_assoc]
  · obtain ⟨subToo, allToo, shortToo⟩ := exactToo ok
    refine ⟨sub.append subToo, fun none => ?_, ?_⟩
    · rw [all fun ask member => none ask (List.mem_append_left _ member),
        allToo fun ask member => none ask (List.mem_append_right _ member)]
    · rintro ⟨ask, member, hides⟩
      have bound := sub.length_le
      have boundToo := subToo.length_le
      rw [List.length_append, List.length_append]
      rcases List.mem_append.mp member with here | there
      · have less := short ⟨ask, here, hides⟩
        omega
      · have less := shortToo ⟨ask, there, hides⟩
        omega

/-- Steps that failed leave the rest undone. -/
theorem Sends.stop (first : Sends senders s s' result asks msgs) (failed : result ≠ 0)
    (others : List HotMsg) :
    Sends senders s s' result asks others where
  asked := first.asked
  ok := first.ok
  sent := by
    obtain ⟨sent, early, -⟩ := first.sent
    exact ⟨sent, early, fun ok => absurd ok failed⟩

/-- Steps that are for some messages are for more, unless nothing was hidden. -/
theorem Sends.widen (sends : Sends senders s s' result asks msgs)
    (sub : result = 0 → msgs.Sublist others)
    (same : result = 0 → (∀ ask ∈ asks, ¬ask.Hides senders) → msgs = others) :
    Sends senders s s' result asks others where
  asked := sends.asked
  ok := sends.ok
  sent := by
    obtain ⟨sent, early, exact⟩ := sends.sent
    refine ⟨sent, early, fun ok => ?_⟩
    obtain ⟨part, all, short⟩ := exact ok
    refine ⟨part.trans (sub ok), fun none => (all none).trans (same ok none), fun some => ?_⟩
    have bound := (sub ok).length_le
    have less := short some
    omega

/-- Keys are kept by one step after the other. -/
theorem Keeps.seq {more : List Asked} {others : List Bytes}
    (first : Keeps senders s middle 0 asks keys)
    (second : Keeps senders middle s' result more others) :
    Keeps senders s s' result (asks ++ more) (keys ++ others) := by
  -- The keys of the second steps are kept behind those of the first.
  obtain ⟨kept, early, exact⟩ := first
  obtain ⟨keptToo, late, exactToo⟩ := second
  obtain ⟨sub, all⟩ := exact rfl
  refine ⟨kept ++ keptToo, by rw [late, early, List.append_assoc], fun ok => ?_⟩
  obtain ⟨subToo, allToo⟩ := exactToo ok
  refine ⟨sub.append subToo, fun none => ?_⟩
  rw [all fun ask member => none ask (List.mem_append_left _ member),
    allToo fun ask member => none ask (List.mem_append_right _ member)]

/-- Steps that failed keep some keys of any. -/
theorem Keeps.stop (first : Keeps senders s s' result asks keys) (failed : result ≠ 0)
    (others : List Bytes) :
    Keeps senders s s' result asks others := by
  obtain ⟨kept, early, -⟩ := first
  exact ⟨kept, early, fun ok => absurd ok failed⟩

/-- Steps that return a result, with the messages and the keys that they are for. -/
def Step (senders : Nat → Int) (msgs : List HotMsg) (keys : List Bytes) (s : HotState)
    (done : Int × HotState) : Prop :=
  ∃ asks, Sends senders s done.2 done.1 asks msgs ∧ Keeps senders s done.2 done.1 asks keys

variable {done : Int × HotState}

/-- Steps after steps without an error, with their keys. -/
theorem Step.seq {otherKeys : List Bytes} (first : Step senders msgs keys s (0, middle))
    (second : Step senders others otherKeys middle done) :
    Step senders (msgs ++ others) (keys ++ otherKeys) s done := by
  obtain ⟨asks, sends, keeps⟩ := first
  obtain ⟨more, sendsToo, keepsToo⟩ := second
  exact ⟨asks ++ more, sends.seq sendsToo, keeps.seq keepsToo⟩

/-- Steps that failed are for any messages and keys. -/
theorem Step.stop (first : Step senders msgs keys s done) (failed : done.1 ≠ 0)
    (others : List HotMsg) (otherKeys : List Bytes) : Step senders others otherKeys s done := by
  obtain ⟨asks, sends, keeps⟩ := first
  exact ⟨asks, sends.stop failed others, keeps.stop failed otherKeys⟩

variable (senders) in
/-- Sending an array sends its messages, unless a call fails. -/
theorem step_sendArray (keepsKey : Bool) (msgs : List HotMsg) (s : HotState) :
    Step senders msgs (keysOf keepsKey msgs) s (s.sendArray senders keepsKey msgs) := by
  -- The result that is looked at is that of the last call, or zero for no call.
  rw [HotState.sendArray, sendEach_eq]
  have last : (if msgs = [] then 0 else senders (s.calls + msgs.length - 1)) =
      Asked.result senders (.sends s.calls msgs.length) := by
    cases msgs <;> simp [Asked.result]
  rw [last]
  have noFailure (none : ∀ ask ∈ [Asked.sends s.calls msgs.length], ¬ask.Hides senders)
      (ok : Asked.result senders (.sends s.calls msgs.length) = 0) :
      sentFrom senders s.calls msgs = msgs := by
    apply sentFrom_eq
    intro i inside
    by_contra failed
    exact none _ (List.mem_singleton.mpr rfl) ⟨⟨i, inside, failed⟩, ok⟩
  refine ⟨[.sends s.calls msgs.length], ⟨rfl, by simp, sentFrom senders s.calls msgs, rfl,
      fun ok => ⟨sentFrom_sublist _ _ _, fun none => noFailure none ok, ?_⟩⟩,
    keysOf keepsKey (sentFrom senders s.calls msgs), rfl, fun ok => ⟨?_, fun none => ?_⟩⟩
  · rintro ⟨ask, member, hides⟩
    rw [List.mem_singleton.mp member] at hides
    exact length_sentFrom_lt hides.1
  · cases keepsKey with
    | true => exact (sentFrom_sublist _ _ _).map _
    | false => exact List.Sublist.slnil
  · rw [noFailure none ok]

/-- The commit messages for some keys. -/
def commitMsgs (hotdb : Nat) (xids : List Nat) (keys : List Bytes) : List HotMsg :=
  if xids = [] then [] else keys.map fun key => { hotdb, kind := .commit, key, xids }

variable {xids : List Nat}

variable (senders hotdb) in
/-- Commits are sent one after the other, and each result is looked at. -/
theorem step_sendCommits (xids : List Nat) (keys : List Bytes) (s : HotState) :
    Step senders (commitMsgs hotdb xids keys) [] s (s.sendCommits senders hotdb xids keys) := by
  -- By induction on the keys: an error ends the sending.
  induction keys generalizing s with
  | nil =>
    have nothing : commitMsgs hotdb xids [] = [] := by simp [commitMsgs]
    rw [nothing]
    exact ⟨[], Sends.refl s, Keeps.refl s⟩
  | cons key rest ih =>
    by_cases root : xids = []
    · have same : commitMsgs hotdb xids (key :: rest) = commitMsgs hotdb xids rest := by
        rw [commitMsgs, commitMsgs, if_pos root, if_pos root]
      rw [HotState.sendCommits, if_pos root, same]
      exact ih s
    · have split : commitMsgs hotdb xids (key :: rest) =
          [{ hotdb, kind := .commit, key, xids }] ++ commitMsgs hotdb xids rest := by
        rw [commitMsgs, commitMsgs, if_neg root, if_neg root]
        rfl
      rw [HotState.sendCommits, if_neg root, split]
      obtain ⟨asks, sends, keeps⟩ := step_sendArray senders false
        [{ hotdb, kind := .commit, key, xids }] s
      simp only
      split
      · rename_i failed
        exact ⟨asks, sends.stop failed _, keeps.stop failed _⟩
      · rename_i ok
        obtain ok := not_not.mp ok
        rw [ok] at sends keeps
        obtain ⟨more, sendsToo, keepsToo⟩ := ih (s.sendArray senders false
          [{ hotdb, kind := .commit, key, xids }]).2
        exact ⟨asks ++ more, sends.seq sendsToo, keeps.seq keepsToo⟩

/-- Fewer keys have fewer commit messages. -/
theorem commitMsgs_sublist {kept : List Bytes} (sub : kept.Sublist keys) :
    (commitMsgs hotdb xids kept).Sublist (commitMsgs hotdb xids keys) := by
  unfold commitMsgs
  split
  · exact List.Sublist.slnil
  · exact sub.map _

/-- Steps that return a result, with the messages that they are for. -/
def Pass (senders : Nat → Int) (msgs : List HotMsg) (s : HotState) (done : Int × HotState) : Prop :=
  ∃ asks, Sends senders s done.2 done.1 asks msgs

/-- Committing the keys that steps kept commits those that they had to keep. -/
theorem Step.commits (hotdb : Nat) (xids : List Nat) {first : Int × HotState}
    (empty : s.commitKeys = []) (early : Step senders msgs keys s first) (ok : first.1 = 0) :
    Pass senders (msgs ++ commitMsgs hotdb xids keys) s
      (first.2.sendCommits senders hotdb xids first.2.commitKeys) := by
  obtain ⟨asks, sends, kept, isKept, exact⟩ := early
  obtain ⟨more, sendsToo, -⟩ := step_sendCommits senders hotdb xids
    first.2.commitKeys first.2
  obtain ⟨sub, all⟩ := exact ok
  rw [empty, List.nil_append] at isKept
  rw [ok] at sends
  rw [← isKept] at sub all
  -- The keys that were kept may be fewer, but not unless a failure was hidden.
  refine ⟨asks ++ more, (sends.seq sendsToo).widen (fun _ => ?_) fun _ none => ?_⟩
  · exact (List.Sublist.refl msgs).append (commitMsgs_sublist sub)
  · rw [all fun ask member => none ask (List.mem_append_left _ member)]

/-- Steps are a pass. -/
theorem Step.pass (step : Step senders msgs keys s done) : Pass senders msgs s done := by
  obtain ⟨asks, sends, -⟩ := step
  exact ⟨asks, sends⟩

/-- A pass that failed is for any messages. -/
theorem Pass.stop (first : Pass senders msgs s done) (failed : done.1 ≠ 0) (others : List HotMsg) :
    Pass senders others s done := by
  obtain ⟨asks, sends⟩ := first
  exact ⟨asks, sends.stop failed others⟩

/-- Passes one after the other, when the first has no error. -/
theorem Pass.seq (first : Pass senders msgs s (0, middle))
    (second : Pass senders others middle done) :
    Pass senders (msgs ++ others) s done := by
  obtain ⟨asks, sends⟩ := first
  obtain ⟨more, sendsToo⟩ := second
  exact ⟨asks ++ more, sends.seq sendsToo⟩

end

end Tokuft
