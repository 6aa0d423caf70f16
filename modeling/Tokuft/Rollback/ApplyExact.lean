import Tokuft.Rollback.FileLaws

/-! Applying a rollback log applies every item once, newest first, and lets go of every node. -/

namespace Tokuft

variable {Item : Type}

/-- A stretch of a log: the nodes of a chain from one node back, or the entries of a node. -/
inductive LogPart (Item : Type) where
  | chain (xid : TxnidPair) (numNodes : Nat) (spilledHead next : Option Blocknum)
  | entries (list : List (RollEntry Item))

/-- A part of a log lives in some nodes and stands for the items in them, newest first. -/
inductive Holds (nodes : Blocknum → Option (RollbackLogNode Item)) :
    LogPart Item → List Blocknum → List Item → Prop where
  /-- Nothing lies before the first node of a chain. -/
  | chainEnd (xid : TxnidPair) : Holds nodes (.chain xid 0 none none) [] []
  /-- A node counts its predecessors, and the head of its chain is the first of them all. -/
  | chainNode {xid : TxnidPair} {blocknum : Blocknum} {log : RollbackLogNode Item}
      {older : Option Blocknum} {inner outer : List Blocknum} {newer rest : List Item}
      (stored : nodes blocknum = some log) (owner : log.txnid = xid)
      (content : Holds nodes (.entries log.entries) inner newer)
      (behind : Holds nodes (.chain xid log.sequence older log.previous) outer rest) :
      Holds nodes
        (.chain xid (log.sequence + 1) (some (older.getD blocknum)) (some blocknum))
        (inner ++ blocknum :: outer) (newer ++ rest)
  /-- No entries need no nodes. -/
  | noEntries : Holds nodes (.entries []) [] []
  /-- An item stands for itself. -/
  | item {item : Item} {list : List (RollEntry Item)} {owned : List Blocknum} {items : List Item}
      (older : Holds nodes (.entries list) owned items) :
      Holds nodes (.entries (.item item :: list)) owned (item :: items)
  /-- An including entry stands for the whole chain it names. -/
  | rollinclude {xid : TxnidPair} {numNodes : Nat} {spilledHead : Option Blocknum}
      {tail : Blocknum} {list : List (RollEntry Item)} {inner outer : List Blocknum}
      {newer rest : List Item}
      (included : Holds nodes (.chain xid numNodes spilledHead (some tail)) inner newer)
      (older : Holds nodes (.entries list) outer rest) :
      Holds nodes (.entries (.rollinclude xid numNodes spilledHead (some tail) :: list))
        (inner ++ outer) (newer ++ rest)

/-- The log of a transaction is its spilled chain, behind the current node when there is one. -/
inductive TxnHolds (nodes : Blocknum → Option (RollbackLogNode Item)) (txnid : TxnidPair)
    (info : RollInfo) : List Blocknum → List Item → Prop where
  /-- Everything saved so far was spilled. -/
  | spilled {owned : List Blocknum} {items : List Item} (idle : info.currentRollback = none)
      (chain : Holds nodes (.chain txnid info.numRollbackNodes info.spilledRollbackHead
        info.spilledRollbackTail) owned items) :
      TxnHolds nodes txnid info owned items
  /-- The current node takes new entries. -/
  | current {blocknum : Blocknum} {log : RollbackLogNode Item} {inner outer : List Blocknum}
      {newer rest : List Item} (here : info.currentRollback = some blocknum)
      (stored : nodes blocknum = some log) (owner : log.txnid = txnid)
      (counted : log.sequence + 1 = info.numRollbackNodes)
      (linked : log.previous = info.spilledRollbackTail)
      (content : Holds nodes (.entries log.entries) inner newer)
      (behind : Holds nodes (.chain txnid log.sequence info.spilledRollbackHead
        info.spilledRollbackTail) outer rest) :
      TxnHolds nodes txnid info (inner ++ blocknum :: outer) (newer ++ rest)

variable {nodes nodes' : Blocknum → Option (RollbackLogNode Item)}

variable {owned : List Blocknum} {items : List Item} {xid : TxnidPair} {numNodes : Nat}

/-- Only the nodes a part lives in decide what it stands for. -/
theorem Holds.congr {part : LogPart Item} (holds : Holds nodes part owned items)
    (same : ∀ blocknum ∈ owned, nodes' blocknum = nodes blocknum) :
    Holds nodes' part owned items := by
  -- The induction follows the log back to its first entry.
  induction holds with
  | chainEnd xid => exact .chainEnd xid
  | chainNode stored owner content behind ihContent ihBehind =>
    refine .chainNode ?_ owner (ihContent ?_) (ihBehind ?_)
    · rw [same _ (by simp), stored]
    · exact fun blocknum member => same blocknum (by simp [member])
    · exact fun blocknum member => same blocknum (by simp [member])
  | noEntries => exact .noEntries
  | item older ih => exact .item (ih same)
  | rollinclude included older ihIncluded ihOlder =>
    refine .rollinclude (ihIncluded ?_) (ihOlder ?_)
    · exact fun blocknum member => same blocknum (by simp [member])
    · exact fun blocknum member => same blocknum (by simp [member])

/-- Only the nodes a transaction's log lives in decide what it stands for. -/
theorem TxnHolds.congr {txnid : TxnidPair} {info : RollInfo}
    (holds : TxnHolds nodes txnid info owned items)
    (same : ∀ blocknum ∈ owned, nodes' blocknum = nodes blocknum) :
    TxnHolds nodes' txnid info owned items := by
  cases holds with
  | spilled idle chain => exact .spilled idle (chain.congr same)
  | current here stored owner counted linked content behind =>
    refine .current here ?_ owner counted linked (content.congr ?_) (behind.congr ?_)
    · rw [same _ (by simp), stored]
    · exact fun blocknum member => same blocknum (by simp [member])
    · exact fun blocknum member => same blocknum (by simp [member])

/-- The head of a chain is one of its nodes. -/
theorem Holds.head_mem {head : Blocknum} {next : Option Blocknum}
    (holds : Holds nodes (.chain xid numNodes (some head) next) owned items) : head ∈ owned := by
  -- By induction on what the chain holds.
  generalize whole : LogPart.chain xid numNodes (some head) next = part at holds
  induction holds generalizing numNodes next with
  | chainEnd xid => simp at whole
  | @chainNode xid blocknum log older inner outer newer rest stored owner content behind _ ih =>
    simp only [LogPart.chain.injEq, Option.some.injEq] at whole
    obtain ⟨rfl, -, rfl, -⟩ := whole
    cases older with
    | none => simp
    | some head =>
      have inside : head ∈ outer := ih rfl
      simp [inside]
  | noEntries => simp at whole
  | item => simp at whole
  | rollinclude => simp at whole

/-- A chain without a head is empty. -/
theorem Holds.of_noHead {next : Option Blocknum}
    (holds : Holds nodes (.chain xid numNodes none next) owned items) :
    numNodes = 0 ∧ next = none ∧ owned = [] ∧ items = [] := by
  cases holds with
  | chainEnd => exact ⟨rfl, rfl, rfl, rfl⟩

/-- A chain without a last node is empty. -/
theorem Holds.of_noTail {head : Option Blocknum}
    (holds : Holds nodes (.chain xid numNodes head none) owned items) :
    numNodes = 0 ∧ head = none ∧ owned = [] ∧ items = [] := by
  cases holds with
  | chainEnd => exact ⟨rfl, rfl, rfl, rfl⟩

/-- Entries that follow others stand for the items of both. -/
theorem Holds.append {newest oldest : List (RollEntry Item)} {inner outer : List Blocknum}
    {newer rest : List Item} (front : Holds nodes (.entries newest) inner newer)
    (back : Holds nodes (.entries oldest) outer rest) :
    Holds nodes (.entries (newest ++ oldest)) (inner ++ outer) (newer ++ rest) := by
  -- By induction on the front.
  generalize whole : LogPart.entries newest = part at front
  induction front generalizing newest with
  | chainEnd xid => simp at whole
  | chainNode => simp at whole
  | noEntries =>
    obtain rfl := LogPart.entries.inj whole
    exact back
  | item older ih =>
    obtain rfl := LogPart.entries.inj whole
    exact .item (ih rfl)
  | rollinclude included older _ ih =>
    obtain rfl := LogPart.entries.inj whole
    rw [List.append_assoc, List.append_assoc]
    exact .rollinclude included (ih rfl)

/-- A transaction that has saved nothing has an empty log. -/
theorem TxnHolds.none (txnid : TxnidPair) : TxnHolds nodes txnid RollInfo.none [] [] :=
  .spilled rfl (.chainEnd txnid)

namespace RollbackFile

variable {blocknum : Blocknum} {log : RollbackLogNode Item} {outer : List Blocknum}

/-- The head of a chain is recognised at its first node and at no other. -/
theorem noteHead_chain {xid : TxnidPair} {older : Option Blocknum} {rest : List Item}
    (behind : Holds nodes (.chain xid log.sequence older log.previous) outer rest)
    (outside : blocknum ∉ outer) :
    noteHead (some (older.getD blocknum)) false blocknum log = some older.isNone := by
  cases older with
  | none =>
    obtain ⟨first, alone, -, -⟩ := behind.of_noHead
    simp [noteHead, first, alone]
  | some head =>
    have different : blocknum ≠ head := fun same => outside (same ▸ behind.head_mem)
    simp [noteHead, different]

/-- The current node is not the head of the spilled chain behind it. -/
theorem noteHead_current {xid : TxnidPair} {head next : Option Blocknum} {numNodes : Nat}
    {rest : List Item} (behind : Holds nodes (.chain xid numNodes head next) outer rest)
    (outside : blocknum ∉ outer) : noteHead head false blocknum log = some false := by
  cases head with
  | none => simp [noteHead]
  | some head =>
    have different : blocknum ≠ head := fun same => outside (same ▸ behind.head_mem)
    simp [noteHead, different]

/-- What applying a part of a log comes to: its items are applied and its nodes let go. -/
def Applied (func : ApplyFunc) (fuel : Nat) (file : RollbackFile Item) (part : LogPart Item)
    (owned : List Blocknum) (items : List Item) : Prop :=
  ∃ after, Moves file after owned [] ∧
    match part with
    | .chain xid numNodes spilledHead next =>
      applyRollincludeFrom func fuel xid spilledHead false file numNodes next =
        some (after, items.map (func, ·))
    | .entries list =>
      applyEntries func (applyRollinclude func fuel) file list =
        some (after, items.map (func, ·))

variable {txnid : TxnidPair}

/-- An included log is applied exactly, whatever logs it includes in turn. -/
theorem applied_of_holds (func : ApplyFunc) {part : LogPart Item} {owned : List Blocknum}
    {items : List Item} (holds : Holds nodes part owned items) :
    ∀ {fuel : Nat} {file : RollbackFile Item}, FileOk file → Owned file owned →
      (∀ blocknum ∈ owned, file.nodes blocknum = nodes blocknum) → owned.length ≤ fuel →
      Applied func fuel file part owned items := by
  -- The induction follows the log back; the fuel left always covers the nodes left.
  induction holds with
  | chainEnd xid =>
    intro fuel file ok held _ _
    exact ⟨file, Moves.refl ok held, by cases fuel <;> rfl⟩
  | @chainNode xid blocknum log older inner outer newer rest stored owner content behind
      ihContent ihBehind =>
    intro fuel file ok held same enough
    obtain ⟨fuel, rfl⟩ : ∃ less, fuel = less + 1 := ⟨fuel - 1, by simp at enough; omega⟩
    simp only [List.length_append, List.length_cons] at enough
    have here : file.nodes blocknum = some log := by rw [same _ (by simp), stored]
    have pinned := getAndPin_used ok (held.used (by simp)) here
    have outside : blocknum ∉ outer := (List.nodup_cons.mp held.split.2.1.nodup).1
    have noted := noteHead_chain behind outside
    obtain rfl := ok.named here
    -- First the entries of this node are applied, which touches the nodes included by them.
    obtain ⟨entered, movesInner, appliedInner⟩ := ihContent ok held.split.1
      (fun there member => same there (by simp [member])) (by omega : _ ≤ fuel)
    obtain ⟨movesInner', stillHeld, sameNodes⟩ := movesInner.within _ held
    -- Then the node itself is removed.
    obtain ⟨removed, removes, movesNode⟩ :=
      moves_remove movesInner.ok (stillHeld.used List.mem_cons_self)
    obtain ⟨movesNode', heldOuter, sameOuter⟩ :=
      movesNode.within outer stillHeld
    obtain ⟨after, movesOuter, appliedOuter⟩ := ihBehind movesNode.ok heldOuter
      (fun there member => by
        rw [sameOuter _ member, sameNodes _ (List.mem_cons_of_mem _ member),
          same _ (by simp [member])])
      (by omega : _ ≤ fuel)
    refine ⟨after, (movesInner'.trans movesNode').trans movesOuter, ?_⟩
    have behindApplied : applyRollincludeFrom func fuel xid
        (if older.isNone then log.previous else some (older.getD log.blocknum)) older.isNone removed
        log.sequence log.previous = some (after, rest.map (func, ·)) := by
      cases older with
      | none =>
        obtain ⟨-, alone, -, -⟩ := behind.of_noHead
        simp only [alone] at appliedOuter ⊢
        cases fuel <;> exact appliedOuter
      | some head => exact appliedOuter
    show applyRollincludeFrom func (fuel + 1) xid _ false file (log.sequence + 1)
      (some log.blocknum) = _
    simp only [applyRollincludeFrom, pinned, verify_sequence owner, bind_runs]
    change (applyEntries func (applyRollinclude func fuel) file log.entries).bind _ = _
    simp only [appliedInner, Option.bind_some, noted, removes]
    simp only [behindApplied, Option.bind_some, List.map_append]
  | noEntries =>
    intro fuel file ok held _ _
    exact ⟨file, Moves.refl ok held, rfl⟩
  | item older ih =>
    intro fuel file ok held same enough
    obtain ⟨after, moves, applied⟩ := ih ok held same enough
    exact ⟨after, moves, by simp [applyEntries, applied]⟩
  | @rollinclude xid numNodes spilledHead tail list inner outer newer rest included older
      ihIncluded ihOlder =>
    intro fuel file ok held same enough
    simp only [List.length_append] at enough
    obtain ⟨entered, movesInner, appliedInner⟩ := ihIncluded ok held.split.1
      (fun there member => same there (by simp [member])) (by omega : _ ≤ fuel)
    obtain ⟨movesInner', heldOuter, sameOuter⟩ := movesInner.within _ held
    obtain ⟨after, movesOuter, appliedOuter⟩ := ihOlder movesInner.ok heldOuter
      (fun there member => by rw [sameOuter _ member, same _ (by simp [member])])
      (by omega : _ ≤ fuel)
    refine ⟨after, movesInner'.trans movesOuter, ?_⟩
    have includedApplied : applyRollinclude func fuel file xid numNodes spilledHead (some tail) =
        some (entered, newer.map (func, ·)) := by
      simpa [applyRollinclude] using appliedInner
    simp only [applyEntries, includedApplied, appliedOuter, bind_runs, List.map_append]

/-- One turn over a transaction's log applies the newest node left and lets it go. -/
theorem applyTxnFrom_node (func : ApplyFunc) (fuel : Nat) (isCurrent : Bool)
    {file : RollbackFile Item} {inner : List Blocknum} {newer : List Item}
    {foundHead foundNext : Bool} {info : RollInfo} (ok : FileOk file)
    (held : Owned file (inner ++ blocknum :: outer))
    (same : ∀ there ∈ inner ++ blocknum :: outer, file.nodes there = nodes there)
    (stored : nodes blocknum = some log) (owner : log.txnid = txnid)
    (content : Holds nodes (.entries log.entries) inner newer)
    (noted : noteHead info.spilledRollbackHead foundHead blocknum log = some foundNext)
    (enough : inner.length ≤ fuel) :
    ∃ middle, Moves file middle (inner ++ blocknum :: outer) outer ∧
      (∀ there ∈ outer, middle.nodes there = nodes there) ∧
      applyTxnFrom func txnid (fuel + 1) isCurrent foundHead info file (log.sequence + 1)
        (some blocknum) = do
          let info := if isCurrent then { info with currentRollback := none }
            else { info with spilledRollbackTail := log.previous }
          let info := if foundNext then { info with spilledRollbackHead := log.previous } else info
          let (file, info, older) ←
            applyTxnFrom func txnid fuel false foundNext info middle log.sequence log.previous
          return (file, info, newer.map (func, ·) ++ older) := by
  have here : file.nodes blocknum = some log := by rw [same _ (by simp), stored]
  have pinned := getAndPin_used ok (held.used (by simp)) here
  obtain rfl := ok.named here
  obtain ⟨entered, movesInner, appliedInner⟩ := applied_of_holds func content ok held.split.1
    (fun there member => same there (by simp [member])) enough
  obtain ⟨movesInner', stillHeld, sameNodes⟩ := movesInner.within _ held
  -- The oldest node is offered to the cache, and every other one is removed.
  have letGo : ∃ middle, (if log.previous = none then entered.giveOrRemove log
      else entered.rollbackLogUnpinAndRemove log) = some middle ∧
      Moves entered middle [log.blocknum] [] := by
    split
    · exact moves_giveOrRemove movesInner.ok (stillHeld.used List.mem_cons_self)
    · exact moves_remove movesInner.ok (stillHeld.used List.mem_cons_self)
  obtain ⟨middle, goes, movesNode⟩ := letGo
  obtain ⟨movesNode', -, sameOuter⟩ :=
    movesNode.within outer stillHeld
  refine ⟨middle, movesInner'.trans movesNode', ?_, ?_⟩
  · intro there member
    rw [sameOuter _ member, sameNodes _ (List.mem_cons_of_mem _ member), same _ (by simp [member])]
  · simp only [applyTxnFrom, pinned, verify_sequence owner, bind_runs]
    simp only [appliedInner, Option.bind_some, noted]
    by_cases alone : log.previous = none
    · simp only [if_pos alone] at goes ⊢
      simp only [goes, Option.bind_some]
    · simp only [if_neg alone] at goes ⊢
      simp only [goes, Option.bind_some]

/-- The spilled part of a transaction's log is applied exactly, and the transaction forgets it. -/
theorem applyTxnFrom_spilled (func : ApplyFunc) :
    ∀ (fuel : Nat) (info : RollInfo) {numNodes : Nat} {head next : Option Blocknum}
      {owned : List Blocknum} {items : List Item} {file : RollbackFile Item},
      Holds nodes (.chain txnid numNodes head next) owned items → FileOk file → Owned file owned →
      (∀ there ∈ owned, file.nodes there = nodes there) → owned.length ≤ fuel →
      info.spilledRollbackHead = head → info.spilledRollbackTail = next →
      info.currentRollback = none →
      ∃ after info', applyTxnFrom func txnid fuel false false info file numNodes next =
          some (after, info', items.map (func, ·)) ∧
        Moves file after owned [] ∧ info'.spilledRollbackHead = none ∧
        info'.spilledRollbackTail = none ∧ info'.currentRollback = none := by
  -- Each turn takes one node off the chain, so the induction is on the fuel.
  intro fuel
  induction fuel with
  | zero =>
    intro info numNodes head next owned items file holds ok held _ enough atHead atTail idle
    cases holds with
    | chainEnd => exact ⟨file, info, rfl, Moves.refl ok held, atHead, atTail, idle⟩
    | chainNode => simp at enough
  | succ fuel ih =>
    intro info numNodes head next owned items file holds ok held same enough atHead atTail idle
    cases holds with
    | chainEnd => exact ⟨file, info, rfl, Moves.refl ok held, atHead, atTail, idle⟩
    | @chainNode _ blocknum log older inner outer newer rest stored owner content behind =>
      simp only [List.length_append, List.length_cons] at enough
      have outside : blocknum ∉ outer := (List.nodup_cons.mp held.split.2.1.nodup).1
      have noted := noteHead_chain behind outside
      rw [← atHead] at noted
      obtain ⟨middle, moves, sameOuter, stepped⟩ := applyTxnFrom_node func fuel false
        ok held same stored owner content noted (by omega)
      rw [stepped]
      cases older with
      | none =>
        -- The head was reached, and nothing lies before it.
        obtain ⟨first, alone, rfl, rfl⟩ := behind.of_noHead
        refine ⟨middle, { info with spilledRollbackHead := none, spilledRollbackTail := none },
          ?_, moves, rfl, rfl, idle⟩
        cases fuel <;> simp [alone, applyTxnFrom]
      | some head =>
        obtain ⟨after, info', applied, movesOuter, noHead, noTail, noCurrent⟩ :=
          ih { info with spilledRollbackTail := log.previous } behind moves.ok moves.owned sameOuter
            (by omega) (by simpa using atHead) rfl idle
        refine ⟨after, info', ?_, moves.trans movesOuter, noHead, noTail, noCurrent⟩
        simp [applied]

/-- The whole log of a transaction is applied exactly, and the transaction forgets it. -/
theorem applyTxn_holds (func : ApplyFunc) {file : RollbackFile Item} {info : RollInfo}
    {owned : List Blocknum} {items : List Item} (ok : FileOk file) (held : Owned file owned)
    (holds : TxnHolds file.nodes txnid info owned items) :
    ∃ after info', file.applyTxn func txnid info = some (after, info', items.map (func, ·)) ∧
      Moves file after owned [] ∧ info'.spilledRollbackHead = none ∧
      info'.spilledRollbackTail = none ∧ info'.currentRollback = none := by
  -- One case for a log that was spilled and one for a log in a single node.
  have enough := held.length_le ok
  unfold applyTxn
  cases holds with
  | spilled idle chain =>
    simp only [idle, Option.isSome_none, Option.none_or]
    exact applyTxnFrom_spilled func _ info chain ok held (fun _ _ => rfl) enough rfl rfl idle
  | @current blocknum log inner outer newer rest here stored owner counted linked content behind =>
    simp only [List.length_append, List.length_cons] at enough
    have positive : 0 < inner.length + (outer.length + 1) := by omega
    obtain ⟨fuel, fueled⟩ : ∃ less : Nat, file.smallestNeverUsed = less + 1 :=
      Nat.exists_eq_succ_of_ne_zero (Nat.ne_of_gt (lt_of_lt_of_le positive enough))
    rw [fueled] at enough ⊢
    have outside : blocknum ∉ outer := (List.nodup_cons.mp held.split.2.1.nodup).1
    obtain ⟨middle, moves, sameOuter, stepped⟩ := applyTxnFrom_node func fuel true
      ok held (fun _ _ => rfl) stored owner content (noteHead_current behind outside) (by omega)
    obtain ⟨after, info', applied, movesOuter, noHead, noTail, noCurrent⟩ :=
      applyTxnFrom_spilled func fuel { info with currentRollback := none } behind moves.ok
        moves.owned sameOuter (by omega) rfl rfl rfl
    refine ⟨after, info', ?_, moves.trans movesOuter, noHead, noTail, noCurrent⟩
    simp only [here, Option.isSome_some, Option.some_or]
    rw [← counted, stepped]
    simp only [linked, if_true, Bool.false_eq_true, if_false, applied, bind_runs, List.map_append]

end RollbackFile

end Tokuft
