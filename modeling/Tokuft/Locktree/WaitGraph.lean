import Tokuft.Locktree.Locktree
import Tokuft.Library.AvoidingPaths

/-! The graph of transactions that wait for each other, and the search for a cycle in it. -/

namespace Tokuft

/-- The transactions of a set, from the least one on. -/
def txnidSetTxnids (txnids : List Nat) : List Nat := txnids.insertionSort (· ≤ ·)

/-- Fetch the transaction at a place of a set, where there has to be one. -/
def txnidSetGet (txnids : List Nat) (place : Nat) : Option Nat := do
  invariant (place < txnids.length)
  (txnidSetTxnids txnids)[place]?

/-- A transaction of the graph with those it waits for, and a mark for the search. -/
structure WfgNode where
  txnid : Nat
  edges : List Nat
  visited : Bool
  deriving DecidableEq, Repr

/-- The nodes of a graph, by transaction. -/
abbrev Wfg := List WfgNode

namespace Wfg

/-- Find the node of a transaction. -/
def findNode (graph : Wfg) (txnid : Nat) : Option WfgNode :=
  graph.find? fun node => node.txnid = txnid

/-- Whether a transaction has a node. -/
def nodeExists (graph : Wfg) (txnid : Nat) : Bool := (graph.findNode txnid).isSome

/-- Put a node before the first one of a greater transaction. -/
def insertNode (node : WfgNode) : Wfg → Wfg
  | [] => [node]
  | first :: rest =>
    if node.txnid < first.txnid then node :: first :: rest else first :: insertNode node rest

/-- Give a transaction a node if it has none. -/
def findCreateNode (graph : Wfg) (txnid : Nat) : Wfg :=
  if graph.nodeExists txnid then graph
  else insertNode { txnid, edges := [], visited := false } graph

/-- Change the node of a transaction. -/
def update (graph : Wfg) (txnid : Nat) (change : WfgNode → WfgNode) : Wfg :=
  graph.map fun node => if node.txnid = txnid then change node else node

/-- Add an edge from a transaction to one that it waits for. -/
def addEdge (graph : Wfg) (source target : Nat) : Wfg :=
  ((graph.findCreateNode source).findCreateNode target).update source fun node =>
    { node with edges := txnidSetAdd node.edges target }

/-- Mark the node of a transaction. -/
def setVisited (graph : Wfg) (txnid : Nat) (visited : Bool) : Wfg :=
  graph.update txnid fun node => { node with visited }

/-- Follow an edge in search of a target, unless it was found already or the node is on the path. -/
def searchEdge (search : Wfg → Nat → Option (Wfg × Bool)) (target : Nat) (state : Wfg × Bool)
    (edge : Nat) : Option (Wfg × Bool) :=
  if state.2 then some state
  else if target = edge then some (state.1, true)
  else match state.1.findNode edge with
    | some newHead => if newHead.visited then some (state.1, false) else search state.1 edge
    | none => some (state.1, false)

/-- Search a cycle through a target from a node on, marking the nodes of the path taken. -/
def cycleExistsFromNode (target : Nat) : Nat → Wfg → Nat → Option (Wfg × Bool)
  -- Every turn marks another node, so as many turns as there are nodes are enough.
  | 0, _, _ => none
  | fuel + 1, graph, head => do
    let node ← graph.findNode head
    let (graph, found) ← (txnidSetTxnids node.edges).foldlM
      (searchEdge (cycleExistsFromNode target fuel) target) (graph.setVisited head true, false)
    return (graph.setVisited head false, found)

/-- Search a cycle through a transaction. -/
def cycleExistsFromTxnid (graph : Wfg) (txnid : Nat) : Option Bool :=
  if graph.nodeExists txnid then do
    let (_, found) ← cycleExistsFromNode txnid (graph.length + 1) graph txnid
    return found
  else some false

end Wfg

end Tokuft
