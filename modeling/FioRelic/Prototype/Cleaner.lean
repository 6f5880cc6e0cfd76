import FioRelic.Prototype.Writer

/-! The cleaner: a pass reads the lowest LIB of SYNC and the oldest block, and then deletes
ten blocks at a time, each with a commit of its own. -/
namespace FioRelic.Prototype
open Relational

/- `minBlock` and `uptoBlock` are the locals of a pass; while the first is below the second
its inner loop goes on. -/
structure Cleaner where
  connection : Connection Store
  keepBlocks : Int
  lastIrrev : Int
  minBlock : Int
  uptoBlock : Int
  deriving DecidableEq, Repr

namespace Cleaner

def fresh (keepDays : Int) (s : Store) : Cleaner := ⟨⟨s,s⟩,keepBlocksOf keepDays,0,0,0⟩

def look (c : Cleaner) : Except Thrown Cleaner := do
  let minIrrev ← getInt c.connection.working.minIrreversible
  let c := { c with connection := c.connection.commit }
  if minIrrev ≤ c.lastIrrev then .ok c
  else do
    let minBlock ← getInt c.connection.working.minTxBlock
    .ok { c with lastIrrev := minIrrev, uptoBlock := narrow (minIrrev - c.keepBlocks), minBlock := minBlock }

def deleteUpto (c : Cleaner) : Int :=
  let deleteUpto := narrow (c.minBlock + 10)
  if c.uptoBlock < deleteUpto then c.uptoBlock else deleteUpto

def prune (c : Cleaner) : Cleaner :=
  let connection := c.connection.execute (Store.pruneTransactions c.deleteUpto)
  let connection := connection.execute (Store.pruneReceipts c.deleteUpto)
  let connection := connection.execute (Store.pruneReceipts c.deleteUpto)
  { c with connection := connection.commit, minBlock := c.deleteUpto }

def turn (c : Cleaner) : Except Thrown Cleaner := if c.minBlock < c.uptoBlock then .ok c.prune else c.look

inductive Event where
  | turn
  | elsewhere (change : Store → Store)

def step (c : Cleaner) : Event → Option Cleaner
  | .turn => match c.turn with
    | .ok c' => some c'
    | .error _ => none
  | .elsewhere change => some { c with connection := c.connection.elsewhere change }

end Cleaner
end FioRelic.Prototype
