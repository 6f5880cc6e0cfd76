import Mathlib
import FioRelic.Prototype.Steps

/-! The chain that Chronicle sends: the traces that no fork has discarded, and a writer
that follows it. -/
namespace FioRelic.Prototype
open Relational

/- `before` is what was stored before the start, and `last` the last block completed, or
the one before the last fork. -/
structure Chain where
  before : List TraceRow
  alive : List TraceRow
  discarded : List TraceRow
  last : Int
  deriving DecidableEq, Repr

namespace Chain

def above (before : List TraceRow) (last : Int) : Chain := ⟨before,[],[],last⟩

def after (c : Chain) : Message → Chain
  | .fork n =>
    { before := c.before.filter fun r => !decide (n ≤ r.blockNum)
      alive := c.alive.filter fun r => !decide (n ≤ r.blockNum)
      discarded := c.discarded ++ (c.before ++ c.alive).filter fun r => decide (n ≤ r.blockNum)
      last := n - 1 }
  | .txTrace json => match json.row with
    | some r => { c with alive := c.alive ++ [r] }
    | none => c
  | .blockCompleted json => { c with last := json.blockNum }
  | .malformed _ _ => c
  | .unknown => c

/- Blocks come in increasing order between forks, the traces of a block before the block
completes, and a seq is reused only after a fork. -/
def Accepts (c : Chain) : Message → Prop
  | .fork n => n ≤ c.last + 1
  | .txTrace json => c.last < json.blockNum ∧ ∀ r ∈ json.row, r.seq ∉ c.alive.map TraceRow.seq
  | .blockCompleted json => c.last < json.blockNum ∧ ∀ r ∈ c.alive, r.blockNum ≤ json.blockNum
  | .malformed _ _ => True
  | .unknown => True

instance (c : Chain) : (m : Message) → Decidable (c.Accepts m)
  | .fork n => inferInstanceAs (Decidable (n ≤ c.last + 1))
  | .txTrace json =>
    inferInstanceAs (Decidable (c.last < json.blockNum ∧ ∀ r ∈ json.row, r.seq ∉ c.alive.map TraceRow.seq))
  | .blockCompleted json =>
    inferInstanceAs (Decidable (c.last < json.blockNum ∧ ∀ r ∈ c.alive, r.blockNum ≤ json.blockNum))
  | .malformed _ _ => isTrue trivial
  | .unknown => isTrue trivial

end Chain

def follow (f : Writer × Chain) (call : Clock × Message) : Option (Writer × Chain) :=
  (f.1.step call).map fun w => (w,f.2.after call.2)

def Accepted (f : Writer × Chain) (call : Clock × Message) : Prop := f.2.Accepts call.2

def ForkHeeded (f : Writer × Chain) (call : Clock × Message) : Prop := match call.2 with
  | .fork n => f.1.irreversible < f.1.confirmedBlock ∨
      (f.1.confirmedBlock < n ∧ ∀ r ∈ f.2.alive, r.blockNum < n)
  | _ => True

instance (f : Writer × Chain) (call : Clock × Message) : Decidable (Accepted f call) := by
  unfold Accepted
  infer_instance

instance (f : Writer × Chain) (call : Clock × Message) : Decidable (ForkHeeded f call) := by
  unfold ForkHeeded
  split <;> infer_instance

section Rows
variable {json : Json} {r : TraceRow} {x y : Receipt}

theorem rowSource (row : json.row = some r) : r.blockNum = json.blockNum ∧ r.trxId = r.trace.id ∧ r.trace = json := by
  unfold Json.row at row
  split at row
  · split at row <;> cases row
    exact ⟨rfl,rfl,rfl⟩
  · cases row

theorem seqsTraced {rows : List TraceRow} (seqs : (rows.map TraceRow.seq).Nodup) (fresh : r.seq ∉ rows.map TraceRow.seq) :
    ((rows ++ [r]).map TraceRow.seq).Nodup := by
  rw [List.map_append, List.map_singleton, ← List.concat_eq_append]
  exact List.Nodup.concat fresh seqs

theorem receiptSource (mem : x ∈ r.receipts) : x.seq = r.seq ∧ x.blockNum = r.blockNum ∧ x.blockTime = r.blockTime := by
  obtain ⟨atrace,_,rfl⟩ := List.mem_map.mp mem
  exact ⟨rfl,rfl,rfl⟩

theorem receiptUnique (left : x ∈ r.receipts) (right : y ∈ r.receipts) (same : x.key = y.key) : x = y := by
  obtain ⟨seq,block,time⟩ := receiptSource left
  obtain ⟨seq',block',time'⟩ := receiptSource right
  simp only [Receipt.key, Prod.mk.injEq] at same
  cases x
  cases y
  simp_all

end Rows

theorem skippedChain {c : Chain} {json : Json} {confirmed : Int} (behind : confirmed ≤ c.last)
    (accepts : c.Accepts (.txTrace json)) (known : json.blockNum ≤ confirmed ∨ json.row = none) :
    c.after (.txTrace json) = c := by
  rcases known with old | row
  · exact absurd accepts.1 (Int.not_lt.mpr (Int.le_trans old behind))
  · simp [Chain.after, row]

theorem followed {f f' : Writer × Chain} {call : Clock × Message} (ok : follow f call = some f') :
    ∃ v, Writer.Processed call.1 f.1 call.2 f'.1 v ∧ f'.2 = f.2.after call.2 := by
  obtain ⟨w,stepped,rfl⟩ := Option.map_eq_some_iff.mp ok
  obtain ⟨v,processed⟩ := Writer.stepped stepped
  exact ⟨v,processed,rfl⟩

def paid (blockNum : Int) (id : String) : Json :=
  ⟨"\x7b\x7d",blockNum,"2020-03-24T00:00:00",id,"executed",[⟨"fio.token","trnsfiopubky","alice",1,7⟩]⟩

def paidRow (blockNum : Int) (id : String) : TraceRow := ⟨7,blockNum,"2020-03-24 00:00:00",id,paid blockNum id⟩

end FioRelic.Prototype
