import FioRelic.Prototype.Master
import FioRelic.Prototype.Demotion
import FioRelic.Prototype.Retention

/-! Restarts: a master may die between two messages or while it works on one. The next
process goes on from the tables, and Chronicle sends again what it has no
acknowledgement for. A session of the database may also be lost without the process:
then the master works on in a new session, and the rows it had open are gone. -/
namespace FioRelic.Prototype
open Relational

/- `again` are the rows of the chain that have to be sent again, `head` is the last block
of the chain that was ever sent, `acked` the highest one that was ever acknowledged, and
`lost` the rows that were open when a session was lost. -/
structure Chronicle where
  chain : Chain
  again : List TraceRow
  head : Int
  acked : Int
  lost : List TraceRow
  deriving DecidableEq, Repr

namespace Chronicle

def above (last : Int) : Chronicle := ⟨Chain.above [] last,[],last,last,[]⟩

def rows (c : Chronicle) : List TraceRow := c.chain.alive ++ c.again

def headAfter (c : Chronicle) : Message → Int
  | .fork n => n - 1
  | .blockCompleted json => max c.head json.blockNum
  | _ => c.head

def againAfter (c : Chronicle) : Message → List TraceRow
  | .fork n => c.again.filter fun r => !decide (n ≤ r.blockNum)
  | .txTrace json => c.again.filter fun r => !decide (json.row = some r)
  | _ => c.again

def lostAfter (c : Chronicle) : Message → List TraceRow
  | .fork n => c.lost.filter fun r => !decide (n ≤ r.blockNum)
  | _ => c.lost

def after (c : Chronicle) (m : Message) (ack : Int) : Chronicle where
  chain := c.chain.after m
  again := c.againAfter m
  head := c.headAfter m
  acked := min (if 0 ≤ ack then max c.acked ack else c.acked) (c.headAfter m)
  lost := c.lostAfter m

def rewound (c : Chronicle) (resume : Int) : Chronicle :=
  { c with
    chain := { c.chain with alive := c.rows.filter fun r => decide (r.blockNum ≤ resume), last := resume }
    again := c.rows.filter fun r => !decide (r.blockNum ≤ resume) }

def losing (c : Chronicle) (connection : Connection Store) : Chronicle :=
  { c with lost := c.lost ++ connection.working.transactions.filter fun r =>
      decide (r ∉ connection.committed.transactions) }

def Due (c : Chronicle) (spared : Int → Prop) (r : TraceRow) : Prop := spared r.blockNum ∧ r ∉ c.lost

def Resends (c : Chronicle) : Message → Prop
  | .fork n => 0 ≤ n
  | .txTrace json => ∀ r ∈ json.row, r ∈ c.again ∨ (r.seq ∉ c.again.map TraceRow.seq ∧ c.head < r.blockNum)
  | .blockCompleted json => 0 ≤ json.blockNum ∧ ∀ r ∈ c.again, json.blockNum < r.blockNum
  | .malformed _ _ => True
  | .unknown => True

def Accepts (c : Chronicle) (m : Message) : Prop := c.chain.Accepts m ∧ c.Resends m

instance (c : Chronicle) : (m : Message) → Decidable (c.Resends m)
  | .fork n => inferInstanceAs (Decidable (0 ≤ n))
  | .txTrace json => inferInstanceAs (Decidable
      (∀ r ∈ json.row, r ∈ c.again ∨ (r.seq ∉ c.again.map TraceRow.seq ∧ c.head < r.blockNum)))
  | .blockCompleted json => inferInstanceAs (Decidable (0 ≤ json.blockNum ∧ ∀ r ∈ c.again, json.blockNum < r.blockNum))
  | .malformed _ _ => isTrue trivial
  | .unknown => isTrue trivial

instance (c : Chronicle) (m : Message) : Decidable (c.Accepts m) := inferInstanceAs (Decidable (_ ∧ _))

end Chronicle

/- Where a process dies: between two messages, before the answer to one has gone out, or
after the first commit of a fork, which is then to be sent again. -/
inductive Death where
  | idle
  | during (now : Clock) (m : Message)
  | forking
  deriving DecidableEq, Repr

def Death.leaves (f : Writer × Chronicle) : Death → Writer × Chronicle
  | .idle => f
  | .during now m => ((f.1.onRead now m).1,f.2.after m (-1))
  | .forking => (f.1.commit,f.2)

/- processData finds the session gone and reconnects: the process goes on with all that it
has in memory, and the new session has no transaction open. -/
inductive Incident where
  | message (now : Clock) (m : Message)
  | reconnected
  | restart (death : Death) (resume : Int)
  deriving DecidableEq, Repr

namespace Incident

def step (o : Options) (f : Writer × Chronicle) : Incident → Option (Writer × Chronicle)
  | .message now m => match f.1.onRead now m with
    | (w,.ok v) => some (w,f.2.after m v)
    | (_,.error _) => none
  | .reconnected => some ({ f.1 with connection := f.1.connection.rollback },f.2.losing f.1.connection)
  | .restart death resume => match Writer.initializeWriter o (death.leaves f).1.connection.committed with
    | .ok w => some (w,(death.leaves f).2.rewound resume)
    | .error _ => none

def Heeded (f : Writer × Chronicle) : Message → Prop
  | .fork n => f.1.irreversible < f.1.confirmedBlock ∨ (f.1.confirmedBlock < n ∧ ∀ r ∈ f.2.rows, r.blockNum < n)
  | _ => True

def Regular (f : Writer × Chronicle) : Incident → Prop
  | .message _ m => f.2.Accepts m ∧ Heeded f m
  | .reconnected => True
  | .restart death resume => resume ≤ (death.leaves f).2.acked ∧ match death with
    | .during _ m => f.2.Accepts m ∧ Heeded f m
    | _ => True

instance (f : Writer × Chronicle) : (m : Message) → Decidable (Heeded f m)
  | .fork n => inferInstanceAs (Decidable
      (f.1.irreversible < f.1.confirmedBlock ∨ (f.1.confirmedBlock < n ∧ ∀ r ∈ f.2.rows, r.blockNum < n)))
  | .txTrace _ => isTrue trivial
  | .blockCompleted _ => isTrue trivial
  | .malformed _ _ => isTrue trivial
  | .unknown => isTrue trivial

instance (f : Writer × Chronicle) : (i : Incident) → Decidable (Regular f i)
  | .message _ m => inferInstanceAs (Decidable (f.2.Accepts m ∧ Heeded f m))
  | .reconnected => isTrue trivial
  | .restart .idle resume => inferInstanceAs (Decidable (resume ≤ f.2.acked ∧ True))
  | .restart (.during now m) resume =>
    inferInstanceAs (Decidable (resume ≤ ((Death.during now m).leaves f).2.acked ∧ f.2.Accepts m ∧ Heeded f m))
  | .restart .forking resume => inferInstanceAs (Decidable (resume ≤ f.2.acked ∧ True))

end Incident

structure Exact (due : TraceRow → Prop) (s : Store) (rows : List TraceRow) (m : Int) : Prop where
  known : ∀ r ∈ s.transactions, r ∈ rows
  once : (s.transactions.map TraceRow.seq).Nodup
  receipts : ∀ x, x ∈ s.receipts ↔ ∃ r ∈ s.transactions, x ∈ r.receipts
  upto : ∀ r ∈ rows, due r → r.blockNum ≤ m → r ∈ s.transactions

def Seated (sourceId m : Int) (s : Store) : Prop :=
  ∃ own, (s.sync.find? fun r => r.sourceid == sourceId) = some own ∧ own.isMaster ≠ 0 ∧ own.blockNum ≤ m

section Tables
variable {due due' : TraceRow → Prop} {s s' : Store} {rows rows' buffer : List TraceRow} {m m' n n' sourceId : Int}
  {r : TraceRow}

theorem Exact.congr (held : Exact due s rows m) (same : ∀ r, r ∈ rows' ↔ r ∈ rows) : Exact due s rows' m where
  known r mem := (same r).mpr (held.known r mem)
  once := held.once
  receipts := held.receipts
  upto r mem := held.upto r ((same r).mp mem)

theorem Exact.bound (held : Exact due s rows m)
    (upto : ∀ r ∈ rows, due' r → r.blockNum ≤ m' → r ∈ s.transactions) : Exact due' s rows m' :=
  ⟨held.known,held.once,held.receipts,upto⟩

theorem Exact.fresh (held : Exact due s rows m) (past : m < r.blockNum)
    (grown : ∀ x, x ∈ rows' ↔ x = r ∨ x ∈ rows) : Exact due s rows' m where
  known x mem := (grown x).mpr (Or.inr (held.known x mem))
  once := held.once
  receipts := held.receipts
  upto x mem left low := by
    rcases (grown x).mp mem with rfl | old
    · exact absurd low (Int.not_le.mpr past)
    · exact held.upto x old left low

theorem receiptSingle {r r' : TraceRow} {x y : Receipt} (seqs : (rows.map TraceRow.seq).Nodup) (mem : r ∈ rows)
    (mem' : r' ∈ rows) (own : x ∈ r.receipts) (own' : y ∈ r'.receipts) (same : x.key = y.key) : x = y := by
  have seq : r.seq = r'.seq := by
    rw [← (receiptSource own).1, ← (receiptSource own').1]
    exact congrArg (fun k => k.2.2.2.2) same
  obtain rfl := List.inj_on_of_nodup_map seqs mem mem' seq
  exact receiptUnique own own' same

theorem Exact.sent (held : Exact due s rows m) (seqs : (rows.map TraceRow.seq).Nodup) (known : ∀ r ∈ buffer, r ∈ rows)
    (transactions : s'.transactions = insertBatch TraceRow.seq s.transactions buffer)
    (receipts : s'.receipts = insertBatch Receipt.key s.receipts (buffer.flatMap TraceRow.receipts)) :
    Exact due s' rows m ∧ ∀ r, r ∈ s'.transactions ↔ r ∈ s.transactions ∨ r ∈ buffer := by
  have sources : ∀ r, r ∈ s.transactions ∨ r ∈ buffer → r ∈ rows := fun r from' => from'.elim (held.known r) (known r)
  have grown : ∀ r, r ∈ s'.transactions ↔ r ∈ s.transactions ∨ r ∈ buffer := by
    intro r
    rw [transactions]
    exact insertBatchExact fun x y inX inY same => List.inj_on_of_nodup_map seqs (sources x inX) (sources y inY) same
  have listed : ∀ x, x ∈ s.receipts ∨ x ∈ buffer.flatMap TraceRow.receipts ↔
      ∃ r, (r ∈ s.transactions ∨ r ∈ buffer) ∧ x ∈ r.receipts := by
    intro x
    rw [held.receipts, List.mem_flatMap]
    constructor
    · rintro (⟨r,mem,own⟩ | ⟨r,mem,own⟩)
      · exact ⟨r,Or.inl mem,own⟩
      · exact ⟨r,Or.inr mem,own⟩
    · rintro ⟨r,mem | mem,own⟩
      · exact Or.inl ⟨r,mem,own⟩
      · exact Or.inr ⟨r,mem,own⟩
  refine ⟨{
    known := fun r mem => sources r ((grown r).mp mem)
    once := transactions ▸ insertBatchNodup held.once
    receipts := fun x => ?_
    upto := fun r mem left low => (grown r).mpr (Or.inl (held.upto r mem left low)) },grown⟩
  rw [receipts, insertBatchExact fun x y inX inY same => ?_, listed]
  · simp only [grown]
  · obtain ⟨r,mem,own⟩ := (listed x).mp inX
    obtain ⟨r',mem',own'⟩ := (listed y).mp inY
    exact receiptSingle seqs (sources r mem) (sources r' mem') own own' same

theorem Exact.forked (held : Exact due s rows m)
    (all : ∀ r ∈ rows, due' r → r.blockNum < n → r ∈ s.transactions) :
    Exact due' (((s.forkReceipts n).forkTransactions n).updSyncFork n' sourceId)
      (rows.filter fun r => !decide (n ≤ r.blockNum)) m' where
  known r mem := by
    obtain ⟨stored,early⟩ := List.mem_filter.mp mem
    exact List.mem_filter.mpr ⟨held.known r stored,early⟩
  once := held.once.sublist ((List.filter_sublist).map _)
  receipts x := by
    simp only [Store.updSyncFork, Store.forkTransactions, Store.forkReceipts, List.mem_filter, held.receipts]
    constructor
    · rintro ⟨⟨r,mem,listed⟩,early⟩
      exact ⟨r,⟨mem,(receiptSource listed).2.1 ▸ early⟩,listed⟩
    · rintro ⟨r,⟨mem,early⟩,listed⟩
      exact ⟨⟨r,mem,listed⟩,(receiptSource listed).2.1 ▸ early⟩
  upto r mem left _ := by
    obtain ⟨known,early⟩ := List.mem_filter.mp mem
    have low : r.blockNum < n := by simpa using early
    exact List.mem_filter.mpr ⟨all r known left low,early⟩

theorem Exact.trimmed {keep : Int → Bool} (held : Exact due s rows m) (spares : ∀ r, due r → keep r.blockNum = true)
    (transactions : s'.transactions = s.transactions.filter fun r => keep r.blockNum)
    (receipts : s'.receipts = s.receipts.filter fun x => keep x.blockNum) : Exact due s' rows m where
  known r mem := held.known r (List.mem_filter.mp (transactions ▸ mem)).1
  once := by
    rw [transactions]
    exact held.once.sublist ((List.filter_sublist).map _)
  receipts x := by
    simp only [transactions, receipts, List.mem_filter, held.receipts]
    constructor
    · rintro ⟨⟨r,mem,listed⟩,kept⟩
      exact ⟨r,⟨mem,(receiptSource listed).2.1 ▸ kept⟩,listed⟩
    · rintro ⟨r,⟨mem,kept⟩,listed⟩
      exact ⟨⟨r,mem,listed⟩,(receiptSource listed).2.1 ▸ kept⟩
  upto r mem left low := by
    rw [transactions]
    exact List.mem_filter.mpr ⟨held.upto r mem left low,spares r left⟩

theorem Seated.mono (seated : Seated sourceId m s) (le : m ≤ m') : Seated sourceId m' s := by
  obtain ⟨own,found,seat,low⟩ := seated
  exact ⟨own,found,seat,Int.le_trans low le⟩

theorem Seated.sync (seated : Seated sourceId m s) (same : s'.sync = s.sync) : Seated sourceId m s' := by
  unfold Seated
  rwa [same]

theorem Seated.forked (seated : Seated sourceId m s) : Seated sourceId n (s.updSyncFork n sourceId) := by
  obtain ⟨own,found,seat,_⟩ := seated
  exact ⟨{ own with blockNum := n },by rw [Writer.updSyncForkOwn, found]; rfl,seat,Int.le_refl _⟩

end Tables

namespace Writer

/- A master with rows in the open transaction and in its buffers. What it confirmed and
what it acknowledged is committed, and of the completed blocks only the last few are not. -/
structure Resumes (w : Writer) (spared : Int → Prop) (c : Chronicle) : Prop where
  master : w.iAmMaster = true
  traces : w.noTraces = false
  confirmed : w.confirmedBlock ≤ c.head
  acked : c.acked ≤ c.head
  last : c.chain.last ≤ c.head
  seqs : (c.rows.map TraceRow.seq).Nodup
  later : ∀ r ∈ c.again, c.chain.last < r.blockNum
  committed : Exact (c.Due spared) w.connection.committed c.rows (max c.acked w.confirmedBlock)
  working : Exact (c.Due spared) w.connection.working c.rows (max c.acked w.confirmedBlock)
  seated : Seated w.sourceId w.confirmedBlock w.connection.committed ∧
    Seated w.sourceId w.confirmedBlock w.connection.working
  kept : ∀ r ∈ c.chain.alive, c.Due spared r →
    r ∈ w.connection.working.transactions ∨ r ∈ w.insertTransactions
  buffered : ∀ r ∈ w.insertTransactions, r ∈ c.chain.alive ∧ c.chain.last < r.blockNum
  pending : w.insertReceipts = w.insertTransactions.flatMap TraceRow.receipts
  risked : (∀ r ∈ c.chain.alive, c.Due spared r → r.blockNum ≤ c.chain.last →
      r ∈ w.connection.committed.transactions) ∨
    c.chain.last < w.confirmedBlock + w.ackEvery

section Steps
variable {w w' u : Writer} {spared : Int → Prop} {c : Chronicle} {json : BlockCompleted} {n ack v : Int}
  {now : Clock} {m : Message} {r : TraceRow}

theorem silentAcked (silent : ack < 0) (acked : c.acked ≤ c.head) (head : c.head ≤ c.headAfter m) :
    (c.after m ack).acked = c.acked := by
  simp only [Chronicle.after, if_neg (Int.not_le.mpr silent)]
  omega

theorem dueForked (due : (c.after (.fork n) ack).Due spared r) (low : r.blockNum < n) : c.Due spared r := by
  refine ⟨due.1,fun lost => due.2 (List.mem_filter.mpr ⟨lost,?_⟩)⟩
  simp only [Bool.not_eq_true', decide_eq_false_iff_not]
  omega

theorem forkStored (held : w.Resumes spared c) (accepts : n ≤ c.chain.last + 1) :
    ∀ r ∈ c.rows, (c.after (.fork n) ack).Due spared r → r.blockNum < n → r ∈ w.connection.working.transactions := by
  intro r mem due low
  have left := dueForked due low
  rcases List.mem_append.mp mem with alive | again
  · rcases held.kept r alive left with stored | waiting
    · exact stored
    · have past := (held.buffered r waiting).2
      omega
  · have past := held.later r again
    omega

theorem forkLater (held : w.Resumes spared c) (accepts : n ≤ c.chain.last + 1) :
    ∀ r ∈ (c.after (.fork n) ack).again, (c.after (.fork n) ack).chain.last < r.blockNum := by
  intro r mem
  have past := held.later r (List.mem_filter.mp mem).1
  change n - 1 < r.blockNum
  omega

theorem resumesForked (held : w.Resumes spared c) (accepts : n ≤ c.chain.last + 1) :
    (w.forked n).Resumes spared (c.after (.fork n) ack) := by
  have rows : (c.after (.fork n) ack).rows = c.rows.filter fun r => !decide (n ≤ r.blockNum) :=
    (List.filter_append ..).symm
  have tables : (w.forked n).connection =
      ⟨((w.connection.working.forkReceipts n).forkTransactions n).updSyncFork (n - 1) w.sourceId,
        ((w.connection.working.forkReceipts n).forkTransactions n).updSyncFork (n - 1) w.sourceId⟩ := by
    simp [forked, forking, held.master, Connection.execute, Connection.commit]
  have exact : ∀ m', Exact ((c.after (.fork n) ack).Due spared)
      (((w.connection.working.forkReceipts n).forkTransactions n).updSyncFork (n - 1) w.sourceId)
      (c.after (.fork n) ack).rows m' := fun m' => rows ▸ held.working.forked (forkStored held accepts)
  have seat : Seated w.sourceId (n - 1)
      (((w.connection.working.forkReceipts n).forkTransactions n).updSyncFork (n - 1) w.sourceId) :=
    Seated.forked (held.seated.2.sync rfl)
  have stored : ∀ r ∈ (c.after (.fork n) ack).chain.alive, (c.after (.fork n) ack).Due spared r → r ∈
      (((w.connection.working.forkReceipts n).forkTransactions n).updSyncFork (n - 1) w.sourceId).transactions :=
    fun r mem left => (exact r.blockNum).upto r (List.mem_append_left _ mem) left (Int.le_refl _)
  exact {
    master := held.master
    traces := held.traces
    confirmed := Int.le_refl _
    acked := min_le_right _ _
    last := Int.le_refl _
    seqs := rows ▸ held.seqs.sublist ((List.filter_sublist).map _)
    later := forkLater held accepts
    committed := tables ▸ exact _
    working := tables ▸ exact _
    seated := tables ▸ ⟨seat,seat⟩
    kept := fun r mem left => Or.inl (tables ▸ stored r mem left)
    buffered := fun r mem => by cases mem
    pending := rfl
    risked := Or.inl fun r mem left _ => tables ▸ stored r mem left }

theorem resumesIgnored (held : w.Resumes spared c) (accepts : n ≤ c.chain.last + 1)
    (nothing : w.confirmedBlock < n ∧ ∀ r ∈ c.rows, r.blockNum < n) :
    w.ignored.Resumes spared (c.after (.fork n) ack) := by
  have rows : (c.after (.fork n) ack).rows = c.rows := by
    refine (List.filter_append ..).symm.trans (List.filter_eq_self.mpr fun r mem => ?_)
    have early := nothing.2 r mem
    simp only [Bool.not_eq_true', decide_eq_false_iff_not]
    omega
  have stored : ∀ r ∈ c.rows, (c.after (.fork n) ack).Due spared r → r ∈ w.connection.working.transactions :=
    fun r mem left => forkStored held accepts r mem left (nothing.2 r mem)
  have exact : ∀ m', Exact ((c.after (.fork n) ack).Due spared) w.connection.working (c.after (.fork n) ack).rows m' :=
    fun m' => rows ▸ held.working.bound fun r mem left _ => stored r mem left
  have alive : ∀ r ∈ (c.after (.fork n) ack).chain.alive, (c.after (.fork n) ack).Due spared r →
      r ∈ w.connection.working.transactions := fun r mem => stored r (rows ▸ List.mem_append_left _ mem)
  exact {
    master := held.master
    traces := held.traces
    confirmed := Int.le_sub_one_of_lt nothing.1
    acked := min_le_right _ _
    last := Int.le_refl _
    seqs := rows ▸ held.seqs
    later := forkLater held accepts
    committed := exact _
    working := exact _
    seated := ⟨held.seated.2,held.seated.2⟩
    kept := fun r mem left => Or.inl (alive r mem left)
    buffered := by
      intro r mem
      obtain ⟨chained,past⟩ := held.buffered r mem
      have early := nothing.2 r (List.mem_append_left _ chained)
      omega
    pending := held.pending
    risked := Or.inl fun r mem left _ => alive r mem left }

section Traced
variable {json : Json}

theorem tracedChain (row : json.row = some r) :
    (c.after (.txTrace json) ack).chain = { c.chain with alive := c.chain.alive ++ [r] } := by
  simp [Chronicle.after, Chain.after, row]

theorem tracedAgain (row : json.row = some r) {x : TraceRow} :
    x ∈ (c.after (.txTrace json) ack).again ↔ x ∈ c.again ∧ r ≠ x := by
  simp [Chronicle.after, Chronicle.againAfter, row]

theorem tracedRows (row : json.row = some r) {x : TraceRow} :
    x ∈ (c.after (.txTrace json) ack).rows ↔ x = r ∨ x ∈ c.rows := by
  simp only [Chronicle.rows, List.mem_append, tracedAgain row, tracedChain row, List.mem_singleton]
  by_cases own : r = x
  · simp [own]
  · simp [own, Ne.symm own]

theorem tracedSeqs (row : json.row = some r) (held : w.Resumes spared c) (accepts : c.Accepts (.txTrace json)) :
    ((c.after (.txTrace json) ack).rows.map TraceRow.seq).Nodup := by
  have seqs := held.seqs
  rw [Chronicle.rows, List.map_append, List.nodup_append] at seqs
  have alone : ∀ x ∈ c.again, r ≠ x → x.seq ≠ r.seq := by
    intro x mem other same
    rcases accepts.2 r row with again | ⟨fresh,_⟩
    · exact other (List.inj_on_of_nodup_map seqs.2.1 again mem same.symm)
    · exact fresh (List.mem_map.mpr ⟨x,mem,same⟩)
  have again : ((c.after (.txTrace json) ack).again.map TraceRow.seq).Nodup :=
    seqs.2.1.sublist ((List.filter_sublist).map _)
  rw [Chronicle.rows, List.map_append, List.nodup_append, tracedChain row]
  refine ⟨seqsTraced seqs.1 (accepts.1.2 r row),again,?_⟩
  intro left inLeft right inRight
  obtain ⟨y,memY,rfl⟩ := List.mem_map.mp inRight
  obtain ⟨old,other⟩ := (tracedAgain row).mp memY
  rw [List.map_append, List.map_singleton] at inLeft
  rcases List.mem_append.mp inLeft with alive | new
  · exact seqs.2.2 _ alive _ (List.mem_map_of_mem old)
  · rw [List.mem_singleton.mp new]
    exact (alone y old other).symm

/- A row that is sent again is known to the tables as before, and a new one is past what
has been committed. -/
theorem tracedExact (row : json.row = some r) {s : Store} (held : w.Resumes spared c)
    (accepts : c.Accepts (.txTrace json))
    (silent : ack < 0) (exact : Exact (c.Due spared) s c.rows (max c.acked w.confirmedBlock)) :
    Exact (c.Due spared) s (c.after (.txTrace json) ack).rows
      (max (c.after (.txTrace json) ack).acked w.confirmedBlock) := by
  rw [silentAcked silent held.acked (Int.le_refl _)]
  rcases accepts.2 r row with again | ⟨_,past⟩
  · refine exact.congr fun x => (tracedRows row).trans ⟨?_,Or.inr⟩
    rintro (rfl | mem)
    · exact List.mem_append_right _ again
    · exact mem
  · refine exact.fresh ?_ fun x => tracedRows row
    exact Int.lt_of_le_of_lt (max_le held.acked held.confirmed) past

theorem resumesSkipped (row : json.row = some r) (held : w.Resumes spared c) (accepts : c.Accepts (.txTrace json))
    (silent : ack < 0) (known : json.blockNum ≤ w.confirmedBlock) : w.Resumes spared (c.after (.txTrace json) ack) := by
  have low : r.blockNum ≤ w.confirmedBlock := (rowSource row).1 ▸ known
  have sent : r ∈ c.rows := by
    rcases accepts.2 r row with again | ⟨_,past⟩
    · exact List.mem_append_right _ again
    · exact absurd (Int.le_trans low held.confirmed) (Int.not_le.mpr past)
  have covered := Int.le_trans low (Int.le_max_right c.acked _)
  exact { held with
    acked := min_le_right _ _
    last := by
      rw [tracedChain row]
      exact held.last
    seqs := tracedSeqs row held accepts
    later := by
      rw [tracedChain row]
      exact fun x mem => held.later x ((tracedAgain row).mp mem).1
    committed := tracedExact row held accepts silent held.committed
    working := tracedExact row held accepts silent held.working
    kept := by
      rw [tracedChain row]
      intro x mem left
      rcases List.mem_append.mp mem with alive | new
      · exact held.kept x alive left
      · obtain rfl := List.mem_singleton.mp new
        exact Or.inl (held.working.upto x sent left covered)
    buffered := by
      rw [tracedChain row]
      exact fun x mem => ⟨List.mem_append_left _ (held.buffered x mem).1,(held.buffered x mem).2⟩
    risked := by
      rw [tracedChain row]
      refine held.risked.imp_left fun stored x mem left past => ?_
      rcases List.mem_append.mp mem with alive | new
      · exact stored x alive left past
      · obtain rfl := List.mem_singleton.mp new
        exact held.committed.upto x sent left covered }

theorem resumesTraced (row : json.row = some r) (held : w.Resumes spared c) (accepts : c.Accepts (.txTrace json))
    (silent : ack < 0) :
    (w.traced r).Resumes spared (c.after (.txTrace json) ack) := by
  obtain ⟨block,trx,_⟩ := rowSource row
  have past : c.chain.last < r.blockNum := block ▸ accepts.1.1
  have kept : w.traced r = { w with
      insertTransactions := w.insertTransactions ++ [r]
      insertReceipts := w.insertReceipts ++ r.receipts
      upsertRecvSeqMax := r.trace.actionTraces.foldl
        (fun m atrace => upsert Prod.fst m (atrace.receiver,atrace.recvSequence)) w.upsertRecvSeqMax } := by
    simp [traced, saved, saveTrace, held.master, held.traces, TraceRow.receipts, ← trx]
  rw [kept]
  exact {
    master := held.master
    traces := held.traces
    confirmed := held.confirmed
    acked := min_le_right _ _
    last := by
      rw [tracedChain row]
      exact held.last
    seqs := tracedSeqs row held accepts
    later := by
      rw [tracedChain row]
      exact fun x mem => held.later x ((tracedAgain row).mp mem).1
    committed := tracedExact (w := w) row held accepts silent held.committed
    working := tracedExact (w := w) row held accepts silent held.working
    seated := held.seated
    kept := by
      rw [tracedChain row]
      intro x mem left
      rcases List.mem_append.mp mem with alive | new
      · exact (held.kept x alive left).imp_right (List.mem_append_left _)
      · exact Or.inr (List.mem_append_right _ new)
    buffered := by
      rw [tracedChain row]
      intro x mem
      rcases List.mem_append.mp mem with old | new
      · exact ⟨List.mem_append_left _ (held.buffered x old).1,(held.buffered x old).2⟩
      · exact ⟨List.mem_append_right _ new,List.mem_singleton.mp new ▸ past⟩
    pending := by simp [held.pending]
    risked := by
      rw [tracedChain row]
      refine held.risked.imp_left fun stored x mem left low => ?_
      rcases List.mem_append.mp mem with alive | new
      · exact stored x alive left low
      · rw [List.mem_singleton.mp new] at low
        exact absurd past (Int.not_lt.mpr low) }

end Traced

theorem quietAfter (held : w.Resumes spared c) (silent : ack < 0) (chain : c.chain.after m = c.chain)
    (again : c.againAfter m = c.again) (head : c.headAfter m = c.head) (lost : c.lostAfter m = c.lost) :
    c.after m ack = c := by
  have acked := silentAcked (m := m) silent held.acked (Int.le_of_eq head.symm)
  cases c
  simp_all [Chronicle.after]

theorem rowlessAfter {json : Json} (held : w.Resumes spared c) (silent : ack < 0) (row : json.row = none) :
    c.after (.txTrace json) ack = c :=
  quietAfter held silent (by simp [Chain.after, row]) (by simp [Chronicle.againAfter, row]) rfl rfl

theorem takenSent (json : BlockCompleted) (held : w.Resumes spared c) :
    (w.taken json).connection.working.sync = w.connection.working.sync ∧
    Exact (c.Due spared) (w.taken json).connection.working c.rows (max c.acked w.confirmedBlock) ∧
      ∀ r, r ∈ (w.taken json).connection.working.transactions ↔
        r ∈ w.connection.working.transactions ∨ r ∈ w.insertTransactions := by
  have pending := held.pending
  refine ⟨takenSync,held.working.sent held.seqs
    (fun r mem => List.mem_append_left _ (held.buffered r mem).1) ?_ ?_⟩
  · cases buffer : w.insertTransactions with
    | nil => simp [taken, sending, cleaning, Connection.execute, held.master, buffer, insertBatch]
    | cons r rest =>
      simp [taken, sending, cleaning, Connection.execute, held.master, buffer, Store.insertTransactions,
        Store.insertReceipts, Store.insertRecvSeqMax]
  · rw [← pending]
    cases buffer : w.insertTransactions with
    | nil =>
      rw [buffer] at pending
      simp [taken, sending, cleaning, Connection.execute, held.master, buffer, pending, insertBatch]
    | cons r rest =>
      simp [taken, sending, cleaning, Connection.execute, held.master, buffer, Store.insertTransactions,
        Store.insertReceipts, Store.insertRecvSeqMax]

theorem resumesTaken (held : w.Resumes spared c) (accepts : c.Accepts (.blockCompleted json))
    (waits : ¬ w.Commits (.blockCompleted json)) (honest : 0 ≤ ack → ack ≤ w.confirmedBlock) :
    (w.taken json).Resumes spared (c.after (.blockCompleted json) ack) := by
  obtain ⟨sync,exact,grown⟩ := takenSent json held
  have upto : ∀ r ∈ c.rows, r.blockNum ≤ max (c.after (.blockCompleted json) ack).acked w.confirmedBlock →
      r.blockNum ≤ max c.acked w.confirmedBlock := by
    intro r _ low
    simp only [Chronicle.after] at low
    split at low <;> omega
  have alive : ∀ r ∈ c.chain.alive, c.Due spared r → r ∈ (w.taken json).connection.working.transactions :=
    fun r mem left => (grown r).mpr (held.kept r mem left)
  have sent : (w.taken json).insertTransactions = [] := by simp [taken, held.master]
  exact {
    master := held.master
    traces := held.traces
    confirmed := Int.le_trans held.confirmed (Int.le_max_left _ _)
    acked := min_le_right _ _
    last := Int.le_max_right _ _
    seqs := held.seqs
    later := accepts.2.2
    committed := held.committed.bound fun r mem left low => held.committed.upto r mem left (upto r mem low)
    working := exact.bound fun r mem left low => exact.upto r mem left (upto r mem low)
    seated := ⟨held.seated.1,held.seated.2.sync sync⟩
    kept := fun r mem left => Or.inl (alive r mem left)
    buffered := by simp [sent]
    pending := by
      have pending := held.pending
      cases buffer : w.insertTransactions <;> simp_all [taken]
    risked := by
      by_cases past : w.confirmedBlock < json.blockNum
      · refine Or.inr ?_
        have few : ¬ w.ackEveryAt json ≤ json.blockNum - w.confirmedBlock := fun due => waits ⟨past,due⟩
        change json.blockNum < w.confirmedBlock + w.ackEveryAt json
        omega
      · refine Or.inl fun r mem left low => held.committed.upto r (List.mem_append_left _ mem) left ?_
        change r.blockNum ≤ json.blockNum at low
        omega }

theorem resumesCompleted (held : w.Resumes spared c) (accepts : c.Accepts (.blockCompleted json))
    (past : w.confirmedBlock < json.blockNum) (honest : 0 ≤ ack → ack ≤ json.blockNum) :
    (w.completed json).Resumes spared (c.after (.blockCompleted json) ack) := by
  obtain ⟨sync,exact,grown⟩ := takenSent json held
  have alive : ∀ r ∈ c.chain.alive, c.Due spared r → r ∈ (w.taken json).connection.working.transactions :=
    fun r mem left => (grown r).mpr (held.kept r mem left)
  have upto : ∀ r ∈ c.rows, c.Due spared r →
      r.blockNum ≤ max (c.after (.blockCompleted json) ack).acked json.blockNum →
      r ∈ (w.taken json).connection.working.transactions := by
    intro r mem left low
    rcases List.mem_append.mp mem with chained | again
    · exact alive r chained left
    · have new := accepts.2.2 r again
      refine exact.upto r mem left ?_
      simp only [Chronicle.after] at low
      split at low <;> omega
  have sent : (w.completed json).insertTransactions = [] := by simp [completed, taken, held.master]
  have seat : Seated w.sourceId json.blockNum (w.taken json).connection.working :=
    (held.seated.2.sync sync).mono (Int.le_of_lt past)
  exact {
    master := held.master
    traces := held.traces
    confirmed := Int.le_max_right _ _
    acked := min_le_right _ _
    last := Int.le_max_right _ _
    seqs := held.seqs
    later := accepts.2.2
    committed := exact.bound upto
    working := exact.bound upto
    seated := ⟨seat,seat⟩
    kept := fun r mem left => Or.inl (alive r mem left)
    buffered := by simp [sent]
    pending := by
      have pending := held.pending
      cases buffer : w.insertTransactions <;> simp_all [completed, taken]
    risked := Or.inl fun r mem left _ => alive r mem left }

theorem batchedAck (nonneg : 0 ≤ json.blockNum) (waits : ¬ w.Commits (.blockCompleted json))
    (ok : completeBlock now w json = (w',.ok v)) : 0 ≤ v → v ≤ w.confirmedBlock := by
  cases time : getBlockTime json.blockTimestamp with
  | error e => simp [completeBlock, time] at ok
  | ok t =>
    rw [completeBlockEq ⟨t,time⟩] at ok
    split at ok
    · rename_i known
      cases ok
      have exact : narrow json.blockNum ≤ json.blockNum := narrowLe (by omega)
      omega
    rename_i new
    split at ok
    · cases ok
      omega
    rename_i due
    exact absurd ⟨Int.not_le.mp new,Int.not_lt.mp due⟩ waits

theorem resumesProcessed (held : w.Resumes spared c) (accepts : c.Accepts m) (heeded : Incident.Heeded (w,c) m)
    (ok : processData now w m = (w',.ok v)) (answer : ack = v ∨ ack = -1) : w'.Resumes spared (c.after m ack) := by
  cases processed ok with
  | ignored reversible =>
    rcases heeded with past | nothing
    · exact absurd past (Int.not_lt.mpr reversible)
    · exact resumesIgnored held accepts.1 nothing
  | forked => exact resumesForked held accepts.1
  | @skipped json known =>
    have silent : ack < 0 := by omega
    cases row : json.row with
    | none => exact (rowlessAfter held silent row).symm ▸ held
    | some r => exact resumesSkipped row held accepts silent (known.resolve_right (by simp [row]))
  | traced new row =>
    have silent : ack < 0 := by omega
    exact resumesTraced row held accepts silent
  | batched waits =>
    have honest := batchedAck accepts.2.1 waits ok
    exact resumesTaken held accepts waits (by omega)
  | @completed json commits =>
    have exact : narrow json.blockNum ≤ json.blockNum := narrowLe (by have := accepts.2.1; omega)
    exact resumesCompleted held accepts commits.1 (by omega)
  | unknown =>
    have silent : ack < 0 := by omega
    exact (quietAfter (m := .unknown) held silent rfl rfl rfl rfl).symm ▸ held

theorem roleKept (now : Clock) (held : w.Resumes spared c) : ∃ b, w.checkRole now = { w with justCommitted := b } := by
  obtain ⟨own,found,seat,_⟩ := held.seated.2
  unfold checkRole
  split
  · exact ⟨false,by simp [found, seat]⟩
  · exact ⟨w.justCommitted,rfl⟩

theorem resumesAsked {b : Bool} (held : w.Resumes spared c) : Resumes { w with justCommitted := b } spared c where
  master := held.master
  traces := held.traces
  confirmed := held.confirmed
  acked := held.acked
  last := held.last
  seqs := held.seqs
  later := held.later
  committed := held.committed
  working := held.working
  seated := held.seated
  kept := held.kept
  buffered := held.buffered
  pending := held.pending
  risked := held.risked

theorem resumesReconnected (held : w.Resumes spared c) :
    Resumes { w with connection := w.connection.rollback } spared (c.losing w.connection) := by
  have due : ∀ r, (c.losing w.connection).Due spared r → c.Due spared r ∧
      (r ∈ w.connection.working.transactions → r ∈ w.connection.committed.transactions) := by
    rintro r ⟨left,kept⟩
    rw [Chronicle.losing, List.mem_append, not_or] at kept
    refine ⟨⟨left,kept.1⟩,fun opened => ?_⟩
    by_contra missing
    exact kept.2 (List.mem_filter.mpr ⟨opened,decide_eq_true missing⟩)
  have exact : Exact ((c.losing w.connection).Due spared) w.connection.committed c.rows (max c.acked w.confirmedBlock) :=
    held.committed.bound fun r mem left low => held.committed.upto r mem (due r left).1 low
  have kept : ∀ r ∈ c.chain.alive, (c.losing w.connection).Due spared r →
      r ∈ w.connection.committed.transactions ∨ r ∈ w.insertTransactions := fun r mem left =>
    (held.kept r mem (due r left).1).imp_left (due r left).2
  exact { held with
    committed := exact
    working := exact
    seated := ⟨held.seated.1,held.seated.1⟩
    kept := kept
    risked := by
      refine Or.inl fun r mem left completed => (kept r mem left).resolve_right fun waiting => ?_
      exact absurd completed (Int.not_le.mpr (held.buffered r waiting).2) }

structure Recoverable (spared : Int → Prop) (sourceId : Int) (s : Store) (c : Chronicle) : Prop where
  acked : c.acked ≤ c.head
  seqs : (c.rows.map TraceRow.seq).Nodup
  exact : ∃ b, b ≤ c.head ∧ Seated sourceId b s ∧ Exact (c.Due spared) s c.rows (max c.acked b)

theorem Resumes.recoverable (held : w.Resumes spared c) : Recoverable spared w.sourceId w.connection.committed c :=
  ⟨held.acked,held.seqs,w.confirmedBlock,held.confirmed,held.seated.1,held.committed⟩

theorem rowReturns {json : Json} (row : json.row = some r) : ∃ w' v, w.txTrace json = (w',.ok v) := by
  unfold Json.row at row
  unfold txTrace
  split
  · exact ⟨_,_,rfl⟩
  split at row
  · rename_i status
    rw [if_neg (by simp [status])]
    cases actions : json.actionTraces with
    | nil => exact ⟨_,_,rfl⟩
    | cons atrace rest =>
      cases time : getBlockTime json.blockTimestamp with
      | error e => simp [actions, time] at row
      | ok blockTime =>
        by_cases master : w.iAmMaster <;> simp [master]
  · cases row

theorem thrownRecoverable {e : Thrown} (held : w.Resumes spared c) (error : processData now w m = (w',.error e)) :
    Recoverable spared w'.sourceId w'.connection.committed (c.after m (-1)) := by
  have same : w' = w := by
    rcases thrown error with same | ⟨_,_,_,looks,_⟩
    · exact same
    · exact absurd looks.1 (by simp [held.master])
  subst same
  have quiet : c.after m (-1) = c → Recoverable spared w'.sourceId w'.connection.committed (c.after m (-1)) := fun same =>
    same.symm ▸ held.recoverable
  cases m with
  | fork n =>
    change w'.fork n = _ at error
    rw [forkEq] at error
    split at error <;> exact absurd (congrArg Prod.snd error) (by simp)
  | txTrace json =>
    cases row : json.row with
    | none => exact quiet (rowlessAfter held (by decide) row)
    | some r =>
      obtain ⟨_,_,returns⟩ := rowReturns (w := w') row
      exact absurd (returns.symm.trans error) (by simp)
  | blockCompleted json =>
    have acked := silentAcked (m := .blockCompleted json) (by decide : (-1 : Int) < 0) held.acked (Int.le_max_left _ _)
    have grown : c.head ≤ (c.after (.blockCompleted json) (-1)).head := Int.le_max_left _ _
    exact ⟨min_le_right _ _,held.seqs,w'.confirmedBlock,Int.le_trans held.confirmed grown,held.seated.1,
      acked ▸ held.committed⟩
  | malformed error offset => exact quiet (quietAfter held (by decide) rfl rfl rfl rfl)
  | unknown => cases error

theorem resumesRestart {o : Options} {s : Store} {resume : Int} (left : Recoverable spared o.sourceId s c)
    (traces : o.noTraces = false) (early : resume ≤ c.acked) (start : initializeWriter o s = .ok w) :
    w.Resumes spared (c.rewound resume) := by
  obtain ⟨own,found,rfl⟩ := initialized start
  obtain ⟨b,known,⟨own',found',seat,low⟩,exact⟩ := left.exact
  obtain rfl : own' = own := Option.some.inj (found'.symm.trans found)
  have split : ∀ r, r ∈ (c.rewound resume).rows ↔ r ∈ c.rows := by
    intro r
    simp only [Chronicle.rows, Chronicle.rewound, List.mem_append, List.mem_filter]
    by_cases sent : r.blockNum ≤ resume <;> simp [sent]
  have perm : (c.rewound resume).rows.Perm c.rows := List.filter_append_perm _ _
  have resumed : Exact (c.Due spared) s (c.rewound resume).rows (max c.acked own'.blockNum) :=
    (exact.bound fun r mem left low => exact.upto r mem left (by omega)).congr split
  have stored : ∀ r ∈ (c.rewound resume).chain.alive, c.Due spared r → r ∈ s.transactions := by
    intro r mem left
    obtain ⟨row,sent⟩ := List.mem_filter.mp mem
    have low := of_decide_eq_true sent
    exact exact.upto r row left (by omega)
  exact {
    master := decide_eq_true seat
    traces := traces
    confirmed := Int.le_trans low known
    acked := left.acked
    last := Int.le_trans early left.acked
    seqs := (perm.map _).nodup_iff.mpr left.seqs
    later := by
      intro r mem
      have past : r.blockNum ≤ resume → False := by simpa using (List.mem_filter.mp mem).2
      exact Int.not_le.mp past
    committed := resumed
    working := resumed
    seated := ⟨⟨own',found,seat,Int.le_refl _⟩,⟨own',found,seat,Int.le_refl _⟩⟩
    kept := fun r mem left => Or.inl (stored r mem left)
    buffered := fun r mem => by cases mem
    pending := rfl
    risked := Or.inl fun r mem left _ => stored r mem left }

theorem resumesStart {o : Options} {s : Store} (start : initializeWriter o s = .ok w) (master : w.iAmMaster = true)
    (traces : o.noTraces = false) (empty : s.transactions = [] ∧ s.receipts = []) :
    w.Resumes spared (Chronicle.above w.confirmedBlock) := by
  obtain ⟨own,found,rfl⟩ := initialized start
  have seat : own.isMaster ≠ 0 := of_decide_eq_true master
  have exact : ∀ m, Exact ((Chronicle.above own.blockNum).Due spared) s (Chronicle.above own.blockNum).rows m := fun m => {
    known := by simp [empty]
    once := by simp [empty]
    receipts := by simp [empty]
    upto := by simp [Chronicle.rows, Chronicle.above, Chain.above] }
  exact {
    master := master
    traces := traces
    confirmed := Int.le_refl _
    acked := Int.le_refl _
    last := Int.le_refl _
    seqs := List.nodup_nil
    later := fun r mem => by cases mem
    committed := exact _
    working := exact _
    seated := ⟨⟨own,found,seat,Int.le_refl _⟩,⟨own,found,seat,Int.le_refl _⟩⟩
    kept := fun r mem => by cases mem
    buffered := fun r mem => by cases mem
    pending := rfl
    risked := Or.inl fun r mem => by cases mem }

theorem processedSource : (processData now w m).1.sourceId = w.sourceId := by
  rcases (outcome : _ ∨ (processData now w m).1 = w ∨ _) with ⟨v,call⟩ | same | ⟨json,_,_,_,done⟩
  · generalize (processData now w m).1 = w' at call
    cases call with
    | traced => exact tracedConnection.2
    | _ => rfl
  · exact congrArg sourceId same
  · rw [done]
    rfl

theorem onReadSource (w : Writer) (now : Clock) (m : Message) : (w.onRead now m).1.sourceId = w.sourceId := by
  have asking : ∀ u, Asked now w u → u.sourceId = w.sourceId := by
    rintro u (_ | _ | _) <;> rfl
  exact processedSource.trans (asking _ asked)

theorem leftRecoverable (death : Death) (held : w.Resumes spared c) (regular : match death with
    | .during _ m => c.Accepts m ∧ Incident.Heeded (w,c) m
    | _ => True) : Recoverable spared w.sourceId (death.leaves (w,c)).1.connection.committed (death.leaves (w,c)).2 := by
  cases death with
  | idle => exact held.recoverable
  | during now m =>
    obtain ⟨b,asked⟩ := roleKept now held
    have asking : Resumes { w with justCommitted := b } spared c := resumesAsked held
    rw [← onReadSource w now m]
    simp only [Death.leaves, onRead, asked]
    cases call : processData now { w with justCommitted := b } m with
    | mk w' result =>
      cases result with
      | ok v => exact (resumesProcessed asking regular.1 regular.2 call (Or.inr rfl)).recoverable
      | error e => exact thrownRecoverable asking call
  | forking => exact ⟨held.acked,held.seqs,w.confirmedBlock,held.confirmed,held.seated.2,held.working⟩

theorem resumesStep {o : Options} {f f' : Writer × Chronicle} {i : Incident} (traces : o.noTraces = false)
    (held : f.1.Resumes spared f.2 ∧ f.1.sourceId = o.sourceId) (regular : i.Regular f) (ok : i.step o f = some f') :
    f'.1.Resumes spared f'.2 ∧ f'.1.sourceId = o.sourceId := by
  obtain ⟨held,source⟩ := held
  cases i with
  | message now m =>
    obtain ⟨b,asked⟩ := roleKept now held
    have same := onReadSource f.1 now m
    simp only [Incident.step] at ok
    split at ok
    · rename_i w v returned
      cases ok
      rw [returned] at same
      unfold onRead at returned
      rw [asked] at returned
      exact ⟨resumesProcessed (resumesAsked (b := b) held) regular.1 regular.2 returned (Or.inl rfl),same.trans source⟩
    · cases ok
  | reconnected =>
    cases ok
    exact ⟨resumesReconnected held,source⟩
  | restart death resume =>
    simp only [Incident.step] at ok
    split at ok
    · rename_i w start
      cases ok
      have left := source ▸ leftRecoverable death held regular.2
      obtain ⟨own,_,rfl⟩ := initialized start
      exact ⟨resumesRestart left traces regular.1 start,rfl⟩
    · cases ok

theorem resumesRun {o : Options} {s : Store} {run : List Incident} (start : initializeWriter o s = .ok w)
    (master : w.iAmMaster = true) (traces : o.noTraces = false) (empty : s.transactions = [] ∧ s.receipts = [])
    (regular : Along (Incident.step o) (fun f i => i.Regular f) (w,Chronicle.above w.confirmedBlock) run)
    (ran : run.foldlM (Incident.step o) (w,Chronicle.above w.confirmedBlock) = some (w',c)) : w'.Resumes spared c := by
  have source : w.sourceId = o.sourceId := by
    obtain ⟨own,_,rfl⟩ := initialized start
    rfl
  exact (runPreserves (fun f => f.1.Resumes spared f.2 ∧ f.1.sourceId = o.sourceId) (resumesStep traces)
    ⟨resumesStart start master traces empty,source⟩ regular ran).1

theorem Resumes.stored (held : w.Resumes spared c) : Exact (c.Due spared) w.connection.committed c.rows c.acked :=
  held.committed.bound fun r mem left low =>
    held.committed.upto r mem left (Int.le_trans low (Int.le_max_left _ _))

theorem Resumes.few (held : w.Resumes spared c) {r : TraceRow} (mem : r ∈ c.rows) (left : c.Due spared r)
    (completed : r.blockNum ≤ c.chain.last) (missing : r ∉ w.connection.committed.transactions) :
    c.chain.last + 1 < r.blockNum + w.ackEvery := by
  have alive : r ∈ c.chain.alive := by
    rcases List.mem_append.mp mem with alive | again
    · exact alive
    · exact absurd completed (Int.not_le.mpr (held.later r again))
  rcases held.risked with stored | few
  · exact absurd (stored r alive left completed) missing
  · have past : w.confirmedBlock < r.blockNum := by
      by_contra low
      exact missing (held.committed.upto r mem left (by omega))
    omega

theorem ackedStored {o : Options} {s : Store} {run : List Incident} (start : initializeWriter o s = .ok w)
    (master : w.iAmMaster = true) (traces : o.noTraces = false) (empty : s.transactions = [] ∧ s.receipts = [])
    (regular : Along (Incident.step o) (fun f i => i.Regular f) (w,Chronicle.above w.confirmedBlock) run)
    (ran : run.foldlM (Incident.step o) (w,Chronicle.above w.confirmedBlock) = some (w',c)) :
    Exact (fun r => r ∉ c.lost) w'.connection.committed c.rows c.acked := by
  have held : w'.Resumes (fun _ => True) c := resumesRun start master traces empty regular ran
  exact held.stored.bound fun r mem kept low => held.stored.upto r mem ⟨trivial,kept⟩ low

theorem fewAtRisk {o : Options} {s : Store} {run : List Incident} (start : initializeWriter o s = .ok w)
    (master : w.iAmMaster = true) (traces : o.noTraces = false) (empty : s.transactions = [] ∧ s.receipts = [])
    (regular : Along (Incident.step o) (fun f i => i.Regular f) (w,Chronicle.above w.confirmedBlock) run)
    (ran : run.foldlM (Incident.step o) (w,Chronicle.above w.confirmedBlock) = some (w',c)) :
    ∀ r ∈ c.rows, r ∉ c.lost → r.blockNum ≤ c.chain.last → r ∉ w'.connection.committed.transactions →
      c.chain.last + 1 < r.blockNum + w'.ackEvery := by
  have held : w'.Resumes (fun _ => True) c := resumesRun start master traces empty regular ran
  exact fun r mem kept completed missing => held.few mem ⟨trivial,kept⟩ completed missing

end Steps

def later (seq blockNum : Int) : Json :=
  { paid blockNum "b" with actionTraces := [⟨"fio.token","trnsfiopubky","bob",1,seq⟩] }

def laterRow (seq blockNum : Int) : TraceRow := ⟨seq,blockNum,"2020-03-24 00:00:00","b",later seq blockNum⟩

def interrupted : List Incident :=
  [.message ⟨0,0⟩ (.txTrace (paid 1 "a1")),.restart (.during ⟨0,0⟩ (.blockCompleted firstBlock)) 0,
    .message ⟨0,0⟩ (.txTrace (paid 1 "a1")),.message ⟨0,0⟩ (.blockCompleted { firstBlock with lastIrreversible := 2 }),
    .message ⟨0,0⟩ (.txTrace (later 8 2)),.message ⟨0,0⟩ (.blockCompleted ⟨2,"2020-03-24T00:00:00","00000002",2⟩),
    .reconnected,.message ⟨0,0⟩ (.txTrace (later 9 3)),
    .message ⟨0,0⟩ (.blockCompleted ⟨3,"2020-03-24T00:00:00","00000003",2⟩)]

theorem ackedStoredInterrupted : ∃ w c, c.acked = 3 ∧ c.rows = [paidRow 1 "a1",laterRow 8 2,laterRow 9 3] ∧
    c.lost = [laterRow 8 2] ∧
    interrupted.foldlM (Incident.step defaultOptions) (started,Chronicle.above 0) = some (w,c) ∧
      Exact (fun r => r ∉ c.lost) w.connection.committed c.rows c.acked := by
  have regular : Along (Incident.step defaultOptions) (fun f i => i.Regular f) (started,Chronicle.above 0)
      interrupted := by decide +kernel
  obtain ⟨⟨w,c⟩,ran⟩ := Option.isSome_iff_exists.mp (by decide +kernel :
    (interrupted.foldlM (Incident.step defaultOptions) (started,Chronicle.above 0)).isSome = true)
  have sent : (interrupted.foldlM (Incident.step defaultOptions) (started,Chronicle.above 0)).all (fun f => decide
      (f.2.acked = 3 ∧ f.2.rows = [paidRow 1 "a1",laterRow 8 2,laterRow 9 3] ∧
        f.2.lost = [laterRow 8 2])) = true := by decide +kernel
  rw [ran] at sent
  obtain ⟨acked,rows,lost⟩ := of_decide_eq_true sent
  exact ⟨w,c,acked,rows,lost,ran,ackedStored startedShipped rfl rfl ⟨rfl,rfl⟩ regular ran⟩

def catchingUp : List Incident := [.message ⟨0,0⟩ (.txTrace (paid 1 "a1")),
  .message ⟨0,0⟩ (.blockCompleted { firstBlock with lastIrreversible := 1 })]

theorem fewAtRiskCatchingUp : ∃ w c, catchingUp.foldlM (Incident.step defaultOptions) (started,Chronicle.above 0) =
    some (w,c) ∧ paidRow 1 "a1" ∉ w.connection.committed.transactions ∧ c.chain.last + 1 < 1 + w.ackEvery := by
  have regular : Along (Incident.step defaultOptions) (fun f i => i.Regular f) (started,Chronicle.above 0)
      catchingUp := by decide +kernel
  obtain ⟨⟨w,c⟩,ran⟩ := Option.isSome_iff_exists.mp (by decide +kernel :
    (catchingUp.foldlM (Incident.step defaultOptions) (started,Chronicle.above 0)).isSome = true)
  have sent : (catchingUp.foldlM (Incident.step defaultOptions) (started,Chronicle.above 0)).all (fun f => decide
      (paidRow 1 "a1" ∈ f.2.rows ∧ paidRow 1 "a1" ∉ f.2.lost ∧ 1 ≤ f.2.chain.last ∧
        paidRow 1 "a1" ∉ f.1.connection.committed.transactions)) = true := by decide +kernel
  rw [ran] at sent
  obtain ⟨mem,kept,completed,missing⟩ := of_decide_eq_true sent
  exact ⟨w,c,ran,missing,fewAtRisk startedShipped rfl rfl ⟨rfl,rfl⟩ regular ran _ mem kept completed missing⟩

end Writer
end FioRelic.Prototype
