import FioRelic.Prototype.Chain

/-! What a master has of the chain while its session lasts: rows in the open transaction,
and after them the buffers. -/
namespace FioRelic.Prototype
open Relational
namespace Writer

structure Carries (w : Writer) (c : Chain) : Prop where
  master : w.iAmMaster = true
  traces : w.noTraces = false
  confirmed : w.confirmedBlock ≤ c.last
  alive : c.alive = w.connection.working.transactions ++ w.insertTransactions
  stored : ∀ r ∈ w.connection.working.transactions, r.blockNum ≤ c.last
  buffered : ∀ r ∈ w.insertTransactions, c.last < r.blockNum
  seqs : (c.alive.map TraceRow.seq).Nodup
  receipts : ∀ x, x ∈ w.connection.working.receipts ↔ ∃ r ∈ w.connection.working.transactions, x ∈ r.receipts
  pending : w.insertReceipts = w.insertTransactions.flatMap TraceRow.receipts

structure Stores (s : Store) (c : Chain) (m : Int) : Prop where
  rows : ∀ r, r ∈ s.transactions ↔ r ∈ c.alive ∧ r.blockNum ≤ m
  once : (s.transactions.map TraceRow.seq).Nodup
  receipts : ∀ x, x ∈ s.receipts ↔ ∃ r ∈ c.alive, r.blockNum ≤ m ∧ x ∈ r.receipts

section Master
variable {w w' : Writer} {c : Chain} {s : Store} {o : Options} {json : BlockCompleted} {n : Int}

theorem carriesStart (start : initializeWriter o s = .ok w) (master : w.iAmMaster = true) (traces : o.noTraces = false)
    (empty : s.transactions = [] ∧ s.receipts = []) : w.Carries (Chain.above [] w.confirmedBlock) := by
  obtain ⟨own,found,rfl⟩ := initialized start
  exact {
    master := master
    traces := traces
    confirmed := Int.le_refl _
    alive := by simp [Chain.above, fresh, empty]
    stored := by simp [fresh, empty]
    buffered := by simp [fresh]
    seqs := by simp [Chain.above]
    receipts := by simp [fresh, empty]
    pending := by simp [fresh] }

/- Buffered traces belong to blocks past the last one completed, so a fork drops them all. -/
theorem carriesForked (held : w.Carries c) (accepts : n ≤ c.last + 1) :
    (w.forked n).Carries (c.after (.fork n)) := by
  have none : w.insertTransactions.filter (fun r => !decide (n ≤ r.blockNum)) = [] := by
    rw [List.filter_eq_nil_iff]
    intro r mem
    have past := held.buffered r mem
    simp only [Bool.not_eq_true', decide_eq_false_iff_not]
    omega
  have working : (w.forked n).connection.working =
      ((w.connection.working.forkReceipts n).forkTransactions n).updSyncFork (n - 1) w.sourceId := by
    simp [forked, forking, held.master, Connection.execute, Connection.commit]
  have rows : (w.forked n).connection.working.transactions =
      w.connection.working.transactions.filter fun r => !decide (n ≤ r.blockNum) := by
    rw [working]
    rfl
  exact {
    master := held.master
    traces := held.traces
    confirmed := Int.le_refl _
    alive := by
      rw [rows]
      simp [Chain.after, held.alive, none, forked]
    stored := by
      intro r mem
      rw [rows] at mem
      have early := (List.mem_filter.mp mem).2
      simp only [Bool.not_eq_true', decide_eq_false_iff_not] at early
      simp only [Chain.after]
      omega
    buffered := by simp [forked]
    seqs := held.seqs.sublist ((List.filter_sublist).map _)
    receipts := by
      intro x
      rw [rows, working]
      simp only [Store.updSyncFork, Store.forkTransactions, Store.forkReceipts, List.mem_filter, held.receipts]
      constructor
      · rintro ⟨⟨r,mem,listed⟩,early⟩
        exact ⟨r,⟨mem,(receiptSource listed).2.1 ▸ early⟩,listed⟩
      · rintro ⟨r,⟨mem,early⟩,listed⟩
        exact ⟨⟨r,mem,listed⟩,(receiptSource listed).2.1 ▸ early⟩
    pending := rfl }

theorem carriesIgnored (held : w.Carries c) (accepts : n ≤ c.last + 1)
    (nothing : w.confirmedBlock < n ∧ ∀ r ∈ c.alive, r.blockNum < n) : w.ignored.Carries (c.after (.fork n)) := by
  have kept : c.alive.filter (fun r => !decide (n ≤ r.blockNum)) = c.alive := by
    rw [List.filter_eq_self]
    intro r mem
    have early := nothing.2 r mem
    simp only [Bool.not_eq_true', decide_eq_false_iff_not]
    omega
  have early : ∀ r ∈ c.alive, r.blockNum ≤ n - 1 := fun r mem => Int.le_sub_one_of_lt (nothing.2 r mem)
  rw [held.alive] at early
  exact {
    master := held.master
    traces := held.traces
    confirmed := Int.le_sub_one_of_lt nothing.1
    alive := kept.trans held.alive
    stored := fun r mem => early r (List.mem_append_left _ mem)
    buffered := by
      intro r mem
      have below := early r (List.mem_append_right _ mem)
      have past := held.buffered r mem
      omega
    seqs := by simpa [Chain.after, kept] using held.seqs
    receipts := held.receipts
    pending := held.pending }

theorem carriesTraced {json : Json} {r : TraceRow} (held : w.Carries c) (row : json.row = some r)
    (accepts : c.Accepts (.txTrace json)) : (w.traced r).Carries (c.after (.txTrace json)) := by
  obtain ⟨block,trx,_⟩ := rowSource row
  have after : c.after (.txTrace json) = { c with alive := c.alive ++ [r] } := by simp [Chain.after, row]
  have kept : w.traced r = { w with
      insertTransactions := w.insertTransactions ++ [r]
      insertReceipts := w.insertReceipts ++ r.receipts
      upsertRecvSeqMax := r.trace.actionTraces.foldl
        (fun m atrace => upsert Prod.fst m (atrace.receiver,atrace.recvSequence)) w.upsertRecvSeqMax } := by
    simp [traced, saved, saveTrace, held.master, held.traces, TraceRow.receipts, ← trx]
  rw [after, kept]
  exact {
    master := held.master
    traces := held.traces
    confirmed := held.confirmed
    alive := by simp [held.alive]
    stored := held.stored
    buffered := by
      intro x mem
      rcases List.mem_append.mp mem with old | new
      · exact held.buffered x old
      · rw [List.mem_singleton.mp new, block]
        exact accepts.1
    seqs := seqsTraced held.seqs (accepts.2 r row)
    receipts := held.receipts
    pending := by simp [held.pending] }

theorem receiptsSent {stored buffered : List TraceRow} {rows : List Receipt}
    (seqs : ((stored ++ buffered).map TraceRow.seq).Nodup)
    (receipts : ∀ x, x ∈ rows ↔ ∃ r ∈ stored, x ∈ r.receipts) (x : Receipt) :
    x ∈ insertBatch Receipt.key rows (buffered.flatMap TraceRow.receipts) ↔ ∃ r ∈ stored ++ buffered, x ∈ r.receipts := by
  have listed : ∀ y, y ∈ insertBatch Receipt.key rows (buffered.flatMap TraceRow.receipts) →
      ∃ r ∈ stored ++ buffered, y ∈ r.receipts := by
    intro y mem
    rcases insertBatchMem mem with old | new
    · obtain ⟨r,held,own⟩ := (receipts y).mp old
      exact ⟨r,List.mem_append_left _ held,own⟩
    · obtain ⟨r,held,own⟩ := List.mem_flatMap.mp new
      exact ⟨r,List.mem_append_right _ held,own⟩
  refine ⟨listed x,?_⟩
  rintro ⟨r,held,own⟩
  rcases List.mem_append.mp held with old | new
  · exact insertBatchSub ((receipts x).mpr ⟨r,old,own⟩)
  · have stored : ∃ y ∈ insertBatch Receipt.key rows (buffered.flatMap TraceRow.receipts), y.key = x.key :=
      insertBatchKeys (List.mem_flatMap.mpr ⟨r,new,own⟩)
    obtain ⟨y,mem,same⟩ := stored
    obtain ⟨r',held',own'⟩ := listed y mem
    have seq : r'.seq = r.seq := by
      rw [← (receiptSource own').1, ← (receiptSource own).1]
      exact congrArg (fun k => k.2.2.2.2) same
    have trace : r' = r := List.inj_on_of_nodup_map seqs held' held seq
    subst trace
    exact receiptUnique own' own same ▸ mem

theorem takenBatch (json : BlockCompleted) (held : w.Carries c) :
    (w.taken json).connection.working.transactions =
        insertBatch TraceRow.seq w.connection.working.transactions w.insertTransactions ∧
      (w.taken json).connection.working.receipts =
        insertBatch Receipt.key w.connection.working.receipts w.insertReceipts := by
  have pending := held.pending
  cases buffer : w.insertTransactions with
  | nil =>
    rw [buffer] at pending
    simp [taken, sending, cleaning, Connection.execute, held.master, buffer, pending, insertBatch]
  | cons r rest =>
    simp [taken, sending, cleaning, Connection.execute, held.master, buffer, Store.insertTransactions,
      Store.insertReceipts, Store.insertRecvSeqMax]

theorem takenWorking (json : BlockCompleted) (held : w.Carries c) : (w.taken json).connection.working.transactions = c.alive ∧
    ∀ x, x ∈ (w.taken json).connection.working.receipts ↔ ∃ r ∈ c.alive, x ∈ r.receipts := by
  have seqs := held.seqs
  rw [held.alive] at seqs
  obtain ⟨transactions,receipts⟩ := takenBatch json held
  constructor
  · rw [transactions, held.alive]
    rw [List.map_append, List.nodup_append] at seqs
    exact insertBatchFresh seqs.2.1 fun r mem old => seqs.2.2 _ old _ (List.mem_map_of_mem mem) rfl
  · intro x
    rw [receipts, held.pending, held.alive]
    exact receiptsSent seqs held.receipts x

theorem carriesTaken (held : w.Carries c) (accepts : c.Accepts (.blockCompleted json)) :
    (w.taken json).Carries (c.after (.blockCompleted json)) := by
  obtain ⟨transactions,receipts⟩ := takenWorking json held
  have sent : (w.taken json).insertTransactions = [] := by simp [taken, held.master]
  exact {
    master := held.master
    traces := held.traces
    confirmed := Int.le_trans held.confirmed (Int.le_of_lt accepts.1)
    alive := by rw [transactions, sent, List.append_nil]; rfl
    stored := transactions ▸ accepts.2
    buffered := by simp [sent]
    seqs := held.seqs
    receipts := transactions ▸ receipts
    pending := by
      have pending := held.pending
      cases buffer : w.insertTransactions <;> simp_all [taken] }

theorem carriesCompleted (held : w.Carries c) (accepts : c.Accepts (.blockCompleted json)) :
    (w.completed json).Carries (c.after (.blockCompleted json)) := by
  have taken := carriesTaken held accepts
  exact { taken with confirmed := Int.le_refl _ }

theorem storesCompleted (held : w.Carries c) (accepts : c.Accepts (.blockCompleted json)) :
    Stores (w.completed json).connection.committed c json.blockNum := by
  obtain ⟨transactions,receipts⟩ := takenWorking json held
  change Stores (w.taken json).connection.working c json.blockNum
  exact {
    rows := by
      intro r
      rw [transactions]
      exact ⟨fun mem => ⟨mem,accepts.2 r mem⟩,And.left⟩
    once := transactions ▸ held.seqs
    receipts := by
      intro x
      rw [receipts]
      constructor
      · rintro ⟨r,mem,own⟩
        exact ⟨r,mem,accepts.2 r mem,own⟩
      · rintro ⟨r,mem,_,own⟩
        exact ⟨r,mem,own⟩ }

theorem carriesStep {call : Clock × Message} {f f' : Writer × Chain} (held : f.1.Carries f.2)
    (conditions : Accepted f call ∧ ForkHeeded f call) (ok : follow f call = some f') : f'.1.Carries f'.2 := by
  obtain ⟨w,c⟩ := f
  obtain ⟨w',c'⟩ := f'
  obtain ⟨now,m⟩ := call
  obtain ⟨accepts,heeded⟩ := conditions
  obtain ⟨v,processed,rfl⟩ := followed ok
  cases processed with
  | ignored reversible =>
    rcases heeded with past | nothing
    · exact absurd past (Int.not_lt.mpr reversible)
    · exact carriesIgnored held accepts nothing
  | forked => exact carriesForked held accepts
  | skipped known => exact (skippedChain held.confirmed accepts known).symm ▸ held
  | traced new row => exact carriesTraced held row accepts
  | batched => exact carriesTaken held accepts
  | completed => exact carriesCompleted held accepts
  | unknown => exact held

theorem masterStoresChain {run : List (Clock × Message)} {now : Clock} {v : Int} {w'' : Writer}
    (start : initializeWriter o s = .ok w) (master : w.iAmMaster = true) (traces : o.noTraces = false)
    (empty : s.transactions = [] ∧ s.receipts = [])
    (accepted : Along follow Accepted (w,Chain.above [] w.confirmedBlock) run)
    (heeded : Along follow ForkHeeded (w,Chain.above [] w.confirmedBlock) run)
    (ran : run.foldlM follow (w,Chain.above [] w.confirmedBlock) = some (w',c))
    (accepts : c.Accepts (.blockCompleted json)) (commits : w'.Commits (.blockCompleted json))
    (call : processData now w' (.blockCompleted json) = (w'',.ok v)) :
    v = narrow json.blockNum ∧ Stores w''.connection.committed c json.blockNum := by
  have held : w'.Carries c :=
    runPreserves (fun f => f.1.Carries f.2) carriesStep (carriesStart start master traces empty)
      (accepted.and heeded) ran
  cases processed call with
  | batched waits => exact absurd commits waits
  | completed => exact ⟨rfl,storesCompleted held accepts⟩

end Master

def begun : Writer × Chain := (started,Chain.above [] 0)

theorem masterStoresChainPaid : ∃ w c w' v, Along follow Accepted begun [(⟨0,0⟩,.txTrace (paid 1 "a1"))] ∧
    w.Commits (.blockCompleted firstBlock) ∧ processData ⟨0,0⟩ w (.blockCompleted firstBlock) = (w',.ok v) ∧
      v = narrow 1 ∧ Stores w'.connection.committed c 1 := by
  have accepted : Along follow Accepted begun [(⟨0,0⟩,.txTrace (paid 1 "a1"))] := by decide +kernel
  have heeded : Along follow ForkHeeded begun [(⟨0,0⟩,.txTrace (paid 1 "a1"))] := by decide +kernel
  have ran : [((⟨0,0⟩ : Clock),Message.txTrace (paid 1 "a1"))].foldlM follow begun =
      some (started.traced (paidRow 1 "a1"),⟨[],[paidRow 1 "a1"],[],0⟩) := by
    decide +kernel
  have accepts : (⟨[],[paidRow 1 "a1"],[],0⟩ : Chain).Accepts (.blockCompleted firstBlock) := by decide +kernel
  have commits : (started.traced (paidRow 1 "a1")).Commits (.blockCompleted firstBlock) := by decide +kernel
  have call : processData ⟨0,0⟩ (started.traced (paidRow 1 "a1")) (.blockCompleted firstBlock) =
      ((started.traced (paidRow 1 "a1")).completed firstBlock,.ok 1) := by decide +kernel
  exact ⟨_,_,_,_,accepted,commits,call,
    masterStoresChain startedShipped rfl rfl ⟨rfl,rfl⟩ accepted heeded ran accepts commits call⟩

def replacedRun : List (Clock × Message) := [(⟨0,0⟩,.txTrace (paid 1 "a1")),(⟨0,0⟩,.fork 1),(⟨0,0⟩,.txTrace (paid 1 "b2"))]

def replaced : Writer := (started.traced (paidRow 1 "a1")).ignored.traced (paidRow 1 "b2")

theorem replacedNotStored : ∃ w c w' v, initializeWriter defaultOptions Store.shipped = .ok started ∧
    Along follow Accepted begun replacedRun ∧ replacedRun.foldlM follow begun = some (w,c) ∧
      c.Accepts (.blockCompleted firstBlock) ∧ w.Commits (.blockCompleted firstBlock) ∧
        processData ⟨0,0⟩ w (.blockCompleted firstBlock) = (w',.ok v) ∧ ¬ Stores w'.connection.committed c 1 := by
  refine ⟨replaced,⟨[],[paidRow 1 "b2"],[paidRow 1 "a1"],0⟩,replaced.completed firstBlock,1,startedShipped,by decide +kernel,
    by decide +kernel,by decide +kernel,by decide +kernel,by decide +kernel,?_⟩
  intro stores
  have missing : paidRow 1 "b2" ∉ (replaced.completed firstBlock).connection.committed.transactions := by decide +kernel
  exact missing ((stores.rows (paidRow 1 "b2")).mpr ⟨by decide,by decide⟩)

end Writer
end FioRelic.Prototype
