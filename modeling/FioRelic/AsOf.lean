import FioRelic.TokenLedger

/-! The database as of a block, read from the tables and their audit tables without a fork.
A stored key answers with its first entry at or after the block, or else with its row; a
removed one with its first entry. -/
namespace FioRelic
open Relational Versioning

def Audited.asOf (a : Audited) (b : Int) (s : DB) : List (Row a.table) :=
  (s.keys a.table ++ a.gone b s).filterMap (a.layout.rewind (some b) (a.seen s) (s a.log).rows)

def Audited.entriesAsOf (a : Audited) (b : Int) (s : DB) : List (Row a.log) :=
  (s a.log).rows.filter fun e => !a.layout.lateEntry (some b) e

def asOf (b : Int) (s : DB) : (t : TableName) → List (Row t)
  | .accounts => Audited.asOf .accounts b s
  | .domains => Audited.asOf .domains b s
  | .handles => Audited.asOf .handles b s
  | .fioRequests => Audited.asOf .fioRequests b s
  | .pubAddresses => Audited.asOf .pubAddresses b s
  | .nftSignatures => Audited.asOf .nftSignatures b s
  | .accountsAudit => Audited.entriesAsOf .accounts b s
  | .domainsAudit => Audited.entriesAsOf .domains b s
  | .handlesAudit => Audited.entriesAsOf .handles b s
  | .fioRequestsAudit => Audited.entriesAsOf .fioRequests b s
  | .pubAddressesAudit => Audited.entriesAsOf .pubAddresses b s
  | .nftSignaturesAudit => Audited.entriesAsOf .nftSignatures b s
  | t => (s t).rows.filter fun r => !atLeast (fkBlockNumber t r) (some b)

section Reading
variable {s s₀ : DB} {b : Int} {a : Audited}

theorem rewindKeyed {x : Int} {r : Row a.table} (found : a.layout.rewind (some b) (a.seen s) (s a.log).rows x = some r) :
    key a.table r = x := by
  have version := (Option.filter_eq_some_iff.mp found).1
  unfold Layout.version at version
  split at version
  · rename_i e first
    cases Option.some.inj version
    exact (replacedSpec first).2.1
  · exact (findMem version).2

theorem rewindCovered {x : Int} (found : a.layout.rewind (some b) (a.seen s) (s a.log).rows x ≠ none) :
    x ∈ s.keys a.table ++ a.gone b s := by
  obtain ⟨r,found⟩ := Option.ne_none_iff_exists'.mp found
  have version := (Option.filter_eq_some_iff.mp found).1
  cases stored : a.layout.find (a.seen s) x with
  | some now =>
    obtain ⟨mem,same⟩ := findMem stored
    rw [← seenKeys]
    exact List.mem_append_left _ (List.mem_map.mpr ⟨now,mem,same⟩)
  | none =>
    refine List.mem_append_right _ (goneListed.mpr ⟨stored,fun unlogged => ?_⟩)
    unfold Layout.version at version
    rw [unlogged, stored] at version
    cases version

theorem coveredNodup (valid : s.Valid) : (s.keys a.table ++ a.gone b s).Nodup := by
  refine List.nodup_append'.mpr ⟨valid.keysNodup a.table,?_,fun x stored removed => ?_⟩
  · unfold Audited.gone
    exact (cursorNodup).filter _
  · have missing := (goneListed.mp removed).1
    rw [← seenKeys] at stored
    obtain ⟨r,mem,same⟩ := List.mem_map.mp stored
    exact findNone.mp missing r mem same

theorem asOfFind (x : Int) :
    a.layout.find (a.asOf b s) x = a.layout.rewind (some b) (a.seen s) (s a.log).rows x := by
  have keyed : ∀ r ∈ a.asOf b s, a.layout.rewind (some b) (a.seen s) (s a.log).rows (key a.table r) = some r := by
    intro r mem
    obtain ⟨y,_,found⟩ := List.mem_filterMap.mp mem
    rw [rewindKeyed found]
    exact found
  cases found : a.layout.rewind (some b) (a.seen s) (s a.log).rows x with
  | none =>
    refine findNone.mpr fun r mem same => ?_
    have own := keyed r mem
    rw [show key a.table r = x from same, found] at own
    cases own
  | some r =>
    have mem : r ∈ a.asOf b s :=
      List.mem_filterMap.mpr ⟨x,rewindCovered (by rw [found]; exact Option.some_ne_none r),found⟩
    cases hit : a.layout.find (a.asOf b s) x with
    | none => exact absurd (rewindKeyed found) (findNone.mp hit r mem)
    | some r' =>
      obtain ⟨mem',same⟩ := findMem hit
      have own := keyed r' mem'
      rw [show key a.table r' = x from same, found] at own
      exact own.symm

theorem asOfSorted (serial : s.Serial) (valid : s.Valid) (keeps : a.deletes = false) :
    ((a.asOf b s).map a.layout.key).Pairwise (· < ·) := by
  have none : a.gone b s = [] := by
    refine List.eq_nil_iff_forall_not_mem.mpr fun x removed => ?_
    obtain ⟨missing,logged⟩ := goneListed.mp removed
    obtain ⟨e,first⟩ := Option.ne_none_iff_exists'.mp logged
    obtain ⟨mem,same,_⟩ := replacedSpec first
    obtain ⟨r,stored,own⟩ := entityStored valid keeps mem
    have seen : a.copied r ∈ a.seen s := List.mem_map_of_mem stored
    exact findNone.mp missing _ seen ((a.keyCopied r).trans (own.trans same))
  have sub : ((a.asOf b s).map a.layout.key).Sublist (s.keys a.table) := by
    unfold Audited.asOf
    rw [none, List.append_nil]
    generalize s.keys a.table = xs
    induction xs with
    | nil => exact .slnil
    | cons x rest ih =>
      rw [List.filterMap_cons]
      split
      · exact ih.cons x
      · rename_i r found
        rw [List.map_cons, show a.layout.key r = x from rewindKeyed found]
        exact ih.cons_cons x
  exact (serial a.table (serialTable a)).1.sublist sub

end Reading

section Past
variable {s s₀ : DB} {b : Int}

theorem pastRows (valid : s.Valid) (serial : s.Serial) (serial₀ : s₀.Serial) (past : Past b s s₀) {a : Audited}
    (keeps : a.deletes = false) : a.asOf b s = a.seen s₀ := by
  refine sortedExt (asOfSorted serial valid keeps) (seenSorted serial₀) fun x => ?_
  rw [asOfFind, past.kept a keeps]

theorem pastWhole (valid : s.Valid) (serial : s.Serial) (serial₀ : s₀.Serial) (past : Past b s s₀) {a : Audited}
    (keeps : a.deletes = false) (whole : ∀ r, a.copied r = r) : a.asOf b s = (s₀ a.table).rows := by
  rw [pastRows valid serial serial₀ past keeps]
  exact List.map_id'' whole _

theorem pastExactly (valid : s.Valid) (serial : s.Serial) (serial₀ : s₀.Serial) (past : Past b s s₀) {t : TableName}
    (exact : t ∈ exactTables) : asOf b s t = (s₀ t).rows := by
  cases t with
  | accounts => exact pastWhole valid serial serial₀ past (a := .accounts) rfl fun _ => rfl
  | domains => exact pastWhole valid serial serial₀ past (a := .domains) rfl fun _ => rfl
  | handles => exact pastWhole valid serial serial₀ past (a := .handles) rfl fun _ => rfl
  | accountsAudit => exact (past.entries .accounts).symm
  | domainsAudit => exact (past.entries .domains).symm
  | handlesAudit => exact (past.entries .handles).symm
  | _ => first | exact (past.plain _ rfl).symm | exact absurd exact (by decide)

theorem pastAddresses (valid : s.Valid) (past : Past b s s₀) :
    ((asOf b s .pubAddresses).map (Audited.blank .pubAddresses)).Perm
      ((s₀ .pubAddresses).rows.map (Audited.blank .pubAddresses)) := by
  have perm := gathersOver past.addresses (coveredNodup valid) fun x found => rewindCovered found
  rw [seenDeletes rfl] at perm
  exact perm.symm

end Past

theorem pastIsRead {history : List Event} (order : ChainOrder history) (b : Int) :
    (∀ t ∈ exactTables, asOf b (run history).db t = ((run history).beforeBlock b t).rows) ∧
      ((asOf b (run history).db .pubAddresses).map (Audited.blank .pubAddresses)).Perm
        (((run history).beforeBlock b .pubAddresses).rows.map (Audited.blank .pubAddresses)) := by
  have sound := soundRun order
  have kempt := sound.kempt
  refine ⟨fun t exact => ?_,pastAddresses kempt.valid (sound.past b)⟩
  exact pastExactly kempt.valid kempt.serial (beforeKempt sound b).serial (sound.past b) exact

theorem pastIsReadTransferred :
    (∀ t ∈ exactTables, asOf 2 (run (events transferred)).db t = ((run (events transferred)).beforeBlock 2 t).rows) ∧
      ((asOf 2 (run (events transferred)).db .pubAddresses).map (Audited.blank .pubAddresses)).Perm
        (((run (events transferred)).beforeBlock 2 .pubAddresses).rows.map (Audited.blank .pubAddresses)) :=
  pastIsRead (by decide +kernel) 2

theorem booksBefore {history : List Event} (order : ChainOrder history)
    (amounts : ∀ e ∈ history, e.call.amounts = true) (b : Int) : Books (fun _ => 0) ((run history).beforeBlock b) := by
  have always := booksRun order amounts
  unfold Node.beforeBlock
  split
  · rename_i p found
    exact always.2 p (List.mem_of_find?_eq_some found)
  · exact always.1

def transferredBefore (b : Int) (s : DB) (party : TokenTransfer → Option Int) (id : Int) : Int :=
  (((s .tokenTransfers).rows.filter fun r => same (party r) (some id) && !atLeast r.fkBlockNumber (some b)).map
    fun r => r.fioSufAmount.getD 0).sum

theorem transferredPast {s s₀ : DB} {b : Int} (past : Past b s s₀) (party : TokenTransfer → Option Int) (id : Int) :
    transferredBefore b s party id = ledgerSum s₀ party id := by
  unfold transferredBefore ledgerSum
  have rows : (s₀ .tokenTransfers).rows = (s .tokenTransfers).rows.filter fun r => !atLeast r.fkBlockNumber (some b) :=
    past.plain .tokenTransfers rfl
  rw [rows, List.filter_filter]

theorem pastBalances {history : List Event} (order : ChainOrder history)
    (amounts : ∀ e ∈ history, e.call.amounts = true) (b : Int) :
    ∀ r ∈ asOf b (run history).db .accounts, ∃ n, r.fioBalanceSuf = some n ∧ 0 ≤ n ∧ n ≤ supply ∧
      (r.accountName ≠ fioToken →
        n = transferredBefore b (run history).db TokenTransfer.fkPayeeAccountId r.pkAccountId -
          transferredBefore b (run history).db TokenTransfer.fkPayerAccountId r.pkAccountId) := by
  intro r mem
  have sound := soundRun order
  have past := sound.past b
  have books := booksBefore order amounts b
  have rows : asOf b (run history).db .accounts = ((run history).beforeBlock b .accounts).rows :=
    pastExactly sound.kempt.valid sound.kempt.serial (beforeKempt sound b).serial past (by decide)
  rw [rows] at mem
  obtain ⟨n,balance,low,high⟩ := books.bounded r mem
  refine ⟨n,balance,low,high,fun other => ?_⟩
  have agrees := books.agrees r mem other
  rw [balance] at agrees
  have agrees := Option.some.inj agrees
  rw [transferredPast past, transferredPast past, agrees]
  exact Int.add_zero _

def repaid : List Call := retransferred ++ [.insBlocks (some 3) none (some "b3") none none,
  .insTokenTransfers none (some 3) (some "bob") (some "alice") (some 2) (some "transfer") none none]

theorem pastBalancesRepaid : bob ∈ asOf 3 (run (events repaid)).db .accounts ∧
    ∃ n, bob.fioBalanceSuf = some n ∧ 0 ≤ n ∧ n ≤ supply ∧ (bob.accountName ≠ fioToken →
      n = transferredBefore 3 (run (events repaid)).db TokenTransfer.fkPayeeAccountId bob.pkAccountId -
        transferredBefore 3 (run (events repaid)).db TokenTransfer.fkPayerAccountId bob.pkAccountId) := by
  have stood : bob ∈ asOf 3 (run (events repaid)).db .accounts := by decide +kernel
  exact ⟨stood,pastBalances (by decide +kernel) (by decide) 3 bob stood⟩

end FioRelic
