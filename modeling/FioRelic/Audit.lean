import FioRelic.Triggers
import FioRelic.Versioning.Reinsertion

/-! The audited tables. Six tables have an UPDATE trigger that works, two of them a
DELETE trigger as well; each appends the old row to its audit table. This is where the
row of an audit entry is read as a row again, and what one statement appends. -/
namespace FioRelic
open Relational Versioning

inductive Audited where
  | accounts | domains | handles | fioRequests | pubAddresses | nftSignatures
  deriving DecidableEq, Repr

namespace Audited

@[reducible] def table : Audited → TableName
  | .accounts => .accounts
  | .domains => .domains
  | .handles => .handles
  | .fioRequests => .fioRequests
  | .pubAddresses => .pubAddresses
  | .nftSignatures => .nftSignatures

@[reducible] def log : Audited → TableName
  | .accounts => .accountsAudit
  | .domains => .domainsAudit
  | .handles => .handlesAudit
  | .fioRequests => .fioRequestsAudit
  | .pubAddresses => .pubAddressesAudit
  | .nftSignatures => .nftSignaturesAudit

/- The part of a row its trigger copies: three columns of a request are left out. -/
def copied : (a : Audited) → Row a.table → Row a.table
  | .accounts => fun r => r
  | .domains => fun r => r
  | .handles => fun r => r
  | .fioRequests => fun r => { r with binaryContent := none, payerPubKey := none, payeePubKey := none }
  | .pubAddresses => fun r => r
  | .nftSignatures => fun r => r

def row : (a : Audited) → Row a.log → Row a.table
  | .accounts => fun e =>
    ⟨e.fkAccountId,e.fkBlockNumber,e.accountName,e.publicKey,e.fioBalanceSuf,e.blockTimestamp⟩
  | .domains => fun e =>
    ⟨e.fkDomainId,e.fkBlockNumber,e.domainName,e.fkOwnerAccountId,e.isPublic,e.expirationTimestamp,e.domainStatus⟩
  | .handles => fun e =>
    ⟨e.fkHandleId,e.fkBlockNumber,e.fkDomainId,e.handle,e.fkOwnerAccountId,e.encryptionKey,e.isEncryptKeySet,
      e.expirationStamp,e.handleStatus⟩
  | .fioRequests => fun e =>
    ⟨e.fkFioRequestsId,e.fkBlockNumber,e.fioChainRequestId,e.fkPayerHandleId,e.fkPayeeHandleId,e.binaryContent,
      e.payerPubKey,e.payeePubKey,e.requestStatus,e.fkTransactionId,e.blockTimestamp⟩
  | .pubAddresses => fun e =>
    ⟨e.fkPubAddressesId,e.fkBlockNumber,e.fkHandleId,e.chainCode,e.tokenCode,e.pubAddress⟩
  | .nftSignatures => fun e =>
    ⟨e.fkNftSignaturesId,e.fkBlockNumber,e.fkHandleId,e.chainCode,e.contractAddress,e.tokenId,e.nftUrl,e.nftHash,
      e.nftMetaData⟩

def written : (a : Audited) → Row a.log → Option Int
  | .accounts => AccountAudit.fkTableOperationBlockNumber
  | .domains => DomainAudit.fkTableOperationBlockNumber
  | .handles => HandleAudit.fkTableOperationBlockNumber
  | .fioRequests => FioRequestAudit.fkTableOperationBlockNumber
  | .pubAddresses => PubAddressAudit.fkTableOperationBlockNumber
  | .nftSignatures => NftSignatureAudit.fkTableOperationBlockNumber

def operation : (a : Audited) → Row a.log → String
  | .accounts => fun e => e.tableOperation.text
  | .domains => fun e => e.tableOperation.text
  | .handles => fun e => e.tableOperation.text
  | .fioRequests => fun e => e.tableOperation.text
  | .pubAddresses => fun e => e.tableOperation.text
  | .nftSignatures => fun e => e.tableOperation.text

def timestamp : (a : Audited) → Row a.log → Option Timestamp
  | .accounts => AccountAudit.tableTimestamp
  | .domains => DomainAudit.tableTimestamp
  | .handles => HandleAudit.tableTimestamp
  | .fioRequests => FioRequestAudit.tableTimestamp
  | .pubAddresses => PubAddressAudit.tableTimestamp
  | .nftSignatures => NftSignatureAudit.tableTimestamp

def updated : (a : Audited) → DB → Row a.table → Option Int
  | .pubAddresses => fun _ new => new.fkBlockNumber
  | .nftSignatures => fun _ new => new.fkBlockNumber
  | _ => fun s _ => DB.head s

def fixed : (a : Audited) → Row a.table → List (Option Int) × List (Option String)
  | .accounts => fun r => ([],[r.accountName])
  | .domains => fun r => ([],[r.domainName])
  | .handles => fun r => ([],[r.handle])
  | .fioRequests => fun r => ([r.fkBlockNumber,r.fioChainRequestId,r.fkPayerHandleId,r.fkPayeeHandleId,
      r.fkTransactionId,r.blockTimestamp],[])
  | .pubAddresses => fun r => ([r.fkHandleId],[r.chainCode,r.tokenCode])
  | .nftSignatures => fun r => ([r.fkHandleId],[r.chainCode,r.contractAddress,r.tokenId])

def deletes : Audited → Bool
  | .pubAddresses | .nftSignatures => true
  | _ => false

def layout (a : Audited) : Layout (Row a.table) (Row a.log) where
  key := key a.table
  stamp := fkBlockNumber a.table
  row := a.row
  written := a.written

@[simp] theorem keyCopied (a : Audited) (r : Row a.table) : key a.table (a.copied r) = key a.table r := by
  cases a <;> rfl

@[simp] theorem stampCopied (a : Audited) (r : Row a.table) :
    fkBlockNumber a.table (a.copied r) = fkBlockNumber a.table r := by
  cases a <;> rfl

theorem fixedCopied (a : Audited) (r : Row a.table) : a.fixed (a.copied r) = a.fixed r := by cases a <;> rfl

theorem copiedCopied (a : Audited) (r : Row a.table) : a.copied (a.copied r) = a.copied r := by cases a <;> rfl

theorem logOther (a : Audited) : a.log ≠ a.table := by cases a <;> decide
theorem logBlocks (a : Audited) : a.log ≠ .blocks := by cases a <;> decide
theorem tableBlocks (a : Audited) : a.table ≠ .blocks := by cases a <;> decide

end Audited

structure Entry (a : Audited) (s : DB) (old : Row a.table) (operationBlock : Option Int) (operation : String)
    (e : Row a.log) : Prop where
  row : a.row e = a.copied old
  written : a.written e = operationBlock
  operation : a.operation e = operation
  timestamp : a.timestamp e = DB.stampOf s (fkBlockNumber a.table old)

section Triggers
variable {s s' : DB}

theorem stampOfOk {number : Option Int} {v : Option Timestamp} :
    stampOf number s = .ok (v,s') ↔ v = DB.stampOf s number ∧ s' = s := by
  simp only [stampOf, bindOk, getOk, pureOk]
  exact ⟨fun ⟨_,_,⟨a,m⟩,h,h'⟩ => by subst a m; exact ⟨h,h'⟩,fun ⟨h,h'⟩ => ⟨s,s,⟨rfl,rfl⟩,h,h'⟩⟩

theorem maxBlockOk {v : Option Int} : maxBlock s = .ok (v,s') ↔ v = DB.head s ∧ s' = s := by
  simp only [maxBlock, bindOk, getOk, pureOk]
  exact ⟨fun ⟨_,_,⟨a,m⟩,h,h'⟩ => by subst a m; exact ⟨h,h'⟩,fun ⟨h,h'⟩ => ⟨s,s,⟨rfl,rfl⟩,h,h'⟩⟩

theorem appendOk {t : TableName} {row : Int → Row t} :
    ((do let _ ← insertInto t row) : Proc Unit) s = .ok ((),s') ↔
      s' = s.append t [row (s t).next] ∧ s'.Valid := by
  simp only [bindOk, insertIntoOk, pureOk]
  exact ⟨fun ⟨_,_,⟨_,h,valid⟩,_,h'⟩ => by subst h'; exact ⟨h,valid⟩,fun ⟨h,valid⟩ => ⟨_,_,⟨rfl,h,valid⟩,trivial,rfl⟩⟩

theorem atHeadOk {t : TableName} {number : Option Int} {row : Option Timestamp → Option Int → Int → Row t} :
    ((do
      let blocktimestamp ← stampOf number
      let currentblock ← maxBlock
      let _ ← insertInto t (row blocktimestamp currentblock)) : Proc Unit) s = .ok ((),s') ↔
      s' = s.append t [row (DB.stampOf s number) (DB.head s) (s t).next] ∧ s'.Valid := by
  rw [bindOk]
  constructor
  · intro ⟨_,_,stamp,rest⟩
    obtain ⟨rfl,rfl⟩ := stampOfOk.mp stamp
    obtain ⟨_,_,head,last⟩ := bindOk.mp rest
    obtain ⟨rfl,rfl⟩ := maxBlockOk.mp head
    exact appendOk.mp last
  · intro last
    exact ⟨_,_,stampOfOk.mpr ⟨rfl,rfl⟩,bindOk.mpr ⟨_,_,maxBlockOk.mpr ⟨rfl,rfl⟩,appendOk.mpr last⟩⟩

theorem atRowOk {t : TableName} {number : Option Int} {row : Option Timestamp → Int → Row t} :
    ((do
      let blocktimestamp ← stampOf number
      let _ ← insertInto t (row blocktimestamp)) : Proc Unit) s = .ok ((),s') ↔
      s' = s.append t [row (DB.stampOf s number) (s t).next] ∧ s'.Valid := by
  rw [bindOk]
  constructor
  · intro ⟨_,_,stamp,rest⟩
    obtain ⟨rfl,rfl⟩ := stampOfOk.mp stamp
    exact appendOk.mp rest
  · intro last
    exact ⟨_,_,stampOfOk.mpr ⟨rfl,rfl⟩,appendOk.mpr last⟩

theorem onUpdateWrites (a : Audited) (old new : Row a.table) (s : DB) :
    ∃ e, Entry a s old (a.updated s new) "update" e ∧ key a.log e = (s a.log).next ∧
      ∀ s', onUpdate a.table old new s = .ok ((),s') ↔ s' = s.append a.log [e] ∧ s'.Valid := by
  cases a with
  | accounts => exact ⟨_,⟨rfl,rfl,rfl,rfl⟩,rfl,fun _ => atHeadOk⟩
  | domains => exact ⟨_,⟨rfl,rfl,rfl,rfl⟩,rfl,fun _ => atHeadOk⟩
  | handles => exact ⟨_,⟨rfl,rfl,rfl,rfl⟩,rfl,fun _ => atHeadOk⟩
  | fioRequests => exact ⟨_,⟨rfl,rfl,rfl,rfl⟩,rfl,fun _ => atHeadOk⟩
  | pubAddresses => exact ⟨_,⟨rfl,rfl,rfl,rfl⟩,rfl,fun _ => atRowOk⟩
  | nftSignatures => exact ⟨_,⟨rfl,rfl,rfl,rfl⟩,rfl,fun _ => atRowOk⟩

theorem onDeleteWrites {a : Audited} (deletes : a.deletes = true) (old : Row a.table) (s : DB) :
    ∃ e, Entry a s old (DB.head s) "delete" e ∧ key a.log e = (s a.log).next ∧
      ∀ s', onDelete a.table old s = .ok ((),s') ↔ s' = s.append a.log [e] ∧ s'.Valid := by
  cases a <;> try contradiction
  case pubAddresses => exact ⟨_,⟨rfl,rfl,rfl,rfl⟩,rfl,fun _ => atHeadOk⟩
  case nftSignatures => exact ⟨_,⟨rfl,rfl,rfl,rfl⟩,rfl,fun _ => atHeadOk⟩

end Triggers

instance (t : TableName) : DecidableEq (Row t) := decideRow t

def Drawn (t : TableName) (start : Int) (rows : List (Row t)) : Prop :=
  ∀ (i : Nat) r, rows[i]? = some r → key t r = start + i

structure Entries (a : Audited) (s : DB) (operationBlock : Row a.table → Option Int) (operation : String)
    (hits : List (Row a.table)) (entries : List (Row a.log)) : Prop where
  each : List.Forall₂ (fun old e => Entry a s old (operationBlock old) operation e) hits entries
  drawn : Drawn a.log (s a.log).next entries

def changed {ρ : Type} [DecidableEq ρ] (p : ρ → Bool) (assign : ρ → ρ) (rows : List ρ) : List ρ :=
  rows.filter fun r => p r && decide (r ≠ assign r)

def assigned {ρ : Type} (p : ρ → Bool) (assign : ρ → ρ) (r : ρ) : ρ := if p r then assign r else r

namespace DB
variable {s : DB} {t : TableName}

theorem headAppend (h : t ≠ .blocks) (rows : List (Row t)) : DB.head (s.append t rows) = DB.head s := by
  simp only [DB.head, DB.blockNumbers, Database.appendOther s h.symm]

theorem headWithRows (h : t ≠ .blocks) (rows : List (Row t)) : DB.head (s.withRows t rows) = DB.head s := by
  simp only [DB.head, DB.blockNumbers, Database.withRowsOther s h.symm]

theorem stampOfAppend (h : t ≠ .blocks) (rows : List (Row t)) (number : Option Int) :
    DB.stampOf (s.append t rows) number = DB.stampOf s number := by
  simp only [DB.stampOf, Database.appendOther s h.symm]

theorem stampOfWithRows (h : t ≠ .blocks) (rows : List (Row t)) (number : Option Int) :
    DB.stampOf (s.withRows t rows) number = DB.stampOf s number := by
  simp only [DB.stampOf, Database.withRowsOther s h.symm]

end DB

theorem forMNil {α : Type} {f : α → Proc Unit} {s s' : DB} :
    ([] : List α).forM f s = .ok ((),s') ↔ s' = s := by
  change (pure () : Proc Unit) s = .ok ((),s') ↔ s' = s
  rw [pureOk]
  exact ⟨fun h => h.2,fun h => ⟨rfl,h⟩⟩

theorem forMCons {α : Type} {f : α → Proc Unit} {x : α} {xs : List α} {s s' : DB} :
    (x :: xs).forM f s = .ok ((),s') ↔ ∃ middle, f x s = .ok ((),middle) ∧ xs.forM f middle = .ok ((),s') := by
  change (f x >>= fun _ => xs.forM f) s = .ok ((),s') ↔ _
  rw [bindOk]
  exact ⟨fun ⟨_,m,h,h'⟩ => ⟨m,h,h'⟩,fun ⟨m,h,h'⟩ => ⟨(),m,h,h'⟩⟩

theorem forMAppend {α : Type} {f : α → Proc Unit} {xs ys : List α} {s s' : DB} :
    (xs ++ ys).forM f s = .ok ((),s') ↔ ∃ middle, xs.forM f s = .ok ((),middle) ∧ ys.forM f middle = .ok ((),s') := by
  induction xs generalizing s with
  | nil =>
    simp only [List.nil_append, forMNil]
    exact ⟨fun h => ⟨s,rfl,h⟩,fun ⟨_,same,h⟩ => same ▸ h⟩
  | cons x xs ih =>
    simp only [List.cons_append, forMCons, ih]
    exact ⟨fun ⟨m,h,m',h',h''⟩ => ⟨m',⟨m,h,h'⟩,h''⟩,fun ⟨m',⟨m,h,h'⟩,h''⟩ => ⟨m,h,m',h',h''⟩⟩

section Statements
variable {s s' : DB} {a : Audited}

theorem triggersWrite {trigger : Row a.table → Proc Unit} (block : DB → Row a.table → Option Int)
    {operation : String}
    (writes : ∀ old m, ∃ e, Entry a m old (block m old) operation e ∧ key a.log e = (m a.log).next ∧
      ∀ m', trigger old m = .ok ((),m') ↔ m' = m.append a.log [e] ∧ m'.Valid)
    (stable : ∀ m rows old, block (m.append a.log rows) old = block m old) {hits : List (Row a.table)}
    (valid : s.Valid) (ran : hits.forM trigger s = .ok ((),s')) :
    ∃ entries, Entries a s (block s) operation hits entries ∧ s' = s.append a.log entries ∧ s'.Valid := by
  induction hits generalizing s with
  | nil =>
    rw [forMNil] at ran
    subst ran
    exact ⟨[],⟨.nil,fun i r h => by simp at h⟩,(Database.appendNil s' a.log).symm,valid⟩
  | cons old rest ih =>
    obtain ⟨middle,first,later⟩ := forMCons.mp ran
    obtain ⟨e,entry,number,runs⟩ := writes old s
    obtain ⟨rfl,valid'⟩ := (runs middle).mp first
    obtain ⟨entries,⟨each,drawn⟩,target,valid''⟩ := ih valid' later
    refine ⟨e :: entries,⟨.cons entry ?_,?_⟩,?_,valid''⟩
    · refine each.imp fun old' e' entry' => ?_
      rw [stable] at entry'
      exact ⟨entry'.row,entry'.written,entry'.operation,by rw [entry'.timestamp, DB.stampOfAppend a.logBlocks]⟩
    · intro i r h
      cases i with
      | zero =>
        cases Option.some.inj h
        simpa using number
      | succ i =>
        have later := drawn i r (by simpa using h)
        simp only [Database.appendSame, List.length_cons, List.length_nil] at later
        rw [later]
        omega
    · rw [target, Database.appendAppend]
      rfl

theorem updatedAppend (m : DB) (rows : List (Row a.log)) (r : Row a.table) :
    a.updated (m.append a.log rows) r = a.updated m r := by
  cases a <;> rfl

theorem updateWrites {p : Row a.table → Bool} {assign : Row a.table → Row a.table}
    (ran : update a.table p assign s = .ok ((),s')) :
    ∃ entries, Entries a s (fun old => a.updated s (assign old)) "update" (changed p assign (s a.table).rows) entries ∧
      s' = (s.withRows a.table ((s a.table).rows.map (assigned p assign))).append a.log entries ∧
      (s.withRows a.table ((s a.table).rows.map (assigned p assign))).Valid ∧ s'.Valid := by
  obtain ⟨valid,fired⟩ := updateWhereOk.mp ran
  obtain ⟨entries,⟨each,drawn⟩,target,valid'⟩ := triggersWrite
    (fun m old => a.updated m (assign old)) (fun old m => onUpdateWrites a old (assign old) m)
    (fun m rows old => updatedAppend m rows (assign old)) valid fired
  refine ⟨entries,⟨?_,?_⟩,target,valid,valid'⟩
  · refine each.imp fun old e entry => ?_
    refine ⟨entry.row,?_,entry.operation,by rw [entry.timestamp, DB.stampOfWithRows a.tableBlocks]⟩
    rw [entry.written]
    cases a <;> rfl
  · rwa [Database.withRowsOther s a.logOther] at drawn

theorem deleteWrites (deletes : a.deletes = true) {p : Row a.table → Bool}
    (ran : delete a.table p s = .ok ((),s')) :
    ∃ entries, Entries a s (fun _ => DB.head s) "delete" ((s a.table).rows.filter p) entries ∧
      s' = (s.withRows a.table ((s a.table).rows.filter fun r => !p r)).append a.log entries ∧
      (s.withRows a.table ((s a.table).rows.filter fun r => !p r)).Valid ∧ s'.Valid := by
  obtain ⟨valid,fired⟩ := deleteWhereOk.mp ran
  obtain ⟨entries,⟨each,drawn⟩,target,valid'⟩ := triggersWrite (fun m _ => DB.head m)
    (fun old m => onDeleteWrites deletes old m) (fun m rows _ => DB.headAppend a.logBlocks rows) valid fired
  refine ⟨entries,⟨?_,?_⟩,target,valid,valid'⟩
  · refine each.imp fun old e entry => ?_
    exact ⟨entry.row,by rw [entry.written, DB.headWithRows a.tableBlocks],entry.operation,
      by rw [entry.timestamp, DB.stampOfWithRows a.tableBlocks]⟩
  · rwa [Database.withRowsOther s a.logOther] at drawn

theorem deletePlain {t : TableName} (silent : ∀ old, onDelete t old = pure ()) {p : Row t → Bool} :
    delete t p s = .ok ((),s') ↔
      s' = s.withRows t ((s t).rows.filter fun r => !p r) ∧ s'.Valid := by
  have nothing : ∀ (hits : List (Row t)) (m m' : DB), hits.forM (onDelete t) m = .ok ((),m') ↔ m' = m := by
    intro hits
    induction hits with
    | nil => exact fun m m' => forMNil
    | cons old rest ih =>
      intro m m'
      simp only [forMCons, silent, pureOk, ih]
      exact ⟨fun ⟨_,⟨_,h⟩,h'⟩ => h'.trans h,fun h => ⟨m,⟨trivial,rfl⟩,h⟩⟩
  rw [delete, deleteWhereOk, nothing]
  exact ⟨fun ⟨valid,h⟩ => ⟨h,h ▸ valid⟩,fun ⟨h,valid⟩ => ⟨h ▸ valid,h⟩⟩

end Statements
end FioRelic
