import FioRelic.Triggers

/-! The rb functions. A cursor holds, for every entity with an audit row at or after
the given block, the least id of those audit rows; each function writes that row
back. rbfork then deletes what the discarded blocks left, table by table. -/
namespace FioRelic
open Relational

structure Group where
  entity : Int
  least : Option Int
  deriving DecidableEq, Repr

/- SELECT entity, MIN(id) FROM log WHERE fk_table_operation_block_number >= bnumber
GROUP BY entity. The query is run at OPEN, so later statements do not change it. -/
def cursor {α : Type} (log : List α) (id entity : α → Int) (operation : α → Option Int)
    (bnumber : Option Int) : List Group :=
  let hits := log.filter fun a => atLeast (operation a) bnumber
  (hits.map entity).dedup.map fun x => ⟨x,((hits.filter fun a => decide (entity a = x)).map id).min?⟩

def rollbackFailed : Error := .raised "failed to find data required for rollback"
def rollbackUnsupported : Error :=
  .raised "rollback of operations other than updates not supported on audit table"

def rollbackRow (log : TableName) (id : Row log → Int) (undo : Int → Row log → Proc Unit) (retrow : Group) :
    Proc Unit := do
  let s ← get
  match (s log).rows.find? fun a => same (some (id a)) retrow.least with
  | none => throw rollbackFailed
  | some entry => undo retrow.entity entry

/- The body the rb functions share: rowsaffected counts the fetched rows. -/
def rollbackRows (log : TableName) (id entity : Row log → Int) (operation : Row log → Option Int)
    (bnumber : Option Int) (undo : Int → Row log → Proc Unit) : Proc (Option Int) := do
  if below bnumber (some 0) then return some 0
  let opened ← get
  let groups := cursor (opened log).rows id entity operation bnumber
  groups.forM (rollbackRow log id undo)
  toInt (some groups.length)

def rbAccounts (bnumber : Option Int) : Proc (Option Int) :=
  rollbackRows .accountsAudit AccountAudit.pkAccountsAuditId AccountAudit.fkAccountId
    AccountAudit.fkTableOperationBlockNumber bnumber fun accountId entry => do
      if entry.tableOperation.text ≠ "update" then throw rollbackUnsupported
      update .accounts (fun r => decide (r.pkAccountId = accountId)) fun r =>
        { r with
          fkBlockNumber := entry.fkBlockNumber
          accountName := entry.accountName
          publicKey := entry.publicKey
          fioBalanceSuf := entry.fioBalanceSuf
          blockTimestamp := entry.blockTimestamp }

def rbDomains (bnumber : Option Int) : Proc (Option Int) :=
  rollbackRows .domainsAudit DomainAudit.pkDomainsAuditId DomainAudit.fkDomainId
    DomainAudit.fkTableOperationBlockNumber bnumber fun domainId entry => do
      if entry.tableOperation.text ≠ "update" then throw rollbackUnsupported
      update .domains (fun r => decide (r.pkDomainId = domainId)) fun r =>
        { r with
          fkBlockNumber := entry.fkBlockNumber
          domainName := entry.domainName
          fkOwnerAccountId := entry.fkOwnerAccountId
          isPublic := entry.isPublic
          expirationTimestamp := entry.expirationTimestamp
          domainStatus := entry.domainStatus }

def rbHandles (bnumber : Option Int) : Proc (Option Int) :=
  rollbackRows .handlesAudit HandleAudit.pkHandlesAuditId HandleAudit.fkHandleId
    HandleAudit.fkTableOperationBlockNumber bnumber fun handleId entry => do
      if entry.tableOperation.text ≠ "update" then throw rollbackUnsupported
      update .handles (fun r => decide (r.pkHandleId = handleId)) fun r =>
        { r with
          fkBlockNumber := entry.fkBlockNumber
          fkDomainId := entry.fkDomainId
          handle := entry.handle
          fkOwnerAccountId := entry.fkOwnerAccountId
          encryptionKey := entry.encryptionKey
          isEncryptKeySet := entry.isEncryptKeySet
          expirationStamp := entry.expirationStamp
          handleStatus := entry.handleStatus }

def rbFioRequests (bnumber : Option Int) : Proc (Option Int) :=
  rollbackRows .fioRequestsAudit FioRequestAudit.pkFioRequestsAuditId FioRequestAudit.fkFioRequestsId
    FioRequestAudit.fkTableOperationBlockNumber bnumber fun requestId entry => do
      if entry.tableOperation.text ≠ "update" then throw rollbackUnsupported
      update .fioRequests (fun r => decide (r.pkFioRequestsId = requestId)) fun r =>
        { r with
          fkBlockNumber := entry.fkBlockNumber
          fioChainRequestId := entry.fioChainRequestId
          fkPayerHandleId := entry.fkPayerHandleId
          fkPayeeHandleId := entry.fkPayeeHandleId
          binaryContent := entry.binaryContent
          payerPubKey := entry.payerPubKey
          payeePubKey := entry.payeePubKey
          requestStatus := entry.requestStatus
          fkTransactionId := entry.fkTransactionId
          blockTimestamp := entry.blockTimestamp }

def rbFioDatas (bnumber : Option Int) : Proc (Option Int) :=
  rollbackRows .fioDatasAudit FioDataAudit.pkFioDatasAuditId FioDataAudit.fkFioDatasId
    FioDataAudit.fkTableOperationBlockNumber bnumber fun dataId entry => do
      if entry.tableOperation.text ≠ "update" then throw rollbackUnsupported
      update .fioDatas (fun r => decide (r.pkFioDataId = dataId)) fun r =>
        { r with
          fkBlockNumber := entry.fkBlockNumber
          fioChainRequestId := entry.fioChainRequestId
          fkPayerHandleId := entry.fkPayerHandleId
          fkPayeeHandleId := entry.fkPayeeHandleId
          binaryContent := entry.binaryContent
          payerPubKey := entry.payerPubKey
          payeePubKey := entry.payeePubKey
          dataStatus := entry.dataStatus
          fkTransactionId := entry.fkTransactionId
          blockTimestamp := entry.blockTimestamp }

-- A deleted address is inserted again under a fresh id; table_operation is not read.
def rbPubAddresses (bnumber : Option Int) : Proc (Option Int) :=
  rollbackRows .pubAddressesAudit PubAddressAudit.pkPubAddressesAuditId PubAddressAudit.fkPubAddressesId
    PubAddressAudit.fkTableOperationBlockNumber bnumber fun addressId entry => do
      let s ← get
      if (s .pubAddresses).rows.any fun r => decide (r.pkPubAddressesId = addressId) then
        update .pubAddresses (fun r => decide (r.pkPubAddressesId = addressId)) fun r =>
          { r with
            fkBlockNumber := entry.fkBlockNumber
            fkHandleId := entry.fkHandleId
            chainCode := entry.chainCode
            tokenCode := entry.tokenCode
            pubAddress := entry.pubAddress }
      else
        let _ ← insertInto .pubAddresses fun pk =>
          ⟨pk,entry.fkBlockNumber,entry.fkHandleId,entry.chainCode,entry.tokenCode,entry.pubAddress⟩

-- The inserted block number is blockprevop, a variable nothing assigns: NULL.
def rbNftSignatures (bnumber : Option Int) : Proc (Option Int) :=
  rollbackRows .nftSignaturesAudit NftSignatureAudit.pkNftSignaturesAuditId NftSignatureAudit.fkNftSignaturesId
    NftSignatureAudit.fkTableOperationBlockNumber bnumber fun signatureId entry => do
      let blockprevop : Option Int := none
      let s ← get
      if (s .nftSignatures).rows.any fun r => decide (r.pkNftSignaturesId = signatureId) then
        update .nftSignatures (fun r => decide (r.pkNftSignaturesId = signatureId)) fun r =>
          { r with
            fkBlockNumber := entry.fkBlockNumber
            fkHandleId := entry.fkHandleId
            nftUrl := entry.nftUrl
            nftHash := entry.nftHash
            nftMetaData := entry.nftMetaData }
      else
        let _ ← insertInto .nftSignatures fun pk =>
          ⟨pk,blockprevop,entry.fkHandleId,entry.chainCode,entry.contractAddress,entry.tokenId,
            entry.nftUrl,entry.nftHash,entry.nftMetaData⟩

structure Deletion where
  table : TableName
  condition : Row table → Bool

/- The DELETE statements of rbfork, in their order. -/
def forkDeletions (bnumber : Option Int) : List Deletion :=
  [ ⟨.fioDatasAudit,fun r => atLeast r.fkBlockNumber bnumber⟩,
    ⟨.fioDatasAudit,fun r => atLeast r.fkTableOperationBlockNumber bnumber⟩,
    ⟨.fioDatas,fun r => atLeast r.fkBlockNumber bnumber⟩,
    ⟨.fioRequestsAudit,fun r => atLeast r.fkBlockNumber bnumber⟩,
    ⟨.fioRequestsAudit,fun r => atLeast r.fkTableOperationBlockNumber bnumber⟩,
    ⟨.fioRequests,fun r => atLeast r.fkBlockNumber bnumber⟩,
    ⟨.handleActivities,fun r => atLeast r.fkBlockNumber bnumber⟩,
    ⟨.pubAddresses,fun r => atLeast r.fkBlockNumber bnumber⟩,
    ⟨.pubAddressesAudit,fun r => atLeast r.fkBlockNumber bnumber⟩,
    ⟨.pubAddressesAudit,fun r => atLeast r.fkTableOperationBlockNumber bnumber⟩,
    ⟨.handlesAudit,fun r => atLeast r.fkBlockNumber bnumber⟩,
    ⟨.handlesAudit,fun r => atLeast r.fkTableOperationBlockNumber bnumber⟩,
    ⟨.handles,fun r => atLeast r.fkBlockNumber bnumber⟩,
    ⟨.domainActivities,fun r => atLeast r.fkBlockNumber bnumber⟩,
    ⟨.domainsAudit,fun r => atLeast r.fkBlockNumber bnumber⟩,
    ⟨.domainsAudit,fun r => atLeast r.fkTableOperationBlockNumber bnumber⟩,
    ⟨.domains,fun r => atLeast r.fkBlockNumber bnumber⟩,
    ⟨.traces,fun r => atLeast r.fkBlockNumber bnumber⟩,
    ⟨.tokenStakings,fun r => atLeast r.fkBlockNumber bnumber⟩,
    ⟨.accountActivities,fun r => atLeast r.fkBlockNumber bnumber⟩,
    ⟨.accountsAudit,fun r => atLeast r.fkBlockNumber bnumber⟩,
    ⟨.accountsAudit,fun r => atLeast r.fkTableOperationBlockNumber bnumber⟩,
    ⟨.tokenTransfers,fun r => atLeast r.fkBlockNumber bnumber⟩,
    ⟨.transactions,fun r => atLeast r.fkBlockNumber bnumber⟩,
    ⟨.accounts,fun r => atLeast r.fkBlockNumber bnumber⟩,
    ⟨.nftSignatures,fun r => atLeast r.fkBlockNumber bnumber⟩,
    ⟨.nftSignaturesAudit,fun r => atLeast r.fkBlockNumber bnumber⟩,
    ⟨.nftSignaturesAudit,fun r => atLeast r.fkTableOperationBlockNumber bnumber⟩,
    ⟨.blocks,fun r => atLeast (some r.pkBlockNumber) bnumber⟩ ]

def rbFork (bnumber : Option Int) : Proc (Option Int) := do
  if below bnumber (some 0) then return some 0
  let _ ← rbHandles bnumber
  let _ ← rbDomains bnumber
  let _ ← rbAccounts bnumber
  let _ ← rbFioRequests bnumber
  let _ ← rbFioDatas bnumber
  let _ ← rbPubAddresses bnumber
  let _ ← rbNftSignatures bnumber
  (forkDeletions bnumber).forM fun d => delete d.table d.condition
  return some 1

end FioRelic
