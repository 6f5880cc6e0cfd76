import FioRelic.Tables

/-! The log*update and log*delete trigger functions and the triggers that run them.
Most label the operation with MAX(pk_block_number); the update triggers of public
addresses and NFT signatures label it with the new row's block number. -/
namespace FioRelic
open Relational

def maxBlock : Proc (Option Int) := do
  let s ← get
  return DB.head s

def stampOf (number : Option Int) : Proc (Option Timestamp) := do
  let s ← get
  return DB.stampOf s number

def updateOnly : OneOf ["update"] := ⟨"update",by decide⟩
def updateOperation : OneOf ["delete","update"] := ⟨"update",by decide⟩
def deleteOperation : OneOf ["delete","update"] := ⟨"delete",by decide⟩

def logAccountsUpdate (old : Account) : Proc Unit := do
  let blocktimestamp ← stampOf old.fkBlockNumber
  let currentblock ← maxBlock
  let _ ← insertInto .accountsAudit fun pk =>
    { pkAccountsAuditId := pk
      fkAccountId := old.pkAccountId
      fkBlockNumber := old.fkBlockNumber
      fkTableOperationBlockNumber := currentblock
      accountName := old.accountName
      publicKey := old.publicKey
      fioBalanceSuf := old.fioBalanceSuf
      blockTimestamp := old.blockTimestamp
      tableOperation := updateOnly
      tableTimestamp := blocktimestamp }

def logDomainsUpdate (old : Domain) : Proc Unit := do
  let blocktimestamp ← stampOf old.fkBlockNumber
  let currentblock ← maxBlock
  let _ ← insertInto .domainsAudit fun pk =>
    { pkDomainsAuditId := pk
      fkDomainId := old.pkDomainId
      fkBlockNumber := old.fkBlockNumber
      fkTableOperationBlockNumber := currentblock
      domainName := old.domainName
      fkOwnerAccountId := old.fkOwnerAccountId
      isPublic := old.isPublic
      expirationTimestamp := old.expirationTimestamp
      domainStatus := old.domainStatus
      tableOperation := updateOnly
      tableTimestamp := blocktimestamp }

def logHandlesUpdate (old : Handle) : Proc Unit := do
  let blocktimestamp ← stampOf old.fkBlockNumber
  let currentblock ← maxBlock
  let _ ← insertInto .handlesAudit fun pk =>
    { pkHandlesAuditId := pk
      fkHandleId := old.pkHandleId
      fkBlockNumber := old.fkBlockNumber
      fkTableOperationBlockNumber := currentblock
      fkDomainId := old.fkDomainId
      handle := old.handle
      fkOwnerAccountId := old.fkOwnerAccountId
      encryptionKey := old.encryptionKey
      isEncryptKeySet := old.isEncryptKeySet
      expirationStamp := old.expirationStamp
      handleStatus := old.handleStatus
      tableOperation := updateOperation
      tableTimestamp := blocktimestamp }

-- The column list leaves out binary_content, payer_pub_key and payee_pub_key.
def logFioRequestsUpdate (old : FioRequest) : Proc Unit := do
  let blocktimestamp ← stampOf old.fkBlockNumber
  let currentblock ← maxBlock
  let _ ← insertInto .fioRequestsAudit fun pk =>
    { pkFioRequestsAuditId := pk
      fkFioRequestsId := old.pkFioRequestsId
      fkBlockNumber := old.fkBlockNumber
      fkTableOperationBlockNumber := currentblock
      fioChainRequestId := old.fioChainRequestId
      fkPayerHandleId := old.fkPayerHandleId
      fkPayeeHandleId := old.fkPayeeHandleId
      binaryContent := none
      payerPubKey := none
      payeePubKey := none
      requestStatus := old.requestStatus
      fkTransactionId := old.fkTransactionId
      blockTimestamp := old.blockTimestamp
      tableOperation := updateOnly
      tableTimestamp := blocktimestamp }

-- OLD.pk_fio_datas_id: the column of fiodatas is pk_fio_data_id.
def logFioDatasUpdate (_old : FioData) : Proc Unit := do
  throw (.undefinedColumn "pk_fio_datas_id")

def logPubAddressesUpdate (old new : PubAddress) : Proc Unit := do
  let blocktimestamp ← stampOf old.fkBlockNumber
  let _ ← insertInto .pubAddressesAudit fun pk =>
    { pkPubAddressesAuditId := pk
      fkPubAddressesId := old.pkPubAddressesId
      fkBlockNumber := old.fkBlockNumber
      fkTableOperationBlockNumber := new.fkBlockNumber
      fkHandleId := old.fkHandleId
      chainCode := old.chainCode
      tokenCode := old.tokenCode
      pubAddress := old.pubAddress
      tableOperation := updateOperation
      tableTimestamp := blocktimestamp }

def logPubAddressesDelete (old : PubAddress) : Proc Unit := do
  let blocktimestamp ← stampOf old.fkBlockNumber
  let currentblock ← maxBlock
  let _ ← insertInto .pubAddressesAudit fun pk =>
    { pkPubAddressesAuditId := pk
      fkPubAddressesId := old.pkPubAddressesId
      fkBlockNumber := old.fkBlockNumber
      fkTableOperationBlockNumber := currentblock
      fkHandleId := old.fkHandleId
      chainCode := old.chainCode
      tokenCode := old.tokenCode
      pubAddress := old.pubAddress
      tableOperation := deleteOperation
      tableTimestamp := blocktimestamp }

def logNftSignaturesUpdate (old new : NftSignature) : Proc Unit := do
  let blocktimestamp ← stampOf old.fkBlockNumber
  let _ ← insertInto .nftSignaturesAudit fun pk =>
    { pkNftSignaturesAuditId := pk
      fkNftSignaturesId := old.pkNftSignaturesId
      fkBlockNumber := old.fkBlockNumber
      fkTableOperationBlockNumber := new.fkBlockNumber
      fkHandleId := old.fkHandleId
      chainCode := old.chainCode
      contractAddress := old.contractAddress
      tokenId := old.tokenId
      nftUrl := old.nftUrl
      nftHash := old.nftHash
      nftMetaData := old.nftMetaData
      tableOperation := updateOperation
      tableTimestamp := blocktimestamp }

def logNftSignaturesDelete (old : NftSignature) : Proc Unit := do
  let blocktimestamp ← stampOf old.fkBlockNumber
  let currentblock ← maxBlock
  let _ ← insertInto .nftSignaturesAudit fun pk =>
    { pkNftSignaturesAuditId := pk
      fkNftSignaturesId := old.pkNftSignaturesId
      fkBlockNumber := old.fkBlockNumber
      fkTableOperationBlockNumber := currentblock
      fkHandleId := old.fkHandleId
      chainCode := old.chainCode
      contractAddress := old.contractAddress
      tokenId := old.tokenId
      nftUrl := old.nftUrl
      nftHash := old.nftHash
      nftMetaData := old.nftMetaData
      tableOperation := deleteOperation
      tableTimestamp := blocktimestamp }

def onUpdate : (t : TableName) → Row t → Row t → Proc Unit
  | .accounts => fun old _ => logAccountsUpdate old
  | .domains => fun old _ => logDomainsUpdate old
  | .handles => fun old _ => logHandlesUpdate old
  | .fioRequests => fun old _ => logFioRequestsUpdate old
  | .fioDatas => fun old _ => logFioDatasUpdate old
  | .pubAddresses => logPubAddressesUpdate
  | .nftSignatures => logNftSignaturesUpdate
  | _ => fun _ _ => pure ()

def onDelete : (t : TableName) → Row t → Proc Unit
  | .pubAddresses => logPubAddressesDelete
  | .nftSignatures => logNftSignaturesDelete
  | _ => fun _ => pure ()

def update (t : TableName) (p : Row t → Bool) (assign : Row t → Row t) : Proc Unit :=
  updateWhere onUpdate t p assign

def delete (t : TableName) (p : Row t → Bool) : Proc Unit := deleteWhere onDelete t p

end FioRelic
