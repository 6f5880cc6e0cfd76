import FioRelic.Triggers

/-! Stored procedures over public addresses and NFT signatures. A parameter has no width, so
a lookup compares the text as it was given, and only the columns cut it. -/
namespace FioRelic
open Relational

section
variable (server : Server)

def handleId (fiohandle : Option String) : Proc (Option Int) := do
  let found ← select server .handles fun r => same r.handle fiohandle
  return found.map Handle.pkHandleId

def insUpdPubAddresses (fkblocknumber : Option Int) (fiohandle chaincode tokencode pubaddress : Option String) :
    Proc (Option Int) := do
  if below fkblocknumber (some 0) then return some (-1)
  let handleid ← handleId server fiohandle
  let found ← select server .pubAddresses fun r =>
    same r.fkHandleId handleid && same r.chainCode chaincode && same r.tokenCode tokencode
  match found with
  | none =>
    let pkid ← insertInto .pubAddresses fun pk =>
      ⟨pk,fkblocknumber,handleid,cut 12 chaincode,cut 12 tokencode,cut 128 pubaddress⟩
    toInt (some pkid)
  | some row =>
    update .pubAddresses (fun r => decide (r.pkPubAddressesId = row.pkPubAddressesId)) fun r =>
      { r with
        fkBlockNumber := fkblocknumber
        pubAddress := cut 128 pubaddress }
    toInt (some row.pkPubAddressesId)

def delPubAddress (fiohandle chaincode tokencode pubaddress : Option String) : Proc (Option Int) := do
  let handleid ← handleId server fiohandle
  delete .pubAddresses fun r =>
    same r.fkHandleId handleid && same r.chainCode chaincode && same r.tokenCode tokencode &&
      same r.pubAddress pubaddress
  return some 1

def delPubAddresses (fiohandle : Option String) : Proc (Option Int) := do
  let handleid ← handleId server fiohandle
  delete .pubAddresses fun r => same r.fkHandleId handleid
  return some 1

def clearPubAddresses (fiohandle : Option String) : Proc (Option Int) := do
  let handleid ← handleId server fiohandle
  delete .pubAddresses fun r =>
    same r.fkHandleId handleid &&
      holds (truthNot (truthAnd (truthEq r.chainCode (some "FIO")) (truthEq r.tokenCode (some "FIO"))))
  return some 1

-- The SELECT names pk_pub_addresses_id_id; the column is pk_pub_addresses_id.
def existsPubAddress (fiohandle _chaincode _tokencode _pubaddress : Option String) : Proc (Option Int) := do
  let _ ← handleId server fiohandle
  throw (.undefinedColumn "pk_pub_addresses_id_id")

def insUpdNftSignatures (fkblocknumber : Option Int)
    (fiohandle chaincode contractaddress tokenid nfturl nfthash nftmetadata : Option String) :
    Proc (Option Int) := do
  if below fkblocknumber (some 0) then return some (-1)
  let handleid ← handleId server fiohandle
  let found ← select server .nftSignatures fun r =>
    same r.fkHandleId handleid && same r.chainCode chaincode && same r.contractAddress contractaddress &&
      same r.tokenId tokenid
  match found with
  | none =>
    let pkid ← insertInto .nftSignatures fun pk =>
      ⟨pk,fkblocknumber,handleid,cut 12 chaincode,cut 128 contractaddress,cut 128 tokenid,cut 128 nfturl,
        cut 64 nfthash,cut 128 nftmetadata⟩
    toInt (some pkid)
  | some row =>
    update .nftSignatures (fun r => decide (r.pkNftSignaturesId = row.pkNftSignaturesId)) fun r =>
      { r with
        fkBlockNumber := fkblocknumber
        fkHandleId := handleid
        nftUrl := cut 128 nfturl
        nftHash := cut 64 nfthash
        nftMetaData := cut 128 nftmetadata }
    toInt (some row.pkNftSignaturesId)

def delNftSignature (fiohandle chaincode contractaddress tokenid : Option String) : Proc (Option Int) := do
  let handleid ← handleId server fiohandle
  delete .nftSignatures fun r =>
    same r.fkHandleId handleid && same r.chainCode chaincode && same r.contractAddress contractaddress &&
      same r.tokenId tokenid
  return some 1

def delNftSignatures (fiohandle : Option String) : Proc (Option Int) := do
  let handleid ← handleId server fiohandle
  delete .nftSignatures fun r => same r.fkHandleId handleid
  return some 1

end
end FioRelic
