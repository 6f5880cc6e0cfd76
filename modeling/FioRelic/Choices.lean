import FioRelic.Footprints
import FioRelic.Names
import FioRelic.SignatureRollback
import FioRelic.HandleMutators
import FioRelic.Lasting
import FioRelic.Relational.Agree

/-! What the scripts leave open. Their SELECT INTO take one row and do not say which, so a
server may take another one where several match. As long as no name is given twice no
lookup matches two rows, and all servers end with the same database. -/
namespace FioRelic
open Relational Versioning

def addressSlot (r : PubAddress) : Option (Int × String × String) := do
  return (← r.fkHandleId,← r.chainCode,← r.tokenCode)

def signatureSlot (r : NftSignature) : Option (Int × String × String × String) := do
  return (← r.fkHandleId,← r.chainCode,← r.contractAddress,← r.tokenId)

def addressSlots (s : DB) : List (Int × String × String) := (s .pubAddresses).rows.filterMap addressSlot

def signatureSlots (s : DB) : List (Int × String × String × String) := (s .nftSignatures).rows.filterMap signatureSlot

def requestIds (s : DB) : List Int := (s .fioRequests).rows.filterMap FioRequest.fioChainRequestId

structure Single (s : DB) : Prop where
  valid : s.Valid
  handles : (handleTexts s).Nodup
  domains : (domainNames s).Nodup
  requests : (requestIds s).Nodup
  addresses : (addressSlots s).Nodup
  signatures : (signatureSlots s).Nodup

section Lookups
variable {β : Type} {server server' : Server} {s s' : DB}

theorem slotUnder {id : Option Int} {c t : Option String} (r : PubAddress)
    (hit : (same r.fkHandleId id && same r.chainCode c && same r.tokenCode t) = true) :
    ∃ k, addressSlot r = some k ∧ (do return (← id,← c,← t)) = some k := by
  simp only [Bool.and_eq_true] at hit
  obtain ⟨⟨handle,chain⟩,token⟩ := hit
  obtain ⟨i,own,rfl⟩ := sameTrue.mp handle
  obtain ⟨x,coded,rfl⟩ := sameTrue.mp chain
  obtain ⟨y,tokened,rfl⟩ := sameTrue.mp token
  refine ⟨(i,x,y),?_,rfl⟩
  rw [addressSlot, own, coded, tokened]
  rfl

theorem tokenUnder {id : Option Int} {c a t : Option String} (r : NftSignature)
    (hit : (same r.fkHandleId id && same r.chainCode c && same r.contractAddress a && same r.tokenId t) = true) :
    ∃ k, signatureSlot r = some k ∧ (do return (← id,← c,← a,← t)) = some k := by
  simp only [Bool.and_eq_true] at hit
  obtain ⟨⟨⟨handle,chain⟩,contract⟩,token⟩ := hit
  obtain ⟨i,own,rfl⟩ := sameTrue.mp handle
  obtain ⟨x,coded,rfl⟩ := sameTrue.mp chain
  obtain ⟨y,contracted,rfl⟩ := sameTrue.mp contract
  obtain ⟨z,tokened,rfl⟩ := sameTrue.mp token
  refine ⟨(i,x,y,z),?_,rfl⟩
  rw [signatureSlot, own, coded, contracted, tokened]
  rfl

theorem Single.account (single : Single s) (name : Option String) :
    ((s .accounts).rows.filter fun r => same r.accountName name).length ≤ 1 := by
  have once : ((s .accounts).rows.filterMap Account.accountName).Nodup :=
    single.valid.uniqueNodup (t := .accounts) List.mem_cons_self
  exact oneHit once fun _ hit => sameTrue.mp hit

theorem Single.accountNumber (single : Single s) (id : Option Int) :
    ((s .accounts).rows.filter fun r => same (some r.pkAccountId) id).length ≤ 1 := by
  have once : ((s .accounts).rows.filterMap fun r => some r.pkAccountId).Nodup := by
    rw [List.filterMap_eq_map']
    exact single.valid.keysNodup .accounts
  exact oneHit once fun _ hit => sameTrue.mp hit

theorem Single.handle (single : Single s) (name : Option String) :
    ((s .handles).rows.filter fun r => same r.handle name).length ≤ 1 :=
  oneHit single.handles fun _ hit => sameTrue.mp hit

theorem Single.domain (single : Single s) (name : Option String) :
    ((s .domains).rows.filter fun r => same r.domainName name).length ≤ 1 :=
  oneHit single.domains fun _ hit => sameTrue.mp hit

theorem Single.request (single : Single s) (id : Option Int) :
    ((s .fioRequests).rows.filter fun r => same r.fioChainRequestId id).length ≤ 1 :=
  oneHit single.requests fun _ hit => sameTrue.mp hit

theorem Single.beside (single : Single s) (valid : s'.Valid) (others : ∀ t ∈ [TableName.handles,.domains,.fioRequests,
    .pubAddresses,.nftSignatures], s' t = s t) : Single s' := by
  refine ⟨valid,?_,?_,?_,?_,?_⟩
  · unfold handleTexts
    rw [others .handles (by decide)]
    exact single.handles
  · unfold domainNames
    rw [others .domains (by decide)]
    exact single.domains
  · unfold requestIds
    rw [others .fioRequests (by decide)]
    exact single.requests
  · unfold addressSlots
    rw [others .pubAddresses (by decide)]
    exact single.addresses
  · unfold signatureSlots
    rw [others .nftSignatures (by decide)]
    exact single.signatures

theorem accountInserted {row : Int → Account} {k : Int} (single : Single s)
    (ran : insertInto (S := relic) .accounts row s = .ok (k,s')) : Single s' := by
  obtain ⟨_,rfl,valid⟩ := insertIntoOk.mp ran
  refine single.beside valid fun t searched => Database.appendOther _ (fun same => ?_) _
  subst same
  revert searched
  decide

theorem accountUpdated {p : Account → Bool} {assign : Account → Account} (single : Single s)
    (ran : update .accounts p assign s = .ok ((),s')) : Single s' := by
  obtain ⟨_,_,_,_,valid⟩ := updateWrites (a := .accounts) ran
  refine single.beside valid fun t searched => ?_
  have frames : Frames [.accounts,.accountsAudit] (update .accounts p assign) := .update .accounts (by decide)
  refine frames s () s' ran t ?_
  revert searched
  cases t <;> decide

end Lookups

namespace Relational.Agree
variable {β : Type} {server server' : Server} {name : Option String}

theorem account {f g : Option Account → FioRelic.Proc β} (rest : ∀ found, Agree Single (f found) (g found)) :
    Agree Single (FioRelic.select server .accounts (fun r => same r.accountName name) >>= f)
      (FioRelic.select server' .accounts (fun r => same r.accountName name) >>= g) :=
  selected (fun _ single => single.account name) rest

theorem accountNumber {id : Option Int} {f g : Option Account → FioRelic.Proc β}
    (rest : ∀ found, Agree Single (f found) (g found)) :
    Agree Single (FioRelic.select server .accounts (fun r => same (some r.pkAccountId) id) >>= f)
      (FioRelic.select server' .accounts (fun r => same (some r.pkAccountId) id) >>= g) :=
  selected (fun _ single => single.accountNumber id) rest

theorem handle {f g : Option Handle → FioRelic.Proc β} (rest : ∀ found, Agree Single (f found) (g found)) :
    Agree Single (FioRelic.select server .handles (fun r => same r.handle name) >>= f)
      (FioRelic.select server' .handles (fun r => same r.handle name) >>= g) :=
  selected (fun _ single => single.handle name) rest

theorem domain {f g : Option Domain → FioRelic.Proc β} (rest : ∀ found, Agree Single (f found) (g found)) :
    Agree Single (FioRelic.select server .domains (fun r => same r.domainName name) >>= f)
      (FioRelic.select server' .domains (fun r => same r.domainName name) >>= g) :=
  selected (fun _ single => single.domain name) rest

theorem request {id : Option Int} {f g : Option FioRequest → FioRelic.Proc β}
    (rest : ∀ found, Agree Single (f found) (g found)) :
    Agree Single (FioRelic.select server .fioRequests (fun r => same r.fioChainRequestId id) >>= f)
      (FioRelic.select server' .fioRequests (fun r => same r.fioChainRequestId id) >>= g) :=
  selected (fun _ single => single.request id) rest

theorem handleId {f g : Option Int → FioRelic.Proc β} (rest : ∀ id, Agree Single (f id) (g id)) :
    Agree Single (FioRelic.handleId server name >>= f) (FioRelic.handleId server' name >>= g) := by
  unfold FioRelic.handleId
  rw [bind_assoc, bind_assoc]
  exact handle fun _ => read refl (fun _ => Reads.pure) rest

theorem inserted {row : Int → Account} {f g : Int → FioRelic.Proc β} (rest : ∀ id, Agree Single (f id) (g id)) :
    Agree Single (insertInto (S := relic) .accounts row >>= f) (insertInto (S := relic) .accounts row >>= g) :=
  bind refl (fun _ _ _ single ran => accountInserted single ran) rest

theorem withActor {b : Option Int} {stamp : Option Timestamp} {f g : Option Int → FioRelic.Proc β}
    (rest : ∀ id, Agree Single (f id) (g id)) :
    Agree Single (FioRelic.withActor server b name stamp f) (FioRelic.withActor server' b name stamp g) := by
  refine account fun actor => ?_
  cases actor with
  | some row => exact rest _
  | none => exact ite (inserted fun _ => rest _) (ite (inserted fun _ => rest _) (rest _))

end Relational.Agree

section Procedures
variable {server server' : Server}

theorem insTransactionsAgrees {b m : Option Int} {t : Option Timestamp} {x ac an a p q r w : Option String} :
    Agree Single (insTransactions server b t x ac an a p m q r w) (insTransactions server' b t x ac an a p m q r w) := by
  refine .guarded (.account fun found => ?_)
  cases found with
  | some row => exact .withActor fun _ => .refl
  | none => exact .ite .refl (.inserted fun _ => .withActor fun _ => .refl)

theorem insTracesAgrees {x b o : Option Int} {ac rc a q : Option String} {t : Option Timestamp} :
    Agree Single (insTraces server x b ac rc o a q t) (insTraces server' x b ac rc o a q t) := by
  refine .guarded (.account fun found => ?_)
  cases found with
  | some row => exact .withActor fun _ => .refl
  | none => exact .ite (.inserted fun _ => .withActor fun _ => .refl) (.inserted fun _ => .withActor fun _ => .refl)

/- The payer's balance is written before the payee is looked up. -/
theorem insTokenTransfersAgrees {x b n : Option Int} {p q k m : Option String} {t : Option Timestamp} :
    Agree Single (insTokenTransfers server x b p q n k m t) (insTokenTransfers server' x b p q n k m t) := by
  refine .guarded (.account fun payer => .read .refl (fun _ _ _ ran => (toBigintOk.mp ran).2.1) fun balance => ?_)
  refine .ite .refl (.bind .refl (fun _ _ _ single ran => accountUpdated single ran) fun _ => .account fun payee => ?_)
  exact .refl

end Procedures

theorem callAgrees {server server' : Server} (stamps : server.timestamp = server'.timestamp) (c : Call) :
    Agree Single (c.run server) (c.run server') := by
  cases c with
  | insBlocks n t i p w =>
    have casts : castTimestamp server t = castTimestamp server' t := by
      unfold castTimestamp
      rw [stamps]
    change Agree Single (FioRelic.insBlocks server n t i p w) (FioRelic.insBlocks server' n t i p w)
    unfold FioRelic.insBlocks
    rw [casts]
    exact .refl
  | insUpdAccounts => exact .account fun _ => .refl
  | insTransactions => exact insTransactionsAgrees
  | insTraces => exact insTracesAgrees
  | insAccountActivities => exact .guarded (.account fun _ => .refl)
  | insAccountActivitiesHandle => exact .guarded (.handle fun _ => .refl)
  | insTokenTransfers => exact insTokenTransfersAgrees
  | insTokenStakings => exact .guarded (.account fun _ => .refl)
  | getAccountPubKeyAndId => exact .refl
  | insDomains => exact .guarded (.account fun _ => .refl)
  | insDomainActivities => exact .guarded (.domain fun _ => .refl)
  | updDomainExp => exact .domain fun _ => .refl
  | updDomainIsPublic => exact .domain fun _ => .refl
  | updDomainOwner => exact .domain fun _ => .account fun _ => .refl
  | updDomainBurnt => exact .refl
  | insUpdHandles => exact .guarded (.account fun _ => .domain fun _ => .handle fun _ => .refl)
  | updHandlesRenewBundles => exact .refl
  | updHandlesAddBundles => exact .refl
  | updHandlesXferOwner => exact .handle fun _ => .account fun _ => .refl
  | updHandlesEncryptKey => exact .handle fun _ => .refl
  | updHandlesSetEncryptKey => exact .handle fun _ => .refl
  | updHandlesStatus => exact .handle fun _ => .refl
  | updHandleBurnt => exact .handle fun _ => .refl
  | insHandleActivities => exact .guarded (.handle fun _ => .refl)
  | insUpdPubAddresses =>
    exact .guarded (.handleId fun _ => .selected (fun _ single => oneHit single.addresses slotUnder) fun _ => .refl)
  | delPubAddress => exact .handleId fun _ => .refl
  | delPubAddresses => exact .handleId fun _ => .refl
  | clearPubAddresses => exact .handleId fun _ => .refl
  | existsPubAddress => exact .handleId fun _ => .refl
  | insUpdNftSignatures =>
    exact .guarded (.handleId fun _ => .selected (fun _ single => oneHit single.signatures tokenUnder) fun _ => .refl)
  | delNftSignature => exact .handleId fun _ => .refl
  | delNftSignatures => exact .handleId fun _ => .refl
  | insFioRequests => exact .guarded (.handle fun _ => .handle fun _ => .refl)
  | updFioRequestsStatus => exact .request fun _ => .refl
  | insFioDatas =>
    exact .guarded (.handle fun _ => .handle fun _ => .accountNumber fun _ => .accountNumber fun _ => .refl)
  | insHandleActivitiesFioRequest => exact .guarded (.request fun _ => .refl)
  | rbFork => exact .refl

def Call.requests : Call → Option (Option Int)
  | .insFioRequests _ _ q .. => some q
  | _ => none

def Requests (n : Node) (e : Event) : Prop := ∀ id, e.call.requests = some (some id) → id ∉ requestIds n.db

instance (n : Node) (e : Event) : Decidable (Requests n e) :=
  match given : e.call.requests with
  | some (some id) => decidable_of_iff (id ∉ requestIds n.db)
      ⟨fun h id' same => by cases given.symm.trans same; exact h,fun h => h id given⟩
  | some none => isTrue fun id same => by cases given.symm.trans same
  | none => isTrue fun id same => by cases given.symm.trans same

section Slots
variable {c : Call} {s s' s₀ : DB} {κ : Type}

theorem columnValues {ρ : Type} {rows : List ρ} {keyOf : ρ → Option κ} :
    rows.filterMap keyOf = (rows.map keyOf).filterMap id := by
  rw [List.filterMap_map]
  rfl

theorem valueInserted {ρ : Type} {rows : List ρ} {keyOf : ρ → Option κ} {r : ρ} (once : (rows.filterMap keyOf).Nodup)
    (fresh : ∀ k, keyOf r = some k → k ∉ rows.filterMap keyOf) : ((rows ++ [r]).filterMap keyOf).Nodup := by
  rw [List.filterMap_append]
  cases own : keyOf r with
  | none => simpa [own] using once
  | some k =>
    have added : [r].filterMap keyOf = [k] := by simp [own]
    rw [added]
    exact nodupInsert once (fresh k own)

theorem fixedOnce {a : Audited} {keyOf : Row a.table → Option κ}
    (fixes : ∀ r r', a.fixed r = a.fixed r' → keyOf r = keyOf r') (h : Change c s s')
    (once : ((s a.table).rows.filterMap keyOf).Nodup)
    (fresh : ∀ r, Inserted c s a.table r → ∀ k, keyOf r = some k → k ∉ (s a.table).rows.filterMap keyOf) :
    ((s' a.table).rows.filterMap keyOf).Nodup := by
  rcases changeColumns h a keyOf fixes with fewer | ⟨r,inserted,rows⟩
  · rw [columnValues] at once ⊢
    exact once.sublist (fewer.filterMap id)
  · rw [rows]
    exact valueInserted once (fresh r inserted)

def Call.AsStored : Call → Prop
  | .insUpdHandles _ _ _ fiohandle .. => cut 64 fiohandle = fiohandle
  | .insUpdPubAddresses _ _ chaincode tokencode _ => cut 12 chaincode = chaincode ∧ cut 12 tokencode = tokencode
  | .insUpdNftSignatures _ _ chaincode contractaddress tokenid .. =>
    cut 12 chaincode = chaincode ∧ cut 128 contractaddress = contractaddress ∧ cut 128 tokenid = tokenid
  | _ => True

instance : DecidablePred Call.AsStored
  | .insUpdHandles .. => inferInstanceAs (Decidable (_ = _))
  | .insUpdPubAddresses .. => inferInstanceAs (Decidable (_ ∧ _))
  | .insUpdNftSignatures .. => inferInstanceAs (Decidable (_ ∧ _ ∧ _))
  | .insBlocks .. | .insUpdAccounts .. | .insTransactions .. | .insTraces .. | .insAccountActivities ..
  | .insAccountActivitiesHandle .. | .insTokenTransfers .. | .insTokenStakings .. | .getAccountPubKeyAndId ..
  | .insDomains .. | .insDomainActivities .. | .updDomainExp .. | .updDomainIsPublic .. | .updDomainOwner ..
  | .updDomainBurnt .. | .updHandlesRenewBundles .. | .updHandlesAddBundles .. | .updHandlesXferOwner ..
  | .updHandlesEncryptKey .. | .updHandlesSetEncryptKey .. | .updHandlesStatus .. | .updHandleBurnt ..
  | .insHandleActivities .. | .delPubAddress .. | .delPubAddresses .. | .clearPubAddresses .. | .existsPubAddress ..
  | .delNftSignature .. | .delNftSignatures .. | .insFioRequests .. | .updFioRequestsStatus .. | .insFioDatas ..
  | .insHandleActivitiesFioRequest .. | .rbFork .. => isTrue trivial

theorem keyedAsStored (asStored : c.AsStored) : c.Keyed s := by
  cases c with
  | insUpdHandles => exact Or.inl asStored
  | insUpdPubAddresses => exact Or.inl asStored
  | _ => trivial

theorem slotParts {r : PubAddress} {k : Int × String × String} (own : addressSlot r = some k) :
    r.fkHandleId = some k.1 ∧ r.chainCode = some k.2.1 ∧ r.tokenCode = some k.2.2 := by
  simp only [addressSlot, Option.bind_eq_bind, Option.bind_eq_some_iff, Option.pure_def, Option.some.injEq] at own
  obtain ⟨_,handle,_,chain,_,token,rfl⟩ := own
  exact ⟨handle,chain,token⟩

theorem tokenParts {r : NftSignature} {k : Int × String × String × String} (own : signatureSlot r = some k) :
    r.fkHandleId = some k.1 ∧ r.chainCode = some k.2.1 ∧ r.contractAddress = some k.2.2.1 ∧
      r.tokenId = some k.2.2.2 := by
  simp only [signatureSlot, Option.bind_eq_bind, Option.bind_eq_some_iff, Option.pure_def, Option.some.injEq] at own
  obtain ⟨_,handle,_,chain,_,contract,_,token,rfl⟩ := own
  exact ⟨handle,chain,contract,token⟩

theorem slotFixed (r r' : PubAddress) (same : Audited.fixed .pubAddresses r = Audited.fixed .pubAddresses r') :
    addressSlot r = addressSlot r' := by
  simp only [Audited.fixed, Prod.mk.injEq, List.cons.injEq, and_true] at same
  unfold addressSlot
  rw [same.1, same.2.1, same.2.2]

theorem tokenFixed (r r' : NftSignature) (same : Audited.fixed .nftSignatures r = Audited.fixed .nftSignatures r') :
    signatureSlot r = signatureSlot r' := by
  simp only [Audited.fixed, Prod.mk.injEq, List.cons.injEq, and_true] at same
  unfold signatureSlot
  rw [same.1, same.2.1, same.2.2.1, same.2.2.2]

theorem addressSlotsChange (asStored : c.AsStored) (h : Change c s s') (once : (addressSlots s).Nodup) :
    (addressSlots s').Nodup := by
  refine fixedOnce (a := .pubAddresses) slotFixed h once fun r inserted k own listed => ?_
  obtain ⟨r',mem,own'⟩ := List.mem_filterMap.mp listed
  obtain ⟨_,given,given',codes,_,chain,token,absent⟩ := inserted
  have whole : cut 12 given = given ∧ cut 12 given' = given' := by
    cases c <;> cases codes
    exact asStored
  rw [whole.1] at chain
  rw [whole.2] at token
  have differ := absent r' mem
  obtain ⟨handle,chain₁,token₁⟩ := slotParts own
  obtain ⟨handle',chain',token'⟩ := slotParts own'
  simp [sameSlot, handle, ← chain, chain₁, ← token, token₁, handle', chain', token'] at differ

theorem signatureSlotsChange (asStored : c.AsStored) (h : Change c s s') (once : (signatureSlots s).Nodup) :
    (signatureSlots s').Nodup := by
  refine fixedOnce (a := .nftSignatures) tokenFixed h once fun r inserted k own listed => ?_
  obtain ⟨r',mem,own'⟩ := List.mem_filterMap.mp listed
  obtain ⟨_,given,given',given'',tokens,_,chain,contract,token,absent⟩ := inserted
  have whole : cut 12 given = given ∧ cut 128 given' = given' ∧ cut 128 given'' = given'' := by
    cases c <;> cases tokens
    exact asStored
  rw [whole.1] at chain
  rw [whole.2.1] at contract
  rw [whole.2.2] at token
  have differ := absent r' mem
  obtain ⟨handle,chain₁,contract₁,token₁⟩ := tokenParts own
  obtain ⟨handle',chain',contract',token'⟩ := tokenParts own'
  simp [sameToken, handle, ← chain, chain₁, ← contract, contract₁, ← token, token₁, handle', chain', contract',
    token'] at differ

theorem changesOnce {P : DB → Prop} (step : ∀ s s', Change c s s' → P s → P s') (h : Changes c s s') (holds : P s) :
    P s' := by
  induction h with
  | refl => exact holds
  | tail _ last ih => exact step _ _ last ih

theorem insFioRequestsOk {server : Server} {x b q : Option Int} {p y : Option String} {d : Option Bytes}
    {w : Option String} {t : Option Timestamp} {v : Option Int}
    (ran : insFioRequests server x b q p y d w t s = .ok (v,s')) :
    s' = s ∨ ∃ row : FioRequest, row.fioChainRequestId = q ∧ s' = s.append .fioRequests [row] := by
  rcases guardedOk ran with unmoved | rest
  · exact Or.inl unmoved
  · obtain ⟨_,m₁,payer,rest₁⟩ := bindOk.mp rest
    obtain ⟨_,m₂,payee,rest₂⟩ := bindOk.mp rest₁
    obtain ⟨_,m₃,status,rest₃⟩ := bindOk.mp rest₂
    obtain ⟨_,m₄,inserted,last⟩ := bindOk.mp rest₃
    obtain ⟨_,rfl⟩ := selectIntoOk.mp payer
    obtain ⟨_,rfl⟩ := selectIntoOk.mp payee
    obtain ⟨_,rfl⟩ := oneOfOk.mp status
    obtain ⟨_,rfl,_⟩ := toIntOk.mp last
    obtain ⟨_,target,_⟩ := insertIntoOk.mp inserted
    exact Or.inr ⟨_,rfl,target⟩

theorem updFioRequestsStatusIds {server : Server} {q : Option Int} {w : Option String} {v : Option Int}
    (ran : updFioRequestsStatus server q w s = .ok (v,s')) : requestIds s' = requestIds s := by
  obtain ⟨found,m₁,looked,rest⟩ := bindOk.mp ran
  obtain ⟨_,rfl⟩ := selectIntoOk.mp looked
  cases found with
  | none => rw [(pureOk.mp rest).2]
  | some row =>
    obtain ⟨_,m₂,status,rest⟩ := bindOk.mp rest
    obtain ⟨_,m₃,updated,last⟩ := bindOk.mp rest
    obtain ⟨_,rfl⟩ := oneOfOk.mp status
    obtain ⟨_,rfl,_⟩ := toIntOk.mp last
    obtain ⟨_,_,rfl,_⟩ := updateWrites (a := .fioRequests) updated
    unfold requestIds
    rw [Database.appendOther _ (Audited.logOther .fioRequests).symm, Database.withRowsSame, List.filterMap_map]
    refine List.filterMap_congr fun r _ => ?_
    change (assigned _ _ r).fioChainRequestId = _
    unfold assigned
    split <;> rfl

theorem domainNamesCall {server : Server} {v : Option Int}
    (fresh : ∀ name, (c.registers.bind fun given => cut 62 given) = some name → name ∉ domainNames s) (ran : c.run server s = .ok (v,s'))
    (changes : Changes c s s') (once : (domainNames s).Nodup) : (domainNames s').Nodup := by
  cases c with
  | insDomains b name =>
    rcases insDomainsOk ran with unmoved | ⟨row,named,target⟩
    · exact unmoved ▸ once
    · unfold domainNames
      rw [target, Database.appendSame]
      exact valueInserted once fun k own => fresh k (named.symm.trans own)
  | _ => exact once.sublist (domainNamesChanges rfl changes)

theorem requestIdsCall {server : Server} {v : Option Int} (ordinary : c.ordinary = true)
    (fresh : ∀ id, c.requests = some (some id) → id ∉ requestIds s) (ran : c.run server s = .ok (v,s'))
    (once : (requestIds s).Nodup) : (requestIds s').Nodup := by
  have beside : .fioRequests ∉ c.footprint → (requestIds s').Nodup := by
    intro outside
    unfold requestIds
    rw [callFrames c s v s' ran .fioRequests outside]
    exact once
  cases c with
  | insFioRequests x b q =>
    rcases insFioRequestsOk ran with unmoved | ⟨row,number,target⟩
    · exact unmoved ▸ once
    · unfold requestIds
      rw [target, Database.appendSame]
      exact valueInserted once fun k own => fresh k (congrArg some (number.symm.trans own))
  | updFioRequestsStatus => exact updFioRequestsStatusIds ran ▸ once
  | rbFork => cases ordinary
  | _ => exact beside (by simp [Call.footprint])

theorem restoredAddresses (restored : Restored s' s₀) (once : (addressSlots s₀).Nodup) : (addressSlots s').Nodup := by
  have perm := restored.addresses.filterMap addressSlot
  rw [List.filterMap_map, List.filterMap_map] at perm
  exact perm.nodup_iff.mpr once

theorem restoredRequests (restored : Restored s' s₀) : requestIds s' = requestIds s₀ := by
  have same := congrArg (List.filterMap FioRequest.fioChainRequestId) (restored.kept .fioRequests rfl)
  unfold Audited.seen at same
  rw [List.filterMap_map, List.filterMap_map] at same
  exact same

theorem forkedSignatures {b : Int} (chain : Chain .nftSignatures s) (undeleted : Undeleted b s)
    {fresh : List NftSignature} (refilled : Refilled .nftSignatures b s s' fresh) (once : (signatureSlots s).Nodup) :
    (signatureSlots s').Nodup := by
  have none := goneFresh refilled (undeletedGone undeleted)
  subst none
  have slots : ((s .nftSignatures).rows.map (Audited.original .nftSignatures (some b)
      (s .nftSignaturesAudit).rows)).filterMap signatureSlot = signatureSlots s := by
    rw [List.filterMap_map]
    exact List.filterMap_congr fun r mem => tokenFixed _ _ (originalFixed chain.fixed mem)
  unfold signatureSlots
  rw [show (s' .nftSignatures).rows = _ from refilled.rows, List.append_nil]
  refine List.Nodup.sublist (List.filter_sublist.filterMap _) ?_
  exact slots.symm ▸ once

end Slots

section Runs
variable {history history' : List Event}

theorem addressesOnce (order : ChainOrder history) (asStored : ∀ e ∈ history, e.call.AsStored) :
    (addressSlots (run history).db).Nodup := by
  refine (reorgInduction (P := fun s => (addressSlots s).Nodup) List.nodup_nil (fun _ _ once => once) ?_ ?_ ?_ order
    (meetsEach asStored)).1
  · intro s b once
    unfold addressSlots
    rw [blockOther (by decide)]
    exact once
  · exact fun _ _ _ _ _ met _ _ _ changes once => changesOnce (fun _ _ => addressSlotsChange met) changes once
  · exact fun _ _ _ _ restored once => restoredAddresses restored once

theorem domainsOnce (order : ChainOrder history) (registered : Meets Registers history) :
    (domainNames (run history).db).Nodup := by
  refine (reorgInduction (P := fun s => (domainNames s).Nodup) List.nodup_nil (fun _ _ once => once) ?_ ?_ ?_ order
    registered).1
  · intro s b once
    unfold domainNames
    rw [blockOther (by decide)]
    exact once
  · exact fun _ _ _ _ _ met _ _ ran changes once => domainNamesCall met ran changes once
  · intro s' s₀ _ _ restored once
    unfold domainNames
    rw [restoredRows restored (a := .domains) rfl fun _ => rfl]
    exact once

theorem requestsOnce (order : ChainOrder history) (asked : Meets Requests history) :
    (requestIds (run history).db).Nodup := by
  refine (reorgInduction (P := fun s => (requestIds s).Nodup) List.nodup_nil (fun _ _ once => once) ?_ ?_ ?_ order
    asked).1
  · intro s b once
    unfold requestIds
    rw [blockOther (by decide)]
    exact once
  · exact fun _ _ _ _ ordinary met _ _ ran _ once => requestIdsCall ordinary met ran once
  · exact fun _ _ _ _ restored once => restoredRequests restored ▸ once

theorem signaturesOnce (order : ChainOrder history) (asStored : ∀ e ∈ history, e.call.AsStored)
    (undeleted : Meets (AtForks Undeleted) history) : (signatureSlots (run history).db).Nodup := by
  refine (runInduction (P := fun n => (signatureSlots n.db).Nodup) List.nodup_nil ?_ order
    (meetsBoth (meetsEach asStored) undeleted)).2
  intro n e n' sound ⟨whole,met⟩ move once
  cases move with
  | lost drawn => exact once
  | changed s' v ordinary atHead ran changes => exact changesOnce (fun _ _ => signatureSlotsChange whole) changes once
  | grown block above valid =>
    change (signatureSlots (n.db.append .blocks [block])).Nodup
    unfold signatureSlots
    rw [blockOther (by decide)]
    exact once
  | forked c s' v nonneg call ran =>
    obtain ⟨fresh,refilled⟩ := rbForkRefilled nonneg sound.kempt sound.chain ran .nftSignatures rfl
    exact forkedSignatures (sound.chain .nftSignatures rfl) (met c (by rw [call]; rfl)) refilled once

structure Distinct (history : List Event) : Prop where
  order : ChainOrder history
  asStored : ∀ e ∈ history, e.call.AsStored
  registered : Meets Registers history
  requested : Meets Requests history
  undeleted : Meets (AtForks Undeleted) history

theorem singleRun (distinct : Distinct history) : Single (run history).db where
  valid := (kemptRun history).valid
  handles := handleTextsRun (meetsAll fun e mem _ => keyedAsStored (distinct.asStored e mem))
  domains := domainsOnce distinct.order distinct.registered
  requests := requestsOnce distinct.order distinct.requested
  addresses := addressesOnce distinct.order distinct.asStored
  signatures := signaturesOnce distinct.order distinct.asStored distinct.undeleted

theorem Distinct.early {early late : List Event} (distinct : Distinct (early ++ late)) : Distinct early where
  order := (meetsAppend distinct.order).1
  asStored := fun e mem => distinct.asStored e (List.mem_append_left _ mem)
  registered := (meetsAppend distinct.registered).1
  requested := (meetsAppend distinct.requested).1
  undeleted := (meetsAppend distinct.undeleted).1

structure Event.Alike (e e' : Event) : Prop where
  call : e'.call = e.call
  stamps : e'.server.timestamp = e.server.timestamp
  lost : e'.lost = e.lost

theorem stepAgrees {n : Node} {e e' : Event} (single : Single n.db) (alike : e.Alike e') : n.step e' = n.step e := by
  have same : e'.call.run e'.server n.db = e.call.run e.server n.db := by
    rw [alike.call]
    exact callAgrees alike.stamps e.call n.db single
  have drawn : e'.drawn = e.drawn := by
    funext t
    rw [Event.drawn, Event.drawn, alike.call, alike.lost]
  unfold Node.step
  rw [same, drawn]

theorem runAgrees (early : List Event) {late late' : List Event} (distinct : Distinct (early ++ late))
    (alike : List.Forall₂ Event.Alike late late') : runFrom (run early) late' = runFrom (run early) late := by
  induction alike generalizing early with
  | nil => rfl
  | @cons e e' rest rest' first others ih =>
    have step := stepAgrees (singleRun distinct.early) first
    have later := ih (early ++ [e]) (by simpa using distinct)
    rw [runLast] at later
    change runFrom ((run early).step e') rest' = runFrom ((run early).step e) rest
    rw [step]
    exact later

theorem serversAgree (distinct : Distinct history) (alike : List.Forall₂ Event.Alike history history') :
    run history' = run history := runAgrees [] distinct alike

end Runs

def lastServer : Server := ⟨fun _ ks => ks.length - 1,fun _ => none⟩

def served (server : Server) (calls : List Call) : List Event := calls.map fun c => ⟨server,c,fun _ => 0⟩

def reserved : List Call := transferred ++
  [.insFioRequests none (some 2) (some 7) (some "alice@fio") (some "alice@fio") none (some "requested") none,
    .rbFork (some 2),
    .insBlocks (some 2) none (some "b2'") none none,
    .insFioRequests none (some 2) (some 7) (some "alice@fio") (some "alice@fio") none (some "requested") none,
    .updFioRequestsStatus (some 7) (some "rejected")]

theorem serversAgreeReserved : run (served lastServer reserved) = run (served leastServer reserved) := by
  refine serversAgree ⟨by decide +kernel,by decide,by decide +kernel,by decide +kernel,by decide +kernel⟩ ?_
  exact List.forall₂_map_right_iff.mpr (List.forall₂_map_left_iff.mpr (List.forall₂_same.mpr fun _ _ => ⟨rfl,rfl,rfl⟩))

def contested : List Call :=
  [.insBlocks (some 1) none (some "b1") none none,
    .insUpdAccounts (some 1) (some "alice") (some "k1") none none,
    .insDomains (some 1) (some "fio") none (some false) none (some "active"),
    .insDomains (some 1) (some "fio") none (some false) none (some "active"),
    .updDomainOwner (some "fio") (some "alice")]

example : ((run (served lastServer contested)).db .domains).rows.map Domain.fkOwnerAccountId = [none,some 1] ∧
    ((run (served leastServer contested)).db .domains).rows.map Domain.fkOwnerAccountId = [some 1,none] := by
  decide +kernel

end FioRelic
