import FioRelic.HandleMutators

/-! Generated ids and what the procedures return. Keys are bigint, but the procedures return
int and updhandlesxferowner reads the owner's id into an integer. -/
namespace FioRelic
open Relational

def listed (allowed : List String) (text : Option String) : Option (OneOf allowed) :=
  text.bind fun t => if member : t ∈ allowed then some ⟨t,member⟩ else none

def Listed (allowed : List String) (text : Option String) : Prop := (listed allowed text).isSome = true

def Dated (s : DB) (b : Option Int) : Prop := below b (some 0) = false ∧ s.Resolves .blocks b

instance {s : DB} {b : Option Int} : Decidable (Dated s b) :=
  inferInstanceAs (Decidable (below b (some 0) = false ∧ s.Resolves .blocks b))

def addressAt (server : Server) (s : DB) (name chain token : Option String) : Option PubAddress :=
  chosen (server.takes .pubAddresses) .pubAddresses (fun r : PubAddress =>
    same r.fkHandleId ((handleNamed server s name).map Handle.pkHandleId) && same r.chainCode chain &&
      same r.tokenCode token) s

def signatureAt (server : Server) (s : DB) (name chain contract token : Option String) : Option NftSignature :=
  chosen (server.takes .nftSignatures) .nftSignatures (fun r : NftSignature =>
    same r.fkHandleId ((handleNamed server s name).map Handle.pkHandleId) && same r.chainCode chain &&
      same r.contractAddress contract && same r.tokenId token) s

def Named (s : DB) (name : Option String) : Prop :=
  castable 12 name = true ∧ (known s name = false → known s (cut 12 name) = false)

def debitedBalance (server : Server) (s : DB) (payer : Option String) (amount : Option Int) : Option Int :=
  minus ((accountNamed server s payer).bind Account.fioBalanceSuf) amount

def payeeRow (server : Server) (s : DB) (b : Option Int) (payer payee : Option String) (amount : Option Int)
    (stamp : Option Timestamp) : Account :=
  (accountNamed server s payee).elim ⟨(s .accounts).next,b,cut 12 payee,some "",some 0,stamp⟩
    (withBalance ((accountNamed server s payer).map Account.pkAccountId) (debitedBalance server s payer amount))

def Funded (server : Server) (s : DB) (b : Option Int) (payer payee : Option String) (amount : Option Int)
    (stamp : Option Timestamp) : Prop :=
  outOfBounds (debitedBalance server s payer amount) = false ∧
    outOfBounds (plus (payeeRow server s b payer payee amount stamp).fioBalanceSuf amount) = false

def accountRow (b : Option Int) (k : Option String) (t : Option Timestamp) (u : Option Bool) (r : Account) : Account :=
  if u = some true then { r with fkBlockNumber := b, publicKey := cut 53 k, blockTimestamp := t } else r

def handleRow (server : Server) (s : DB) (b : Option Int) (d o n k : Option String) (e : Option Bool)
    (i : Option Timestamp) (v : OneOf handleStatuses) (r : Handle) : Handle :=
  { r with
    fkBlockNumber := b
    fkDomainId := (chosen (server.takes .domains) .domains (fun r : Domain => same r.domainName d) s).map
      Domain.pkDomainId
    handle := cut 64 n
    fkOwnerAccountId := (accountNamed server s o).map Account.pkAccountId
    encryptionKey := cut 64 k
    isEncryptKeySet := e
    expirationStamp := i
    handleStatus := v }

def addressRow (b : Option Int) (p : Option String) (r : PubAddress) : PubAddress :=
  { r with fkBlockNumber := b, pubAddress := cut 128 p }

def signatureRow (server : Server) (s : DB) (b : Option Int) (h u x m : Option String) (r : NftSignature) : NftSignature :=
  { r with
    fkBlockNumber := b
    fkHandleId := (handleNamed server s h).map Handle.pkHandleId
    nftUrl := cut 128 u
    nftHash := cut 64 x
    nftMetaData := cut 128 m }

def ownerRow (server : Server) (s : DB) (b : Option Int) (o k : Option String) (i : Option Bool) (r : Handle) : Handle :=
  { r with
    fkBlockNumber := b
    fkOwnerAccountId := (accountNamed server s o).map Account.pkAccountId
    encryptionKey := cut 64 k
    isEncryptKeySet := i }

def upsertDraw (a : Audited) (found : Option (Row a.table)) (assign : Row a.table → Row a.table) : TableName × Nat :=
  found.elim (a.table,1) fun r => (a.log,entryCount r (assign r))

def balanceCount (found : Option Account) (balance : Option Int) : Nat :=
  found.elim 0 fun r => entryCount r { r with fioBalanceSuf := balance }

namespace Call

def Admissible (server : Server) (s : DB) : Call → Prop
  | insUpdAccounts b n k _ _ => s.Resolves .blocks b ∧ Named s n ∧ castable 53 k = true
  | updHandlesXferOwner b _ _ k _ => s.Resolves .blocks b ∧ castable 64 k = true
  | insTransactions b _ i c n a h _ _ _ r => Dated s b ∧ Nameable s c n ∧ Texts i a h r
  | insTraces x b c n _ a _ _ => s.Resolves .transactions x ∧ Dated s b ∧ Nameable s c n ∧ castable 12 a = true
  | insUpdPubAddresses b _ c t p => Dated s b ∧ castable 12 c = true ∧ castable 12 t = true ∧ castable 128 p = true
  | insUpdNftSignatures b _ c a t u h m =>
    Dated s b ∧ (castable 12 c = true ∧ castable 128 a = true ∧ castable 128 t = true) ∧
      castable 128 u = true ∧ castable 64 h = true ∧ castable 128 m = true
  | insTokenStakings x b .. => s.Resolves .transactions x ∧ Dated s b
  | insAccountActivities x b _ k | insAccountActivitiesHandle x b _ k =>
    s.Resolves .transactions x ∧ Dated s b ∧ Listed accountActivityTypes k
  | insHandleActivities x b _ k _ => s.Resolves .transactions x ∧ Dated s b ∧ Listed handleActivityTypes k
  | insDomainActivities x b _ k _ => s.Resolves .transactions x ∧ Dated s b ∧ Listed domainActivityTypes k
  | insTokenTransfers x b payer payee amount k _ t => s.Resolves .transactions x ∧ Dated s b ∧
      Listed tokenTransferTypes k ∧ Named s payee ∧ Funded server s b payer payee amount t
  | insDomains b d _ _ _ status => Dated s b ∧ castable 62 d = true ∧ Listed domainStatuses status
  | insUpdHandles b _ _ n k _ _ status =>
    Dated s b ∧ (castable 64 n = true ∧ castable 64 k = true) ∧ Listed handleStatuses status
  | insFioRequests x b _ payer payee _ status _ =>
    s.Resolves .transactions x ∧ Dated s b ∧ Listed requestStatuses status ∧
      castable 53 ((handleNamed server s payer).bind Handle.encryptionKey) = true ∧
      castable 53 ((handleNamed server s payee).bind Handle.encryptionKey) = true
  | insFioDatas x b _ _ _ _ status _ => s.Resolves .transactions x ∧ Dated s b ∧ Listed dataStatuses status
  | _ => False

def written (server : Server) (s : DB) : Call → TableName × Int
  | insUpdAccounts _ name .. => (.accounts,rowKey s .accounts (accountNamed server s name))
  | insTransactions .. => (.transactions,(s .transactions).next)
  | insTraces .. => (.traces,(s .traces).next)
  | insAccountActivities .. | insAccountActivitiesHandle .. => (.accountActivities,(s .accountActivities).next)
  | insHandleActivities .. => (.handleActivities,(s .handleActivities).next)
  | insDomainActivities .. => (.domainActivities,(s .domainActivities).next)
  | insTokenTransfers .. => (.tokenTransfers,(s .tokenTransfers).next)
  | insTokenStakings .. => (.tokenStakings,(s .tokenStakings).next)
  | insDomains .. => (.domains,(s .domains).next)
  | insUpdHandles _ _ _ name .. => (.handles,rowKey s .handles (handleNamed server s name))
  | insFioRequests .. => (.fioRequests,(s .fioRequests).next)
  | insFioDatas .. => (.fioDatas,(s .fioDatas).next)
  | insUpdPubAddresses _ name chain token _ => (.pubAddresses,rowKey s .pubAddresses (addressAt server s name chain token))
  | insUpdNftSignatures _ name chain contract token .. =>
    (.nftSignatures,rowKey s .nftSignatures (signatureAt server s name chain contract token))
  | _ => (.blocks,0)

def draws (server : Server) (s : DB) : Call → List (TableName × Nat)
  | insUpdAccounts b n k t u => [upsertDraw .accounts (accountNamed server s n) (accountRow b k t u)]
  | insTransactions _ _ _ c n .. => [(.accounts,(openings s c n).length),(.transactions,1)]
  | insTraces _ _ c n .. => [(.accounts,(openings s c n).length),(.traces,1)]
  | insTokenTransfers _ b p q a _ _ t =>
    let payee := payeeRow server s b p q a t
    [(.accountsAudit,balanceCount (accountNamed server s p) (debitedBalance server s p a) +
        balanceCount (some payee) (plus payee.fioBalanceSuf a)),
      (.accounts,if known s q then 0 else 1),(.tokenTransfers,1)]
  | insUpdHandles b d o n k e i h => (listed handleStatuses h).toList.map fun v =>
      upsertDraw .handles (handleNamed server s n) (handleRow server s b d o n k e i v)
  | updHandlesXferOwner b n o k i => [(.handlesAudit,(handleNamed server s n).elim 0 fun r =>
      entryCount r (ownerRow server s b o k i r))]
  | insUpdPubAddresses b h c t p => [upsertDraw .pubAddresses (addressAt server s h c t) (addressRow b p)]
  | insUpdNftSignatures b h c a t u x m =>
    [upsertDraw .nftSignatures (signatureAt server s h c a t) (signatureRow server s b h u x m)]
  | c => [((c.written server s).1,1)]

def Drawable (server : Server) (s : DB) (c : Call) : Prop := ∀ x ∈ c.draws server s, s.Draws x.1 x.2

instance {server : Server} {s : DB} {c : Call} : Decidable (c.Drawable server s) :=
  inferInstanceAs (Decidable (∀ x ∈ c.draws server s, s.Draws x.1 x.2))

def narrowed (server : Server) (s : DB) : Call → List Int
  | updHandlesXferOwner _ name owner _ _ =>
    ((accountNamed server s owner).map Account.pkAccountId).toList ++
      ((handleNamed server s name).map Handle.pkHandleId).toList
  | c => [(c.written server s).2]

/- instransactions names an undeclared variable for a fio.token that is not stored. -/
def Declared (s : DB) : Call → Prop
  | insTransactions _ _ _ actionaccount .. => same actionaccount fioToken = true → known s actionaccount = true
  | _ => True

end Call

structure Wrote (t : TableName) (k : Int) (s s' : DB) : Prop where
  stored : k ∈ s'.keys t
  others : ∀ r, key t r ≠ k → (r ∈ (s' t).rows ↔ r ∈ (s t).rows)

def ReturnsKey (t : TableName) (k : Int) (s : DB) (out : Except Error (Option Int × DB)) : Prop :=
  ∃ s', out = .ok (some k,s') ∧ Wrote t k s s'

def Call.Exact (server : Server) (s : DB) : Call → Prop
  | .updHandlesXferOwner b name owner encryptkey isset =>
    ∃ s', (Call.updHandlesXferOwner b name owner encryptkey isset).run server s =
        .ok ((handleNamed server s name).map Handle.pkHandleId,s') ∧
      ∀ r ∈ (s' .handles).rows, some r.pkHandleId = (handleNamed server s name).map Handle.pkHandleId →
        r.fkOwnerAccountId = (accountNamed server s owner).map Account.pkAccountId
  | c => ReturnsKey (c.written server s).1 (c.written server s).2 s (c.run server s)

section Steps
variable {server : Server} {s s' : DB} {t : TableName} {b : Option Int} {β : Type}

theorem pastGuard (dated : below b (some 0) = false) {k : β} {rest : Proc β} :
    (if below b (some 0) then return k else rest) s = rest s := by
  rw [dated]
  rfl

theorem listedRuns {allowed : List String} {text : Option String} (given : Listed allowed text) :
    ∃ value, listed allowed text = some value ∧
      ∀ f : OneOf allowed → Proc β, (oneOf allowed text >>= f) s = f value s := by
  obtain ⟨value,found⟩ := Option.isSome_iff_exists.mp given
  refine ⟨value,found,fun f => bindRuns (oneOfOk.mpr ⟨?_,rfl⟩)⟩
  obtain ⟨t,rfl,taken⟩ := Option.bind_eq_some_iff.mp found
  split at taken
  · cases taken
    rfl
  · cases taken

theorem foundResolves {p : Row t → Bool} : s.Resolves t ((chosen (server.takes t) t p s).map (key t)) := by
  cases hit : chosen (server.takes t) t p s with
  | none => trivial
  | some r => exact List.mem_map_of_mem (chosenSome hit).1

theorem readResolves {p : Row t → Bool} {ref : Reference TableName (Row t)}
    (valid : s.Valid) (listed : ref ∈ references t) :
    s.Resolves ref.parent ((chosen (server.takes t) t p s).bind ref.column) := by
  cases hit : chosen (server.takes t) t p s with
  | none => trivial
  | some r => exact valid.resolves listed (chosenSome hit).1

theorem wroteAppended {m : DB} {r : Row t} {k : Int} (same : m t = s t) (number : key t r = k) :
    Wrote t k s (m.append t [r]) where
  stored := by
    rw [Database.keysAppendSame]
    exact List.mem_append_right _ (List.mem_singleton.mpr number.symm)
  others := by
    intro r' other
    rw [Database.appendSame, same, List.mem_append, List.mem_singleton]
    refine ⟨fun listed => listed.elim id fun own => ?_,Or.inl⟩
    subst own
    exact absurd number other

theorem wroteUpdated {r : Row t} {assign : Row t → Row t} (mem : r ∈ (s t).rows)
    (keyed : ∀ r, key t (assign r) = key t r)
    (rows : (s' t).rows = (s t).rows.map (assigned (fun x => decide (key t x = key t r)) assign)) :
    Wrote t (key t r) s s' where
  stored := by
    unfold Database.keys
    rw [rows, List.map_map]
    refine List.mem_map.mpr ⟨r,mem,?_⟩
    simp only [Function.comp, assigned, decide_true, if_true]
    exact keyed r
  others := by
    intro r' other
    rw [rows, List.mem_map]
    constructor
    · rintro ⟨old,stored,rfl⟩
      unfold assigned at other ⊢
      split
      · rename_i hit
        rw [if_pos hit] at other
        exact absurd ((keyed old).trans (of_decide_eq_true hit)) other
      · exact stored
    · intro stored
      exact ⟨r',stored,if_neg (by simpa using other)⟩

theorem returnsFrom {m : DB} (same : m t = s t) {out : Except Error (Option Int × DB)} :
    ReturnsKey t (m t).next m out ↔ ReturnsKey t (s t).next s out := by
  rw [same]
  constructor
  · rintro ⟨s',ran,stored,others⟩
    exact ⟨s',ran,stored,same ▸ others⟩
  · rintro ⟨s',ran,stored,others⟩
    exact ⟨s',ran,stored,same ▸ others⟩

theorem exactNarrowed {p : Proc (Option Int)} {k : Int} (runs : p s = toInt (some k) s') (wrote : Wrote t k s s') :
    ReturnsKey t k s (p s) ↔ fitsInt k = true := by
  constructor
  · rintro ⟨_,ran,_⟩
    rw [runs] at ran
    exact (toIntOk.mp ran).2.2 k rfl
  · intro fits
    exact ⟨s',runs.trans (fitsRuns fits),wrote⟩

theorem exactInserted {f : Int → Row t} (valid : s.Valid) (number : ∀ k, key t (f k) = k)
    (texts : ∀ c ∈ varchars t, fitsWidth c.width (c.column (f (s t).next)) = true)
    (distinct : ∀ column ∈ unique t, ∀ r ∈ (s t).rows, ∀ x, column (f (s t).next) = some x → column r ≠ some x)
    (refers : ∀ ref ∈ references t, s.Resolves ref.parent (ref.column (f (s t).next))) :
    ReturnsKey t (s t).next s ((do
      let pkid ← insertInto t f
      toInt (some pkid)) s) ↔ s.Draws t 1 ∧ fitsInt (s t).next = true := by
  by_cases draws : s.Draws t 1
  · have ran := insertRuns valid draws number texts distinct refers
    have wrote : Wrote t (s t).next s (s.append t [f (s t).next]) := wroteAppended rfl (number _)
    have runs : (insertInto t f >>= fun pkid => toInt (some pkid)) s =
        toInt (some (s t).next) (s.append t [f (s t).next]) := bindRuns ran
    exact (exactNarrowed runs wrote).trans (and_iff_right draws).symm
  · refine ⟨?_,fun holds => absurd holds.1 draws⟩
    rintro ⟨s',ran,_⟩
    exact absurd ((insertBind valid number refers).mp ran).1.1 draws

theorem exactUpdated {a : Audited} {r : Row a.table} {assign : Row a.table → Row a.table}
    (valid : s.Valid) (mem : r ∈ (s a.table).rows) (keyed : ∀ r, key a.table (assign r) = key a.table r)
    (kept : ∀ column ∈ unique a.table, ∀ r, column (assign r) = column r)
    (texts : ∀ c ∈ varchars a.table, fitsWidth c.width (c.column (assign r)) = true)
    (refers : ∀ ref ∈ references a.table, s.Resolves ref.parent (ref.column (assign r))) :
    ReturnsKey a.table (key a.table r) s ((do
      update a.table (fun x => decide (key a.table x = key a.table r)) assign
      toInt (some (key a.table r))) s) ↔ s.Draws a.log (entryCount r (assign r)) ∧ fitsInt (key a.table r) = true := by
  have only : ∀ x ∈ (s a.table).rows, decide (key a.table x = key a.table r) = true → x = r :=
    fun x stored hit => valid.sameRow stored mem (of_decide_eq_true hit)
  rw [← changedCount valid mem assign]
  by_cases draws : s.Draws a.log (changed (fun x => decide (key a.table x = key a.table r)) assign (s a.table).rows).length
  · obtain ⟨s',ran,settled⟩ := updateSettles (p := fun x => decide (key a.table x = key a.table r)) valid draws keyed kept
      (fun c listed x stored hit => only x stored hit ▸ texts c listed)
      fun ref listed x stored hit => only x stored hit ▸ refers ref listed
    have wrote : Wrote a.table (key a.table r) s s' := wroteUpdated mem keyed settled.rows
    have runs : (update a.table (fun x => decide (key a.table x = key a.table r)) assign >>= fun _ =>
        toInt (some (key a.table r))) s = toInt (some (key a.table r)) s' := bindRuns ran
    exact (exactNarrowed runs wrote).trans (and_iff_right draws).symm
  · refine ⟨?_,fun holds => absurd holds.1 draws⟩
    rintro ⟨s',ran,_⟩
    obtain ⟨_,_,updated,_⟩ := bindOk.mp ran
    exact absurd (updateDraws updated) draws

end Steps

def upsert (a : Audited) (found : Option (Row a.table)) (row : Int → Row a.table)
    (assign : Row a.table → Row a.table) : Proc (Option Int) := match found with
  | none => do
    let pkid ← insertInto a.table row
    toInt (some pkid)
  | some r => do
    update a.table (fun x => decide (key a.table x = key a.table r)) assign
    toInt (some (key a.table r))

section Upserts
variable {server : Server} {s : DB} {b : Option Int} {h c a t p u x d o k n : Option String}

theorem accountRuns {name : Option String} {f : Option Account → Proc (Option Int)} :
    (select server .accounts (fun r => same r.accountName name) >>= f) s = f (accountNamed server s name) s := rfl

theorem handleRuns {name : Option String} {f : Option Int → Proc (Option Int)} :
    (handleId server name >>= f) s = f ((handleNamed server s name).map Handle.pkHandleId) s := rfl

theorem insUpdHandlesIs (past : below b (some 0) = false) {e : Option Bool} {i : Option Timestamp}
    {v : OneOf handleStatuses}
    (status : ∀ f : OneOf handleStatuses → Proc (Option Int), (oneOf handleStatuses h >>= f) s = f v s) :
    insUpdHandles server b d o n k e i h s = upsert .handles (handleNamed server s n)
      (fun pk => ⟨pk,b,(chosen (server.takes .domains) .domains (fun r : Domain => same r.domainName d) s).map
        Domain.pkDomainId,cut 64 n,(accountNamed server s o).map Account.pkAccountId,cut 64 k,e,i,v⟩)
      (handleRow server s b d o n k e i v) s := by
  unfold insUpdHandles upsert handleNamed
  rw [pastGuard past, accountRuns, lookupRuns, lookupRuns, status]
  cases chosen (server.takes .handles) .handles _ s <;> rfl

theorem insUpdPubAddressesIs (past : below b (some 0) = false) : insUpdPubAddresses server b h c t p s =
    upsert .pubAddresses (addressAt server s h c t)
      (fun pk => ⟨pk,b,(handleNamed server s h).map Handle.pkHandleId,cut 12 c,cut 12 t,cut 128 p⟩) (addressRow b p) s := by
  unfold insUpdPubAddresses upsert addressAt
  rw [pastGuard past, handleRuns, lookupRuns]
  cases chosen (server.takes .pubAddresses) .pubAddresses _ s <;> rfl

theorem insUpdNftSignaturesIs (past : below b (some 0) = false) : insUpdNftSignatures server b h c a t u x d s =
    upsert .nftSignatures (signatureAt server s h c a t)
      (fun pk => ⟨pk,b,(handleNamed server s h).map Handle.pkHandleId,cut 12 c,cut 128 a,cut 128 t,cut 128 u,cut 64 x,
        cut 128 d⟩) (signatureRow server s b h u x d) s := by
  unfold insUpdNftSignatures upsert signatureAt
  rw [pastGuard past, handleRuns, lookupRuns]
  cases chosen (server.takes .nftSignatures) .nftSignatures _ s <;> rfl

end Upserts

section References
variable {s : DB}

theorem handleRefers {r : Handle} (block : s.Resolves .blocks r.fkBlockNumber) (domain : s.Resolves .domains r.fkDomainId)
    (owner : s.Resolves .accounts r.fkOwnerAccountId) :
    ∀ ref ∈ references .handles, s.Resolves ref.parent (ref.column r) := by
  simp only [references, List.forall_mem_cons]
  exact ⟨block,domain,owner,noneListed⟩

theorem addressRefers {r : PubAddress} (block : s.Resolves .blocks r.fkBlockNumber)
    (handle : s.Resolves .handles r.fkHandleId) :
    ∀ ref ∈ references .pubAddresses, s.Resolves ref.parent (ref.column r) := by
  simp only [references, List.forall_mem_cons]
  exact ⟨block,handle,noneListed⟩

theorem signatureRefers {r : NftSignature} (block : s.Resolves .blocks r.fkBlockNumber)
    (handle : s.Resolves .handles r.fkHandleId) :
    ∀ ref ∈ references .nftSignatures, s.Resolves ref.parent (ref.column r) := by
  simp only [references, List.forall_mem_cons]
  exact ⟨block,handle,noneListed⟩

theorem addressTexts {r : PubAddress} : (∀ c ∈ varchars .pubAddresses, fitsWidth c.width (c.column r) = true) ↔
    fitsWidth 12 r.chainCode = true ∧ fitsWidth 12 r.tokenCode = true ∧ fitsWidth 128 r.pubAddress = true := by
  simp only [varchars, List.forall_mem_cons]
  constructor
  · rintro ⟨chain,token,text,_⟩
    exact ⟨chain,token,text⟩
  · rintro ⟨chain,token,text⟩
    exact ⟨chain,token,text,noneListed⟩

theorem signatureTexts {r : NftSignature} : (∀ c ∈ varchars .nftSignatures, fitsWidth c.width (c.column r) = true) ↔
    (fitsWidth 12 r.chainCode = true ∧ fitsWidth 128 r.contractAddress = true ∧ fitsWidth 128 r.tokenId = true) ∧
      fitsWidth 128 r.nftUrl = true ∧ fitsWidth 64 r.nftHash = true ∧ fitsWidth 128 r.nftMetaData = true := by
  simp only [varchars, List.forall_mem_cons]
  constructor
  · rintro ⟨chain,contract,token,url,hash,data,_⟩
    exact ⟨⟨chain,contract,token⟩,url,hash,data⟩
  · rintro ⟨⟨chain,contract,token⟩,url,hash,data⟩
    exact ⟨chain,contract,token,url,hash,data,noneListed⟩

theorem upsertExact {a : Audited} {found : Option (Row a.table)} {row : Int → Row a.table}
    {assign : Row a.table → Row a.table} (valid : s.Valid) (plain : unique a.table = [])
    (number : ∀ k, key a.table (row k) = k) (keyed : ∀ r, key a.table (assign r) = key a.table r)
    (mem : ∀ r, found = some r → r ∈ (s a.table).rows)
    (texts : ∀ c ∈ varchars a.table, fitsWidth c.width (c.column (row (s a.table).next)) = true)
    (texts' : ∀ r ∈ (s a.table).rows, ∀ c ∈ varchars a.table, fitsWidth c.width (c.column (assign r)) = true)
    (refers : ∀ ref ∈ references a.table, s.Resolves ref.parent (ref.column (row (s a.table).next)))
    (refers' : ∀ r ∈ (s a.table).rows, ∀ ref ∈ references a.table, s.Resolves ref.parent (ref.column (assign r))) :
    ReturnsKey a.table (rowKey s a.table found) s (upsert a found row assign s) ↔
      s.Draws (upsertDraw a found assign).1 (upsertDraw a found assign).2 ∧ fitsInt (rowKey s a.table found) = true := by
  cases found with
  | none =>
    exact exactInserted valid number texts (fun column listed => by simp [plain] at listed) refers
  | some r =>
    have stored := mem r rfl
    exact exactUpdated valid stored keyed (fun column listed => by simp [plain] at listed) (texts' r stored)
      (refers' r stored)

end References

section Calls
variable {server : Server} {s : DB} {b x : Option Int}

theorem insUpdAccountsExact (valid : s.Valid) (stored : s.Resolves .blocks b) {n k : Option String}
    (named : Named s n) (fits : castable 53 k = true) {t : Option Timestamp} {u : Option Bool} :
    (Call.insUpdAccounts b n k t u).Exact server s ↔
      s.Draws (upsertDraw .accounts (accountNamed server s n) (accountRow b k t u)).1
          (upsertDraw .accounts (accountNamed server s n) (accountRow b k t u)).2 ∧
        fitsInt (rowKey s .accounts (accountNamed server s n)) = true := by
  have refers : ∀ ref ∈ references .accounts, ∀ r : Account, r.fkBlockNumber = b →
      s.Resolves ref.parent (ref.column r) := by
    intro ref listed r given
    rw [List.mem_singleton.mp listed]
    change s.Resolves .blocks r.fkBlockNumber
    rw [given]
    exact stored
  change ReturnsKey .accounts (rowKey s .accounts (accountNamed server s n)) s (insUpdAccounts server b n k t u s) ↔ _
  unfold insUpdAccounts
  rw [accountRuns]
  cases hit : accountNamed server s n with
  | none =>
    have absent := knownFalse.mp (named.2 (namedNone.mp hit))
    have opens (balance : Option Int) : ReturnsKey .accounts (s .accounts).next s ((do
        let pkid ← insertInto (S := relic) .accounts fun pk => (⟨pk,b,cut 12 n,cut 53 k,balance,t⟩ : Account)
        toInt (some pkid) : Proc (Option Int)) s) ↔ s.Draws .accounts 1 ∧ fitsInt (s .accounts).next = true := by
      refine exactInserted valid (fun _ => rfl) ?_ (fun column listed r mem x own given => ?_)
        fun ref listed => refers ref listed _ rfl
      · simp only [varchars, List.forall_mem_cons]
        exact ⟨named.1,fits,noneListed⟩
      · rw [List.mem_singleton.mp listed] at own given
        have apart := absent r mem
        rw [show r.accountName = some x from given, show cut 12 n = some x from own] at apart
        simp at apart
    by_cases token : same n fioToken = true
    · simp only [token, if_true]
      exact opens (some supply)
    · simp only [token]
      exact opens (some 0)
  | some account =>
    have mem := (namedSome hit).1
    by_cases renews : u = some true
    · have assigns : accountRow b k t u =
          fun r => { r with fkBlockNumber := b, publicKey := cut 53 k, blockTimestamp := t } := funext fun r => if_pos renews
      rw [assigns]
      simp only [renews, if_true]
      refine exactUpdated (a := .accounts) valid mem (fun _ => rfl) (fun column listed _ => ?_) ?_
        fun ref listed => refers ref listed _ rfl
      · rw [List.mem_singleton.mp listed]
      · simp only [varchars, Audited.table, List.forall_mem_cons]
        exact ⟨valid.fitsColumn (t := .accounts) List.mem_cons_self mem,fits,noneListed⟩
    · have kept : Wrote .accounts account.pkAccountId s s := ⟨List.mem_map_of_mem mem,fun _ _ => Iff.rfl⟩
      have quiet : entryCount account (accountRow b k t u account) = 0 := by simp [entryCount, accountRow, renews]
      simp only [renews]
      refine (exactNarrowed rfl kept).trans (and_iff_right ?_).symm
      change s.Draws .accountsAudit (entryCount account (accountRow b k t u account))
      rw [quiet]
      exact fun i lt => absurd lt (Nat.not_lt_zero i)

theorem insUpdHandlesExact (valid : s.Valid) (dated : Dated s b) {d o n k h : Option String}
    {e : Option Bool} {i : Option Timestamp} (texts : castable 64 n = true ∧ castable 64 k = true)
    (status : Listed handleStatuses h) :
    (Call.insUpdHandles b d o n k e i h).Exact server s ↔ (Call.insUpdHandles b d o n k e i h).Drawable server s ∧
        fitsInt (rowKey s .handles (handleNamed server s n)) = true := by
  obtain ⟨value,given,runs⟩ := listedRuns (s := s) (β := Option Int) status
  have draws : (Call.insUpdHandles b d o n k e i h).draws server s =
      [upsertDraw .handles (handleNamed server s n) (handleRow server s b d o n k e i value)] := by
    rw [Call.draws, given]
    rfl
  unfold Call.Drawable
  rw [draws]
  simp only [List.mem_singleton, forall_eq]
  change ReturnsKey .handles _ s (insUpdHandles server b d o n k e i h s) ↔ _
  have fits : ∀ r : Handle, r.handle = cut 64 n → r.encryptionKey = cut 64 k →
      ∀ c ∈ varchars .handles, fitsWidth c.width (c.column r) = true := by
    intro r own key
    simp only [varchars, List.forall_mem_cons]
    exact ⟨own ▸ texts.1,key ▸ texts.2,noneListed⟩
  rw [insUpdHandlesIs dated.1 runs]
  exact upsertExact (a := .handles) valid rfl (fun _ => rfl) (fun _ => rfl) (fun _ hit => (chosenSome hit).1)
    (fits _ rfl rfl) (fun _ _ => fits _ rfl rfl) (handleRefers dated.2 foundResolves foundResolves)
    fun _ _ => handleRefers dated.2 foundResolves foundResolves

theorem insUpdPubAddressesExact (valid : s.Valid) (dated : Dated s b) {h c t p : Option String}
    (texts : castable 12 c = true ∧ castable 12 t = true ∧ castable 128 p = true) :
    (Call.insUpdPubAddresses b h c t p).Exact server s ↔
      s.Draws (upsertDraw .pubAddresses (addressAt server s h c t) (addressRow b p)).1
          (upsertDraw .pubAddresses (addressAt server s h c t) (addressRow b p)).2 ∧
        fitsInt (rowKey s .pubAddresses (addressAt server s h c t)) = true := by
  change ReturnsKey .pubAddresses _ s (insUpdPubAddresses server b h c t p s) ↔ _
  rw [insUpdPubAddressesIs dated.1]
  refine upsertExact (a := .pubAddresses) valid rfl (fun _ => rfl) (fun _ => rfl) (fun _ hit => (chosenSome hit).1)
    (addressTexts.mpr texts) (fun r mem => ?_) (addressRefers dated.2 foundResolves) fun r mem =>
      addressRefers dated.2 (valid.resolves (t := .pubAddresses) (List.mem_cons_of_mem _ List.mem_cons_self) mem)
  obtain ⟨chain,token,_⟩ := addressTexts.mp fun c listed => valid.fitsColumn listed mem
  exact addressTexts.mpr ⟨chain,token,texts.2.2⟩

theorem insUpdNftSignaturesExact (valid : s.Valid) (dated : Dated s b) {h c a t u p m : Option String}
    (coordinates : castable 12 c = true ∧ castable 128 a = true ∧ castable 128 t = true)
    (texts : castable 128 u = true ∧ castable 64 p = true ∧ castable 128 m = true) :
    (Call.insUpdNftSignatures b h c a t u p m).Exact server s ↔
      s.Draws (upsertDraw .nftSignatures (signatureAt server s h c a t) (signatureRow server s b h u p m)).1
          (upsertDraw .nftSignatures (signatureAt server s h c a t) (signatureRow server s b h u p m)).2 ∧
        fitsInt (rowKey s .nftSignatures (signatureAt server s h c a t)) = true := by
  change ReturnsKey .nftSignatures _ s (insUpdNftSignatures server b h c a t u p m s) ↔ _
  rw [insUpdNftSignaturesIs dated.1]
  refine upsertExact (a := .nftSignatures) valid rfl (fun _ => rfl) (fun _ => rfl) (fun _ hit => (chosenSome hit).1)
    (signatureTexts.mpr ⟨coordinates,texts⟩) (fun r mem => ?_) (signatureRefers dated.2 foundResolves)
    fun _ _ => signatureRefers dated.2 foundResolves
  exact signatureTexts.mpr ⟨(signatureTexts.mp fun c listed => valid.fitsColumn listed mem).1,texts⟩

theorem insAccountActivitiesExact (valid : s.Valid) (tx : s.Resolves .transactions x)
    (dated : Dated s b) {n k : Option String} (listed : Listed accountActivityTypes k) :
    (Call.insAccountActivities x b n k).Exact server s ↔
      s.Draws .accountActivities 1 ∧ fitsInt (s .accountActivities).next = true := by
  obtain ⟨value,_,runs⟩ := listedRuns (s := s) (β := Option Int) listed
  change ReturnsKey .accountActivities _ s (insAccountActivities server x b n k s) ↔ _
  unfold insAccountActivities
  rw [pastGuard dated.1, lookupRuns, runs]
  refine exactInserted valid (fun _ => rfl) noneListed noneListed ?_
  simp only [references, List.forall_mem_cons]
  exact ⟨dated.2,foundResolves,tx,noneListed⟩

theorem insAccountActivitiesHandleExact (valid : s.Valid) (tx : s.Resolves .transactions x)
    (dated : Dated s b) {h k : Option String} (listed : Listed accountActivityTypes k) :
    (Call.insAccountActivitiesHandle x b h k).Exact server s ↔
      s.Draws .accountActivities 1 ∧ fitsInt (s .accountActivities).next = true := by
  obtain ⟨value,_,runs⟩ := listedRuns (s := s) (β := Option Int) listed
  change ReturnsKey .accountActivities _ s (insAccountActivitiesHandle server x b h k s) ↔ _
  unfold insAccountActivitiesHandle
  rw [pastGuard dated.1, lookupRuns, runs]
  refine exactInserted valid (fun _ => rfl) noneListed noneListed ?_
  have owner : s.Resolves .accounts ((handleNamed server s h).bind Handle.fkOwnerAccountId) :=
    readResolves (t := .handles) valid (List.mem_cons_of_mem _ (List.mem_cons_of_mem _ List.mem_cons_self))
  simp only [references, List.forall_mem_cons]
  exact ⟨dated.2,owner,tx,noneListed⟩

theorem insHandleActivitiesExact (valid : s.Valid) (tx : s.Resolves .transactions x)
    (dated : Dated s b) {h k : Option String} {t : Option Timestamp} (listed : Listed handleActivityTypes k) :
    (Call.insHandleActivities x b h k t).Exact server s ↔
      s.Draws .handleActivities 1 ∧ fitsInt (s .handleActivities).next = true := by
  obtain ⟨value,_,runs⟩ := listedRuns (s := s) (β := Option Int) listed
  change ReturnsKey .handleActivities _ s (insHandleActivities server x b h k t s) ↔ _
  unfold insHandleActivities
  rw [pastGuard dated.1, lookupRuns, runs]
  refine exactInserted valid (fun _ => rfl) noneListed noneListed ?_
  simp only [references, List.forall_mem_cons]
  exact ⟨foundResolves,dated.2,tx,noneListed⟩

theorem insDomainActivitiesExact (valid : s.Valid) (tx : s.Resolves .transactions x)
    (dated : Dated s b) {d k : Option String} {t : Option Timestamp} (listed : Listed domainActivityTypes k) :
    (Call.insDomainActivities x b d k t).Exact server s ↔
      s.Draws .domainActivities 1 ∧ fitsInt (s .domainActivities).next = true := by
  obtain ⟨value,_,runs⟩ := listedRuns (s := s) (β := Option Int) listed
  change ReturnsKey .domainActivities _ s (insDomainActivities server x b d k t s) ↔ _
  unfold insDomainActivities
  rw [pastGuard dated.1, lookupRuns, runs]
  refine exactInserted valid (fun _ => rfl) noneListed noneListed ?_
  simp only [references, List.forall_mem_cons]
  exact ⟨foundResolves,dated.2,tx,noneListed⟩

theorem insTokenStakingsExact (valid : s.Valid) (tx : s.Resolves .transactions x)
    (dated : Dated s b) {n : Option String} {f : Option Int} :
    (Call.insTokenStakings x b n f).Exact server s ↔ s.Draws .tokenStakings 1 ∧ fitsInt (s .tokenStakings).next = true := by
  change ReturnsKey .tokenStakings _ s (insTokenStakings server x b n f s) ↔ _
  unfold insTokenStakings
  rw [pastGuard dated.1, lookupRuns]
  refine exactInserted valid (fun _ => rfl) noneListed noneListed ?_
  simp only [references, List.forall_mem_cons]
  exact ⟨dated.2,foundResolves,tx,noneListed⟩

theorem insDomainsExact (valid : s.Valid) (dated : Dated s b) {d o k : Option String}
    {u : Option Bool} {t : Option Timestamp} (text : castable 62 d = true) (listed : Listed domainStatuses k) :
    (Call.insDomains b d o u t k).Exact server s ↔ s.Draws .domains 1 ∧ fitsInt (s .domains).next = true := by
  obtain ⟨value,_,runs⟩ := listedRuns (s := s) (β := Option Int) listed
  change ReturnsKey .domains _ s (insDomains server b d o u t k s) ↔ _
  unfold insDomains
  rw [pastGuard dated.1, lookupRuns, runs]
  refine exactInserted valid (fun _ => rfl) ?_ noneListed ?_
  · simp only [varchars, List.forall_mem_cons]
    exact ⟨text,noneListed⟩
  · simp only [references, List.forall_mem_cons]
    exact ⟨dated.2,foundResolves,noneListed⟩

theorem insFioRequestsExact (valid : s.Valid) (tx : s.Resolves .transactions x) (dated : Dated s b)
    {c : Option Int} {p q k : Option String} {d : Option Bytes} {t : Option Timestamp} (listed : Listed requestStatuses k)
    (payer : castable 53 ((handleNamed server s p).bind Handle.encryptionKey) = true)
    (payee : castable 53 ((handleNamed server s q).bind Handle.encryptionKey) = true) :
    (Call.insFioRequests x b c p q d k t).Exact server s ↔
      s.Draws .fioRequests 1 ∧ fitsInt (s .fioRequests).next = true := by
  obtain ⟨value,_,runs⟩ := listedRuns (s := s) (β := Option Int) listed
  change ReturnsKey .fioRequests _ s (insFioRequests server x b c p q d k t s) ↔ _
  unfold insFioRequests
  rw [pastGuard dated.1, lookupRuns, lookupRuns, runs]
  refine exactInserted valid (fun _ => rfl) ?_ noneListed ?_
  · simp only [varchars, List.forall_mem_cons]
    exact ⟨payer,payee,noneListed⟩
  · simp only [references, List.forall_mem_cons]
    exact ⟨dated.2,foundResolves,foundResolves,tx,noneListed⟩

theorem insFioDatasExact (valid : s.Valid) (tx : s.Resolves .transactions x) (dated : Dated s b)
    {c : Option Int} {p q k : Option String} {d : Option Bytes} {t : Option Timestamp} (listed : Listed dataStatuses k) :
    (Call.insFioDatas x b c p q d k t).Exact server s ↔ s.Draws .fioDatas 1 ∧ fitsInt (s .fioDatas).next = true := by
  obtain ⟨value,_,runs⟩ := listedRuns (s := s) (β := Option Int) listed
  change ReturnsKey .fioDatas _ s (insFioDatas server x b c p q d k t s) ↔ _
  unfold insFioDatas
  rw [pastGuard dated.1, lookupRuns, lookupRuns, lookupRuns, lookupRuns, runs]
  have fits {m : Account → Bool} :
      castable 53 ((chosen (server.takes .accounts) .accounts m s).bind Account.publicKey) = true := by
    cases hit : chosen (server.takes .accounts) .accounts m s with
    | none => rfl
    | some r =>
      exact fitsCastable (valid.fitsColumn (t := .accounts) (List.mem_cons_of_mem _ List.mem_cons_self) (chosenSome hit).1)
  refine exactInserted valid (fun _ => rfl) ?_ noneListed ?_
  · simp only [varchars, List.forall_mem_cons]
    exact ⟨fits,fits,noneListed⟩
  · simp only [references, List.forall_mem_cons]
    exact ⟨dated.2,foundResolves,foundResolves,tx,noneListed⟩

theorem insTransactionsExact (valid : s.Valid) (dated : Dated s b) {t : Option Timestamp} {i c n a h : Option String}
    {f : Option Int} {p q r : Option String} (nameable : Nameable s c n) (texts : Texts i a h r) :
    (Call.insTransactions b t i c n a h f p q r).Exact server s ↔ (same c fioToken = true → known s c = true) ∧
      (s.Draws .accounts (openings s c n).length ∧ s.Draws .transactions 1) ∧ fitsInt (s .transactions).next = true := by
  change (∃ s', insTransactions server b t i c n a h f p q r s = .ok (some (s .transactions).next,s') ∧
    Wrote .transactions (s .transactions).next s s') ↔ _
  simp only [insTransactionsOk valid dated.2 dated.1]
  constructor
  · rintro ⟨s',⟨present,can,draws,_,fits,_,_⟩,_⟩
    exact ⟨present,⟨can.drawn,draws⟩,fits⟩
  · rintro ⟨present,⟨drawn,draws⟩,fits⟩
    refine ⟨_,⟨present,⟨nameable,drawn⟩,draws,texts,fits,trivial,rfl⟩,?_⟩
    exact wroteAppended (sightBothOther (by decide)) rfl

theorem insTracesExact (valid : s.Valid) (tx : s.Resolves .transactions x) (dated : Dated s b)
    {c n a q : Option String} {o : Option Int} {t : Option Timestamp} (nameable : Nameable s c n)
    (text : castable 12 a = true) :
    (Call.insTraces x b c n o a q t).Exact server s ↔
      (s.Draws .accounts (openings s c n).length ∧ s.Draws .traces 1) ∧ fitsInt (s .traces).next = true := by
  change (∃ s', insTraces server x b c n o a q t s = .ok (some (s .traces).next,s') ∧
    Wrote .traces (s .traces).next s s') ↔ _
  simp only [insTracesOk valid tx dated.2 dated.1]
  constructor
  · rintro ⟨s',⟨can,draws,_,fits,_,_⟩,_⟩
    exact ⟨⟨can.drawn,draws⟩,fits⟩
  · rintro ⟨⟨drawn,draws⟩,fits⟩
    refine ⟨_,⟨⟨nameable,drawn⟩,draws,text,fits,trivial,rfl⟩,?_⟩
    exact wroteAppended (sightBothOther (by decide)) rfl

end Calls

section Transfers
variable {server : Server} {s : DB} {b x : Option Int}

theorem bigintRuns {n : Option Int} (bounded : outOfBounds n = false) {f : Option Int → Proc (Option Int)} :
    (toBigint n >>= f) s = f n s := by
  refine bindRuns (toBigintOk.mpr ⟨rfl,rfl,fun k given => ?_⟩)
  subst given
  simp only [outOfBounds, Option.any_some, supply] at bounded
  simp only [fitsBigint]
  grind

theorem balanceChanged (valid : s.Valid) {found : Option Account} (mem : ∀ r, found = some r → r ∈ (s .accounts).rows)
    (n : Option Int) : (changed (fun r : Account => same (some r.pkAccountId) (found.map Account.pkAccountId))
      (fun r => { r with fioBalanceSuf := n }) (s .accounts).rows).length = balanceCount found n := by
  cases found with
  | none => simp [changed, balanceCount]
  | some r => exact changedCount (a := .accounts) valid (mem r rfl) fun r => { r with fioBalanceSuf := n }

theorem balanceSettles (valid : s.Valid) {found : Option Account} (mem : ∀ r, found = some r → r ∈ (s .accounts).rows)
    {n : Option Int} (draws : s.Draws .accountsAudit (balanceCount found n)) :
    ∃ s', update .accounts (fun r => same (some r.pkAccountId) (found.map Account.pkAccountId))
        (fun r => { r with fioBalanceSuf := n }) s = .ok ((),s') ∧
      Settled .accounts (fun r => same (some r.pkAccountId) (found.map Account.pkAccountId))
        (fun r => { r with fioBalanceSuf := n }) s s' ∧ s'.keys .accounts = s.keys .accounts ∧
      (∀ t, t ≠ .accountsAudit → ∀ k, s.Resolves t k → s'.Resolves t k) ∧
      ∀ m, s.Draws .accountsAudit (balanceCount found n + m) ↔ s'.Draws .accountsAudit m := by
  rw [← balanceChanged valid mem] at draws
  obtain ⟨s',ran,settled⟩ := updateSettles (a := .accounts) (f := fun r => { r with fioBalanceSuf := n })
    valid draws (fun _ => rfl) (fun column listed r => by rw [List.mem_singleton.mp listed])
    (fun c listed r mem _ => by
      have fits : ∀ c ∈ varchars .accounts, fitsWidth c.width (c.column r) = true := fun c listed =>
        valid.fitsColumn listed mem
      simp only [varchars, Audited.table, List.mem_cons, List.not_mem_nil, or_false] at fits listed
      rcases listed with rfl | rfl
      · exact fits _ (Or.inl rfl)
      · exact fits _ (Or.inr rfl))
    (fun ref listed r mem _ => by
      have block := valid.resolves (t := .accounts) List.mem_cons_self mem
      rw [List.mem_singleton.mp listed]
      exact block)
  have keys : s'.keys .accounts = s.keys .accounts := by
    unfold Database.keys
    rw [settled.rows]
    exact assignedKeys (a := .accounts) fun _ _ _ => rfl
  refine ⟨s',ran,settled,keys,fun t log k => (Database.resolvesCongr ?_).mpr,fun m => ?_⟩
  · by_cases table : t = .accounts
    · rw [table, keys]
    · rw [Database.keys, settled.others t table log]
      rfl
  · rw [← balanceChanged valid mem]
    exact updatedDraws (a := .accounts) ran

theorem creditExact (valid : s.Valid) (tx : s.Resolves .transactions x) (stored : s.Resolves .blocks b)
    {paidBy a : Option Int} {r : Account} (payer : s.Resolves .accounts paidBy) (mem : r ∈ (s .accounts).rows)
    (bounded : outOfBounds (plus r.fioBalanceSuf a) = false) {k w : Option String} {t : Option Timestamp}
    (listed : Listed tokenTransferTypes k) :
    ReturnsKey .tokenTransfers (s .tokenTransfers).next s
      (creditPayee x b paidBy a k w t (r.pkAccountId,r.fioBalanceSuf) s) ↔
      s.Draws .accountsAudit (balanceCount (some r) (plus r.fioBalanceSuf a)) ∧ s.Draws .tokenTransfers 1 ∧
        fitsInt (s .tokenTransfers).next = true := by
  unfold creditPayee
  rw [bigintRuns bounded]
  simp only [bounded, Bool.false_eq_true, if_false]
  have mem' : ∀ x, some r = some x → x ∈ (s .accounts).rows := fun x given => Option.some.inj given ▸ mem
  by_cases draws : s.Draws .accountsAudit (balanceCount (some r) (plus r.fioBalanceSuf a))
  · obtain ⟨s₁,ran,settled,keys,resolved,_⟩ := balanceSettles valid mem' draws
    have transfers : s₁ .tokenTransfers = s .tokenTransfers := settled.others _ (by decide) (by decide)
    obtain ⟨value,_,runs⟩ := listedRuns (s := s₁) (β := Option Int) listed
    have updated : update .accounts (fun x => decide (x.pkAccountId = r.pkAccountId))
      (fun x => { x with fioBalanceSuf := plus r.fioBalanceSuf a }) s = .ok ((),s₁) := ran
    rw [and_iff_right draws, bindRuns updated, runs, ← returnsFrom transfers, ← Database.drawsCongr transfers, ← transfers]
    refine exactInserted settled.valid (fun _ => rfl) noneListed noneListed ?_
    simp only [references, List.forall_mem_cons]
    exact ⟨resolved _ (by decide) _ stored,resolved _ (by decide) _ payer,
      resolved _ (by decide) _ (List.mem_map_of_mem mem),resolved _ (by decide) _ tx,noneListed⟩
  · refine ⟨?_,fun holds => absurd holds.1 draws⟩
    rintro ⟨s',ran,_⟩
    obtain ⟨_,_,updated,_⟩ := bindOk.mp ran
    rw [← balanceChanged valid mem'] at draws
    exact absurd (updateDraws (a := .accounts) updated) draws

theorem openedExact (valid : s.Valid) (tx : s.Resolves .transactions x) (stored : s.Resolves .blocks b)
    {paidBy a : Option Int} (payer : s.Resolves .accounts paidBy) {q : Option String} (text : castable 12 q = true)
    (fresh : known s (cut 12 q) = false) (bounded : outOfBounds (plus (some 0) a) = false) {k w : Option String}
    {t : Option Timestamp} (listed : Listed tokenTransferTypes k) :
    ReturnsKey .tokenTransfers (s .tokenTransfers).next s ((insertInto (S := relic) .accounts (fun pk =>
      (⟨pk,b,cut 12 q,some "",some 0,t⟩ : Account)) >>= fun id => creditPayee x b paidBy a k w t (id,some 0)) s) ↔
      s.Draws .accounts 1 ∧ s.Draws .accountsAudit (balanceCount
        (some (⟨(s .accounts).next,b,cut 12 q,some "",some 0,t⟩ : Account)) (plus (some 0) a)) ∧
        s.Draws .tokenTransfers 1 ∧ fitsInt (s .tokenTransfers).next = true := by
  have apart (u : TableName) (other : u ≠ .accounts) : s.append .accounts
      [(⟨(s .accounts).next,b,cut 12 q,some "",some 0,t⟩ : Account)] u = s u := Database.appendOther _ other _
  have kept (u : TableName) (k : Option Int) : s.Resolves u k →
      (s.append .accounts [(⟨(s .accounts).next,b,cut 12 q,some "",some 0,t⟩ : Account)]).Resolves u k :=
    Database.resolvesMono (Database.keysAppendSub _ u)
  by_cases opening : s.Draws .accounts 1
  · have valid' : (s.append .accounts [(⟨(s .accounts).next,b,cut 12 q,some "",some 0,t⟩ : Account)]).Valid :=
      (opensValid valid stored).mpr ⟨opening,text,fresh⟩
    have inRows : (⟨(s .accounts).next,b,cut 12 q,some "",some 0,t⟩ : Account) ∈ (s.append .accounts
        [(⟨(s .accounts).next,b,cut 12 q,some "",some 0,t⟩ : Account)] .accounts).rows := by
      rw [Database.appendSame]
      exact List.mem_append_right _ (List.mem_singleton.mpr rfl)
    rw [bindRuns (insertIntoOk.mpr ⟨rfl,rfl,valid'⟩), ← returnsFrom (apart .tokenTransfers (by decide)),
      ← apart .tokenTransfers (by decide)]
    refine (creditExact valid' (kept _ _ tx) (kept _ _ stored) (kept _ _ payer) inRows bounded listed).trans ?_
    rw [Database.drawsCongr (apart .accountsAudit (by decide)), Database.drawsCongr (apart .tokenTransfers (by decide)),
      and_iff_right opening]
  · refine ⟨?_,fun holds => absurd holds.1 opening⟩
    rintro ⟨s',ran,_⟩
    obtain ⟨_,_,opened,_⟩ := bindOk.mp ran
    obtain ⟨_,rfl,valid'⟩ := insertIntoOk.mp opened
    exact absurd ((opensValid valid stored).mp valid').1 opening

theorem insTokenTransfersExact (valid : s.Valid) (tx : s.Resolves .transactions x) (dated : Dated s b)
    {p q k w : Option String} {a : Option Int} {t : Option Timestamp} (listed : Listed tokenTransferTypes k)
    (named : Named s q) (funded : Funded server s b p q a t) :
    (Call.insTokenTransfers x b p q a k w t).Exact server s ↔
      (s.Draws .accountsAudit (balanceCount (accountNamed server s p) (debitedBalance server s p a) +
          balanceCount (some (payeeRow server s b p q a t)) (plus (payeeRow server s b p q a t).fioBalanceSuf a)) ∧
        s.Draws .accounts (if known s q then 0 else 1) ∧ s.Draws .tokenTransfers 1) ∧
      fitsInt (s .tokenTransfers).next = true := by
  obtain ⟨bounded,bounded'⟩ := funded
  change ReturnsKey .tokenTransfers (s .tokenTransfers).next s (insTokenTransfers server x b p q a k w t s) ↔ _
  have payer : s.Resolves .accounts ((accountNamed server s p).map Account.pkAccountId) := foundResolves
  unfold insTokenTransfers
  rw [pastGuard dated.1, accountRuns]
  change ReturnsKey _ _ _ ((toBigint (debitedBalance server s p a) >>= _) s) ↔ _
  rw [bigintRuns bounded]
  simp only [bounded, Bool.false_eq_true, if_false]
  have mem : ∀ r, accountNamed server s p = some r → r ∈ (s .accounts).rows := fun r hit => (namedSome hit).1
  by_cases draws : s.Draws .accountsAudit (balanceCount (accountNamed server s p) (debitedBalance server s p a))
  · obtain ⟨s₁,ran,settled,keys,resolved,left⟩ := balanceSettles valid mem draws
    have transfers : s₁ .tokenTransfers = s .tokenTransfers := settled.others _ (by decide) (by decide)
    have sequence (n : Nat) : s₁.Draws .accounts n ↔ s.Draws .accounts n := by
      unfold Database.Draws
      rw [keys, settled.next]
    have payee : accountNamed server s₁ q = (accountNamed server s q).map
        (withBalance ((accountNamed server s p).map Account.pkAccountId) (debitedBalance server s p a)) :=
      chosenMapped settled.rows (fun _ => withBalanceMoney.1) fun _ => by rw [withBalanceMoney.2]
    have names (name : Option String) : known s₁ name = known s name := by
      unfold known
      rw [settled.rows, List.any_map]
      congr 1
      funext r
      change same (withBalance _ _ r).accountName name = _
      rw [withBalanceMoney.2]
    rw [bindRuns ran, accountRuns, left, ← sequence, ← Database.drawsCongr transfers, ← returnsFrom transfers, ← transfers]
    unfold payeeRow at bounded' ⊢
    cases hit : accountNamed server s q with
    | none =>
      rw [hit] at payee bounded'
      have absent := namedNone.mp hit
      rw [payee, absent]
      simp only [Option.map_none, Option.elim_none, Bool.false_eq_true, if_false] at bounded' ⊢
      rw [← settled.next]
      refine (openedExact settled.valid (resolved _ (by decide) _ tx) (resolved _ (by decide) _ dated.2)
        (resolved _ (by decide) _ payer) named.1 ((names _).trans (named.2 absent)) bounded' listed).trans ?_
      rw [and_left_comm, and_assoc, and_assoc]
    | some account =>
      obtain ⟨inRows,_,present⟩ := namedSome hit
      rw [hit] at payee bounded'
      have inRows : withBalance ((accountNamed server s p).map Account.pkAccountId) (debitedBalance server s p a) account ∈
          (s₁ .accounts).rows := by
        rw [settled.rows]
        exact List.mem_map_of_mem inRows
      rw [payee, present]
      simp only [Option.elim_some, if_true] at bounded' ⊢
      refine (creditExact settled.valid (resolved _ (by decide) _ tx) (resolved _ (by decide) _ dated.2)
        (resolved _ (by decide) _ payer) inRows bounded' listed).trans ?_
      have none : s₁.Draws .accounts 0 := fun i lt => absurd lt (Nat.not_lt_zero i)
      rw [and_iff_right none, and_assoc]
  · refine ⟨?_,fun holds => absurd (holds.1.1.less (Nat.le_add_right _ _)) draws⟩
    rintro ⟨s',ran,_⟩
    obtain ⟨_,_,updated,_⟩ := bindOk.mp ran
    rw [← balanceChanged valid mem] at draws
    exact absurd (updateDraws (a := .accounts) updated) draws

end Transfers

section Owner
variable {server : Server} {s : DB} {b : Option Int}

theorem ownerSettles (valid : s.Valid) (stored : s.Resolves .blocks b) {o k : Option String} {u : Option Bool}
    (text : castable 64 k = true) {p : Handle → Bool}
    (draws : s.Draws .handlesAudit (changed p (ownerRow server s b o k u) (s .handles).rows).length) :
    ∃ s', update .handles p (ownerRow server s b o k u) s = .ok ((),s') ∧
      Settled .handles p (ownerRow server s b o k u) s s' := by
  refine updateSettles (a := .handles) valid draws (fun _ => rfl) noneListed (fun c listed r mem _ => ?_)
    fun ref listed r mem _ => ?_
  · have name := valid.fitsColumn (t := .handles) List.mem_cons_self mem
    simp only [varchars, Audited.table, List.mem_cons, List.not_mem_nil, or_false] at listed
    rcases listed with rfl | rfl
    · exact name
    · exact text
  · have domain := valid.resolves (t := .handles) (List.mem_cons_of_mem _ List.mem_cons_self) mem
    simp only [references, Audited.table, List.mem_cons, List.not_mem_nil, or_false] at listed
    rcases listed with rfl | rfl | rfl
    · exact stored
    · exact domain
    · exact foundResolves

theorem updHandlesXferOwnerExact (valid : s.Valid) (stored : s.Resolves .blocks b) {h o k : Option String}
    {u : Option Bool} (text : castable 64 k = true) :
    (Call.updHandlesXferOwner b h o k u).Exact server s ↔ (Call.updHandlesXferOwner b h o k u).Drawable server s ∧
      ∀ i ∈ (Call.updHandlesXferOwner b h o k u).narrowed server s, fitsInt i = true := by
  change (∃ s', updHandlesXferOwner server b h o k u s = .ok ((handleNamed server s h).map Handle.pkHandleId,s') ∧
    ∀ r ∈ (s' .handles).rows, some r.pkHandleId = (handleNamed server s h).map Handle.pkHandleId →
      r.fkOwnerAccountId = (accountNamed server s o).map Account.pkAccountId) ↔
    (∀ x ∈ [(TableName.handlesAudit,(handleNamed server s h).elim 0 fun r =>
      entryCount r (ownerRow server s b o k u r))], s.Draws x.1 x.2) ∧
    ∀ i ∈ ((accountNamed server s o).map Account.pkAccountId).toList ++
      ((handleNamed server s h).map Handle.pkHandleId).toList, fitsInt i = true
  have found : ∀ f : Option Handle → Proc (Option Int), (select server .handles (fun r => same r.handle h) >>= f) s =
    f (handleNamed server s h) s := fun f => rfl
  have count : (changed (fun r : Handle => same (some r.pkHandleId) ((handleNamed server s h).map Handle.pkHandleId))
      (ownerRow server s b o k u) (s .handles).rows).length =
        (handleNamed server s h).elim 0 fun r => entryCount r (ownerRow server s b o k u r) := by
    cases hit : handleNamed server s h with
    | none => simp [changed]
    | some r => exact changedCount (a := .handles) valid (chosenSome hit).1 (ownerRow server s b o k u)
  simp only [List.mem_singleton, forall_eq]
  rw [← count]
  unfold updHandlesXferOwner
  rw [found, accountRuns]
  constructor
  · rintro ⟨s',ran,_⟩
    obtain ⟨_,m,owner,rest⟩ := bindOk.mp ran
    obtain ⟨_,m',written,last⟩ := bindOk.mp rest
    obtain ⟨rfl,rfl,_⟩ := toIntOk.mp owner
    refine ⟨updateDraws (a := .handles) written,fun i listed => ?_⟩
    rcases List.mem_append.mp listed with mem | mem
    · exact (toIntOk.mp owner).2.2 i (Option.mem_toList.mp mem)
    · exact (toIntOk.mp last).2.2 i (Option.mem_toList.mp mem)
  · rintro ⟨draws,fits⟩
    have owner : toInt ((accountNamed server s o).map Account.pkAccountId) s = .ok (_,s) :=
      toIntOk.mpr ⟨rfl,rfl,fun i given => fits i (List.mem_append_left _ (Option.mem_toList.mpr given))⟩
    obtain ⟨s',ran,settled⟩ := ownerSettles valid stored text draws
    refine ⟨s',?_,?_⟩
    · have written : update .handles (fun r => same (some r.pkHandleId) ((handleNamed server s h).map Handle.pkHandleId))
          (fun r => { r with
            fkBlockNumber := b
            fkOwnerAccountId := (accountNamed server s o).map Account.pkAccountId
            encryptionKey := cut 64 k
            isEncryptKeySet := u }) s = .ok ((),s') := ran
      rw [bindRuns owner, bindRuns written]
      exact toIntOk.mpr ⟨rfl,rfl,fun i given => fits i (List.mem_append_right _ (Option.mem_toList.mpr given))⟩
    · intro r mem own
      rw [settled.rows] at mem
      obtain ⟨old,stored,rfl⟩ := List.mem_map.mp mem
      unfold assigned at own ⊢
      split
      · rfl
      · rename_i missed
        rw [if_neg missed] at own
        rw [← own] at missed
        simp at missed

end Owner

theorem idsExact {server : Server} {s : DB} (valid : s.Valid) {c : Call} (admissible : c.Admissible server s) :
    c.Exact server s ↔ c.Declared s ∧ c.Drawable server s ∧ ∀ k ∈ c.narrowed server s, fitsInt k = true := by
  have each {k : Int} : fitsInt k = true ↔ ∀ i ∈ [k], fitsInt i = true := by simp
  have one {t : TableName} {n : Nat} {k : Int} : s.Draws t n ∧ fitsInt k = true ↔
      True ∧ (∀ x ∈ [(t,n)], s.Draws x.1 x.2) ∧ ∀ i ∈ [k], fitsInt i = true := by simp
  have two {t u : TableName} {n m : Nat} {k : Int} : (s.Draws t n ∧ s.Draws u m) ∧ fitsInt k = true ↔
      (∀ x ∈ [(t,n),(u,m)], s.Draws x.1 x.2) ∧ ∀ i ∈ [k], fitsInt i = true := by simp
  have three {t u v : TableName} {n m l : Nat} {k : Int} : (s.Draws t n ∧ s.Draws u m ∧ s.Draws v l) ∧ fitsInt k = true ↔
      True ∧ (∀ x ∈ [(t,n),(u,m),(v,l)], s.Draws x.1 x.2) ∧ ∀ i ∈ [k], fitsInt i = true := by simp
  cases c <;> first
    | exact absurd admissible id
    | skip
  case insUpdAccounts =>
    exact (insUpdAccountsExact valid admissible.1 admissible.2.1 admissible.2.2).trans one
  case insTransactions =>
    exact (insTransactionsExact valid admissible.1 admissible.2.1 admissible.2.2).trans (and_congr_right fun _ => two)
  case insTraces =>
    exact ((insTracesExact valid admissible.1 admissible.2.1 admissible.2.2.1 admissible.2.2.2).trans two).trans
      (and_iff_right trivial).symm
  case insAccountActivities =>
    exact (insAccountActivitiesExact valid admissible.1 admissible.2.1 admissible.2.2).trans one
  case insAccountActivitiesHandle =>
    exact (insAccountActivitiesHandleExact valid admissible.1 admissible.2.1 admissible.2.2).trans one
  case insHandleActivities =>
    exact (insHandleActivitiesExact valid admissible.1 admissible.2.1 admissible.2.2).trans one
  case insDomainActivities =>
    exact (insDomainActivitiesExact valid admissible.1 admissible.2.1 admissible.2.2).trans one
  case insTokenTransfers =>
    exact (insTokenTransfersExact valid admissible.1 admissible.2.1 admissible.2.2.1 admissible.2.2.2.1
      admissible.2.2.2.2).trans three
  case insTokenStakings => exact (insTokenStakingsExact valid admissible.1 admissible.2).trans one
  case insDomains => exact (insDomainsExact valid admissible.1 admissible.2.1 admissible.2.2).trans one
  case insUpdHandles =>
    refine ((insUpdHandlesExact valid admissible.1 admissible.2.1 admissible.2.2).trans
      (and_congr_right fun _ => each)).trans (and_iff_right trivial).symm
  case updHandlesXferOwner =>
    exact (updHandlesXferOwnerExact valid admissible.1 admissible.2).trans (and_iff_right trivial).symm
  case insFioRequests =>
    exact (insFioRequestsExact valid admissible.1 admissible.2.1 admissible.2.2.1 admissible.2.2.2.1
      admissible.2.2.2.2).trans one
  case insFioDatas => exact (insFioDatasExact valid admissible.1 admissible.2.1 admissible.2.2).trans one
  case insUpdPubAddresses => exact (insUpdPubAddressesExact valid admissible.1 admissible.2).trans one
  case insUpdNftSignatures =>
    exact (insUpdNftSignaturesExact valid admissible.1 admissible.2.1 admissible.2.2).trans one

def eosioTrace : Call := .insTraces none (some 1) (some "eosio") (some "alice") (some 1) none none none

theorem idsExactFirst : eosioTrace.Exact leastServer firstBlock := by
  have admissible : eosioTrace.Admissible leastServer firstBlock :=
    ⟨trivial,by decide,⟨by decide +kernel,by decide +kernel⟩,by decide⟩
  exact (idsExact (kemptRun _).valid admissible).mpr ⟨trivial,by decide +kernel,by decide +kernel⟩

def busyTraces : DB := firstBlock.put .traces ⟨[],2147483648⟩

theorem idRaises : busyTraces.Valid ∧ eosioTrace.Admissible leastServer busyTraces ∧ eosioTrace.Declared busyTraces ∧
    eosioTrace.Drawable leastServer busyTraces ∧ ¬eosioTrace.Exact leastServer busyTraces := by
  refine ⟨⟨by decide +kernel,by decide +kernel,by decide +kernel⟩,
    ⟨trivial,by decide,⟨by decide +kernel,by decide +kernel⟩,by decide⟩,trivial,by decide +kernel,?_⟩
  rintro ⟨s',ran,_⟩
  have raised : (eosioTrace.run leastServer busyTraces).toOption.isSome = false := by decide +kernel
  rw [ran] at raised
  cases raised

end FioRelic
