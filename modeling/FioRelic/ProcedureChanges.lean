import FioRelic.Changes

/-! One lemma for each stored procedure: when it returns, the database moved by the
changes its call allows. The rules below read a procedure statement by statement. -/
namespace FioRelic
open Relational Versioning

def Moves {α : Type} (c : Call) (s : DB) (x : Proc α) : Prop := ∀ v s', x s = .ok (v,s') → Changes c s s'

namespace Moves
variable {α β : Type} {c : Call} {s : DB} {server : Server}

theorem pure {a : α} : Moves c s (pure a : Proc α) := by
  intro v s' ran
  rw [(pureOk.mp ran).2]

theorem throw {e : Error} : Moves c s (throw e : Proc α) := fun _ _ ran => absurd ran throwOk

theorem toInt {n : Option Int} : Moves c s (toInt n) := by
  intro v s' ran
  rw [(toIntOk.mp ran).2.1]

theorem bind {x : Proc α} {f : α → Proc β} (first : Moves c s x)
    (rest : ∀ a m, x s = .ok (a,m) → Moves c m (f a)) : Moves c s (x >>= f) := by
  intro v s' ran
  obtain ⟨a,m,ran,ran'⟩ := bindOk.mp ran
  exact (first a m ran).trans (rest a m ran v s' ran')

theorem raise {e : Error} {f : α → Proc β} : Moves c s (MonadExcept.throw e >>= f) :=
  bind throw fun _ _ ran => absurd ran throwOk

theorem ite {p : Prop} [Decidable p] {x y : Proc α} (yes : p → Moves c s x) (no : ¬p → Moves c s y) :
    Moves c s (if p then x else y) := by
  by_cases h : p
  · rw [if_pos h]
    exact yes h
  · rw [if_neg h]
    exact no h

theorem guarded {b : Option Int} {k : α} {rest : Proc α} (later : Moves c s rest) :
    Moves c s (if below b (some 0) then return k else rest) :=
  ite (fun _ => pure) fun _ => later

theorem select {t : TableName} {p : Row t → Bool} {f : Option (Row t) → Proc β}
    (none : (∀ r ∈ (s t).rows, p r = false) → Moves c s (f none))
    (some : ∀ r ∈ (s t).rows, p r = true → Moves c s (f (some r))) :
    Moves c s (select server t p >>= f) := by
  intro v s' ran
  change f (chosen (server.takes t) t p s) s = .ok (v,s') at ran
  cases hit : chosen (server.takes t) t p s with
  | none =>
    rw [hit] at ran
    exact none (chosenNone.mp hit) v s' ran
  | some r =>
    rw [hit] at ran
    obtain ⟨mem,holds⟩ := chosenSome hit
    exact some r mem holds v s' ran

theorem lookup {t : TableName} {p : Row t → Bool} {f : Option (Row t) → Proc β}
    (rest : ∀ found, Moves c s (f found)) : Moves c s (FioRelic.select server t p >>= f) :=
  select (fun _ => rest none) fun r _ _ => rest (some r)

theorem oneOf {allowed : List String} {text : Option String} {f : OneOf allowed → Proc β}
    (rest : ∀ value, Moves c s (f value)) : Moves c s (oneOf allowed text >>= f) := by
  intro v s' ran
  obtain ⟨value,m,checked,ran⟩ := bindOk.mp ran
  obtain ⟨_,same⟩ := oneOfOk.mp checked
  subst m
  exact rest value v s' ran

theorem toBigint {n : Option Int} : Moves c s (toBigint n) := by
  intro v s' ran
  rw [(toBigintOk.mp ran).2.1]

theorem insert {t : TableName} {row : Int → Row t} (number : key t (row (s t).next) = (s t).next)
    (stamped : c.blockArgument = some (fkBlockNumber t (row (s t).next)))
    (inserted : Inserted c s t (row (s t).next)) : Moves c s (insertInto t row) :=
  fun _ _ ran => .single (insertChange ran number stamped inserted)

theorem update (a : Audited) {p : Row a.table → Bool} {assign : Row a.table → Row a.table}
    (rewritten : ∀ r ∈ (s a.table).rows, p r = true → Rewritten c a r (assign r)) :
    Moves c s (update a.table p assign) :=
  fun _ _ ran => .single (updateChange a ran rewritten)

theorem delete (a : Audited) (deletes : a.deletes = true) {p : Row a.table → Bool} :
    Moves c s (delete a.table p) :=
  fun _ _ ran => .single (deleteChange a deletes ran)

end Moves

section Ledger
variable {server : Server} {s : DB}

theorem insTokenStakingsMoves {x b a : Option Int} {n : Option String} :
    Moves (.insTokenStakings x b n a) s (insTokenStakings server x b n a) :=
  .guarded (.lookup fun _ => .bind (.insert rfl rfl trivial) fun _ _ _ => .toInt)

theorem insAccountActivitiesMoves {x b : Option Int} {a k : Option String} :
    Moves (.insAccountActivities x b a k) s (insAccountActivities server x b a k) :=
  .guarded (.lookup fun _ => .oneOf fun _ => .bind (.insert rfl rfl trivial) fun _ _ _ => .toInt)

theorem insAccountActivitiesHandleMoves {x b : Option Int} {h k : Option String} :
    Moves (.insAccountActivitiesHandle x b h k) s (insAccountActivitiesHandle server x b h k) :=
  .guarded (.lookup fun _ => .oneOf fun _ => .bind (.insert rfl rfl trivial) fun _ _ _ => .toInt)

theorem accountNew {r : Account} (valid : (s.append .accounts [r]).Valid) :
    ∀ r' ∈ (s .accounts).rows, same r'.accountName r.accountName = false := by
  intro r' stored
  cases clash : same r'.accountName r.accountName with
  | false => rfl
  | true =>
    obtain ⟨name,own,given⟩ := sameTrue.mp clash
    have distinct := valid.uniqueNodup (t := .accounts) (show Account.accountName ∈ _ from List.mem_cons_self)
    rw [Database.appendSame, List.filterMap_append] at distinct
    refine absurd rfl ((List.nodup_append.mp distinct).2.2 name (List.mem_filterMap.mpr ⟨r',stored,own⟩) name ?_)
    exact List.mem_filterMap.mpr ⟨r,List.mem_singleton.mpr rfl,given⟩

theorem accountMoves {c : Call} {b : Option Int} {name publicKey : Option String} {opening : Option Int}
    {stamp : Option Timestamp} (argument : c.blockArgument = some b)
    (opens : c.transfers = false → opening = openingBalance name) :
    Moves c s (insertInto (S := relic) .accounts fun pk =>
      (⟨pk,b,cut 12 name,publicKey,opening,stamp⟩ : Account)) := by
  intro k s' ran
  obtain ⟨_,rfl,valid⟩ := insertIntoOk.mp ran
  refine .single (.insert .accounts _ rfl argument ⟨accountNew valid,fun quiet => ?_⟩ valid)
  rw [openingCut]
  exact opens quiet

theorem insUpdAccountsMoves {b : Option Int} {n k : Option String} {t : Option Timestamp} {u : Option Bool} :
    Moves (.insUpdAccounts b n k t u) s (insUpdAccounts server b n k t u) := by
  refine .lookup fun found => ?_
  cases found with
  | none =>
    refine .ite (fun token => ?_) fun token => ?_
    · exact .bind (accountMoves rfl fun _ => by rw [openingBalance, if_pos token]) fun _ _ _ => .toInt
    · exact .bind (accountMoves rfl fun _ => by rw [openingBalance, if_neg token]) fun _ _ _ => .toInt
  | some account =>
    refine .ite (fun _ => ?_) fun _ => .toInt
    exact .bind (.update .accounts fun r _ _ => ⟨rfl,Or.inl rfl,rfl,fun _ => rfl⟩) fun _ _ _ => .toInt

def withActor {β : Type} (server : Server) (b : Option Int) (name : Option String) (stamp : Option Timestamp)
    (rest : Option Int → Proc β) : Proc β := do
  let actor ← select server .accounts fun r => same r.accountName name
  let accountid ← match actor with
    | some account => pure (some account.pkAccountId)
    | none =>
      if same name fioToken then do
        let id ← insertInto (S := relic) .accounts fun pk => (⟨pk,b,cut 12 name,some "",some supply,stamp⟩ : Account)
        pure (some id)
      else if startsWith name "fio." || startsWith name "eosio." then do
        let id ← insertInto (S := relic) .accounts fun pk => (⟨pk,b,cut 12 name,some "",some 0,stamp⟩ : Account)
        pure (some id)
      else pure none
  rest accountid

theorem systemAccountMoves {β : Type} {c : Call} {b : Option Int} {name : Option String}
    {stamp : Option Timestamp} {rest : Option Int → Proc β} (argument : c.blockArgument = some b)
    (later : ∀ id m, Moves c m (rest id)) : Moves c s (withActor server b name stamp rest) := by
  refine .select (fun _ => ?_) fun account _ _ => .bind .pure fun id m _ => later id m
  refine .ite (fun token => ?_) fun token => .ite (fun _ => ?_) fun _ => .bind .pure fun id m _ => later id m
  · refine .bind (accountMoves argument fun _ => ?_) fun _ _ _ => .bind .pure fun id m _ => later id m
    rw [openingBalance, if_pos token]
  · refine .bind (accountMoves argument fun _ => ?_) fun _ _ _ => .bind .pure fun id m _ => later id m
    rw [openingBalance, if_neg token]

theorem insTransactionsMoves {b f : Option Int} {t : Option Timestamp}
    {x ac an a p q r w : Option String} :
    Moves (.insTransactions b t x ac an a p f q r w) s (insTransactions server b t x ac an a p f q r w) := by
  have tail : ∀ (id : Int) (m : DB), Moves (.insTransactions b t x ac an a p f q r w) m
      (withActor server b an t fun accountid => do
        let pkid ← insertInto (S := relic) .transactions fun pk =>
          (⟨pk,b,t,cut 80 x,some id,accountid,cut 12 a,cut 64 p,f,q,r,cut 120 w⟩ : Transaction)
        toInt (some pkid)) := by
    intro id m
    exact systemAccountMoves rfl fun _ _ => .bind (.insert rfl rfl trivial) fun _ _ _ => .toInt
  refine .guarded (.select (fun _ => ?_) fun account _ _ => ?_)
  · refine .ite (fun _ => ?_) fun token => ?_
    · exact .raise
    · refine .bind ?_ fun id m _ => tail id m
      exact accountMoves rfl fun _ => by rw [openingBalance, if_neg token]
  · exact .bind .pure fun id m _ => tail id m

theorem insTracesMoves {x b o : Option Int} {ac rc a q : Option String} {t : Option Timestamp} :
    Moves (.insTraces x b ac rc o a q t) s (insTraces server x b ac rc o a q t) := by
  have tail : ∀ (id : Int) (m : DB), Moves (.insTraces x b ac rc o a q t) m
      (withActor server b rc t fun accountid => do
        let pkid ← insertInto (S := relic) .traces fun pk => (⟨pk,x,b,some id,accountid,o,cut 12 a,q⟩ : Trace)
        toInt (some pkid)) := by
    intro id m
    exact systemAccountMoves rfl fun _ _ => .bind (.insert rfl rfl trivial) fun _ _ _ => .toInt
  refine .guarded (.select (fun _ => ?_) fun account _ _ => ?_)
  · refine .ite (fun token => ?_) fun token => ?_
    · refine .bind (accountMoves rfl fun _ => ?_) fun id m _ => tail id m
      rw [openingBalance, if_pos token]
    · refine .bind (accountMoves rfl fun _ => ?_) fun id m _ => tail id m
      rw [openingBalance, if_neg token]
  · exact .bind .pure fun id m _ => tail id m

/- How a transfer goes on once the payee is known, found or created, by its id and its balance. -/
def creditPayee (x b paidBy a : Option Int) (k w : Option String) (t : Option Timestamp) (payee : Int × Option Int) :
    Proc (Option Int) := do
  let payeebalance ← toBigint (plus payee.2 a)
  if outOfBounds payeebalance then throw (.raised "out of bounds value computed for payee balance")
  update .accounts (fun r => decide (r.pkAccountId = payee.1)) fun r => { r with fioBalanceSuf := payeebalance }
  let transferType ← oneOf tokenTransferTypes k
  let pkid ← insertInto (S := relic) .tokenTransfers fun pk =>
    (⟨pk,b,paidBy,some payee.1,x,a,transferType,w,t⟩ : TokenTransfer)
  toInt (some pkid)

theorem creditMoves {x b paidBy a : Option Int} {p q k w : Option String} {t : Option Timestamp}
    (payee : Int × Option Int) : Moves (.insTokenTransfers x b p q a k w t) s (creditPayee x b paidBy a k w t payee) := by
  refine .bind .toBigint fun balance m _ => .ite (fun _ => .raise) fun _ => ?_
  refine .bind (.update .accounts fun r _ _ => ?_) fun _ m _ => ?_
  · exact ⟨rfl,Or.inr ⟨rfl,rfl⟩,rfl,fun no => by cases no⟩
  · exact .oneOf fun _ => .bind (.insert rfl rfl rfl) fun _ _ _ => .toInt

theorem insTokenTransfersMoves {x b a : Option Int} {p q k w : Option String} {t : Option Timestamp} :
    Moves (.insTokenTransfers x b p q a k w t) s (insTokenTransfers server x b p q a k w t) := by
  have transfers : (Call.insTokenTransfers x b p q a k w t).transfers = false → False := fun no => by cases no
  refine .guarded (.lookup fun payer => .bind .toBigint fun balance m _ => .ite (fun _ => .raise) fun _ => ?_)
  refine .bind (.update .accounts fun r _ _ => ?_) fun _ m _ => ?_
  · exact ⟨rfl,Or.inr ⟨rfl,rfl⟩,rfl,fun no => (transfers no).elim⟩
  refine .select (fun _ => ?_) fun account _ _ => .bind .pure fun payee _ _ => creditMoves payee
  refine .bind (accountMoves rfl fun no => (transfers no).elim) fun id m _ => ?_
  exact .bind .pure fun payee _ _ => creditMoves payee

end Ledger

section Domains
variable {server : Server} {s : DB}

theorem insDomainsMoves {b : Option Int} {n o w : Option String} {p : Option Bool} {t : Option Timestamp} :
    Moves (.insDomains b n o p t w) s (insDomains server b n o p t w) :=
  .guarded (.lookup fun _ => .oneOf fun _ => .bind (.insert rfl rfl ⟨n,rfl,rfl⟩) fun _ _ _ => .toInt)

theorem insDomainActivitiesMoves {x b : Option Int} {n k : Option String} {t : Option Timestamp} :
    Moves (.insDomainActivities x b n k t) s (insDomainActivities server x b n k t) :=
  .guarded (.lookup fun _ => .oneOf fun _ => .bind (.insert rfl rfl trivial) fun _ _ _ => .toInt)

theorem updDomainExpMoves {n : Option String} {t : Option Timestamp} :
    Moves (.updDomainExp n t) s (updDomainExp server n t) :=
  .lookup fun _ => .bind (.update .domains fun _ _ _ => ⟨rfl,Or.inr ⟨rfl,rfl⟩,rfl⟩) fun _ _ _ => .toInt

theorem updDomainIsPublicMoves {n : Option String} {p : Option Bool} :
    Moves (.updDomainIsPublic n p) s (updDomainIsPublic server n p) :=
  .lookup fun _ => .bind (.update .domains fun _ _ _ => ⟨rfl,Or.inr ⟨rfl,rfl⟩,rfl⟩) fun _ _ _ => .toInt

theorem updDomainOwnerMoves {n o : Option String} :
    Moves (.updDomainOwner n o) s (updDomainOwner server n o) :=
  .lookup fun _ => .lookup fun _ =>
    .bind (.update .domains fun _ _ _ => ⟨rfl,Or.inr ⟨rfl,rfl⟩,rfl⟩) fun _ _ _ => .toInt

theorem updDomainBurntMoves {n : Option String} : Moves (.updDomainBurnt n) s (updDomainBurnt n) :=
  .bind (.update .domains fun _ _ _ => ⟨rfl,Or.inr ⟨rfl,rfl⟩,rfl⟩) fun _ _ _ => .pure

end Domains

section Handles
variable {server : Server} {s : DB}

theorem handleKept (valid : s.Valid) {row r : Handle} {h : Option String} (mem : row ∈ (s .handles).rows)
    (hit : same row.handle h = true) (listed : r ∈ (s .handles).rows) (found : decide (r.pkHandleId = row.pkHandleId) = true) :
    cut 64 h = r.handle := by
  obtain ⟨name,own,given⟩ := sameTrue.mp hit
  have only : r = row := valid.sameRow listed mem (of_decide_eq_true found)
  have fits := valid.fitsColumn (t := .handles) List.mem_cons_self mem
  rw [only, given, ← own]
  exact cutFits fits

theorem insUpdHandlesMoves {b : Option Int} {d o h k w : Option String} {i : Option Bool}
    {t : Option Timestamp} (valid : s.Valid) :
    Moves (.insUpdHandles b d o h k i t w) s (insUpdHandles server b d o h k i t w) := by
  refine .guarded (.lookup fun owner => .lookup fun domain => ?_)
  refine .select (fun absent => .oneOf fun _ => ?_) fun row mem hit => .oneOf fun _ => ?_
  · exact .bind (.insert rfl rfl ⟨h,rfl,rfl,absent⟩) fun _ _ _ => .toInt
  · exact .bind (.update .handles fun r listed found => ⟨rfl,Or.inl rfl,handleKept valid mem hit listed found⟩)
      fun _ _ _ => .toInt

theorem updHandlesXferOwnerMoves {b : Option Int} {h o k : Option String} {i : Option Bool} :
    Moves (.updHandlesXferOwner b h o k i) s (updHandlesXferOwner server b h o k i) :=
  .lookup fun _ => .lookup fun _ => .bind .toInt fun _ _ _ =>
    .bind (.update .handles fun _ _ _ => ⟨rfl,Or.inl rfl,rfl⟩) fun _ _ _ => .toInt

theorem updHandlesEncryptKeyMoves {b : Option Int} {h k : Option String} :
    Moves (.updHandlesEncryptKey b h k) s (updHandlesEncryptKey server b h k) := by
  refine .lookup fun _ => .ite (fun _ => ?_) fun _ => .toInt
  exact .bind (.update .handles fun _ _ _ => ⟨rfl,Or.inl rfl,rfl⟩) fun _ _ _ => .toInt

theorem updHandlesSetEncryptKeyMoves {b : Option Int} {h k : Option String} :
    Moves (.updHandlesSetEncryptKey b h k) s (updHandlesSetEncryptKey server b h k) :=
  .lookup fun _ => .bind (.update .handles fun _ _ _ => ⟨rfl,Or.inl rfl,rfl⟩) fun _ _ _ => .toInt

theorem updHandlesStatusMoves {b : Option Int} {h w : Option String} :
    Moves (.updHandlesStatus b h w) s (updHandlesStatus server b h w) :=
  .select (fun _ => .toInt) fun _ _ _ => .oneOf fun _ =>
    .bind (.update .handles fun _ _ _ => ⟨rfl,Or.inl rfl,rfl⟩) fun _ _ _ => .toInt

theorem updHandleBurntMoves {b : Option Int} {h : Option String} :
    Moves (.updHandleBurnt b h) s (updHandleBurnt server b h) :=
  .select (fun _ => .pure) fun _ _ _ =>
    .bind (.update .handles fun _ _ _ => ⟨rfl,Or.inl rfl,rfl⟩) fun _ _ _ => .pure

theorem insHandleActivitiesMoves {x b : Option Int} {h k : Option String} {t : Option Timestamp} :
    Moves (.insHandleActivities x b h k t) s (insHandleActivities server x b h k t) :=
  .guarded (.lookup fun _ => .oneOf fun _ => .bind (.insert rfl rfl trivial) fun _ _ _ => .toInt)

end Handles

section Addresses
variable {server : Server} {s : DB}

theorem handleIdOk {name : Option String} {id : Option Int} {s' : DB} (ran : handleId server name s = .ok (id,s')) :
    HandleId s name id ∧ s' = s := by
  obtain ⟨handle,_,looked,last⟩ := bindOk.mp ran
  obtain ⟨hit,rfl⟩ := selectIntoOk.mp looked
  obtain ⟨rfl,rfl⟩ := pureOk.mp last
  refine ⟨fun k given => ?_,rfl⟩
  obtain ⟨r,stored,number⟩ := Option.map_eq_some_iff.mp given
  subst stored
  exact ⟨r,(chosenSome hit.symm).1,number,(chosenSome hit.symm).2⟩

theorem handleIdLookup {β : Type} {c : Call} {name : Option String} {f : Option Int → Proc β}
    (rest : ∀ id, HandleId s name id → Moves c s (f id)) : Moves c s (handleId server name >>= f) := by
  intro v s' ran
  obtain ⟨id,m,found,later⟩ := bindOk.mp ran
  obtain ⟨known,rfl⟩ := handleIdOk found
  exact rest id known v s' later

theorem insUpdPubAddressesMoves {b : Option Int} {h c k a : Option String} :
    Moves (.insUpdPubAddresses b h c k a) s (insUpdPubAddresses server b h c k a) := by
  refine .guarded (handleIdLookup fun id known => .select (fun absent => ?_) fun row _ _ => ?_)
  · exact .bind (.insert rfl rfl ⟨h,c,k,rfl,known,rfl,rfl,absent⟩) fun _ _ _ => .toInt
  · exact .bind (.update .pubAddresses fun _ _ _ => ⟨rfl,Or.inl rfl,rfl,rfl,rfl⟩) fun _ _ _ => .toInt

theorem delPubAddressMoves {h c k a : Option String} :
    Moves (.delPubAddress h c k a) s (delPubAddress server h c k a) :=
  handleIdLookup fun _ _ => .bind (.delete .pubAddresses rfl) fun _ _ _ => .pure

theorem delPubAddressesMoves {h : Option String} : Moves (.delPubAddresses h) s (delPubAddresses server h) :=
  handleIdLookup fun _ _ => .bind (.delete .pubAddresses rfl) fun _ _ _ => .pure

theorem clearPubAddressesMoves {h : Option String} : Moves (.clearPubAddresses h) s (clearPubAddresses server h) :=
  handleIdLookup fun _ _ => .bind (.delete .pubAddresses rfl) fun _ _ _ => .pure

theorem insUpdNftSignaturesMoves {b : Option Int} {h c a i u x m : Option String} (valid : s.Valid) :
    Moves (.insUpdNftSignatures b h c a i u x m) s (insUpdNftSignatures server b h c a i u x m) := by
  refine .guarded (handleIdLookup fun id known => .select (fun absent => ?_) fun row mem hit => ?_)
  · exact .bind (.insert rfl rfl ⟨h,c,a,i,rfl,known,rfl,rfl,rfl,absent⟩) fun _ _ _ => .toInt
  · refine .bind (.update .nftSignatures fun r listed found => ?_) fun _ _ _ => .toInt
    simp only [Bool.and_eq_true] at hit
    obtain ⟨handle,own,given⟩ := sameTrue.mp hit.1.1.1
    have only : r = row := valid.sameRow listed mem (of_decide_eq_true found)
    exact ⟨rfl,Or.inl rfl,given.trans (own.symm.trans (by rw [only])),rfl,rfl,rfl⟩

theorem delNftSignatureMoves {h c a i : Option String} :
    Moves (.delNftSignature h c a i) s (delNftSignature server h c a i) :=
  handleIdLookup fun _ _ => .bind (.delete .nftSignatures rfl) fun _ _ _ => .pure

theorem delNftSignaturesMoves {h : Option String} : Moves (.delNftSignatures h) s (delNftSignatures server h) :=
  handleIdLookup fun _ _ => .bind (.delete .nftSignatures rfl) fun _ _ _ => .pure

end Addresses

section Requests
variable {server : Server} {s : DB}

theorem insFioRequestsMoves {x b q : Option Int} {p r w : Option String} {d : Option Bytes}
    {t : Option Timestamp} :
    Moves (.insFioRequests x b q p r d w t) s (insFioRequests server x b q p r d w t) :=
  .guarded (.lookup fun _ => .lookup fun _ => .oneOf fun _ =>
    .bind (.insert rfl rfl trivial) fun _ _ _ => .toInt)

theorem updFioRequestsStatusMoves {q : Option Int} {w : Option String} :
    Moves (.updFioRequestsStatus q w) s (updFioRequestsStatus server q w) :=
  .select (fun _ => .pure) fun _ _ _ => .oneOf fun _ =>
    .bind (.update .fioRequests fun _ _ _ => ⟨rfl,Or.inr ⟨rfl,rfl⟩,rfl⟩) fun _ _ _ => .toInt

theorem insFioDatasMoves {x b q : Option Int} {p r w : Option String} {d : Option Bytes}
    {t : Option Timestamp} :
    Moves (.insFioDatas x b q p r d w t) s (insFioDatas server x b q p r d w t) :=
  .guarded (.lookup fun _ => .lookup fun _ => .lookup fun _ => .lookup fun _ =>
    .oneOf fun _ => .bind (.insert rfl rfl trivial) fun _ _ _ => .toInt)

theorem insHandleActivitiesFioRequestMoves {x b q : Option Int} {k : Option String} {t : Option Timestamp} :
    Moves (.insHandleActivitiesFioRequest x b q k t) s (insHandleActivitiesFioRequest server x b q k t) :=
  .guarded (.lookup fun _ => .oneOf fun _ => .bind (.insert rfl rfl trivial) fun _ _ _ => .toInt)

end Requests

def Call.ordinary : Call → Bool
  | .insBlocks .. | .rbFork .. => false
  | _ => true

theorem callChanges {server : Server} {c : Call} {s s' : DB} {v : Option Int} (ordinary : c.ordinary = true)
    (valid : s.Valid) (ran : c.run server s = .ok (v,s')) : Changes c s s' := by
  cases c with
  | insBlocks => cases ordinary
  | rbFork => cases ordinary
  | insUpdAccounts => exact insUpdAccountsMoves v s' ran
  | insTransactions => exact insTransactionsMoves v s' ran
  | insTraces => exact insTracesMoves v s' ran
  | insAccountActivities => exact insAccountActivitiesMoves v s' ran
  | insAccountActivitiesHandle => exact insAccountActivitiesHandleMoves v s' ran
  | insTokenTransfers => exact insTokenTransfersMoves v s' ran
  | insTokenStakings => exact insTokenStakingsMoves v s' ran
  | getAccountPubKeyAndId =>
    obtain ⟨_,m,read,last⟩ := bindOk.mp ran
    obtain ⟨_,_,looked,found⟩ := bindOk.mp read
    rw [(pureOk.mp last).2, (pureOk.mp found).2, (getOk.mp looked).2]
  | insDomains => exact insDomainsMoves v s' ran
  | insDomainActivities => exact insDomainActivitiesMoves v s' ran
  | updDomainExp => exact updDomainExpMoves v s' ran
  | updDomainIsPublic => exact updDomainIsPublicMoves v s' ran
  | updDomainOwner => exact updDomainOwnerMoves v s' ran
  | updDomainBurnt => exact updDomainBurntMoves v s' ran
  | insUpdHandles => exact insUpdHandlesMoves valid v s' ran
  | updHandlesRenewBundles => exact absurd ran throwOk
  | updHandlesAddBundles => exact absurd ran throwOk
  | updHandlesXferOwner => exact updHandlesXferOwnerMoves v s' ran
  | updHandlesEncryptKey => exact updHandlesEncryptKeyMoves v s' ran
  | updHandlesSetEncryptKey => exact updHandlesSetEncryptKeyMoves v s' ran
  | updHandlesStatus => exact updHandlesStatusMoves v s' ran
  | updHandleBurnt => exact updHandleBurntMoves v s' ran
  | insHandleActivities => exact insHandleActivitiesMoves v s' ran
  | insUpdPubAddresses => exact insUpdPubAddressesMoves v s' ran
  | delPubAddress => exact delPubAddressMoves v s' ran
  | delPubAddresses => exact delPubAddressesMoves v s' ran
  | clearPubAddresses => exact clearPubAddressesMoves v s' ran
  | existsPubAddress =>
    obtain ⟨_,_,_,last⟩ := bindOk.mp ran
    exact absurd last throwOk
  | insUpdNftSignatures => exact insUpdNftSignaturesMoves valid v s' ran
  | delNftSignature => exact delNftSignatureMoves v s' ran
  | delNftSignatures => exact delNftSignaturesMoves v s' ran
  | insFioRequests => exact insFioRequestsMoves v s' ran
  | updFioRequestsStatus => exact updFioRequestsStatusMoves v s' ran
  | insFioDatas => exact insFioDatasMoves v s' ran
  | insHandleActivitiesFioRequest => exact insHandleActivitiesFioRequestMoves v s' ran

end FioRelic
