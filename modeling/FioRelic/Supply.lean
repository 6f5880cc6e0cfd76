import FioRelic.Transfers

/-! The token supply, in whatever order the calls come. The sum of the balances has to be
right not only now but at every cut, since a fork may make that past the present. -/
namespace FioRelic
open Relational Versioning

def held (r : Account) : Int := r.fioBalanceSuf.getD 0

def tokened (rows : List Account) : Bool := rows.any fun r => same r.accountName fioToken

structure Supplied (ahead : Int) (rows : List Account) : Prop where
  given : ∀ r ∈ rows, r.fioBalanceSuf.isSome
  total : (rows.map held).sum = (if tokened rows then supply else 0) + ahead

section Rows
variable {rows rows' : List Account} {r : Account} {ahead : Int}

theorem suppliedPerm (perm : rows'.Perm rows) (supplied : Supplied ahead rows) : Supplied ahead rows' where
  given := fun r mem => supplied.given r (perm.subset mem)
  total := by
    have same : tokened rows' = tokened rows := by
      unfold tokened
      rw [Bool.eq_iff_iff, List.any_eq_true, List.any_eq_true]
      exact ⟨fun ⟨r,mem,hit⟩ => ⟨r,perm.subset mem,hit⟩,fun ⟨r,mem,hit⟩ => ⟨r,perm.symm.subset mem,hit⟩⟩
    rw [(perm.map held).sum_eq, supplied.total, same]

theorem tokenedMoney : tokened rows = (rows.map money).any fun x => same x.2.1 fioToken := by
  rw [List.any_map]
  rfl

theorem heldMoney : rows.map held = (rows.map money).map fun x => x.2.2.getD 0 := by
  rw [List.map_map]
  rfl

theorem suppliedMoney (alike : rows'.map money = rows.map money) (supplied : Supplied ahead rows) :
    Supplied ahead rows' where
  given := by
    intro r mem
    obtain ⟨old,stored,_,_,balance⟩ := moneyAlike alike mem
    rw [balance]
    exact supplied.given old stored
  total := by rw [heldMoney, tokenedMoney, alike, ← heldMoney, ← tokenedMoney, supplied.total]

theorem suppliedOpened (absent : ∀ r' ∈ rows, same r'.accountName r.accountName = false)
    (opening : r.fioBalanceSuf = openingBalance r.accountName) (supplied : Supplied ahead rows) :
    Supplied ahead (rows ++ [r]) := by
  have split : tokened (rows ++ [r]) = (tokened rows || same r.accountName fioToken) := by simp [tokened]
  have given : ∀ r' ∈ rows ++ [r], r'.fioBalanceSuf.isSome := by
    intro r' mem
    rcases List.mem_append.mp mem with old | new
    · exact supplied.given r' old
    · rw [List.mem_singleton.mp new, opening, openingBalance]
      split <;> rfl
  unfold openingBalance at opening
  cases token : same r.accountName fioToken with
  | true =>
    simp only [token, if_true] at opening
    have without : tokened rows = false := by
      refine List.any_eq_false.mpr fun r' mem hit => ?_
      obtain ⟨name,own,known⟩ := sameTrue.mp token
      obtain ⟨name',own',known'⟩ := sameTrue.mp hit
      cases known.symm.trans known'
      have differ := absent r' mem
      rw [own, own'] at differ
      simp at differ
    refine ⟨given,?_⟩
    rw [List.map_append, List.sum_append, supplied.total, split, without, token]
    simp [held, opening, Int.add_comm]
  | false =>
    simp only [token, Bool.false_eq_true, if_false] at opening
    refine ⟨given,?_⟩
    rw [List.map_append, List.sum_append, supplied.total, split, token, Bool.or_false]
    simp [held, opening]

theorem withBalanceMoney {id balance : Option Int} :
    (withBalance id balance r).pkAccountId = r.pkAccountId ∧ (withBalance id balance r).accountName = r.accountName := by
  unfold withBalance
  split <;> exact ⟨rfl,rfl⟩

theorem tokenedBalance {id balance : Option Int} : tokened (rows.map (withBalance id balance)) = tokened rows := by
  unfold tokened
  rw [List.any_map]
  congr 1
  funext r
  rw [Function.comp, withBalanceMoney.2]

theorem heldBalanceOther {id balance : Option Int} (other : ∀ r ∈ rows, same (some r.pkAccountId) id = false) :
    rows.map (withBalance id balance) = rows := by
  refine (List.map_congr_left fun r mem => ?_).trans (List.map_id' rows)
  unfold withBalance
  rw [other r mem]
  rfl

theorem heldBalance {n : Int} (nodup : (rows.map Account.pkAccountId).Nodup) (mem : r ∈ rows) :
    ((rows.map (withBalance (some r.pkAccountId) (some n))).map held).sum = (rows.map held).sum + (n - held r) := by
  induction rows with
  | nil => cases mem
  | cons head tail ih =>
    obtain ⟨fresh,nodup⟩ := List.nodup_cons.mp nodup
    rw [List.map_cons, List.map_cons, List.map_cons, List.sum_cons, List.sum_cons]
    rcases List.mem_cons.mp mem with rfl | later
    · have rest : tail.map (withBalance (some r.pkAccountId) (some n)) = tail := by
        refine heldBalanceOther fun r' mem' => ?_
        have differ : r'.pkAccountId ≠ r.pkAccountId := fun same => fresh (same ▸ List.mem_map_of_mem mem')
        simp [differ]
      have own : held (withBalance (some r.pkAccountId) (some n) r) = n := by simp [withBalance, held]
      rw [rest, own]
      omega
    · have differ : head.pkAccountId ≠ r.pkAccountId := fun same => fresh (same ▸ List.mem_map_of_mem later)
      have other : withBalance (some r.pkAccountId) (some n) head = head := by simp [withBalance, differ]
      rw [other, ih nodup later]
      omega

theorem suppliedBalance {n : Int} (nodup : (rows.map Account.pkAccountId).Nodup) (mem : r ∈ rows)
    (supplied : Supplied ahead rows) :
    Supplied (ahead + (n - held r)) (rows.map (withBalance (some r.pkAccountId) (some n))) where
  given := by
    intro r' mem'
    obtain ⟨old,stored,rfl⟩ := List.mem_map.mp mem'
    unfold withBalance
    split
    · rfl
    · exact supplied.given old stored
  total := by
    rw [heldBalance nodup mem, tokenedBalance, supplied.total]
    omega

end Rows

def pastAccounts (b : Int) (s : DB) : List Account :=
  (s.keys .accounts).filterMap
    ((Audited.layout .accounts).rewind (some b) (Audited.seen .accounts s) (s .accountsAudit).rows)

def EverSupplied (s : DB) : Prop := ∀ b, Supplied 0 (pastAccounts b s)

section Pasts
variable {c : Call} {s s' : DB} {b : Int}

theorem pastStored (kempt : Kempt s) {x : Int} {r : Account}
    (found : (Audited.layout .accounts).rewind (some b) (Audited.seen .accounts s) (s .accountsAudit).rows x = some r) :
    ∃ now ∈ (s .accounts).rows, now.pkAccountId = x ∧ now.accountName = r.accountName := by
  obtain ⟨now,stored,number,fixed⟩ := rewindStored (a := .accounts) rfl kempt found
  simp only [Audited.fixed, Prod.mk.injEq, List.cons.injEq] at fixed
  exact ⟨now,stored,number,fixed.2.1⟩

theorem pastNames (kempt : Kempt s) {name : Option String}
    (absent : ∀ r ∈ (s .accounts).rows, same r.accountName name = false) :
    ∀ r ∈ pastAccounts b s, same r.accountName name = false := by
  intro r mem
  obtain ⟨x,_,found⟩ := List.mem_filterMap.mp mem
  obtain ⟨now,stored,_,name⟩ := pastStored kempt found
  rw [← name]
  exact absent now stored

theorem seenAccounts : Audited.seen .accounts s = (s .accounts).rows := List.map_id' _

theorem pastNow (valid : s.Valid) (above : atLeast (DB.head s) (some b) = false) :
    pastAccounts b s = (s .accounts).rows := by
  have settled : (Audited.layout .accounts).rewind (some b) (Audited.seen .accounts s) (s .accountsAudit).rows =
      (Audited.layout .accounts).find (Audited.seen .accounts s) := rewindNow valid above .accounts
  unfold pastAccounts
  rw [settled, seenAccounts]
  exact findAll (L := Audited.layout .accounts) (valid.keysNodup .accounts)

theorem pastCover (kempt : Kempt s) (x : Int)
    (found : (Audited.layout .accounts).rewind (some b) (Audited.seen .accounts s) (s .accountsAudit).rows x ≠ none) :
    x ∈ s.keys .accounts := by
  obtain ⟨r,found⟩ := Option.ne_none_iff_exists'.mp found
  obtain ⟨now,stored,number,_⟩ := pastStored kempt found
  exact List.mem_map.mpr ⟨now,stored,number⟩

theorem pastPerm (kempt : Kempt s) (kempt' : Kempt s') {b' : Int}
    (rewinds : ∀ x, (Audited.layout .accounts).rewind (some b') (Audited.seen .accounts s') (s' .accountsAudit).rows x =
      (Audited.layout .accounts).rewind (some b) (Audited.seen .accounts s) (s .accountsAudit).rows x) :
    (pastAccounts b' s').Perm (pastAccounts b s) := by
  unfold pastAccounts
  rw [funext rewinds]
  refine filterMapCovering (kempt'.valid.keysNodup .accounts) (kempt.valid.keysNodup .accounts) (fun x found => ?_)
    fun x found => pastCover kempt x found
  rw [← rewinds x] at found
  exact pastCover kempt' x found

theorem pastMoves (kempt : Kempt s) (late : atLeast (DB.head s) (some b) = true) (h : Change c s s') :
    (pastAccounts b s').Perm (pastAccounts b s) ∨
      ∃ r : Account, (s' .accounts).rows = (s .accounts).rows ++ [r] ∧
        pastAccounts b s' = pastAccounts b s ++ [r].filter fun r => !atLeast r.fkBlockNumber (some b) := by
  have kempt' := kemptChange kempt h
  have effect := changeEffect h kempt.valid .accounts fun deletes => by cases deletes
  cases effect with
  | same rows log =>
    refine Or.inl (pastPerm kempt kempt' fun x => ?_)
    rw [seenAccounts, seenAccounts, rows, show (s' .accountsAudit).rows = _ from log]
  | inserted r number stamped rows log =>
    refine Or.inr ⟨r,rows,?_⟩
    have fresh : ∀ x ∈ s.keys .accounts, x ≠ (Audited.layout .accounts).key r := by
      intro x mem same
      have issued := (kempt.serial .accounts rfl).2 x mem
      have number' : (Audited.layout .accounts).key r = (s .accounts).next := number
      omega
    have freshRow : (Audited.layout .accounts).find (s .accounts).rows ((Audited.layout .accounts).key r) = none :=
      findNone.mpr fun r' mem same => fresh _ (List.mem_map_of_mem mem) same
    have freshLog : ∀ e ∈ (s .accountsAudit).rows,
        (Audited.layout .accounts).entity e ≠ (Audited.layout .accounts).key r := by
      intro e mem same
      obtain ⟨old,stored,entity⟩ := entityStored (a := .accounts) kempt.valid rfl mem
      exact fresh _ (List.mem_map_of_mem stored) (entity.trans same)
    have rewinds : ∀ x, (Audited.layout .accounts).rewind (some b) ((s .accounts).rows ++ [r]) (s .accountsAudit).rows x =
        if x = (Audited.layout .accounts).key r then (some r).filter fun r => !atLeast (fkBlockNumber .accounts r) (some b)
        else (Audited.layout .accounts).rewind (some b) (s .accounts).rows (s .accountsAudit).rows x :=
      fun x => rewindInsert freshRow freshLog x
    unfold pastAccounts
    rw [seenAccounts, seenAccounts, rows, show (s' .accountsAudit).rows = _ from log]
    have keys : s'.keys .accounts = s.keys .accounts ++ [(Audited.layout .accounts).key r] := by
      unfold Database.keys
      rw [rows, List.map_append]
      rfl
    rw [keys, List.filterMap_append]
    congr 1
    · exact List.filterMap_congr fun x mem => by rw [rewinds x, if_neg (fresh x mem)]
    · rw [← filterMapFilter, List.filterMap_cons, List.filterMap_nil, List.filterMap_cons, List.filterMap_nil,
        rewinds, if_pos rfl]
      rfl
  | written entries log write restamped static updates =>
    refine Or.inl (pastPerm kempt kempt' fun x => ?_)
    rw [show (s' .accountsAudit).rows = _ from log]
    exact rewindWrite write late x

theorem notGrown {α : Type} {xs : List α} {x : α} {n : Nat} (same : (xs ++ [x]).length = n) (length : xs.length = n) :
    False := by
  rw [List.length_append, List.length_singleton] at same
  omega

theorem pastRebalanced (kempt : Kempt s) (late : atLeast (DB.head s) (some b) = true) {id balance : Option Int}
    (re : Rebalanced c id balance s s') : (pastAccounts b s').Perm (pastAccounts b s) := by
  rcases pastMoves kempt late re.change with perm | ⟨r,rows,_⟩
  · exact perm
  · exact (notGrown (rows ▸ congrArg List.length re.rows) (List.length_map ..).symm).elim

theorem suppliedStamped {rows : List Account} {r : Account} {ahead : Int} (opened : Supplied ahead (rows ++ [r]))
    (supplied : Supplied ahead rows) : Supplied ahead (rows ++ [r].filter fun r => !atLeast r.fkBlockNumber (some b)) := by
  cases late : atLeast r.fkBlockNumber (some b) with
  | true =>
    have dropped : [r].filter (fun r => !atLeast r.fkBlockNumber (some b)) = [] := by simp [late]
    rw [dropped, List.append_nil]
    exact supplied
  | false =>
    have kept : [r].filter (fun r => !atLeast r.fkBlockNumber (some b)) = [r] := by simp [late]
    rw [kept]
    exact opened

theorem everQuiet (quiet : c.transfers = false) (kempt : Kempt s) (h : Change c s s') (ever : EverSupplied s) :
    EverSupplied s' := by
  intro b
  cases late : atLeast (DB.head s) (some b) with
  | false =>
    have now := pastNow kempt.valid late
    have now' := pastNow h.valid (changeHead h ▸ late)
    have supplied := ever b
    rw [now] at supplied
    rw [now']
    rcases quietAccounts quiet h with alike | ⟨r,rows,_,absent,opening⟩
    · exact suppliedMoney alike supplied
    · rw [rows]
      exact suppliedOpened absent opening supplied
  | true =>
    rcases pastMoves kempt late h with perm | ⟨r,rows,past⟩
    · exact suppliedPerm perm (ever b)
    · rw [past]
      rcases quietAccounts quiet h with alike | ⟨r',rows',_,absent,opening⟩
      · have lengths := congrArg List.length alike
        rw [List.length_map, List.length_map, rows] at lengths
        exact (notGrown lengths rfl).elim
      · have same : r = r' := by simpa using rows.symm.trans rows'
        subst same
        exact suppliedStamped (suppliedOpened (pastNames kempt absent) opening (ever b)) (ever b)

end Pasts

def known (s : DB) (name : Option String) : Bool := (s .accounts).rows.any fun r => same r.accountName name

theorem knownFalse {s : DB} {name : Option String} :
    known s name = false ↔ ∀ r ∈ (s .accounts).rows, same r.accountName name = false := by
  simp [known]

section Transfer
variable {server : Server} {c : Call} {s s' : DB} {p q : Option String} {payee : Account} {ahead : Int}

theorem openedSupplied (opened : Opened server c q s payee s') (covered : known s q = true ∨ q ≠ fioToken)
    {rows : List Account} (names : (∀ r ∈ (s .accounts).rows, same r.accountName (cut 12 q) = false) →
      ∀ r ∈ rows, same r.accountName (cut 12 q) = false) (supplied : Supplied ahead rows) :
    (s' .accounts).rows = (s .accounts).rows ∨
      (s' .accounts).rows = (s .accounts).rows ++ [payee] ∧ Supplied ahead (rows ++ [payee]) := by
  cases opened with
  | found mem own => exact Or.inl rfl
  | created absent own new number zero change =>
    refine Or.inr ⟨by rw [Database.appendSame],suppliedOpened ?_ ?_ supplied⟩
    · rw [own] at new ⊢
      exact names new
    · have other : same q fioToken = false := by
        rcases covered with present | other
        · obtain ⟨r,mem,hit⟩ := List.any_eq_true.mp present
          rw [absent r mem] at hit
          cases hit
        · cases token : same q fioToken with
          | false => rfl
          | true =>
            obtain ⟨name,own,known⟩ := sameTrue.mp token
            exact absurd (own.trans known.symm) other
      rw [zero, own, openingCut, openingBalance, other]
      rfl

theorem openedHead (opened : Opened server c q s payee s') : DB.head s' = DB.head s := by
  cases opened with
  | found mem own => rfl
  | created absent own new number zero change => exact changeHead change

theorem openedPast {b : Int} (kempt : Kempt s) (late : atLeast (DB.head s) (some b) = true)
    (opened : Opened server c q s payee s') (covered : known s q = true ∨ q ≠ fioToken)
    (supplied : Supplied 0 (pastAccounts b s)) : Supplied 0 (pastAccounts b s') := by
  have rows := openedSupplied opened covered (fun absent => pastNames kempt absent) supplied
  cases opened with
  | found mem own => exact supplied
  | created absent own new number zero change =>
    rcases pastMoves kempt late change with perm | ⟨r,rows',past⟩
    · exact suppliedPerm perm supplied
    · rcases rows with same | ⟨grown,opened⟩
      · rw [rows'] at same
        exact (notGrown (congrArg List.length same) rfl).elim
      · have same : r = payee := by simpa using rows'.symm.trans grown
        rw [past, same]
        exact suppliedStamped opened supplied

theorem knownRebalanced {id balance : Option Int} {name : Option String} (re : Rebalanced c id balance s s') :
    known s' name = known s name := by
  unfold known
  rw [re.rows, List.any_map]
  congr 1
  funext r
  rw [Function.comp, withBalanceMoney.2]

theorem debitedSupplied {n : Int} {d : Steps} (valid : s.Valid) (h : Transferred server c p q (some n) d s s')
    (covered : known s p = true ∨ n = 0) (supplied : Supplied 0 (s .accounts).rows) :
    Supplied (-n) (d.debited .accounts).rows := by
  rw [h.debit.rows]
  cases payer : d.payer with
  | none =>
    have absent := chosenNone.mp (h.known.symm.trans payer)
    have nothing : n = 0 := by
      rcases covered with present | nothing
      · obtain ⟨r,mem,hit⟩ := List.any_eq_true.mp present
        rw [absent r mem] at hit
        cases hit
      · exact nothing
    rw [Option.map_none, heldBalanceOther fun r _ => rfl, nothing]
    exact supplied
  | some account =>
    have stored := (chosenSome (h.known.symm.trans payer)).1
    obtain ⟨m,balance⟩ := Option.isSome_iff_exists.mp (supplied.given account stored)
    have written : d.payerbalance = some (m - n) := by
      rw [h.rest, payer, Option.bind_some, balance]
      rfl
    have behind : -n = 0 + (m - n - held account) := by
      simp only [held, balance, Option.getD_some]
      omega
    rw [Option.map_some, written, behind]
    exact suppliedBalance (valid.keysNodup .accounts) stored supplied

theorem everTransferred {n : Int} {d : Steps} (kempt : Kempt s) (h : Transferred server c p q (some n) d s s')
    (payer : known s p = true ∨ n = 0) (payee : known s q = true ∨ q ≠ fioToken) (ever : EverSupplied s) :
    EverSupplied s' := by
  have kempt₁ := kemptChange kempt h.debit.change
  have kempt₂ := openedKempt kempt₁ h.payee
  have kempt₃ := kemptChange kempt₂ h.credit.change
  have head₁ := changeHead h.debit.change
  have head₂ := openedHead h.payee
  have head₃ := changeHead h.credit.change
  have payee : known d.debited q = true ∨ q ≠ fioToken := by
    rwa [knownRebalanced h.debit]
  have rows : (s' .accounts).rows = (d.credited .accounts).rows := by
    rw [h.recorded, Database.appendOther _ (by decide)]
  intro b
  cases late : atLeast (DB.head s) (some b) with
  | true =>
    have debited := suppliedPerm (pastRebalanced kempt late h.debit) (ever b)
    have opened := openedPast kempt₁ (head₁ ▸ late) h.payee payee debited
    have late₂ : atLeast (DB.head d.opened) (some b) = true := by rw [head₂, head₁, late]
    have credited := suppliedPerm (pastRebalanced kempt₂ late₂ h.credit) opened
    rcases pastMoves kempt₃ (head₃ ▸ late₂) h.change with perm | ⟨r,grown,_⟩
    · exact suppliedPerm perm credited
    · rw [rows] at grown
      exact (notGrown (congrArg List.length grown).symm rfl).elim
  | false =>
    have supplied := ever b
    rw [pastNow kempt.valid late] at supplied
    have debited := debitedSupplied kempt.valid h payer supplied
    have opened : Supplied (-n) (d.opened .accounts).rows := by
      rcases openedSupplied h.payee payee id debited with same | ⟨grown,opened⟩
      · rw [same]
        exact debited
      · rw [grown]
        exact opened
    have stored := openedPayee h.payee
    obtain ⟨m,balance⟩ := Option.isSome_iff_exists.mp (opened.given d.payee stored)
    have written : d.payeebalance = some (m + n) := by
      rw [h.sum, balance]
      rfl
    have level : (0 : Int) = -n + (m + n - held d.payee) := by
      simp only [held, balance, Option.getD_some]
      omega
    have above : atLeast (DB.head s') (some b) = false := by rw [changeHead h.change, head₃, head₂, head₁, late]
    rw [pastNow h.change.valid above, rows, h.credit.rows, written, level]
    exact suppliedBalance (kempt₂.valid.keysNodup .accounts) stored opened

end Transfer

theorem everForked {s s' : DB} {c : Int} (kempt : Kempt s) (kempt' : Kempt s') (forked : Forked c s s')
    (ever : EverSupplied s) : EverSupplied s' := by
  have upTo : ∀ b, b ≤ c → (pastAccounts b s').Perm (pastAccounts b s) := by
    intro b le
    refine pastPerm kempt kempt' fun x => ?_
    have entries := forked.entries .accounts rfl
    rw [show (s' .accountsAudit).rows = _ from entries]
    exact rewindRewind le (kempt.ordered .accounts rfl)
      (originalRewinds kempt (a := .accounts) rfl (forked.kept .accounts rfl) x)
  have above : ∀ b, c ≤ b → atLeast (DB.head s') (some b) = false := by
    intro b le
    refine headBelow.mpr fun k mem => ?_
    rw [forkBlocks (n := ⟨s,[]⟩) forked] at mem
    obtain ⟨_,below⟩ := List.mem_filter.mp mem
    simp only [Bool.not_eq_true', decide_eq_false_iff_not] at below
    omega
  intro b
  rcases Int.le_total b c with le | le
  · exact suppliedPerm (upTo b le) (ever b)
  · have now := suppliedPerm (upTo c (Int.le_refl c)) (ever c)
    rw [pastNow kempt'.valid (above c (Int.le_refl c))] at now
    rw [pastNow kempt'.valid (above b le)]
    exact now

theorem everBlock {s : DB} {b : Block} (ever : EverSupplied s) : EverSupplied (s.append .blocks [b]) := by
  intro k
  have accounts : (s.append .blocks [b]) .accounts = s .accounts := blockOther (by decide)
  have log : (s.append .blocks [b]) .accountsAudit = s .accountsAudit := blockOther (by decide)
  have same : pastAccounts k (s.append .blocks [b]) = pastAccounts k s := by
    unfold pastAccounts Database.keys
    rw [seenAccounts, seenAccounts, accounts, log]
  exact same ▸ ever k

def Conserved (s : DB) : Prop :=
  ((s .accounts).rows.map held).sum =
    if ∃ r ∈ (s .accounts).rows, r.accountName = some "fio.token" then 1000000000000000000 else 0

instance (s : DB) : Decidable (Conserved s) := by unfold Conserved; infer_instance

theorem everConserved {s : DB} (valid : s.Valid) (ever : EverSupplied s) : Conserved s := by
  obtain ⟨b,above⟩ : ∃ b, atLeast (DB.head s) (some b) = false := by
    cases top : DB.head s with
    | none => exact ⟨0,rfl⟩
    | some h => exact ⟨h + 1,decide_eq_false (by omega)⟩
  have supplied := ever b
  rw [pastNow valid above] at supplied
  have agree : tokened (s .accounts).rows = true ↔ ∃ r ∈ (s .accounts).rows, r.accountName = some "fio.token" := by
    unfold tokened
    rw [List.any_eq_true]
    refine exists_congr fun r => and_congr_right fun _ => ?_
    cases r.accountName <;> simp [fioToken]
  unfold Conserved
  rw [supplied.total, Int.add_zero]
  simp only [agree]
  rfl

def Covered (n : Node) (e : Event) : Prop := match e.call with
  | .insTokenTransfers _ b p q a .. =>
    a.isSome = true ∧ (below b (some 0) = true ∨
      (known n.db p = true ∨ a = some 0) ∧ (known n.db q = true ∨ q ≠ some "fio.token"))
  | _ => True

instance (n : Node) (e : Event) : Decidable (Covered n e) := by
  unfold Covered
  split <;> infer_instance

theorem everCovered {n : Node} {e : Event} {s' : DB} {v : Option Int} (covered : Covered n e) (kempt : Kempt n.db)
    (ran : e.call.run e.server n.db = .ok (v,s')) (changes : Changes e.call n.db s') (ever : EverSupplied n.db) :
    EverSupplied s' := by
  cases kind : e.call with
  | insTokenTransfers x b p q a k w t =>
    rw [kind] at ran
    unfold Covered at covered
    rw [kind] at covered
    obtain ⟨given,covered⟩ := covered
    obtain ⟨amount,rfl⟩ := Option.isSome_iff_exists.mp given
    cases negative : below b (some 0) with
    | true =>
      change insTokenTransfers e.server x b p q (some amount) k w t n.db = .ok (v,s') at ran
      unfold insTokenTransfers at ran
      rw [if_pos negative] at ran
      exact (pureOk.mp ran).2 ▸ ever
    | false =>
      rcases insTokenTransfersOk ran with unmoved | ⟨d,steps⟩
      · exact unmoved ▸ ever
      · rcases covered with guarded | ⟨payer,payee⟩
        · rw [negative] at guarded
          cases guarded
        · exact everTransferred kempt steps (payer.imp id Option.some.inj) payee ever
  | _ =>
    have quiet : e.call.transfers = false := by rw [kind]; rfl
    clear ran
    induction changes with
    | refl => exact ever
    | tail before last ih => exact everQuiet quiet (kemptChanges kempt before) last ih

theorem supplyConserved {history : List Event} (covered : Meets Covered history) : Conserved (run history).db := by
  have kept : Kempt (run history).db ∧ EverSupplied (run history).db := by
    refine anyOrderInduction (P := EverSupplied) ?_ (fun _ _ ever => ever) (fun _ _ => everBlock) ?_ ?_ covered
    · exact fun b => ⟨fun _ mem => absurd mem List.not_mem_nil,rfl⟩
    · exact fun _ _ _ _ _ met kempt ran changes ever => everCovered met kempt ran changes ever
    · exact fun _ _ _ kempt kempt' _ forked ever => everForked kempt kempt' forked ever
  exact everConserved kept.1.valid kept.2

theorem supplyConservedTransferred : Conserved (run (events transferred)).db :=
  supplyConserved (by decide +kernel)

def unpaid : List Call :=
  [.insBlocks (some 1) none (some "b1") none none,
    .insTokenTransfers none (some 1) (some "alice") (some "bob") (some 5) (some "transfer") none none]

def tokenless : List Call :=
  [.insBlocks (some 1) none (some "b1") none none,
    .insUpdAccounts (some 1) (some "alice") (some "k1") none none,
    .insTokenTransfers none (some 1) (some "alice") (some "fio.token") (some 0) (some "transfer") none none]

theorem unpaidNotConserved : ¬Conserved (run (events unpaid)).db ∧ ¬Conserved (run (events tokenless)).db := by
  constructor <;> decide +kernel

end FioRelic
