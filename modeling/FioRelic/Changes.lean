import Mathlib.Logic.Relation
import FioRelic.Audit
import FioRelic.History

/-! What the statements of a call can do, said once. Outside blocks and rbfork a call
inserts rows that carry its block number, rewrites rows of an audited table and deletes
from two of them. Every invariant over histories is proved against `Change`. -/
namespace FioRelic
open Relational Versioning

namespace Call

def registers : Call → Option (Option String)
  | insDomains _ name .. => some name
  | _ => none

def names : Call → Option (Option String)
  | insUpdHandles _ _ _ name .. => some name
  | _ => none

def codes : Call → Option (Option String × Option String × Option String)
  | insUpdPubAddresses _ handle chain token .. => some (handle,chain,token)
  | _ => none

def tokens : Call → Option (Option String × Option String × Option String × Option String)
  | insUpdNftSignatures _ handle chain contract token .. => some (handle,chain,contract,token)
  | _ => none

def transfers : Call → Bool
  | insTokenTransfers .. => true
  | _ => false

end Call

def openingBalance (name : Option String) : Option Int := if same name fioToken then some supply else some 0

def sameSlot (handle : Option Int) (chain token : Option String) (r : PubAddress) : Bool :=
  same r.fkHandleId handle && same r.chainCode chain && same r.tokenCode token

def sameToken (handle : Option Int) (chain contract token : Option String) (r : NftSignature) : Bool :=
  same r.fkHandleId handle && same r.chainCode chain && same r.contractAddress contract && same r.tokenId token

def HandleId (s : DB) (name : Option String) (id : Option Int) : Prop :=
  ∀ k, id = some k → ∃ r ∈ (s .handles).rows, r.pkHandleId = k ∧ same r.handle name = true

/- The rows a call may insert. A key is looked up as it was given, and stored cut. -/
def Inserted (c : Call) (s : DB) : (t : TableName) → Row t → Prop
  | .accounts => fun r => (∀ r' ∈ (s .accounts).rows, same r'.accountName r.accountName = false) ∧
      (c.transfers = false → r.fioBalanceSuf = openingBalance r.accountName)
  | .domains => fun r => ∃ name, c.registers = some name ∧ r.domainName = cut 62 name
  | .handles => fun r => ∃ name, c.names = some name ∧ r.handle = cut 64 name ∧
      ∀ r' ∈ (s .handles).rows, same r'.handle name = false
  | .pubAddresses => fun r => ∃ handle chain token, c.codes = some (handle,chain,token) ∧
      HandleId s handle r.fkHandleId ∧ r.chainCode = cut 12 chain ∧ r.tokenCode = cut 12 token ∧
      ∀ r' ∈ (s .pubAddresses).rows, sameSlot r.fkHandleId chain token r' = false
  | .nftSignatures => fun r => ∃ handle chain contract token, c.tokens = some (handle,chain,contract,token) ∧
      HandleId s handle r.fkHandleId ∧ r.chainCode = cut 12 chain ∧ r.contractAddress = cut 128 contract ∧
      r.tokenId = cut 128 token ∧
      ∀ r' ∈ (s .nftSignatures).rows, sameToken r.fkHandleId chain contract token r' = false
  | .tokenTransfers => fun _ => c.transfers = true
  | .blocks | .handlesAudit | .domainsAudit | .accountsAudit | .fioRequestsAudit | .fioDatasAudit
  | .pubAddressesAudit | .nftSignaturesAudit => fun _ => False
  | _ => fun _ => True

def Kept (c : Call) : (a : Audited) → Row a.table → Row a.table → Prop
  | .accounts => fun r r' => r'.accountName = r.accountName ∧
      (c.transfers = false → r'.fioBalanceSuf = r.fioBalanceSuf)
  | .domains => fun r r' => r'.domainName = r.domainName
  | .handles => fun r r' => r'.handle = r.handle
  | .fioRequests => fun r r' => r' = { r with requestStatus := r'.requestStatus }
  | .pubAddresses => fun r r' =>
      r'.fkHandleId = r.fkHandleId ∧ r'.chainCode = r.chainCode ∧ r'.tokenCode = r.tokenCode
  | .nftSignatures => fun r r' => r'.fkHandleId = r.fkHandleId ∧ r'.chainCode = r.chainCode ∧
      r'.contractAddress = r.contractAddress ∧ r'.tokenId = r.tokenId

theorem tokenCut {name : Option String} : same (cut 12 name) fioToken = same name fioToken := by
  rcases cutCases 12 name with whole | ⟨t,short,length⟩
  · rw [whole]
  · cases name with
    | none => rfl
    | some given =>
      have other : t ≠ "fio.token" := by
        rintro rfl
        exact absurd length (by decide)
      have other' : given ≠ "fio.token" := by
        rintro rfl
        rw [cutFits (by decide)] at short
        exact other (Option.some.inj short).symm
      rw [short]
      simp [fioToken, other, other']

theorem openingCut {name : Option String} : openingBalance (cut 12 name) = openingBalance name := by
  unfold openingBalance
  rw [tokenCut]

theorem keptFixed {c : Call} {a : Audited} {r r' : Row a.table} (kept : Kept c a r r') : a.fixed r' = a.fixed r := by
  cases a with
  | accounts => simp only [Audited.fixed, kept.1]
  | domains => exact congrArg (fun name => ([],[name])) kept
  | handles => exact congrArg (fun name => ([],[name])) kept
  | fioRequests =>
    change r' = { r with requestStatus := r'.requestStatus } at kept
    rw [kept]
    rfl
  | pubAddresses => simp only [Audited.fixed, kept.1, kept.2.1, kept.2.2]
  | nftSignatures => simp only [Audited.fixed, kept.1, kept.2.1, kept.2.2.1, kept.2.2.2]

/- A row of a table with a DELETE trigger is always restamped; elsewhere the block
number may stay. -/
structure Rewritten (c : Call) (a : Audited) (r r' : Row a.table) : Prop where
  number : key a.table r' = key a.table r
  stamp : c.blockArgument = some (fkBlockNumber a.table r') ∨
    a.deletes = false ∧ fkBlockNumber a.table r' = fkBlockNumber a.table r
  kept : Kept c a r r'

inductive Change (c : Call) (s : DB) : DB → Prop where
  | insert (t : TableName) (row : Row t) (number : key t row = (s t).next)
      (stamped : c.blockArgument = some (fkBlockNumber t row)) (inserted : Inserted c s t row)
      (valid : (s.append t [row]).Valid) : Change c s (s.append t [row])
  | update (a : Audited) (p : Row a.table → Bool) (assign : Row a.table → Row a.table)
      (entries : List (Row a.log))
      (rewritten : ∀ r ∈ (s a.table).rows, p r = true → Rewritten c a r (assign r))
      (logged : Entries a s (fun old => a.updated s (assign old)) "update"
        (changed p assign (s a.table).rows) entries)
      (committed : (s.withRows a.table ((s a.table).rows.map (assigned p assign))).Valid)
      (valid : ((s.withRows a.table ((s a.table).rows.map (assigned p assign))).append a.log entries).Valid) :
      Change c s ((s.withRows a.table ((s a.table).rows.map (assigned p assign))).append a.log entries)
  | delete (a : Audited) (deletes : a.deletes = true) (p : Row a.table → Bool) (entries : List (Row a.log))
      (logged : Entries a s (fun _ => DB.head s) "delete" ((s a.table).rows.filter p) entries)
      (committed : (s.withRows a.table ((s a.table).rows.filter fun r => !p r)).Valid)
      (valid : ((s.withRows a.table ((s a.table).rows.filter fun r => !p r)).append a.log entries).Valid) :
      Change c s ((s.withRows a.table ((s a.table).rows.filter fun r => !p r)).append a.log entries)

abbrev Changes (c : Call) : DB → DB → Prop := Relation.ReflTransGen (Change c)

section
variable {c : Call} {s s' : DB}

theorem Change.valid (h : Change c s s') : s'.Valid := by
  cases h <;> assumption

theorem Changes.valid (h : Changes c s s') (valid : s.Valid) : s'.Valid := by
  induction h with
  | refl => exact valid
  | tail _ last _ => exact last.valid

theorem insertChange {t : TableName} {row : Int → Row t} {k : Int} (ran : insertInto t row s = .ok (k,s'))
    (number : key t (row (s t).next) = (s t).next)
    (stamped : c.blockArgument = some (fkBlockNumber t (row (s t).next)))
    (inserted : Inserted c s t (row (s t).next)) : Change c s s' := by
  obtain ⟨_,rfl,valid⟩ := insertIntoOk.mp ran
  exact .insert t _ number stamped inserted valid

theorem updateChange (a : Audited) {p : Row a.table → Bool} {assign : Row a.table → Row a.table}
    (ran : update a.table p assign s = .ok ((),s'))
    (rewritten : ∀ r ∈ (s a.table).rows, p r = true → Rewritten c a r (assign r)) : Change c s s' := by
  obtain ⟨entries,logged,rfl,committed,valid⟩ := updateWrites ran
  exact .update a p assign entries rewritten logged committed valid

theorem deleteChange (a : Audited) (deletes : a.deletes = true) {p : Row a.table → Bool}
    (ran : delete a.table p s = .ok ((),s')) : Change c s s' := by
  obtain ⟨entries,logged,rfl,committed,valid⟩ := deleteWrites deletes ran
  exact .delete a deletes p entries logged committed valid

theorem guardedOk {b : Option Int} {k : Int} {rest : Proc (Option Int)} {v : Option Int}
    (ran : (if below b (some 0) then return some k else rest) s = .ok (v,s')) :
    s' = s ∨ rest s = .ok (v,s') := by
  by_cases negative : below b (some 0) = true
  · rw [if_pos negative] at ran
    exact Or.inl (pureOk.mp ran).2
  · rw [if_neg negative] at ran
    exact Or.inr ran

end
end FioRelic
