import Mathlib
import FioRelic.Relational.Matching
import FioRelic.Relational.Rank
import FioRelic.Progress

/-! Generated ids replaced by their ranks. Discarded rows leave gaps in the ids of a table;
the renumbering closes them and keeps their order. -/
namespace FioRelic
open Relational

def compared : List TableName :=
  [.blocks,.accounts,.domains,.handles,.transactions,.traces,.accountActivities,.domainActivities,
    .handleActivities,.tokenTransfers,.tokenStakings]

/- The requests are followed as well: an activity of a handle may be looked up in them. -/
def followed : List TableName := .fioRequests :: compared

def trailing : List TableName := [.accountsAudit,.domainsAudit,.handlesAudit,.fioRequestsAudit]

def TableName.numbered : TableName → Bool
  | .accounts | .transactions | .traces | .accountActivities | .domains | .domainActivities | .handles
  | .handleActivities | .tokenTransfers | .tokenStakings | .fioRequests => true
  | _ => false

def renumber (ids : TableName → Int → Int) : (t : TableName) → Row t → Row t
  | .accounts => fun r => { r with pkAccountId := ids .accounts r.pkAccountId }
  | .transactions => fun r =>
    { r with
      pkTransactionId := ids .transactions r.pkTransactionId
      fkActionAccountId := r.fkActionAccountId.map (ids .accounts)
      fkAccountId := r.fkAccountId.map (ids .accounts) }
  | .traces => fun r =>
    { r with
      pkTraceId := ids .traces r.pkTraceId
      fkTransactionId := r.fkTransactionId.map (ids .transactions)
      fkActionAccountId := r.fkActionAccountId.map (ids .accounts)
      fkReceiverAccountId := r.fkReceiverAccountId.map (ids .accounts) }
  | .accountActivities => fun r =>
    { r with
      pkAccountActivityId := ids .accountActivities r.pkAccountActivityId
      fkAccountId := r.fkAccountId.map (ids .accounts)
      fkTransactionId := r.fkTransactionId.map (ids .transactions) }
  | .domains => fun r =>
    { r with
      pkDomainId := ids .domains r.pkDomainId
      fkOwnerAccountId := r.fkOwnerAccountId.map (ids .accounts) }
  | .domainActivities => fun r =>
    { r with
      pkDomainActivityId := ids .domainActivities r.pkDomainActivityId
      fkDomainId := r.fkDomainId.map (ids .domains)
      fkTransactionId := r.fkTransactionId.map (ids .transactions) }
  | .handles => fun r =>
    { r with
      pkHandleId := ids .handles r.pkHandleId
      fkDomainId := r.fkDomainId.map (ids .domains)
      fkOwnerAccountId := r.fkOwnerAccountId.map (ids .accounts) }
  | .handleActivities => fun r =>
    { r with
      pkHandleActivityId := ids .handleActivities r.pkHandleActivityId
      fkHandleId := r.fkHandleId.map (ids .handles)
      fkTransactionId := r.fkTransactionId.map (ids .transactions) }
  | .tokenTransfers => fun r =>
    { r with
      pkTokenTransfersId := ids .tokenTransfers r.pkTokenTransfersId
      fkPayerAccountId := r.fkPayerAccountId.map (ids .accounts)
      fkPayeeAccountId := r.fkPayeeAccountId.map (ids .accounts)
      fkTransactionId := r.fkTransactionId.map (ids .transactions) }
  | .tokenStakings => fun r =>
    { r with
      pkTokenStakingId := ids .tokenStakings r.pkTokenStakingId
      fkStakerAccountId := r.fkStakerAccountId.map (ids .accounts)
      fkTransactionId := r.fkTransactionId.map (ids .transactions) }
  | .fioRequests => fun r =>
    { r with
      pkFioRequestsId := ids .fioRequests r.pkFioRequestsId
      fkPayerHandleId := r.fkPayerHandleId.map (ids .handles)
      fkPayeeHandleId := r.fkPayeeHandleId.map (ids .handles)
      fkTransactionId := r.fkTransactionId.map (ids .transactions) }
  | _ => fun r => r

def shown : (t : TableName) → Row t → Row t
  | .fioRequests => Audited.copied .fioRequests
  | _ => fun r => r

def rank (s : DB) (t : TableName) (k : Int) : Int := if t = .blocks then k else rankIn (s.keys t) k

def ahead (s : DB) (t : TableName) (k : Int) : Int :=
  rank s t k + if t = .blocks then 0 else max 0 (k - (s t).next + 1)

structure Renaming where
  ids : TableName → Int → Int
  known : TableName → Int → Prop
  injective : ∀ t ∈ followed, ∀ j k, known t j → known t k → ids t j = ids t k → j = k
  blocks : ∀ k, known .blocks k ∧ ids .blocks k = k
  fits : ∀ t ∈ followed, t ≠ .blocks → ∀ k, known t k → 1 ≤ ids t k ∧ ids t k ≤ k

section Rows
variable {t : TableName} {ids ids' : TableName → Int → Int}

theorem keyShown (r : Row t) : key t (shown t r) = key t r := by cases t <;> rfl

theorem keyRenumber (listed : t ∈ followed) (blocks : ∀ k, ids .blocks k = k) (r : Row t) :
    key t (renumber ids t r) = ids t (key t r) := by
  cases t <;> first
    | rfl
    | exact (blocks _).symm
    | exact absurd listed (by decide)

theorem uniqueShown {column : Row t → Option String} (mem : column ∈ unique t) (r : Row t) :
    column (shown t r) = column r := by
  cases t <;> first
    | rfl
    | exact absurd mem List.not_mem_nil

theorem uniqueRenumber {column : Row t → Option String} (mem : column ∈ unique t) (r : Row t) :
    column (renumber ids t r) = column r := by
  cases t <;> simp only [unique, List.mem_singleton, List.not_mem_nil] at mem
  case blocks => rfl
  case accounts =>
    subst mem
    rfl

theorem referenceShown {ref : Reference TableName (Row t)} (mem : ref ∈ references t) (r : Row t) :
    ref.column (shown t r) = ref.column r := by
  cases t <;> first
    | rfl
    | exact copiedReference (a := .fioRequests) mem r

theorem referenceListed (listed : t ∈ followed) {ref : Reference TableName (Row t)} (mem : ref ∈ references t) :
    ref.parent ∈ followed := by
  have all : ∀ t ∈ followed, ∀ p ∈ (references t).map Reference.parent, p ∈ followed := by decide
  exact all t listed ref.parent (List.mem_map_of_mem mem)

theorem referenceRenumber (listed : t ∈ followed) (blocks : ∀ k, ids .blocks k = k)
    {ref : Reference TableName (Row t)} (mem : ref ∈ references t) (r : Row t) :
    ref.column (renumber ids t r) = (ref.column r).map (ids ref.parent) := by
  have same : ids .blocks = id := funext blocks
  cases t <;> simp only [references, List.mem_cons, List.not_mem_nil, or_false] at mem <;>
    first
      | exact mem.elim
      | exact absurd listed (by decide)
      | skip
  all_goals
    rcases mem with rfl | rfl | rfl | rfl <;> first
      | rfl
      | simp [renumber, same]

theorem renumberCongr {r : Row t} (own : t ≠ .blocks → ids t (key t r) = ids' t (key t r))
    (refers : ∀ ref ∈ references t, (ref.column r).map (ids ref.parent) = (ref.column r).map (ids' ref.parent)) :
    renumber ids t r = renumber ids' t r := by
  cases t <;> simp only [references, List.forall_mem_cons, List.not_mem_nil, false_imp_iff, implies_true] at refers <;>
    simp_all [renumber, key]

theorem textsRenumber {c : Varchar (Row t)} (mem : c ∈ varchars t) (r : Row t) :
    c.column (renumber ids t r) = c.column r := by
  cases t <;> simp only [varchars, List.mem_cons, List.not_mem_nil, or_false] at mem <;> first
    | rfl
    | skip
  all_goals rcases mem with rfl | rfl | rfl | rfl <;> rfl

theorem fitsRenumber (f : Renaming) (listed : t ∈ followed) {r : Row t} (known : f.known t (key t r))
    (fits : relic.fits t r = true) : relic.fits t (renumber f.ids t r) = true := by
  obtain ⟨number,texts⟩ := fitsIff.mp fits
  refine fitsIff.mpr ⟨?_,fun c mem => by rw [textsRenumber mem]; exact texts c mem⟩
  rw [show relic.key t (renumber f.ids t r) = f.ids t (key t r) from keyRenumber listed (fun k => (f.blocks k).2) r]
  by_cases own : t = .blocks
  · subst own
    rwa [(f.blocks _).2]
  · have bound := f.fits t listed own _ known
    change fitsBigint (key t r) = true at number
    simp only [fitsBigint, decide_eq_true_eq] at number ⊢
    omega

end Rows

def Renaming.matching (f : Renaming) : Matching relic where
  covers := followed
  logs := trailing
  ids := f.ids
  known := f.known
  twin := fun t r r' => f.known t (key t r) ∧ shown t r' = shown t (renumber f.ids t r) ∧
    (relic.fits t r = true → relic.fits t r' = true)
  apart := by decide
  injective := f.injective
  fits := fun _ _ _ _ twin => twin.2.2
  keyed := by
    intro t listed r r' ⟨known,same,_⟩
    refine ⟨known,?_⟩
    change key t r' = _
    rw [← keyShown r', same, keyShown, keyRenumber listed fun k => (f.blocks k).2]
  unique := by
    intro t _ column mem r r' ⟨_,same,_⟩
    rw [← uniqueShown mem r', same, uniqueShown mem, uniqueRenumber mem]
  closed := fun _ listed _ mem => referenceListed listed mem
  refers := by
    intro t listed ref mem r r' ⟨_,same,_⟩
    rw [← referenceShown mem r', same, referenceShown mem, referenceRenumber listed (fun k => (f.blocks k).2) mem]

def Positive (s : DB) : Prop := ∀ t ∈ followed, t ≠ .blocks → 1 ≤ (s t).next ∧ ∀ k ∈ s.keys t, 1 ≤ k

section Ranks
variable {s s' m : DB} {t : TableName} {j k : Int}

theorem serialTables (other : t ≠ .blocks) : relic.serial t = true := decide_eq_true other

theorem rankOther (other : t ≠ .blocks) : rank s t k = rankIn (s.keys t) k := if_neg other

theorem aheadOther (other : t ≠ .blocks) : ahead s t k = rankIn (s.keys t) k + max 0 (k - (s t).next + 1) := by
  unfold ahead
  rw [rankOther other, if_neg other]

theorem aheadBlocks : ahead s .blocks k = k := Int.add_zero k

theorem aheadStored (serial : s.Serial) (mem : k ∈ s.keys t) : ahead s t k = rank s t k := by
  by_cases own : t = .blocks
  · subst own
    exact aheadBlocks
  · have := (serial t (serialTables own)).2 k mem
    rw [aheadOther own, rankOther own]
    omega

theorem aheadNext (serial : s.Serial) (other : t ≠ .blocks) (i : Nat) :
    ahead s t ((s t).next + i) = (s t).rows.length + 1 + i := by
  have all : rankIn (s.keys t) ((s t).next + i) = (s t).rows.length := by
    rw [rankInAll fun k mem => ?_, Database.keys, List.length_map]
    have := (serial t (serialTables other)).2 k mem
    omega
  rw [aheadOther other, all]
  omega

theorem aheadLess (other : t ≠ .blocks) (less : j < k) (known : k ∈ s.keys t ∨ (s t).next ≤ k) :
    ahead s t j < ahead s t k := by
  rw [aheadOther other, aheadOther other]
  rcases known with stored | fresh
  · have := rankInStrict less stored
    omega
  · have := @rankInMono (s.keys t) j k (Int.le_of_lt less)
    omega

theorem aheadBound (serial : s.Serial) (positive : Positive s) (listed : t ∈ followed) (other : t ≠ .blocks)
    (known : k ∈ s.keys t ∨ (s t).next ≤ k) : 1 ≤ ahead s t k ∧ ahead s t k ≤ k := by
  obtain ⟨sorted,bounded⟩ := serial t (serialTables other)
  obtain ⟨first,low⟩ := positive t listed other
  have nodup : (s.keys t).Nodup := sorted.imp fun less => Int.ne_of_lt less
  rcases known with stored | fresh
  · rw [aheadStored serial stored, rankOther other]
    exact ⟨rankInPos stored,rankInBound nodup low (by have := low k stored; omega)⟩
  · obtain ⟨i,rfl⟩ : ∃ i : Nat, k = (s t).next + i := ⟨(k - (s t).next).toNat,by omega⟩
    rw [aheadNext serial other]
    have counted : rankIn (s.keys t) ((s t).next - 1) ≤ (s t).next - 1 := rankInBound nodup low (by omega)
    rw [rankInAll fun k mem => by have := bounded k mem; omega, Database.keys, List.length_map] at counted
    omega

def Renaming.from (s : DB) (serial : s.Serial) (positive : Positive s) : Renaming where
  ids := ahead s
  known := fun t k => t = .blocks ∨ k ∈ s.keys t ∨ (s t).next ≤ k
  injective := by
    intro t _ j k known known' same
    by_cases own : t = .blocks
    · subst own
      rwa [aheadBlocks, aheadBlocks] at same
    · rcases Int.lt_trichotomy j k with less | equal | more
      · have := aheadLess own less (known'.resolve_left own)
        omega
      · exact equal
      · have := aheadLess own more (known.resolve_left own)
        omega
  blocks := fun k => ⟨Or.inl rfl,aheadBlocks⟩
  fits := fun _ listed other _ known => aheadBound serial positive listed other (known.resolve_left other)

theorem rankAscends : StrictMonoOn (rank s t) {k | k ∈ s.keys t} := by
  intro j _ k mem less
  by_cases own : t = .blocks
  · subst own
    exact less
  · rw [rankOther own, rankOther own]
    exact rankInStrict less mem

end Ranks

def Dense (s : DB) : Prop := ∀ t ∈ followed, t ≠ .blocks →
  s.keys t = ((List.range (s t).rows.length).map fun (i : Nat) => (i : Int) + 1) ∧ (s t).next = (s t).rows.length + 1

structure Mirrored (s t : DB) : Prop where
  rows : ∀ u ∈ followed, List.Forall₂ (fun r r' => shown u r' = shown u (renumber (rank s) u r)) (s u).rows (t u).rows
  dense : Dense t

section Mirrors
variable {s s' t t' : DB}

theorem renumberStored (valid : s.Valid) {ids ids' : TableName → Int → Int} {u : TableName} (listed : u ∈ followed)
    (agree : ∀ w ∈ followed, ∀ k ∈ s.keys w, ids w k = ids' w k) {r : Row u} (mem : r ∈ (s u).rows) :
    renumber ids u r = renumber ids' u r := by
  refine renumberCongr (fun _ => agree u listed _ (List.mem_map_of_mem mem)) fun ref inList => ?_
  have found := valid.resolves inList mem
  cases refers : ref.column r with
  | none => rfl
  | some k =>
    rw [refers] at found
    exact congrArg some (agree ref.parent (referenceListed listed inList) k found)

theorem mirroredMatches (valid : s.Valid) (serial : s.Serial) (positive : Positive s) (valid' : t.Valid)
    (serial' : t.Serial) (behind : ∀ u ∈ trailing, 0 ≤ (t u).next ∧ (t u).next ≤ (s u).next)
    (mirrored : Mirrored s t) : Matches (Renaming.from s serial positive).matching s t where
  rows := by
    intro u listed
    have twins := (List.forall₂_and_left _ _).mpr ⟨fun r mem => mem,
      ((List.forall₂_and_left _ _).mpr ⟨fun r' mem => mem,(mirrored.rows u listed).flip⟩).flip⟩
    refine twins.imp fun r r' ⟨mem,mem',same⟩ => ?_
    refine ⟨Or.inr (Or.inl (List.mem_map_of_mem mem)),same.trans (congrArg _ ?_),fun _ => valid'.fits mem'⟩
    exact (renumberStored valid listed (fun w _ k stored => aheadStored serial stored) mem).symm
  fresh := by
    intro u listed serials i
    have other : u ≠ .blocks := of_decide_eq_true serials
    refine ⟨Or.inr (Or.inr (by omega)),?_⟩
    have length := (mirrored.rows u listed).length_eq
    change ahead s u _ = _
    rw [aheadNext serial other, (mirrored.dense u listed other).2, length]
  behind := behind
  valid := valid'
  serial := serial'

theorem matchedRank {f : Renaming} (serial : s'.Serial) (matched : Matches f.matching s' t')
    (dense : Dense t') : ∀ w ∈ followed, ∀ k ∈ s'.keys w, f.ids w k = rank s' w k := by
  intro w listed k mem
  by_cases own : w = .blocks
  · subst own
    exact (f.blocks k).2
  · have twins := matched.rows w listed
    have keys : t'.keys w = (s'.keys w).map (f.ids w) := twinsKeys listed twins
    rw [(dense w listed own).1, ← twins.length_eq] at keys
    have places := rankInPlaces (serial w (serialTables own)).1
    rw [Database.keys, List.length_map, ← Database.keys, keys] at places
    rw [rankOther own]
    exact (List.map_inj_left.mp places k mem).symm

theorem matchesMirrored {f : Renaming} (valid : s'.Valid) (serial : s'.Serial) (matched : Matches f.matching s' t')
    (dense : Dense t') : Mirrored s' t' where
  rows := by
    intro u listed
    have twins := (List.forall₂_and_left _ _).mpr ⟨fun r mem => mem,matched.rows u listed⟩
    refine twins.imp fun r r' ⟨mem,_,same,_⟩ => same.trans (congrArg _ ?_)
    exact renumberStored valid listed (matchedRank serial matched dense) mem
  dense := dense

end Mirrors
end FioRelic
