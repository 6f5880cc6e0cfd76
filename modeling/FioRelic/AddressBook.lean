import FioRelic.Identifiers
import FioRelic.Names
import FioRelic.ProcedureTwins
import FioRelic.Relational.Graph

/-! Public addresses and NFT signatures as two finite maps. What the calls do to the maps is
stated on the maps alone, and the stored rows are compared with the maps after every run. -/
namespace FioRelic
open Relational Versioning

structure AddressKey where
  handle : String
  chain : String
  token : String
  deriving DecidableEq, Repr

structure AddressEntry where
  pubAddress : Option String
  block : Option Int
  deriving DecidableEq, Repr

structure SignatureKey where
  handle : String
  chain : String
  contract : String
  token : String
  deriving DecidableEq, Repr

structure SignatureEntry where
  url : Option String
  hash : Option String
  metadata : Option String
  block : Option Int
  deriving DecidableEq, Repr

structure Book where
  addresses : AddressKey → Option AddressEntry
  signatures : SignatureKey → Option SignatureEntry

def Book.blank : Book := ⟨fun _ => none,fun _ => none⟩

structure Book.Keeps (handle : String) (m m' : Book) : Prop where
  addresses : ∀ k, k.handle ≠ handle → m'.addresses k = m.addresses k
  signatures : ∀ k, k.handle ≠ handle → m'.signatures k = m.signatures k

def handleName (s : DB) (id : Int) : Option String :=
  ((s .handles).rows.find? fun h => decide (h.pkHandleId = id)).bind Handle.handle

def addressKey (s : DB) (r : PubAddress) : Option AddressKey := do
  return ⟨← r.fkHandleId.bind (handleName s),← r.chainCode,← r.tokenCode⟩

def addressEntry (r : PubAddress) : AddressEntry := ⟨r.pubAddress,r.fkBlockNumber⟩

def signatureKey (s : DB) (r : NftSignature) : Option SignatureKey := do
  return ⟨← r.fkHandleId.bind (handleName s),← r.chainCode,← r.contractAddress,← r.tokenId⟩

def signatureEntry (r : NftSignature) : SignatureEntry := ⟨r.nftUrl,r.nftHash,r.nftMetaData,r.fkBlockNumber⟩

inductive BookCall where
  | insUpdPubAddresses (fkblocknumber : Option Int) (fiohandle chaincode tokencode : String) (pubaddress : Option String)
  | delPubAddress (fiohandle chaincode tokencode : String) (pubaddress : Option String)
  | delPubAddresses (fiohandle : String)
  | clearPubAddresses (fiohandle : String)
  | insUpdNftSignatures (fkblocknumber : Option Int) (fiohandle chaincode contractaddress tokenid : String)
      (nfturl nfthash nftmetadata : Option String)
  | delNftSignature (fiohandle chaincode contractaddress tokenid : String)
  | delNftSignatures (fiohandle : String)
  deriving DecidableEq, Repr

namespace BookCall

def call : BookCall → Call
  | insUpdPubAddresses b h c t p => .insUpdPubAddresses b (some h) (some c) (some t) p
  | delPubAddress h c t p => .delPubAddress (some h) (some c) (some t) p
  | delPubAddresses h => .delPubAddresses (some h)
  | clearPubAddresses h => .clearPubAddresses (some h)
  | insUpdNftSignatures b h c a t u x d => .insUpdNftSignatures b (some h) (some c) (some a) (some t) u x d
  | delNftSignature h c a t => .delNftSignature (some h) (some c) (some a) (some t)
  | delNftSignatures h => .delNftSignatures (some h)

def handle : BookCall → String
  | insUpdPubAddresses _ h .. | delPubAddress h .. | delPubAddresses h | clearPubAddresses h
  | insUpdNftSignatures _ h .. | delNftSignature h .. | delNftSignatures h => h

def dropsAddress : BookCall → AddressKey → AddressEntry → Bool
  | delPubAddress h c t p, k, e => decide (k = ⟨h,c,t⟩) && same e.pubAddress p
  | delPubAddresses h, k, _ => decide (k.handle = h)
  | clearPubAddresses h, k, _ => decide (k.handle = h ∧ ¬(k.chain = "FIO" ∧ k.token = "FIO"))
  | _, _, _ => false

def dropsSignature : BookCall → SignatureKey → SignatureEntry → Bool
  | delNftSignature h c a t, k, _ => decide (k = ⟨h,c,a,t⟩)
  | delNftSignatures h, k, _ => decide (k.handle = h)
  | _, _, _ => false

/- The call on the maps. What is stored is cut to the width of its column. -/
def act (c : BookCall) (m : Book) : Book := match c with
  | insUpdPubAddresses b h k t p => { m with addresses := put m.addresses ⟨h,k,t⟩ ⟨cut 128 p,b⟩ }
  | insUpdNftSignatures b h k a t u x d =>
    { m with signatures := put m.signatures ⟨h,k,a,t⟩ ⟨cut 128 u,cut 64 x,cut 128 d,b⟩ }
  | delPubAddress .. | delPubAddresses _ | clearPubAddresses _ =>
    { m with addresses := drop m.addresses c.dropsAddress }
  | delNftSignature .. | delNftSignatures _ => { m with signatures := drop m.signatures c.dropsSignature }

def droppedAddresses (s : DB) (c : BookCall) : List PubAddress :=
  (s .pubAddresses).rows.filter fun r => (addressKey s r).any fun k => c.dropsAddress k (addressEntry r)

def droppedSignatures (s : DB) (c : BookCall) : List NftSignature :=
  (s .nftSignatures).rows.filter fun r => (signatureKey s r).any fun k => c.dropsSignature k (signatureEntry r)

def draws (server : Server) (s : DB) (c : BookCall) : List (TableName × Nat) := match c with
  | insUpdPubAddresses .. | insUpdNftSignatures .. => c.call.draws server s
  | delPubAddress .. | delPubAddresses _ | clearPubAddresses _ => [(.pubAddressesAudit,(c.droppedAddresses s).length)]
  | delNftSignature .. | delNftSignatures _ => [(.nftSignaturesAudit,(c.droppedSignatures s).length)]

/- A call is carried out when its ids can be drawn and, for an upsert, its block is null or
stored, and not negative, and its texts fit. -/
def Fits (server : Server) (s : DB) (c : BookCall) : Prop := match c with
  | insUpdPubAddresses .. | insUpdNftSignatures .. => c.call.Admissible server s
  | delPubAddress .. | delPubAddresses _ | clearPubAddresses _ | delNftSignature .. | delNftSignatures _ => True

def Accepted (server : Server) (s : DB) (c : BookCall) : Prop :=
  (∀ x ∈ c.draws server s, s.Draws x.1 x.2) ∧ c.Fits server s

def Plain (server : Server) (s : DB) : BookCall → Prop
  | insUpdPubAddresses _ h c t _ => (cut 12 (some c) = some c ∧ cut 12 (some t) = some t) ∧
      fitsInt (rowKey s .pubAddresses (addressAt server s (some h) (some c) (some t))) = true
  | insUpdNftSignatures _ h c a t _ _ _ =>
    (cut 12 (some c) = some c ∧ cut 128 (some a) = some a ∧ cut 128 (some t) = some t) ∧
      fitsInt (rowKey s .nftSignatures (signatureAt server s (some h) (some c) (some a) (some t))) = true
  | _ => True

end BookCall

structure Book.Stored (m : Book) (s : DB) : Prop where
  addresses : Graph (addressKey s) addressEntry (s .pubAddresses).rows m.addresses
  signatures : Graph (signatureKey s) signatureEntry (s .nftSignatures).rows m.signatures

structure Holder (s : DB) (n : String) (h : Handle) : Prop where
  stored : h ∈ (s .handles).rows
  named : h.handle = some n
  only : ∀ h' ∈ (s .handles).rows, h'.handle = some n → h' = h

def holders (s : DB) (n : String) : List Handle := (s .handles).rows.filter fun h => decide (h.handle = some n)

def OneHandle (s : DB) (n : String) : Prop := (holders s n).length = 1

instance {s : DB} {n : String} : Decidable (OneHandle s n) := inferInstanceAs (Decidable (_ = 1))

theorem sameOne {α : Type} [DecidableEq α] {x : Option α} {y : α} : same x (some y) = true ↔ x = some y := by
  cases x <;> simp

section Names
variable {server : Server} {s s' : DB} {h : Handle} {n : String}

theorem addressKeySome {r : PubAddress} {k : AddressKey} : addressKey s r = some k ↔
    r.fkHandleId.bind (handleName s) = some k.handle ∧ r.chainCode = some k.chain ∧ r.tokenCode = some k.token := by
  obtain ⟨a,c,t⟩ := k
  unfold addressKey
  cases r.fkHandleId.bind (handleName s) <;> cases r.chainCode <;> cases r.tokenCode <;> simp

theorem signatureKeySome {r : NftSignature} {k : SignatureKey} : signatureKey s r = some k ↔
    r.fkHandleId.bind (handleName s) = some k.handle ∧ r.chainCode = some k.chain ∧
      r.contractAddress = some k.contract ∧ r.tokenId = some k.token := by
  obtain ⟨a,c,d,t⟩ := k
  unfold signatureKey
  cases r.fkHandleId.bind (handleName s) <;> cases r.chainCode <;> cases r.contractAddress <;> cases r.tokenId <;> simp

theorem oneHandle (one : OneHandle s n) : ∃ h, Holder s n h := by
  obtain ⟨h,only⟩ := List.length_eq_one_iff.mp one
  have listed (h' : Handle) : h' ∈ (s .handles).rows ∧ h'.handle = some n ↔ h' = h := by
    rw [show h' = h ↔ h' ∈ [h] from List.mem_singleton.symm, ← only, holders, List.mem_filter, decide_eq_true_iff]
  obtain ⟨stored,named⟩ := (listed h).mpr rfl
  exact ⟨h,stored,named,fun h' mem given => (listed h').mp ⟨mem,given⟩⟩

theorem handleIdNamed (holder : Holder s n h) :
    (handleNamed server s (some n)).map Handle.pkHandleId = some h.pkHandleId := by
  unfold handleNamed
  cases hit : chosen (server.takes .handles) .handles (fun x : Handle => same x.handle (some n)) s with
  | none =>
    have absent := chosenNone.mp hit h holder.stored
    simp [holder.named] at absent
  | some x =>
    obtain ⟨stored,own⟩ := chosenSome hit
    rw [holder.only x stored (sameOne.mp own)]
    rfl

theorem ownerNamed (valid : s.Valid) (holder : Holder s n h) {id : Option Int} :
    id.bind (handleName s) = some n ↔ id = some h.pkHandleId := by
  constructor
  · intro own
    obtain ⟨i,rfl,found⟩ := Option.bind_eq_some_iff.mp own
    obtain ⟨h',hit,named'⟩ := Option.bind_eq_some_iff.mp found
    have number := List.find?_some hit
    rw [← holder.only h' (List.mem_of_find?_eq_some hit) named']
    exact congrArg some (of_decide_eq_true number).symm
  · rintro rfl
    change handleName s h.pkHandleId = some n
    unfold handleName
    cases hit : (s .handles).rows.find? fun h' => decide (h'.pkHandleId = h.pkHandleId) with
    | none => exact absurd (List.find?_eq_none.mp hit h holder.stored) (by simp)
    | some h' =>
      have number := List.find?_some hit
      have same : h' = h :=
        valid.sameRow (t := .handles) (List.mem_of_find?_eq_some hit) holder.stored (of_decide_eq_true number)
      rw [same]
      exact holder.named

theorem storedFrame (handles : (s' .handles).rows = (s .handles).rows)
    {addresses : AddressKey → Option AddressEntry} {signatures : SignatureKey → Option SignatureEntry}
    (written : Graph (addressKey s) addressEntry (s' .pubAddresses).rows addresses)
    (written' : Graph (signatureKey s) signatureEntry (s' .nftSignatures).rows signatures) :
    Book.Stored ⟨addresses,signatures⟩ s' := by
  have names : handleName s' = handleName s := by
    funext id
    rw [handleName, handles]
    rfl
  have keys : addressKey s' = addressKey s := by
    funext r
    rw [addressKey, names]
    rfl
  have keys' : signatureKey s' = signatureKey s := by
    funext r
    rw [signatureKey, names]
    rfl
  exact ⟨keys ▸ written,keys' ▸ written'⟩

end Names

structure Writes {κ ν : Type} (a : Audited) (keyOf : Row a.table → Option κ) (value : Row a.table → ν) (k : κ)
    (v : ν) (row : Int → Row a.table) (assign : Row a.table → Row a.table) : Prop where
  drawn : ∀ i, key a.table (row i) = i
  kept : ∀ r, key a.table (assign r) = key a.table r
  inserted : ∀ i, keyOf (row i) = some k ∧ value (row i) = v
  rewritten : ∀ r, keyOf r = some k → keyOf (assign r) = some k ∧ value (assign r) = v

section Upserts
variable {a : Audited} {s s' : DB} {found : Option (Row a.table)} {row : Int → Row a.table}
  {assign : Row a.table → Row a.table}

theorem upsertOk {v : Option Int} (valid : s.Valid) (number : ∀ i, key a.table (row i) = i)
    (mem : ∀ r, found = some r → r ∈ (s a.table).rows) (ran : upsert a found row assign s = .ok (v,s')) :
    s.Draws (upsertDraw a found assign).1 (upsertDraw a found assign).2 ∧
      (∀ c ∈ varchars a.table, fitsWidth c.width (c.column (found.elim (row (s a.table).next) assign)) = true) ∧
      ∀ ref ∈ references a.table, s'.Resolves ref.parent (ref.column (found.elim (row (s a.table).next) assign)) := by
  cases found with
  | none =>
    obtain ⟨k,m,inserted,last⟩ := bindOk.mp ran
    obtain ⟨rfl,rfl,valid'⟩ := insertIntoOk.mp inserted
    obtain ⟨_,rfl,_⟩ := toIntOk.mp last
    have mem' : row (s a.table).next ∈ (s.append a.table [row (s a.table).next] a.table).rows := by
      rw [Database.appendSame]
      exact List.mem_append_right _ (List.mem_singleton.mpr rfl)
    refine ⟨Database.appendedDraws valid' fun i r at_ => ?_,fun c listed => valid'.fitsColumn listed mem',
      fun ref listed => valid'.resolves listed mem'⟩
    cases i with
    | zero =>
      cases at_
      simpa using number (s a.table).next
    | succ i => simp at at_
  | some r =>
    obtain ⟨_,m,written,last⟩ := bindOk.mp ran
    obtain ⟨_,rfl,_⟩ := toIntOk.mp last
    have draws := updateDraws written
    rw [changedCount valid (mem r rfl)] at draws
    obtain ⟨entries,_,rfl,_,valid'⟩ := updateWrites written
    have mem' : assign r ∈ (((s.withRows a.table ((s a.table).rows.map
        (assigned (fun x => decide (key a.table x = key a.table r)) assign))).append a.log entries) a.table).rows := by
      rw [Database.appendOther _ a.logOther.symm, Database.withRowsSame]
      exact List.mem_map.mpr ⟨r,mem r rfl,if_pos (decide_eq_true rfl)⟩
    exact ⟨draws,fun c listed => valid'.fitsColumn listed mem',fun ref listed => valid'.resolves listed mem'⟩

variable {κ ν : Type} [DecidableEq κ] {keyOf : Row a.table → Option κ} {value : Row a.table → ν}
  {m : κ → Option ν} {k : κ} {v : ν}

theorem upsertStores {takes : List Int → Nat} {p : Row a.table → Bool} (valid : s.Valid)
    (draws : s.Draws (upsertDraw a found assign).1 (upsertDraw a found assign).2) (plain : unique a.table = [])
    (graph : Graph keyOf value (s a.table).rows m)
    (under : ∀ r, p r = true ↔ keyOf r = some k) (hit : chosen takes a.table p s = found)
    (writes : Writes a keyOf value k v row assign) (fits : fitsInt (rowKey s a.table found) = true)
    (texts : ∀ c ∈ varchars a.table, fitsWidth c.width (c.column (row (s a.table).next)) = true)
    (texts' : ∀ r ∈ (s a.table).rows, ∀ c ∈ varchars a.table, fitsWidth c.width (c.column (assign r)) = true)
    (refers : ∀ ref ∈ references a.table, s.Resolves ref.parent (ref.column (row (s a.table).next)))
    (refers' : ∀ r ∈ (s a.table).rows, keyOf r = some k → ∀ ref ∈ references a.table,
      s.Resolves ref.parent (ref.column (assign r))) :
    ∃ s', upsert a found row assign s = .ok (some (rowKey s a.table found),s') ∧
      Graph keyOf value (s' a.table).rows (put m k v) ∧ ∀ t, t ≠ a.table → t ≠ a.log → s' t = s t := by
  cases found with
  | none =>
    have fresh : ∀ r ∈ (s a.table).rows, keyOf r ≠ some k := by
      intro r mem own
      have missed := chosenNone.mp hit r mem
      rw [(under r).mpr own] at missed
      cases missed
    have inserted := insertRuns (t := a.table) valid draws writes.drawn texts (fun column listed => by simp [plain] at listed)
      refers
    refine ⟨_,(bindRuns inserted).trans (fitsRuns fits),?_,fun t other _ => ?_⟩
    · obtain ⟨own,holds⟩ := writes.inserted (s a.table).next
      rw [Database.appendSame, ← holds]
      exact graph.insert own fresh
    · exact Database.appendOther _ other _
  | some r =>
    obtain ⟨mem,taken⟩ := chosenSome hit
    have own := (under r).mp taken
    have only : ∀ x ∈ (s a.table).rows, key a.table x = key a.table r → x = r :=
      fun x stored => valid.sameRow stored mem
    have draws : s.Draws a.log (entryCount r (assign r)) := draws
    rw [← changedCount valid mem] at draws
    obtain ⟨s',ran,settled⟩ := updateSettles (p := fun x => decide (key a.table x = key a.table r)) valid draws
      writes.kept (fun column listed => by simp [plain] at listed) (fun c listed x stored _ => texts' x stored c listed)
      fun ref listed x stored same => only x stored (of_decide_eq_true same) ▸ refers' r mem own ref listed
    refine ⟨s',(bindRuns ran).trans (fitsRuns fits),?_,settled.others⟩
    obtain ⟨own',holds⟩ := writes.rewritten r own
    have here : assigned (fun x => decide (key a.table x = key a.table r)) assign r = assign r :=
      if_pos (decide_eq_true rfl)
    rw [settled.rows, ← holds, ← here]
    refine graph.assign mem own (fun x stored => ?_) fun x stored other => ?_
    · by_cases same : x = r
      · rw [same, here, own', own]
      · exact congrArg keyOf (if_neg (by simpa using fun number => same (only x stored number)))
    · exact if_neg (by simpa using fun number => other (only x stored number ▸ own))

end Upserts

section Keys
variable {s : DB} {h : Handle} {n : String}

theorem addressUnder (valid : s.Valid) (holder : Holder s n h) {c t : String} (r : PubAddress) :
    (same r.fkHandleId (some h.pkHandleId) && same r.chainCode (some c) && same r.tokenCode (some t)) = true ↔
      addressKey s r = some ⟨n,c,t⟩ := by
  rw [addressKeySome, Bool.and_eq_true, Bool.and_eq_true, sameOne, sameOne, sameOne, and_assoc, ownerNamed valid holder]

theorem signatureUnder (valid : s.Valid) (holder : Holder s n h) {c a t : String} (r : NftSignature) :
    (same r.fkHandleId (some h.pkHandleId) && same r.chainCode (some c) && same r.contractAddress (some a) &&
      same r.tokenId (some t)) = true ↔ signatureKey s r = some ⟨n,c,a,t⟩ := by
  rw [signatureKeySome, Bool.and_eq_true, Bool.and_eq_true, Bool.and_eq_true, sameOne, sameOne, sameOne, sameOne,
    and_assoc, and_assoc, ownerNamed valid holder]

theorem ownerUnder (valid : s.Valid) (holder : Holder s n h) {id : Option Int} {owner : String}
    (own : id.bind (handleName s) = some owner) : same id (some h.pkHandleId) = decide (owner = n) := by
  rw [Bool.eq_iff_iff, sameOne, decide_eq_true_iff, ← ownerNamed valid holder, own, Option.some_inj]

end Keys

structure Deletes (s : DB) (log : TableName) (gone : Nat) (m' : Book) (out : Except Error (Option Int × DB)) : Prop where
  acts : s.Draws log gone → ∃ v s', out = .ok (v,s') ∧ m'.Stored s'
  draws : ∀ v s', out = .ok (v,s') → s.Draws log gone

section Acts
variable {server : Server} {s : DB} {m : Book} {h : Handle} {n : String}

theorem addressesDropped (valid : s.Valid) (stored : m.Stored s) {p : PubAddress → Bool} {c : BookCall}
    (alike : ∀ r ∈ (s .pubAddresses).rows, ∀ k, addressKey s r = some k → p r = c.dropsAddress k (addressEntry r)) :
    Deletes s .pubAddressesAudit (c.droppedAddresses s).length { m with addresses := drop m.addresses c.dropsAddress }
      ((delete .pubAddresses p >>= fun _ => pure (some 1) : Proc (Option Int)) s) := by
  have same : (s .pubAddresses).rows.filter p = c.droppedAddresses s := by
    refine List.filter_congr fun r mem => ?_
    obtain ⟨k,own⟩ := stored.addresses.keyed r mem
    rw [own]
    exact alike r mem k own
  rw [← same]
  constructor
  · intro draws
    obtain ⟨s',ran,rows,others⟩ := deleteSettles (a := .pubAddresses) rfl valid p draws
    have signatures : s' .nftSignatures = s .nftSignatures := others _ (by decide) (by decide)
    have handles : s' .handles = s .handles := others _ (by decide) (by decide)
    refine ⟨some 1,s',bindRuns ran,storedFrame (congrArg Table.rows handles) ?_ ?_⟩
    · exact rows ▸ stored.addresses.filter alike
    · exact signatures ▸ stored.signatures
  · intro v s' ran
    obtain ⟨_,_,deleted,_⟩ := bindOk.mp ran
    exact deleteDraws (a := .pubAddresses) rfl deleted

theorem signaturesDropped (valid : s.Valid) (stored : m.Stored s) {p : NftSignature → Bool} {c : BookCall}
    (alike : ∀ r ∈ (s .nftSignatures).rows, ∀ k, signatureKey s r = some k → p r = c.dropsSignature k (signatureEntry r)) :
    Deletes s .nftSignaturesAudit (c.droppedSignatures s).length { m with signatures := drop m.signatures c.dropsSignature }
      ((delete .nftSignatures p >>= fun _ => pure (some 1) : Proc (Option Int)) s) := by
  have same : (s .nftSignatures).rows.filter p = c.droppedSignatures s := by
    refine List.filter_congr fun r mem => ?_
    obtain ⟨k,own⟩ := stored.signatures.keyed r mem
    rw [own]
    exact alike r mem k own
  rw [← same]
  constructor
  · intro draws
    obtain ⟨s',ran,rows,others⟩ := deleteSettles (a := .nftSignatures) rfl valid p draws
    have addresses : s' .pubAddresses = s .pubAddresses := others _ (by decide) (by decide)
    have handles : s' .handles = s .handles := others _ (by decide) (by decide)
    refine ⟨some 1,s',bindRuns ran,storedFrame (congrArg Table.rows handles) ?_ ?_⟩
    · exact addresses ▸ stored.addresses
    · exact rows ▸ stored.signatures.filter alike
  · intro v s' ran
    obtain ⟨_,_,deleted,_⟩ := bindOk.mp ran
    exact deleteDraws (a := .nftSignatures) rfl deleted

theorem insUpdPubAddressesActs (valid : s.Valid) (holder : Holder s n h) (stored : m.Stored s) {b : Option Int}
    {c t : String} {p : Option String} (accepted : (BookCall.insUpdPubAddresses b n c t p).Accepted server s)
    (plain : (BookCall.insUpdPubAddresses b n c t p).Plain server s) :
    ∃ v s', insUpdPubAddresses server b (some n) (some c) (some t) p s = .ok (v,s') ∧
      ((BookCall.insUpdPubAddresses b n c t p).act m).Stored s' := by
  obtain ⟨draws,⟨past,block⟩,chain,token,text⟩ := accepted
  obtain ⟨⟨whole,whole'⟩,fits⟩ := plain
  have id : (handleNamed server s (some n)).map Handle.pkHandleId = some h.pkHandleId := handleIdNamed holder
  have owner : s.Resolves .handles (some h.pkHandleId) := List.mem_map_of_mem holder.stored
  have own : (some h.pkHandleId).bind (handleName s) = some n := (ownerNamed valid holder).mpr rfl
  have hit : chosen (server.takes .pubAddresses) .pubAddresses (fun r : PubAddress =>
      same r.fkHandleId (some h.pkHandleId) && same r.chainCode (some c) && same r.tokenCode (some t)) s =
        addressAt server s (some n) (some c) (some t) := by
    rw [← id]
    rfl
  have writes : Writes .pubAddresses (addressKey s) addressEntry (⟨n,c,t⟩ : AddressKey) ⟨cut 128 p,b⟩
      (fun pk => ⟨pk,b,some h.pkHandleId,cut 12 (some c),cut 12 (some t),cut 128 p⟩) (addressRow b p) :=
    ⟨fun _ => rfl,fun _ => rfl,fun _ => ⟨addressKeySome.mpr ⟨own,whole,whole'⟩,rfl⟩,fun _ under => ⟨under,rfl⟩⟩
  obtain ⟨s',ran,graph,others⟩ := upsertStores valid (draws _ List.mem_cons_self) rfl stored.addresses
    (addressUnder valid holder) hit writes fits (addressTexts.mpr ⟨chain,token,text⟩)
    (fun r inRows => addressTexts.mpr ⟨valid.fitsColumn (t := .pubAddresses) List.mem_cons_self inRows,
      valid.fitsColumn (t := .pubAddresses) (List.mem_cons_of_mem _ List.mem_cons_self) inRows,text⟩)
    (addressRefers block owner) fun r inRows _ =>
      addressRefers block (valid.resolves (t := .pubAddresses) (List.mem_cons_of_mem _ List.mem_cons_self) inRows)
  have signatures : s' .nftSignatures = s .nftSignatures := others _ (by decide) (by decide)
  rw [insUpdPubAddressesIs past, id]
  have handles : s' .handles = s .handles := others _ (by decide) (by decide)
  exact ⟨_,s',ran,storedFrame (congrArg Table.rows handles) graph (signatures ▸ stored.signatures)⟩

theorem insUpdNftSignaturesActs (valid : s.Valid) (holder : Holder s n h) (stored : m.Stored s) {b : Option Int}
    {c a t : String} {u x d : Option String}
    (accepted : (BookCall.insUpdNftSignatures b n c a t u x d).Accepted server s)
    (plain : (BookCall.insUpdNftSignatures b n c a t u x d).Plain server s) :
    ∃ v s', insUpdNftSignatures server b (some n) (some c) (some a) (some t) u x d s = .ok (v,s') ∧
      ((BookCall.insUpdNftSignatures b n c a t u x d).act m).Stored s' := by
  obtain ⟨draws,⟨past,block⟩,⟨chain,contract,token⟩,url,hash,data⟩ := accepted
  obtain ⟨⟨whole,whole',whole''⟩,fits⟩ := plain
  have id : (handleNamed server s (some n)).map Handle.pkHandleId = some h.pkHandleId := handleIdNamed holder
  have owner : s.Resolves .handles (some h.pkHandleId) := List.mem_map_of_mem holder.stored
  have own : (some h.pkHandleId).bind (handleName s) = some n := (ownerNamed valid holder).mpr rfl
  have hit : chosen (server.takes .nftSignatures) .nftSignatures (fun r : NftSignature =>
      same r.fkHandleId (some h.pkHandleId) && same r.chainCode (some c) && same r.contractAddress (some a) &&
        same r.tokenId (some t)) s = signatureAt server s (some n) (some c) (some a) (some t) := by
    rw [← id]
    rfl
  have writes : Writes .nftSignatures (signatureKey s) signatureEntry (⟨n,c,a,t⟩ : SignatureKey)
      ⟨cut 128 u,cut 64 x,cut 128 d,b⟩
      (fun pk => ⟨pk,b,some h.pkHandleId,cut 12 (some c),cut 128 (some a),cut 128 (some t),cut 128 u,cut 64 x,cut 128 d⟩)
      (signatureRow server s b (some n) u x d) := by
    refine ⟨fun _ => rfl,fun _ => rfl,fun _ => ⟨signatureKeySome.mpr ⟨own,whole,whole',whole''⟩,rfl⟩,fun r under => ?_⟩
    have own' : ((handleNamed server s (some n)).map Handle.pkHandleId).bind (handleName s) = some n := id ▸ own
    exact ⟨signatureKeySome.mpr ⟨own',(signatureKeySome.mp under).2⟩,rfl⟩
  obtain ⟨s',ran,graph,others⟩ := upsertStores valid (draws _ List.mem_cons_self) rfl stored.signatures
    (signatureUnder valid holder) hit writes fits
    (signatureTexts.mpr ⟨⟨chain,contract,token⟩,url,hash,data⟩)
    (fun r inRows => signatureTexts.mpr ⟨(signatureTexts.mp fun c listed => valid.fitsColumn listed inRows).1,url,hash,data⟩)
    (signatureRefers block owner) fun _ _ _ => signatureRefers block foundResolves
  have addresses : s' .pubAddresses = s .pubAddresses := others _ (by decide) (by decide)
  rw [insUpdNftSignaturesIs past, id]
  have handles : s' .handles = s .handles := others _ (by decide) (by decide)
  exact ⟨_,s',ran,storedFrame (congrArg Table.rows handles) (addresses ▸ stored.addresses) graph⟩

theorem delPubAddressActs (valid : s.Valid) (holder : Holder s n h) (stored : m.Stored s) {c t : String}
    {p : Option String} : Deletes s .pubAddressesAudit ((BookCall.delPubAddress n c t p).droppedAddresses s).length
      ((BookCall.delPubAddress n c t p).act m) (delPubAddress server (some n) (some c) (some t) p s) := by
  unfold delPubAddress
  rw [handleRuns, handleIdNamed holder]
  refine addressesDropped valid stored fun r _ k own => ?_
  have under : (same r.fkHandleId (some h.pkHandleId) && same r.chainCode (some c) && same r.tokenCode (some t)) =
      decide (k = ⟨n,c,t⟩) := by
    rw [Bool.eq_iff_iff, addressUnder valid holder, own, Option.some_inj, decide_eq_true_iff]
  rw [under]
  rfl

theorem delPubAddressesActs (valid : s.Valid) (holder : Holder s n h) (stored : m.Stored s) :
    Deletes s .pubAddressesAudit ((BookCall.delPubAddresses n).droppedAddresses s).length
      ((BookCall.delPubAddresses n).act m) (delPubAddresses server (some n) s) := by
  unfold delPubAddresses
  rw [handleRuns, handleIdNamed holder]
  exact addressesDropped valid stored fun r _ k own => ownerUnder valid holder (addressKeySome.mp own).1

theorem clearPubAddressesActs (valid : s.Valid) (holder : Holder s n h) (stored : m.Stored s) :
    Deletes s .pubAddressesAudit ((BookCall.clearPubAddresses n).droppedAddresses s).length
      ((BookCall.clearPubAddresses n).act m) (clearPubAddresses server (some n) s) := by
  unfold clearPubAddresses
  rw [handleRuns, handleIdNamed holder]
  refine addressesDropped valid stored fun r _ k own => ?_
  obtain ⟨owner,chain,token⟩ := addressKeySome.mp own
  rw [ownerUnder valid holder owner, chain, token]
  simp only [truthEq, BookCall.dropsAddress]
  by_cases fio : k.chain = "FIO" <;> by_cases fio' : k.token = "FIO" <;> simp [fio, fio', truthAnd, truthNot, holds]

theorem delNftSignatureActs (valid : s.Valid) (holder : Holder s n h) (stored : m.Stored s) {c a t : String} :
    Deletes s .nftSignaturesAudit ((BookCall.delNftSignature n c a t).droppedSignatures s).length
      ((BookCall.delNftSignature n c a t).act m) (delNftSignature server (some n) (some c) (some a) (some t) s) := by
  unfold delNftSignature
  rw [handleRuns, handleIdNamed holder]
  refine signaturesDropped valid stored fun r _ k own => ?_
  rw [BookCall.dropsSignature, Bool.eq_iff_iff, signatureUnder valid holder, own, Option.some_inj, decide_eq_true_iff]

theorem delNftSignaturesActs (valid : s.Valid) (holder : Holder s n h) (stored : m.Stored s) :
    Deletes s .nftSignaturesAudit ((BookCall.delNftSignatures n).droppedSignatures s).length
      ((BookCall.delNftSignatures n).act m) (delNftSignatures server (some n) s) := by
  unfold delNftSignatures
  rw [handleRuns, handleIdNamed holder]
  exact signaturesDropped valid stored fun r _ k own => ownerUnder valid holder (signatureKeySome.mp own).1

theorem callActs (valid : s.Valid) (stored : m.Stored s) {c : BookCall} (holder : Holder s c.handle h)
    (accepted : c.Accepted server s) (plain : c.Plain server s) :
    ∃ v s', c.call.run server s = .ok (v,s') ∧ (c.act m).Stored s' := by
  have drawn := accepted.1
  cases c with
  | insUpdPubAddresses => exact insUpdPubAddressesActs valid holder stored accepted plain
  | insUpdNftSignatures => exact insUpdNftSignaturesActs valid holder stored accepted plain
  | delPubAddress => exact (delPubAddressActs valid holder stored).acts (drawn _ List.mem_cons_self)
  | delPubAddresses => exact (delPubAddressesActs valid holder stored).acts (drawn _ List.mem_cons_self)
  | clearPubAddresses => exact (clearPubAddressesActs valid holder stored).acts (drawn _ List.mem_cons_self)
  | delNftSignature => exact (delNftSignatureActs valid holder stored).acts (drawn _ List.mem_cons_self)
  | delNftSignatures => exact (delNftSignaturesActs valid holder stored).acts (drawn _ List.mem_cons_self)

end Acts

section Refusals
variable {server : Server} {s s' : DB} {b v : Option Int} {n c a t : String} {p u x d : Option String}

theorem upsertAccepted {k : Call} {e : Audited} {found : Option (Row e.table)} {row : Int → Row e.table}
    {assign : Row e.table → Row e.table} {column : Row e.table → Option Int} (valid : s.Valid) (aside : k.aside = true)
    (ran : k.run server s = .ok (v,s')) (ends : k.run server s = upsert e found row assign s)
    (number : ∀ i, key e.table (row i) = i) (mem : ∀ r, found = some r → r ∈ (s e.table).rows)
    (listed : ⟨column,.blocks⟩ ∈ references e.table)
    (inserted : ∀ i, column (row i) = b) (rewritten : ∀ r, column (assign r) = b) :
    s.Resolves .blocks b ∧ s.Draws (upsertDraw e found assign).1 (upsertDraw e found assign).2 ∧
      ∀ c ∈ varchars e.table, fitsWidth c.width (c.column (found.elim (row (s e.table).next) assign)) = true := by
  obtain ⟨draws,texts,refers⟩ := upsertOk valid number mem (ends.symm.trans ran)
  have blocks : s' .blocks = s .blocks := callLeaves aside s v s' ran .blocks (by decide)
  have stamped : column (found.elim (row (s e.table).next) assign) = b := by
    cases found with
    | none => exact inserted _
    | some r => exact rewritten r
  have block : s'.Resolves .blocks (column (found.elim (row (s e.table).next) assign)) := refers _ listed
  rw [stamped] at block
  exact ⟨(Database.resolvesCongr (by rw [Database.keys, blocks]; rfl)).mp block,draws,texts⟩

theorem insUpdPubAddressesRefused (valid : s.Valid)
    (refused : ¬(BookCall.insUpdPubAddresses b n c t p).Accepted server s)
    (ran : insUpdPubAddresses server b (some n) (some c) (some t) p s = .ok (v,s')) : s' = s := by
  cases past : below b (some 0) with
  | true =>
    unfold insUpdPubAddresses at ran
    rw [past] at ran
    exact (pureOk.mp ran).2
  | false =>
    have ends : insUpdPubAddresses server b (some n) (some c) (some t) p s = _ := insUpdPubAddressesIs past
    obtain ⟨block,draws,texts⟩ := upsertAccepted (k := .insUpdPubAddresses b (some n) (some c) (some t) p)
      (e := .pubAddresses) valid rfl ran ends (fun _ => rfl) (fun r hit => (chosenSome hit).1) List.mem_cons_self
      (fun _ => rfl) fun _ => rfl
    have admissible : castable 12 (some c) = true ∧ castable 12 (some t) = true ∧ castable 128 p = true := by
      cases hit : addressAt server s (some n) (some c) (some t) with
      | none =>
        rw [hit] at texts
        exact addressTexts.mp texts
      | some r =>
        rw [hit] at texts
        obtain ⟨chain,token,text⟩ := addressTexts.mp texts
        have own := (chosenSome hit).2
        simp only [Bool.and_eq_true, sameOne] at own
        exact ⟨fitsCastable (own.1.2 ▸ chain),fitsCastable (own.2 ▸ token),text⟩
    exact absurd ⟨by simpa [BookCall.draws, BookCall.call, Call.draws] using draws,⟨past,block⟩,admissible⟩ refused

theorem insUpdNftSignaturesRefused (valid : s.Valid)
    (refused : ¬(BookCall.insUpdNftSignatures b n c a t u x d).Accepted server s)
    (ran : insUpdNftSignatures server b (some n) (some c) (some a) (some t) u x d s = .ok (v,s')) : s' = s := by
  cases past : below b (some 0) with
  | true =>
    unfold insUpdNftSignatures at ran
    rw [past] at ran
    exact (pureOk.mp ran).2
  | false =>
    have ends : insUpdNftSignatures server b (some n) (some c) (some a) (some t) u x d s = _ := insUpdNftSignaturesIs past
    obtain ⟨block,draws,texts⟩ := upsertAccepted (k := .insUpdNftSignatures b (some n) (some c) (some a) (some t) u x d)
      (e := .nftSignatures) valid rfl ran ends (fun _ => rfl) (fun r hit => (chosenSome hit).1) List.mem_cons_self
      (fun _ => rfl) fun _ => rfl
    have admissible : (castable 12 (some c) = true ∧ castable 128 (some a) = true ∧ castable 128 (some t) = true) ∧
        castable 128 u = true ∧ castable 64 x = true ∧ castable 128 d = true := by
      cases hit : signatureAt server s (some n) (some c) (some a) (some t) with
      | none =>
        rw [hit] at texts
        exact signatureTexts.mp texts
      | some r =>
        rw [hit] at texts
        obtain ⟨⟨chain,contract,token⟩,rest⟩ := signatureTexts.mp texts
        have own := (chosenSome hit).2
        simp only [Bool.and_eq_true, sameOne] at own
        exact ⟨⟨fitsCastable (own.1.1.2 ▸ chain),fitsCastable (own.1.2 ▸ contract),fitsCastable (own.2 ▸ token)⟩,rest⟩
    exact absurd ⟨by simpa [BookCall.draws, BookCall.call, Call.draws] using draws,⟨past,block⟩,admissible⟩ refused

theorem callRefused {h : Handle} {m : Book} (valid : s.Valid) (stored : m.Stored s) {c : BookCall}
    (holder : Holder s c.handle h) (refused : ¬c.Accepted server s) (ran : c.call.run server s = .ok (v,s')) : s' = s := by
  have deletes {log : TableName} {gone : Nat} {m' : Book} (drawn : c.draws server s = [(log,gone)])
      (free : (∀ x ∈ c.draws server s, s.Draws x.1 x.2) → c.Accepted server s)
      (acts : Deletes s log gone m' (c.call.run server s)) : s' = s := by
    refine absurd (free ?_) refused
    rw [drawn]
    simpa using acts.draws v s' ran
  cases c with
  | insUpdPubAddresses => exact insUpdPubAddressesRefused valid refused ran
  | insUpdNftSignatures => exact insUpdNftSignaturesRefused valid refused ran
  | delPubAddress => exact deletes rfl (fun drawn => ⟨drawn,trivial⟩) (delPubAddressActs valid holder stored)
  | delPubAddresses => exact deletes rfl (fun drawn => ⟨drawn,trivial⟩) (delPubAddressesActs valid holder stored)
  | clearPubAddresses => exact deletes rfl (fun drawn => ⟨drawn,trivial⟩) (clearPubAddressesActs valid holder stored)
  | delNftSignature => exact deletes rfl (fun drawn => ⟨drawn,trivial⟩) (delNftSignatureActs valid holder stored)
  | delNftSignatures => exact deletes rfl (fun drawn => ⟨drawn,trivial⟩) (delNftSignaturesActs valid holder stored)

end Refusals

instance {server : Server} {s : DB} : (c : BookCall) → Decidable (c.Fits server s)
  | .insUpdPubAddresses b _ c t p => inferInstanceAs (Decidable (Dated s b ∧ castable 12 (some c) = true ∧
      castable 12 (some t) = true ∧ castable 128 p = true))
  | .insUpdNftSignatures b _ c a t u x d => inferInstanceAs (Decidable (Dated s b ∧ (castable 12 (some c) = true ∧
      castable 128 (some a) = true ∧ castable 128 (some t) = true) ∧ castable 128 u = true ∧ castable 64 x = true ∧
        castable 128 d = true))
  | .delPubAddress .. | .delPubAddresses _ | .clearPubAddresses _ => .isTrue trivial
  | .delNftSignature .. | .delNftSignatures _ => .isTrue trivial

instance {server : Server} {s : DB} {c : BookCall} : Decidable (c.Accepted server s) :=
  inferInstanceAs (Decidable ((∀ x ∈ c.draws server s, s.Draws x.1 x.2) ∧ c.Fits server s))

instance {server : Server} {s : DB} : (c : BookCall) → Decidable (c.Plain server s)
  | .insUpdPubAddresses _ h c t _ => inferInstanceAs (Decidable ((cut 12 (some c) = some c ∧ cut 12 (some t) = some t) ∧
      fitsInt (rowKey s .pubAddresses (addressAt server s (some h) (some c) (some t))) = true))
  | .insUpdNftSignatures _ h c a t _ _ _ => inferInstanceAs (Decidable ((cut 12 (some c) = some c ∧
      cut 128 (some a) = some a ∧ cut 128 (some t) = some t) ∧
        fitsInt (rowKey s .nftSignatures (signatureAt server s (some h) (some c) (some a) (some t))) = true))
  | .delPubAddress .. | .delPubAddresses _ | .clearPubAddresses _ => .isTrue trivial
  | .delNftSignature .. | .delNftSignatures _ => .isTrue trivial

structure BookEvent where
  server : Server
  call : BookCall
  lost : TableName → Nat

def BookEvent.event (e : BookEvent) : Event := ⟨e.server,e.call.call,e.lost⟩

def PlainAlong : Node → List BookEvent → Prop
  | _, [] => True
  | n, e :: rest => (e.call.Accepted e.server n.db → e.call.Plain e.server n.db) ∧ PlainAlong (n.step e.event) rest

instance decidePlainAlong (n : Node) : (calls : List BookEvent) → Decidable (PlainAlong n calls)
  | [] => .isTrue trivial
  | e :: rest =>
    have := decidePlainAlong (n.step e.event) rest
    inferInstanceAs (Decidable ((e.call.Accepted e.server n.db → e.call.Plain e.server n.db) ∧
      PlainAlong (n.step e.event) rest))

section Runs

theorem knownOnce {history : List Event} (keyed : Meets (fun n e => e.call.Keyed n.db) history) {n : String}
    (known : n ∈ handleTexts (run history).db) : OneHandle (run history).db n := by
  have once : (handleTexts (run history).db).count n = 1 := List.count_eq_one_of_mem (handleTextsRun keyed) known
  rw [handleTexts, List.count, List.countP_filterMap, List.countP_eq_length_filter] at once
  rw [OneHandle, holders, ← once]
  congr 1
  refine List.filter_congr fun h _ => ?_
  cases h.handle <;> simp [beq_eq_decide]

end Runs

def aliceRegistered : List Event := events
  [.insBlocks (some 1) none (some "b1") none none,
    .insUpdAccounts (some 1) (some "alice") (some "k1") none none,
    .insDomains (some 1) (some "fio") (some "alice") (some false) (some 9) (some "active"),
    .insUpdHandles (some 1) (some "fio") (some "alice") (some "alice@fio") (some "k1") (some false) (some 9)
      (some "active")]

end FioRelic
