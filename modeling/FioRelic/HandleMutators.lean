import FioRelic.Bootstrap

/-! The seven procedures that change one handle. Each is compared with the columns it
names: every other row and table stays, and the log gains the row's previous value. -/
namespace FioRelic
open Relational Versioning

inductive HandleMutator where
  | renewBundles (expirationtimestamp : Option Timestamp)
  | addBundles (bundlesets : Option Int)
  | xferOwner (owneraccount : String) (encryptkey : Option String) (encryptkeyisset : Option Bool)
  | setEncryptKey (encryptkey : Option String)
  | encryptKey (encryptkey : Option String)
  | status (handlestatus : OneOf handleStatuses)
  | burnt
  deriving DecidableEq, Repr

namespace HandleMutator

def call (b : Int) (fiohandle : String) : HandleMutator → Call
  | renewBundles t => .updHandlesRenewBundles (some b) (some fiohandle) t
  | addBundles n => .updHandlesAddBundles (some b) (some fiohandle) n
  | xferOwner o k i => .updHandlesXferOwner (some b) (some fiohandle) (some o) k i
  | setEncryptKey k => .updHandlesSetEncryptKey (some b) (some fiohandle) k
  | encryptKey k => .updHandlesEncryptKey (some b) (some fiohandle) k
  | status v => .updHandlesStatus (some b) (some fiohandle) (some v.text)
  | burnt => .updHandleBurnt (some b) (some fiohandle)

def Known (s : DB) : HandleMutator → Prop
  | xferOwner o .. => known s (some o) = true
  | _ => True

def writes (b : Int) (owner : Option Int) (r : Handle) : HandleMutator → Handle
  | renewBundles t => { r with fkBlockNumber := some b, expirationStamp := t }
  | addBundles _ => { r with fkBlockNumber := some b }
  | xferOwner _ k i => { r with
      fkBlockNumber := some b
      fkOwnerAccountId := owner
      encryptionKey := cut 64 k
      isEncryptKeySet := i }
  | setEncryptKey k => { r with fkBlockNumber := some b, encryptionKey := cut 64 k, isEncryptKeySet := some true }
  | encryptKey k =>
      if r.isEncryptKeySet = some false then { r with fkBlockNumber := some b, encryptionKey := cut 64 k } else r
  | status v => { r with fkBlockNumber := some b, handleStatus := v }
  | burnt => { r with
      fkBlockNumber := some b
      fkOwnerAccountId := none
      encryptionKey := some ""
      isEncryptKeySet := some false
      handleStatus := ⟨"burnt",burntListed⟩ }

def Owner (s : DB) (owner : Option Int) : HandleMutator → Prop
  | xferOwner o .. => ∃ account ∈ (s .accounts).rows, account.accountName = some o ∧ owner = some account.pkAccountId
  | _ => True

end HandleMutator

structure Mutated (s s' : DB) (r r' : Handle) : Prop where
  rows : (s' .handles).rows = (s .handles).rows.map fun x => if x.pkHandleId = r.pkHandleId then r' else x
  others : ∀ t, t ≠ .handles → t ≠ .handlesAudit → s' t = s t
  log : ∃ entries : List HandleAudit, (s' .handlesAudit).rows = (s .handlesAudit).rows ++ entries ∧
    entries.map (Audited.row .handles) = if r' = r then [] else [r]

theorem sameListed {α β : Type} {xs : List α} {f : α → Option β} (nodup : (xs.filterMap f).Nodup) {x y : α} {z : β}
    (mem : x ∈ xs) (mem' : y ∈ xs) (given : f x = some z) (given' : f y = some z) : x = y := by
  by_contra differ
  have symmetric : Std.Symm fun a a' : α => ∀ b, f a = some b → ∀ b', f a' = some b' → b ≠ b' :=
    ⟨fun _ _ apart _ given _ given' same => apart _ given' _ given same.symm⟩
  exact (List.pairwise_filterMap.mp nodup).forall mem mem' differ z given z given' rfl

theorem entriesRows {a : Audited} {s : DB} {block : Row a.table → Option Int} {operation : String}
    {hits : List (Row a.table)} {entries : List (Row a.log)} (logged : Entries a s block operation hits entries) :
    entries.map a.row = hits.map a.copied := by
  have each := logged.each
  clear logged
  induction each with
  | nil => rfl
  | cons entry _ ih => rw [List.map_cons, List.map_cons, entry.row, ih]

def handleNamed (server : Server) (s : DB) (name : Option String) : Option Handle :=
  chosen (server.takes .handles) .handles (fun r : Handle => same r.handle name) s

def Works (server : Server) (s : DB) (b : Int) (h : String) (r : Handle) (m : HandleMutator) : Prop :=
  ∃ v s' owner, (m.call b h).run server s = .ok (v,s') ∧ m.Owner s owner ∧ Mutated s s' r (m.writes b owner r)

namespace HandleMutator

def Changes (s : DB) (b : Int) (r : Handle) (m : HandleMutator) : Prop := ∃ owner, m.Owner s owner ∧ m.writes b owner r ≠ r

def Narrow (s : DB) (r : Handle) : HandleMutator → Prop
  | burnt => True
  | xferOwner o .. => fitsInt r.pkHandleId = true ∧
      ∀ account ∈ (s .accounts).rows, account.accountName = some o → fitsInt account.pkAccountId = true
  | _ => fitsInt r.pkHandleId = true

def KeyFits (r : Handle) : HandleMutator → Prop
  | xferOwner _ k _ | setEncryptKey k => castable 64 k = true
  | encryptKey k => r.isEncryptKeySet = some false → castable 64 k = true
  | _ => True

def bundles : HandleMutator → Bool
  | renewBundles _ | addBundles _ => true
  | _ => false

structure Fits (s : DB) (b : Int) (r : Handle) (m : HandleMutator) : Prop where
  columns : m.bundles = false
  narrow : m.Narrow s r
  key : m.KeyFits r
  logged : m.Changes s b r → s.Room .handlesAudit 1

end HandleMutator

section Mutation
variable {server : Server} {s s' : DB} {r : Handle} {b : Int} {h : String}

theorem onlyRow (valid : s.Valid) (stored : r ∈ (s .handles).rows) :
    ∀ x ∈ (s .handles).rows, decide (x.pkHandleId = r.pkHandleId) = true → x = r :=
  fun _ mem hit => valid.sameRow (t := .handles) mem stored (of_decide_eq_true hit)

theorem changedHandle (valid : s.Valid) (stored : r ∈ (s .handles).rows) (assign : Handle → Handle) :
    changed (fun x : Handle => decide (x.pkHandleId = r.pkHandleId)) assign (s .handles).rows =
      if assign r = r then [] else [r] := changedOne (a := .handles) (valid.keysNodup .handles) stored assign

theorem mutateOk (valid : s.Valid) (stored : r ∈ (s .handles).rows) {assign : Handle → Handle}
    (ran : update .handles (fun x => decide (x.pkHandleId = r.pkHandleId)) assign s = .ok ((),s')) :
    Mutated s s' r (assign r) ∧ fitsWidth 64 (assign r).encryptionKey = true ∧
      (assign r ≠ r → s.Room .handlesAudit 1) := by
  have draws := updateDraws (a := .handles) ran
  obtain ⟨entries,logged,rfl,_,valid'⟩ := updateWrites (a := .handles) ran
  have rows : (((s.withRows .handles ((s .handles).rows.map (assigned (fun x => decide (x.pkHandleId = r.pkHandleId))
      assign))).append .handlesAudit entries) .handles).rows = (s .handles).rows.map fun x =>
      if x.pkHandleId = r.pkHandleId then assign r else x := by
    rw [Database.appendOther _ (by decide), Database.withRowsSame]
    refine List.map_congr_left fun x mem => ?_
    unfold assigned
    by_cases same : x.pkHandleId = r.pkHandleId
    · rw [if_pos (decide_eq_true same), if_pos same, onlyRow valid stored x mem (decide_eq_true same)]
    · rw [if_neg (by simpa using same), if_neg same]
  refine ⟨⟨rows,fun t table log => ?_,entries,?_,?_⟩,?_,fun moved => ?_⟩
  · exact (Database.appendOther _ log _).trans (Database.withRowsOther _ table _)
  · exact congrArg Table.rows (Database.appendSame _ _ _) |>.trans (by
      rw [Database.withRowsOther _ (by decide)])
  · rw [← changedHandle valid stored assign]
    exact (entriesRows logged).trans (List.map_id' _)
  · have written : assign r ∈ (((s.withRows .handles ((s .handles).rows.map (assigned (fun x =>
        decide (x.pkHandleId = r.pkHandleId)) assign))).append .handlesAudit entries) .handles).rows := by
      rw [rows]
      exact List.mem_map.mpr ⟨r,stored,if_pos rfl⟩
    exact valid'.fitsColumn (t := .handles) (List.mem_cons_of_mem _ List.mem_cons_self) written
  · have one := changedHandle valid stored assign
    rw [if_neg moved] at one
    have length : (changed (fun x => decide (x.pkHandleId = r.pkHandleId)) assign (s .handles).rows).length = 1 := by
      rw [one]
      rfl
    exact (length ▸ draws).room

theorem mutateRuns (valid : s.Valid) (serial : s.Serial) (stored : r ∈ (s .handles).rows) {assign : Handle → Handle}
    (keeps : ∀ x, (assign x).pkHandleId = x.pkHandleId ∧ (assign x).handle = x.handle ∧
      (assign x).fkDomainId = x.fkDomainId)
    (block : s.Resolves .blocks (assign r).fkBlockNumber) (owner : s.Resolves .accounts (assign r).fkOwnerAccountId)
    (short : fitsWidth 64 (assign r).encryptionKey = true) (room : assign r ≠ r → s.Room .handlesAudit 1) :
    ∃ s', update .handles (fun x => decide (x.pkHandleId = r.pkHandleId)) assign s = .ok ((),s') := by
  have only := onlyRow valid stored
  have draws : s.Draws .handlesAudit
      (changed (fun x => decide (x.pkHandleId = r.pkHandleId)) assign (s .handles).rows).length := by
    rw [changedHandle valid stored assign]
    split
    · exact fun _ none => absurd none (Nat.not_lt_zero _)
    · rename_i moved
      exact (room moved).draws serial rfl
  have texts : ∀ c ∈ varchars .handles, ∀ x ∈ (s .handles).rows, decide (x.pkHandleId = r.pkHandleId) = true →
      fitsWidth c.width (c.column (assign x)) = true := by
    intro c listed x mem hit
    rw [only x mem hit]
    rcases List.mem_cons.mp listed with rfl | listed
    · have name := valid.fitsColumn (t := .handles) List.mem_cons_self stored
      change fitsWidth 64 (assign r).handle = true
      rw [(keeps r).2.1]
      exact name
    · rw [List.mem_singleton.mp listed]
      exact short
  have refers : ∀ ref ∈ references .handles, ∀ x ∈ (s .handles).rows, decide (x.pkHandleId = r.pkHandleId) = true →
      s.Resolves ref.parent (ref.column (assign x)) := by
    intro ref listed x mem hit
    rw [only x mem hit]
    rcases List.mem_cons.mp listed with rfl | listed
    · exact block
    · rcases List.mem_cons.mp listed with rfl | listed
      · have domain := valid.resolves (t := .handles) (List.mem_cons_of_mem _ List.mem_cons_self) stored
        change s.Resolves .domains (assign r).fkDomainId
        rw [(keeps r).2.2]
        exact domain
      · rw [List.mem_singleton.mp listed]
        exact owner
  obtain ⟨s',ran,_⟩ := updateSettles (a := .handles) valid draws (fun x => (keeps x).1)
    (fun column none => absurd none List.not_mem_nil) texts refers
  exact ⟨s',ran⟩

theorem mutatedSelf (valid : s.Valid) (stored : r ∈ (s .handles).rows) : Mutated s s r r := by
  refine ⟨?_,fun _ _ _ => rfl,[],(List.append_nil _).symm,by simp⟩
  refine (List.map_id _).symm.trans (List.map_congr_left fun x mem => ?_)
  by_cases same : x.pkHandleId = r.pkHandleId
  · rw [if_pos same]
    exact valid.sameRow (t := .handles) mem stored same
  · rw [if_neg same]
    rfl

end Mutation

structure Acts (server : Server) (s : DB) (b : Int) (h : String) (r : Handle) (m : HandleMutator) : Prop where
  ran : ∀ v s', (m.call b h).run server s = .ok (v,s') →
    m.Fits s b r ∧ ∃ owner, m.Owner s owner ∧ Mutated s s' r (m.writes b owner r)
  runs : m.Fits s b r → ∃ v s', (m.call b h).run server s = .ok (v,s')

section Works
variable {server : Server} {s : DB} {r : Handle} {b : Int} {h : String}

theorem assignsActs (m : HandleMutator) (assign : Handle → Handle) (rest : Proc (Option Int)) (owner : Option Int)
    {answer : Option Int} (valid : s.Valid) (serial : s.Serial) (stored : r ∈ (s .handles).rows)
    (keeps : ∀ x, (assign x).pkHandleId = x.pkHandleId ∧ (assign x).handle = x.handle ∧
      (assign x).fkDomainId = x.fkDomainId)
    (block : s.Resolves .blocks (assign r).fkBlockNumber) (accounts : s.Resolves .accounts (assign r).fkOwnerAccountId)
    (columns : m.bundles = false) (owns : m.Owner s owner)
    (writes : ∀ owner', m.Owner s owner' → m.writes b owner' r = assign r)
    (key : m.KeyFits r ↔ fitsWidth 64 (assign r).encryptionKey = true)
    (begins : m.Narrow s r → (m.call b h).run server s =
      (update .handles (fun x => decide (x.pkHandleId = r.pkHandleId)) assign >>= fun _ => rest) s)
    (narrows : ∀ v s', (m.call b h).run server s = .ok (v,s') → m.Narrow s r)
    (ends : ∀ s', m.Narrow s r → rest s' = .ok (answer,s')) : Acts server s b h r m := by
  constructor
  · intro v s' ran
    have narrow := narrows v s' ran
    rw [begins narrow] at ran
    obtain ⟨_,mid,updated,last⟩ := bindOk.mp ran
    obtain ⟨_,rfl⟩ : v = answer ∧ s' = mid := by
      rw [ends mid narrow] at last
      cases last
      exact ⟨rfl,rfl⟩
    obtain ⟨mutated,short,room⟩ := mutateOk valid stored updated
    refine ⟨⟨columns,narrow,key.mpr short,?_⟩,owner,owns,?_⟩
    · rintro ⟨owner',owns',moved⟩
      rw [writes owner' owns'] at moved
      exact room moved
    · rwa [writes owner owns]
  · rintro ⟨_,narrow,short,logged⟩
    obtain ⟨s',updated⟩ := mutateRuns valid serial stored keeps block accounts (key.mp short) fun moved =>
      logged ⟨owner,owns,by rwa [writes owner owns]⟩
    exact ⟨answer,s',(begins narrow).trans ((bindRuns updated).trans (ends s' narrow))⟩

theorem xferOwnerActs (valid : s.Valid) (serial : s.Serial) (found : handleNamed server s (some h) = some r)
    (block : s.Resolves .blocks (some b)) {o : String} {k : Option String} {i : Option Bool}
    (present : known s (some o) = true) : Acts server s b h r (.xferOwner o k i) := by
  obtain ⟨account,hit⟩ : ∃ account, accountNamed server s (some o) = some account := by
    cases hit : accountNamed server s (some o) with
    | none => rw [namedNone.mp hit] at present; cases present
    | some account => exact ⟨account,rfl⟩
  obtain ⟨mem,own,_⟩ := namedSome hit
  have sole : ∀ owner, HandleMutator.Owner s owner (.xferOwner o k i) → owner = some account.pkAccountId := by
    rintro owner ⟨account',mem',own',rfl⟩
    have same' : account' = account :=
      sameListed (valid.uniqueNodup (t := .accounts) List.mem_cons_self) mem' mem own' own
    rw [same']
  have begins : updHandlesXferOwner server (some b) (some h) (some o) k i s = (do
      let owneracctid ← toInt (some account.pkAccountId)
      update .handles (fun x => decide (x.pkHandleId = r.pkHandleId)) fun x =>
        { x with
          fkBlockNumber := some b
          fkOwnerAccountId := owneracctid
          encryptionKey := cut 64 k
          isEncryptKeySet := i }
      toInt (some r.pkHandleId)) s := by
    unfold handleNamed at found
    unfold accountNamed at hit
    unfold updHandlesXferOwner
    rw [lookupRuns, found, lookupRuns, hit]
    rfl
  refine assignsActs (.xferOwner o k i) (fun x =>
    { x with
      fkBlockNumber := some b
      fkOwnerAccountId := some account.pkAccountId
      encryptionKey := cut 64 k
      isEncryptKeySet := i })
    (toInt (some r.pkHandleId)) _ valid serial (chosenSome found).1 (fun _ => ⟨rfl,rfl,rfl⟩) block (List.mem_map_of_mem mem)
    rfl ⟨account,mem,own,rfl⟩ (fun owner owns => by rw [sole owner owns]; rfl) Iff.rfl (fun narrow => ?_)
    (fun v s' ran => ?_) fun s' narrow => fitsRuns narrow.1
  · exact begins.trans (bindRuns (fitsRuns (narrow.2 account mem own)))
  · obtain ⟨_,_,narrowed,rest⟩ := bindOk.mp (begins.symm.trans ran)
    obtain ⟨_,_,_,last⟩ := bindOk.mp rest
    refine ⟨(toIntOk.mp last).2.2 _ rfl,fun account' mem' own' => ?_⟩
    have same' := sole _ ⟨account',mem',own',rfl⟩
    rw [Option.some.inj same']
    exact (toIntOk.mp narrowed).2.2 _ rfl

theorem plainActs (m : HandleMutator) (assign : Handle → Handle) (valid : s.Valid) (serial : s.Serial)
    (stored : r ∈ (s .handles).rows)
    (keeps : ∀ x, (assign x).pkHandleId = x.pkHandleId ∧ (assign x).handle = x.handle ∧
      (assign x).fkDomainId = x.fkDomainId)
    (block : s.Resolves .blocks (assign r).fkBlockNumber) (accounts : s.Resolves .accounts (assign r).fkOwnerAccountId)
    (columns : m.bundles = false) (owns : m.Owner s none) (writes : ∀ owner, m.writes b owner r = assign r)
    (key : m.KeyFits r ↔ fitsWidth 64 (assign r).encryptionKey = true)
    (narrow : m.Narrow s r = (fitsInt r.pkHandleId = true))
    (begins : (m.call b h).run server s = (update .handles (fun x => decide (x.pkHandleId = r.pkHandleId)) assign >>=
      fun _ => toInt (some r.pkHandleId)) s) : Acts server s b h r m := by
  refine assignsActs m assign (toInt (some r.pkHandleId)) none valid serial stored keeps block accounts columns owns
    (fun owner _ => writes owner) key (fun _ => begins) (fun v s' ran => ?_) fun s' fits => fitsRuns (narrow ▸ fits)
  obtain ⟨_,_,_,last⟩ := bindOk.mp (begins.symm.trans ran)
  exact narrow ▸ (toIntOk.mp last).2.2 _ rfl

theorem encryptKeyActs (valid : s.Valid) (serial : s.Serial) (found : handleNamed server s (some h) = some r)
    (block : s.Resolves .blocks (some b)) {k : Option String} : Acts server s b h r (.encryptKey k) := by
  have stored := (chosenSome found).1
  have owner := valid.resolves (t := .handles) (List.mem_cons_of_mem _ (List.mem_cons_of_mem _ List.mem_cons_self)) stored
  have begins : updHandlesEncryptKey server (some b) (some h) k s =
      (if holds (truthNot r.isEncryptKeySet) then
        update .handles (fun x => decide (x.pkHandleId = r.pkHandleId)) fun x =>
          { x with
            fkBlockNumber := some b
            encryptionKey := cut 64 k }
      else pure ()) s >>= fun x => toInt (some r.pkHandleId) x.2 := by
    unfold handleNamed at found
    unfold updHandlesEncryptKey
    rw [lookupRuns, found]
    simp only [Option.bind_some, Option.map_some]
    split <;> rfl
  by_cases unset : r.isEncryptKeySet = some false
  · refine plainActs (.encryptKey k) (fun x => { x with fkBlockNumber := some b, encryptionKey := cut 64 k }) valid serial
      stored (fun _ => ⟨rfl,rfl,rfl⟩) block owner rfl trivial (fun _ => if_pos unset)
      ⟨fun key => key unset,fun key _ => key⟩ rfl (begins.trans ?_)
    rw [unset]
    rfl
  · have closed : holds (truthNot r.isEncryptKeySet) = false := by
      cases set : r.isEncryptKeySet with
      | none => rfl
      | some value =>
        cases value with
        | true => rfl
        | false => exact absurd set unset
    have runs : updHandlesEncryptKey server (some b) (some h) k s = toInt (some r.pkHandleId) s := by
      rw [begins, closed]
      rfl
    have still : ∀ owner, HandleMutator.writes b owner r (.encryptKey k) = r := fun owner => if_neg unset
    constructor
    · intro v s' ran
      obtain ⟨_,rfl,fits⟩ := toIntOk.mp (runs.symm.trans ran)
      refine ⟨⟨rfl,fits _ rfl,fun set => absurd set unset,?_⟩,none,trivial,?_⟩
      · rintro ⟨owner,_,moved⟩
        exact absurd (still owner) moved
      · rw [still]
        exact mutatedSelf valid stored
    · exact fun fits => ⟨_,s,runs.trans (fitsRuns fits.narrow)⟩

theorem burntActs (valid : s.Valid) (serial : s.Serial) (found : handleNamed server s (some h) = some r)
    (block : s.Resolves .blocks (some b)) : Acts server s b h r .burnt := by
  refine assignsActs .burnt (fun x =>
    { x with
      fkBlockNumber := some b
      fkOwnerAccountId := none
      encryptionKey := some ""
      isEncryptKeySet := some false
      handleStatus := ⟨"burnt",burntListed⟩ }) (pure (some 1)) none valid serial (chosenSome found).1
    (fun _ => ⟨rfl,rfl,rfl⟩) block trivial rfl trivial (fun _ _ => rfl)
    ⟨fun _ => (by decide : fitsWidth 64 (some "") = true),fun _ => trivial⟩ (fun _ => ?_) (fun _ _ _ => trivial)
    fun _ _ => rfl
  unfold handleNamed at found
  change updHandleBurnt server (some b) (some h) s = _
  unfold updHandleBurnt
  rw [lookupRuns, found]

theorem mutatorActs (valid : s.Valid) (serial : s.Serial) (found : handleNamed server s (some h) = some r)
    (block : s.Resolves .blocks (some b)) (m : HandleMutator) (present : m.Known s) : Acts server s b h r m := by
  have stored := (chosenSome found).1
  have owner := valid.resolves (t := .handles) (List.mem_cons_of_mem _ (List.mem_cons_of_mem _ List.mem_cons_self)) stored
  have short : fitsWidth 64 r.encryptionKey = true :=
    valid.fitsColumn (t := .handles) (List.mem_cons_of_mem _ List.mem_cons_self) stored
  cases m with
  | renewBundles t => exact ⟨fun _ _ ran => (by cases ran),fun fits => nomatch fits.columns⟩
  | addBundles n => exact ⟨fun _ _ ran => (by cases ran),fun fits => nomatch fits.columns⟩
  | xferOwner o k i => exact xferOwnerActs valid serial found block present
  | setEncryptKey k =>
    refine plainActs (.setEncryptKey k) (fun x =>
      { x with fkBlockNumber := some b, encryptionKey := cut 64 k, isEncryptKeySet := some true }) valid serial stored
      (fun _ => ⟨rfl,rfl,rfl⟩) block owner rfl trivial (fun _ => rfl) Iff.rfl rfl ?_
    unfold handleNamed at found
    change updHandlesSetEncryptKey server (some b) (some h) k _ = _
    unfold updHandlesSetEncryptKey
    rw [lookupRuns, found]
    rfl
  | encryptKey k => exact encryptKeyActs valid serial found block
  | status v =>
    refine plainActs (.status v) (fun x => { x with fkBlockNumber := some b, handleStatus := v }) valid serial stored
      (fun _ => ⟨rfl,rfl,rfl⟩) block owner rfl trivial (fun _ => rfl) ⟨fun _ => short,fun _ => trivial⟩ rfl ?_
    unfold handleNamed at found
    change updHandlesStatus server (some b) (some h) (some v.text) _ = _
    unfold updHandlesStatus
    rw [lookupRuns, found]
    exact bindRuns (oneOfOk.mpr ⟨rfl,rfl⟩)
  | burnt => exact burntActs valid serial found block

theorem writesSole (valid : s.Valid) (m : HandleMutator) {owner owner' : Option Int} (owns : m.Owner s owner)
    (owns' : m.Owner s owner') : m.writes b owner r = m.writes b owner' r := by
  cases m with
  | xferOwner o k i =>
    obtain ⟨account,mem,own,rfl⟩ := owns
    obtain ⟨account',mem',own',rfl⟩ := owns'
    have same' : account = account' :=
      sameListed (valid.uniqueNodup (t := .accounts) List.mem_cons_self) mem mem' own own'
    rw [same']
  | _ => rfl

end Works

section Rows
variable {s s' : DB} {r r' x y : Handle}

theorem mutatedBoth (stored : r ∈ (s .handles).rows) (apart : r.pkHandleId ≠ r'.pkHandleId) (mutated : Mutated s s' r x)
    (mutated' : Mutated s s' r' y) : x = r := by
  have rows := mutated.rows.symm.trans mutated'.rows
  have own := List.map_inj_left.mp rows r stored
  rwa [if_pos rfl, if_neg apart] at own

theorem mutatedElsewhere (valid : s.Valid) (stored : r ∈ (s .handles).rows) (stored' : r' ∈ (s .handles).rows)
    (mutated : Mutated s s' r r) : Mutated s s' r' r' := by
  have still := mutatedSelf valid stored
  have still' := mutatedSelf valid stored'
  obtain ⟨entries,grown,logged⟩ := mutated.log
  exact ⟨mutated.rows.trans (still.rows.symm.trans still'.rows),mutated.others,entries,grown,by rw [logged]; simp⟩

end Rows

theorem handleMutatorsWork (history : List Event) (server : Server) {b : Int} (head : DB.head (run history).db = some b)
    {r : Handle} (stored : r ∈ ((run history).db .handles).rows) {h : String} (named : r.handle = some h)
    (m : HandleMutator) (present : m.Known (run history).db) :
    Works server (run history).db b h r m ↔ ∃ found, handleNamed server (run history).db (some h) = some found ∧
      m.Fits (run history).db b found ∧
      (found = r ∨ ¬m.Changes (run history).db b found ∧ ¬m.Changes (run history).db b r) := by
  have kempt := kemptRun history
  have block : (run history).db.Resolves .blocks (some b) := head ▸ headResolves
  obtain ⟨found,hit⟩ : ∃ found, handleNamed server (run history).db (some h) = some found := by
    cases hit : handleNamed server (run history).db (some h) with
    | none =>
      have absent := chosenNone.mp hit r stored
      simp [named] at absent
    | some found => exact ⟨found,rfl⟩
  have inRows := (chosenSome hit).1
  have acts := mutatorActs kempt.valid kempt.serial hit block m present
  have sole : ∀ (x : Handle) (owner : Option Int), m.Owner (run history).db owner → m.writes b owner x = x →
      ¬m.Changes (run history).db b x := by
    rintro x owner owns still ⟨owner',owns',moved⟩
    exact moved ((writesSole kempt.valid m owns' owns).trans still)
  constructor
  · rintro ⟨v,s',owner,ran,owns,mutated⟩
    obtain ⟨fits,owner',owns',mutated'⟩ := acts.ran v s' ran
    refine ⟨found,hit,fits,?_⟩
    by_cases apart : found.pkHandleId = r.pkHandleId
    · exact Or.inl (kempt.valid.sameRow (t := .handles) inRows stored apart)
    · exact Or.inr ⟨sole found owner' owns' (mutatedBoth inRows apart mutated' mutated),
        sole r owner owns (mutatedBoth stored (Ne.symm apart) mutated mutated')⟩
  · rintro ⟨found',hit',fits,alike⟩
    obtain rfl : found = found' := Option.some.inj (hit.symm.trans hit')
    obtain ⟨v,s',ran⟩ := acts.runs fits
    obtain ⟨_,owner,owns,mutated⟩ := acts.ran v s' ran
    refine ⟨v,s',owner,ran,owns,?_⟩
    rcases alike with rfl | ⟨still,still'⟩
    · exact mutated
    · have own : m.writes b owner found = found := by_contra fun moved => still ⟨owner,owns,moved⟩
      have other : m.writes b owner r = r := by_contra fun moved => still' ⟨owner,owns,moved⟩
      rw [own] at mutated
      rw [other]
      exact mutatedElsewhere kempt.valid inRows stored mutated

def aliceHandle : Handle :=
  ⟨1,some 2,some 1,some "alice@fio",some 3,some "k2",some true,some 9,⟨"active",by decide⟩⟩

theorem handleMutatorsWorkTransferred : Works leastServer (run (events transferred)).db 2 "alice@fio" aliceHandle
    (.setEncryptKey (some "k3")) :=
  (handleMutatorsWork (events transferred) leastServer (by decide +kernel) (by decide +kernel) rfl
    (.setEncryptKey (some "k3")) trivial).mpr
    ⟨aliceHandle,by decide +kernel,⟨rfl,(by decide : fitsInt 1 = true),(by decide : castable 64 (some "k3") = true),
      fun _ => by decide +kernel⟩,Or.inl rfl⟩

theorem bundlesRaise : DB.head (run (events transferred)).db = some 2 ∧
    aliceHandle ∈ ((run (events transferred)).db .handles).rows ∧
    ¬Works leastServer (run (events transferred)).db 2 "alice@fio" aliceHandle (.renewBundles (some 99)) ∧
    ¬Works leastServer (run (events transferred)).db 2 "alice@fio" aliceHandle (.addBundles (some 1)) := by
  refine ⟨by decide +kernel,by decide +kernel,?_,?_⟩
  · rintro ⟨_,_,_,ran,_⟩
    cases ran
  · rintro ⟨_,_,_,ran,_⟩
    cases ran

end FioRelic
