import FioRelic.Restore

/-! Names and slots. None of domain_name, handle and an address slot is declared UNIQUE.
Handles and slots stay unique because they are looked up before they are inserted; a
domain does not, because insdomains never looks. -/
namespace FioRelic
open Relational Versioning

section Columns
variable {c : Call} {s s' : DB}

theorem changeColumns {β : Type} (h : Change c s s') (a : Audited) (column : Row a.table → β)
    (fixes : ∀ r r', a.fixed r = a.fixed r' → column r = column r') :
    ((s' a.table).rows.map column).Sublist ((s a.table).rows.map column) ∨
      ∃ r, Inserted c s a.table r ∧ (s' a.table).rows = (s a.table).rows ++ [r] := by
  cases h with
  | insert t row number stamped inserted valid =>
    by_cases own : a.table = t
    · subst own
      exact Or.inr ⟨row,inserted,by rw [Database.appendSame]⟩
    · rw [Database.appendOther _ own]
      exact Or.inl (List.Sublist.refl _)
  | update a' p assign entries rewritten logged committed valid =>
    refine Or.inl ?_
    by_cases own : a = a'
    · subst own
      rw [Database.appendOther _ a.logOther.symm, Database.withRowsSame]
      have same : ((s a.table).rows.map (assigned p assign)).map column = (s a.table).rows.map column := by
        rw [List.map_map]
        refine List.map_congr_left fun r mem => fixes _ _ ?_
        unfold assigned
        cases hit : p r with
        | false => rfl
        | true => exact keptFixed (rewritten r mem hit).kept
      rw [same]
    · rw [Database.appendOther _ (a.tableLog a'), Database.withRowsOther _ (Audited.tableInjective own)]
  | delete a' deletes p entries logged committed valid =>
    refine Or.inl ?_
    by_cases own : a = a'
    · subst own
      rw [Database.appendOther _ a.logOther.symm, Database.withRowsSame]
      exact List.filter_sublist.map column
    · rw [Database.appendOther _ (a.tableLog a'), Database.withRowsOther _ (Audited.tableInjective own)]

theorem nodupInsert {β : Type} {xs : List β} {x : β} (nodup : xs.Nodup) (fresh : x ∉ xs) : (xs ++ [x]).Nodup := by
  rw [← List.concat_eq_append]
  exact List.Nodup.concat fresh nodup

end Columns

def Call.named : Call → Bool
  | .insUpdHandles _ _ _ fiohandle .. => fiohandle.isSome
  | .insUpdPubAddresses _ _ chaincode tokencode .. => chaincode.isSome && tokencode.isSome
  | _ => true

def Call.Keyed (s : DB) : Call → Prop
  | .insUpdHandles _ _ _ fiohandle .. =>
    cut 64 fiohandle = fiohandle ∨ ∀ r ∈ (s .handles).rows, same r.handle (cut 64 fiohandle) = false
  | .insUpdPubAddresses _ fiohandle chaincode tokencode .. =>
    cut 12 chaincode = chaincode ∧ cut 12 tokencode = tokencode ∨
      ∀ h ∈ (s .handles).rows, same h.handle fiohandle = true →
        ∀ r ∈ (s .pubAddresses).rows, sameSlot (some h.pkHandleId) (cut 12 chaincode) (cut 12 tokencode) r = false
  | _ => True

instance (s : DB) (c : Call) : Decidable (c.Keyed s) := by
  unfold Call.Keyed
  split <;> infer_instance

def handleNames (s : DB) : List (Option String) := (s .handles).rows.map Handle.handle

def slot (r : PubAddress) : Option Int × Option String × Option String := (r.fkHandleId,r.chainCode,r.tokenCode)

def slots (s : DB) : List (Option Int × Option String × Option String) := (s .pubAddresses).rows.map slot

def ownedSlots (s : DB) : List (Option Int × Option String × Option String) := (slots s).filter fun x => x.1.isSome

structure Singled (s : DB) : Prop where
  handles : (handleNames s).Nodup
  handled : none ∉ handleNames s
  addresses : (ownedSlots s).Nodup
  coded : ∀ x ∈ slots s, x.2.1.isSome ∧ x.2.2.isSome

section Singled
variable {c : Call} {s s' s₀ : DB}

theorem handleApart (keyed : c.Keyed s) {r : Handle} (inserted : Inserted c s .handles r) :
    ∀ r' ∈ (s .handles).rows, same r'.handle r.handle = false := by
  obtain ⟨name,given,stored,absent⟩ := inserted
  cases c with
  | insUpdHandles b d o fiohandle =>
    cases given
    rw [stored]
    rcases keyed with whole | absent'
    · rw [whole]
      exact absent
    · exact absent'
  | _ => cases given

theorem handlePresent (named : c.named = true) {r : Handle} (inserted : Inserted c s .handles r) : r.handle ≠ none := by
  obtain ⟨name,given,stored,_⟩ := inserted
  cases c with
  | insUpdHandles b d o fiohandle =>
    cases given
    obtain ⟨text,rfl⟩ := Option.isSome_iff_exists.mp named
    simp [stored, cut]
  | _ => cases given

theorem slotFresh (named : c.named = true) (keyed : c.Keyed s) {r : PubAddress} (inserted : Inserted c s .pubAddresses r) :
    (r.chainCode.isSome ∧ r.tokenCode.isSome) ∧
      ∀ r' ∈ (s .pubAddresses).rows, sameSlot r.fkHandleId r.chainCode r.tokenCode r' = false := by
  obtain ⟨handle,chain,token,given,known,chained,tokened,absent⟩ := inserted
  cases c with
  | insUpdPubAddresses b fiohandle chaincode tokencode =>
    cases given
    obtain ⟨some₁,some₂⟩ := Bool.and_eq_true_iff.mp named
    rw [chained, tokened]
    refine ⟨⟨by simpa [cut] using some₁,by simpa [cut] using some₂⟩,?_⟩
    rcases keyed with ⟨whole,whole'⟩ | absent'
    · rw [whole, whole']
      exact absent
    · intro r' mem
      cases owner : r.fkHandleId with
      | none => simp [sameSlot]
      | some k =>
        obtain ⟨h,inRows,rfl,same'⟩ := known k owner
        exact absent' h inRows same' r' mem
  | _ => cases given

theorem handlesSingled (named : c.named = true) (keyed : c.Keyed s) (h : Change c s s') (singled : Singled s) :
    (handleNames s').Nodup ∧ none ∉ handleNames s' := by
  rcases changeColumns h .handles Handle.handle fun r r' same => by simpa [Audited.fixed] using same with
    fewer | ⟨r,inserted,rows⟩
  · exact ⟨singled.handles.sublist fewer,fun mem => singled.handled (fewer.subset mem)⟩
  · have present := handlePresent named inserted
    have absent := handleApart keyed inserted
    have grown : handleNames s' = handleNames s ++ [r.handle] := by
      change (s' .handles).rows.map Handle.handle = _
      rw [show (s' .handles).rows = (s .handles).rows ++ [r] from rows, List.map_append]
      rfl
    rw [grown]
    refine ⟨nodupInsert singled.handles fun listed => ?_,fun mem => ?_⟩
    · obtain ⟨r',mem,same'⟩ := List.mem_map.mp listed
      obtain ⟨name,known⟩ := Option.ne_none_iff_exists'.mp present
      have differ := absent r' mem
      rw [same', known] at differ
      simp at differ
    · rcases List.mem_append.mp mem with old | new
      · exact singled.handled old
      · exact present (List.mem_singleton.mp new).symm

theorem slotsSingled (named : c.named = true) (keyed : c.Keyed s) (h : Change c s s') (singled : Singled s) :
    (ownedSlots s').Nodup ∧ ∀ x ∈ slots s', x.2.1.isSome ∧ x.2.2.isSome := by
  rcases changeColumns h .pubAddresses slot fun r r' same => by simpa [Audited.fixed, slot] using same with
    fewer | ⟨r,inserted,rows⟩
  · exact ⟨singled.addresses.sublist (fewer.filter _),fun x mem => singled.coded x (fewer.subset mem)⟩
  · obtain ⟨codes,absent⟩ := slotFresh named keyed inserted
    have grown : slots s' = slots s ++ [slot r] := by
      change (s' .pubAddresses).rows.map slot = _
      rw [show (s' .pubAddresses).rows = (s .pubAddresses).rows ++ [r] from rows, List.map_append]
      rfl
    refine ⟨?_,fun x mem => ?_⟩
    · unfold ownedSlots
      rw [grown, List.filter_append]
      cases owner : r.fkHandleId with
      | none =>
        have unowned : [slot r].filter (fun x => x.1.isSome) = [] := by simp [slot, owner]
        rw [unowned, List.append_nil]
        exact singled.addresses
      | some id =>
        have owned : [slot r].filter (fun x => x.1.isSome) = [slot r] := by simp [slot, owner]
        rw [owned]
        refine nodupInsert singled.addresses fun listed => ?_
        obtain ⟨r',mem,equal⟩ := List.mem_map.mp (List.mem_filter.mp listed).1
        obtain ⟨chain,chained⟩ := Option.isSome_iff_exists.mp codes.1
        obtain ⟨token,tokened⟩ := Option.isSome_iff_exists.mp codes.2
        have differ := absent r' mem
        simp only [slot, Prod.mk.injEq] at equal
        simp [sameSlot, equal.1, equal.2.1, equal.2.2, owner, chained, tokened] at differ
    · rw [grown] at mem
      rcases List.mem_append.mp mem with old | new
      · exact singled.coded x old
      · rw [List.mem_singleton.mp new]
        exact codes

theorem singledChange (named : c.named = true) (keyed : c.Keyed s) (h : Change c s s') (singled : Singled s) :
    Singled s' :=
  have handles := handlesSingled named keyed h singled
  have addresses := slotsSingled named keyed h singled
  ⟨handles.1,handles.2,addresses.1,addresses.2⟩

theorem insUpdHandlesWrites {server : Server} {b : Option Int} {d o name k w : Option String} {p : Option Bool}
    {t : Option Timestamp} {v : Option Int} (valid : s.Valid)
    (ran : insUpdHandles server b d o name k p t w s = .ok (v,s')) :
    s' = s ∨ Change (.insUpdHandles b d o name k p t w) s s' := by
  rcases guardedOk ran with unmoved | rest
  · exact Or.inl unmoved
  obtain ⟨_,_,owner,rest₁⟩ := bindOk.mp rest
  obtain ⟨_,_,domain,rest₂⟩ := bindOk.mp rest₁
  obtain ⟨found,_,looked,rest₃⟩ := bindOk.mp rest₂
  obtain ⟨_,_,checked,rest₄⟩ := bindOk.mp rest₃
  obtain ⟨_,rfl⟩ := selectIntoOk.mp owner
  obtain ⟨_,rfl⟩ := selectIntoOk.mp domain
  obtain ⟨hit,rfl⟩ := selectIntoOk.mp looked
  obtain ⟨_,rfl⟩ := oneOfOk.mp checked
  cases found with
  | none =>
    obtain ⟨_,_,wrote,last⟩ := bindOk.mp rest₄
    obtain ⟨_,rfl,_⟩ := toIntOk.mp last
    exact Or.inr (insertChange wrote rfl rfl ⟨name,rfl,rfl,chosenNone.mp hit.symm⟩)
  | some row =>
    obtain ⟨_,_,wrote,last⟩ := bindOk.mp rest₄
    obtain ⟨_,rfl,_⟩ := toIntOk.mp last
    obtain ⟨mem,same⟩ := chosenSome hit.symm
    exact Or.inr (updateChange .handles wrote fun r listed found =>
      ⟨rfl,Or.inl rfl,handleKept valid mem same listed found⟩)

theorem insUpdPubAddressesWrites {server : Server} {b : Option Int} {h chain token a : Option String} {v : Option Int}
    (ran : insUpdPubAddresses server b h chain token a s = .ok (v,s')) :
    s' = s ∨ Change (.insUpdPubAddresses b h chain token a) s s' := by
  rcases guardedOk ran with unmoved | rest
  · exact Or.inl unmoved
  obtain ⟨_,_,owner,rest₁⟩ := bindOk.mp rest
  obtain ⟨found,_,looked,rest₂⟩ := bindOk.mp rest₁
  obtain ⟨known,rfl⟩ := handleIdOk owner
  obtain ⟨hit,rfl⟩ := selectIntoOk.mp looked
  cases found with
  | none =>
    obtain ⟨_,_,wrote,last⟩ := bindOk.mp rest₂
    obtain ⟨_,rfl,_⟩ := toIntOk.mp last
    exact Or.inr (insertChange wrote rfl rfl ⟨h,chain,token,rfl,known,rfl,rfl,chosenNone.mp hit.symm⟩)
  | some row =>
    obtain ⟨_,_,wrote,last⟩ := bindOk.mp rest₂
    obtain ⟨_,rfl,_⟩ := toIntOk.mp last
    exact Or.inr (updateChange .pubAddresses wrote fun _ _ _ => ⟨rfl,Or.inl rfl,rfl,rfl,rfl⟩)

theorem singledQuiet (named : c.names = none) (coded : c.codes = none) (h : Changes c s s') (singled : Singled s) :
    Singled s' := by
  induction h with
  | refl => exact singled
  | tail _ last ih =>
    refine singledChange ?_ ?_ last ih
    · cases c <;> first
        | rfl
        | (cases named; done)
        | cases coded
    · cases c <;> first
        | exact True.intro
        | (cases named; done)
        | cases coded

theorem singledCall {server : Server} {v : Option Int} (valid : s.Valid) (named : c.named = true) (keyed : c.Keyed s)
    (ran : c.run server s = .ok (v,s')) (h : Changes c s s') (singled : Singled s) : Singled s' := by
  cases c with
  | insUpdHandles =>
    rcases insUpdHandlesWrites valid ran with rfl | change
    · exact singled
    · exact singledChange named keyed change singled
  | insUpdPubAddresses =>
    rcases insUpdPubAddressesWrites ran with rfl | change
    · exact singled
    · exact singledChange named keyed change singled
  | _ => exact singledQuiet rfl rfl h singled

theorem singledBlock {b : Block} (singled : Singled s) : Singled (s.append .blocks [b]) := by
  have handles : handleNames (s.append .blocks [b]) = handleNames s := by
    unfold handleNames
    rw [blockOther (by decide)]
  have addresses : slots (s.append .blocks [b]) = slots s := by
    unfold slots
    rw [blockOther (by decide)]
  refine ⟨?_,?_,?_,?_⟩
  · rw [handles]
    exact singled.handles
  · rw [handles]
    exact singled.handled
  · rw [ownedSlots, addresses]
    exact singled.addresses
  · rw [addresses]
    exact singled.coded

theorem singledRestored (restored : Restored s' s₀) (singled : Singled s₀) : Singled s' := by
  have handles : handleNames s' = handleNames s₀ := by
    unfold handleNames
    rw [restoredRows restored (a := .handles) rfl fun _ => rfl]
  have addresses : (slots s').Perm (slots s₀) := by
    have perm := restored.addresses.map slot
    rw [List.map_map, List.map_map] at perm
    exact perm
  refine ⟨?_,?_,?_,fun x mem => singled.coded x (addresses.subset mem)⟩
  · rw [handles]
    exact singled.handles
  · rw [handles]
    exact singled.handled
  · exact (addresses.filter _).nodup_iff.mpr singled.addresses

end Singled

theorem namesStayUnique {history : List Event} (order : ChainOrder history)
    (named : ∀ e ∈ history, e.call.named = true) (keyed : Meets (fun n e => e.call.Keyed n.db) history) :
    (((run history).db .handles).rows.map Handle.handle).Nodup ∧
      ((((run history).db .pubAddresses).rows.filter fun r => r.fkHandleId.isSome).map fun r =>
        (r.fkHandleId,r.chainCode,r.tokenCode)).Nodup := by
  have singled : Singled (run history).db := by
    refine (reorgInduction (P := Singled) ?_ ?_ ?_ ?_ ?_ order (meetsBoth (meetsEach named) keyed)).1
    · exact ⟨List.nodup_nil,List.not_mem_nil,List.nodup_nil,fun _ mem => absurd mem List.not_mem_nil⟩
    · exact fun _ _ singled => ⟨singled.handles,singled.handled,singled.addresses,singled.coded⟩
    · exact fun _ _ singled => singledBlock singled
    · exact fun _ _ _ _ _ met standing _ ran changes singled =>
        singledCall standing.kempt.valid met.1 met.2 ran changes singled
    · exact fun _ _ _ _ restored singled => singledRestored restored singled
  have addresses := singled.addresses
  unfold ownedSlots slots at addresses
  rw [List.filter_map] at addresses
  exact ⟨singled.handles,addresses⟩

theorem namesStayUniqueRetransferred :
    (((run (events retransferred)).db .handles).rows.map Handle.handle).Nodup ∧
      ((((run (events retransferred)).db .pubAddresses).rows.filter fun r => r.fkHandleId.isSome).map fun r =>
        (r.fkHandleId,r.chainCode,r.tokenCode)).Nodup :=
  namesStayUnique (by decide +kernel) (by decide) (by decide +kernel)

def overlong : List Call :=
  [.insBlocks (some 1) none (some "b1") none none,
    .insUpdHandles (some 1) none none (some "aliceofthelongesthandlethatanytablecanstorewithoutlosingtext@fio ") none none
      none (some "active"),
    .insUpdHandles (some 1) none none (some "aliceofthelongesthandlethatanytablecanstorewithoutlosingtext@fio ") none none
      none (some "active")]

theorem overlongTwice : ChainOrder (events overlong) ∧ (∀ e ∈ events overlong, e.call.named = true) ∧
    ¬(((run (events overlong)).db .handles).rows.map Handle.handle).Nodup := by
  refine ⟨by decide +kernel,by decide,by decide +kernel⟩

def handleTexts (s : DB) : List String := (s .handles).rows.filterMap Handle.handle

section Texts
variable {c : Call} {s s' : DB}

theorem handleTextsColumn : handleTexts s = ((s .handles).rows.map Handle.handle).filterMap id := by
  rw [List.filterMap_map]
  rfl

theorem handleTextsChange (keyed : c.Keyed s) (h : Change c s s') (nodup : (handleTexts s).Nodup) :
    (handleTexts s').Nodup := by
  rcases changeColumns h .handles Handle.handle fun r r' same => by simpa [Audited.fixed] using same with
    fewer | ⟨r,inserted,rows⟩
  · rw [handleTextsColumn] at nodup ⊢
    exact nodup.sublist (fewer.filterMap id)
  · have grown : handleTexts s' = handleTexts s ++ r.handle.toList := by
      unfold handleTexts
      rw [show (s' .handles).rows = (s .handles).rows ++ [r] from rows, List.filterMap_append]
      cases given : r.handle <;> simp [given]
    rw [grown]
    cases given : r.handle with
    | none => simpa using nodup
    | some name =>
      refine nodupInsert nodup fun listed => ?_
      obtain ⟨r',mem,own⟩ := List.mem_filterMap.mp listed
      have differ := handleApart keyed inserted r' mem
      rw [own, given] at differ
      simp at differ

theorem handleTextsCall {server : Server} {v : Option Int} (valid : s.Valid) (keyed : c.Keyed s)
    (ran : c.run server s = .ok (v,s')) (h : Changes c s s') (nodup : (handleTexts s).Nodup) :
    (handleTexts s').Nodup := by
  by_cases named : ∃ b d o n k p t w, c = .insUpdHandles b d o n k p t w
  · obtain ⟨b,d,o,n,k,p,t,w,rfl⟩ := named
    rcases insUpdHandlesWrites valid ran with rfl | change
    · exact nodup
    · exact handleTextsChange keyed change nodup
  · clear ran keyed
    induction h with
    | refl => exact nodup
    | tail _ last ih =>
      rcases changeColumns last .handles Handle.handle fun r r' same => by simpa [Audited.fixed] using same with
        fewer | ⟨r,⟨name,given,_⟩,_⟩
      · rw [handleTextsColumn] at ih ⊢
        exact ih.sublist (fewer.filterMap id)
      · cases c with
        | insUpdHandles => exact absurd ⟨_,_,_,_,_,_,_,_,rfl⟩ named
        | _ => cases given

theorem handleTextsForked {b : Int} (kempt : Kempt s) (forked : Forked b s s') (nodup : (handleTexts s).Nodup) :
    (handleTexts s').Nodup := by
  have names : ((s .handles).rows.map (Audited.original .handles (some b) (s .handlesAudit).rows)).map Handle.handle =
      (s .handles).rows.map Handle.handle := by
    rw [List.map_map]
    refine List.map_congr_left fun r mem => ?_
    have same : Audited.fixed .handles (Audited.original .handles (some b) (s .handlesAudit).rows r) =
        Audited.fixed .handles r := originalFixed (kempt.fixed .handles rfl) mem
    simpa [Audited.fixed] using same
  rw [handleTextsColumn] at nodup ⊢
  rw [← names] at nodup
  rw [show (s' .handles).rows = _ from forked.kept .handles rfl]
  exact nodup.sublist ((List.filter_sublist.map Handle.handle).filterMap id)

theorem handleTextsRun {history : List Event} (keyed : Meets (fun n e => e.call.Keyed n.db) history) :
    (handleTexts (run history).db).Nodup := by
  refine (anyOrderInduction (P := fun s => (handleTexts s).Nodup) ?_ ?_ ?_ ?_ ?_ keyed).2
  · exact List.nodup_nil
  · exact fun _ _ nodup => nodup
  · intro s b nodup
    unfold handleTexts
    rwa [blockOther (by decide)]
  · exact fun _ _ _ _ _ met kempt ran changes nodup => handleTextsCall kempt.valid met ran changes nodup
  · exact fun _ _ _ kempt _ _ forked nodup => handleTextsForked kempt forked nodup

end Texts

def domainNames (s : DB) : List String := (s .domains).rows.filterMap Domain.domainName

def DomainsUnique (s : DB) : Prop :=
  (domainNames s).Nodup ∧ ∀ (server : Server) (name : Option String),
    chosen (server.takes .domains) .domains (fun r : Domain => same r.domainName name) s =
      ((s .domains).rows.filter fun r => same r.domainName name).getLast?

def Registers (n : Node) (e : Event) : Prop :=
  ∀ name, (e.call.registers.bind fun given => cut 62 given) = some name → name ∉ domainNames n.db

instance (n : Node) (e : Event) : Decidable (Registers n e) :=
  match given : e.call.registers.bind fun given => cut 62 given with
  | some name => decidable_of_iff (name ∉ domainNames n.db)
      ⟨fun h name' same => by cases given.symm.trans same; exact h,fun h => h name given⟩
  | none => isTrue fun name same => by cases given.symm.trans same

section Domains
variable {c : Call} {s s' s₀ : DB} {server : Server}

theorem insDomainsOk {b : Option Int} {name o : Option String} {p : Option Bool} {t : Option Timestamp}
    {w : Option String} {v : Option Int} (ran : insDomains server b name o p t w s = .ok (v,s')) :
    s' = s ∨ ∃ row : Domain, row.domainName = cut 62 name ∧ s' = s.append .domains [row] := by
  rcases guardedOk ran with unmoved | rest
  · exact Or.inl unmoved
  · obtain ⟨_,m₁,owner,rest₁⟩ := bindOk.mp rest
    obtain ⟨status,m₂,checked,rest₂⟩ := bindOk.mp rest₁
    obtain ⟨_,m₃,inserted,last⟩ := bindOk.mp rest₂
    obtain ⟨_,rfl⟩ := selectIntoOk.mp owner
    obtain ⟨_,rfl⟩ := oneOfOk.mp checked
    obtain ⟨_,rfl,_⟩ := toIntOk.mp last
    obtain ⟨_,target,_⟩ := insertIntoOk.mp inserted
    exact Or.inr ⟨_,rfl,target⟩

theorem domainNamesColumn : domainNames s = ((s .domains).rows.map Domain.domainName).filterMap id := by
  rw [List.filterMap_map]
  rfl

theorem domainNamesChange (quiet : c.registers = none) (h : Change c s s') :
    (domainNames s').Sublist (domainNames s) := by
  rcases changeColumns h .domains Domain.domainName fun r r' same => by simpa [Audited.fixed] using same
    with fewer | ⟨r,given,_⟩
  · rw [domainNamesColumn, domainNamesColumn]
    exact fewer.filterMap id
  · obtain ⟨name,registers,_⟩ := given
    rw [quiet] at registers
    cases registers

theorem domainNamesChanges (quiet : c.registers = none) (h : Changes c s s') :
    (domainNames s').Sublist (domainNames s) := by
  induction h with
  | refl => exact List.Sublist.refl _
  | tail _ last ih => exact (domainNamesChange quiet last).trans ih

theorem registered {name : String} {row : Domain} (fresh : name ∉ domainNames s) (given : row.domainName = some name)
    (nodup : (domainNames s).Nodup) : (domainNames (s.append .domains [row])).Nodup := by
  have grown : domainNames (s.append .domains [row]) = domainNames s ++ [name] := by
    unfold domainNames
    rw [Database.appendSame, List.filterMap_append]
    simp [given]
  rw [grown]
  exact nodupInsert nodup fresh

theorem lookupsAgree (nodup : (domainNames s).Nodup) : DomainsUnique s := by
  refine ⟨nodup,fun server name => ?_⟩
  unfold chosen
  cases hits : (s .domains).rows.filter fun r => same r.domainName name with
  | nil => rfl
  | cons r rest =>
    cases rest with
    | nil => simp [Nat.mod_one]
    | cons r' rest =>
      have fewer : (((s .domains).rows.filter fun r => same r.domainName name).filterMap Domain.domainName).Nodup :=
        nodup.sublist (List.filter_sublist.filterMap _)
      have named : ∀ r'' ∈ r :: r' :: rest, ∃ x, r''.domainName = some x ∧ name = some x := by
        intro r'' mem
        rw [← hits] at mem
        exact sameTrue.mp (List.mem_filter.mp mem).2
      obtain ⟨x,own,given⟩ := named r List.mem_cons_self
      obtain ⟨x',own',given'⟩ := named r' (List.mem_cons_of_mem _ List.mem_cons_self)
      cases given.symm.trans given'
      rw [hits] at fewer
      simp [own, own'] at fewer

end Domains

theorem domainsStayUnique {history : List Event} (order : ChainOrder history) (fresh : Meets Registers history) :
    DomainsUnique (run history).db := by
  refine lookupsAgree (reorgInduction (P := fun s => (domainNames s).Nodup) List.nodup_nil (fun _ _ nodup => nodup)
    ?_ ?_ ?_ order fresh).1
  · intro s b nodup
    unfold domainNames
    rw [blockOther (by decide)]
    exact nodup
  · intro n e s' v ordinary met _ atHead ran changes nodup
    cases kind : e.call with
    | insDomains b name o p t w =>
      rw [kind] at ran
      rcases insDomainsOk ran with unmoved | ⟨row,named,target⟩
      · exact unmoved ▸ nodup
      · subst target
        cases given : cut 62 name with
        | none =>
          unfold domainNames at nodup ⊢
          rw [Database.appendSame, List.filterMap_append]
          simpa [named, given] using nodup
        | some x => exact registered (met x (by rw [kind]; exact given)) (named.trans given) nodup
    | _ =>
      refine nodup.sublist (domainNamesChanges ?_ changes)
      rw [kind]
      rfl
  · intro s' s₀ _ _ restored nodup
    unfold domainNames
    rw [restoredRows restored (a := .domains) rfl fun _ => rfl]
    exact nodup

theorem domainsStayUniqueTransferred : DomainsUnique (run (events transferred)).db :=
  domainsStayUnique (by decide +kernel) (by decide +kernel)

def reregistered : List Call :=
  [.insBlocks (some 1) none (some "b1") none none,
    .insUpdAccounts (some 1) (some "alice") (some "k1") none none,
    .insDomains (some 1) (some "fio") (some "alice") (some false) (some 9) (some "active"),
    .updDomainBurnt (some "fio"),
    .insBlocks (some 2) none (some "b2") none none,
    .insDomains (some 2) (some "fio") (some "alice") (some false) (some 19) (some "active")]

theorem reregisteredTwice : ChainOrder (events reregistered) ∧ ¬DomainsUnique (run (events reregistered)).db ∧
    ¬(domainNames (run (events reregistered)).db).Nodup ∧
    (chosen (leastServer.takes .domains) .domains (fun r : Domain => same r.domainName (some "fio"))
      (run (events reregistered)).db).map (fun r => r.domainStatus.text) = some "burnt" := by
  have twice : ¬(domainNames (run (events reregistered)).db).Nodup := by decide +kernel
  exact ⟨by decide +kernel,fun unique => twice unique.1,twice,by decide +kernel⟩

def Answers (server : Server) (s : DB) (fiohandle chaincode tokencode pubaddress : String) (held : Prop) : Prop :=
  ∃ v, existsPubAddress server (some fiohandle) (some chaincode) (some tokencode) (some pubaddress) s = .ok (some v,s) ∧
    (held → v = 1) ∧ (¬held → v = 0)

theorem existsPubAddressRaises (server : Server) (s : DB) (fiohandle chaincode tokencode pubaddress : String) (held : Prop) :
    existsPubAddress server (some fiohandle) (some chaincode) (some tokencode) (some pubaddress) s =
      .error (.undefinedColumn "pk_pub_addresses_id_id") ∧
    ¬Answers server s fiohandle chaincode tokencode pubaddress held := by
  have raises : existsPubAddress server (some fiohandle) (some chaincode) (some tokencode) (some pubaddress) s =
      .error (.undefinedColumn "pk_pub_addresses_id_id") := rfl
  refine ⟨raises,fun ⟨v,answered,_⟩ => ?_⟩
  rw [raises] at answered
  cases answered

theorem heldAddressRaises :
    (((run (events (transferred.take 6))).db .pubAddresses).rows.map fun r =>
      (slot r,r.pubAddress)) = [((some 1,some "ETH",some "ETH"),some "0x1")] ∧
    ¬Answers leastServer (run (events (transferred.take 6))).db "alice@fio" "ETH" "ETH" "0x1" True := by
  refine ⟨by decide +kernel,?_⟩
  rintro ⟨_,answered,_⟩
  cases answered

end FioRelic
