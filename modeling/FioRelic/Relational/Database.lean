import Mathlib.Data.List.Basic
import Mathlib.Data.List.Nodup
import Mathlib.Logic.Function.Basic
import FioRelic.Relational.Null

/-! Relational tables with identity keys and immediate constraints. A statement
commits only if the constraints hold of the database after it; a procedure that
raises leaves no trace of its statements, but the keys it drew stay drawn. Nothing here
names a schema. -/
namespace FioRelic.Relational

/- misfit: a text that is too long for its column, or a sequence at its end. -/
inductive Error where
  | misfit
  | uniqueViolation
  | foreignKeyViolation
  | notNullViolation
  | checkViolation
  | outOfRange
  | invalidText
  | undefinedColumn (name : String)
  | raised (message : String)
  deriving DecidableEq, Repr

structure Reference (τ ρ : Type) where
  column : ρ → Option Int
  parent : τ

structure Varchar (ρ : Type) where
  width : Nat
  column : ρ → Option String

structure Schema (τ : Type) where
  Row : τ → Type
  decideRow : (t : τ) → DecidableEq (Row t)
  key : (t : τ) → Row t → Int
  serial : τ → Bool
  varchars : (t : τ) → List (Varchar (Row t))
  unique : (t : τ) → List (Row t → Option String)
  references : (t : τ) → List (Reference τ (Row t))
  tables : List τ
  complete : ∀ t, t ∈ tables

instance {τ : Type} (S : Schema τ) (t : τ) : DecidableEq (S.Row t) := S.decideRow t

def Schema.fits {τ : Type} (S : Schema τ) (t : τ) (r : S.Row t) : Bool :=
  fitsBigint (S.key t r) && (S.varchars t).all fun c => fitsWidth c.width (c.column r)

theorem fitsIff {τ : Type} {S : Schema τ} {t : τ} {r : S.Row t} : S.fits t r = true ↔
    fitsBigint (S.key t r) = true ∧ ∀ c ∈ S.varchars t, fitsWidth c.width (c.column r) = true := by
  simp [Schema.fits]

structure Table (ρ : Type) where
  rows : List ρ
  next : Int
  deriving DecidableEq, Repr

abbrev Database {τ : Type} (S : Schema τ) := (t : τ) → Table (S.Row t)

namespace Database
variable {τ : Type} {S : Schema τ}

def empty (S : Schema τ) : Database S := fun _ => ⟨[],1⟩

def keys (s : Database S) (t : τ) : List Int := (s t).rows.map (S.key t)

def Fitting (s : Database S) : Prop := ∀ t ∈ S.tables, ∀ r ∈ (s t).rows, S.fits t r = true

def Distinct (s : Database S) : Prop :=
  ∀ t ∈ S.tables, (s.keys t).Nodup ∧ ∀ column ∈ S.unique t, ((s t).rows.filterMap column).Nodup

def Resolves (s : Database S) (parent : τ) : Option Int → Prop
  | none => True
  | some k => k ∈ s.keys parent

def Referential (s : Database S) : Prop :=
  ∀ t ∈ S.tables, ∀ ref ∈ S.references t, ∀ r ∈ (s t).rows, s.Resolves ref.parent (ref.column r)

instance (s : Database S) : Decidable s.Fitting := by unfold Fitting; infer_instance

instance (s : Database S) : Decidable s.Distinct := by unfold Distinct; infer_instance

instance (s : Database S) (parent : τ) : (k : Option Int) → Decidable (s.Resolves parent k)
  | none => isTrue trivial
  | some k => inferInstanceAs (Decidable (k ∈ s.keys parent))

instance (s : Database S) : Decidable s.Referential := by unfold Referential; infer_instance

structure Valid (s : Database S) : Prop where
  fitting : s.Fitting
  distinct : s.Distinct
  referential : s.Referential

theorem Valid.fits {s : Database S} (h : s.Valid) {t : τ} {r : S.Row t} (row : r ∈ (s t).rows) : S.fits t r = true :=
  h.fitting t (S.complete t) r row

theorem Valid.fitsColumn {s : Database S} (h : s.Valid) {t : τ} {c} (mem : c ∈ S.varchars t) {r : S.Row t}
    (row : r ∈ (s t).rows) : fitsWidth c.width (c.column r) = true := (fitsIff.mp (h.fits row)).2 c mem

theorem Valid.keysNodup {s : Database S} (h : s.Valid) (t : τ) : (s.keys t).Nodup :=
  (h.distinct t (S.complete t)).1

theorem Valid.uniqueNodup {s : Database S} (h : s.Valid) {t : τ} {column} (mem : column ∈ S.unique t) :
    ((s t).rows.filterMap column).Nodup := (h.distinct t (S.complete t)).2 column mem

theorem Valid.resolves {s : Database S} (h : s.Valid) {t : τ} {ref} (mem : ref ∈ S.references t)
    {r} (row : r ∈ (s t).rows) : s.Resolves ref.parent (ref.column r) :=
  h.referential t (S.complete t) ref mem r row

theorem Valid.parentRow {s : Database S} (h : s.Valid) {t : τ} {ref} (mem : ref ∈ S.references t)
    {r} (row : r ∈ (s t).rows) {k : Int} (refers : ref.column r = some k) :
    ∃ p ∈ (s ref.parent).rows, S.key ref.parent p = k := by
  have found := h.resolves mem row
  rw [refers] at found
  exact List.mem_map.mp found

theorem Valid.sameRow {s : Database S} (h : s.Valid) {t : τ} {r r' : S.Row t} (mem : r ∈ (s t).rows)
    (mem' : r' ∈ (s t).rows) (same : S.key t r = S.key t r') : r = r' :=
  List.inj_on_of_nodup_map (h.keysNodup t) mem mem' same

theorem emptyValid (S : Schema τ) : (empty S).Valid where
  fitting := fun _ _ r row => by simp [empty] at row
  distinct := fun _ _ => ⟨List.nodup_nil,fun _ _ => List.nodup_nil⟩
  referential := fun _ _ _ _ r row => by simp [empty] at row

def Serial (s : Database S) : Prop :=
  ∀ t, S.serial t = true → (s.keys t).Pairwise (· < ·) ∧ ∀ k ∈ s.keys t, k < (s t).next

theorem emptySerial (S : Schema τ) : (empty S).Serial := fun t _ => by simp [empty, keys]

def skip (s : Database S) (lost : τ → Nat) : Database S := fun t => ⟨(s t).rows,(s t).next + lost t⟩

@[simp] theorem skipRows (s : Database S) (lost : τ → Nat) (t : τ) : (s.skip lost t).rows = (s t).rows := rfl

@[simp] theorem skipKeys (s : Database S) (lost : τ → Nat) (t : τ) : (s.skip lost).keys t = s.keys t := rfl

theorem skipNothing (s : Database S) : s.skip (fun _ => 0) = s := by
  funext t
  simp [skip]

theorem skipNext (s : Database S) (lost : τ → Nat) (t : τ) : (s t).next ≤ (s.skip lost t).next := by
  change (s t).next ≤ (s t).next + lost t
  omega

theorem Valid.skip {s : Database S} (h : s.Valid) (lost : τ → Nat) : (s.skip lost).Valid :=
  ⟨h.fitting,h.distinct,h.referential⟩

theorem Serial.skip {s : Database S} (h : s.Serial) (lost : τ → Nat) : (s.skip lost).Serial := by
  intro t serial
  obtain ⟨sorted,bounded⟩ := h t serial
  exact ⟨sorted,fun k mem => Int.lt_of_lt_of_le (bounded k mem) (skipNext s lost t)⟩

variable [DecidableEq τ]

def put (s : Database S) (t : τ) (table : Table (S.Row t)) : Database S := Function.update s t table

def withRows (s : Database S) (t : τ) (rows : List (S.Row t)) : Database S :=
  s.put t ⟨rows,(s t).next⟩

def append (s : Database S) (t : τ) (rows : List (S.Row t)) : Database S :=
  s.put t ⟨(s t).rows ++ rows,(s t).next + rows.length⟩

@[simp] theorem putSame (s : Database S) (t : τ) (table : Table (S.Row t)) : s.put t table t = table :=
  Function.update_self ..

@[simp] theorem putOther (s : Database S) {t u : τ} (h : u ≠ t) (table : Table (S.Row t)) :
    s.put t table u = s u := Function.update_of_ne h ..

@[simp] theorem withRowsSame (s : Database S) (t : τ) (rows : List (S.Row t)) :
    s.withRows t rows t = ⟨rows,(s t).next⟩ := putSame ..

@[simp] theorem withRowsOther (s : Database S) {t u : τ} (h : u ≠ t) (rows : List (S.Row t)) :
    s.withRows t rows u = s u := putOther _ h _

@[simp] theorem appendSame (s : Database S) (t : τ) (rows : List (S.Row t)) :
    s.append t rows t = ⟨(s t).rows ++ rows,(s t).next + rows.length⟩ := putSame ..

@[simp] theorem appendOther (s : Database S) {t u : τ} (h : u ≠ t) (rows : List (S.Row t)) :
    s.append t rows u = s u := putOther _ h _

theorem putSelf (s : Database S) (t : τ) : s.put t (s t) = s := Function.update_eq_self ..

theorem appendNil (s : Database S) (t : τ) : s.append t [] = s := by
  simp only [append, List.append_nil, List.length_nil, Int.natCast_zero, Int.add_zero]
  exact putSelf s t

theorem appendAppend (s : Database S) (t : τ) (xs ys : List (S.Row t)) :
    (s.append t xs).append t ys = s.append t (xs ++ ys) := by
  funext u
  by_cases h : u = t
  · subst h; simp [Int.add_assoc]
  · simp [h]

theorem Serial.append {s : Database S} (h : s.Serial) (t : τ) {rows : List (S.Row t)}
    (drawn : ∀ (i : Nat) r, rows[i]? = some r → S.key t r = (s t).next + i) :
    (s.append t rows).Serial := by
  intro u serial
  by_cases same : u = t
  · subst same
    obtain ⟨sorted,bounded⟩ := h u serial
    have keyAt : ∀ k ∈ rows.map (S.key u), ∃ i : Nat, i < rows.length ∧ k = (s u).next + i := by
      intro k mem
      obtain ⟨r,hr,rfl⟩ := List.mem_map.mp mem
      obtain ⟨i,hi,rfl⟩ := List.mem_iff_getElem.mp hr
      exact ⟨i,hi,drawn i _ (List.getElem?_eq_getElem hi)⟩
    have ascending : (rows.map (S.key u)).Pairwise (· < ·) := by
      rw [List.pairwise_iff_getElem]
      intro i j hi hj lt
      simp only [List.length_map] at hi hj
      simp only [List.getElem_map]
      rw [drawn i _ (List.getElem?_eq_getElem hi), drawn j _ (List.getElem?_eq_getElem hj)]
      omega
    simp only [keys, appendSame, List.map_append] at bounded ⊢
    refine ⟨List.pairwise_append.mpr ⟨sorted,ascending,?_⟩,?_⟩
    · intro k old k' new
      obtain ⟨i,_,rfl⟩ := keyAt k' new
      have := bounded k old
      omega
    · intro k mem
      rcases List.mem_append.mp mem with old | new
      · have := bounded k old; omega
      · obtain ⟨i,hi,rfl⟩ := keyAt k new; omega
  · simpa only [keys, appendOther s same] using h u serial

theorem Serial.withRows {s : Database S} (h : s.Serial) (t : τ) {rows : List (S.Row t)}
    (kept : (rows.map (S.key t)).Sublist (s.keys t)) : (s.withRows t rows).Serial := by
  intro u serial
  by_cases same : u = t
  · subst same
    obtain ⟨sorted,bounded⟩ := h u serial
    simp only [keys, withRowsSame] at *
    exact ⟨sorted.sublist kept,fun k mem => bounded k (kept.subset mem)⟩
  · simpa only [keys, withRowsOther s same] using h u serial

end Database

abbrev Proc {τ : Type} (S : Schema τ) (α : Type) := StateT (Database S) (Except Error) α

section Statements
variable {τ : Type} {S : Schema τ} {α β : Type}

theorem bindOk {x : Proc S α} {f : α → Proc S β} {s s' : Database S} {b : β} :
    (x >>= f) s = .ok (b,s') ↔ ∃ a middle, x s = .ok (a,middle) ∧ f a middle = .ok (b,s') := by
  change (x s >>= fun p => f p.1 p.2) = .ok (b,s') ↔ _
  cases h : x s with
  | error e => simp [bind, Except.bind]
  | ok p => simp [bind, Except.bind, Prod.ext_iff]

theorem pureOk {a b : α} {s s' : Database S} :
    (pure a : Proc S α) s = .ok (b,s') ↔ b = a ∧ s' = s := by
  change (Except.ok (a,s) : Except Error (α × Database S)) = .ok (b,s') ↔ _
  simp [eq_comm]

theorem throwOk {e : Error} {b : α} {s s' : Database S} : (throw e : Proc S α) s ≠ .ok (b,s') := by
  intro h
  cases h

theorem raiseOk {e : Error} {f : α → Proc S β} {b : β} {s s' : Database S} : (throw e >>= f : Proc S β) s ≠ .ok (b,s') := by
  intro h
  obtain ⟨_,_,raised,_⟩ := bindOk.mp h
  exact throwOk raised

theorem getOk {s s' a : Database S} : (get : Proc S _) s = .ok (a,s') ↔ a = s ∧ s' = s := by
  change (Except.ok (s,s) : Except Error (Database S × Database S)) = .ok (a,s') ↔ _
  simp [eq_comm]

theorem readOk {rest : Database S → Proc S α} {a : α} {s s' : Database S} :
    (get >>= rest : Proc S α) s = .ok (a,s') ↔ rest s s = .ok (a,s') := by
  rw [bindOk]
  constructor
  · rintro ⟨opened,_,read,ran⟩
    obtain ⟨rfl,rfl⟩ := getOk.mp read
    exact ran
  · exact fun ran => ⟨s,s,getOk.mpr ⟨rfl,rfl⟩,ran⟩

/- SELECT INTO takes one matching row. Which one is not specified when several
match, so the position is asked of `takes`, given the keys in key order. -/
def chosen (takes : List Int → Nat) (t : τ) (p : S.Row t → Bool) (s : Database S) : Option (S.Row t) :=
  let hits := (s t).rows.filter p
  hits[takes (hits.map (S.key t)) % hits.length]?

def selectInto (takes : τ → List Int → Nat) (t : τ) (p : S.Row t → Bool) : Proc S (Option (S.Row t)) := do
  let s ← get
  return chosen (takes t) t p s

theorem selectIntoOk {takes : τ → List Int → Nat} {t : τ} {p : S.Row t → Bool} {s s' : Database S}
    {r : Option (S.Row t)} :
    selectInto takes t p s = .ok (r,s') ↔ r = chosen (takes t) t p s ∧ s' = s := by
  unfold selectInto
  rw [readOk, pureOk]

theorem chosenSome {takes : List Int → Nat} {t : τ} {p : S.Row t → Bool} {s : Database S} {r : S.Row t}
    (h : chosen takes t p s = some r) : r ∈ (s t).rows ∧ p r = true :=
  List.mem_filter.mp (List.mem_of_getElem? h)

theorem chosenNone {takes : List Int → Nat} {t : τ} {p : S.Row t → Bool} {s : Database S} :
    chosen takes t p s = none ↔ ∀ r ∈ (s t).rows, p r = false := by
  unfold chosen
  rw [List.getElem?_eq_none_iff]
  constructor
  · intro short r mem
    by_contra hit
    have inHits : r ∈ (s t).rows.filter p := List.mem_filter.mpr ⟨mem,by simpa using hit⟩
    have := Nat.mod_lt (takes (((s t).rows.filter p).map (S.key t))) (List.length_pos_of_mem inHits)
    omega
  · intro none
    have nothing : (s t).rows.filter p = [] := List.filter_eq_nil_iff.mpr fun r mem => by simp [none r mem]
    simp [nothing]

theorem chosenMapped {takes : List Int → Nat} {t : τ} {p : S.Row t → Bool} {f : S.Row t → S.Row t} {s s' : Database S}
    (rows : (s' t).rows = (s t).rows.map f) (keyed : ∀ r, S.key t (f r) = S.key t r) (alike : ∀ r, p (f r) = p r) :
    chosen takes t p s' = (chosen takes t p s).map f := by
  have hits : (s' t).rows.filter p = ((s t).rows.filter p).map f := by
    rw [rows, List.filter_map, show p ∘ f = p from funext alike]
  have keys : (((s t).rows.filter p).map f).map (S.key t) = ((s t).rows.filter p).map (S.key t) := by
    rw [List.map_map]
    exact List.map_congr_left fun r _ => keyed r
  unfold chosen
  simp only [hits, keys, List.length_map, List.getElem?_map]

/- A text column with NOT NULL and CHECK (column IN (..)): a value outside the list
cannot be stored, and a statement that tries raises. -/
structure OneOf (allowed : List String) where
  text : String
  member : text ∈ allowed
  deriving DecidableEq, Repr

def oneOf (allowed : List String) (text : Option String) : Proc S (OneOf allowed) := match text with
  | none => throw .notNullViolation
  | some t => if member : t ∈ allowed then return ⟨t,member⟩ else throw .checkViolation

theorem oneOfOk {allowed : List String} {text : Option String} {value : OneOf allowed} {s s' : Database S} :
    oneOf allowed text s = .ok (value,s') ↔ text = some value.text ∧ s' = s := by
  cases text with
  | none => exact ⟨fun h => absurd h throwOk,fun h => by simp at h⟩
  | some t =>
    by_cases member : t ∈ allowed
    · simp only [oneOf, dif_pos member]
      rw [pureOk, Option.some.injEq]
      exact ⟨fun ⟨e,r⟩ => ⟨by rw [e],r⟩,fun ⟨e,r⟩ => ⟨by cases value; cases e; rfl,r⟩⟩
    · simp only [oneOf, dif_neg member]
      refine ⟨fun h => absurd h throwOk,fun h => ?_⟩
      cases h.1
      exact absurd value.member member

def commit (target : Database S) : Proc S Unit :=
  if target.Fitting then
    if target.Distinct then
      if target.Referential then set target else throw .foreignKeyViolation
    else throw .uniqueViolation
  else throw .misfit

theorem commitOk {target s s' : Database S} {u : Unit} :
    commit target s = .ok (u,s') ↔ s' = target ∧ target.Valid := by
  unfold commit
  by_cases fitting : target.Fitting
  · by_cases distinct : target.Distinct
    · by_cases referential : target.Referential
      · simp only [if_pos fitting, if_pos distinct, if_pos referential]
        change (Except.ok ((),target) : Except Error (Unit × Database S)) = .ok (u,s') ↔ _
        simp [eq_comm, Database.Valid.mk fitting distinct referential]
      · simp only [if_pos fitting, if_pos distinct, if_neg referential]
        exact ⟨fun h => absurd h throwOk,fun h => absurd h.2.referential referential⟩
    · simp only [if_pos fitting, if_neg distinct]
      exact ⟨fun h => absurd h throwOk,fun h => absurd h.2.distinct distinct⟩
  · simp only [if_neg fitting]
    exact ⟨fun h => absurd h throwOk,fun h => absurd h.2.fitting fitting⟩

theorem writeOk {α : Type} {target : Database S → Database S} {rest : Database S → Proc S α} {s s' : Database S} {a : α} :
    (do let s ← get; commit (target s); rest s : Proc S α) s = .ok (a,s') ↔
      (target s).Valid ∧ rest s (target s) = .ok (a,s') := by
  rw [readOk, bindOk]
  constructor
  · rintro ⟨_,_,committed,ran⟩
    obtain ⟨rfl,valid⟩ := commitOk.mp committed
    exact ⟨valid,ran⟩
  · exact fun ⟨valid,ran⟩ => ⟨(),_,commitOk.mpr ⟨rfl,valid⟩,ran⟩

variable [DecidableEq τ]

/- INSERT with a DEFAULT identity key, RETURNING the key. Past the last bigint the
sequence has no next value, and the key fits no column. -/
def insertInto (t : τ) (row : Int → S.Row t) : Proc S Int := do
  let s ← get
  let key := (s t).next
  commit (s.append t [row key])
  return key

theorem insertIntoOk {t : τ} {row : Int → S.Row t} {s s' : Database S} {k : Int} :
    insertInto t row s = .ok (k,s') ↔
      k = (s t).next ∧ s' = s.append t [row (s t).next] ∧ s'.Valid := by
  unfold insertInto
  rw [writeOk, pureOk]
  constructor
  · rintro ⟨valid,rfl,rfl⟩
    exact ⟨rfl,rfl,valid⟩
  · rintro ⟨rfl,rfl,valid⟩
    exact ⟨valid,rfl,rfl⟩

/- UPDATE, then the AFTER ROW trigger for each row that is distinct from its old value. -/
def updateWhere (trigger : (t : τ) → S.Row t → S.Row t → Proc S Unit) (t : τ)
    (p : S.Row t → Bool) (assign : S.Row t → S.Row t) : Proc S Unit := do
  let s ← get
  commit (s.withRows t ((s t).rows.map fun r => if p r then assign r else r))
  ((s t).rows.filter fun r => p r && decide (r ≠ assign r)).forM fun old => trigger t old (assign old)

theorem updateWhereOk {trigger : (t : τ) → S.Row t → S.Row t → Proc S Unit} {t : τ}
    {p : S.Row t → Bool} {assign : S.Row t → S.Row t} {s s' : Database S} {u : Unit} :
    updateWhere trigger t p assign s = .ok (u,s') ↔
      (s.withRows t ((s t).rows.map fun r => if p r then assign r else r)).Valid ∧
      (((s t).rows.filter fun r => p r && decide (r ≠ assign r)).forM fun old =>
        trigger t old (assign old)) (s.withRows t ((s t).rows.map fun r => if p r then assign r else r))
          = .ok (u,s') := by
  unfold updateWhere
  exact writeOk

/- DELETE, then the AFTER ROW trigger for each removed row. -/
def deleteWhere (trigger : (t : τ) → S.Row t → Proc S Unit) (t : τ) (p : S.Row t → Bool) : Proc S Unit := do
  let s ← get
  commit (s.withRows t ((s t).rows.filter fun r => !p r))
  ((s t).rows.filter p).forM (trigger t)

theorem deleteWhereOk {trigger : (t : τ) → S.Row t → Proc S Unit} {t : τ} {p : S.Row t → Bool}
    {s s' : Database S} {u : Unit} :
    deleteWhere trigger t p s = .ok (u,s') ↔
      (s.withRows t ((s t).rows.filter fun r => !p r)).Valid ∧
      ((s t).rows.filter p).forM (trigger t) (s.withRows t ((s t).rows.filter fun r => !p r)) = .ok (u,s') := by
  unfold deleteWhere
  exact writeOk

end Statements
end FioRelic.Relational
