import FioRelic.Relational.Frames

/-! Locality: what a procedure does to the tables it touches depends on those tables only.
One rule for each construct; the constraints are checked on the whole database, so a write
has to touch the tables that its rows refer to. Two procedures neither of which writes what
the other touches can change places. Nothing here names a schema. -/
namespace FioRelic.Relational
variable {τ : Type} {S : Schema τ} {α β : Type}

structure Alike (ts : List τ) (s m : Database S) : Prop where
  tables : ∀ t ∈ ts, m t = s t
  valid : s.Valid
  valid' : m.Valid

namespace Alike
variable {ts ts' : List τ} {s m : Database S}

theorem symm (alike : Alike ts s m) : Alike ts m s :=
  ⟨fun t mem => (alike.tables t mem).symm,alike.valid',alike.valid⟩

variable [DecidableEq τ]

theorem write {t : τ} {table : Table (S.Row t)} (alike : Alike ts s m) (listed : t ∈ ts)
    (parents : ∀ ref ∈ S.references t, ref.parent ∈ ts)
    (held : (∀ k ∈ s.keys t, k ∈ table.rows.map (S.key t)) ∨ ∀ u, ∀ ref ∈ S.references u, ref.parent ≠ t)
    (valid : (s.put t table).Valid) : Alike ts (s.put t table) (m.put t table) := by
  have tables : ∀ u ∈ ts, m.put t table u = s.put t table u := by
    intro u mem
    by_cases own : u = t
    · subst own
      rw [Database.putSame, Database.putSame]
    · rw [Database.putOther _ own, Database.putOther _ own]
      exact alike.tables u mem
  have written : m.put t table t = s.put t table t := tables t listed
  refine ⟨tables,valid,⟨fun u _ r row => ?_,fun u _ => ?_,fun u _ ref mem r row => ?_⟩⟩
  · by_cases own : u = t
    · subst own
      rw [written] at row
      exact valid.fits row
    · rw [Database.putOther _ own] at row
      exact alike.valid'.fits row
  · by_cases own : u = t
    · subst own
      have distinct := valid.distinct u (S.complete u)
      unfold Database.keys at distinct ⊢
      rw [written]
      exact distinct
    · have distinct := alike.valid'.distinct u (S.complete u)
      unfold Database.keys at distinct ⊢
      rw [Database.putOther _ own]
      exact distinct
  · by_cases own : u = t
    · subst own
      rw [written] at row
      have refers := valid.resolves mem row
      cases found : ref.column r with
      | none => trivial
      | some k =>
        rw [found] at refers
        change k ∈ (m.put u table ref.parent).rows.map (S.key ref.parent)
        rw [tables ref.parent (parents ref mem)]
        exact refers
    · rw [Database.putOther _ own] at row
      have refers := alike.valid'.resolves mem row
      cases found : ref.column r with
      | none => trivial
      | some k =>
        rw [found] at refers
        change k ∈ (m.put t table ref.parent).rows.map (S.key ref.parent)
        by_cases parent : ref.parent = t
        · have grown := held.resolve_right fun none => none u ref mem parent
          have old : k ∈ (m ref.parent).rows.map (S.key ref.parent) := refers
          subst parent
          rw [alike.tables _ listed] at old
          rw [Database.putSame]
          exact grown k old
        · rw [Database.putOther _ parent]
          exact refers

end Alike

def Local (ts : List τ) (x : Proc S α) : Prop :=
  ∀ s m, Alike ts s m → ∀ v s', x s = .ok (v,s') → ∃ m', x m = .ok (v,m') ∧ Alike ts s' m'

namespace Local
variable {ts : List τ}

theorem pure {a : α} : Local ts (pure a : Proc S α) := by
  intro s m alike v s' ran
  obtain ⟨rfl,rfl⟩ := pureOk.mp ran
  exact ⟨m,pureOk.mpr ⟨rfl,rfl⟩,alike⟩

theorem throw {e : Error} : Local ts (throw e : Proc S α) := fun _ _ _ _ _ ran => absurd ran throwOk

theorem raise {e : Error} {f : α → Proc S β} : Local ts (MonadExcept.throw e >>= f) :=
  fun _ _ _ _ _ ran => absurd ran raiseOk

theorem bind {x : Proc S α} {f : α → Proc S β} (first : Local ts x) (rest : ∀ a, Local ts (f a)) :
    Local ts (x >>= f) := by
  intro s m alike v s' ran
  obtain ⟨a,middle,ran,later⟩ := bindOk.mp ran
  obtain ⟨middle',ran',alike'⟩ := first s m alike a middle ran
  obtain ⟨m',later',alike''⟩ := rest a middle middle' alike' v s' later
  exact ⟨m',bindOk.mpr ⟨a,middle',ran',later'⟩,alike''⟩

theorem ite {c : Prop} [Decidable c] {x y : Proc S α} (yes : Local ts x) (no : Local ts y) :
    Local ts (if c then x else y) := by
  by_cases h : c
  · rwa [if_pos h]
  · rwa [if_neg h]

theorem guarded {b : Option Int} {k : α} {x : Proc S α} (later : Local ts x) :
    Local ts (if below b (some 0) then return k else x) := ite pure later

theorem read {f : Database S → α} (reads : ∀ s m, (∀ t ∈ ts, m t = s t) → f m = f s) :
    Local ts (do let s ← get; return f s : Proc S α) := by
  intro s m alike v s' ran
  have body : (Pure.pure (f s) : Proc S α) s = .ok (v,s') := ran
  obtain ⟨rfl,rfl⟩ := pureOk.mp body
  have again : (Pure.pure (f m) : Proc S α) m = .ok (f s',m) := pureOk.mpr ⟨(reads s' m alike.tables).symm,rfl⟩
  exact ⟨m,again,alike⟩

theorem select {takes : τ → List Int → Nat} {t : τ} {p : S.Row t → Bool} (listed : t ∈ ts) :
    Local ts (selectInto takes t p) := by
  refine read fun s m same => ?_
  unfold chosen
  rw [same t listed]

theorem blind {x : Proc S α} (same : ∀ s v s', x s = .ok (v,s') → s' = s ∧ ∀ m, x m = .ok (v,m)) : Local ts x := by
  intro s m alike v s' ran
  obtain ⟨rfl,again⟩ := same s v s' ran
  exact ⟨m,again m,alike⟩

theorem oneOf {allowed : List String} {text : Option String} : Local ts (oneOf allowed text : Proc S (OneOf allowed)) :=
  blind fun _ _ _ ran => ⟨(oneOfOk.mp ran).2,fun _ => oneOfOk.mpr ⟨(oneOfOk.mp ran).1,rfl⟩⟩

theorem forM {ρ : Type} {f : ρ → Proc S Unit} {xs : List ρ} (each : ∀ x, Local ts (f x)) : Local ts (xs.forM f) := by
  induction xs with
  | nil => exact pure
  | cons x rest ih => exact bind (each x) fun _ => ih

section Writes
variable [DecidableEq τ] {t : τ} (listed : t ∈ ts) (parents : ∀ ref ∈ S.references t, ref.parent ∈ ts)
include listed parents

theorem insert {row : Int → S.Row t} : Local ts (insertInto t row) := by
  intro s m alike v s' ran
  obtain ⟨rfl,rfl,valid⟩ := insertIntoOk.mp ran
  have same := alike.tables t listed
  have written := alike.write listed parents (Or.inl fun k mem => ?_) valid
  · have appended : m.append t [row (s t).next] = m.put t ⟨(s t).rows ++ [row (s t).next],(s t).next + 1⟩ := by
      unfold Database.append
      rw [same]
      rfl
    refine ⟨m.append t [row (s t).next],insertIntoOk.mpr ⟨by rw [same],by rw [same],?_⟩,?_⟩
    · rw [appended]
      exact written.valid'
    · rw [appended]
      exact written
  · rw [List.map_append]
    exact List.mem_append_left _ mem

theorem withRows {rows : List (S.Row t)} {s m : Database S} (alike : Alike ts s m)
    (held : (∀ k ∈ s.keys t, k ∈ rows.map (S.key t)) ∨ ∀ u, ∀ ref ∈ S.references u, ref.parent ≠ t)
    (valid : (s.withRows t rows).Valid) : Alike ts (s.withRows t rows) (m.withRows t rows) := by
  have written := alike.write listed parents held valid
  have next : m.withRows t rows = m.put t ⟨rows,(s t).next⟩ := by
    unfold Database.withRows
    rw [alike.tables t listed]
  rw [next]
  exact written

theorem updateWhere {trigger : (t : τ) → S.Row t → S.Row t → Proc S Unit} {p : S.Row t → Bool}
    {assign : S.Row t → S.Row t} (keyed : ∀ r, S.key t (assign r) = S.key t r)
    (fires : ∀ old new, Local ts (trigger t old new)) : Local ts (updateWhere trigger t p assign) := by
  intro s m alike v s' ran
  obtain ⟨valid,fired⟩ := updateWhereOk.mp ran
  have written := withRows listed parents alike (Or.inl fun k mem => ?_) valid
  · obtain ⟨m',fired',alike'⟩ := forM (fun old => fires old (assign old)) _ _ written v s' fired
    refine ⟨m',updateWhereOk.mpr ?_,alike'⟩
    rw [alike.tables t listed]
    exact ⟨written.valid',fired'⟩
  · obtain ⟨r,stored,rfl⟩ := List.mem_map.mp mem
    refine List.mem_map.mpr ⟨if p r then assign r else r,List.mem_map_of_mem stored,?_⟩
    split
    · exact keyed r
    · rfl

theorem deleteWhere {trigger : (t : τ) → S.Row t → Proc S Unit} {p : S.Row t → Bool}
    (free : ∀ u, ∀ ref ∈ S.references u, ref.parent ≠ t) (fires : ∀ old, Local ts (trigger t old)) :
    Local ts (deleteWhere trigger t p) := by
  intro s m alike v s' ran
  obtain ⟨valid,fired⟩ := deleteWhereOk.mp ran
  have written := withRows listed parents alike (Or.inr free) valid
  obtain ⟨m',fired',alike'⟩ := forM fires _ _ written v s' fired
  refine ⟨m',deleteWhereOk.mpr ?_,alike'⟩
  rw [alike.tables t listed]
  exact ⟨written.valid',fired'⟩

end Writes
end Local

theorem Local.raises {ts : List τ} {x : Proc S α} (loc : Local ts x) {s m : Database S} {e : Error}
    (alike : Alike ts s m) (raised : x s = .error e) : ∃ e', x m = .error e' := by
  cases ran : x m with
  | error e' => exact ⟨e',rfl⟩
  | ok result =>
    obtain ⟨_,again,_⟩ := loc m s alike.symm result.1 result.2 ran
    rw [raised] at again
    cases again

/- What is left, also where a procedure raises: the keys that it drew are lost. -/
def after (lost : τ → Nat) (x : Proc S α) (s : Database S) : Database S := match x s with
  | .ok result => result.2
  | .error _ => s.skip lost

section After
variable {ts ws : List τ} {x : Proc S α} {lost : τ → Nat} {s m : Database S}

theorem afterValid (loc : Local ts x) (valid : s.Valid) : (after lost x s).Valid := by
  unfold after
  cases ran : x s with
  | error e => exact valid.skip lost
  | ok result =>
    obtain ⟨_,_,alike⟩ := loc s s ⟨fun _ _ => rfl,valid,valid⟩ result.1 result.2 ran
    exact alike.valid

theorem afterFrames (frames : Frames ws x) (none : ∀ t, t ∉ ws → lost t = 0) {t : τ} (outside : t ∉ ws) :
    after lost x s t = s t := by
  unfold after
  cases ran : x s with
  | ok result => exact frames s result.1 result.2 ran t outside
  | error e =>
    change (⟨_,_ + (lost t : Int)⟩ : Table (S.Row t)) = _
    rw [none t outside]
    exact congrArg (Table.mk _) (Int.add_zero _)

theorem afterAlike (loc : Local ts x) (alike : Alike ts s m) {t : τ} (listed : t ∈ ts) :
    after lost x m t = after lost x s t := by
  unfold after
  cases ran : x s with
  | ok result =>
    obtain ⟨m',again,left⟩ := loc s m alike result.1 result.2 ran
    rw [again]
    exact left.tables t listed
  | error e =>
    obtain ⟨e',raised⟩ := loc.raises alike ran
    rw [raised]
    change (⟨(m t).rows,_⟩ : Table (S.Row t)) = ⟨(s t).rows,_⟩
    rw [alike.tables t listed]

end After

section Exchange
variable {ts ts' : List τ} {x : Proc S α} {y : Proc S β} {ws ws' : List τ} {lost lost' : τ → Nat}

theorem besideAlike {s : Database S} (loc : Local ts x) (frames : Frames ws x) (none : ∀ t, t ∉ ws → lost t = 0)
    (valid : s.Valid) (apart : ∀ t ∈ ws, t ∉ ts') : Alike ts' s (after lost x s) :=
  ⟨fun t mem => afterFrames frames none fun written => apart t written mem,valid,afterValid loc valid⟩

theorem exchange (frames : Frames ws x) (frames' : Frames ws' y) (loc : Local ts x) (loc' : Local ts' y)
    (within : ∀ t ∈ ws, t ∈ ts) (within' : ∀ t ∈ ws', t ∈ ts') (apart : ∀ t ∈ ws, t ∉ ts')
    (apart' : ∀ t ∈ ws', t ∉ ts) (none : ∀ t, t ∉ ws → lost t = 0) (none' : ∀ t, t ∉ ws' → lost' t = 0)
    {s : Database S} (valid : s.Valid) : after lost' y (after lost x s) = after lost x (after lost' y s) := by
  have right : Alike ts s (after lost' y s) := besideAlike loc' frames' none' valid apart'
  have left : Alike ts' s (after lost x s) := besideAlike loc frames none valid apart
  funext t
  by_cases mine : t ∈ ws
  · rw [afterAlike loc right (within t mine)]
    exact afterFrames frames' none' fun written => apart' t written (within t mine)
  · by_cases other : t ∈ ws'
    · rw [afterAlike loc' left (within' t other)]
      exact (afterFrames frames none mine).symm
    · rw [afterFrames frames' none' other, afterFrames frames none mine, afterFrames frames none mine,
        afterFrames frames' none' other]

end Exchange
end FioRelic.Relational
