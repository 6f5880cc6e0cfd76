import Mathlib.Data.List.Basic

/-! Runs of a partial step function: what each step keeps, a whole run keeps. Nothing here
names a program. -/
namespace FioRelic.Relational
variable {σ α : Type} (step : σ → α → Option σ)

def Along (P : σ → α → Prop) (s : σ) : List α → Prop
  | [] => True
  | a :: rest => ∀ s', step s a = some s' → P s a ∧ Along P s' rest

def Throughout (Q : σ → Prop) (s : σ) (run : List α) : Prop :=
  ∀ sofar s', sofar <+: run → sofar.foldlM step s = some s' → Q s'

variable {step} {P P' : σ → α → Prop} {Q : σ → Prop} {s s' : σ} {a : α} {run : List α}

theorem foldlMCons : (a :: run).foldlM step s = some s' ↔ ∃ next, step s a = some next ∧ run.foldlM step next = some s' := by
  rw [List.foldlM_cons]
  exact Option.bind_eq_some_iff

theorem runPreserves (Inv : σ → Prop) (keeps : ∀ {s a s'}, Inv s → P s a → step s a = some s' → Inv s')
    (start : Inv s) (along : Along step P s run) (ran : run.foldlM step s = some s') : Inv s' := by
  induction run generalizing s with
  | nil =>
    simp only [List.foldlM_nil, pure, Option.some.injEq] at ran
    exact ran ▸ start
  | cons a rest ih =>
    obtain ⟨next,stepped,later⟩ := foldlMCons.mp ran
    obtain ⟨condition,along⟩ := along next stepped
    exact ih (keeps start condition stepped) along later

instance Along.decidable [∀ s a, Decidable (P s a)] : ∀ (s : σ) (run : List α), Decidable (Along step P s run)
  | _, [] => .isTrue trivial
  | s, a :: rest => match stepped : step s a with
    | none => .isTrue fun s' ok => by simp [stepped] at ok
    | some s' =>
      have := Along.decidable s' rest
      decidable_of_iff (P s a ∧ Along step P s' rest) (by simp [Along, stepped])

theorem Along.and (left : Along step P s run) (right : Along step P' s run) :
    Along step (fun s a => P s a ∧ P' s a) s run := by
  induction run generalizing s with
  | nil => trivial
  | cons a rest ih =>
    intro s' stepped
    have l := left s' stepped
    have r := right s' stepped
    exact ⟨⟨l.1,r.1⟩,ih l.2 r.2⟩

theorem Along.always (always : ∀ s a, P s a) : Along step P s run := by
  induction run generalizing s with
  | nil => trivial
  | cons a rest ih => exact fun s' _ => ⟨always s a,ih⟩

theorem Along.each {P : α → Prop} (each : ∀ a ∈ run, P a) : Along step (fun _ a => P a) s run := by
  induction run generalizing s with
  | nil => trivial
  | cons a rest ih =>
    exact fun s' _ => ⟨each a List.mem_cons_self,ih fun a' mem => each a' (List.mem_cons_of_mem _ mem)⟩

theorem throughoutCons :
    Throughout step Q s (a :: run) ↔ Q s ∧ ∀ s', step s a = some s' → Throughout step Q s' run := by
  constructor
  · intro throughout
    refine ⟨throughout [] s (List.nil_prefix) rfl,?_⟩
    intro s' stepped sofar t before ran
    refine throughout (a :: sofar) t ((List.cons_prefix_cons).mpr ⟨rfl,before⟩) ?_
    simpa [List.foldlM_cons, stepped] using ran
  · rintro ⟨now,later⟩ sofar t before ran
    cases sofar with
    | nil =>
      simp only [List.foldlM_nil, pure, Option.some.injEq] at ran
      exact ran ▸ now
    | cons b rest =>
      obtain ⟨rfl,tail⟩ := (List.cons_prefix_cons).mp before
      obtain ⟨next,stepped,ran⟩ := foldlMCons.mp ran
      exact later next stepped rest t tail ran

theorem throughoutIff (Inv : σ → Prop) (holds : ∀ {s}, Inv s → Q s)
    (keeps : ∀ {s a s'}, Inv s → P s a → step s a = some s' → Inv s')
    (leaves : ∀ {s a s'}, Inv s → ¬ P s a → step s a = some s' → ¬ Q s') (start : Inv s) :
    Throughout step Q s run ↔ Along step P s run := by
  induction run generalizing s with
  | nil =>
    refine ⟨fun _ => trivial,?_⟩
    intro _ sofar t before ran
    rw [List.prefix_nil.mp before] at ran
    simp only [List.foldlM_nil, pure, Option.some.injEq] at ran
    exact ran ▸ holds start
  | cons a rest ih =>
    rw [throughoutCons]
    constructor
    · rintro ⟨_,later⟩ s' stepped
      have condition : P s a := by
        by_contra off
        exact leaves start off stepped (later s' stepped [] s' (List.nil_prefix) rfl)
      exact ⟨condition,(ih (keeps start condition stepped)).mp (later s' stepped)⟩
    · intro along
      refine ⟨holds start,fun s' stepped => ?_⟩
      obtain ⟨condition,later⟩ := along s' stepped
      exact (ih (keeps start condition stepped)).mpr later

end FioRelic.Relational
