import FioRelic.Relational.Keeps

/-! Frames: the tables outside a list are left as they are, rows and identity, whatever a
procedure starts on. One rule for each construct. Nothing here names a schema. -/
namespace FioRelic.Relational
variable {τ : Type} {S : Schema τ} {α β : Type}

def Frames (ts : List τ) (x : Proc S α) : Prop := ∀ s v s', x s = .ok (v,s') → ∀ t, t ∉ ts → s' t = s t

namespace Frames
variable {ts : List τ}

theorem reads {x : Proc S α} (read : ∀ s, Reads s x) : Frames ts x := by
  intro s v s' ran t _
  rw [read s v s' ran]

theorem pure {a : α} : Frames ts (pure a : Proc S α) := reads fun _ => Reads.pure

theorem throw {e : Error} : Frames ts (throw e : Proc S α) := fun _ _ _ ran => absurd ran throwOk

theorem raise {e : Error} {f : α → Proc S β} : Frames ts (MonadExcept.throw e >>= f) :=
  fun _ _ _ ran => absurd ran raiseOk

theorem bind {x : Proc S α} {f : α → Proc S β} (first : Frames ts x) (rest : ∀ a, Frames ts (f a)) :
    Frames ts (x >>= f) := by
  intro s v s' ran t outside
  obtain ⟨a,m,ran,later⟩ := bindOk.mp ran
  rw [rest a m v s' later t outside, first s a m ran t outside]

theorem ite {c : Prop} [Decidable c] {x y : Proc S α} (yes : Frames ts x) (no : Frames ts y) :
    Frames ts (if c then x else y) := by
  by_cases h : c
  · rwa [if_pos h]
  · rwa [if_neg h]

theorem guarded {b : Option Int} {k : α} {x : Proc S α} (later : Frames ts x) :
    Frames ts (if below b (some 0) then return k else x) := ite pure later

theorem select {takes : τ → List Int → Nat} {t : τ} {p : S.Row t → Bool} : Frames ts (selectInto takes t p) :=
  reads fun _ => Reads.select

theorem oneOf {allowed : List String} {text : Option String} : Frames ts (oneOf allowed text : Proc S (OneOf allowed)) :=
  reads fun _ => Reads.oneOf

theorem insert [DecidableEq τ] {t : τ} (listed : t ∈ ts) {row : Int → S.Row t} : Frames ts (insertInto t row) := by
  intro s v s' ran u outside
  obtain ⟨_,rfl,_⟩ := insertIntoOk.mp ran
  have other : u ≠ t := fun same => outside (same ▸ listed)
  exact Database.appendOther _ other _

end Frames
end FioRelic.Relational
