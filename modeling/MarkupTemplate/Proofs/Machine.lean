/-
Runs of a machine, which a function takes from one state to the next until
there is no step left.  What every step keeps, every run keeps, and all runs
from a state are on the way to the same last one.
-/
import Mathlib.Data.Option.Basic

namespace MarkupTemplate.Machine

universe u

variable {σ : Type u}

/-- The state that a number of steps lead to, if there are so many. -/
def steps (step : σ → Option σ) : Nat → σ → Option σ
  | 0, s => some s
  | n + 1, s => (step s).bind (steps step n)

/-- Some number of steps leads from one state to another. -/
def Reaches (step : σ → Option σ) (s t : σ) : Prop :=
  ∃ n, steps step n s = some t

variable {step : σ → Option σ} {s t u : σ}

theorem steps_add (m n : Nat) (s : σ) :
    steps step (m + n) s = (steps step m s).bind (steps step n) := by
  induction m generalizing s with
  | zero => simp [steps]
  | succ m ih =>
      rw [Nat.succ_add, steps, steps, Option.bind_assoc]
      congr 1
      funext t
      exact ih t

/-- One step more. -/
theorem steps_succ {n : Nat} (h : steps step n s = some t) :
    steps step (n + 1) s = step t := by
  rw [steps_add, h, Option.bind_some, steps]
  simp [steps]

namespace Reaches

theorem refl : Reaches step s s := ⟨0, rfl⟩

theorem trans (hst : Reaches step s t) (htu : Reaches step t u) :
    Reaches step s u := by
  obtain ⟨m, hm⟩ := hst
  obtain ⟨n, hn⟩ := htu
  exact ⟨m + n, by rw [steps_add, hm, Option.bind_some, hn]⟩

theorem of_step (h : step s = some t) : Reaches step s t :=
  ⟨1, by simp [steps, h]⟩

theorem tail (hst : Reaches step s t) (h : step t = some u) :
    Reaches step s u :=
  hst.trans (of_step h)

/-- A run is followed step by step from its first state on. -/
@[elab_as_elim]
theorem follow {motive : ∀ t, Reaches step s t → Prop}
    (refl : motive s .refl)
    (tail : ∀ {t u} (h : Reaches step s t) (hlast : step t = some u),
      motive t h → motive u (h.tail hlast))
    {t : σ} (h : Reaches step s t) : motive t h := by
  obtain ⟨n, hn⟩ := h
  induction n generalizing t with
  | zero =>
      obtain rfl := Option.some.inj hn
      exact refl
  | succ n ih =>
      rw [steps_add] at hn
      obtain ⟨u, hu, hlast⟩ := Option.bind_eq_some_iff.mp hn
      exact tail ⟨n, hu⟩ (by simpa [steps] using hlast) (ih hu)

/-- What every step keeps, every run keeps. -/
theorem invariant {P : σ → Prop} (hstep : ∀ s t, P s → step s = some t → P t)
    (h : Reaches step s t) (hs : P s) : P t := by
  induction h using follow with
  | refl => exact hs
  | tail _ hlast ih => exact hstep _ _ ih hlast

/-- Whatever is reached is on the way to the state in which the machine
stops. -/
theorem of_last (hs : Reaches step u s) (ht : Reaches step u t)
    (hlast : step t = none) : Reaches step s t := by
  obtain ⟨m, hm⟩ := hs
  obtain ⟨n, hn⟩ := ht
  rcases Nat.le_total m n with hle | hle
  · obtain ⟨k, rfl⟩ := Nat.exists_eq_add_of_le hle
    rw [steps_add, hm, Option.bind_some] at hn
    exact ⟨k, hn⟩
  · obtain ⟨k, rfl⟩ := Nat.exists_eq_add_of_le hle
    rw [steps_add, hn, Option.bind_some] at hm
    cases k with
    | zero => exact Option.some.inj hm ▸ .refl
    | succ k => simp [steps, hlast] at hm

end Reaches

end MarkupTemplate.Machine
