import Mathlib.Data.List.Basic
import Mathlib.Tactic

/-!
# Runs of a labelled step function

A run is the list of labels of its steps.  `Guarded` says that every step of a run
was taken in a state where a side condition held; an invariant that each such step
preserves holds in the state the run ends in.
-/

namespace Manticore

variable {σ ι : Type*}

/-- The state after the steps `ls`. -/
def run (step : σ → ι → σ) (s : σ) (ls : List ι) : σ := ls.foldl step s

@[simp] theorem run_nil (step : σ → ι → σ) (s : σ) : run step s [] = s := rfl

@[simp] theorem run_cons (step : σ → ι → σ) (s : σ) (l : ι) (ls : List ι) :
    run step s (l :: ls) = run step (step s l) ls := rfl

theorem run_append (step : σ → ι → σ) (s : σ) (ls ls' : List ι) :
    run step s (ls ++ ls') = run step (run step s ls) ls' :=
  List.foldl_append

/-- Every step of the run `ls` from `s` is taken in a state that meets `ok`. -/
def Guarded (step : σ → ι → σ) (ok : σ → ι → Prop) : σ → List ι → Prop
  | _, [] => True
  | s, l :: ls => ok s l ∧ Guarded step ok (step s l) ls

instance decidableGuarded (step : σ → ι → σ) (ok : σ → ι → Prop)
    [∀ s l, Decidable (ok s l)] : ∀ s ls, Decidable (Guarded step ok s ls)
  | _, [] => isTrue trivial
  | s, l :: ls =>
      have := decidableGuarded step ok (step s l) ls
      inferInstanceAs (Decidable (_ ∧ _))

theorem Guarded.of_append {step : σ → ι → σ} {ok : σ → ι → Prop} :
    ∀ {ls ls' : List ι} {s : σ}, Guarded step ok s (ls ++ ls') → Guarded step ok s ls
  | [], _, _, _ => trivial
  | _ :: _, _, _, h => ⟨h.1, h.2.of_append⟩

/-- The second part of a guarded run is guarded from where the first one ends. -/
theorem Guarded.rest {step : σ → ι → σ} {ok : σ → ι → Prop} :
    ∀ {ls ls' : List ι} {s : σ}, Guarded step ok s (ls ++ ls') → Guarded step ok (run step s ls) ls'
  | [], _, _, h => h
  | _ :: _, _, _, h => h.2.rest

theorem guarded_concat {step : σ → ι → σ} {ok : σ → ι → Prop} {l : ι} :
    ∀ {ls : List ι} {s : σ}, Guarded step ok s ls → ok (run step s ls) l →
      Guarded step ok s (ls ++ [l])
  | [], _, _, hl => ⟨hl, trivial⟩
  | _ :: _, _, h, hl => ⟨h.1, guarded_concat h.2 hl⟩

/-- A condition that follows from the guard wherever an invariant holds. -/
theorem guarded_of_inv {step : σ → ι → σ} {ok ok' : σ → ι → Prop} {P : σ → Prop}
    (himp : ∀ s l, P s → ok s l → ok' s l) (hstep : ∀ s l, P s → ok s l → P (step s l)) :
    ∀ {ls : List ι} {s : σ}, P s → Guarded step ok s ls → Guarded step ok' s ls
  | [], _, _, _ => trivial
  | l :: _, s, hs, ⟨hl, hls⟩ =>
      ⟨himp s l hs hl, guarded_of_inv himp hstep (hstep s l hs hl) hls⟩

/-- **Invariant rule.** What every guarded step preserves, every guarded run
preserves. -/
theorem run_invariant_of_guarded {step : σ → ι → σ} {ok : σ → ι → Prop}
    {P : σ → Prop} (hstep : ∀ s l, ok s l → P s → P (step s l)) :
    ∀ {ls : List ι} {s : σ}, Guarded step ok s ls → P s → P (run step s ls)
  | [], _, _, hs => hs
  | l :: ls, s, hg, hs => by
      rw [run_cons]
      exact run_invariant_of_guarded hstep hg.2 (hstep s l hg.1 hs)

/-- **Invariant rule**, unguarded. -/
theorem run_invariant {step : σ → ι → σ} {P : σ → Prop}
    (hstep : ∀ s l, P s → P (step s l)) :
    ∀ {ls : List ι} {s : σ}, P s → P (run step s ls)
  | [], _, hs => hs
  | l :: ls, s, hs => by
      rw [run_cons]
      exact run_invariant hstep (hstep s l hs)

/-- **Simulation rule.** Two systems that take the same labels stay related, if every step that the
second one may take keeps them related. -/
theorem run_simulation {τ : Type*} {step : σ → ι → σ} {step' : τ → ι → τ} {ok : τ → ι → Prop}
    {R : σ → τ → Prop} (hstep : ∀ s t l, ok t l → R s t → R (step s l) (step' t l)) :
    ∀ {ls : List ι} {s : σ} {t : τ}, Guarded step' ok t ls → R s t →
      R (run step s ls) (run step' t ls)
  | [], _, _, _, hst => hst
  | l :: ls, s, t, hg, hst => by
      rw [run_cons, run_cons]
      exact run_simulation hstep hg.2 (hstep s t l hg.1 hst)

/-! ## Partial steps -/

/-- Every step of the run `ls` from `s` meets `ok`, as far as the run gets. -/
def GuardedM (step : σ → ι → Option σ) (ok : σ → ι → Prop) : σ → List ι → Prop
  | _, [] => True
  | s, l :: ls => ok s l ∧ ∀ s', step s l = some s' → GuardedM step ok s' ls

/-- **Invariant rule** for steps that may fail: a step that is taken where the invariant holds and the
side condition is met does not fail, and keeps the invariant. -/
theorem foldlM_invariant_of_guarded {step : σ → ι → Option σ} {ok : σ → ι → Prop} {P : σ → Prop}
    (hstep : ∀ s l, ok s l → P s → ∃ s', step s l = some s' ∧ P s') :
    ∀ {ls : List ι} {s : σ}, GuardedM step ok s ls → P s → ∃ s', ls.foldlM step s = some s' ∧ P s'
  | [], s, _, hs => ⟨s, rfl, hs⟩
  | l :: ls, s, hg, hs => by
      obtain ⟨s₁, hs₁, hP⟩ := hstep s l hg.1 hs
      rw [List.foldlM_cons, hs₁]
      exact foldlM_invariant_of_guarded hstep (hg.2 s₁ hs₁) hP

/-! ## Steps that can fail -/

theorem some_pair_inj {α β : Type*} {a a' : α} {b b' : β} (h : some (a, b) = some (a', b')) :
    a = a' ∧ b = b' :=
  Prod.mk.inj (Option.some.inj h)

theorem some_triple_inj {α β γ : Type*} {a a' : α} {b b' : β} {c c' : γ}
    (h : some (a, b, c) = some (a', b', c')) : a = a' ∧ b = b' ∧ c = c' :=
  (some_pair_inj h).imp_right Prod.mk.inj

theorem exists_of_bind_eq_ok {ε α β : Type} {x : Except ε α} {f : α → Except ε β} {r : β}
    (h : x.bind f = .ok r) : ∃ a, x = .ok a ∧ f a = .ok r := by
  cases x with
  | error e => cases h
  | ok a => exact ⟨a, rfl, h⟩

theorem exists_of_map_eq_ok {ε α β : Type} {x : Except ε α} {f : α → β} {r : β}
    (h : x.map f = .ok r) : ∃ a, x = .ok a ∧ f a = r := by
  cases x with
  | error e => cases h
  | ok a => exact ⟨a, rfl, Except.ok.inj h⟩

end Manticore
