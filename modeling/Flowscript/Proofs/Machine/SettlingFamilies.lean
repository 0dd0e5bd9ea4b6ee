import Mathlib.Order.Filter.Basic
import Flowscript.Proofs.Machine.OutcomeLogic

/-! # Families of computations that settle

A computation that depends on an index, such as the depth to which calls may nest, settles along a
filter when from some index on its outcome is the same. Along the greatest filter that means that
all members of the family do the same, so that two computations which agree are a special case.
-/
namespace Flowscript

open Filter

variable {ι ρ ε σ α β : Type}

/-- Along the filter the computations come to have one outcome, and what holds of it. -/
def Settles (l : Filter ι) (x : ι → ReaderT ρ (EStateM ε σ) α) (r : ρ) (s : σ) (Q : α → σ → Prop)
    (E : ε → σ → Prop) : Prop :=
  ∃ y : ReaderT ρ (EStateM ε σ) α, (∀ᶠ i in l, x i r s = y r s) ∧ Ensures y r s Q E

def either (x y : α) : Bool → α
  | true => x
  | false => y

namespace Settles

variable {l : Filter ι} {r : ρ} {s : σ} {Q Q' : α → σ → Prop} {E E' : ε → σ → Prop}

theorem mono {x : ι → ReaderT ρ (EStateM ε σ) α} (h : Settles l x r s Q E)
    (hQ : ∀ a s, Q a s → Q' a s) (hE : ∀ e s, E e s → E' e s) : Settles l x r s Q' E' := by
  obtain ⟨y, hy, hQE⟩ := h
  exact ⟨y, hy, hQE.mono hQ hE⟩

theorem const {x : ReaderT ρ (EStateM ε σ) α} (h : Ensures x r s Q E) :
    Settles l (fun _ => x) r s Q E := ⟨x, .of_forall fun _ => rfl, h⟩

theorem ensures [l.NeBot] {x : ReaderT ρ (EStateM ε σ) α} (h : Settles l (fun _ => x) r s Q E) :
    Ensures x r s Q E := by
  obtain ⟨y, hy, hQE⟩ := h
  have hxy : x r s = y r s := eventually_const.mp hy
  unfold Ensures
  rw [hxy]
  exact hQE

theorem congr {x y : ι → ReaderT ρ (EStateM ε σ) α} (h : Settles l x r s Q E)
    (hxy : ∀ᶠ i in l, y i r s = x i r s) : Settles l y r s Q E := by
  obtain ⟨z, hz, hQE⟩ := h
  refine ⟨z, ?_, hQE⟩
  filter_upwards [hxy, hz] with i hi hi'
  exact hi.trans hi'

theorem bind {x : ι → ReaderT ρ (EStateM ε σ) β} {f : ι → β → ReaderT ρ (EStateM ε σ) α}
    {P : β → σ → Prop} (hx : Settles l x r s P E)
    (hf : ∀ b t, P b t → Settles l (fun i => f i b) r t Q E) :
    Settles l (fun i => x i >>= f i) r s Q E := by
  obtain ⟨y, hy, hP⟩ := hx
  cases h : y r s with
  | ok b t =>
    obtain ⟨z, hz, hQ⟩ := hf b t (hP.ok h)
    refine ⟨fun _ _ => z r t, ?_, hQ⟩
    filter_upwards [hy, hz] with i hi hi'
    exact (bind_of_ok (hi.trans h)).trans hi'
  | error e t =>
    refine ⟨fun _ _ => .error e t, ?_, hP.error h⟩
    filter_upwards [hy] with i hi
    exact bind_of_error (hi.trans h)

/-- Computations whose outcomes depend on the outcomes of others settle with them. -/
theorem of_congr {ρ' δ τ : Type} [l.NeBot] {x : ι → ReaderT ρ (EStateM ε σ) α}
    {y : ι → ReaderT ρ' (EStateM δ τ) β} {r' : ρ'} {s' : τ} {Q' : β → τ → Prop} {E' : δ → τ → Prop}
    (h : Settles l x r s Q E) (hxy : ∀ i j, x i r s = x j r s → y i r' s' = y j r' s')
    (hy : ∀ i, Ensures (x i) r s Q E → Ensures (y i) r' s' Q' E') : Settles l y r' s' Q' E' := by
  obtain ⟨z, hz, hQE⟩ := h
  obtain ⟨i, hi⟩ := hz.exists
  refine ⟨y i, ?_, hy i ?_⟩
  · filter_upwards [hz] with j hj
    exact hxy j i (hj.trans hi.symm)
  · unfold Ensures
    rw [hi]
    exact hQE

theorem agree_iff {x y : ReaderT ρ (EStateM ε σ) α} :
    Settles ⊤ (either x y) r s Q E ↔ Agree x y r s Q E := by
  constructor
  · rintro ⟨z, hz, hQE⟩
    rw [eventually_top] at hz
    have hx : x r s = z r s := hz true
    refine ⟨hx.trans (hz false).symm, ?_⟩
    unfold Ensures
    rw [hx]
    exact hQE
  · rintro ⟨hxy, hQE⟩
    refine ⟨x, ?_, hQE⟩
    rw [eventually_top, Bool.forall_bool]
    exact ⟨hxy.symm, rfl⟩

variable [l.NeBot]

section Exec

variable {δ : Type} {w : Context} {m : Machine}

theorem exec_mapError {f : ε → δ} {x : ι → Exec ε α} {Q : α → Machine → Prop}
    {E : δ → Machine → Prop} (h : Settles l x w m Q fun e => E (f e)) :
    Settles l (fun i => Exec.mapError f (x i)) w m Q E := by
  refine h.of_congr (fun i j hij => ?_) fun _ => Ensures.exec_mapError_iff.mpr
  simp only [Exec.mapError, hij]

theorem exec_attempt {x : ι → Exec ε α} {Q : Except ε α → Machine → Prop} {E : δ → Machine → Prop}
    (h : Settles l x w m (fun a => Q (.ok a)) fun e => Q (.error e)) :
    Settles l (fun i => Exec.attempt (x i)) w m Q E := by
  refine h.of_congr (fun i j hij => ?_) fun _ => Ensures.exec_attempt_iff.mpr
  simp only [Exec.attempt, hij]

end Exec

section Run

variable {sc : Scope} {a : Activation} {Q : α → Activation → Prop}
  {E : ScriptError → Activation → Prop}

theorem run_lift {f : ε → ScriptError} {x : ι → Exec ε α}
    (h : Settles l x sc.context a.machine (fun r m => Q r ⟨a.frame, m⟩)
      fun e m => E (f e) ⟨a.frame, m⟩) :
    Settles l (fun i => Run.lift f (x i)) sc a Q E := by
  refine h.of_congr (fun i j hij => ?_) fun _ => Ensures.run_lift_iff.mpr
  simp only [Run.lift, hij]

theorem run_liftTotal {x : ι → Exec Empty α}
    (h : Settles l x sc.context a.machine (fun r m => Q r ⟨a.frame, m⟩) fun _ _ => True) :
    Settles l (fun i => Run.liftTotal (x i)) sc a Q E := by
  refine h.of_congr (fun i j hij => ?_) fun _ => Ensures.run_liftTotal_iff.mpr
  simp only [Run.liftTotal, hij]

theorem run_andFinally {x : ι → Run α} {after : Exec Empty Unit}
    (h : Settles l x sc a
      (fun r b => Ensures after sc.context b.machine (fun _ m => Q r ⟨b.frame, m⟩) fun _ _ => True)
      fun e b =>
        Ensures after sc.context b.machine (fun _ m => E e ⟨b.frame, m⟩) fun _ _ => True) :
    Settles l (fun i => (x i).andFinally after) sc a Q E := by
  refine h.of_congr (fun i j hij => ?_) fun _ => Ensures.run_andFinally_iff.mpr
  simp only [Run.andFinally, hij]

theorem run_mapError {f : ScriptError → ScriptError} {x : ι → Run α}
    (h : Settles l x sc a Q fun e => E (f e)) : Settles l (fun i => (x i).mapError f) sc a Q E := by
  refine h.of_congr (fun i j hij => ?_) fun _ => Ensures.run_mapError_iff.mpr
  simp only [Run.mapError, hij]

theorem run_attempt {x : ι → Run α} {Q : Except ScriptError α → Activation → Prop}
    (h : Settles l x sc a (fun r => Q (.ok r)) fun e => Q (.error e)) :
    Settles l (fun i => (x i).attempt) sc a Q E := by
  refine h.of_congr (fun i j hij => ?_) fun _ => Ensures.run_attempt_iff.mpr
  simp only [Run.attempt, hij]

end Run

end Settles

end Flowscript
