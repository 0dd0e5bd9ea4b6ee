import Mathlib.Data.List.Induction
import Flowscript.Proofs.Loading.MirroredLoading
import Flowscript.Proofs.Machine.AcceptedArguments

/-! # Choosing overloads

A function stands for its shape, the types and forms of its parameters and result, and its signature is
a hash of that. Of the overloads under a key the one is chosen that accepts the arguments with the most
exact forms, the first of these if there are several.
-/
namespace Flowscript

section Latest

variable {α β γ : Type} [DecidableEq β] [DecidableEq γ] {key : α → β} {l : List α} {a : α}

/-- What remains of a list whose later entries replace earlier ones with the same key. -/
def latest (key : α → β) : List α → List α
  | [] => []
  | a :: rest => if rest.any fun b => key b = key a then latest key rest else a :: latest key rest

theorem latest_concat (key : α → β) (l : List α) (a : α) :
    latest key (l ++ [a]) = (latest key l).filter (key · ≠ key a) ++ [a] := by
  induction l with
  | nil => simp [latest]
  | cons b l ih =>
    rw [List.cons_append, latest, latest, List.any_append, ih]
    by_cases hl : (l.any fun c => key c = key b) = true
    · rw [hl, Bool.true_or, if_pos rfl, if_pos rfl]
    · by_cases ha : key a = key b
      · simp [hl, ha]
      · simp [hl, ha, Ne.symm ha]

theorem mem_of_mem_latest (h : a ∈ latest key l) : a ∈ l := by
  induction l with
  | nil => exact h
  | cons b l ih =>
    rw [latest] at h
    split at h
    · exact List.mem_cons_of_mem b (ih h)
    · exact (List.mem_cons.mp h).elim (fun h => h ▸ List.mem_cons_self) fun h =>
        List.mem_cons_of_mem b (ih h)

theorem exists_mem_latest (key : α → β) (h : a ∈ l) : ∃ b ∈ latest key l, key b = key a := by
  induction l using List.reverseRecOn with
  | nil => cases h
  | append_singleton l c ih =>
    rw [latest_concat]
    by_cases hc : key a = key c
    · exact ⟨c, List.mem_append_right _ List.mem_cons_self, hc.symm⟩
    · rcases List.mem_append.mp h with h | h
      · obtain ⟨b, hb, hkey⟩ := ih h
        refine ⟨b, List.mem_append_left _ (List.mem_filter.mpr ⟨hb, ?_⟩), hkey⟩
        rw [hkey]
        exact decide_eq_true hc
      · cases List.mem_singleton.mp h
        exact absurd rfl hc

theorem eq_of_mem_latest {b : α} (ha : a ∈ latest key l) (hb : b ∈ latest key l) (hkey : key a = key b) :
    a = b := by
  induction l using List.reverseRecOn with
  | nil => cases ha
  | append_singleton l c ih =>
    rw [latest_concat] at ha hb
    simp only [List.mem_append, List.mem_filter, decide_eq_true_eq, List.mem_singleton] at ha hb
    rcases ha with ⟨ha, hac⟩ | rfl <;> rcases hb with ⟨hb, hbc⟩ | rfl
    · exact ih ha hb
    · exact absurd hkey hac
    · exact absurd hkey.symm hbc
    · rfl

theorem latest_congr {key' : α → γ} (h : ∀ a ∈ l, ∀ b ∈ l, key a = key b ↔ key' a = key' b) :
    latest key l = latest key' l := by
  induction l with
  | nil => rfl
  | cons a l ih =>
    have hany : (l.any fun b => key b = key a) = l.any fun b => key' b = key' a := by
      rw [Bool.eq_iff_iff, List.any_eq_true, List.any_eq_true]
      refine exists_congr fun b => and_congr_right fun hb => ?_
      rw [decide_eq_true_eq, decide_eq_true_eq]
      exact h b (List.mem_cons_of_mem a hb) a List.mem_cons_self
    rw [latest, latest, hany, ih fun b hb c hc =>
      h b (List.mem_cons_of_mem a hb) c (List.mem_cons_of_mem a hc)]

end Latest

def Param.shape (p : Param) : TypeId × Form := (p.type, p.form)

namespace Function

/-- What a signature stands for: the types and forms of the parameters and of the result. -/
def shape (f : Function) : List (TypeId × Form) × Option (TypeId × Form) :=
  (f.params.map Param.shape, f.result.map Param.shape)

variable {f g : Function} {args : List Argument}

theorem signature_eq_of_shape (h : f.shape = g.shape) : f.signature = g.signature := by
  obtain ⟨hparams, hresult⟩ := Prod.mk.inj h
  have hmix : ∀ p q : Param, p.shape = q.shape → ∀ hash,
      SignatureId.mixParam hash p = SignatureId.mixParam hash q := by
    intro p q hpq hash
    obtain ⟨htype, hform⟩ := Prod.mk.inj hpq
    rw [SignatureId.mixParam, SignatureId.mixParam, htype, hform]
  have hfold : ∀ (ps qs : List Param), ps.map Param.shape = qs.map Param.shape → ∀ hash,
      ps.foldl SignatureId.mixParam hash = qs.foldl SignatureId.mixParam hash := by
    intro ps
    induction ps with
    | nil =>
      intro qs hqs hash
      rw [List.map_eq_nil_iff.mp hqs.symm]
    | cons p ps ih =>
      intro qs hqs hash
      cases qs with
      | nil => cases hqs
      | cons q qs =>
        obtain ⟨hp, hps⟩ := List.cons.inj hqs
        rw [List.foldl_cons, List.foldl_cons, hmix p q hp, ih qs hps]
  unfold signature SignatureId.ofParams
  rw [hfold f.params g.params hparams]
  cases hf : f.result with
  | none =>
    rw [hf] at hresult
    rw [Option.map_eq_none_iff.mp hresult.symm]
  | some r =>
    rw [hf] at hresult
    obtain ⟨r', hr', hrr⟩ := Option.map_eq_some_iff.mp hresult.symm
    rw [hr']
    exact congrArg SignatureId.mk (hmix r r' hrr.symm _)

def ownArguments (f : Function) : List Argument := f.params.map fun p => ⟨p.type, p.form, false⟩

def Fits (p : TypeId × Form) (a : Argument) : Prop :=
  a.type = p.1 ∧ p.2.accepts a.form = true ∧ (a.isNull = true → p.2.isNullable = true)

theorem Fits.of_not_null {p : TypeId × Form} {a : Argument} (htype : a.type = p.1) (hform : p.2.accepts a.form = true)
    (hnull : a.isNull = false) : Fits p a :=
  ⟨htype, hform, fun h => absurd (hnull.symm.trans h) Bool.false_ne_true⟩

theorem checkFrom_eq_ok_iff {index : Nat} {params : List Param} (hlength : args.length = params.length) :
    f.checkFrom index params args = .ok () ↔ List.Forall₂ Fits (params.map Param.shape) args := by
  induction params generalizing index args with
  | nil =>
    rw [List.length_eq_zero_iff.mp hlength]
    exact ⟨fun _ => .nil, fun _ => rfl⟩
  | cons p ps ih =>
    cases args with
    | nil => cases hlength
    | cons a as =>
      have hfirst : f.checkArgument index p a = .ok () ↔ Fits p.shape a := by
        unfold checkArgument Fits Param.shape
        by_cases htype : a.type = p.type <;> cases hform : p.form.accepts a.form <;>
          cases hnull : a.isNull <;> cases hnullable : p.form.isNullable <;> simp [htype]
      rw [checkFrom, List.map_cons, List.forall₂_cons, ← hfirst, ← ih (Nat.succ.inj hlength)]
      constructor
      · intro h
        obtain ⟨⟨⟩, hp, hps⟩ := bind_eq_ok_iff.mp h
        exact ⟨hp, hps⟩
      · rintro ⟨hp, hps⟩
        exact bind_eq_ok_iff.mpr ⟨(), hp, hps⟩

theorem check_eq_ok_iff : f.check args = .ok () ↔ List.Forall₂ Fits (f.params.map Param.shape) args := by
  unfold check
  by_cases hlength : args.length = f.params.length
  · rw [if_neg (not_not.mpr hlength), checkFrom_eq_ok_iff hlength]
  · rw [if_pos hlength]
    exact ⟨nofun, fun h => absurd (by simpa using h.length_eq.symm) hlength⟩

theorem check_ownArguments (f : Function) : f.check f.ownArguments = .ok () := by
  rw [check_eq_ok_iff, ownArguments, List.forall₂_map_left_iff, List.forall₂_map_right_iff]
  exact List.forall₂_same.mpr fun p _ => ⟨rfl, p.form.accepts_self, nofun⟩

theorem exactForms_eq (f : Function) (args : List Argument) :
    f.exactForms args = ((f.params.map Param.shape).zip args).countP fun x => x.1.2 == x.2.form := by
  rw [exactForms, ← List.countP_eq_length_filter, List.zip_map_left, List.countP_map]
  rfl

theorem exactForms_le (f : Function) (args : List Argument) : f.exactForms args ≤ f.params.length := by
  rw [exactForms_eq]
  exact List.countP_le_length.trans (by rw [List.length_zip, List.length_map]; exact Nat.min_le_left _ _)

theorem exactForms_ownArguments (f : Function) : f.exactForms f.ownArguments = f.params.length := by
  rw [exactForms_eq, ownArguments, List.zip_map', List.countP_map]
  exact List.countP_eq_length.mpr fun p _ => beq_self_eq_true p.form

theorem shape_of_exactForms (hcheck : g.check f.ownArguments = .ok ())
    (hexact : f.params.length ≤ g.exactForms f.ownArguments) :
    g.params.map Param.shape = f.params.map Param.shape := by
  have hfits := check_eq_ok_iff.mp hcheck
  have hlength : g.params.length = f.params.length := by simpa [ownArguments] using hfits.length_eq
  have hall : ∀ x ∈ (g.params.map Param.shape).zip f.ownArguments, (x.1.2 == x.2.form) = true := by
    rw [← List.countP_eq_length, ← exactForms_eq, List.length_zip, List.length_map, ownArguments,
      List.length_map, hlength, Nat.min_self]
    exact le_antisymm ((exactForms_le g _).trans_eq hlength) hexact
  have heq : List.Forall₂ (fun s p => s = Param.shape p) (g.params.map Param.shape) f.params := by
    have hzip := List.forall₂_iff_zip.mp hfits
    refine List.forall₂_iff_zip.mpr ⟨by simpa using hlength, fun {s p} hsp => ?_⟩
    have hmem : (s, (⟨p.type, p.form, false⟩ : Argument)) ∈ (g.params.map Param.shape).zip f.ownArguments := by
      rw [ownArguments, List.zip_map_right]
      exact List.mem_map_of_mem (f := Prod.map id _) hsp
    exact Prod.ext (hzip.2 hmem).1.symm (eq_of_beq (hall _ hmem))
  rw [← List.forall₂_eq_eq_eq, List.forall₂_map_right_iff]
  exact heq

end Function

namespace TypeInfo

open Flowscript.Function

section Choice

variable {args : List Argument} {fs before after : List Function} {best : Option Function}
  {last : Option CallError} {f : Function} {key : FunctionKey}

theorem walkOverloads_append (args : List Argument) (fs gs : List Function) (best : Option Function)
    (last : Option CallError) : walkOverloads args (fs ++ gs) best last =
      walkOverloads args gs (walkOverloads args fs best last).1 (walkOverloads args fs best last).2 := by
  induction fs generalizing best last with
  | nil => rfl
  | cons f fs ih =>
    rw [List.cons_append, walkOverloads, walkOverloads]
    cases f.check args with
    | ok u => exact ih _ _
    | error e => exact ih _ _

theorem walkOverloads_of_le (h : ∀ g ∈ fs, g.check args = .ok () → g.exactForms args ≤ f.exactForms args) :
    (walkOverloads args fs (some f) last).1 = some f := by
  induction fs generalizing last with
  | nil => rfl
  | cons g fs ih =>
    obtain ⟨hg, hfs⟩ := List.forall_mem_cons.mp h
    rw [walkOverloads]
    cases hcheck : g.check args with
    | error e => exact ih hfs
    | ok u =>
      dsimp only
      rw [better, if_neg (Nat.not_lt.mpr (hg hcheck))]
      exact ih hfs

theorem exactForms_of_walkOverloads {n : Nat} (h : ∀ g ∈ fs, g.check args = .ok () → g.exactForms args < n)
    (hbest : ∀ g ∈ best, g.exactForms args < n) :
    ∀ g ∈ (walkOverloads args fs best last).1, g.exactForms args < n := by
  induction fs generalizing best last with
  | nil => exact hbest
  | cons g fs ih =>
    obtain ⟨hg, hfs⟩ := List.forall_mem_cons.mp h
    rw [walkOverloads]
    cases hcheck : g.check args with
    | error e => exact ih hfs hbest
    | ok u =>
      refine ih hfs fun k hk => ?_
      unfold better at hk
      cases best with
      | none =>
        cases hk
        exact hg hcheck
      | some b =>
        dsimp only at hk
        split at hk
        · cases hk
          exact hg hcheck
        · cases hk
          exact hbest _ rfl

theorem split_of_walkOverloads (h : (walkOverloads args fs best last).1 = some f) :
    (best = some f ∧ ∀ g ∈ fs, g.check args = .ok () → g.exactForms args ≤ f.exactForms args) ∨
      ∃ before after, fs = before ++ f :: after ∧ f.check args = .ok () ∧
        (∀ g ∈ before, g.check args = .ok () → g.exactForms args < f.exactForms args) ∧
        (∀ g ∈ best, g.exactForms args < f.exactForms args) ∧
        ∀ g ∈ after, g.check args = .ok () → g.exactForms args ≤ f.exactForms args := by
  induction fs generalizing best last with
  | nil => exact .inl ⟨h, List.forall_mem_nil _⟩
  | cons g fs ih =>
    rw [walkOverloads] at h
    cases hcheck : g.check args with
    | error e =>
      rw [hcheck] at h
      have hskip : g.check args ≠ .ok () := fun hok => by rw [hcheck] at hok; cases hok
      rcases ih h with ⟨hbest, hall⟩ | ⟨before, after, rfl, hf, hbefore, hbest, hafter⟩
      · exact .inl ⟨hbest, List.forall_mem_cons.mpr ⟨fun hg => absurd hg hskip, hall⟩⟩
      · exact .inr ⟨g :: before, after, rfl, hf,
          List.forall_mem_cons.mpr ⟨fun hg => absurd hg hskip, hbefore⟩, hbest, hafter⟩
    | ok u =>
      rw [hcheck] at h
      rcases ih h with ⟨hbest, hall⟩ | ⟨before, after, rfl, hf, hbefore, hbest, hafter⟩
      · unfold better at hbest
        cases best with
        | none =>
          cases hbest
          exact .inr ⟨[], fs, rfl, hcheck, List.forall_mem_nil _, (by intro k hk; cases hk), hall⟩
        | some b =>
          dsimp only at hbest
          split at hbest
          · next hlt =>
            cases hbest
            exact .inr ⟨[], fs, rfl, hcheck, List.forall_mem_nil _, (by intro k hk; cases hk; exact hlt), hall⟩
          · next hle =>
            cases hbest
            exact .inl ⟨rfl, List.forall_mem_cons.mpr ⟨fun _ => Nat.not_lt.mp hle, hall⟩⟩
      · refine .inr ⟨g :: before, after, rfl, hf, List.forall_mem_cons.mpr ⟨fun _ => ?_, hbefore⟩,
          fun b hb => ?_,
          hafter⟩
        · unfold better at hbest
          cases best with
          | none => exact hbest g rfl
          | some b =>
            dsimp only at hbest
            split at hbest
            · exact hbest g rfl
            · next hle => exact (Nat.not_lt.mp hle).trans_lt (hbest b rfl)
        · cases hb
          unfold better at hbest
          dsimp only at hbest
          split at hbest
          · next hlt => exact hlt.trans (hbest g rfl)
          · exact hbest b rfl

/-- The overload that is chosen accepts the arguments, has as many exact forms as any that does, and is the
first of these. -/
theorem resolve_eq_ok_iff {t : TypeInfo} : t.resolve key args = .ok f ↔
    ∃ before after, t.overloads key = before ++ f :: after ∧ f.check args = .ok () ∧
      (∀ g ∈ before, g.check args = .ok () → g.exactForms args < f.exactForms args) ∧
      ∀ g ∈ after, g.check args = .ok () → g.exactForms args ≤ f.exactForms args := by
  have hwalk : t.resolve key args = .ok f ↔ (walkOverloads args (t.overloads key) none none).1 = some f := by
    unfold resolve
    cases t.overloads key with
    | nil => exact ⟨nofun, nofun⟩
    | cons g gs =>
      dsimp only
      split
      · next k _ heq => rw [heq, Except.ok.injEq, Option.some.injEq]
      · next heq => rw [heq]; exact ⟨nofun, nofun⟩
      · next heq => rw [heq]; exact ⟨nofun, nofun⟩
  rw [hwalk]
  constructor
  · intro h
    rcases split_of_walkOverloads h with ⟨hnone, -⟩ | ⟨before, after, heq, hf, hbefore, -, hafter⟩
    · cases hnone
    · exact ⟨before, after, heq, hf, hbefore, hafter⟩
  · rintro ⟨before, after, heq, hf, hbefore, hafter⟩
    have hworse : ∀ g ∈ (walkOverloads args before none none).1, g.exactForms args < f.exactForms args :=
      exactForms_of_walkOverloads hbefore fun k hk => by cases hk
    rw [heq, walkOverloads_append, walkOverloads, hf]
    dsimp only
    have hbetter : better args (walkOverloads args before none none).1 f = some f := by
      unfold better
      cases hbest : (walkOverloads args before none none).1 with
      | none => rfl
      | some b => exact if_pos (hworse b hbest)
    rw [hbetter]
    exact walkOverloads_of_le hafter

end Choice

end TypeInfo

end Flowscript
