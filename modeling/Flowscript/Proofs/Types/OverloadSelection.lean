import Flowscript.Proofs.CollectionLemmas
import Flowscript.Proofs.Types.FunctionNames

/-! # Selecting overloads

Functions are added to a type one after another, and sometimes all of them go. A function that is added
displaces the one with its key and signature, so those that stand under a key are in the order in which they
were added. A call selects among those that accept its arguments: the one with the most exact forms, and if
there are several of these, the one that was added first. So a value that may be moved out of selects a
constructor that moves whenever there is one.
-/
namespace Flowscript.TypeInfo

open Flowscript.Function

/-- What happens to the functions of a type: one is added, or all of them go. -/
inductive Provision where
  | add (f : Function)
  | clear

def provide (t : TypeInfo) : Provision → TypeInfo
  | .add f => t.addFunction f
  | .clear => t.clearFunctions

def provided (t : TypeInfo) (us : List Provision) : TypeInfo := us.foldl provide t.clearFunctions

/-- A function does not stand any more after another with its key and signature was added, or after all went. -/
def Provision.Displaces (f : Function) : Provision → Prop
  | .add g => g.key = f.key ∧ g.signature = f.signature
  | .clear => True

/-- The function that was added by some provision stands still. -/
structure Stands (us : List Provision) (i : Nat) (f : Function) : Prop where
  added : us[i]? = some (.add f)
  kept : ∀ j u, i < j → us[j]? = some u → ¬ u.Displaces f

variable {t : TypeInfo} {us : List Provision} {u : Provision} {i : Nat} {f g : Function} {key : FunctionKey}
  {args : List Argument}

theorem Stands.lt_length (h : Stands us i f) : i < us.length :=
  (List.getElem?_eq_some_iff.mp h.added).1

/-- A provision comes last: what it displaces falls, and what it adds stands. -/
theorem stands_concat_iff :
    Stands (us ++ [u]) i f ↔ Stands us i f ∧ ¬ u.Displaces f ∨ i = us.length ∧ u = .add f := by
  constructor
  · rintro ⟨hadded, hkept⟩
    rcases getElem?_concat_eq_some_iff.mp hadded with hadded | hlast
    · have hlt : i < us.length := (List.getElem?_eq_some_iff.mp hadded).1
      refine .inl ⟨⟨hadded, fun j v hij hv => hkept j v hij ?_⟩, hkept us.length u hlt ?_⟩
      · exact getElem?_concat_eq_some_iff.mpr (.inl hv)
      · exact getElem?_concat_eq_some_iff.mpr (.inr ⟨rfl, rfl⟩)
    · exact .inr hlast
  · rintro (⟨h, hu⟩ | hlast)
    · refine ⟨getElem?_concat_eq_some_iff.mpr (.inl h.added), fun j v hij hv => ?_⟩
      rcases getElem?_concat_eq_some_iff.mp hv with hv | ⟨-, rfl⟩
      · exact h.kept j v hij hv
      · exact hu
    · refine ⟨getElem?_concat_eq_some_iff.mpr (.inr hlast), fun j v hij hv => ?_⟩
      rcases getElem?_concat_eq_some_iff.mp hv with hv | ⟨rfl, -⟩
      · exact absurd (List.getElem?_eq_some_iff.mp hv).1 (hlast.1 ▸ hij).not_gt
      · exact absurd hlast.1 hij.ne

theorem provided_concat (t : TypeInfo) (us : List Provision) (u : Provision) :
    t.provided (us ++ [u]) = (t.provided us).provide u := List.foldl_concat _ _ _ _

theorem exists_standing (t : TypeInfo) (us : List Provision) (key : FunctionKey) :
    ∃ es : List (Nat × Function), es.map (·.2) = (t.provided us).overloads key ∧
      es.Pairwise (fun a b => a.1 < b.1) ∧ ∀ e, e ∈ es ↔ Stands us e.1 e.2 ∧ e.2.key = key := by
  induction us using List.reverseRecOn with
  | nil => exact ⟨[], rfl, .nil, fun e => ⟨nofun, fun h => absurd h.1.lt_length (Nat.not_lt_zero _)⟩⟩
  | append_singleton us u ih =>
    obtain ⟨es, hes, horder, hmem⟩ := ih
    rw [provided_concat]
    cases u with
    | clear =>
      refine ⟨[], rfl, .nil, fun e => ⟨nofun, fun h => ?_⟩⟩
      rcases stands_concat_iff.mp h.1 with ⟨-, hkept⟩ | ⟨-, hadd⟩
      · exact absurd trivial hkept
      · cases hadd
    | add f =>
      rw [provide, overloads_addFunction]
      by_cases hkey : key = f.key
      · -- What has the signature of the new function goes, and the new one comes last.
        refine ⟨es.filter (·.2.signature ≠ f.signature) ++ [(us.length, f)], ?_, ?_, fun e => ?_⟩
        · rw [if_pos hkey, ← hes, List.map_append, List.filter_map]
          rfl
        · refine List.pairwise_append.mpr ⟨horder.filter _, List.pairwise_singleton _ _, ?_⟩
          intro e he e' he'
          rw [List.mem_singleton.mp he']
          exact ((hmem e).mp (List.mem_of_mem_filter he)).1.lt_length
        · rw [List.mem_append, List.mem_filter, decide_eq_true_eq, hmem, List.mem_singleton, stands_concat_iff]
          constructor
          · rintro (⟨⟨hstands, hekey⟩, hsignature⟩ | rfl)
            · exact ⟨.inl ⟨hstands, fun hdisplaces => hsignature hdisplaces.2.symm⟩, hekey⟩
            · exact ⟨.inr ⟨rfl, rfl⟩, hkey.symm⟩
          · rintro ⟨⟨hstands, hkept⟩ | ⟨hi, hadd⟩, hekey⟩
            · refine .inl ⟨⟨hstands, hekey⟩, fun hsignature => hkept ⟨?_, hsignature.symm⟩⟩
              rw [hekey, hkey]
            · cases hadd
              exact .inr (Prod.ext hi rfl)
      · refine ⟨es, by rw [if_neg hkey, hes], horder, fun e => ?_⟩
        rw [hmem, stands_concat_iff]
        constructor
        · rintro ⟨hstands, hekey⟩
          exact ⟨.inl ⟨hstands, fun hdisplaces => hkey (hekey.symm.trans hdisplaces.1.symm)⟩, hekey⟩
        · rintro ⟨⟨hstands, -⟩ | ⟨-, hadd⟩, hekey⟩
          · exact ⟨hstands, hekey⟩
          · cases hadd
            exact absurd hekey.symm hkey

/-- Among the functions that stand under a key and accept some arguments, the one with the most exact forms, and
among those with as many the one that was added first. -/
structure Selected (us : List Provision) (key : FunctionKey) (args : List Argument) (i : Nat) (f : Function) :
    Prop where
  stands : Stands us i f
  keyed : f.key = key
  accepts : f.check args = .ok ()
  best : ∀ j g, Stands us j g → g.key = key → g.check args = .ok () → g.exactForms args ≤ f.exactForms args
  first : ∀ j g, Stands us j g → g.key = key → g.check args = .ok () →
    g.exactForms args = f.exactForms args → i ≤ j

theorem resolve_eq_ok_iff_selected :
    (t.provided us).resolve key args = .ok f ↔ ∃ i, Selected us key args i f := by
  obtain ⟨es, hes, horder, hmem⟩ := exists_standing t us key
  rw [resolve_eq_ok_iff, ← hes]
  constructor
  · rintro ⟨before, after, hsplit, hcheck, hbefore, hafter⟩
    obtain ⟨bs, rest, rfl, rfl, hrest⟩ := List.map_eq_append_iff.mp hsplit
    obtain ⟨⟨i, f'⟩, as, rfl, rfl, rfl⟩ := List.map_eq_cons_iff.mp hrest
    obtain ⟨hstands, hkey⟩ := (hmem (i, f')).mp (List.mem_append_right bs List.mem_cons_self)
    obtain ⟨-, htail, -⟩ := List.pairwise_append.mp horder
    have hlater := (List.pairwise_cons.mp htail).1
    -- Each of the others comes before and is worse, or comes after and is not better.
    have hother : ∀ j g, Stands us j g → g.key = key → g.check args = .ok () →
        g.exactForms args < f'.exactForms args ∨ g.exactForms args ≤ f'.exactForms args ∧ i ≤ j := by
      intro j g hg hgkey haccepts
      rcases List.mem_append.mp ((hmem (j, g)).mpr ⟨hg, hgkey⟩) with hj | hj
      · exact .inl (hbefore g (List.mem_map_of_mem (f := Prod.snd) hj) haccepts)
      · rcases List.mem_cons.mp hj with heq | hj
        · cases heq
          exact .inr ⟨le_rfl, le_rfl⟩
        · exact .inr ⟨hafter g (List.mem_map_of_mem (f := Prod.snd) hj) haccepts, (hlater _ hj).le⟩
    refine ⟨i, hstands, hkey, hcheck, fun j g hg hgkey haccepts => ?_, fun j g hg hgkey haccepts hexact => ?_⟩
    · rcases hother j g hg hgkey haccepts with hlt | ⟨hle, -⟩
      · exact hlt.le
      · exact hle
    · rcases hother j g hg hgkey haccepts with hlt | ⟨-, hij⟩
      · exact absurd hexact hlt.ne
      · exact hij
  · rintro ⟨i, hf⟩
    obtain ⟨bs, as, rfl⟩ := List.append_of_mem ((hmem (i, f)).mpr ⟨hf.stands, hf.keyed⟩)
    obtain ⟨-, -, hacross⟩ := List.pairwise_append.mp horder
    refine ⟨bs.map (·.2), as.map (·.2), by rw [List.map_append, List.map_cons], hf.accepts, ?_, ?_⟩
    · refine List.forall_mem_map.mpr fun e he haccepts => ?_
      obtain ⟨hg, hgkey⟩ := (hmem e).mp (List.mem_append_left _ he)
      refine lt_of_le_of_ne (hf.best e.1 e.2 hg hgkey haccepts) fun hexact => ?_
      have hle := hf.first e.1 e.2 hg hgkey haccepts hexact
      exact absurd (hacross e he (i, f) List.mem_cons_self) (Nat.not_lt.mpr hle)
    · refine List.forall_mem_map.mpr fun e he haccepts => ?_
      obtain ⟨hg, hgkey⟩ := (hmem e).mp (List.mem_append_right _ (List.mem_cons_of_mem _ he))
      exact hf.best e.1 e.2 hg hgkey haccepts

/-- A walk past something that accepts the arguments finds something. -/
theorem isSome_walkOverloads {fs : List Function} {best : Option Function} {last : Option CallError}
    (h : best.isSome ∨ ∃ f ∈ fs, f.check args = .ok ()) : (walkOverloads args fs best last).1.isSome := by
  induction fs generalizing best last with
  | nil =>
    rcases h with h | ⟨f, hf, -⟩
    · exact h
    · cases hf
  | cons g fs ih =>
    rw [walkOverloads]
    cases hcheck : g.check args with
    | ok u =>
      refine ih (.inl ?_)
      unfold better
      cases best with
      | none => rfl
      | some b =>
        dsimp only
        split <;> rfl
    | error e =>
      refine ih (h.imp_right ?_)
      rintro ⟨f, hf, haccepts⟩
      rcases List.mem_cons.mp hf with rfl | hf
      · rw [hcheck] at haccepts
        cases haccepts
      · exact ⟨f, hf, haccepts⟩

theorem exists_resolve_iff_accepts :
    (∃ f, (t.provided us).resolve key args = .ok f) ↔
      ∃ i f, Stands us i f ∧ f.key = key ∧ f.check args = .ok () := by
  constructor
  · rintro ⟨f, h⟩
    obtain ⟨i, hf⟩ := resolve_eq_ok_iff_selected.mp h
    exact ⟨i, f, hf.stands, hf.keyed, hf.accepts⟩
  · rintro ⟨i, f, hf, hkey, hcheck⟩
    obtain ⟨es, hes, -, hmem⟩ := exists_standing t us key
    have hoverload : f ∈ (t.provided us).overloads key := by
      rw [← hes]
      exact List.mem_map_of_mem (f := Prod.snd) ((hmem (i, f)).mpr ⟨hf, hkey⟩)
    have hfound : (walkOverloads args ((t.provided us).overloads key) none none).1.isSome :=
      isSome_walkOverloads (.inr ⟨f, hoverload, hcheck⟩)
    obtain ⟨g, hwalk⟩ := Option.isSome_iff_exists.mp hfound
    rcases split_of_walkOverloads hwalk with ⟨h, -⟩ | ⟨before, after, heq, hg, hbefore, -, hafter⟩
    · cases h
    · exact ⟨g, resolve_eq_ok_iff.mpr ⟨before, after, heq, hg, hbefore, hafter⟩⟩

section Moving

/-- The function constructs a value of a type and takes one of it that it may move out of. -/
structure Moves (type : TypeId) (f : Function) : Prop where
  key : f.key = .operator .construct
  params : f.params.map Param.shape = [(type, .rvalue)]

def given (type : TypeId) : Argument := ⟨type, .rvalue, false⟩

theorem Moves.accepts {type : TypeId} (h : Moves type f) : f.check [given type] = .ok () := by
  rw [check_eq_ok_iff, h.params]
  exact .cons ⟨rfl, rfl, nofun⟩ .nil

theorem Moves.exactForms {type : TypeId} (h : Moves type f) : f.exactForms [given type] = 1 := by
  rw [exactForms_eq, h.params]
  rfl

theorem moves_of_exactForms {type : TypeId} (hkey : f.key = .operator .construct)
    (hcheck : f.check [given type] = .ok ()) (hexact : 1 ≤ f.exactForms [given type]) : Moves type f := by
  refine ⟨hkey, ?_⟩
  rw [exactForms_eq] at hexact
  rw [check_eq_ok_iff] at hcheck
  obtain ⟨p, ps, hp, hps, hparams⟩ := List.forall₂_cons_right_iff.mp hcheck
  rw [List.forall₂_nil_right_iff] at hps
  rw [hparams, hps] at hexact ⊢
  have hform : (p.2 == Form.rvalue) = true := by
    by_contra hne
    have hnone : ([(p, given type)].countP fun x => x.1.2 == x.2.form) = 0 := List.countP_cons_of_neg hne
    exact absurd hexact (Nat.not_le.mpr (Nat.lt_one_iff.mpr hnone))
  exact congrArg (· :: []) (Prod.ext hp.1.symm (eq_of_beq hform))

theorem not_moves_of_constRef {type type' : TypeId} {isNull : Bool}
    (hcheck : f.check [⟨type, .constRef, isNull⟩] = .ok ()) : ¬ Moves type' f := by
  intro hmoves
  rw [check_eq_ok_iff, hmoves.params] at hcheck
  obtain ⟨hfits, -⟩ := List.forall₂_cons.mp hcheck
  cases hfits.2.1

end Moving

/-- Whatever functions were added to a type and replaced, a call succeeds in choosing one just if one of those that
stand under its key accepts the arguments, and it chooses the one with the most exact forms, the first to be added
if there are several. So a value that may be moved out of is moved by a constructor whenever one moves, and one that
may not be changed never is. -/
theorem resolve_selects (t : TypeInfo) (us : List Provision) :
    (∀ key args, (∃ f, (t.provided us).resolve key args = .ok f) ↔
      ∃ i f, Stands us i f ∧ f.key = key ∧ f.check args = .ok ()) ∧
    (∀ key args f, (t.provided us).resolve key args = .ok f ↔ ∃ i, Selected us key args i f) ∧
    (∀ type, (∃ i g, Stands us i g ∧ Moves type g) →
      ∃ f, (t.provided us).resolve (.operator .construct) [given type] = .ok f ∧ Moves type f) ∧
    ∀ type isNull f, (t.provided us).resolve (.operator .construct) [⟨type, .constRef, isNull⟩] = .ok f →
      ∀ type', ¬ Moves type' f := by
  refine ⟨fun key args => exists_resolve_iff_accepts, fun key args f => resolve_eq_ok_iff_selected, ?_, ?_⟩
  · rintro type ⟨i, g, hstands, hmoves⟩
    obtain ⟨f, hf⟩ := exists_resolve_iff_accepts.mpr ⟨i, g, hstands, hmoves.key, hmoves.accepts⟩
    obtain ⟨_, hselected⟩ := resolve_eq_ok_iff_selected.mp hf
    have hexact := hselected.best i g hstands hmoves.key hmoves.accepts
    rw [hmoves.exactForms] at hexact
    exact ⟨f, hf, moves_of_exactForms hselected.keyed hselected.accepts hexact⟩
  · intro type isNull f hf type'
    obtain ⟨_, hselected⟩ := resolve_eq_ok_iff_selected.mp hf
    exact not_moves_of_constRef hselected.accepts

/-- A constructor that takes a value of the type in some form. -/
def maker (form : Form) : Function where
  name := Operator.construct.functionName
  params := [⟨"other", .ofName "S", form⟩]
  result := some (resultParam (.ofName "S") .value)
  pure := true
  body := .host ⟨false, .copy 0, 0⟩

/-- The constructor that moves is chosen although a later one accepts the value as well. -/
theorem resolve_selects_maker :
    ∃ f, ((new "S" ⟨4, 4⟩).provided [.add (maker .rvalue), .add (maker .constRef)]).resolve
    (.operator .construct) [given (.ofName "S")] = .ok f ∧ Moves (.ofName "S") f := by
  have hadded : Stands ([] ++ [.add (maker .rvalue)]) 0 (maker .rvalue) := stands_concat_iff.mpr (.inr ⟨rfl, rfl⟩)
  have hstands : Stands ([.add (maker .rvalue)] ++ [.add (maker .constRef)]) 0 (maker .rvalue) :=
    stands_concat_iff.mpr (.inl ⟨hadded, fun hdisplaces => absurd hdisplaces.2 (by decide +kernel)⟩)
  obtain ⟨-, -, hmoves, -⟩ := resolve_selects (new "S" ⟨4, 4⟩) [.add (maker .rvalue), .add (maker .constRef)]
  exact hmoves _ ⟨0, _, hstands, by decide, rfl⟩

end Flowscript.TypeInfo
