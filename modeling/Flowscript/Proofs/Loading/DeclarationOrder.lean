import Flowscript.Proofs.Loading.FieldCircles
import Flowscript.Proofs.Loading.ScriptTypes
import Flowscript.Proofs.Loading.UnloadedWorkspace

/-! # The order of declarations

Where no circle is among their fields, scripts are declared one after another, each once those are that its
fields name. What one becomes depends on those before it; types get the next handles in the order in which
their scripts are declared.
-/
namespace Flowscript

namespace Loader

/-- Scripts have been declared one after another, under names that were new. -/
structure Laid (c₀ : Catalogue) (done : List Script) (c : Catalogue) : Prop where
  outgrows : c₀.Outgrows c
  size : c.infos.size = c₀.infos.size + done.length
  handle : ∀ i s, done[i]? = some s → c.handle? s.type = some (c₀.infos.size + i)
  known : ∀ id h, c.handle? id = some h →
    c₀.handle? id = some h ∨ ∃ i s, done[i]? = some s ∧ s.type = id ∧ h = c₀.infos.size + i
  name : ∀ i s, done[i]? = some s → (c.info (c₀.infos.size + i)).name = s.name

namespace Laid

variable {c₀ c : Catalogue} {done : List Script} {s : Script} {t : TypeInfo}

theorem nil (hc : c.Filed) : Laid c [] c where
  outgrows := .refl hc
  size := rfl
  handle := nofun
  known _ _ hh := .inl hh
  name := nofun

theorem register (h : Laid c₀ done c) (hbases : t.bases = []) (hid : t.id = s.type) (hname : t.name = s.name)
    (hnew : c.handle? s.type = none) :
    Laid c₀ (done ++ [s]) (c.register t).2 ∧
      (c.register t).2.info c.infos.size = Catalogue.withHeirs (c₀.heirs s.type) t := by
  obtain ⟨u, hu⟩ : ∃ u, Catalogue.withHeirs ((c.grow t).heirs t.id) t = u := ⟨_, rfl⟩
  obtain ⟨huid, huname, hubases⟩ : u.id = t.id ∧ u.name = t.name ∧ u.bases = t.bases :=
    hu ▸ Catalogue.face_withHeirs _ t
  rw [hid] at huid
  rw [hname] at huname
  rw [hbases] at hubases
  have hnamed : s.type = .ofName s.name := rfl
  have hheirs : (c.grow t).heirs t.id = c₀.heirs s.type := by
    rw [(h.outgrows.grow hbases (by rw [hid, hname, hnamed]) (hid ▸ hnew)).heirs_eq, hid]
  have hsize := h.size
  have hlt : ∀ {i : Nat} {r : Script}, done[i]? = some r → i < done.length := fun hi =>
    (List.getElem?_eq_some_iff.mp hi).choose
  have hlast : ∀ {i : Nat} {r : Script}, (done ++ [s])[i]? = some r →
      done[i]? = some r ∨ i = done.length ∧ r = s := by
    intro i r hi
    rcases lt_trichotomy i done.length with hlt | rfl | hgt
    · exact .inl (by rwa [List.getElem?_append_left hlt] at hi)
    · rw [List.getElem?_concat_length] at hi
      cases hi
      exact .inr ⟨rfl, rfl⟩
    · rw [List.getElem?_eq_none (by rw [List.length_append, List.length_singleton]; omega)] at hi
      cases hi
  rw [Catalogue.register_eq_grow hbases (hid ▸ hnew), hu]
  have hinfo := Catalogue.info_grow c u
  constructor
  · constructor
    · exact (h.outgrows.grow hubases (by rw [huid, huname, hnamed]) (huid ▸ hnew)).history _
    · show (c.infos.push u).size = _
      rw [Array.size_push, List.length_append, List.length_singleton, hsize, Nat.add_assoc]
    · intro i r hi
      show (c.grow u).handle? r.type = _
      rw [Catalogue.handle?_grow, huid]
      rcases hlast hi with hi | ⟨rfl, rfl⟩
      · rw [if_neg, h.handle i r hi]
        intro hsame
        rw [← hsame, h.handle i r hi] at hnew
        cases hnew
      · rw [if_pos rfl, hsize]
    · intro id j hj
      have hj : (c.grow u).handle? id = some j := hj
      rw [Catalogue.handle?_grow, huid] at hj
      split at hj
      · next hsame =>
        cases hj
        exact .inr ⟨done.length, s, List.getElem?_concat_length, hsame.symm, hsize⟩
      · refine (h.known id j hj).imp_right fun ⟨i, r, hi, hrest⟩ => ⟨i, r, ?_, hrest⟩
        rwa [List.getElem?_append_left (hlt hi)]
    · intro i r hi
      show ((c.grow u).info _).name = _
      rw [hinfo]
      rcases hlast hi with hi | ⟨rfl, rfl⟩
      · have hi' := hlt hi
        rw [if_neg (by omega), h.name i r hi]
      · rw [if_pos hsize.symm, huname]
  · show (c.grow u).info c.infos.size = _
    rw [hinfo, if_pos rfl, ← hheirs, hu]

theorem handleNamed?_iff (hc : c₀.Filed) (h : Laid c₀ done c) {name : String} {j : Handle} :
    c.handleNamed? name = some j ↔ c₀.handleNamed? name = some j ∨
      ∃ i s, done[i]? = some s ∧ s.name = name ∧ j = c₀.infos.size + i := by
  unfold Catalogue.handleNamed?
  rw [Option.filter_eq_some_iff, Option.filter_eq_some_iff]
  constructor
  · rintro ⟨hhandle, hname⟩
    rcases h.known _ j hhandle with hold | ⟨i, s, hi, -, rfl⟩
    · refine .inl ⟨hold, ?_⟩
      rwa [h.outgrows.info_of_lt (hc.lt_size hold)] at hname
    · rw [h.name i s hi] at hname
      exact .inr ⟨i, s, hi, beq_iff_eq.mp hname, rfl⟩
  · rintro (⟨hhandle, hname⟩ | ⟨i, s, hi, rfl, rfl⟩)
    · refine ⟨h.outgrows.handle _ j hhandle, ?_⟩
      rwa [h.outgrows.info_of_lt (hc.lt_size hhandle)]
    · exact ⟨h.handle i s hi, beq_iff_eq.mpr (h.name i s hi)⟩

end Laid

/-- A script was declared when others had been, with errors of its own. -/
inductive Placed (k₀ : Context) (m₀ : Machine) (c : Catalogue) (done : List Script) (s : Script) :
    List ScriptError → Prop where
  | intro {d : Catalogue} {es : List ScriptError} {ms : List Member} {m m' : Machine}
    (laid : Laid k₀.catalogue done d) (kept : ∀ j < d.infos.size, c.info j = d.info j)
    (machine : m₀.Comparable m) (found : FindsAll { k₀ with catalogue := d } s.name [] m [] s.fields es ms m')
    (info : c.info d.infos.size = Catalogue.withHeirs (k₀.catalogue.heirs s.type) (typeOf d s.name ms).1) :
    Placed k₀ m₀ c done s (es ++ (typeOf d s.name ms).2)

section Course

variable {k₀ : Context} {m₀ m m' : Machine} {c c' : Catalogue} {plan : List (Candidate × List String)}
  {es : List ScriptError} {hs : List Handle} {done : List Script}

/-- Scripts that may use all types, and whose names are new, are declared in order. -/
theorem TakesAll.placed (hplain : ∀ r ∈ plan, r.2 = []) (hlaid : Laid k₀.catalogue done c)
    (hnew : ∀ r ∈ plan, c.handle? r.1.2.type = none) (hnodup : (plan.map (·.1.2.type)).Nodup)
    (hm : m₀.Comparable m) (h : TakesAll { k₀ with catalogue := c } m plan es hs c' m') :
    Laid k₀.catalogue (done ++ plan.map (·.1.2)) c' ∧
      ∃ errors : TypeId → List ScriptError, es = plan.flatMap (errors ·.1.2.type) ∧
        ∀ i r, plan[i]? = some r →
          Placed k₀ m₀ c' (done ++ (plan.map (·.1.2)).take i) r.1.2 (errors r.1.2.type) := by
  induction plan generalizing done c es hs m with
  | nil =>
    cases h
    exact ⟨by rwa [List.map_nil, List.append_nil], fun _ => [], rfl, nofun⟩
  | cons first plan ih =>
    obtain ⟨s, blocked⟩ := first
    obtain ⟨hblocked, hlater⟩ := List.forall_mem_cons.mp hplain
    obtain ⟨hfresh, hothers⟩ := List.forall_mem_cons.mp hnew
    obtain ⟨hdistinct, hapart⟩ := List.nodup_cons.mp hnodup
    have hdifferent : ∀ r ∈ plan, r.1.2.type ≠ s.2.type := fun r hr hsame =>
      hdistinct (List.mem_map.mpr ⟨r, hr, hsame⟩)
    cases hblocked
    cases h with
    | cons htakes hrest =>
      have hmachine := hm.trans htakes.comparable
      cases htakes with
      | @intro es ms _ hfound =>
        obtain ⟨hid, hname, hbases⟩ := typeOf_eq c s.2.name ms
        obtain ⟨hnext, hinfo⟩ := hlaid.register hbases hid hname hfresh
        have hsize := hlaid.size
        have hone : ∀ r ∈ plan, (c.register (typeOf c s.2.name ms).1).2.handle? r.1.2.type = none := by
          intro r hr
          rw [Catalogue.handle?_register hbases, hothers r hr, Option.none_or, if_neg]
          rw [hid]
          exact hdifferent r hr
        obtain ⟨hall, errors, hes, hplaced⟩ := ih hlater hnext hone hapart hmachine hrest
        have hgrows : (c.register (typeOf c s.2.name ms).1).2.Extends c' := hrest.declaresAll.grows
        have hkept : ∀ j < (c.register (typeOf c s.2.name ms).1).2.infos.size,
            c'.info j = (c.register (typeOf c s.2.name ms).1).2.info j := by
          intro j hj
          have hsome := Array.getElem?_eq_getElem hj
          rw [Catalogue.info_of_getElem? hsome, Catalogue.info_of_getElem? (hgrows.info j _ hsome)]
        have hlt : c.infos.size < (c.register (typeOf c s.2.name ms).1).2.infos.size := by
          rw [hnext.size, hsize, List.length_append, List.length_singleton]
          omega
        refine ⟨by rwa [List.append_assoc] at hall,
          fun id => if id = s.2.type then es ++ (typeOf c s.2.name ms).2 else errors id, ?_, ?_⟩
        · rw [List.flatMap_cons, hes]
          dsimp only
          rw [if_pos rfl]
          congr 1
          exact List.flatMap_congr fun r hr => (if_neg (hdifferent r hr)).symm
        · intro i r hr
          cases i with
          | zero =>
            cases hr
            dsimp only
            rw [if_pos rfl, List.take_zero, List.append_nil]
            refine .intro hlaid (fun j hj => ?_) hm hfound ((hkept _ hlt).trans hinfo)
            have hsome := Array.getElem?_eq_getElem hj
            rw [hkept j (hj.trans hlt), Catalogue.info_of_getElem? hsome,
              Catalogue.info_of_getElem? ((Catalogue.Extends.register hbases).info j _ hsome)]
          | succ i =>
            rw [List.getElem?_cons_succ] at hr
            dsimp only
            rw [if_neg (hdifferent r (List.mem_of_getElem? hr)), List.map_cons, List.take_succ_cons,
              ← List.singleton_append, ← List.append_assoc]
            exact hplaced i r hr

end Course

section Schedule

variable {c : Catalogue} {scripts : List Script}

def HasPart (scripts : List Script) (s d : Script) : Prop := d ∈ scripts ∧ ∃ f ∈ s.fields, f.type = d.name

/-- No script leads back to itself along its fields. -/
def Acyclic (scripts : List Script) : Prop := ∀ s ∈ scripts, ¬ Relation.TransGen (HasPart scripts) s s

def Ordered (order : List Script) : Prop :=
  ∀ i s, order[i]? = some s → ∀ f ∈ s.fields, ∀ t ∈ order, t.name = f.type → t ∈ order.take i

def order (c : Catalogue) (scripts : List Script) : List Script := (schedule c scripts).map (·.1.2)

theorem Acyclic.of_rank (rank : Script → Nat)
    (h : ∀ s ∈ scripts, ∀ f ∈ s.fields, ∀ d ∈ scripts, f.type = d.name → rank d < rank s) :
    Acyclic scripts := by
  intro s hs hcircle
  have hdown : ∀ {d}, Relation.TransGen (HasPart scripts) s d → rank d < rank s ∧ d ∈ scripts := fun hpath => by
    induction hpath with
    | single hpart =>
      obtain ⟨hd, f, hf, hname⟩ := hpart
      exact ⟨h s hs f hf _ hd hname, hd⟩
    | tail _ hpart ih =>
      obtain ⟨hd, f, hf, hname⟩ := hpart
      exact ⟨(h _ ih.2 f hf _ hd hname).trans ih.1, hd⟩
  exact absurd (hdown hcircle).1 (Nat.lt_irrefl _)

theorem Acyclic.candidates (h : Acyclic scripts) {s : Candidate} (hs : s ∈ accepted c scripts) :
    ¬ Relation.TransGen (Holds (accepted c scripts)) s s := by
  have hlift : ∀ {a b : Candidate}, Holds (accepted c scripts) a b → HasPart scripts a.2 b.2 := fun h =>
    ⟨script_of_numbered (mem_accepted_numbered h.1), h.2⟩
  exact fun hcircle => h s.2 (script_of_numbered (mem_accepted_numbered hs)) (hcircle.lift Prod.snd fun _ _ => hlift)

/-- Without circles, a script may use all types, and comes after those that its fields name. -/
theorem Acyclic.round (h : Acyclic scripts) {before after : List (Candidate × List String)} {s : Candidate}
    {blocked : List String} (hplan : schedule c scripts = before ++ (s, blocked) :: after) :
    blocked = [] ∧
      ∀ f ∈ s.2.fields, ∀ d ∈ accepted c scripts, d.2.name = f.type → d ∈ before.map (·.1) := by
  have hapart := apart_screen c scripts
  have hs : s ∈ accepted c scripts := accepted_of_schedule hplan
  obtain ⟨now, first, hsub, hfirst, hchoose, hperm⟩ := pending_of_rounds hapart le_rfl hplan
  have hnow := hapart.sublist hsub
  have hwaits : waitsOn now s = [] := by
    by_contra hwaits
    refine h.candidates hs ((choose_circle hnow hfirst hchoose hwaits).lift id fun x y hy => ?_)
    obtain ⟨hmem, -, f, hf, htype⟩ := (mem_waitsOn_iff hnow).mp hy
    exact ⟨hsub.subset hmem, f, hf, htype⟩
  refine ⟨List.eq_nil_iff_forall_not_mem.mpr fun name hname => ?_, fun f hf d hd hname => ?_⟩
  · obtain ⟨d, hd, -⟩ := (mem_blocked_iff hnow hfirst hchoose).mp hname
    rw [hwaits] at hd
    cases hd
  · have hall := (schedule_perm c scripts).mem_iff.mpr hd
    rw [hplan, List.map_append, List.map_cons] at hall
    refine (List.mem_append.mp hall).resolve_right fun hlater => ?_
    have hpending : d ∈ now := hperm.mem_iff.mp hlater
    by_cases hsame : d.1 = s.1
    · cases hapart.eq_of_position hd hs hsame
      exact h.candidates hs (.single ⟨hs, f, hf, hname.symm⟩)
    · have hwait := (mem_waitsOn_iff hnow).mpr ⟨hpending, hsame, f, hf, hname.symm⟩
      rw [hwaits] at hwait
      cases hwait

theorem Acyclic.blocked (h : Acyclic scripts) : ∀ r ∈ schedule c scripts, r.2 = [] := by
  intro r hr
  obtain ⟨before, after, hplan⟩ := List.append_of_mem hr
  exact (h.round hplan).1

theorem mem_order_iff {s : Script} : s ∈ order c scripts ↔ s ∈ (accepted c scripts).map (·.2) := by
  have hperm := (schedule_perm c scripts).map (·.2)
  rw [List.map_map] at hperm
  exact hperm.mem_iff

theorem Acyclic.ordered (h : Acyclic scripts) : Ordered (order c scripts) := by
  intro i s hi f hf t ht hname
  rw [order, List.getElem?_map] at hi
  obtain ⟨r, hr, rfl⟩ := Option.map_eq_some_iff.mp hi
  obtain ⟨hlt, hr⟩ := List.getElem?_eq_some_iff.mp hr
  have hplan : schedule c scripts = (schedule c scripts).take i ++ r :: (schedule c scripts).drop (i + 1) := by
    rw [← hr, List.getElem_cons_drop, List.take_append_drop]
  obtain ⟨d, hd, rfl⟩ := List.mem_map.mp (mem_order_iff.mp ht)
  obtain ⟨q, hq, rfl⟩ := List.mem_map.mp ((h.round hplan).2 f hf d hd hname)
  rw [order, ← List.map_take]
  exact List.mem_map_of_mem hq

theorem map_snd_numbered (scripts : List Script) : (numbered scripts).map (·.2) = scripts := by
  rw [numbered, List.map_map]
  exact List.zipIdx_map_fst 0 scripts

/-- Among scripts whose names have different hashes, just those are refused whose types are registered. -/
theorem screen_eq {candidates : List Candidate} {names : List String}
    (hnodup : (names.map TypeId.ofName ++ candidates.map (·.2.type)).Nodup) :
    screen c names candidates = (candidates.filter fun s => !c.contains s.2.type,
      (candidates.filter fun s => c.contains s.2.type).map fun s => nameTaken s.2) := by
  induction candidates generalizing names with
  | nil => rfl
  | cons s candidates ih =>
    have hnames : s.2.name ∉ names := by
      intro hmem
      rw [List.nodup_append] at hnodup
      exact hnodup.2.2 _ (List.mem_map_of_mem hmem) _ (List.mem_map_of_mem List.mem_cons_self) rfl
    have hrest : ((s.2.name :: names).map TypeId.ofName ++ candidates.map (·.2.type)).Nodup :=
      (List.perm_middle.nodup_iff.mp hnodup :)
    have hcontains : names.contains s.2.name = false := by simpa using hnames
    simp only [screen]
    rw [ih hrest, hcontains, Bool.false_or]
    cases hc : c.contains s.2.type
    · rw [if_neg Bool.false_ne_true, List.filter_cons, hc, List.filter_cons, hc]
      rfl
    · rw [if_pos rfl, List.filter_cons, hc, List.filter_cons, hc]
      rfl

section Distinct

variable (hnodup : (scripts.map (·.type)).Nodup)
include hnodup

theorem screen_numbered : screen c [] (numbered scripts) =
    ((numbered scripts).filter fun s => !c.contains s.2.type,
      ((numbered scripts).filter fun s => c.contains s.2.type).map fun s => nameTaken s.2) := by
  refine screen_eq ?_
  rw [← map_snd_numbered scripts, List.map_map] at hnodup
  exact hnodup

theorem map_accepted : (accepted c scripts).map (·.2) = scripts.filter fun s => !c.contains s.type := by
  have hfilter := List.filter_map (f := fun s : Candidate => s.2) (p := fun s => !c.contains s.type)
    (l := numbered scripts)
  rw [map_snd_numbered] at hfilter
  rw [accepted, screen_numbered hnodup, hfilter]
  rfl

theorem screened_eq : screened c scripts = (scripts.filter fun s => c.contains s.type).map nameTaken := by
  have hfilter := List.filter_map (f := fun s : Candidate => s.2) (p := fun s => c.contains s.type)
    (l := numbered scripts)
  rw [map_snd_numbered] at hfilter
  rw [screened, screen_numbered hnodup, hfilter, List.map_map]
  rfl

theorem order_perm : (order c scripts).Perm (scripts.filter fun s => !c.contains s.type) := by
  have hperm := (schedule_perm c scripts).map (·.2)
  rw [List.map_map, map_accepted hnodup] at hperm
  exact hperm

end Distinct

end Schedule

end Loader

end Flowscript
