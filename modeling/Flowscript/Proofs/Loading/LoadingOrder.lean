import Flowscript.Proofs.Loading.HostTypes
import Flowscript.Proofs.Loading.ReorderedLoading

/-! # Loading in any order

The order in which scripts are given does not matter, as long as what constructs values for their defaults is
steady: functions of the host, and of scripts that were registered before, may be called for it, and they can do
anything. The host may construct a type with the help of a script that comes later in one order, and earlier in
another.
-/
namespace Flowscript

namespace Loader

variable {scripts scripts' : List Script}

/-- Provided that what constructs values for their defaults does not depend on what comes, scripts without circles
whose names have different hashes can be loaded in any order. The same types are declared, with the same functions,
which become the same, and the same errors are reported. -/
theorem load_reordered {l : Loader} {w : Workspace} (hw : (l.unload w).2.Reliable scripts)
    (hnodup : (scripts.map (·.type)).Nodup) (hacyclic : Acyclic scripts) (hperm : scripts.Perm scripts') :
    Option.Rel (fun r r' => r'.types.Perm r.types ∧ r'.errors.Perm r.errors ∧
      ∃ σ, (l.unload w).2.context.SameTypes σ (l.load scripts w).2.2.context (l.load scripts' w).2.2.context)
      (l.load scripts w).1 (l.load scripts' w).1 := by
  obtain ⟨es, hs, c, k, h⟩ := exists_builds l.worldType scripts (l.unload w).2
  obtain ⟨es', hs', c', k', h'⟩ := exists_builds l.worldType scripts' (l.unload w).2
  obtain ⟨hreport, -, hcontext⟩ := load_eq_built l scripts w
  obtain ⟨hreport', -, hcontext'⟩ := load_eq_built l scripts' w
  rw [hreport, hreport', hcontext, hcontext', h.through_eq hw hacyclic hnodup hperm h']
  split
  · next hthrough =>
    exact .some ⟨h.types_perm hw hacyclic hnodup hperm h', h.errors_perm hw hacyclic hnodup hperm h' hthrough,
      _, h.sameTypes hw hacyclic hnodup hperm h' hthrough⟩
  · exact .none

theorem acyclic_wardrobe : Acyclic [Shared.stub, pouch, coat] :=
  .of_rank (fun s => if s.name = coat.name then 1 else 0) (by decide)

/-- A coat is given before its pouch, and after it, and a badge is constructed for its default. -/
theorem load_reordered_coat :
    let l : Loader := { worldType := "World" }
    let w : Workspace := { context := staffed }
    Program.compile errand w.catalogue { script := some "Clerk" } = .ok errandProgram ∧
      Constructs w.catalogue [Shared.stub, pouch, coat] 0 ∧
      ∃ r r', (l.load [Shared.stub, pouch, coat] w).1 = some r ∧
        (l.load [Shared.stub, coat, pouch] w).1 = some r' ∧
        r'.types.Perm r.types ∧ r'.errors.Perm r.errors := by
  intro l w
  have hunload : (l.unload w).2 = w := Fresh.unload ⟨rfl, rfl⟩ w
  have hw : (l.unload w).2.Reliable [Shared.stub, pouch, coat] := hunload ▸ reliable_staffed _
  have hconstructs : Constructs w.catalogue [Shared.stub, pouch, coat] 0 := constructs_badge (by simp) (by simp)
  have hcompile := compile_errand w.catalogue
  clear_value l w
  obtain ⟨es, hs, c, k, h⟩ := exists_builds l.worldType [Shared.stub, pouch, coat] (l.unload w).2
  have hthrough : (l.load [Shared.stub, pouch, coat] w).1.isSome := by
    rw [isSome_load, h.through_iff]
    intro b hb
    obtain ⟨q, hq, rfl⟩ := List.mem_map.mp hb
    obtain ⟨s, hs, -, -, hg⟩ := mem_pieces (List.fst_mem_of_mem_zipIdx hq)
    refine Shared.settles_stub (?_ : q.1.graph = _)
    have hs := script_of_numbered hs
    simp only [List.mem_cons, List.not_mem_nil, or_false] at hs
    rcases hs with hs | hs | hs <;> rw [hs] at hg
    · exact List.mem_singleton.mp hg
    · cases hg
    · cases hg
  have hreordered := load_reordered hw (by decide +kernel) acyclic_wardrobe (.cons Shared.stub (.swap coat pouch []))
  obtain ⟨r, hr⟩ := Option.isSome_iff_exists.mp hthrough
  rw [hr] at hreordered ⊢
  generalize (l.load [Shared.stub, coat, pouch] w).1 = o at hreordered ⊢
  cases hreordered with
  | some hboth => exact ⟨hcompile, hconstructs, r, _, rfl, rfl, hboth.1, hboth.2.1⟩

section Bare

variable (hnodup : (scripts.map (·.type)).Nodup)
include hnodup

theorem order_of_new {c : Catalogue} (hnew : ∀ s ∈ scripts, c.contains s.type = false) :
    order c scripts = (rounds (numbered scripts).length (numbered scripts)).map (·.1.2) := by
  have haccepted : accepted c scripts = numbered scripts := by
    rw [accepted, screen_numbered hnodup]
    exact List.filter_eq_self.mpr fun s hs => by rw [hnew s.2 (script_of_numbered hs)]; rfl
  rw [order, schedule, haccepted]

theorem exists_report {l : Loader} {w : Workspace} (hc : (l.unload w).2.catalogue.Filed)
    (hacyclic : Acyclic scripts) (hbare : ∀ s ∈ scripts, s.functions = [])
    (hnew : ∀ s ∈ scripts, (l.unload w).2.catalogue.contains s.type = false) :
    ∃ r c, ∃ errors : TypeId → List ScriptError, (l.load scripts w).1 = some r ∧
      r.errors = (order (l.unload w).2.catalogue scripts).flatMap (errors ·.type) ∧
      ∀ i s, (order (l.unload w).2.catalogue scripts)[i]? = some s →
        Placed (l.unload w).2.context (l.unload w).2.machine c ((order (l.unload w).2.catalogue scripts).take i) s
          (errors s.type) := by
  obtain ⟨es, hs, c, k, h⟩ := exists_builds l.worldType scripts (l.unload w).2
  obtain ⟨-, errors, hes, hplaced⟩ := h.placed hc hacyclic hnodup
  have hthrough : (built l.worldType scripts (l.unload w).2).1.through = true := by
    rw [← isSome_load]
    exact isSome_load_of_functions hbare w
  have hscreened : screened (l.unload w).2.catalogue scripts = [] := by
    rw [screened_eq hnodup, List.map_eq_nil_iff, List.filter_eq_nil_iff]
    exact fun s hs => by rw [hnew s hs]; exact Bool.false_ne_true
  have hrepeated : allRepeated (l.unload w).2.catalogue scripts hs = [] := by
    rw [allRepeated_eq hnodup h.declares, List.flatMap_eq_nil_iff]
    intro s hs
    rw [repeatedBy, hbare s hs, repeatedNames, ite_self]
  have hreported : reportedOf k.catalogue (allPending (l.unload w).2 scripts hs c) = [] := by
    rw [allPending, allPieces_eq_nil hbare]
    rfl
  refine ⟨_, c, errors, by rw [(load_eq_built l scripts w).1, if_pos hthrough], ?_, hplaced⟩
  rw [h.errors, hscreened, hrepeated, hreported, List.nil_append, List.append_nil, List.append_nil, hes]

end Bare

def die : Script := { name := "Die" }

def strike : Function where
  name := Operator.construct.functionName
  params := []
  result := some (Function.resultParam badge.id .value)
  pure := true
  body := .host { record := false, outcome := .callback die.type Operator.construct.functionName, counter := 0 }

def badges : Catalogue := Catalogue.hosting badge [strike]

theorem plain_badges : badges.Plain := .hosting badge (List.forall_mem_singleton.mpr trivial)

theorem badges_eq : badges.infos.size = 1 ∧ (∀ id, badges.handle? id = if id = badge.id then some 0 else none) ∧
    ∃ heirs, badges.info 0 = (Catalogue.withHeirs heirs badge.info).addFunctions [strike] :=
  Catalogue.hosting_eq rfl [strike]

theorem badgeInfo_badges : BadgeInfo strike (badges.info 0) := badgeInfo_hosting rfl rfl (List.forall_mem_nil _)

/-- Values are constructed from nothing, as there are no parts. -/
def Hollow (type : TypeId) (t : TypeInfo) : Prop := ∃ f, t.resolve (.operator .construct) [] = .ok f ∧
  f.params = [] ∧ f.body = .aggregate .default ⟨type, ⟨0, 1⟩, none, []⟩

theorem hollow_die (c : Catalogue) (heirs : List TypeId) :
    Hollow die.type (Catalogue.withHeirs heirs (typeOf c die.name []).1) := by
  obtain ⟨whole, hwhole⟩ : ∃ whole : Aggregate, whole = ⟨die.type, ⟨0, 1⟩, none, []⟩ := ⟨_, rfl⟩
  have hfunctions : Aggregate.functions c whole =
      [whole.function .construct [] whole.type .default,
        whole.function .construct [⟨"other", whole.type, .constRef⟩] whole.type .copy,
        whole.function .construct [⟨"other", whole.type, .rvalue⟩] whole.type .move,
        whole.function .equal [⟨"a", whole.type, .constRef⟩, ⟨"b", whole.type, .constRef⟩] (.ofName "bool")
          .equal,
        whole.function .notEqual [⟨"a", whole.type, .constRef⟩, ⟨"b", whole.type, .constRef⟩] (.ofName "bool")
          .notEqual] := by
    rw [hwhole]
    rfl
  have hinfo : ∃ t : TypeInfo, t.functions = [] ∧ 
      (typeOf c die.name []).1 = t.addFunctions (Aggregate.functions c whole) := by
    rw [hwhole]
    exact ⟨_, rfl, rfl⟩
  obtain ⟨t, hnone, hinfo⟩ := hinfo
  rw [hfunctions] at hinfo
  refine ⟨whole.function .construct [] whole.type .default, TypeInfo.resolve_nil ?_ rfl fun g hg hparams => ?_, rfl,
    by rw [hwhole]; rfl⟩
  · have hkey : (whole.function .construct [] whole.type .default).key = .operator .construct :=
      FunctionKey.ofName_functionName .construct
    have hfirst := TypeInfo.overloads_addFunction_self (t := t) (f := whole.function .construct [] whole.type .default)
    rw [hkey] at hfirst
    rw [Catalogue.overloads_withHeirs, hinfo]
    refine TypeInfo.mem_overloads_of_ne (TypeInfo.mem_overloads_of_ne
      (TypeInfo.mem_overloads_of_ne (TypeInfo.mem_overloads_of_ne
      (hfirst ▸ List.mem_append_right _ List.mem_cons_self) ?_) ?_) ?_) ?_
    all_goals
      rw [hwhole]
      decide +kernel
  · rw [Catalogue.overloads_withHeirs, hinfo] at hg
    rcases TypeInfo.mem_overloads_addFunctions hg with hg | hg
    · simp only [List.mem_cons, List.not_mem_nil, or_false] at hg
      rcases hg with hg | hg | hg | hg | hg
      · exact hg
      all_goals
        rw [hg] at hparams
        exact absurd hparams (List.cons_ne_nil _ _)
    · rw [TypeInfo.overloads, hnone] at hg
      exact absurd hg List.not_mem_nil

section Read

variable {k : Context} {t : TypeInfo} {m : Machine}

theorem strike_fails (hnone : k.catalogue.lookup? die.type = none) (place : Place) (m : Machine) :
    Ensures (invoke strike [] (some place)) k m (fun _ _ => False) fun _ _ => True := by
  obtain ⟨n, hn⟩ : ∃ n, callDepth = n + 1 := ⟨_, rfl⟩
  have hcheck : strike.check [] = .ok () := rfl
  rw [invoke, hn, invokeWithin]
  dsimp only
  rw [List.map_nil, hcheck]
  simp [Function.run, strike, HostFunction.run, HostFunction.perform, Invoke.callNamed, hnone]

theorem strike_works {t : TypeInfo} (hsome : k.catalogue.lookup? die.type = some t) (ht : Hollow die.type t)
    (place : Place) (m : Machine) :
    Ensures (invoke strike [] (some place)) k m (fun v _ => v = none) fun _ _ => False := by
  obtain ⟨f, hresolve, hparams, hbody⟩ := ht
  obtain ⟨n, hn⟩ : ∃ n, callDepth = n + 2 := ⟨_, rfl⟩
  have hcheck : strike.check [] = .ok () := rfl
  have hcheck' : f.check [] = .ok () := by
    rw [Function.check, hparams]
    rfl
  rw [invoke, hn, invokeWithin]
  dsimp only
  rw [List.map_nil, hcheck]
  simp [Function.run, strike, HostFunction.run, HostFunction.perform, Invoke.callNamed, hsome,
    FunctionKey.ofName_functionName, Invoke.callKey, hresolve, invokeWithin, hcheck', hbody, AggregateOp.run,
      AggregateOp.build,
    Exec.produce, Exec.allocate, Invoke.buildParts, Exec.adopt, HostFunction.settle, Exec.relocate, Value.owned,
      Exec.free]

end Read

section Declared

variable {k₀ : Context} {m₀ : Machine} {c : Catalogue} {done : List Script} {es : List ScriptError}

theorem pouch_placed (hk : k₀.catalogue = badges) (h : Placed k₀ m₀ c done pouch es) :
    es = [] ∧ PouchInfo (c.info (badges.infos.size + done.length)) := by
  cases h with
  | @intro d es ms _ _ hlaid hkept _ hfound hinfo =>
    obtain ⟨hsize, hhandle, -⟩ := badges_eq
    rw [hk] at hlaid hinfo
    have hbadge : BadgeInfo strike (d.info 0) := by
      rw [hlaid.outgrows.info_of_lt (by rw [hsize]; exact Nat.one_pos)]
      exact badgeInfo_badges
    have hname : d.handleNamed? "Badge" = some 0 := by
      refine (hlaid.handleNamed?_iff plain_badges.filed).mpr (.inl ?_)
      rw [Catalogue.handleNamed?, hhandle, if_pos (show TypeId.ofName "Badge" = badge.id from rfl), Option.filter_some,
        badgeInfo_badges.name]
      rfl
    have hrefuse : refuseField? d pouch.name [] [] { name := "badge", type := "Badge" } = .ok 0 := by
      simp [refuseField?, pouch, hname, hbadge.visible, TypeInfo.isOwnable, hbadge.traits.1]
    have hms : es = [] ∧ ms = [⟨"badge", 0, none⟩] := by
      cases hfound with
      | cons first rest =>
        cases rest
        cases first with
        | refused hwhy => cases hrefuse.symm.trans hwhy
        | bare hok =>
          cases hrefuse.symm.trans hok
          exact ⟨rfl, rfl⟩
        | read _ hdefault => cases hdefault
        | unread _ hdefault => cases hdefault
    obtain ⟨rfl, rfl⟩ := hms
    obtain ⟨herrors, hpouched⟩ := typeOf_pouch hbadge (badges.heirs pouch.type)
    rw [herrors, ← hlaid.size, hinfo]
    exact ⟨rfl, hpouched⟩

theorem die_placed (hk : k₀.catalogue = badges) (h : Placed k₀ m₀ c done die es) :
    es = [] ∧ Hollow die.type (c.info (badges.infos.size + done.length)) := by
  cases h with
  | @intro d es ms _ _ hlaid hkept _ hfound hinfo =>
    cases hfound
    rw [hk] at hlaid
    rw [← hlaid.size, hinfo]
    exact ⟨rfl, hollow_die d _⟩

theorem coat_placed (hk : k₀.catalogue = badges) {i : Nat} (hi : done[i]? = some pouch)
    (hpouch : PouchInfo (c.info (badges.infos.size + i))) (h : Placed k₀ m₀ c done coat es) :
    ((∀ s ∈ done, s.type ≠ die.type) → es ≠ []) ∧
      ∀ j, done[j]? = some die → Hollow die.type (c.info (badges.infos.size + j)) → es = [] := by
  cases h with
  | @intro d es ms m _ hlaid hkept _ hfound hinfo =>
    obtain ⟨hsize, hhandle, -⟩ := badges_eq
    rw [hk] at hlaid
    obtain ⟨k, hk⟩ : ∃ k, k = { k₀ with catalogue := d } := ⟨_, rfl⟩
    obtain rfl : k.catalogue = d := congrArg Context.catalogue hk
    rw [← hk] at hfound
    have hdsize := hlaid.size
    have hlt : ∀ {j s}, done[j]? = some s → badges.infos.size + j < k.catalogue.infos.size := fun hj => by
      have := (List.getElem?_eq_some_iff.mp hj).choose
      omega
    have hbadge : BadgeInfo strike (k.catalogue.info 0) := by
      rw [hlaid.outgrows.info_of_lt (by rw [hsize]; exact Nat.one_pos)]
      exact badgeInfo_badges
    have hname : k.catalogue.handleNamed? "Pouch" = some (badges.infos.size + i) :=
      (hlaid.handleNamed?_iff plain_badges.filed).mpr (.inr ⟨i, pouch, hi, rfl, rfl⟩)
    rw [hkept _ (hlt hi)] at hpouch
    refine ⟨fun hnone => ?_, fun j hj hdie => ?_⟩
    · have hlookup : k.catalogue.lookup? die.type = none := by
        rw [Catalogue.lookup?, Option.map_eq_none_iff]
        by_contra hsome
        obtain ⟨x, hx⟩ := Option.ne_none_iff_exists'.mp hsome
        rcases hlaid.known _ _ hx with hold | ⟨j, s, hj, htype, -⟩
        · rw [hhandle, if_neg (by decide +kernel)] at hold
          cases hold
        · exact hnone s (List.mem_of_getElem? hj) htype
      have hfails := ensures_checkDefault_pouch (m := m) (Q := fun _ => False) (E := True) hpouch hbadge
        fun place memory => (strike_fails hlookup place { m with memory }).mono (fun _ _ => False.elim) fun _ _ => id
      rcases errors_coat hname hpouch hfails hfound with ⟨-, hfalse⟩ | ⟨hsome, -⟩
      · exact hfalse.elim
      · exact hsome
    · have hlookup : k.catalogue.lookup? die.type = some (k.catalogue.info (badges.infos.size + j)) := by
        rw [Catalogue.lookup?, hlaid.handle j die hj, Option.map_some]
      rw [hkept _ (hlt hj)] at hdie
      have hworks := ensures_checkDefault_pouch (m := m) (Q := fun _ => True) (E := False) hpouch hbadge
        fun place memory => (strike_works hlookup hdie place { m with memory }).mono (fun _ _ hv => ⟨hv, trivial⟩)
          fun _ _ => id
      rcases errors_coat hname hpouch hworks hfound with ⟨hnone, -⟩ | ⟨-, hfalse⟩
      · exact hnone
      · exact hfalse.elim

end Declared

theorem acyclic_coat : Acyclic [pouch, coat, die] :=
  .of_rank (fun s => if s.name = coat.name then 2 else s.fields.length) (by decide)

theorem contains_badges {s : Script} (hs : s.type ≠ badge.id) : badges.contains s.type = false := by
  rw [Catalogue.contains_eq, badges_eq.2.1, if_neg hs]
  rfl

/-- Coats are given before dies, and after them. -/
theorem load_depends_on_order :
    let l : Loader := { worldType := "World" }
    let w : Workspace := { context.catalogue := badges }
    w.catalogue.Filed ∧ w.context.Closed ∧ ([pouch, coat, die].map (·.type)).Nodup ∧
      Acyclic [pouch, coat, die] ∧
      [pouch, coat, die].Perm [die, pouch, coat] ∧
      ∃ r r', (l.load [pouch, coat, die] w).1 = some r ∧ (l.load [die, pouch, coat] w).1 = some r' ∧
        ¬ r'.errors.Perm r.errors := by
  intro l w
  have hperm : [pouch, coat, die].Perm [die, pouch, coat] :=
    @List.perm_append_comm _ [pouch, coat] [die]
  have hnodup : ([pouch, coat, die].map (·.type)).Nodup := by decide +kernel
  have hnodup' : ([die, pouch, coat].map (·.type)).Nodup := (hperm.map _).nodup_iff.mp hnodup
  refine ⟨plain_badges.filed, plain_badges.closed, hnodup, acyclic_coat, hperm, ?_⟩
  have hc : (l.unload w).2.catalogue = badges := congrArg Workspace.catalogue (Fresh.unload ⟨rfl, rfl⟩ w)
  have hnew : ∀ s ∈ [pouch, coat, die], badges.contains s.type = false := fun s hs => contains_badges
    ((by decide +kernel : ∀ s ∈ [pouch, coat, die], s.type ≠ badge.id) s hs)
  have hnew' : ∀ s ∈ [die, pouch, coat], badges.contains s.type = false := fun s hs =>
    hnew s (hperm.mem_iff.mpr hs)
  have hlate : order badges [pouch, coat, die] = [pouch, coat, die] := order_of_new hnodup hnew
  have hearly : order badges [die, pouch, coat] = [die, pouch, coat] := order_of_new hnodup' hnew'
  obtain ⟨r, c, errors, hr, herrors, hplaced⟩ := exists_report (l := l) (w := w) hnodup (hc ▸ plain_badges.filed)
    acyclic_coat (by decide) (hc ▸ hnew)
  obtain ⟨r', c', errors', hr', herrors', hplaced'⟩ := exists_report (l := l) (w := w) hnodup'
    (hc ▸ plain_badges.filed) (acyclic_coat.perm hperm) (by decide) (hc ▸ hnew')
  have hlate : r.errors ≠ [] := by
    rw [hc, hlate] at herrors hplaced
    obtain ⟨-, hpouch⟩ := pouch_placed hc (hplaced 0 pouch rfl)
    have hcoat := (coat_placed hc (i := 0) rfl hpouch (hplaced 1 coat rfl)).1 (by decide +kernel)
    rw [herrors]
    exact fun hnone => hcoat (List.flatMap_eq_nil_iff.mp hnone coat (by simp))
  have hearly : r'.errors = [] := by
    rw [hc, hearly] at herrors' hplaced'
    obtain ⟨hnone, hdie⟩ := die_placed hc (hplaced' 0 die rfl)
    obtain ⟨hnone', hpouch⟩ := pouch_placed hc (hplaced' 1 pouch rfl)
    have hcoat := (coat_placed hc (i := 1) rfl hpouch (hplaced' 2 coat rfl)).2 0 rfl hdie
    rw [herrors']
    simp [hnone, hnone', hcoat]
  refine ⟨r, r', hr, hr', fun hsame => hlate ?_⟩
  rw [hearly] at hsame
  exact hsame.nil_eq.symm

end Loader

end Flowscript
