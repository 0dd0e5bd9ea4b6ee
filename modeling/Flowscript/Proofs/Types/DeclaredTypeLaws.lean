import Flowscript.Proofs.Types.DescribedTypeLaws

/-! # Laws that declared types inherit

A load declares types on top of those that are there, and some of the new types have parts of other new types. Each
works as it was composed, unless a function of its script takes the place of one that was composed. So if the types
that were there obey the laws of values, all of the new types do.
-/
namespace Flowscript

namespace Aggregate

variable {c c' : Catalogue} {whole : Aggregate} {t t' : TypeInfo} {script : String} {layout : Layout}
  {parts : List Part}

theorem sublist_constructions (c : Catalogue) (whole : Aggregate) :
    ((whole.constructors c).map (·.signature)).Sublist whole.type.constructions := by
  have hone (p : Prop) [Decidable p] (f : Function) :
    ((if p then [f] else []).map (·.signature)).Sublist [f.signature] := by
    split
    · exact List.Sublist.refl _
    · exact List.nil_sublist _
  rw [constructors, List.map_append, List.map_append]
  exact ((hone _ whole.ownDefault).append (hone _ whole.ownCopy)).append (hone _ whole.ownMove)

def comparisons (c : Catalogue) (whole : Aggregate) : List Function :=
  if canCompare c whole.parts then [whole.ownComparison .equal .equal, whole.ownComparison .notEqual .notEqual] else []

theorem functions_eq (c : Catalogue) (whole : Aggregate) :
    functions c whole = whole.constructors c ++ whole.comparisons c := rfl

theorem key_constructors {f : Function} (hf : f ∈ whole.constructors c) : f.key = .operator .construct := by
  simp only [constructors, List.mem_append, List.mem_ite_nil_right, List.mem_singleton] at hf
  rcases hf with (⟨-, rfl⟩ | ⟨-, rfl⟩) | ⟨-, rfl⟩ <;> exact FunctionKey.ofName_functionName .construct

theorem filter_constructors (op : Operator) : (whole.constructors c).filter (·.key = .operator op) =
    if op = .construct then whole.constructors c else [] := by
  split
  · next hop =>
    rw [List.filter_eq_self, hop]
    exact fun f hf => decide_eq_true (key_constructors hf)
  · next hop =>
    rw [List.filter_eq_nil_iff]
    refine fun f hf hkey => hop (FunctionKey.operator.inj ?_)
    rw [← of_decide_eq_true hkey, key_constructors hf]

theorem filter_comparisons (op : Operator) : (whole.comparisons c).filter (·.key = .operator op) =
    if canCompare c whole.parts then
      (if op = .equal then [whole.ownComparison .equal .equal] else []) ++
        if op = .notEqual then [whole.ownComparison .notEqual .notEqual] else []
    else [] := by
  have hkey (op' : Operator) (body : AggregateOp) : decide ((whole.ownComparison op' body).key = .operator op) =
      decide (op = op') := by
    rw [show (whole.ownComparison op' body).key = .operator op' from FunctionKey.ofName_functionName op',
      decide_eq_decide]
    exact ⟨fun h => (FunctionKey.operator.inj h).symm, fun h => congrArg _ h.symm⟩
  unfold comparisons
  split
  · rw [List.filter_cons, List.filter_singleton, hkey, hkey]
    by_cases hequal : op = .equal
    · subst hequal
      rfl
    · by_cases hnotEqual : op = .notEqual
      · subst hnotEqual
        rfl
      · rw [if_neg hequal, if_neg hnotEqual, decide_eq_false hequal, decide_eq_false hnotEqual]
        rfl
  · rfl

theorem filter_functions_construct (c : Catalogue) (whole : Aggregate) :
    (functions c whole).filter (·.key = .operator .construct) = whole.constructors c := by
  have hnone : (whole.comparisons c).filter (·.key = .operator .construct) = [] :=
    (filter_comparisons .construct).trans (ite_self _)
  rw [functions_eq, List.filter_append, filter_constructors, if_pos rfl, hnone, List.append_nil]

theorem overloads_info (c : Catalogue) (script : String) (layout : Layout) (parts : List Part) (key : FunctionKey) :
    (info c script layout parts).overloads key =
      latest Function.signature ((functions c (declared c script layout parts)).filter (·.key = key)) :=
  TypeInfo.overloads_addFunctions
    { id := .ofName script, name := script, layout, source := .script script, destructor := destructorOf c parts
      traits :=
        { default := hasDefault c parts, copy := canCopy c parts, move := canMove c parts
          trivial := (destructorOf c parts).isNone }
      fields := parts.map fun p => ⟨p.name, (c.info p.type).id, p.offset⟩
      codec := codecOf? c parts } _ key

/-- As long as its constructors have signatures of their own, a type with the functions that are composed for it works
as it is composed. -/
theorem governs_of_overloads (ht : ∀ key, t.overloads key = (info c script layout parts).overloads key)
    (h : (((declared c script layout parts).constructors c).map (·.signature)).Nodup) :
    Governs c (declared c script layout parts) t := by
  have hoverloads (op : Operator) : t.overloads (.operator op) =
      latest Function.signature ((functions c (declared c script layout parts)).filter (·.key = .operator op)) :=
    (ht _).trans (overloads_info ..)
  have hcomparison (op : Operator) (hop : op ≠ .construct) : t.overloads (.operator op) =
      latest Function.signature (((declared c script layout parts).comparisons c).filter (·.key = .operator op)) := by
    rw [hoverloads, functions_eq, List.filter_append, filter_constructors, if_neg hop, List.nil_append]
  have hequal := hcomparison .equal nofun
  have hnotEqual := hcomparison .notEqual nofun
  rw [filter_comparisons] at hequal hnotEqual
  refine ⟨?_, fun hcompare => ?_, fun hcompare => ?_, fun hcompare => ⟨?_, ?_⟩⟩
  · rw [hoverloads, filter_functions_construct, latest_of_nodup h]
  · rw [hequal, if_pos hcompare]
    exact List.prefix_rfl
  · rw [hnotEqual, if_pos hcompare]
    exact List.prefix_rfl
  · rw [hequal, hcompare]
    rfl
  · rw [hnotEqual, hcompare]
    rfl

/-- Whatever members make up an aggregate, it obeys the laws if their types do. -/
theorem lawful_info {V W : Type} {d : Nat} {w : Context} {value : Handle → Memory → Place → V}
    {members : List Member}
    {whole : Memory → Place → W} (h : Composite d w value members layout parts whole)
    (hdistinct : (((declared w.catalogue script layout parts).constructors w.catalogue).map (·.signature)).Nodup) :
    (info w.catalogue script layout parts).Lawful (invokeWithin (d + 1)) w whole :=
  Upright.lawful_whole { h with makeup := rfl, governs := governs_of_overloads (fun _ => rfl) hdistinct }

section Congr

theorem flags_congr (h : ∀ p ∈ parts, c.Agree c' p.type) :
    hasDefault c parts = hasDefault c' parts ∧ canCopy c parts = canCopy c' parts ∧
      canMove c parts = canMove c' parts := by
  have hmakeup := makeup_info_congr h "" .empty
  rw [makeup_info, makeup_info] at hmakeup
  have htraits := congrArg TypeInfo.traits hmakeup
  exact ⟨congrArg Traits.default htraits, congrArg Traits.copy htraits, congrArg Traits.move htraits⟩

theorem declared_congr (h : ∀ p ∈ parts, c.Agree c' p.type) (script : String) (layout : Layout) :
    declared c script layout parts = declared c' script layout parts := by
  have hmakeup := makeup_info_congr h script layout
  rw [makeup_info, makeup_info] at hmakeup
  rw [declared, declared, show destructorOf c parts = destructorOf c' parts from congrArg TypeInfo.destructor hmakeup]

theorem constructors_congr (h : ∀ p ∈ whole.parts, c.Agree c' p.type) :
    whole.constructors c = whole.constructors c' := by
  obtain ⟨hdefault, hcopy, hmove⟩ := flags_congr h
  rw [constructors, constructors, hdefault, hcopy, hmove]

theorem canCompare_congr (h : ∀ p ∈ parts, (c.info p.type).overloads (.operator .equal) = [] ↔
    (c'.info p.type).overloads (.operator .equal) = []) : canCompare c parts = canCompare c' parts := by
  refine all_congr_of_mem fun p hp => congrArg Bool.not ?_
  rw [Bool.eq_iff_iff, List.isEmpty_iff, List.isEmpty_iff]
  exact h p hp

theorem functions_congr (hagree : ∀ p ∈ whole.parts, c.Agree c' p.type)
    (hcompare : canCompare c whole.parts = canCompare c' whole.parts) : functions c whole = functions c' whole := by
  rw [functions_eq, functions_eq, constructors_congr hagree, comparisons, comparisons, hcompare]

end Congr

/-- It counts which parts can be compared, and what they are made of, but nothing else of the other types. -/
theorem Governs.congr (hagree : ∀ p ∈ whole.parts, c.Agree c' p.type)
    (hcompare : canCompare c whole.parts = canCompare c' whole.parts) (h : Governs c whole t) : Governs c' whole t := by
  refine ⟨?_, fun h' => h.equal (hcompare.trans h'), fun h' => h.notEqual (hcompare.trans h'),
    fun h' => h.incomparable (hcompare.trans h')⟩
  rw [← constructors_congr hagree]
  exact h.constructors

theorem Governs.overloads_equal_iff (h : Governs c whole t) :
    t.overloads (.operator .equal) = [] ↔ canCompare c whole.parts = false := by
  refine ⟨fun hnone => Bool.eq_false_iff.mpr fun hcompare => ?_, fun hcompare => (h.incomparable hcompare).1⟩
  obtain ⟨rest, hrest⟩ := h.equal hcompare
  rw [hnone] at hrest
  cases hrest

end Aggregate

/-- A function takes the place of none that is composed for an aggregate, and compares values only if they can
be compared part by part. -/
structure Function.Spares (c : Catalogue) (whole : Aggregate) (f : Function) : Prop where
  free : ∀ g ∈ Aggregate.functions c whole, f.key = g.key → g.signature ≠ f.signature
  compares : f.key = .operator .equal ∨ f.key = .operator .notEqual → Aggregate.canCompare c whole.parts

namespace TypeInfo

variable {t : TypeInfo} {f : Function} {fs : List Function} {key : FunctionKey}

theorem prefix_overloads_addFunction {own : List Function} (h : own <+: t.overloads key)
    (hf : f.key = key → ∀ g ∈ own, g.signature ≠ f.signature) : own <+: (t.addFunction f).overloads key := by
  rw [overloads_addFunction]
  split
  · next hkey =>
    have hown : own.filter (·.signature ≠ f.signature) = own :=
      List.filter_eq_self.mpr fun g hg => decide_eq_true (hf hkey.symm g hg)
    rw [← hown]
    exact (h.filter _).trans (List.prefix_append _ _)
  · exact h

end TypeInfo

namespace Aggregate.Governs

variable {c : Catalogue} {whole : Aggregate} {t : TypeInfo} {f : Function}

theorem addFunction (h : Governs c whole t) (hf : f.Spares c whole) : Governs c whole (t.addFunction f) := by
  have hcomparison (op : Operator) (body : AggregateOp) (hcompare : canCompare c whole.parts)
      (hmem : whole.ownComparison op body ∈ whole.comparisons c) (hkey : f.key = .operator op) :
      ∀ g ∈ [whole.ownComparison op body], g.signature ≠ f.signature := by
    refine List.forall_mem_singleton.mpr (hf.free _
      (functions_eq c whole ▸ List.mem_append_right _ hmem) (hkey.trans ?_))
    exact (FunctionKey.ofName_functionName op).symm
  have hall (hcompare : canCompare c whole.parts) : whole.comparisons c =
      [whole.ownComparison .equal .equal, whole.ownComparison .notEqual .notEqual] := if_pos hcompare
  refine ⟨?_, fun hcompare => ?_, fun hcompare => ?_, fun hcompare => ?_⟩
  · refine TypeInfo.prefix_overloads_addFunction h.constructors fun hkey g hg =>
      hf.free g (functions_eq c whole ▸ List.mem_append_left _ hg) (hkey.trans (key_constructors hg).symm)
  · exact TypeInfo.prefix_overloads_addFunction (h.equal hcompare)
      (hcomparison .equal .equal hcompare (hall hcompare ▸ List.mem_cons_self))
  · exact TypeInfo.prefix_overloads_addFunction (h.notEqual hcompare)
      (hcomparison .notEqual .notEqual hcompare (hall hcompare ▸ List.mem_cons_of_mem _ List.mem_cons_self))
  · have hother (op : Operator) (hop : f.key = .operator op → f.key = .operator .equal ∨
      f.key = .operator .notEqual) :
        (t.addFunction f).overloads (.operator op) = t.overloads (.operator op) := by
      rw [TypeInfo.overloads_addFunction, if_neg]
      exact fun hkey => Bool.false_ne_true (hcompare.symm.trans (hf.compares (hop hkey.symm)))
    rw [hother .equal .inl, hother .notEqual .inr]
    exact h.incomparable hcompare

theorem addFunctions (h : Governs c whole t) {fs : List Function} (hfs : ∀ f ∈ fs, f.Spares c whole) :
    Governs c whole (t.addFunctions fs) := by
  induction fs generalizing t with
  | nil => exact h
  | cons f fs ih =>
    obtain ⟨hf, hfs⟩ := List.forall_mem_cons.mp hfs
    exact ih (h.addFunction hf) hfs

end Aggregate.Governs

namespace Catalogue

variable {c c' : Catalogue} {h : Handle} {s : Script} {ms : List Member} {layout : Layout} {parts : List Part}

theorem Composes.congr (hagree : ∀ k, k ≤ h → c.Agree c' k) (hlt : h < c'.infos.size)
    (hc : c.Composes h s ms layout parts) :
    c'.Composes h s ms layout parts := by
  have hmembers : ∀ m ∈ ms, c.Agree c' m.type := fun m hm => hagree _ (hc.older m hm).le
  refine ⟨hc.membership.congr hmembers fun m hm => (hc.older m hm).trans hlt, hc.older, ?_, ?_⟩
  · rw [← Aggregate.place?_congr hmembers, hc.placed]
  · rw [← show (c.info h).makeup = (c'.info h).makeup from hagree h le_rfl, hc.makeup]
    refine Aggregate.makeup_info_congr (fun p hp => ?_) s.name layout
    obtain ⟨m, hm, hpm⟩ := Aggregate.type_of_mem hc.placed hp
    exact hpm ▸ hmembers m hm

theorem Composes.type_lt (hc : c.Composes h s ms layout parts) {p : Part} (hp : p ∈ parts) : p.type < h := by
  obtain ⟨m, hm, hpm⟩ := Aggregate.type_of_mem hc.placed hp
  exact hpm ▸ hc.older m hm

theorem Composes.exists_field (hc : c.Composes h s ms layout parts) {p : Part} (hp : p ∈ parts) :
    ∃ f ∈ s.fields, p.name = f.name ∧ (c.info p.type).name = f.type ∧ p.default = f.default := by
  have hmem : (⟨p.name, p.type, p.default⟩ : Member) ∈ ms := by
    rw [← Aggregate.map_members hc.placed]
    exact List.mem_map_of_mem hp
  obtain ⟨f, hf, heq⟩ := List.mem_map.mp (hc.membership.sublist.subset (List.mem_map_of_mem hmem))
  obtain ⟨hname, hrest⟩ := Prod.mk.inj heq
  obtain ⟨htype, hdefault⟩ := Prod.mk.inj hrest
  exact ⟨f, hf, hname.symm, htype.symm, hdefault.symm⟩

/-- A type is composed of fields of a script, and has just the functions that are composed for it. -/
structure Forms (c : Catalogue) (h : Handle) (s : Script) (ms : List Member) (layout : Layout) (parts : List Part) :
    Prop extends c.Composes h s ms layout parts where
  overloads : ∀ key, (c.info h).overloads key = (Aggregate.info c s.name layout parts).overloads key

structure Fashions (c : Catalogue) (h : Handle) (s : Script) (ms : List Member) (layout : Layout) (parts : List Part) :
    Prop extends c.Composes h s ms layout parts where
  governs : Aggregate.Governs c (Aggregate.declared c s.name layout parts) (c.info h)

section Later

variable (hh : h < c.infos.size) (hext : c.Extends c')
include hh hext

theorem Composes.later (hc : c.Composes h s ms layout parts) : c'.Composes h s ms layout parts ∧
    (∀ p ∈ parts, c.Agree c' p.type) ∧ Aggregate.canCompare c parts = Aggregate.canCompare c' parts := by
  have hinfo : ∀ k, k ≤ h → c'.info k = c.info k := fun k hk => hext.info_of_lt (Nat.lt_of_le_of_lt hk hh)
  have hagree : ∀ k, k ≤ h → c.Agree c' k := fun k hk => congrArg TypeInfo.makeup (hinfo k hk).symm
  refine ⟨hc.congr hagree (hh.trans_le hext.size_le), fun p hp => hagree _ (hc.type_lt hp).le, ?_⟩
  exact Aggregate.canCompare_congr fun p hp => by rw [hinfo _ (hc.type_lt hp).le]

theorem Forms.later (hc : c.Forms h s ms layout parts) : c'.Forms h s ms layout parts := by
  obtain ⟨hcomposes, hagree, hcompare⟩ := hc.toComposes.later hh hext
  refine ⟨hcomposes, fun key => ?_⟩
  rw [hext.info_of_lt hh, hc.overloads, Aggregate.overloads_info, Aggregate.overloads_info,
    Aggregate.declared_congr hagree, Aggregate.functions_congr hagree hcompare]

theorem Fashions.later (hc : c.Fashions h s ms layout parts) : c'.Fashions h s ms layout parts := by
  obtain ⟨hcomposes, hagree, hcompare⟩ := hc.toComposes.later hh hext
  refine ⟨hcomposes, ?_⟩
  rw [← Aggregate.declared_congr hagree, hext.info_of_lt hh]
  exact hc.governs.congr hagree hcompare

end Later

end Catalogue

namespace Loader

open Catalogue

variable {c c' : Catalogue} {s : Script} {blocked : List String} {plan : List (Candidate × List String)}
  {es : List ScriptError} {h : Handle} {hs : List Handle}

/-- A script whose name is free gets a type with just the functions that are composed for it. -/
theorem Declares.forms (hc : c.Filed) (hd : Declares c s blocked es h c') (hfree : c.handle? s.type = none) :
    c'.infos.size = c.infos.size + 1 ∧ ∃ ms layout parts, c'.Forms c.infos.size s ms layout parts := by
  have hext := hd.grows
  cases hd with
  | @intro es ms judged =>
    obtain ⟨hid, -, hbases⟩ := typeOf_eq c s.name ms
    obtain ⟨ms', layout, parts, hms, hplace, htype⟩ := exists_placed s.name (judged.membership hc).1
    have hnew := register_of_fresh hbases (by rw [hid]; exact hfree)
    obtain ⟨heirs, hheirs⟩ : ∃ heirs, heirs = (c.grow (typeOf c s.name ms).1).heirs (typeOf c s.name ms).1.id :=
      ⟨_, rfl⟩
    have hsize : (c.register (typeOf c s.name ms).1).2.infos.size = c.infos.size + 1 := by
      rw [hnew]
      exact Array.size_push _
    have hinfo : (c.register (typeOf c s.name ms).1).2.info c.infos.size =
        withHeirs heirs (Aggregate.info c s.name layout parts) := by
      rw [hnew, ← htype, hheirs]
      exact info_of_getElem? Array.getElem?_push_size
    have hold : ∀ p ∈ parts, (c.register (typeOf c s.name ms).1).2.info p.type = c.info p.type := fun p hp => by
      obtain ⟨m, hm, hpm⟩ := Aggregate.type_of_mem hplace hp
      exact hpm ▸ hext.info_of_lt (hms.registered m hm)
    have hagree : ∀ m ∈ ms', c.Agree (c.register (typeOf c s.name ms).1).2 m.type := fun m hm =>
      congrArg TypeInfo.makeup (hext.info_of_lt (hms.registered m hm)).symm
    have hparts : ∀ p ∈ parts, c.Agree (c.register (typeOf c s.name ms).1).2 p.type := fun p hp =>
      congrArg TypeInfo.makeup (hold p hp).symm
    refine ⟨hsize, ms', layout, parts, ⟨hms.congr hagree fun m hm => ?_, hms.registered, ?_, ?_⟩, fun key => ?_⟩
    · exact (hms.registered m hm).trans_le hext.size_le
    · rw [← Aggregate.place?_congr hagree, hplace]
    · rw [hinfo, ← Aggregate.makeup_info_congr hparts, TypeInfo.makeup_withHeirs]
    · rw [hinfo, overloads_withHeirs, Aggregate.overloads_info, Aggregate.overloads_info,
        Aggregate.declared_congr hparts,
        Aggregate.functions_congr hparts (Aggregate.canCompare_congr fun p hp => by rw [hold p hp])]

theorem DeclaresAll.forms (hc : c.Filed) (hd : DeclaresAll c plan es hs c') {k : Handle} (hk : c.infos.size ≤ k)
    (hk' : k < c'.infos.size) : ∃ r ∈ plan, ∃ ms layout parts, c'.Forms k r.1.2 ms layout parts := by
  induction hd with
  | nil => exact absurd hk' (Nat.not_lt_of_le hk)
  | @cons c c₁ c' s blocked after es es' h hs first rest ih =>
    have hlater (hle : c₁.infos.size ≤ k) : ∃ r ∈ (s, blocked) :: after, ∃ ms layout parts,
        c'.Forms k r.1.2 ms layout parts := by
      obtain ⟨r, hr, hforms⟩ := ih (first.filed hc) hle hk'
      exact ⟨r, List.mem_cons_of_mem _ hr, hforms⟩
    cases hfree : c.handle? s.2.type with
    | some j =>
      refine hlater ?_
      cases first with
      | intro judged => rwa [register_of_taken (by rw [(typeOf_eq ..).1]; exact hfree)]
    | none =>
      obtain ⟨hsize, ms, layout, parts, hforms⟩ := first.forms hc hfree
      rcases Nat.eq_or_lt_of_le hk with rfl | hlt
      · exact ⟨_, List.mem_cons_self, ms, layout, parts, hforms.later (hsize ▸ Nat.lt_succ_self _) rest.grows⟩
      · exact hlater (by omega)

section Furnish

variable {worldType : String} {qs : List (Piece × Nat)} {n : Nat} {declared : Script → Prop}

/-- Types from a handle on are those of scripts, and get functions of scripts that take the place of none that
is composed for them, as it turns out when all of them are there. -/
structure Furnishing (worldType : String) (n : Nat) (declared : Script → Prop) (c : Catalogue)
    (qs : List (Piece × Nat)) :
    Prop where
  forms : ∀ h, n ≤ h → h < c.infos.size → ∃ s, declared s ∧ ∃ ms layout parts, c.Forms h s ms layout parts
  fresh : ∀ q ∈ qs, n ≤ q.1.handle
  apart : ∀ s, declared s → ∀ h ms layout parts, n ≤ h → h < c.infos.size →
    (furnish worldType c qs).Composes h s ms layout parts →
    let whole := Aggregate.declared (furnish worldType c qs) s.name layout parts
    ((whole.constructors (furnish worldType c qs)).map (·.signature)).Nodup ∧
      ∀ q ∈ qs, q.1.handle = h → (q.1.function worldType c q.2).Spares (furnish worldType c qs) whole

theorem agree_furnish (qs : List (Piece × Nat)) (hh : h < c.infos.size) : c.Agree (furnish worldType c qs) h := by
  rw [Catalogue.Agree, info_furnish hh, TypeInfo.makeup_addFunctions]

namespace Furnishing

variable (hf : Furnishing worldType n declared c qs)
include hf

theorem fashions {ms : List Member} {layout : Layout} {parts : List Part} (hs : declared s) (hn : n ≤ h)
    (hh : h < c.infos.size) (hforms : c.Forms h s ms layout parts)
    (hcompare : Aggregate.canCompare c parts = Aggregate.canCompare (furnish worldType c qs) parts) :
    c.Fashions h s ms layout parts ∧ (furnish worldType c qs).Fashions h s ms layout parts := by
  have hagree : ∀ p ∈ parts, c.Agree (furnish worldType c qs) p.type := fun p hp =>
    agree_furnish qs ((hforms.type_lt hp).trans hh)
  have hcomposes : (furnish worldType c qs).Composes h s ms layout parts :=
    hforms.toComposes.congr (fun k hk => agree_furnish qs (Nat.lt_of_le_of_lt hk hh)) (by rwa [size_furnish])
  have hgoverns : Aggregate.Governs c (Aggregate.declared c s.name layout parts) (c.info h) := by
    refine Aggregate.governs_of_overloads hforms.overloads ?_
    have hsame := Aggregate.constructors_congr
      (show ∀ p ∈ (Aggregate.declared c s.name layout parts).parts, _ from hagree)
    rw [hsame, Aggregate.declared_congr hagree]
    exact (hf.apart s hs h ms layout parts hn hh hcomposes).1
  refine ⟨⟨hforms.toComposes, hgoverns⟩, hcomposes, ?_⟩
  have hmoved := hgoverns.congr hagree hcompare
  rw [Aggregate.declared_congr hagree] at hmoved
  rw [info_furnish hh]
  refine hmoved.addFunctions fun f hmem => ?_
  obtain ⟨q, hq, rfl⟩ := List.mem_map.mp hmem
  obtain ⟨hqs, hhandle⟩ := List.mem_filter.mp hq
  exact (hf.apart s hs h ms layout parts hn hh hcomposes).2 q hqs (beq_iff_eq.mp hhandle)

theorem overloads_equal_iff (hh : h < c.infos.size) : (c.info h).overloads (.operator .equal) = [] ↔
    ((furnish worldType c qs).info h).overloads (.operator .equal) = [] := by
  induction h using Nat.strong_induction_on with
  | _ h ih =>
    by_cases hn : n ≤ h
    · obtain ⟨s, hs, ms, layout, parts, hforms⟩ := hf.forms h hn hh
      have hcompare : Aggregate.canCompare c parts = Aggregate.canCompare (furnish worldType c qs) parts :=
        Aggregate.canCompare_congr fun p hp => ih p.type (hforms.type_lt hp) ((hforms.type_lt hp).trans hh)
      obtain ⟨hbefore, hafter⟩ := hf.fashions hs hn hh hforms hcompare
      rw [hbefore.governs.overloads_equal_iff, hafter.governs.overloads_equal_iff]
      exact Eq.congr_left hcompare
    · have hnone : qs.filter (·.1.handle == h) = [] :=
        List.filter_eq_nil_iff.mpr fun q hq hhandle => hn (beq_iff_eq.mp hhandle ▸ hf.fresh q hq)
      rw [info_furnish hh, hnone]
      rfl

theorem exists_fashions (hn : n ≤ h) (hh : h < c.infos.size) :
    ∃ s, declared s ∧ ∃ ms layout parts, (furnish worldType c qs).Fashions h s ms layout parts := by
  obtain ⟨s, hs, ms, layout, parts, hforms⟩ := hf.forms h hn hh
  have hcompare : Aggregate.canCompare c parts = Aggregate.canCompare (furnish worldType c qs) parts :=
    Aggregate.canCompare_congr fun p hp => hf.overloads_equal_iff ((hforms.type_lt hp).trans hh)
  exact ⟨s, hs, ms, layout, parts, (hf.fashions hs hn hh hforms hcompare).2⟩

end Furnishing

end Furnish

end Loader

namespace Shared

open Catalogue Loader

variable {s s' : Shared} {scripts : List Script} {h : Handle}

/-- A type is registered on the way from one state to another. -/
def Adds (s s' : Shared) (h : Handle) : Prop := s.catalogue.infos.size ≤ h ∧ h < s'.catalogue.infos.size

/-- The scripts of a load leave alone what is composed for their types: the constructors have signatures of
their own, no function takes the place of one that is composed, and none compares values that cannot be compared
part by part. -/
def Abides (s s' : Shared) (scripts : List Script) : Prop :=
  ∀ script ∈ scripts, ∀ h ms layout parts, s.Adds s' h → s'.catalogue.Composes h script ms layout parts →
    let whole := Aggregate.declared s'.catalogue script.name layout parts
    ((whole.constructors s'.catalogue).map (·.signature)).Nodup ∧
      ∀ other ∈ scripts, other.type = script.type → ∀ g ∈ other.functions, ∀ number,
        (functionOf s.loader.worldType script.type g number).Spares s'.catalogue whole

theorem fashions_load (hs : s.catalogue.Filed) (hact : s.act (.load scripts) = some s') (habides : s.Abides s' scripts)
    (hadds : s.Adds s' h) :
    ∃ script ∈ scripts, ∃ ms layout parts, s'.catalogue.Fashions h script ms layout parts := by
  obtain ⟨-, hs'⟩ := act_load_iff.mp hact
  obtain ⟨es, handles, c, k, hbuilds⟩ := exists_builds s.loader.worldType scripts (s.loader.unload s.workspace).2
  have hfiled := filed_unload s.loader hs
  have hsize : (s.loader.unload s.workspace).2.catalogue.infos.size = s.catalogue.infos.size := by
    rw [Workspace.catalogue, unload_context]
    exact size_removeTypes _ _
  obtain ⟨qs, hqs⟩ : ∃ qs, qs = (allPieces (s.loader.unload s.workspace).2.catalogue scripts handles).zipIdx
      (s.loader.unload s.workspace).2.context.bodies.size := ⟨_, rfl⟩
  have hcatalogue : s'.catalogue = furnish s.loader.worldType c qs := by
    rw [hs', hqs, show Shared.catalogue _ = (s.loader.load scripts s.workspace).2.2.catalogue from rfl,
      (load_built _ _ _).2, Workspace.catalogue, hbuilds.context]
    exact hbuilds.furnished.catalogue
  have hpieces : ∀ q ∈ qs, ∃ d ∈ accepted (s.loader.unload s.workspace).2.catalogue scripts,
      c.handle? d.2.type = some q.1.handle ∧ q.1.graph ∈ d.2.functions := fun q hq => by
    obtain ⟨d, hd, -, hhandle, hgraph⟩ := piece_of_mem hbuilds.declares (List.fst_mem_of_mem_zipIdx (hqs ▸ hq))
    exact ⟨d, hd, hhandle, hgraph⟩
  have hnew : h < c.infos.size := by
    have hlt := hadds.2
    rwa [hcatalogue, size_furnish] at hlt
  have hfurnishing : Furnishing s.loader.worldType s.catalogue.infos.size (· ∈ scripts) c qs := by
    refine ⟨fun h hold hh => ?_, fun q hq => ?_, fun script hscript h ms layout parts hold hh hcomposes => ?_⟩
    · obtain ⟨r, hr, hforms⟩ := hbuilds.declares.forms hfiled (hsize ▸ hold) hh
      exact ⟨r.1.2, script_of_numbered (mem_accepted_numbered ((schedule_perm _ scripts).mem_iff.mp
        (List.mem_map_of_mem hr))), hforms⟩
    · obtain ⟨d, hd, hhandle, -⟩ := hpieces q hq
      rcases hbuilds.declares.size_le_handle hhandle with hold | hle
      · have hfree := (screen_spec _ _ _).2.1 d hd
        rw [Catalogue.contains_eq, hold] at hfree
        cases hfree.2
      · rwa [hsize] at hle
    · have hadded : s.Adds s' h := ⟨hold, by rwa [hcatalogue, size_furnish]⟩
      rw [← hcatalogue] at hcomposes ⊢
      obtain ⟨hdistinct, hspares⟩ := habides script hscript h ms layout parts hadded hcomposes
      refine ⟨hdistinct, fun q hq hqh => ?_⟩
      obtain ⟨d, hd, hhandle, hgraph⟩ := hpieces q hq
      rw [hqh] at hhandle
      have hid : (c.info h).id = d.2.type := (hbuilds.declares.filed hfiled).info_id hhandle
      have hsame : d.2.type = script.type := by
        have hmakeup := hcomposes.makeup
        rw [Aggregate.makeup_info, hcatalogue] at hmakeup
        rw [← hid, (agree_furnish qs hh).id]
        exact congrArg TypeInfo.id hmakeup
      rw [Piece.function, hqh, hid, hsame]
      exact hspares d.2 (script_of_numbered (mem_accepted_numbered hd)) hsame _ hgraph _
  rw [hcatalogue]
  exact hfurnishing.exists_fashions hadds.1 hnew

end Shared

open Catalogue

/-- What the laws of some types rest upon, where `parts` tells what these are made of: two values are equal just if
their parts are, the types of parts from elsewhere obey the laws, and documents that are declared as defaults can be
read. Types that come later may call those before, so they need as many calls within each other as there are. -/
structure Grounds {V : Type} (w : Context) (own : Handle → Prop) (parts : Handle → List Part)
    (view : Handle → Memory → Place → V) : Prop where
  values : ∀ h, own h → ∀ m p m' p', view h m p = view h m' p' ↔
    ∀ part ∈ parts h, view part.type m (p.shift part.offset) = view part.type m' (p'.shift part.offset)
  lawful : ∀ h, own h → ∀ part ∈ parts h, ¬ own part.type → ∀ d, part.type < d →
    (w.catalogue.info part.type).Lawful (invokeWithin d) w (view part.type)
  defaults : ∀ h, own h → ∀ part ∈ parts h, ∀ j, part.default = some j → ∀ d, part.type < d →
    (w.catalogue.info part.type).Decodes (invokeWithin d) w j

/-- The laws go from the types of parts to aggregates of these, and on to aggregates of aggregates. -/
theorem Grounds.lawful_own {V : Type} {w : Context} {own : Handle → Prop} {parts : Handle → List Part}
    {view : Handle → Memory → Place → V} (hgrounds : Grounds w own parts view)
    (hown : ∀ h, own h → ∃ s ms layout, w.catalogue.Fashions h s ms layout (parts h)) {h : Handle} (hh : own h)
    {d : Nat}
    (hd : h < d) : (w.catalogue.info h).Lawful (invokeWithin d) w (view h) := by
  induction h using Nat.strong_induction_on generalizing d with
  | _ h ih =>
    obtain ⟨s, ms, layout, hfashions⟩ := hown h hh
    obtain ⟨d, rfl⟩ := Nat.exists_eq_add_one_of_ne_zero (Nat.ne_zero_of_lt hd)
    have hbelow : ∀ part ∈ parts h, part.type < d := fun part hpart =>
      (hfashions.type_lt hpart).trans_le (Nat.le_of_lt_succ hd)
    refine Aggregate.Upright.lawful_whole (V := V)
      { placed := hfashions.placed, values := hgrounds.values h hh, makeup := hfashions.makeup
        governs := hfashions.governs, lawful := fun part hpart => ?_
        defaults := fun part hpart j hj => hgrounds.defaults h hh part hpart j hj d (hbelow part hpart) }
    by_cases hpartOwn : own part.type
    · exact ih _ (hfashions.type_lt hpart) hpartOwn (hbelow part hpart)
    · exact hgrounds.lawful h hh part hpart hpartOwn d (hbelow part hpart)

namespace Shared

variable {s s' : Shared} {scripts : List Script}

/-- Whatever members make up an aggregate, it obeys the laws if their types do. And of the types that a load declares,
whatever their scripts and however these are nested, all obey the laws if the types from before do of which they have
parts, as long as the scripts leave the functions alone that are composed for them. -/
theorem lawful_load (hs : s.catalogue.Filed) (hact : s.act (.load scripts) = some s') (habides : s.Abides s' scripts) :
    (∀ (V W : Type) (d : Nat) (w : Context) (value : Handle → Memory → Place → V) (name : String)
      (members : List Member)
      (layout : Layout) (parts : List Part) (whole : Memory → Place → W),
      (((Aggregate.declared w.catalogue name layout parts).constructors w.catalogue).map (·.signature)).Nodup →
      Aggregate.Composite d w value members layout parts whole →
      (Aggregate.info w.catalogue name layout parts).Lawful (invokeWithin (d + 1)) w whole) ∧
    ∃ parts : Handle → List Part,
      (∀ h, s.Adds s' h →
        ∃ script ∈ scripts, ∃ ms layout, s'.catalogue.Composes h script ms layout (parts h)) ∧
      ∀ (V : Type) (w : Context) (view : Handle → Memory → Place → V), s'.catalogue.Extends w.catalogue →
        Grounds w (s.Adds s') parts view → ∀ h, s.Adds s' h → ∀ d, h < d →
        (w.catalogue.info h).Lawful (invokeWithin d) w (view h) := by
  have hall (h : Handle) : ∃ parts, s.Adds s' h →
      ∃ script ∈ scripts, ∃ ms layout, s'.catalogue.Fashions h script ms layout parts := by
    by_cases hh : s.Adds s' h
    · obtain ⟨script, hscript, ms, layout, parts, hfashions⟩ := fashions_load hs hact habides hh
      exact ⟨parts, fun _ => ⟨script, hscript, ms, layout, hfashions⟩⟩
    · exact ⟨[], fun hh' => absurd hh' hh⟩
  choose parts hfashions using hall
  refine ⟨fun V W d w value name members layout parts whole hdistinct h => Aggregate.lawful_info h hdistinct,
    parts, fun h hh => ?_, fun V w view hext hgrounds h hh d hd => ?_⟩
  · obtain ⟨script, hscript, ms, layout, hall⟩ := hfashions h hh
    exact ⟨script, hscript, ms, layout, hall.toComposes⟩
  · refine hgrounds.lawful_own (fun k hk => ?_) hh hd
    obtain ⟨script, -, ms, layout, hall⟩ := hfashions k hk
    exact ⟨script, ms, layout, hall.later hk.2 hext⟩

/-- Points obey the laws: two of them are equal just if all of their numbers are. -/
theorem lawful_load_point : ∃ (s s' : Shared) (parts : List Part), s.catalogue.Filed ∧
    s.act (.load [point]) = some s' ∧ s.Abides s' [point] ∧ s.Adds s' 1 ∧ parts.map (·.name) = ["x", "y"] ∧
    (s'.catalogue.info 1).traits.default ∧ (s'.catalogue.info 1).traits.copy ∧ ∀ d, 1 < d →
      (s'.catalogue.info 1).Lawful (invokeWithin d) s'.workspace.context fun m p =>
        parts.map fun part => m.read (p.shift part.offset) (.int .i32) := by
  obtain ⟨s', heirs, hsize, hact, hsize', hinfo, -, hfields⟩ := exists_chart digital_digits
  obtain ⟨s, hs⟩ : ∃ s, s = unladen.change (.register digits.info digital_digits.named) := ⟨_, rfl⟩
  rw [← hs] at hsize hact
  have hfiled : s.catalogue.Filed := by
    rw [hs]
    show (unladen.workspace.register digits.info).2.context.catalogue.Filed
    rw [(Loader.register_context _ _).2]
    exact filed_unladen.register_any digital_digits.named
  have hadds (h : Handle) : s.Adds s' h ↔ h = 1 := by
    rw [Adds, hsize, hsize', Nat.lt_succ_iff]
    exact ⟨fun hh => Nat.le_antisymm hh.2 hh.1, fun hh => ⟨hh.ge, hh.le⟩⟩
  have habides : s.Abides s' [point] := by
    refine List.forall_mem_singleton.mpr fun h ms layout parts _ _ => ⟨?_, ?_⟩
    · have hdistinct : point.type.constructions.Nodup := by decide +kernel
      exact hdistinct.sublist (Aggregate.sublist_constructions _ _)
    · exact List.forall_mem_singleton.mpr fun _ => List.forall_mem_nil _
  obtain ⟨-, parts, hcomposes, hlawful⟩ := lawful_load hfiled hact habides
  obtain ⟨script, hscript, ms, layout, hpoint⟩ := hcomposes 1 ((hadds 1).mpr rfl)
  cases List.mem_singleton.mp hscript
  have htype : ∀ part ∈ parts 1, part.type = 0 := fun part hpart => Nat.lt_one_iff.mp (hpoint.type_lt hpart)
  have hdefault : ∀ part ∈ parts 1, part.default = none := fun part hpart => by
    obtain ⟨f, hf, -, -, hdefault⟩ := hpoint.exists_field hpart
    rw [hdefault]
    rcases List.mem_pair.mp hf with rfl | rfl <;> rfl
  have htraits : (s'.catalogue.info 0).traits = digits.traits := by
    have hdigits := TypeInfo.makeup_withHeirs heirs digits.info
    rw [digits.makeup_info] at hdigits
    rw [hinfo]
    exact congrArg TypeInfo.traits hdigits
  have hmakeup := hpoint.makeup
  rw [Aggregate.makeup_info] at hmakeup
  have hall {f : Traits → Bool} (hf : f digits.traits = true) : ∀ part ∈ parts 1,
      f (s'.catalogue.info part.type).traits = true := fun part hpart => by
    rw [htype part hpart, htraits, hf]
  have hpointTraits := congrArg TypeInfo.traits hmakeup
  have hdefaults : (s'.catalogue.info 1).traits.default = true := by
    rw [show (s'.catalogue.info 1).traits.default = _ from congrArg Traits.default hpointTraits]
    exact List.all_eq_true.mpr fun part hpart => Bool.or_eq_true_iff.mpr
      (.inr (hall (f := Traits.default) rfl part hpart))
  have hcopies : (s'.catalogue.info 1).traits.copy = true := by
    rw [show (s'.catalogue.info 1).traits.copy = _ from congrArg Traits.copy hpointTraits]
    exact List.all_eq_true.mpr (hall (f := Traits.copy) rfl)
  refine ⟨s, s', parts 1, hfiled, hact, habides, (hadds 1).mpr rfl, ?_, hdefaults, hcopies, fun d hd => ?_⟩
  · have hpointFields := congrArg TypeInfo.fields hmakeup
    rw [← hfields, show (s'.catalogue.info 1).fields = _ from hpointFields, List.map_map]
    rfl
  let view (h : Handle) (m : Memory) (p : Place) : List Atom :=
    if h = 0 then digits.data m p else (parts h).map fun part => m.read (p.shift part.offset) (.int .i32)
  have hnumber (part : Part) (hpart : part ∈ parts 1) (m : Memory) (p : Place) :
      view part.type m p = [m.read p (.int .i32)] := by
    have hdata : digits.data m p = [m.read (p.shift 0) (.int .i32)] := rfl
    rw [Place.shift_zero] at hdata
    exact (if_pos (htype part hpart)).trans hdata
  refine hlawful (List Atom) s'.workspace.context view (.refl _) ⟨?_, ?_, ?_⟩ 1 ((hadds 1).mpr rfl) d hd
  · intro h hh m p m' p'
    cases (hadds h).mp hh
    refine List.map_inj_left.trans (forall₂_congr fun part hpart => ?_)
    rw [hnumber part hpart, hnumber part hpart, List.cons.injEq, and_iff_left rfl]
  · intro h hh part hpart _ d hd
    cases (hadds h).mp hh
    rw [htype part hpart] at hd ⊢
    obtain ⟨d, rfl⟩ := Nat.exists_eq_add_one_of_ne_zero (Nat.ne_zero_of_lt hd)
    rw [show s'.workspace.context.catalogue.info 0 = _ from hinfo]
    have hdistinct : digits.id.constructions.Nodup := by decide +kernel
    exact (NativeType.governs_withHeirs hdistinct heirs).lawful (NativeType.lossless_int "i32" .i32 true)
  · intro h hh part hpart j hj
    cases (hadds h).mp hh
    cases (hdefault part hpart).symm.trans hj

end Shared

end Flowscript
