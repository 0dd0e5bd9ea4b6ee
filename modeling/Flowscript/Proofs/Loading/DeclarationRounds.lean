import Mathlib.Data.List.Nodup
import Mathlib.Data.List.Perm.Basic
import Flowscript.Loader
import Flowscript.Proofs.Types.SuccessorSearch

/-! # The order in which scripts are declared

One script is declared in each round: one whose fields wait for no other, or else one on a circle of
fields, which may then not use the types that lead back to it. Which script that is depends on the
scripts alone, and each script has its round.
-/
namespace Flowscript.Loader

structure Apart (scripts : List Candidate) : Prop where
  positions : (scripts.map (·.1)).Nodup
  names : (scripts.map (·.2.name)).Nodup

variable {pending : List Candidate} {s d : Candidate}

namespace Apart

theorem sublist (h : Apart pending) {some : List Candidate} (hs : some.Sublist pending) : Apart some :=
  ⟨h.positions.sublist (hs.map _), h.names.sublist (hs.map _)⟩

theorem nodup (h : Apart pending) : pending.Nodup := .of_map _ h.positions

theorem eq_of_position (h : Apart pending) (hs : s ∈ pending) (hd : d ∈ pending) (he : s.1 = d.1) :
    s = d := List.inj_on_of_nodup_map h.positions hs hd he

theorem eq_of_name (h : Apart pending) (hs : s ∈ pending) (hd : d ∈ pending)
    (he : s.2.name = d.2.name) : s = d := List.inj_on_of_nodup_map h.names hs hd he

theorem find?_name (h : Apart pending) (hd : d ∈ pending) :
    pending.find? (·.2.name == d.2.name) = some d := by
  cases hfind : pending.find? (·.2.name == d.2.name) with
  | none => exact absurd BEq.rfl (List.find?_eq_none.mp hfind d hd)
  | some e =>
    have hname : e.2.name = d.2.name := by simpa using List.find?_some hfind
    rw [h.eq_of_name (List.mem_of_find?_eq_some hfind) hd hname]

theorem perm_remove (h : Apart pending) (hs : s ∈ pending) :
    (s :: pending.filter (·.1 != s.1)).Perm pending := by
  have hnot : s ∉ pending.filter (·.1 != s.1) := by simp
  rw [List.perm_ext_iff_of_nodup (List.nodup_cons.mpr ⟨hnot, h.nodup.filter _⟩) h.nodup]
  intro x
  rw [List.mem_cons, List.mem_filter, bne_iff_ne]
  constructor
  · rintro (rfl | hx)
    · exact hs
    · exact hx.1
  · intro hx
    by_cases he : x.1 = s.1
    · exact .inl (h.eq_of_position hx hs he)
    · exact .inr ⟨hx, he⟩

end Apart

theorem mem_waitsOn_iff (h : Apart pending) :
    d ∈ waitsOn pending s ↔ d ∈ pending ∧ d.1 ≠ s.1 ∧ ∃ f ∈ s.2.fields, f.type = d.2.name := by
  simp only [waitsOn, List.mem_filterMap, Option.filter_eq_some_iff, bne_iff_ne]
  constructor
  · rintro ⟨f, hf, hfind, hne⟩
    have hname : d.2.name = f.type := by simpa using List.find?_some hfind
    exact ⟨List.mem_of_find?_eq_some hfind, hne, f, hf, hname.symm⟩
  · rintro ⟨hd, hne, f, hf, hname⟩
    refine ⟨f, hf, ?_, hne⟩
    rw [hname]
    exact h.find?_name hd

theorem isReady_iff : isReady pending s = true ↔
    ∀ f ∈ s.2.fields, f.type = s.2.name ∨ ∀ d ∈ pending, d.2.name ≠ f.type := by
  simp [isReady]

theorem waitsOn_eq_nil_of_isReady (h : Apart pending) (hs : s ∈ pending)
    (hready : isReady pending s = true) : waitsOn pending s = [] := by
  rw [List.eq_nil_iff_forall_not_mem]
  intro d hd
  obtain ⟨hmem, hne, f, hf, hname⟩ := (mem_waitsOn_iff h).mp hd
  rcases isReady_iff.mp hready f hf with hself | hnone
  · have hsame := h.eq_of_name hmem hs (hname.symm.trans hself)
    exact hne (congrArg Prod.fst hsame)
  · exact hnone d hmem hname.symm

theorem isReady_of_waitsOn_eq_nil (h : Apart pending) (hs : s ∈ pending)
    (hnil : waitsOn pending s = []) : isReady pending s = true := by
  rw [isReady_iff]
  intro f hf
  by_contra hnot
  push Not at hnot
  obtain ⟨hself, d, hd, hname⟩ := hnot
  have hne : d.1 ≠ s.1 := fun he => hself (h.eq_of_position hd hs he ▸ hname.symm)
  have hwaits := (mem_waitsOn_iff h).mpr ⟨hd, hne, f, hf, hname.symm⟩
  rw [hnil] at hwaits
  cases hwaits

section Leads

theorem leadsTo_eq_search (goal : Nat) (fuel : Nat) (seen : List Nat) (stack : List Candidate) :
    leadsTo pending goal fuel seen stack =
      search (·.1) (waitsOn pending) goal fuel seen stack := by
  induction fuel generalizing seen stack with
  | zero => rfl
  | succ fuel ih =>
    cases stack with
    | nil => rfl
    | cons s rest => rw [leadsTo, search, ih, ih]

def width (pending : List Candidate) (position : Nat) : Nat :=
  ((pending.find? (·.1 == position)).map (·.2.fields.length)).getD 0

theorem width_of_mem (h : Apart pending) (hs : s ∈ pending) :
    width pending s.1 = s.2.fields.length := by
  unfold width
  cases hfind : pending.find? (·.1 == s.1) with
  | none => exact absurd BEq.rfl (List.find?_eq_none.mp hfind s hs)
  | some e =>
    have hposition : e.1 = s.1 := by simpa using List.find?_some hfind
    have hsame := h.eq_of_position (List.mem_of_find?_eq_some hfind) hs hposition
    rw [hsame, Option.map_some, Option.getD_some]

theorem searchable (h : Apart pending) :
    Searchable (·.1) (waitsOn pending) (· ∈ pending) (pending.map (·.1)) (width pending) := by
  refine ⟨fun s _ d hd => ((mem_waitsOn_iff h).mp hd).1, fun s d hs hd => h.eq_of_position hs hd,
    fun s hs => ?_⟩
  rw [if_pos (List.mem_map_of_mem hs), width_of_mem h hs]
  exact List.length_filterMap_le _ _

theorem unseen_lt_searchBound (h : Apart pending) :
    1 + unseen (pending.map (·.1)) (width pending) [] ≤ searchBound pending := by
  have hwidths : (pending.map (·.1)).map (width pending) = pending.map (·.2.fields.length) := by
    rw [List.map_map]
    exact List.map_congr_left fun s hs => width_of_mem h hs
  have hfold : ∀ (l : List Candidate) n, n + (l.map (·.2.fields.length)).sum ≤
      l.foldl (fun n s => n + s.2.fields.length + 1) n := by
    intro l
    induction l with
    | nil => exact fun n => le_rfl
    | cons s l ih =>
      intro n
      have ih := ih (n + s.2.fields.length + 1)
      rw [List.map_cons, List.sum_cons, List.foldl_cons]
      omega
  have hbound := hfold pending 2
  simp only [unseen, List.not_mem_nil, if_false]
  rw [hwidths]
  unfold searchBound
  omega

theorem leadsTo_iff (h : Apart pending) (hs : s ∈ pending) (hd : d ∈ pending) :
    leadsTo pending s.1 (searchBound pending) [] [d] = true ↔ LeadsTo (waitsOn pending) d s := by
  rw [leadsTo_eq_search, search_iff (searchable h) (by simpa using hd) (unseen_lt_searchBound h)]
  constructor
  · rintro ⟨x, hx, y, hy, hposition⟩
    cases List.mem_singleton.mp hx
    have hmem : y ∈ pending := by
      rcases Relation.ReflTransGen.cases_tail_iff _ _ _ |>.mp hy with rfl | ⟨z, -, hz⟩
      · exact hd
      · exact ((mem_waitsOn_iff h).mp hz).1
    rw [← h.eq_of_position hmem hs hposition]
    exact hy
  · exact fun hy => ⟨d, List.mem_singleton_self d, s, hy, rfl⟩

end Leads

section Walk

theorem walk_mem (h : Apart pending) {fuel : Nat} {seen : List Nat} (hs : s ∈ pending) :
    walk pending fuel seen s ∈ pending := by
  induction fuel generalizing seen s with
  | zero => exact hs
  | succ fuel ih =>
    rw [walk]
    split
    · exact hs
    · cases hw : waitsOn pending s with
      | nil => exact hs
      | cons next rest =>
        have hnext : next ∈ waitsOn pending s := hw ▸ List.mem_cons_self
        exact ih ((mem_waitsOn_iff h).mp hnext).1

/-- When every script waits for another, a walk comes back to a script on a circle: all scripts seen
lead to the one at hand, and there are not enough scripts to see a new one each time. -/
theorem walk_circle (h : Apart pending) (hstuck : ∀ x ∈ pending, waitsOn pending x ≠ []) {fuel : Nat}
    {seen : List Nat} (hs : s ∈ pending) (hnodup : seen.Nodup)
    (hseen : ∀ k ∈ seen, ∃ x ∈ pending, x.1 = k ∧
      Relation.TransGen (fun x y => y ∈ waitsOn pending x) x s)
    (hfuel : fuel + seen.length = pending.length + 1) :
    Relation.TransGen (fun x y => y ∈ waitsOn pending x) (walk pending fuel seen s)
      (walk pending fuel seen s) := by
  induction fuel generalizing seen s with
  | zero =>
    have hsub : seen ⊆ pending.map (·.1) := by
      intro k hk
      obtain ⟨x, hx, rfl, -⟩ := hseen k hk
      exact List.mem_map_of_mem hx
    have hle := (List.subperm_of_subset hnodup hsub).length_le
    rw [List.length_map] at hle
    omega
  | succ fuel ih =>
    rw [walk]
    split
    · next hback =>
      rw [List.contains_iff_mem] at hback
      obtain ⟨x, hx, hposition, hchain⟩ := hseen s.1 hback
      rw [h.eq_of_position hx hs hposition] at hchain
      exact hchain
    · next hnew =>
      rw [List.contains_iff_mem] at hnew
      cases hw : waitsOn pending s with
      | nil => exact absurd hw (hstuck s hs)
      | cons next rest =>
        have hnext : next ∈ waitsOn pending s := hw ▸ List.mem_cons_self
        refine ih ((mem_waitsOn_iff h).mp hnext).1 (List.nodup_cons.mpr ⟨hnew, hnodup⟩)
          (fun k hk => ?_) (by rw [List.length_cons]; omega)
        rcases List.mem_cons.mp hk with rfl | hk
        · exact ⟨s, hs, rfl, .single hnext⟩
        · obtain ⟨x, hx, hposition, hchain⟩ := hseen k hk
          exact ⟨x, hx, hposition, hchain.tail hnext⟩

end Walk

section Choose

variable {first : Candidate} {blocked : List String}

theorem choose_mem (h : Apart pending) (hfirst : first ∈ pending) :
    (choose first pending).1 ∈ pending := by
  unfold choose
  cases hready : pending.find? (isReady pending) with
  | some s => exact List.mem_of_find?_eq_some hready
  | none => exact walk_mem h hfirst

/-- The types that the script of a round may not use are those it waits for that lead back to it. -/
theorem mem_blocked_iff (h : Apart pending) (hfirst : first ∈ pending)
    (hchoose : choose first pending = (s, blocked)) {name : String} :
    name ∈ blocked ↔
      ∃ d ∈ waitsOn pending s, d.2.name = name ∧ LeadsTo (waitsOn pending) d s := by
  unfold choose at hchoose
  cases hready : pending.find? (isReady pending) with
  | some r =>
    rw [hready] at hchoose
    cases hchoose
    rw [waitsOn_eq_nil_of_isReady h (List.mem_of_find?_eq_some hready) (List.find?_some hready)]
    simp
  | none =>
    rw [hready] at hchoose
    cases hchoose
    have hs : walk pending (pending.length + 1) [] first ∈ pending := walk_mem h hfirst
    rw [List.mem_map]
    constructor
    · rintro ⟨d, hd, rfl⟩
      rw [List.mem_filter] at hd
      have hmem := ((mem_waitsOn_iff h).mp hd.1).1
      exact ⟨d, hd.1, rfl, (leadsTo_iff h hs hmem).mp hd.2⟩
    · rintro ⟨d, hd, rfl, hleads⟩
      have hmem := ((mem_waitsOn_iff h).mp hd).1
      exact ⟨d, List.mem_filter.mpr ⟨hd, (leadsTo_iff h hs hmem).mpr hleads⟩, rfl⟩

theorem choose_circle (h : Apart pending) (hfirst : first ∈ pending)
    (hchoose : choose first pending = (s, blocked)) (hwaits : waitsOn pending s ≠ []) :
    Relation.TransGen (fun x y => y ∈ waitsOn pending x) s s := by
  unfold choose at hchoose
  cases hready : pending.find? (isReady pending) with
  | some r =>
    rw [hready] at hchoose
    cases hchoose
    exact absurd (waitsOn_eq_nil_of_isReady h (List.mem_of_find?_eq_some hready)
      (List.find?_some hready)) hwaits
  | none =>
    rw [hready] at hchoose
    cases hchoose
    refine walk_circle h (fun x hx hnil => ?_) hfirst List.nodup_nil (fun k hk => nomatch hk) rfl
    exact List.find?_eq_none.mp hready x hx (isReady_of_waitsOn_eq_nil h hx hnil)

end Choose

/-- What is declared round by round: a script, and the names its fields may not use. -/
def rounds : Nat → List Candidate → List (Candidate × List String)
  | 0, _ => []
  | _ + 1, [] => []
  | fuel + 1, first :: rest =>
    let r := choose first (first :: rest)
    r :: rounds fuel ((first :: rest).filter (·.1 != r.1.1))

theorem rounds_perm (h : Apart pending) {fuel : Nat} (hfuel : pending.length ≤ fuel) :
    ((rounds fuel pending).map (·.1)).Perm pending := by
  induction fuel generalizing pending with
  | zero =>
    rw [List.length_eq_zero_iff.mp (Nat.le_zero.mp hfuel)]
    exact .nil
  | succ fuel ih =>
    cases pending with
    | nil => exact .nil
    | cons first rest =>
      have hmem := choose_mem h List.mem_cons_self
      have hperm := h.perm_remove hmem
      have hlength := hperm.length_eq
      rw [List.length_cons] at hlength
      rw [rounds, List.map_cons]
      exact ((ih (h.sublist List.filter_sublist) (by omega)).cons _).trans hperm

theorem pending_of_rounds (h : Apart pending) {fuel : Nat} (hfuel : pending.length ≤ fuel)
    {before after : List (Candidate × List String)} {blocked : List String}
    (hrounds : rounds fuel pending = before ++ (s, blocked) :: after) :
    ∃ now first, now.Sublist pending ∧ first ∈ now ∧ choose first now = (s, blocked) ∧
      (s :: after.map (·.1)).Perm now := by
  induction before generalizing fuel pending with
  | nil =>
    cases fuel with
    | zero => cases hrounds
    | succ fuel =>
      cases pending with
      | nil => cases hrounds
      | cons first rest =>
        rw [rounds, List.nil_append] at hrounds
        obtain ⟨hchoose, hafter⟩ := List.cons.inj hrounds
        refine ⟨first :: rest, first, .refl _, List.mem_cons_self, hchoose, ?_⟩
        have hperm := rounds_perm h hfuel
        rw [rounds, List.map_cons, hchoose] at hperm
        rw [← hafter, hchoose]
        exact hperm
  | cons r before ih =>
    cases fuel with
    | zero => cases hrounds
    | succ fuel =>
      cases pending with
      | nil => cases hrounds
      | cons first rest =>
        rw [rounds, List.cons_append] at hrounds
        obtain ⟨-, hrest⟩ := List.cons.inj hrounds
        have hmem : (choose first (first :: rest)).1 ∈ first :: rest := choose_mem h List.mem_cons_self
        have hlength := (h.perm_remove hmem).length_eq
        rw [List.length_cons] at hlength
        obtain ⟨now, first', hsub, hrest⟩ :=
          ih (h.sublist List.filter_sublist) (by omega) hrest
        exact ⟨now, first', hsub.trans List.filter_sublist, hrest⟩

section Screen

/-- Scripts whose names can be used are among those to load, have different names, and no type is
registered under the identity of one. -/
theorem screen_spec (c : Catalogue) (names : List String) (candidates : List Candidate) :
    (screen c names candidates).1.Sublist candidates ∧
      (∀ s ∈ (screen c names candidates).1, s.2.name ∉ names ∧ c.contains s.2.type = false) ∧
      ((screen c names candidates).1.map (·.2.name)).Nodup := by
  induction candidates generalizing names with
  | nil => exact ⟨.slnil, fun _ hs => (nomatch hs), List.nodup_nil⟩
  | cons s rest ih =>
    obtain ⟨hsub, hfree, hnodup⟩ := ih (s.2.name :: names)
    simp only [screen]
    split
    · exact ⟨hsub.cons s, fun d hd => ⟨fun hm => (hfree d hd).1 (List.mem_cons_of_mem _ hm),
        (hfree d hd).2⟩, hnodup⟩
    · next hok =>
      simp only [Bool.or_eq_true, List.contains_iff_mem, not_or, Bool.not_eq_true] at hok
      refine ⟨hsub.cons_cons s, List.forall_mem_cons.mpr ⟨hok, fun d hd => ?_⟩, ?_⟩
      · exact ⟨fun hm => (hfree d hd).1 (List.mem_cons_of_mem _ hm), (hfree d hd).2⟩
      · rw [List.map_cons, List.nodup_cons]
        refine ⟨fun hm => ?_, hnodup⟩
        obtain ⟨d, hd, hname⟩ := List.mem_map.mp hm
        exact (hfree d hd).1 (hname ▸ List.mem_cons_self)

def numbered (scripts : List Script) : List Candidate := scripts.zipIdx.map fun (s, i) => (i, s)

theorem nodup_numbered (scripts : List Script) : ((numbered scripts).map (·.1)).Nodup := by
  have hpositions : (numbered scripts).map (·.1) = List.range scripts.length := by
    rw [numbered, List.map_map, List.range_eq_range']
    exact List.zipIdx_map_snd 0 scripts
  rw [hpositions]
  exact List.nodup_range

theorem apart_screen (c : Catalogue) (scripts : List Script) :
    Apart (screen c [] (numbered scripts)).1 :=
  ⟨(nodup_numbered scripts).sublist ((screen_spec c [] _).1.map _), (screen_spec c [] _).2.2⟩

end Screen

end Flowscript.Loader
