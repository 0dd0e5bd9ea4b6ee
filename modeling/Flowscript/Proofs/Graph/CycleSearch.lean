import Mathlib.Data.List.Nodup
import Mathlib.Data.List.Perm.Subperm
import Mathlib.Logic.Relation
import Flowscript.Graph.Reach
import Flowscript.Proofs.CollectionLemmas

/-! # The search for cycles

The search leaves a node after it has left everything the node reads, except for nodes that it is still
inside of: these it finds. So the order in which nodes were left puts every producer that was not found
before its consumers, and every cycle goes through a node that was found. What it does find depends on
itself: every node the search is inside of depends on the one it is in.
-/
namespace Flowscript.Graph

variable {edges : List (NodeId × NodeId)} {found found' : List NodeId}

/-- Nodes, each before everything it reads, except for nodes that were found. -/
def Layered (edges : List (NodeId × NodeId)) (found : List NodeId) : List NodeId → Prop
  | [] => True
  | n :: rest => (∀ p, (n, p) ∈ edges → p ∈ rest ∨ p ∈ found) ∧ n ∉ rest ∧ Layered edges found rest

namespace Layered

theorem mono {order : List NodeId} (h : Layered edges found order) (hfound : found ⊆ found') :
    Layered edges found' order := by
  induction order with
  | nil => trivial
  | cons n rest ih =>
    obtain ⟨hn, hnot, hrest⟩ := h
    exact ⟨fun p hp => (hn p hp).imp_right fun hp => hfound hp, hnot, ih hrest⟩

theorem closed {order : List NodeId} (h : Layered edges found order) {n p : NodeId} (hn : n ∈ order)
    (hp : (n, p) ∈ edges) : p ∈ order ∨ p ∈ found := by
  induction order with
  | nil => cases hn
  | cons m rest ih =>
    obtain ⟨hm, -, hrest⟩ := h
    rcases List.mem_cons.mp hn with rfl | hn
    · exact (hm p hp).imp_left (List.mem_cons_of_mem _)
    · exact (ih hrest hn).imp_left (List.mem_cons_of_mem _)

theorem closed_transGen {order : List NodeId} (h : Layered edges found order) {n p : NodeId}
    (hn : n ∈ order) (hp : Relation.TransGen (fun a b => (a, b) ∈ edges ∧ b ∉ found) n p) : p ∈ order := by
  induction hp with
  | single hp => exact (h.closed hn hp.1).resolve_right hp.2
  | tail _ hp ih => exact (h.closed ih hp.1).resolve_right hp.2

theorem acyclic {order : List NodeId} (h : Layered edges found order) {n : NodeId} (hn : n ∈ order) :
    ¬ Relation.TransGen (fun a b => (a, b) ∈ edges ∧ b ∉ found) n n := by
  induction order with
  | nil => cases hn
  | cons m rest ih =>
    obtain ⟨hm, hnot, hrest⟩ := h
    by_cases hr : n ∈ rest
    · exact ih hrest hr
    · obtain rfl : n = m := (List.mem_cons.mp hn).resolve_right hr
      intro hcycle
      -- The first step leads into the rest, and nothing leads out of it.
      obtain ⟨p, hp, hback⟩ := Relation.TransGen.head'_iff.mp hcycle
      have hp := (hm p hp.1).resolve_right hp.2
      rcases Relation.reflTransGen_iff_eq_or_transGen.mp hback with rfl | hback
      · exact hnot hp
      · exact hnot (hrest.closed_transGen hp hback)

end Layered

def explore (edges : List (NodeId × NodeId)) (fuel : Nat) (s : CycleSearch) (p : NodeId) :
    CycleSearch :=
  if s.left.contains p then s
  else if s.entered.contains p then
    if s.cycles.contains p then s else { s with cycles := p :: s.cycles }
  else visit edges fuel s p

def producers (edges : List (NodeId × NodeId)) (n : NodeId) : List NodeId :=
  (edges.filter (·.1 == n)).map (·.2)

theorem mem_producers_iff {n p : NodeId} : p ∈ producers edges n ↔ (n, p) ∈ edges := by
  simp [producers]

theorem visit_succ (fuel : Nat) (s : CycleSearch) (n : NodeId) :
    visit edges (fuel + 1) s n =
      let t := (producers edges n).foldl (explore edges fuel) { s with entered := n :: s.entered }
      { t with entered := t.entered.erase n, left := n :: t.left } := rfl

/-- What a part of the search adds: it left some nodes, found some, each once, and is where it was. -/
structure Visited (edges : List (NodeId × NodeId)) (s t : CycleSearch) : Prop where
  layered : Layered edges t.cycles t.left
  kept : s.left ⊆ t.left
  found : s.cycles ⊆ t.cycles
  entered : t.entered = s.entered
  apart : ∀ m ∈ s.entered, m ∉ t.left
  once : s.cycles.Nodup → t.cycles.Nodup

namespace Visited

variable {s t u : CycleSearch}

theorem trans (h : Visited edges s t) (h' : Visited edges t u) : Visited edges s u :=
  ⟨h'.layered, fun _ hm => h'.kept (h.kept hm), fun _ hm => h'.found (h.found hm),
    h'.entered.trans h.entered, fun m hm => h'.apart m (h.entered ▸ hm), fun hs => h'.once (h.once hs)⟩

/-- Things are visited one after the other, each from where the one before left the search, and what
has been done to one stays done. -/
theorem foldl {α : Type} {f : CycleSearch → α → CycleSearch} {P : CycleSearch → Prop}
    {D : CycleSearch → α → Prop} (hP : ∀ s t, P s → Visited edges s t → P t)
    (hnil : ∀ s, P s → Visited edges s s) (hD : ∀ s t a, Visited edges s t → D s a → D t a)
    (hf : ∀ s, P s → ∀ a, Visited edges s (f s a) ∧ D (f s a) a) (as : List α) (s : CycleSearch) (hs : P s) :
    Visited edges s (as.foldl f s) ∧ ∀ a ∈ as, D (as.foldl f s) a := by
  induction as generalizing s with
  | nil => exact ⟨hnil s hs, List.forall_mem_nil _⟩
  | cons a as ih =>
    obtain ⟨hone, hdone⟩ := hf s hs a
    obtain ⟨hrest, hall⟩ := ih (f s a) (hP s _ hs hone)
    exact ⟨hone.trans hrest, List.forall_mem_cons.mpr ⟨hD _ _ a hrest hdone, hall⟩⟩

end Visited

/-- What holds of a search started at a node: nodes it has left come before what they read, it is
inside of different nodes none of which it has left, and there is fuel to get inside of all others. -/
structure Searching (edges : List (NodeId × NodeId)) (root : NodeId) (fuel : Nat)
    (s : CycleSearch) : Prop where
  layered : Layered edges s.cycles s.left
  apart : ∀ n ∈ s.entered, n ∉ s.left
  nodup : s.entered.Nodup
  known : ∀ n ∈ s.entered, n = root ∨ n ∈ edges.map (·.2)
  fuel : edges.length + 1 ≤ s.entered.length + fuel

namespace Searching

variable {root n : NodeId} {fuel : Nat} {s t : CycleSearch}

theorem stay (h : Searching edges root fuel s) : Visited edges s s :=
  ⟨h.layered, fun _ hm => hm, fun _ hm => hm, rfl, h.apart, fun hs => hs⟩

theorem find (h : Searching edges root fuel s) (hn : n ∉ s.cycles) :
    Visited edges s { s with cycles := n :: s.cycles } :=
  ⟨h.layered.mono (List.subset_cons_self n s.cycles), fun _ hm => hm, List.subset_cons_self n s.cycles, rfl,
    h.apart, fun hs => List.nodup_cons.mpr ⟨hn, hs⟩⟩

theorem visited (h : Searching edges root fuel s) (hv : Visited edges s t) :
    Searching edges root fuel t :=
  ⟨hv.layered, fun m hm => hv.apart m (hv.entered ▸ hm), hv.entered ▸ h.nodup,
    fun m hm => h.known m (hv.entered ▸ hm), hv.entered ▸ h.fuel⟩

theorem fuel_pos (h : Searching edges root fuel s) (hn : n ∉ s.entered)
    (hknown : n = root ∨ n ∈ edges.map (·.2)) : 0 < fuel := by
  have hnodup : (n :: s.entered).Nodup := List.nodup_cons.mpr ⟨hn, h.nodup⟩
  have hsub : n :: s.entered ⊆ root :: edges.map (·.2) := by
    intro m hm
    rcases List.mem_cons.mp hm with rfl | hm
    · exact List.mem_cons.mpr hknown
    · exact List.mem_cons.mpr (h.known m hm)
  have hlen := (hnodup.subperm hsub).length_le
  simp only [List.length_cons, List.length_map] at hlen
  have := h.fuel
  omega

theorem enter (h : Searching edges root (fuel + 1) s) (hleft : n ∉ s.left)
    (hentered : n ∉ s.entered) (hknown : n = root ∨ n ∈ edges.map (·.2)) :
    Searching edges root fuel { s with entered := n :: s.entered } := by
  refine ⟨h.layered, fun m hm => ?_, List.nodup_cons.mpr ⟨hentered, h.nodup⟩, fun m hm => ?_, ?_⟩
  · rcases List.mem_cons.mp hm with rfl | hm
    · exact hleft
    · exact h.apart m hm
  · rcases List.mem_cons.mp hm with rfl | hm
    · exact hknown
    · exact h.known m hm
  · have := h.fuel
    simp only [List.length_cons]
    omega

end Searching

def Visits (edges : List (NodeId × NodeId)) (root : NodeId) (fuel : Nat) : Prop :=
  ∀ s n, Searching edges root fuel s → n ∉ s.left → n ∉ s.entered →
    (n = root ∨ n ∈ edges.map (·.2)) →
    Visited edges s (visit edges fuel s n) ∧ n ∈ (visit edges fuel s n).left

def Met (s : CycleSearch) (n : NodeId) : Prop := n ∈ s.left ∨ n ∈ s.cycles

theorem Visited.met {s t : CycleSearch} {n : NodeId} (h : Visited edges s t) (hn : Met s n) : Met t n :=
  hn.imp (fun hn => h.kept hn) fun hn => h.found hn

theorem visited_explore {root p : NodeId} {fuel : Nat} (hvisits : Visits edges root fuel)
    {s : CycleSearch} (h : Searching edges root fuel s) (hp : p ∈ edges.map (·.2)) :
    Visited edges s (explore edges fuel s p) ∧ Met (explore edges fuel s p) p := by
  unfold explore
  by_cases hleft : s.left.contains p
  · rw [if_pos hleft]
    exact ⟨h.stay, .inl (List.contains_iff_mem.mp hleft)⟩
  · rw [if_neg hleft]
    by_cases hentered : s.entered.contains p
    · -- The search has come back to a node it is inside of.
      rw [if_pos hentered]
      by_cases hcycles : s.cycles.contains p
      · rw [if_pos hcycles]
        exact ⟨h.stay, .inr (List.contains_iff_mem.mp hcycles)⟩
      · rw [if_neg hcycles]
        rw [List.contains_iff_mem] at hcycles
        exact ⟨h.find hcycles, .inr List.mem_cons_self⟩
    · rw [if_neg hentered]
      rw [List.contains_iff_mem] at hleft hentered
      obtain ⟨hvisited, hmem⟩ := hvisits s p h hleft hentered (.inr hp)
      exact ⟨hvisited, .inl hmem⟩

theorem visited_visit (root : NodeId) (fuel : Nat) : Visits edges root fuel := by
  induction fuel with
  | zero =>
    intro s n h _ hentered hknown
    exact absurd (h.fuel_pos hentered hknown) (Nat.lt_irrefl 0)
  | succ fuel ih =>
    intro s n h hleft hentered hknown
    have hmem : ∀ p ∈ producers edges n, p ∈ edges.map (·.2) := fun p hp =>
      List.mem_map.mpr ⟨(n, p), mem_producers_iff.mp hp, rfl⟩
    obtain ⟨hall, hmet⟩ := Visited.foldl (D := fun s p => Met s p.1) (fun _ _ => Searching.visited)
      (fun _ ht => ht.stay) (fun _ _ _ => Visited.met)
      (fun t ht p => visited_explore (p := p.1) ih ht (hmem p.1 p.2)) (producers edges n).attach _
      (h.enter hleft hentered hknown)
    rw [visit_succ]
    rw [List.foldl_attach] at hall hmet
    refine ⟨⟨⟨fun p hp => ?_, hall.apart n List.mem_cons_self, hall.layered⟩,
      fun m hm => List.mem_cons_of_mem n (hall.kept hm), hall.found, ?_, fun m hm => ?_, hall.once⟩,
      List.mem_cons_self⟩
    · exact hmet ⟨p, mem_producers_iff.mpr hp⟩ (List.mem_attach _ _)
    · dsimp only
      rw [hall.entered]
      exact List.erase_cons_head n s.entered
    · rw [List.mem_cons, not_or]
      exact ⟨fun he => hentered (he ▸ hm), hall.apart m (List.mem_cons_of_mem n hm)⟩

/-- What the search does in all: it leaves every live node, and what it finds it finds once. -/
theorem exists_visited (g : Graph) : ∃ t, t.cycles.reverse = g.dataCycles ∧
    Visited g.dependencies {} t ∧ ∀ n ∈ g.liveNodes, n.id ∈ t.left := by
  generalize hfuel : g.nodes.size + g.dependencies.length + 1 = fuel
  -- Between the visits of live nodes the search is inside of none, so it can start at any.
  have hstart : ∀ (s : CycleSearch) (root : NodeId),
      Layered g.dependencies s.cycles s.left ∧ s.entered = [] → Searching g.dependencies root fuel s := by
    rintro s root ⟨hs, he⟩
    refine ⟨hs, ?_, ?_, ?_, by omega⟩ <;> rw [he]
    · exact List.forall_mem_nil _
    · exact List.nodup_nil
    · exact List.forall_mem_nil _
  have hnode : ∀ s, Layered g.dependencies s.cycles s.left ∧ s.entered = [] → ∀ n : Node,
      let t := if s.left.contains n.id then s else visit g.dependencies fuel s n.id
      Visited g.dependencies s t ∧ n.id ∈ t.left := by
    intro s hs n
    by_cases hl : s.left.contains n.id
    · simp only [hl, if_true]
      exact ⟨(hstart s n.id hs).stay, List.contains_iff_mem.mp hl⟩
    · simp only [hl]
      exact visited_visit n.id fuel s n.id (hstart s n.id hs)
        (fun hm => hl (List.contains_iff_mem.mpr hm)) (by rw [hs.2]; exact List.not_mem_nil) (.inl rfl)
  obtain ⟨hall, hleft⟩ := Visited.foldl (D := fun s (n : Node) => n.id ∈ s.left)
    (fun s t hs hv => ⟨hv.layered, hv.entered.trans hs.2⟩) (fun s hs => (hstart s ⟨0⟩ hs).stay)
    (fun _ _ _ hv hn => hv.kept hn) hnode g.liveNodes {} ⟨trivial, rfl⟩
  refine ⟨_, ?_, hall, hleft⟩
  rw [dataCycles, hfuel]

theorem nodup_dataCycles (g : Graph) : g.dataCycles.Nodup := by
  obtain ⟨t, hfound, hvisited, -⟩ := g.exists_visited
  rw [← hfound, List.nodup_reverse]
  exact hvisited.once List.nodup_nil

theorem exists_mem_dataCycles {g : Graph} {n : Node} (hn : n ∈ g.liveNodes)
    (hcycle : Relation.TransGen (fun a b => (a, b) ∈ g.dependencies) n.id n.id) :
    ∃ id ∈ g.dataCycles, Relation.ReflTransGen (fun a b => (a, b) ∈ g.dependencies) n.id id ∧
      Relation.ReflTransGen (fun a b => (a, b) ∈ g.dependencies) id n.id := by
  obtain ⟨t, hfound, hvisited, hall⟩ := g.exists_visited
  obtain ⟨id, hid, hthrough⟩ := exists_mem_of_transGen (hvisited.layered.acyclic (hall n hn)) hcycle
  exact ⟨id, hfound ▸ List.mem_reverse.mpr hid, hthrough⟩

def OnCycles (edges : List (NodeId × NodeId)) (s : CycleSearch) : Prop :=
  ∀ p ∈ s.cycles, Relation.TransGen (fun a b => (a, b) ∈ edges) p p

theorem entered_explore {fuel : Nat} (hvisit : ∀ s n, (visit edges fuel s n).entered = s.entered)
    (s : CycleSearch) (p : NodeId) : (explore edges fuel s p).entered = s.entered := by
  unfold explore
  split
  · rfl
  · split
    · split <;> rfl
    · exact hvisit s p

theorem entered_visit (fuel : Nat) (s : CycleSearch) (n : NodeId) :
    (visit edges fuel s n).entered = s.entered := by
  induction fuel generalizing s n with
  | zero => rfl
  | succ fuel ih =>
    have hfold : ∀ (ps : List NodeId) (s : CycleSearch),
        (ps.foldl (explore edges fuel) s).entered = s.entered := by
      intro ps
      induction ps with
      | nil => exact fun _ => rfl
      | cons p ps ihps => exact fun s => (ihps _).trans (entered_explore ih s p)
    rw [visit_succ]
    dsimp only
    rw [hfold]
    exact List.erase_cons_head n s.entered

/-- One producer of the node the search is in: where it is a node the search is inside of, it reads
itself through that node. -/
theorem onCycles_explore {fuel : Nat} {s : CycleSearch} {n p : NodeId}
    (hvisit : ∀ s n, (∀ m ∈ s.entered, Relation.TransGen (fun a b => (a, b) ∈ edges) m n) →
      OnCycles edges s → OnCycles edges (visit edges fuel s n))
    (hentered : ∀ m ∈ s.entered, Relation.ReflTransGen (fun a b => (a, b) ∈ edges) m n)
    (hp : (n, p) ∈ edges) (hs : OnCycles edges s) : OnCycles edges (explore edges fuel s p) := by
  unfold explore
  split
  · exact hs
  · split
    · next hin =>
      split
      · exact hs
      · have hback := hentered p (List.contains_iff_mem.mp hin)
        intro q hq
        rcases List.mem_cons.mp hq with rfl | hq
        · exact Relation.TransGen.tail' hback hp
        · exact hs q hq
    · exact hvisit s p (fun m hm => Relation.TransGen.tail' (hentered m hm) hp) hs

theorem onCycles_visit (fuel : Nat) (s : CycleSearch) (n : NodeId)
    (hentered : ∀ m ∈ s.entered, Relation.TransGen (fun a b => (a, b) ∈ edges) m n)
    (hs : OnCycles edges s) : OnCycles edges (visit edges fuel s n) := by
  induction fuel generalizing s n with
  | zero => exact hs
  | succ fuel ih =>
    -- While the producers are explored, the search is inside of the node and of what led to it.
    have hfold : ∀ (ps : List NodeId) (t : CycleSearch), (∀ p ∈ ps, (n, p) ∈ edges) →
        t.entered = n :: s.entered → OnCycles edges t →
        OnCycles edges (ps.foldl (explore edges fuel) t) := by
      intro ps
      induction ps with
      | nil => exact fun _ _ _ ht => ht
      | cons p ps ihps =>
        intro t hps ht hcycles
        rw [List.forall_mem_cons] at hps
        have hreads : ∀ m ∈ t.entered, Relation.ReflTransGen (fun a b => (a, b) ∈ edges) m n := by
          intro m hm
          rw [ht] at hm
          rcases List.mem_cons.mp hm with rfl | hm
          · exact .refl
          · exact (hentered m hm).to_reflTransGen
        exact ihps _ hps.2 ((entered_explore (entered_visit fuel) t p).trans ht)
          (onCycles_explore ih hreads hps.1 hcycles)
    rw [visit_succ]
    exact hfold _ _ (fun p hp => mem_producers_iff.mp hp) rfl hs

theorem transGen_of_mem_dataCycles {g : Graph} {id : NodeId} (h : id ∈ g.dataCycles) :
    Relation.TransGen (fun a b => (a, b) ∈ g.dependencies) id id := by
  unfold dataCycles at h
  dsimp only at h
  rw [List.mem_reverse] at h
  generalize g.nodes.size + g.dependencies.length + 1 = fuel at h
  have hfold : ∀ (ns : List Node) (s : CycleSearch), s.entered = [] → OnCycles g.dependencies s →
      OnCycles g.dependencies (ns.foldl (fun s n =>
        if s.left.contains n.id then s else visit g.dependencies fuel s n.id) s) := by
    intro ns
    induction ns with
    | nil => exact fun _ _ hs => hs
    | cons n ns ih =>
      intro s hempty hs
      rw [List.foldl_cons]
      split
      · exact ih s hempty hs
      · refine ih _ ((entered_visit fuel s n.id).trans hempty) ?_
        refine onCycles_visit fuel s n.id (fun m hm => ?_) hs
        rw [hempty] at hm
        cases hm
  exact hfold g.liveNodes {} rfl (fun p hp => by cases hp) id h

end Flowscript.Graph
