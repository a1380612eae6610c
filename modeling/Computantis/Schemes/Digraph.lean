import Mathlib.Data.List.AList
import Mathlib.Data.Fintype.Card
import Mathlib.Data.List.Dedup
import Mathlib.Data.Set.Finite.List
import Mathlib.Logic.Relation
import Mathlib.Tactic.Common

/-! @scheme digraph | name:Finite acyclic digraph with keyed nodes | family:graph |
    complexity:O(V·E) per ancestor query

    A digraph stores a value under each key and a set of arcs between keys. Both laws a DAG library
    promises are fields: arcs join known nodes (`ends`) and no path returns to its start (`acyclic`),
    so a graph that breaks either cannot be built. Adding a node refuses a known key, adding an arc
    refuses unknown ends, repetitions and cycles, deleting a node takes its arcs along.

    `ancestors` is the executable ancestor query; `mem_ancestors` is its specification. The frame
    lemmas say which ancestor sets survive the insertion of a childless node (`Grown`) and the deletion
    of one (`anc_delete_leaf`), and which arcs are left when a list of nodes is deleted (`arc_deleteAll`). -/

namespace Schemes

/-- A finite acyclic digraph with a value of type `α` under each key. -/
structure Digraph (κ α : Type) [DecidableEq κ] where
  nodes : AList fun _ : κ => α
  arcs : List (κ × κ)
  ends : ∀ {p c : κ}, (p, c) ∈ arcs → p ∈ nodes ∧ c ∈ nodes
  acyclic : ∀ x : κ, ¬ Relation.TransGen (fun p c => (p, c) ∈ arcs) x x

namespace Digraph

variable {κ α : Type} [DecidableEq κ] {g g' : Digraph κ α} {c k p x y : κ}

/-- `p` is a parent of `c`. -/
def Arc (g : Digraph κ α) (p c : κ) : Prop := (p, c) ∈ g.arcs

instance (g : Digraph κ α) (p c : κ) : Decidable (g.Arc p c) :=
  inferInstanceAs (Decidable ((p, c) ∈ g.arcs))

/-- `x` is a proper ancestor of `y`. -/
def Anc (g : Digraph κ α) : κ → κ → Prop := Relation.TransGen g.Arc

/-- Some arc leaves `k`. -/
def HasChild (g : Digraph κ α) (k : κ) : Prop := ∃ c, g.Arc k c

def get (g : Digraph κ α) (k : κ) : Option α := g.nodes.lookup k

def parents (g : Digraph κ α) (c : κ) : List κ := (g.arcs.filter (·.2 = c)).map (·.1)

theorem mem_parents : p ∈ g.parents c ↔ g.Arc p c := by
  simp [parents, Arc]

theorem mem_nodes : k ∈ g.nodes ↔ ∃ v, g.get k = some v := by
  rw [← AList.lookup_isSome, Option.isSome_iff_exists]; rfl

theorem get_eq_none : g.get k = none ↔ k ∉ g.nodes := AList.lookup_eq_none

theorem Arc.left (h : g.Arc p c) : p ∈ g.nodes := (g.ends h).1
theorem Arc.right (h : g.Arc p c) : c ∈ g.nodes := (g.ends h).2

theorem Anc.left (h : g.Anc x y) : x ∈ g.nodes := by
  obtain ⟨z, hz, -⟩ := Relation.TransGen.head'_iff.mp h
  exact Arc.left hz

theorem Anc.hasChild (h : g.Anc x y) : g.HasChild x := by
  obtain ⟨z, hz, -⟩ := Relation.TransGen.head'_iff.mp h
  exact ⟨z, hz⟩

theorem Anc.ne (h : g.Anc x y) : x ≠ y := by
  rintro rfl; exact g.acyclic x h

theorem anc_mono (h : ∀ x y, g.Arc x y → g'.Arc x y) (hxy : g.Anc x y) : g'.Anc x y := Relation.TransGen.mono h x y hxy

/-! ### Leaves and roots -/

/-- No arc leaves `k`. -/
def isLeaf (g : Digraph κ α) (k : κ) : Bool := g.arcs.all (·.1 ≠ k)

/-- No arc enters `k`. -/
def isRoot (g : Digraph κ α) (k : κ) : Bool := g.arcs.all (·.2 ≠ k)

theorem isLeaf_iff : g.isLeaf k = true ↔ ¬ g.HasChild k := by
  simp only [isLeaf, List.all_eq_true, decide_eq_true_eq, HasChild, Arc, not_exists]
  exact ⟨fun h c hc => h (k, c) hc rfl, fun h e he hk => h e.2 (by rw [← hk]; exact he)⟩

theorem isLeaf_eq_false : g.isLeaf k = false ↔ g.HasChild k := by
  rw [← Bool.not_eq_true, isLeaf_iff, not_not]

theorem isRoot_iff : g.isRoot k = true ↔ ∀ p, ¬ g.Arc p k := by
  simp only [isRoot, List.all_eq_true, decide_eq_true_eq, Arc]
  exact ⟨fun h p hp => h (p, k) hp rfl, fun h e he hk => h e.1 (by rw [← hk]; exact he)⟩

theorem isRoot_iff_anc : g.isRoot k = true ↔ ∀ x, ¬ g.Anc x k := by
  rw [isRoot_iff]
  refine ⟨fun h x hx => ?_, fun h p hp => h p (.single hp)⟩
  obtain ⟨p, -, hp⟩ := Relation.TransGen.tail'_iff.mp hx
  exact h p hp

/-- The keys of the childless nodes. -/
def leaves (g : Digraph κ α) : List κ := g.nodes.keys.filter g.isLeaf

def roots (g : Digraph κ α) : List κ := g.nodes.keys.filter g.isRoot

theorem mem_leaves : k ∈ g.leaves ↔ k ∈ g.nodes ∧ ¬ g.HasChild k := by
  rw [leaves, List.mem_filter, isLeaf_iff, AList.mem_keys]

theorem mem_roots : k ∈ g.roots ↔ k ∈ g.nodes ∧ ∀ p, ¬ g.Arc p k := by
  rw [roots, List.mem_filter, isRoot_iff, AList.mem_keys]

theorem leaves_nodup (g : Digraph κ α) : g.leaves.Nodup := g.nodes.keys_nodup.filter _

theorem anc_wellFounded (g : Digraph κ α) : WellFounded fun x y : {k // k ∈ g.nodes} => g.Anc x y := by
  have : Finite {k // k ∈ g.nodes} := g.nodes.keys.finite_toSet
  have : IsTrans {k // k ∈ g.nodes} (fun x y => g.Anc x y) := ⟨fun _ _ _ => Relation.TransGen.trans⟩
  have : Std.Irrefl (fun x y : {k // k ∈ g.nodes} => g.Anc x y) := ⟨fun x => g.acyclic x⟩
  exact Finite.wellFounded_of_trans_of_irrefl _

theorem desc_wellFounded (g : Digraph κ α) : WellFounded fun x y : {k // k ∈ g.nodes} => g.Anc y x := by
  have : Finite {k // k ∈ g.nodes} := g.nodes.keys.finite_toSet
  have : IsTrans {k // k ∈ g.nodes} (fun x y => g.Anc y x) := ⟨fun _ _ _ h k => Relation.TransGen.trans k h⟩
  have : Std.Irrefl (fun x y : {k // k ∈ g.nodes} => g.Anc y x) := ⟨fun x => g.acyclic x⟩
  exact Finite.wellFounded_of_trans_of_irrefl _

theorem anc_induction (g : Digraph κ α) {P : κ → Prop}
    (step : ∀ y, y ∈ g.nodes → (∀ x, g.Anc x y → P x) → P y) : ∀ k, k ∈ g.nodes → P k := by
  intro k hk
  have key : ∀ x : {k // k ∈ g.nodes}, P x := fun x =>
    g.anc_wellFounded.induction x fun y ih => step y y.2 fun z hz => ih ⟨z, hz.left⟩ hz
  exact key ⟨k, hk⟩

theorem exists_leaf_below (g : Digraph κ α) (hk : k ∈ g.nodes) : ∃ l ∈ g.leaves, l = k ∨ g.Anc k l := by
  have key : ∀ x : {k // k ∈ g.nodes}, ∃ l ∈ g.leaves, l = x.1 ∨ g.Anc x.1 l := fun x => by
    induction x using g.desc_wellFounded.induction with | _ y ih
    by_cases hy : g.HasChild y
    · obtain ⟨c, hc⟩ := hy
      obtain ⟨l, hl, hcl⟩ := ih ⟨c, hc.right⟩ (.single hc)
      refine ⟨l, hl, Or.inr ?_⟩
      rcases hcl with rfl | hcl
      · exact .single hc
      · exact .head hc hcl
    · exact ⟨y, mem_leaves.mpr ⟨y.2, hy⟩, Or.inl rfl⟩
  exact key ⟨k, hk⟩

theorem leaves_ne_nil (g : Digraph κ α) (hk : k ∈ g.nodes) : g.leaves ≠ [] := by
  obtain ⟨l, hl, -⟩ := g.exists_leaf_below hk
  exact List.ne_nil_of_mem hl

theorem roots_ne_nil (g : Digraph κ α) (hk : k ∈ g.nodes) : g.roots ≠ [] := by
  intro hnil
  refine g.anc_induction (P := fun _ => False) (fun y hy ih => ?_) k hk
  have hy' : y ∉ g.roots := by simp [hnil]
  simp only [mem_roots, hy, true_and, not_forall, not_not] at hy'
  obtain ⟨p, hp⟩ := hy'
  exact ih p (.single hp)

/-! ### The ancestor query -/

/-- The parents of `seen` that have not been seen. -/
def unseen (g : Digraph κ α) (seen : List κ) : List κ :=
  ((seen.flatMap g.parents).filter (· ∉ seen)).dedup

theorem mem_unseen {seen : List κ} : p ∈ g.unseen seen ↔ (∃ x ∈ seen, g.Arc p x) ∧ p ∉ seen := by
  simp [unseen, mem_parents]

/-- Climb in rounds until one finds nothing new. -/
def climb (g : Digraph κ α) : ℕ → List κ → List κ
  | 0, seen => seen
  | n + 1, seen => if g.unseen seen = [] then seen else climb g n (seen ++ g.unseen seen)

/-- The proper ancestors of `k`, nearest first. -/
def ancestors (g : Digraph κ α) (k : κ) : List κ := g.climb g.nodes.keys.length (g.parents k).dedup

theorem climb_sound (g : Digraph κ α) : ∀ (n : ℕ) (seen : List κ),
    (∀ x ∈ seen, g.Anc x k) → ∀ x ∈ g.climb n seen, g.Anc x k
  | 0, _, h => h
  | n + 1, seen, h => by
      rw [climb]
      split
      · exact h
      · refine climb_sound g n _ fun x hx => ?_
        rcases List.mem_append.mp hx with hx | hx
        · exact h x hx
        · obtain ⟨⟨y, hy, hxy⟩, -⟩ := mem_unseen.mp hx
          exact .head hxy (h y hy)

theorem subset_climb (g : Digraph κ α) : ∀ (n : ℕ) (seen : List κ), seen ⊆ g.climb n seen
  | 0, _ => List.Subset.refl _
  | n + 1, seen => by
      rw [climb]
      split
      · exact List.Subset.refl _
      · exact fun x hx => subset_climb g n _ (List.mem_append_left _ hx)

/-- With fuel for every unseen node, a climb ends closed under parents: each round but the last
    adds a node, and there are no more nodes than `keys`. -/
theorem climb_closed (g : Digraph κ α) : ∀ (n : ℕ) (seen : List κ), seen.Nodup →
    seen ⊆ g.nodes.keys → g.nodes.keys.length ≤ n + seen.length →
    ∀ x ∈ g.climb n seen, ∀ p, g.Arc p x → p ∈ g.climb n seen
  | 0, seen, hnd, hsub, hlen => by
      intro x _ p hp
      have hperm := (List.subperm_of_subset hnd hsub).perm_of_length_le (by omega)
      exact hperm.mem_iff.mpr (AList.mem_keys.mp hp.left)
  | n + 1, seen, hnd, hsub, hlen => by
      intro x hx p hp
      rw [climb] at hx ⊢
      split at hx
      next hnew =>
        rw [if_pos hnew]
        by_contra hmem
        have : p ∈ g.unseen seen := mem_unseen.mpr ⟨⟨x, hx, hp⟩, hmem⟩
        simp [hnew] at this
      next hnew =>
        rw [if_neg hnew]
        have hpos : 0 < (g.unseen seen).length := List.length_pos_iff.mpr hnew
        refine climb_closed g n _ ?_ ?_ ?_ x hx p hp
        · exact hnd.append (List.nodup_dedup _) fun y hy hy' => (mem_unseen.mp hy').2 hy
        · intro y hy
          rcases List.mem_append.mp hy with hy | hy
          · exact hsub hy
          · obtain ⟨⟨z, -, hyz⟩, -⟩ := mem_unseen.mp hy
            exact AList.mem_keys.mp hyz.left
        · rw [List.length_append]; omega

theorem climb_nodup (g : Digraph κ α) : ∀ (n : ℕ) (seen : List κ), seen.Nodup → (g.climb n seen).Nodup
  | 0, _, h => h
  | n + 1, seen, h => by
      rw [climb]
      split
      · exact h
      · exact climb_nodup g n _
          (h.append (List.nodup_dedup _) fun y hy hy' => (mem_unseen.mp hy').2 hy)

theorem ancestors_nodup (g : Digraph κ α) (k : κ) : (g.ancestors k).Nodup :=
  g.climb_nodup _ _ (List.nodup_dedup _)

theorem mem_ancestors : x ∈ g.ancestors k ↔ g.Anc x k := by
  constructor
  · refine climb_sound g _ _ (fun y hy => ?_) x
    exact .single (mem_parents.mp (List.mem_dedup.mp hy))
  · intro h
    have hclosed := climb_closed g g.nodes.keys.length (g.parents k).dedup (List.nodup_dedup _)
      (fun y hy => AList.mem_keys.mp (mem_parents.mp (List.mem_dedup.mp hy)).left) (by omega)
    induction h using Relation.TransGen.head_induction_on with
    | single hp => exact subset_climb g _ _ (List.mem_dedup.mpr (mem_parents.mpr hp))
    | head hp _ ih => exact hclosed _ ih _ hp

theorem length_ancestors_lt (h : g.Arc p c) : (g.ancestors p).length < (g.ancestors c).length := by
  have hnot : p ∉ g.ancestors p := fun hp => (mem_ancestors.mp hp).ne rfl
  have hnodup : (p :: g.ancestors p).Nodup := List.nodup_cons.mpr ⟨hnot, g.ancestors_nodup p⟩
  have hsub : p :: g.ancestors p ⊆ g.ancestors c := by
    intro x hx
    rcases List.mem_cons.mp hx with rfl | hx
    · exact mem_ancestors.mpr (.single h)
    · exact mem_ancestors.mpr ((mem_ancestors.mp hx).tail h)
  exact (List.subperm_of_subset hnodup hsub).length_le

instance (g : Digraph κ α) (x y : κ) : Decidable (g.Anc x y) := decidable_of_iff _ mem_ancestors

/-! ### Adding a node -/

def empty : Digraph κ α where
  nodes := ∅
  arcs := []
  ends := by simp
  acyclic x h := by
    obtain ⟨_, hz, -⟩ := Relation.TransGen.head'_iff.mp h
    simp at hz

/-- A new node, refused when the key is known. -/
def addNode (g : Digraph κ α) (k : κ) (v : α) : Option (Digraph κ α) :=
  if k ∈ g.nodes then none
  else some
    { nodes := g.nodes.insert k v
      arcs := g.arcs
      ends := fun h => ⟨(AList.mem_insert _).mpr (Or.inr (g.ends h).1),
        (AList.mem_insert _).mpr (Or.inr (g.ends h).2)⟩
      acyclic := g.acyclic }

theorem addNode_eq_none {v : α} : g.addNode k v = none ↔ k ∈ g.nodes := by
  unfold addNode; split <;> simp_all

theorem addNode_spec {v : α} (h : g.addNode k v = some g') :
    k ∉ g.nodes ∧ g'.arcs = g.arcs ∧ ∀ x, g'.get x = if x = k then some v else g.get x := by
  unfold addNode at h
  split at h
  · cases h
  next hk =>
    cases h
    refine ⟨hk, rfl, fun x => ?_⟩
    split
    next hx => subst hx; exact AList.lookup_insert _
    next hx => exact AList.lookup_insert_ne hx

/-! ### Adding an arc -/

omit [DecidableEq κ] in
theorem transGen_insert {r s : κ → κ → Prop} (hs : ∀ x y, s x y → r x y ∨ (x = p ∧ y = c))
    (h : Relation.TransGen s x y) :
    Relation.TransGen r x y ∨ (Relation.ReflTransGen r x p ∧ Relation.ReflTransGen r c y) := by
  induction h with
  | single hxy =>
    rcases hs _ _ hxy with hr | ⟨rfl, rfl⟩
    · exact Or.inl (.single hr)
    · exact Or.inr ⟨.refl, .refl⟩
  | tail _ hyz ih =>
    rcases hs _ _ hyz with hr | ⟨rfl, rfl⟩
    · rcases ih with ih | ⟨hxp, hcy⟩
      · exact Or.inl (ih.tail hr)
      · exact Or.inr ⟨hxp, hcy.tail hr⟩
    · rcases ih with ih | ⟨hxp, -⟩
      · exact Or.inr ⟨ih.to_reflTransGen, .refl⟩
      · exact Or.inr ⟨hxp, .refl⟩

/-- A new arc, refused when an end is unknown, the ends are equal, the arc is known or it would
    close a cycle. -/
def addArc (g : Digraph κ α) (p c : κ) : Option (Digraph κ α) :=
  if h : p ∈ g.nodes ∧ c ∈ g.nodes ∧ p ≠ c ∧ (p, c) ∉ g.arcs ∧ c ∉ g.ancestors p then
    some
      { nodes := g.nodes
        arcs := (p, c) :: g.arcs
        ends := by
          intro x y hxy
          rcases List.mem_cons.mp hxy with heq | hxy
          · cases heq; exact ⟨h.1, h.2.1⟩
          · exact g.ends hxy
        acyclic := by
          intro x hx
          have hs : ∀ a b, (a, b) ∈ (p, c) :: g.arcs → (a, b) ∈ g.arcs ∨ (a = p ∧ b = c) := by
            intro a b hab
            rcases List.mem_cons.mp hab with heq | hab
            · cases heq; exact Or.inr ⟨rfl, rfl⟩
            · exact Or.inl hab
          rcases transGen_insert hs hx with hx | ⟨hxp, hcx⟩
          · exact g.acyclic x hx
          · rcases Relation.reflTransGen_iff_eq_or_transGen.mp (hcx.trans hxp) with heq | hcp
            · exact h.2.2.1 heq
            · exact h.2.2.2.2 (mem_ancestors.mpr hcp) }
  else none

theorem addArc_spec (h : g.addArc p c = some g') :
    (p ∈ g.nodes ∧ c ∈ g.nodes) ∧ g'.nodes = g.nodes ∧
      ∀ x y, g'.Arc x y ↔ g.Arc x y ∨ (x = p ∧ y = c) := by
  unfold addArc at h
  split at h
  next hc =>
    cases h
    refine ⟨⟨hc.1, hc.2.1⟩, rfl, fun x y => ?_⟩
    simp only [Arc, List.mem_cons, Prod.mk.injEq]
    exact or_comm
  · cases h

theorem addArc_isSome (hp : p ∈ g.nodes) (hc : c ∈ g.nodes) (hne : p ≠ c) (harc : ¬ g.Arc p c) (hanc : ¬ g.Anc c p) :
    ∃ g', g.addArc p c = some g' := by
  unfold addArc
  rw [dif_pos ⟨hp, hc, hne, harc, fun h => hanc (mem_ancestors.mp h)⟩]
  exact ⟨_, rfl⟩

theorem addArc_of_part {whole : Digraph κ α} (hpart : ∀ x y, g.Arc x y → whole.Arc x y) (hp : p ∈ g.nodes)
    (hc : c ∈ g.nodes) (harc : whole.Arc p c) (hnew : ¬ g.Arc p c) :
    ∃ g', g.addArc p c = some g' := by
  have hanc : ¬ whole.Anc c p := fun h => whole.acyclic c (h.tail harc)
  refine addArc_isSome hp hc ?_ hnew fun h => hanc (anc_mono hpart h)
  rintro rfl
  exact whole.acyclic p (.single harc)

/-! ### Deleting a node -/

/-- Delete a node together with its arcs. -/
def delete (g : Digraph κ α) (k : κ) : Digraph κ α where
  nodes := g.nodes.erase k
  arcs := g.arcs.filter fun e => e.1 ≠ k ∧ e.2 ≠ k
  ends := by
    intro p c h
    simp only [List.mem_filter, decide_eq_true_eq] at h
    exact ⟨AList.mem_erase.mpr ⟨h.2.1, (g.ends h.1).1⟩, AList.mem_erase.mpr ⟨h.2.2, (g.ends h.1).2⟩⟩
  acyclic x h := g.acyclic x (Relation.TransGen.mono (fun _ _ h => List.mem_of_mem_filter h) x x h)

theorem get_delete (g : Digraph κ α) (k x : κ) :
    (g.delete k).get x = if x = k then none else g.get x := by
  split
  next h => subst h; exact AList.lookup_erase _ _
  next h => exact AList.lookup_erase_ne h

theorem arc_delete : (g.delete k).Arc p c ↔ g.Arc p c ∧ p ≠ k ∧ c ≠ k := by
  simp [Arc, delete]

theorem mem_delete : x ∈ (g.delete k).nodes ↔ x ≠ k ∧ x ∈ g.nodes :=
  AList.mem_erase

theorem anc_delete_leaf (hk : ¬ g.HasChild k) (hy : y ≠ k) : (g.delete k).Anc x y ↔ g.Anc x y := by
  constructor
  · exact anc_mono fun _ _ h => (arc_delete.mp h).1
  · intro h
    induction h with
    | single hxy => exact .single (arc_delete.mpr ⟨hxy, fun e => hk ⟨_, e ▸ hxy⟩, hy⟩)
    | @tail b c _ hbc ih =>
      have hb : b ≠ k := fun e => hk ⟨_, e ▸ hbc⟩
      exact (ih hb).tail (arc_delete.mpr ⟨hbc, hb, hy⟩)

/-- `g'` has the same past of `k` as `g`: the same ancestors, with the same values. -/
structure SamePast (g g' : Digraph κ α) (k : κ) : Prop where
  anc : ∀ x, g'.Anc x k ↔ g.Anc x k
  get : ∀ x, x = k ∨ g.Anc x k → g'.get x = g.get x

theorem SamePast.refl (g : Digraph κ α) (k : κ) : SamePast g g k := ⟨fun _ => Iff.rfl, fun _ _ => rfl⟩

theorem SamePast.trans {g'' : Digraph κ α} (h : SamePast g g' k) (h' : SamePast g' g'' k) : SamePast g g'' k := by
  refine ⟨fun x => (h'.anc x).trans (h.anc x), fun x hx => ?_⟩
  rw [h'.get x (hx.imp id (h.anc x).mpr), h.get x hx]

theorem SamePast.symm (h : SamePast g g' k) : SamePast g' g k :=
  ⟨fun x => (h.anc x).symm, fun x hx => (h.get x (hx.imp id (h.anc x).mp)).symm⟩

theorem SamePast.of_arc (harc : ∀ p c, c = k ∨ g.Anc c k → (g'.Arc p c ↔ g.Arc p c))
    (hget : ∀ x, x = k ∨ g.Anc x k → g'.get x = g.get x) : SamePast g g' k := by
  refine ⟨fun x => ⟨fun hx => ?_, fun hx => ?_⟩, hget⟩
  · induction hx using Relation.TransGen.head_induction_on with
    | single hxk => exact .single ((harc _ _ (Or.inl rfl)).mp hxk)
    | head hxy _ ih => exact .head ((harc _ _ (Or.inr ih)).mp hxy) ih
  · induction hx using Relation.TransGen.head_induction_on with
    | single hxk => exact .single ((harc _ _ (Or.inl rfl)).mpr hxk)
    | head hxy hyk ih => exact .head ((harc _ _ (Or.inr hyk)).mpr hxy) ih

theorem SamePast.isRoot (h : SamePast g g' k) : g'.isRoot k = g.isRoot k := by
  rw [Bool.eq_iff_iff, isRoot_iff_anc, isRoot_iff_anc]
  simp only [h.anc]

theorem samePast_delete {n : κ} (hn : ¬ g.HasChild n) (hk : k ≠ n) : SamePast g (g.delete n) k := by
  refine ⟨fun x => anc_delete_leaf hn hk, fun x hx => ?_⟩
  rw [get_delete, if_neg]
  rintro rfl
  rcases hx with rfl | hx
  · exact hk rfl
  · exact hn hx.hasChild

/-- Delete a list of nodes, one after the other. -/
def deleteAll (g : Digraph κ α) (ks : List κ) : Digraph κ α := ks.foldl delete g

theorem get_deleteAll : ∀ (ks : List κ) (g : Digraph κ α) (x : κ),
    (g.deleteAll ks).get x = if x ∈ ks then none else g.get x
  | [], g, x => by simp [deleteAll]
  | k :: ks, g, x => by
      have ih := get_deleteAll ks (g.delete k) x
      rw [get_delete] at ih
      simp only [deleteAll, List.foldl_cons, List.mem_cons] at ih ⊢
      rw [ih]
      by_cases hk : x = k <;> by_cases hks : x ∈ ks <;> simp [hk, hks]

theorem arc_deleteAll : ∀ {ks : List κ} {g : Digraph κ α} {p c : κ},
    (g.deleteAll ks).Arc p c ↔ g.Arc p c ∧ p ∉ ks ∧ c ∉ ks
  | [], g, p, c => by simp [deleteAll]
  | k :: ks, g, p, c => by
      have ih := @arc_deleteAll ks (g.delete k) p c
      rw [arc_delete] at ih
      simp only [deleteAll, List.foldl_cons, List.mem_cons] at ih ⊢
      rw [ih]; tauto

/-! ### Growing by one childless node -/

/-- `g'` is `g` with the new node `n` below the known nodes `ps`. -/
structure Grown (g g' : Digraph κ α) (n : κ) (v : α) (ps : List κ) : Prop where
  fresh : n ∉ g.nodes
  known : ∀ p ∈ ps, p ∈ g.nodes
  get : ∀ x, g'.get x = if x = n then some v else g.get x
  arc : ∀ x y, g'.Arc x y ↔ g.Arc x y ∨ (y = n ∧ x ∈ ps)

namespace Grown

variable {g g' : Digraph κ α} {n : κ} {v : α} {ps : List κ} {x : κ}

theorem get_self (h : Grown g g' n v ps) : g'.get n = some v := by rw [h.get, if_pos rfl]

theorem get_of_ne (h : Grown g g' n v ps) (hx : x ≠ n) : g'.get x = g.get x := by
  rw [h.get, if_neg hx]

theorem mem (h : Grown g g' n v ps) : x ∈ g'.nodes ↔ x = n ∨ x ∈ g.nodes := by
  rw [mem_nodes, mem_nodes, h.get]
  by_cases hx : x = n <;> simp [hx]

theorem ne (h : Grown g g' n v ps) (hx : x ∈ g.nodes) : x ≠ n := by
  rintro rfl; exact h.fresh hx

theorem childless (h : Grown g g' n v ps) : ¬ g'.HasChild n := by
  rintro ⟨c, hc⟩
  rcases (h.arc _ _).mp hc with hc | ⟨-, hn⟩
  · exact h.fresh hc.left
  · exact h.fresh (h.known n hn)

theorem arc_self (h : Grown g g' n v ps) : g'.Arc x n ↔ x ∈ ps := by
  rw [h.arc]
  exact ⟨fun hx => (hx.resolve_left fun hx => h.fresh hx.right).2, fun hx => Or.inr ⟨rfl, hx⟩⟩

theorem arc_of_ne (h : Grown g g' n v ps) (hy : y ≠ n) : g'.Arc x y ↔ g.Arc x y := by
  rw [h.arc]
  exact ⟨fun hx => hx.resolve_right fun hx => hy hx.1, Or.inl⟩

theorem hasChild (h : Grown g g' n v ps) : g'.HasChild x ↔ g.HasChild x ∨ x ∈ ps := by
  constructor
  · rintro ⟨c, hc⟩
    rcases (h.arc _ _).mp hc with hc | ⟨-, hx⟩
    · exact Or.inl ⟨c, hc⟩
    · exact Or.inr hx
  · rintro (⟨c, hc⟩ | hx)
    · exact ⟨c, (h.arc _ _).mpr (Or.inl hc)⟩
    · exact ⟨n, h.arc_self.mpr hx⟩

theorem anc_of_ne (h : Grown g g' n v ps) (hy : y ≠ n) : g'.Anc x y ↔ g.Anc x y := by
  constructor
  · intro hxy
    induction hxy with
    | single hxy => exact .single ((h.arc_of_ne hy).mp hxy)
    | @tail b c _ hbc ih =>
      have hb : b ≠ n := fun e => h.childless ⟨_, e ▸ hbc⟩
      exact (ih hb).tail ((h.arc_of_ne hy).mp hbc)
  · exact anc_mono fun _ _ hxy => (h.arc _ _).mpr (Or.inl hxy)

theorem anc_self (h : Grown g g' n v ps) : g'.Anc x n ↔ ∃ p ∈ ps, x = p ∨ g.Anc x p := by
  constructor
  · intro hxn
    obtain ⟨p, hxp, hpn⟩ := Relation.TransGen.tail'_iff.mp hxn
    have hp := h.arc_self.mp hpn
    refine ⟨p, hp, ?_⟩
    rcases Relation.reflTransGen_iff_eq_or_transGen.mp hxp with rfl | hxp
    · exact Or.inl rfl
    · exact Or.inr ((h.anc_of_ne (h.ne (h.known p hp))).mp hxp)
  · rintro ⟨p, hp, rfl | hxp⟩
    · exact .single (h.arc_self.mpr hp)
    · exact ((h.anc_of_ne (h.ne (h.known p hp))).mpr hxp).tail (h.arc_self.mpr hp)

theorem samePast (h : Grown g g' n v ps) (hk : k ∈ g.nodes) : SamePast g g' k := by
  refine ⟨fun x => h.anc_of_ne (h.ne hk), fun x hx => h.get_of_ne ?_⟩
  rcases hx with rfl | hx
  · exact h.ne hk
  · exact h.ne hx.left

theorem congr (h : Grown g g' n v ps) {qs : List κ} (hq : ∀ x, x ∈ qs ↔ x ∈ ps) :
    Grown g g' n v qs :=
  ⟨h.fresh, fun p hp => h.known p ((hq p).mp hp), h.get, fun x y => by rw [h.arc, hq]⟩

theorem of_addNode (h : g.addNode n v = some g') : Grown g g' n v [] := by
  obtain ⟨hfresh, harcs, hget⟩ := addNode_spec h
  exact ⟨hfresh, by simp, hget, fun x y => by simp [Arc, harcs]⟩

theorem addArc (h : Grown g g' n v ps) (hp : p ∈ g.nodes) (hps : p ∉ ps) :
    ∃ g'', g'.addArc p n = some g'' ∧ Grown g g'' n v (ps ++ [p]) := by
  obtain ⟨g'', hg''⟩ := addArc_isSome (h.mem.mpr (Or.inr hp)) (h.mem.mpr (Or.inl rfl)) (h.ne hp)
    (fun harc => hps (h.arc_self.mp harc)) (fun hanc => h.childless hanc.hasChild)
  obtain ⟨-, hnodes, harc⟩ := addArc_spec hg''
  refine ⟨g'', hg'', h.fresh, ?_, fun x => ?_, fun x y => ?_⟩
  · intro q hq
    rcases List.mem_append.mp hq with hq | hq
    · exact h.known q hq
    · rw [List.mem_singleton.mp hq]; exact hp
  · rw [Digraph.get, hnodes]; exact h.get x
  · rw [harc, h.arc, List.mem_append, List.mem_singleton]; tauto

end Grown

end Digraph

end Schemes
