import Computantis.Model.Ledger
import Mathlib.Algebra.BigOperators.Group.List.Basic

/-! @law funds | name:Funds walks are exact sums | family:fold | about:Model/Ledger

    `walkFunds` is a fold of `pourFunds` over the first occurrences of what the walker delivers
    (`walkFunds_calm`). On normalised spice whose totals fit, the fold adds up exactly what the
    address received and issued (`foldFunds_exact`), whatever the order, and the final check compares
    the two sums (`checkHasSufficientfunds_iff`). -/

namespace Computantis

open Schemes

/-- Pour every vertex of the list. -/
def foldFunds (a : Address) (vs : List Vertex) (pots : Pots) : Except Err Pots :=
  vs.foldlM (fun pots v => pourFunds a v pots) pots

@[simp] theorem foldFunds_nil (a : Address) (pots : Pots) : foldFunds a [] pots = .ok pots := rfl

theorem foldFunds_cons (a : Address) (v : Vertex) (vs : List Vertex) (pots : Pots) :
    foldFunds a (v :: vs) pots = (pourFunds a v pots).bind (foldFunds a vs) := rfl

/-! ### Exact sums -/

/-- Spice that `a` issues in `v`, in supplementary units. -/
def issuedBy (a : Address) (v : Vertex) : ℕ :=
  if v.transaction.issuerAddress = a then v.transaction.spice.value else 0

/-- Spice that `a` receives in `v`. -/
def receivedBy (a : Address) (v : Vertex) : ℕ :=
  if v.transaction.receiverAddress = a then v.transaction.spice.value else 0

def issued (a : Address) (vs : List Vertex) : ℕ := (vs.map (issuedBy a)).sum

def received (a : Address) (vs : List Vertex) : ℕ := (vs.map (receivedBy a)).sum

variable {d : Dag} {v : Vertex} {vs ws : List Vertex} {ids : List Hash}

@[simp] theorem issued_nil (a : Address) : issued a [] = 0 := rfl
@[simp] theorem received_nil (a : Address) : received a [] = 0 := rfl

@[simp] theorem issued_cons (a : Address) (v : Vertex) (vs : List Vertex) :
    issued a (v :: vs) = issuedBy a v + issued a vs := by simp [issued]

@[simp] theorem received_cons (a : Address) (v : Vertex) (vs : List Vertex) :
    received a (v :: vs) = receivedBy a v + received a vs := by simp [received]

theorem issued_perm (a : Address) (h : vs.Perm ws) : issued a vs = issued a ws :=
  (h.map _).sum_eq

theorem received_perm (a : Address) (h : vs.Perm ws) :
    received a vs = received a ws := (h.map _).sum_eq

/-- Both pots are normalised. -/
structure Pots.Norm (p : Pots) : Prop where
  spiceIn : p.spiceIn.Norm
  spiceOut : p.spiceOut.Norm

theorem Pots.norm_zero : Pots.zero.Norm := ⟨Melange.norm_zero, Melange.norm_zero⟩

/-- The spice of every vertex of the list is normalised. -/
def AllNorm (vs : List Vertex) : Prop := ∀ v ∈ vs, v.transaction.spice.Norm

theorem AllNorm.perm (h : AllNorm vs) (hp : vs.Perm ws) : AllNorm ws :=
  fun v hv => h v (hp.mem_iff.mpr hv)

theorem supplyPot_exact {m a : Melange} (hm : m.Norm) (ha : a.Norm)
    (hfit : m.value + a.value < Melange.cap) :
    ∃ m', supplyPot m a = .ok m' ∧ m'.Norm ∧ m'.value = m.value + a.value := by
  obtain ⟨m', hs, hn, hv⟩ := Melange.supply_exact hm ha hfit
  exact ⟨m', by rw [supplyPot, hs], hn, hv⟩

theorem pourFunds_exact {a : Address} {p : Pots} (hp : p.Norm) (hv : v.transaction.spice.Norm)
    (hout : p.spiceOut.value + issuedBy a v < Melange.cap) (hin : p.spiceIn.value + receivedBy a v < Melange.cap) :
    ∃ q, pourFunds a v p = .ok q ∧ q.Norm ∧ q.spiceOut.value = p.spiceOut.value + issuedBy a v ∧
      q.spiceIn.value = p.spiceIn.value + receivedBy a v := by
  unfold pourFunds
  cases hs : v.transaction.isSpiceTransfer with
  | false =>
    have hz := Transaction.isSpiceTransfer_eq_false.mp hs
    exact ⟨p, by simp, hp, by simp [issuedBy, hz], by simp [receivedBy, hz]⟩
  | true =>
    simp only [Bool.not_true, Bool.false_eq_true, if_false]
    by_cases hi : v.transaction.issuerAddress = a <;> by_cases hr : v.transaction.receiverAddress = a
    · simp only [issuedBy, receivedBy, if_pos hi, if_pos hr] at *
      obtain ⟨m, hm, hmn, hmv⟩ := supplyPot_exact hp.spiceOut hv hout
      obtain ⟨k, hk, hkn, hkv⟩ := supplyPot_exact hp.spiceIn hv hin
      exact ⟨⟨k, m⟩, by simp [hm, hk, Except.bind, Except.map], ⟨hkn, hmn⟩, hmv, hkv⟩
    · simp only [issuedBy, receivedBy, if_pos hi, if_neg hr] at *
      obtain ⟨m, hm, hmn, hmv⟩ := supplyPot_exact hp.spiceOut hv hout
      exact ⟨⟨p.spiceIn, m⟩, by simp [hm, Except.bind, Except.map], ⟨hp.spiceIn, hmn⟩, hmv, rfl⟩
    · simp only [issuedBy, receivedBy, if_neg hi, if_pos hr] at *
      obtain ⟨k, hk, hkn, hkv⟩ := supplyPot_exact hp.spiceIn hv hin
      exact ⟨⟨k, p.spiceOut⟩, by simp [hk, Except.bind, Except.map], ⟨hkn, hp.spiceOut⟩, rfl, hkv⟩
    · simp only [issuedBy, receivedBy, if_neg hi, if_neg hr] at *
      exact ⟨p, by simp [Except.bind], hp, rfl, rfl⟩

theorem foldFunds_exact {a : Address} : ∀ {vs : List Vertex} {p : Pots}, p.Norm → AllNorm vs →
    p.spiceOut.value + issued a vs < Melange.cap → p.spiceIn.value + received a vs < Melange.cap →
    ∃ q, foldFunds a vs p = .ok q ∧ q.Norm ∧ q.spiceOut.value = p.spiceOut.value + issued a vs ∧
      q.spiceIn.value = p.spiceIn.value + received a vs
  | [], p, hp, _, _, _ => ⟨p, rfl, hp, rfl, rfl⟩
  | v :: vs, p, hp, hn, hout, hin => by
      rw [issued_cons] at hout
      rw [received_cons] at hin
      have hv := hn v (List.mem_cons_self ..)
      have hvs : AllNorm vs := fun w hw => hn w (List.mem_cons_of_mem _ hw)
      obtain ⟨q, hq, hqn, hqo, hqi⟩ := pourFunds_exact (a := a) hp hv (by omega) (by omega)
      obtain ⟨r, hr, hrn, hro, hri⟩ := foldFunds_exact (a := a) hqn hvs (by omega) (by omega)
      refine ⟨r, ?_, hrn, ?_, ?_⟩
      · rw [foldFunds_cons, hq]; exact hr
      · rw [hro, hqo, issued_cons]; omega
      · rw [hri, hqi, received_cons]; omega

/-- VERDICT: the final check compares what came in with what went out. -/
theorem checkHasSufficientfunds_iff {p : Pots} (hp : p.Norm) :
    checkHasSufficientfunds p = .ok () ↔ p.spiceOut.value ≤ p.spiceIn.value := by
  rw [← Melange.drain_err_iff hp.spiceIn hp.spiceOut, checkHasSufficientfunds]
  cases (p.spiceIn.drain p.spiceOut Melange.zero).err <;> simp

/-! ### The walk is a fold -/

/-- The vertices that the graph holds under the ids. -/
def Dag.vertices (d : Dag) (ids : List Hash) : List Vertex := ids.filterMap d.getVertex

/-- The vertex under `k` and all its ancestors. -/
def Dag.past (d : Dag) (k : Hash) : List Vertex := d.vertices (k :: d.graph.ancestors k)

/-- All vertices of the graph. -/
def Dag.all (d : Dag) : List Vertex := d.vertices d.graph.nodes.keys

theorem Dag.mem_vertices : v ∈ d.vertices ids ↔ v.hash ∈ ids ∧ d.getVertex v.hash = some v := by
  rw [Dag.vertices, List.mem_filterMap]
  refine ⟨?_, fun h => ⟨v.hash, h⟩⟩
  rintro ⟨k, hk, hget⟩
  have hkey : v.hash = k := d.keyed hget
  subst hkey
  exact ⟨hk, hget⟩

theorem Dag.vertices_hash_nodup (h : ids.Nodup) : ((d.vertices ids).map Vertex.hash).Nodup := by
  rw [Dag.vertices, List.map_filterMap]
  refine h.filterMap fun k k' x hk hk' => ?_
  simp only [Option.mem_def, Option.map_eq_some_iff] at hk hk'
  obtain ⟨v, hv, rfl⟩ := hk
  obtain ⟨v', hv', heq⟩ := hk'
  rw [← d.keyed hv, ← heq, d.keyed hv']

theorem Dag.vertices_nodup (h : ids.Nodup) : (d.vertices ids).Nodup :=
  (Dag.vertices_hash_nodup h).of_map _

theorem Dag.mem_past {k : Hash} :
    v ∈ d.past k ↔ (v.hash = k ∨ d.graph.Anc v.hash k) ∧ d.getVertex v.hash = some v := by
  rw [Dag.past, Dag.mem_vertices, List.mem_cons, Digraph.mem_ancestors]

theorem Dag.mem_all : v ∈ d.all ↔ d.getVertex v.hash = some v := by
  rw [Dag.all, Dag.mem_vertices, ← AList.mem_keys]
  exact ⟨fun h => h.2, fun h => ⟨Dag.mem_nodes h, h⟩⟩

/-- An uncancelled walk succeeds exactly when its ids are known, the parents among them verify and
    the fold of `pourFunds` over the first occurrences succeeds; then it returns the fold's pots. -/
theorem walkFunds_calm {env : Env} {leaf : Vertex} : ∀ {ids visited : List Hash} {i : ℕ}
    {p q : Pots}, walkFunds env d leaf none ids i visited p = .ok q ↔
      (∀ id ∈ firsts visited ids, ∃ v, d.getVertex id = some v ∧
        ((v.hash = leaf.leftParentHash ∨ v.hash = leaf.rightParentHash) → v.verify env.verifier = true)) ∧
      foldFunds leaf.transaction.issuerAddress (d.vertices (firsts visited ids)) p = .ok q
  | [], visited, i, p, q => by simp [walkFunds, firsts, Dag.vertices]
  | id :: ids, visited, i, p, q => by
      rw [walkFunds, firsts, if_neg (by simp)]
      by_cases hvis : id ∈ visited
      · rw [if_pos hvis, if_pos hvis]; exact walkFunds_calm
      · rw [if_neg hvis, if_neg hvis]
        cases hget : d.getVertex id with
        | none => simp [hget]
        | some v =>
          have hvs : d.vertices (id :: firsts (id :: visited) ids) =
              v :: d.vertices (firsts (id :: visited) ids) := by simp [Dag.vertices, hget]
          simp only [List.forall_mem_cons, hget, Option.some.injEq, exists_eq_left', hvs,
            foldFunds_cons]
          by_cases hver : v.verify env.verifier = true
          · simp only [hver, Bool.true_eq_false, and_false, if_false, implies_true, true_and]
            cases hpour : pourFunds leaf.transaction.issuerAddress v p with
            | error e => simp [Except.bind]
            | ok r => exact walkFunds_calm
          · have hver' : v.verify env.verifier = false := by simpa using hver
            simp only [hver', and_true, Bool.false_eq_true, imp_false]
            by_cases hl : v.hash = leaf.leftParentHash
            · rw [if_pos hl]; simp [hl]
            · rw [if_neg hl]
              by_cases hr : v.hash = leaf.rightParentHash
              · rw [if_pos hr]; simp [hr]
              · rw [if_neg hr]
                simp only [hl, hr, or_self, not_false_eq_true, true_and]
                cases hpour : pourFunds leaf.transaction.issuerAddress v p with
                | error e => simp [Except.bind]
                | ok r => exact walkFunds_calm

theorem walkFunds_ok {env : Env} {leaf : Vertex} {c : Option ℕ} :
    ∀ {ids visited : List Hash} {i : ℕ} {p q : Pots},
      walkFunds env d leaf c ids i visited p = .ok q → walkFunds env d leaf none ids i visited p = .ok q
  | [], _, _, _, _, h => h
  | id :: ids, visited, i, p, q, h => by
      rw [walkFunds] at h ⊢
      split at h
      · cases h
      · rw [if_neg (by simp)]
        split at h
        next hvis => rw [if_pos hvis]; exact walkFunds_ok h
        next hvis =>
          rw [if_neg hvis]
          cases hget : d.getVertex id with
          | none => rw [hget] at h; exact h
          | some v =>
            rw [hget] at h
            simp only at h ⊢
            split at h
            · cases h
            next h1 =>
              rw [if_neg h1]
              split at h
              · cases h
              next h2 =>
                rw [if_neg h2]
                cases hpour : pourFunds leaf.transaction.issuerAddress v p with
                | error e => rw [hpour] at h; exact h
                | ok r => rw [hpour] at h; exact walkFunds_ok h

end Computantis
